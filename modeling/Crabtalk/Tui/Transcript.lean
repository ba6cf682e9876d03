import Crabtalk.Basis.Lines
import Crabtalk.System.Stdio

/-!
# The transcript as it arrives

Chunks in, items out. Text is held until its line ends, a code block until its
fence closes, a table until a line that is none of its rows. Thinking has a
buffer of its own, but it is one of the states, and a state that is overwritten
takes what it held with it.
-/

open Basis
open Crabtalk.Store (Str)
open Crabtalk.System (Json)

namespace Crabtalk.Tui

/-! ## Items -/

inductive ToolStatus
  | running
  | success
  | failure
  deriving DecidableEq

inductive Item
  | text (md : Str) (marker : Bool)
  | prompt (text : Str)
  | border (label : Str)
  | code (code : Str)
  | table (rows : Str)
  | tool (labels : List Str) (status : ToolStatus)
  | result (output : Str) (failed : Bool)
  | thinking (text : Str)
  | error (text : Str)
  | blank
  deriving DecidableEq

class TuiStd where
  toUpperCamelCase : Str → Str
  fromStr : Str → Option Json

section
variable [TuiStd]

def failed (output : Str) : Bool :=
  match ((TuiStd.fromStr output).bind fun value =>
    value.get "exit_code".toList).bind Json.asI64 with
  | some code => code ≠ 0
  | none => ["bash failed:", "tool not available:",
      "invalid arguments:"].any fun start => start.toList.isPrefixOf output

/-- A tool call named the way the transcript names it. A command is cut at a number of bytes, where
that is possible. -/
def label (name args : Str) (width : Nat) : Option Str :=
  let pascal := TuiStd.toUpperCamelCase name
  if name ≠ "bash".toList then some pascal
  else
    match ((TuiStd.fromStr args).bind fun value => value.get "command".toList).bind Json.asStr with
    | none => some pascal
    | some command =>
      let first := (lines command).headD command
      let max := width - 8
      let shown :=
        if max < utf8Length first then (splitBytes max first).map fun cut => cut.1 ++ "...".toList
        else if utf8Length first < utf8Length command then some (first ++ "...".toList)
        else some first
      shown.map fun shown => "Bash(".toList ++ shown ++ ")".toList

end

/-! ## The transcript -/

inductive State
  | normal
  | code (code : Str)
  | table (rows : Str)
  | thinking
  deriving DecidableEq

structure Transcript where
  items : List Item
  waiting : Bool
  line : Str
  state : State
  marker : Bool
  started : Bool
  afterTool : Bool
  thinking : Str
  toolFailed : Bool
  width : Nat
  deriving DecidableEq

namespace Transcript

def new (width : Nat) : Transcript where
  items := []
  waiting := false
  line := []
  state := .normal
  marker := false
  started := false
  afterTool := false
  thinking := []
  toolFailed := false
  width

def push (t : Transcript) (item : Item) : Transcript := { t with items := t.items ++ [item] }

def start (t : Transcript) : Transcript :=
  { t with waiting := true, started := false, marker := false, afterTool := false, toolFailed := false }

/-! ## Flushing -/

def openCode (t : Transcript) (lang : Str) : Transcript :=
  let label := if lang = [] then "┌─".toList else "┌ ".toList ++ lang ++ " ─".toList
  { t.push (.border label) with marker := false, state := .code [] }

def flushTable (t : Transcript) : Transcript :=
  match t.state with
  | .table rows => { t.push (.table rows) with state := .normal }
  | _ => { t with state := .normal }

def flushLine (t : Transcript) : Transcript :=
  if t.line = [] then t
  else
    let line := t.line
    let t := { t with line := [] }
    match t.state with
    | .code code => { t.push (.code (code ++ line)) with state := .normal, marker := false }
    | _ => { t.push (.text line t.marker) with marker := false }

def flushThinking (t : Transcript) : Transcript :=
  let t := if t.thinking = [] then t else { t.push (.thinking t.thinking) with thinking := [] }
  match t.state with
  | .thinking => { t with state := .normal }
  | _ => t

/-! ## Lines -/

def plainLine (t : Transcript) (line : Str) : Transcript :=
  if "```".toList.isPrefixOf line then t.openCode (trim (line.drop 3))
  else if line.head? = some '|' then { t with state := .table (line ++ ['\n']) }
  else if line = [] then t.push .blank
  else t.push (.text line t.marker)

def takeLine (t : Transcript) (line : Str) : Transcript :=
  match t.state with
  | .code code =>
    if "```".toList.isPrefixOf line then { t.push (.code code) with state := .normal }
    else { t with state := .code (code ++ line ++ ['\n']) }
  | .table rows =>
    if line.head? = some '|' then { t with state := .table (rows ++ line ++ ['\n']) }
    else t.flushTable.plainLine line
  | .normal | .thinking => t.plainLine line

def pushChar (t : Transcript) (ch : Char) : Transcript :=
  if ch ≠ '\n' then { t with line := t.line ++ [ch] }
  else
    let line := t.line
    let t := { t with line := [] }.takeLine line
    if line ≠ [] then { t with marker := false } else t

/-! ## What arrives -/

def openResponse (t : Transcript) : Transcript :=
  if t.started then t else { t with started := true, marker := true }

def openAfterTool (t : Transcript) : Transcript :=
  if t.afterTool then { t with afterTool := false, marker := true } else t

def pushText (t : Transcript) (chunk : Str) : Transcript :=
  if chunk = [] then t
  else
    let t := { t with waiting := false }
    let t := if t.state = .thinking then t.flushThinking else t
    chunk.foldl pushChar t.openResponse.openAfterTool

def pushThinking (t : Transcript) (chunk : Str) : Transcript :=
  if chunk = [] then t
    else { t with waiting := false, state := .thinking, thinking := t.thinking ++ chunk }

/-- No transcript where a label panics. -/
def pushToolStart [TuiStd] (t : Transcript) (calls : List (Str × Str)) : Option Transcript := do
  let t := { t.flushThinking.flushLine with waiting := false, toolFailed := false }
  let labels ← calls.mapM fun (name, args) => label name args t.width
  return (t.push .blank).push (.tool labels .running)

def pushToolResult [TuiStd] (t : Transcript) (output : Str) : Transcript :=
  ({ t with toolFailed := t.toolFailed || failed output }.push
    (.result output (failed output))).push .blank

def settleFirst (status : ToolStatus) : List Item → List Item
  | [] => []
  | .tool labels .running :: rest => .tool labels status :: rest
  | item :: rest => item :: settleFirst status rest

def pushToolDone (t : Transcript) : Transcript :=
  { t with
    items := (settleFirst (if t.toolFailed then .failure else .success) t.items.reverse).reverse
    afterTool := true }

def finish (t : Transcript) : Transcript :=
  { t.pushToolDone.flushThinking.flushLine with waiting := false, afterTool := false }

/-! ## Runs -/

inductive Event
  | start
  | text (chunk : Str)
  | thinking (chunk : Str)
  | toolStart (calls : List (Str × Str))
  | toolResult (output : Str)
  | toolDone
  deriving DecidableEq

def perform [TuiStd] (t : Transcript) : Event → Option Transcript
  | .start => some t.start
  | .text chunk => some (t.pushText chunk)
  | .thinking chunk => some (t.pushThinking chunk)
  | .toolStart calls => t.pushToolStart calls
  | .toolResult output => some (t.pushToolResult output)
  | .toolDone => some t.pushToolDone

def run [TuiStd] (t : Transcript) (events : List Event) : Option Transcript :=
  events.foldlM perform t

end Transcript

end Crabtalk.Tui

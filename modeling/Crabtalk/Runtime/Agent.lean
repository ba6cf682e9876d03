import Crabtalk.Runtime.Session

/-! # The agent loop

A run is the list of what it does, in order: model calls, events handed to the
consumer, tool dispatches, and entries committed to the history. What comes
from outside (the provider's stream, the tools, the cancellation token) is a
script with one page for each round. A consumer that drops the stream leaves a
prefix of the list.
-/

open Crabtalk.Store

namespace Crabtalk.Runtime

/-! ## The provider's side -/

structure ToolCall where
  id : Str
  name : Str
  arguments : Str
  deriving DecidableEq

structure Usage where
  totalTokens : Nat
  deriving DecidableEq

/-- What the loop reads of a stream event; the rest is for the message builder. -/
inductive Streamed
  | text (text : Str)
  | thinking (thinking : Str)
  | delta (stopReason : Option Str) (usage : Usage)
  | other

/-- The wire messages of the provider library, as far as the agent uses them.
`ofBlocks` is the message of the assistant with these blocks. -/
class AgentWire (μ : Type) extends Wire μ where
  Blocks : Type
  ofBlocks : Blocks → μ
  textOf : μ → Option Str
  thinking : μ → Option Str
  toolCalls : μ → List ToolCall
  tool : Str → Str → Str → μ
  role_ofBlocks : ∀ b, role (ofBlocks b) = "assistant".toList
  text_eq : ∀ m, text m = (textOf m).getD []
  toolCalls_assistant : ∀ s r, toolCalls (assistant s r) = []
  role_tool : ∀ i n s, role (tool i n s) ≠ "assistant".toList ∧ role (tool i n s) ≠ "system".toList

/-- The message builder of the provider library, over its stream events `η`. -/
structure Codec (η β μ : Type) [AgentWire μ] where
  view : η → Streamed
  new : β
  accept : β → η → β
  toolCalls : β → List ToolCall
  malformedToolCalls : β → List Str
  build : β → μ
  length : Str → Bool
  toolCalls_build : ∀ b, AgentWire.toolCalls (build b) = toolCalls b

/-! ## Events -/

variable {η β μ : Type}

inductive AgentStopReason
  | textResponse
  | maxIterations
  | noAction
  | maxTokens
  | error (e : Str)
  | cancelled
  deriving DecidableEq

structure AgentStep (μ : Type) where
  message : μ
  usage : Usage
  finishReason : Option Str
  toolCalls : List ToolCall
  toolResults : List (HistoryEntry μ)
  deriving DecidableEq

structure AgentResponse (μ : Type) where
  steps : List (AgentStep μ)
  finalResponse : Option Str
  iterations : Nat
  stopReason : AgentStopReason
  model : Str
  deriving DecidableEq

inductive AgentEvent (μ : Type)
  | textStart
  | textDelta (text : Str)
  | textEnd
  | thinkingStart
  | thinkingDelta (text : Str)
  | thinkingEnd
  | toolCallsBegin (calls : List ToolCall)
  | toolCallsStart (calls : List ToolCall)
  | toolResult (callId : Str) (output : Except Str Str) (durationMs : Nat)
  | toolCallsComplete
  | contextUsage (usage : Usage)
  | done (response : AgentResponse μ)

inductive Act (μ : Type)
  | request (history : List (HistoryEntry μ))
  | emit (event : AgentEvent μ)
  | dispatch (call : ToolCall) (sender : Str)
  | commit (entries : List (HistoryEntry μ))
  | panic

def Act.entries : Act μ → List (HistoryEntry μ)
  | .commit entries => entries
  | _ => []

def Act.event : Act μ → Option (AgentEvent μ)
  | .emit event => some event
  | _ => none

def committed (acts : List (Act μ)) : List (HistoryEntry μ) := acts.flatMap Act.entries

def emitted (acts : List (Act μ)) : List (AgentEvent μ) := acts.filterMap Act.event

/-! ## What happens to a round -/

inductive Ending
  | closed
  | error (e : Str)
  | cancelled

/-- One page of the script: the stream, then the tools. The `k`-th tool to finish is the
one `choose k` picks of those still running; the token may fire before the `k`-th does. -/
structure Round (η : Type) where
  events : List η
  ending : Ending
  choose : Nat → Nat
  output : Nat → Except Str Str
  durationMs : Nat → Nat
  cancelAt : Option Nat

def completions (choose : Nat → Nat) : Nat → List Nat → List Nat
  | 0, _ => []
  | n + 1, running =>
    match running[choose n % running.length]? with
    | none => []
    | some idx => idx :: completions choose n (running.eraseIdx (choose n % running.length))

/-! ## The stream of one round -/

inductive OpenSegment
  | none
  | text
  | thinking
  deriving DecidableEq

structure Streaming (β : Type) where
  builder : β
  finishReason : Option Str
  lastUsage : Option Usage
  toolBeginEmitted : Bool
  seg : OpenSegment

section
variable [AgentWire μ] (c : Codec η β μ)

def Streaming.new : Streaming β :=
  { builder := c.new, finishReason := none, lastUsage := none, toolBeginEmitted := false, seg := .none }

def closeSegment : OpenSegment → List (AgentEvent μ)
  | .text => [.textEnd]
  | .thinking => [.thinkingEnd]
  | .none => []

def openSegment (wanted : OpenSegment) (start : AgentEvent μ) (seg : OpenSegment) :
    List (AgentEvent μ) :=
  if seg ≠ wanted then closeSegment seg ++ [start] else []

def onDelta (st : Streaming β) : Streamed → Streaming β × List (AgentEvent μ)
  | .text text =>
    ({ st with seg := .text }, openSegment .text .textStart st.seg ++ [.textDelta text])
  | .thinking thinking =>
    if thinking = [] then (st, [])
    else ({ st with seg := .thinking }, openSegment .thinking .thinkingStart st.seg ++
      [.thinkingDelta thinking])
  | .delta stopReason usage => ({ st with finishReason := stopReason, lastUsage := some usage }, [])
  | .other => (st, [])

def onEvent (st : Streaming β) (event : η) : Streaming β × List (AgentEvent μ) :=
  let (st, events) := onDelta st (c.view event)
  let st := { st with builder := c.accept st.builder event }
  if st.toolBeginEmitted = false ∧ c.toolCalls st.builder ≠ [] then
    ({ st with toolBeginEmitted := true }, events ++ [.toolCallsBegin (c.toolCalls st.builder)])
  else (st, events)

def onEvents : Streaming β → List η → Streaming β × List (AgentEvent μ)
  | st, [] => (st, [])
  | st, event :: events =>
    let (st, out) := onEvent c st event
    let (st, rest) := onEvents st events
    (st, out ++ rest)

/-! ## The tools of one round -/

def lastSender (history : List (HistoryEntry μ)) : Str :=
  match history.reverse.find? fun e => e.role = .user with
  | some e => e.sender
  | none => []

def toolOutputText : Except Str Str → Str
  | .ok s => s
  | .error s => s

def toolEntry (call : ToolCall) (out : Except Str Str) : HistoryEntry μ :=
  .fromMessage (AgentWire.tool call.id call.name (toolOutputText out))

def finished (r : Round η) (calls : List ToolCall) : List Nat :=
  let order := completions r.choose calls.length (List.range calls.length)
  match r.cancelAt with
  | some k => order.take k
  | none => order

def interrupted (r : Round η) (calls : List ToolCall) : Bool :=
  match r.cancelAt with
  | some k => k ≤ calls.length
  | none => false

def buffered (r : Round η) (calls : List ToolCall) : List (Option (Except Str Str)) :=
  (finished r calls).foldl (fun b idx => b.set idx (some (r.output idx)))
    (List.replicate calls.length none)

def resultEvent (r : Round η) (calls : List ToolCall) (idx : Nat) : Option (AgentEvent μ) :=
  calls[idx]?.map fun call => .toolResult call.id (r.output idx) (r.durationMs idx)

/-- A token that has fired already keeps the dispatch futures from being polled at all. -/
def dispatches (r : Round η) (calls : List ToolCall) (sender : Str) : List (Act μ) :=
  if r.cancelAt = some 0 then [] else calls.map fun call => .dispatch call sender

/-! ## One round -/

structure Loop (μ : Type) where
  history : List (HistoryEntry μ)
  steps : List (AgentStep μ)

def finish (model : Str) (steps : List (AgentStep μ)) (finalResponse : Option Str)
    (stopReason : AgentStopReason) : Act μ :=
  .emit (.done { steps, finalResponse, iterations := steps.length, stopReason, model })

def surfaceUsage (usage : Usage) : List (Act μ) :=
  if 0 < usage.totalTokens then [.emit (.contextUsage usage)] else []

def joinNames (names : List Str) : Str := ", ".toList.intercalate names

/-- From the end of the stream on. `none` ends the run. -/
def dispatchRound (model : Str) (r : Round η) (s : Loop μ) (st : Streaming β) :
    List (Act μ) × Option (Loop μ) :=
  let malformed := c.malformedToolCalls st.builder
  if malformed ≠ [] ∧ st.finishReason.any c.length = false then
    ([finish model s.steps none (.error
      ("unparsable arguments for ".toList ++ joinNames malformed))], none)
  else
    let calls := c.toolCalls st.builder
    let message := c.build st.builder
    let usage := st.lastUsage.getD ⟨0⟩
    let entry := HistoryEntry.fromMessage message
    if AgentWire.textOf message = none ∧
      calls = [] then ([finish model s.steps none .noAction], none)
    else if calls = [] then
      let steps :=
        s.steps ++
          [{ message, usage, finishReason := st.finishReason, toolCalls := [], toolResults := [] }]
      (.commit [entry] :: surfaceUsage usage ++
        [finish model steps (AgentWire.textOf message)
          (if (AgentWire.textOf message).isSome then .textResponse else .noAction)], none)
    else
      let start := .emit (.toolCallsStart calls) :: dispatches r calls (lastSender s.history) ++
        ((finished r calls).filterMap (resultEvent r calls)).map Act.emit
      if interrupted r calls then (start ++ [finish model s.steps none .cancelled], none)
      else
        match (buffered r calls).mapM id with
        | none => (start ++ [.panic], none)
        | some outs =>
          let results := List.zipWith toolEntry calls outs
          (start ++ .commit (entry :: results) :: .emit .toolCallsComplete :: surfaceUsage usage,
            some
              { history := s.history ++ entry :: results
                steps := s.steps ++
                  [{ message, usage, finishReason := st.finishReason, toolCalls := calls, toolResults := results }] })

def partialText (message : μ) : List (Act μ) :=
  if Wire.text message = [] then []
  else [.commit [HistoryEntry.fromMessage
    (Wire.assistant (Wire.text message) (AgentWire.thinking message))]]

def roundActs (model : Str) (r : Round η) (s : Loop μ) : List (Act μ) × Option (Loop μ) :=
  let (st, events) := onEvents c (Streaming.new c) r.events
  let stream := .request s.history :: (events ++ closeSegment st.seg).map Act.emit
  match r.ending with
  | .cancelled =>
    (stream ++ partialText (c.build st.builder) ++ [finish model s.steps none .cancelled], none)
  | .error e => (stream ++ [finish model s.steps none (.error e)], none)
  | .closed =>
    let (acts, next) := dispatchRound c model r s st
    (stream ++ acts, next)

/-! ## The run -/

def runRounds (model : Str) (script : Nat → Round η) : Nat → Nat → Loop μ → List (Act μ)
  | 0, _, s =>
    [finish model s.steps (s.steps.getLast?.bind fun step => AgentWire.textOf step.message)
        .maxIterations]
  | n + 1, i, s =>
    match roundActs c model (script i) s with
    | (acts, none) => acts
    | (acts, some s) => acts ++ runRounds model script n (i + 1) s

def runStream (model : Str) (maxIterations : Nat) (script : Nat → Round η)
    (history : List (HistoryEntry μ)) : List (Act μ) :=
  runRounds c model script maxIterations 0 ⟨history, []⟩

/-- `step`: one request that is answered in one piece, its tools all run. -/
def step (response : Except Str (AgentWire.Blocks μ × Usage × Option Str))
    (output : Nat → Except Str Str)
    (history : List (HistoryEntry μ)) : List (Act μ) × Except Str (AgentStep μ) :=
  match response with
  | .error e => ([.request history], .error e)
  | .ok (content, usage, finishReason) =>
    let message := AgentWire.ofBlocks content
    let calls := AgentWire.toolCalls message
    let entry := HistoryEntry.fromMessage message
    if calls = [] then
      ([.request history, .commit [entry]],
        .ok { message, usage, finishReason, toolCalls := calls, toolResults := [] })
    else
      let results := List.zipWith toolEntry calls ((List.range calls.length).map output)
      (.request history :: (calls.map fun call => .dispatch call (lastSender history)) ++
        [.commit (entry :: results)],
        .ok { message, usage, finishReason, toolCalls := calls, toolResults := results })

end

/-! ## Messages with tool calls -/

namespace Plain

inductive Talk
  | said (role text : Str)
  | asked (calls : List ToolCall)
  | answered (id name text : Str)
  deriving DecidableEq

instance : AgentWire Talk where
  role
    | .said role _ => role
    | .asked _ => "assistant".toList
    | .answered _ _ _ => "user".toList
  text
    | .said _ text => text
    | .asked _ => []
    | .answered _ _ text => text
  toolNames
    | .asked calls => calls.map ToolCall.name
    | _ => []
  hasToolResult
    | .answered _ _ _ => true
    | _ => false
  user := .said "user".toList
  system := .said "system".toList
  assistant text _ := .said "assistant".toList text
  role_user _ := rfl
  role_system _ := rfl
  role_assistant _ _ := rfl
  Blocks := List ToolCall ⊕ Str
  ofBlocks
    | .inl calls => .asked calls
    | .inr text => .said "assistant".toList text
  role_ofBlocks
    | .inl _ => rfl
    | .inr _ => rfl
  textOf
    | .said _ text => if text = [] then none else some text
    | .asked _ => none
    | .answered _ _ text => some text
  thinking _ := none
  toolCalls
    | .asked calls => calls
    | _ => []
  tool := .answered
  text_eq
    | .said _ text => by
      by_cases h : text = []
      · simp [h]
      · simp [h]
    | .asked _ => rfl
    | .answered _ _ _ => rfl
  toolCalls_assistant _ _ := rfl
  role_tool _ _ _ :=
    (by decide : "user".toList ≠ "assistant".toList ∧ "user".toList ≠ "system".toList)

def codec : Codec ToolCall (List ToolCall) Talk where
  view _ := .other
  new := []
  accept calls call := calls ++ [call]
  toolCalls calls := calls
  malformedToolCalls _ := []
  build calls := .asked calls
  length _ := false
  toolCalls_build _ := rfl

def asking (_ : Nat) : Round ToolCall :=
  { events := [⟨"1".toList, "recall".toList, []⟩], ending := .closed, choose := fun _ => 0, output := fun _ => .ok [],
    durationMs := fun _ => 0, cancelAt := none }

end Plain

end Crabtalk.Runtime

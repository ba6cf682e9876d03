import Crabtalk.Tui.History

/-!
# The input box

A text of lines with a cursor in characters, edited a key at a time, and the
history that is recalled into it. A string is indexed in bytes, so each key
goes through an offset; what indexes or cuts where it cannot, or goes below
zero, gives nothing.
-/

open Basis
open Crabtalk.Store (Str)

namespace Crabtalk.Tui

/-! ## Recall -/

namespace History

def prev (h : History) (current : Str) : Option (History × Option Str) := do
  let h := if h.cursor = h.entries.length then { h with stash := current } else h
  if h.cursor = 0 then return (h, none)
  let entry ← h.entries[h.cursor - 1]?
  return ({ h with cursor := h.cursor - 1 }, some entry)

def next (h : History) : Option (History × Option Str) := do
  if h.entries.length ≤ h.cursor then return (h, none)
  let h := { h with cursor := h.cursor + 1 }
  if h.cursor = h.entries.length then return (h, some h.stash)
  let entry ← h.entries[h.cursor]?
  return (h, some entry)

end History

/-! ## The buffer -/

def charIndices : Nat → Str → List (Nat × Char)
  | _, [] => []
  | n, c :: s => (n, c) :: charIndices (n + c.utf8Size) s

def byteOf (text : Str) (chars : Nat) : Nat :=
  ((charIndices 0 text)[chars]?.map Prod.fst).getD (utf8Length text)

def drain (line : Str) (start stop : Nat) : Option Str := do
  if stop < start then failure
  let (front, rest) ← splitBytes start line
  let (_, back) ← splitBytes (stop - start) rest
  return front ++ back

inductive KeyCode
  | backspace
  | left
  | right
  | home
  | toEnd
  | delete
  | enter
  | up
  | down
  | char (ch : Char)
  | other
  deriving DecidableEq

/-- The text being typed, as lines, and the row and the column of the cursor. -/
structure Buffer where
  lines : List Str
  cursor : Nat × Nat
  deriving DecidableEq

namespace Buffer

def new : Buffer := ⟨[[]], (0, 0)⟩

def fromStr (text : Str) : Option Buffer := do
  let lines := if text = [] then [[]] else Basis.lines text
  if lines.length = 0 then failure
  let last ← lines[lines.length - 1]?
  return ⟨lines, (lines.length - 1, last.length)⟩

def isEmpty (b : Buffer) : Bool := b.lines.length = 1 && b.lines.head? = some []

def content (b : Buffer) : Str := joinLines b.lines

def newline (b : Buffer) : Option Buffer := do
  let (row, col) := b.cursor
  let line ← b.lines[row]?
  let (front, rest) ← splitBytes (byteOf line col) line
  if b.lines.length < row + 1 then failure
  return ⟨(b.lines.set row front).insertIdx (row + 1) rest, (row + 1, 0)⟩

def key (b : Buffer) (code : KeyCode) : Option Buffer := do
  let (row, col) := b.cursor
  match code with
  | .backspace =>
    if col = 0 ∧ 0 < row then
      let joined ← b.lines[row]?
      let prev ← (b.lines.eraseIdx row)[row - 1]?
      return ⟨(b.lines.eraseIdx row).set (row - 1) (prev ++ joined), (row - 1, prev.length)⟩
    let line ← b.lines[row]?
    -- The column before the first is below zero.
    if col = 0 then failure
    let line ← drain line (byteOf line (col - 1)) (byteOf line col)
    return ⟨b.lines.set row line, (row, col - 1)⟩
  | .left =>
    if col = 0 ∧ 0 < row then
      let prev ← b.lines[row - 1]?
      return { b with cursor := (row - 1, prev.length) }
    return { b with cursor := (row, col - 1) }
  | .right =>
    let line ← b.lines[row]?
    if line.length ≤ col then return if row + 1 < b.lines.length
      then { b with cursor := (row + 1, 0) } else b
    return { b with cursor := (row, col + 1) }
  | .home => return { b with cursor := (row, 0) }
  | .toEnd =>
    let line ← b.lines[row]?
    return { b with cursor := (row, line.length) }
  | .delete =>
    let line ← b.lines[row]?
    if col < line.length then
      let line ← drain line (byteOf line col) (byteOf line (col + 1))
      return { b with lines := b.lines.set row line }
    return b
  | .char ch =>
    let line ← b.lines[row]?
    let (front, back) ← splitBytes (byteOf line col) line
    return ⟨b.lines.set row (front ++ ch :: back), (row, col + 1)⟩
  | .enter | .up | .down | .other => return b

def up (b : Buffer) : Option Buffer := do
  let (row, col) := b.cursor
  if 0 < row then
    let line ← b.lines[row - 1]?
    return { b with cursor := (row - 1, min col line.length) }
  return b

def down (b : Buffer) : Option Buffer := do
  let (row, col) := b.cursor
  if row + 1 < b.lines.length then
    let line ← b.lines[row + 1]?
    return { b with cursor := (row + 1, min col line.length) }
  return b

end Buffer

/-! ## Keys -/

structure KeyEvent where
  code : KeyCode
  ctrl : Bool
  shift : Bool
  deriving DecidableEq

inductive Action
  | submit (line : Str)
  | interrupt
  | eof
  | noop
  deriving DecidableEq

structure Input where
  buf : Buffer
  history : History
  deriving DecidableEq

namespace Input

def new (history : History) : Input := ⟨.new, history⟩

def clear (i : Input) : Input := { i with buf := .new }

/-- A text that is recalled, if there is one, takes the place of what is typed. -/
def fill (i : Input) (recalled : Option (History × Option Str)) : Option Input := do
  let (history, text) ← recalled
  match text with
  | some text => return { buf := ← Buffer.fromStr text, history }
  | none => return { i with history }

def key (i : Input) (k : KeyEvent) : Option (Input × Action) :=
  if k.code = .char 'c' ∧ k.ctrl then some (i, .interrupt)
  else if k.code = .char 'd' ∧ k.ctrl ∧ i.buf.isEmpty then some (i, .eof)
  else
    match k.code with
    | .enter =>
      if k.shift then i.buf.newline.map fun buf => ({ i with buf }, .noop)
      else
        let content := i.buf.content
        some ({ buf := .new, history := i.history.push content }, .submit content)
    | .up =>
      if 1 < i.buf.lines.length ∧ 0 < i.buf.cursor.1 then i.buf.up.map fun buf =>
        ({ i with buf }, .noop)
      else (i.fill (i.history.prev i.buf.content)).map fun i => (i, .noop)
    | .down =>
      if i.buf.cursor.1 + 1 < i.buf.lines.length then i.buf.down.map fun buf =>
        ({ i with buf }, .noop)
      else (i.fill i.history.next).map fun i => (i, .noop)
    | code => (i.buf.key code).map fun buf => ({ i with buf }, .noop)

/-! ## Runs -/

inductive Step
  | key (k : KeyEvent)
  | clear
  deriving DecidableEq

def step (i : Input) : Step → Option Input
  | .key k => (i.key k).map Prod.fst
  | .clear => some i.clear

def run (i : Input) (steps : List Step) : Option Input := steps.foldlM step i

end Input

end Crabtalk.Tui

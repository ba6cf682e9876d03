import Crabtalk.Basis.Caret
import Crabtalk.Tui.Input

/-!
# The box as an editor

What the input box is for: a text with a caret that is edited there, and a list
of texts that is walked up and down and ends with what was being typed. The box
does as the editor does unless a key deletes before the first character, or
what is recalled does not read back as the lines it was.
-/

open Basis
open Crabtalk.Store (Str)

namespace Crabtalk.Tui

/-! ## The editor -/

/-- The texts above what is shown, the nearest first, those from it on, and the one behind them
all. -/
structure Recall where
  older : List Str
  newer : List Str
  draft : Str
  deriving DecidableEq

namespace Recall

def up (r : Recall) (current : Str) : Recall × Option Str :=
  let draft := if r.newer = [] then current else r.draft
  match r.older with
  | [] => ({ r with draft }, none)
  | entry :: older => (⟨older, entry :: r.newer, draft⟩, some entry)

def down (r : Recall) : Recall × Option Str :=
  match r.newer with
  | [] => (r, none)
  | entry :: newer => (⟨entry :: r.older, newer, r.draft⟩, some (newer.headD r.draft))

/-- What is submitted is behind all the others, unless it is blank or the last of them. -/
def push (r : Recall) (line : Str) : Recall :=
  let past := r.newer.reverse ++ r.older
  ⟨if trim line = [] ∨ past.head? = some (trim line) then past else trim line :: past, [], r.draft⟩

end Recall

structure Editor where
  caret : Caret Char
  past : Recall
  deriving DecidableEq

namespace Editor

def new (history : History) : Editor := ⟨.ofRows [[]], ⟨history.entries.reverse, [], []⟩⟩

def ofText (text : Str) : Caret Char := .ofRows (text.splitOn '\n')

def text (e : Editor) : Str := joinLines e.caret.rows

def display (e : Editor) (recalled : Recall × Option Str) : Editor :=
  match recalled.2 with
  | some text => ⟨ofText text, recalled.1⟩
  | none => { e with past := recalled.1 }

def edit (c : Caret Char) : KeyCode → Caret Char
  | .backspace => c.backspace
  | .left => c.left
  | .right => c.right
  | .home => c.home
  | .toEnd => c.toEnd
  | .delete => c.delete
  | .char ch => c.insert ch
  | .enter | .up | .down | .other => c

def key (e : Editor) (k : KeyEvent) : Editor :=
  if k.code = .char 'c' ∧ k.ctrl ∨ k.code = .char 'd' ∧ k.ctrl ∧ e.caret.rows = [[]] then e
  else
    match k.code with
    | .enter => if k.shift then { e with caret := e.caret.split } else ⟨.ofRows [[]],
        e.past.push e.text⟩
    | .up => if e.caret.above ≠ [] then { e with caret := e.caret.up } else e.display (e.past.up e.text)
    | .down =>
      if e.caret.below ≠ [] then { e with caret := e.caret.down } else e.display e.past.down
    | code => { e with caret := edit e.caret code }

def step (e : Editor) : Input.Step → Editor
  | .key k => e.key k
  | .clear => { e with caret := .ofRows [[]] }

def run (e : Editor) (steps : List Input.Step) : Editor := steps.foldl step e

/-! ## What was being typed -/

variable {e : Editor} {d : Str}

theorem text_ofText (text : Str) (r : Recall) : (⟨ofText text, r⟩ : Editor).text = text := by
  rw [Editor.text, ofText, Caret.rows_ofRows (List.splitOn_ne_nil _ _)]
  exact List.intercalate_splitOn '\n'

def Holds (d : Str) (e : Editor) : Prop := if e.past.newer = [] then e.text = d
    else e.past.draft = d

theorem holds_moved (h : Holds d e) {c : Caret Char} (hc : c.rows = e.caret.rows) :
    Holds d { e with caret := c } := by
  unfold Holds text at *
  rw [hc]
  exact h

theorem holds_up (h : Holds d e) : Holds d (e.display (e.past.up e.text)) := by
  have hdraft : (if e.past.newer = [] then e.text else e.past.draft) = d := by
    unfold Holds at h
    split at h
    · next hnil => rwa [if_pos hnil]
    · next hnil => rwa [if_neg hnil]
  cases hold : e.past.older with
  | nil =>
    have heq : e.display (e.past.up e.text) = { e with past := { e.past with draft := d } } := by
      simp [Recall.up, hold, hdraft, display]
    rw [heq, Holds]
    split
    · next hnil => rwa [if_pos hnil] at hdraft
    · rfl
  | cons entry older =>
    have heq : e.display (e.past.up e.text) = ⟨ofText entry, ⟨older, entry :: e.past.newer, d⟩⟩ := by
      simp [Recall.up, hold, hdraft, display]
    rw [heq, Holds, if_neg (List.cons_ne_nil _ _)]

theorem holds_down (h : Holds d e) : Holds d (e.display e.past.down) := by
  cases hnew : e.past.newer with
  | nil =>
    have heq : e.display e.past.down = e := by simp [Recall.down, hnew, display]
    rwa [heq]
  | cons entry newer =>
    have heq : e.display e.past.down = ⟨ofText (newer.headD e.past.draft),
        ⟨entry :: e.past.older, newer, e.past.draft⟩⟩ := by
      simp [Recall.down, hnew, display]
    rw [Holds, hnew, if_neg (List.cons_ne_nil _ _)] at h
    rw [heq, Holds]
    split
    · next hnil =>
      have hlast : newer = [] := hnil
      rw [text_ofText, hlast]
      exact h
    · exact h

def IsRecall : Input.Step → Prop
  | .key k => k.code = .up ∨ k.code = .down
  | .clear => False

theorem holds_step {s : Input.Step} (hs : IsRecall s) (h : Holds d e) : Holds d (e.step s) := by
  cases s with
  | clear => exact hs.elim
  | key k =>
    obtain ⟨code, ctrl, shift⟩ := k
    rcases hs with rfl | rfl
    · show Holds d (if e.caret.above ≠ [] then _ else _)
      split
      · exact holds_moved h e.caret.rows_up
      · exact holds_up h
    · show Holds d (if e.caret.below ≠ [] then _ else _)
      split
      · exact holds_moved h e.caret.rows_down
      · exact holds_down h

/-- Up and then down again, what was being typed is there. -/
theorem text_recalled {steps : List Input.Step} (hs : ∀ s ∈ steps, IsRecall s)
    (h : e.past.newer = [])
    (hback : (e.run steps).past.newer = []) : (e.run steps).text = e.text := by
  have hholds : ∀ (steps : List Input.Step) (e' : Editor), (∀ s ∈ steps, IsRecall s) →
      Holds e.text e' → Holds e.text (e'.run steps) := by
    intro steps
    induction steps with
    | nil => exact fun _ _ hh => hh
    | cons s steps ih =>
      intro e' hs hh
      exact ih _ (fun s' hs' => hs s' (List.mem_cons_of_mem s hs'))
        (holds_step (hs s List.mem_cons_self) hh)
  have hlast := hholds steps e hs (by rw [Holds, if_pos h])
  rwa [Holds, if_pos hback] at hlast

end Editor

end Crabtalk.Tui

import Mathlib.Data.List.Basic

/-!
# Lines with a caret

A text that is being edited: the line of the caret is split there, and the
lines above it and below it are kept, the nearest first, as are the characters
before it. There is a line always, and the caret is in one.
-/

namespace Basis

structure Caret (α : Type) where
  above : List (List α)
  before : List α
  after : List α
  below : List (List α)
  deriving DecidableEq

namespace Caret

variable {α : Type}

def line (c : Caret α) : List α := c.before.reverse ++ c.after

def rows (c : Caret α) : List (List α) := c.above.reverse ++ c.line :: c.below

/-- How many lines are above the caret, and how many characters are before it. -/
def place (c : Caret α) : Nat × Nat := (c.above.length, c.before.length)

def ofRows (rows : List (List α)) : Caret α :=
  match rows.reverse with
  | [] => ⟨[], [], [], []⟩
  | last :: above => ⟨above, last.reverse, [], []⟩

/-! ## Editing -/

def insert (c : Caret α) (a : α) : Caret α := { c with before := a :: c.before }

def split (c : Caret α) : Caret α := { c with above := c.before.reverse :: c.above, before := [] }

/-- The character before the caret is deleted, and at the start of a line the line is joined to the
one above. -/
def backspace (c : Caret α) : Caret α :=
  match c.before, c.above with
  | _ :: before, _ => { c with before }
  | [], prev :: above => { c with above, before := prev.reverse }
  | [], [] => c

def delete (c : Caret α) : Caret α := { c with after := c.after.tail }

/-! ## Moving -/

def left (c : Caret α) : Caret α :=
  match c.before, c.above with
  | a :: before, _ => { c with before, after := a :: c.after }
  | [], prev :: above => ⟨above, prev.reverse, [], c.after :: c.below⟩
  | [], [] => c

def right (c : Caret α) : Caret α :=
  match c.after, c.below with
  | a :: after, _ => { c with before := a :: c.before, after }
  | [], next :: below => ⟨c.before.reverse :: c.above, [], next, below⟩
  | [], [] => c

def home (c : Caret α) : Caret α := { c with before := [], after := c.line }

def toEnd (c : Caret α) : Caret α := { c with before := c.line.reverse, after := [] }

def up (c : Caret α) : Caret α :=
  match c.above with
  | prev :: above => ⟨above, (prev.take c.before.length).reverse, prev.drop c.before.length,
      c.line :: c.below⟩
  | [] => c

def down (c : Caret α) : Caret α :=
  match c.below with
  | next :: below => ⟨c.line :: c.above, (next.take c.before.length).reverse,
      next.drop c.before.length, below⟩
  | [] => c

/-! ## What moving keeps -/

variable (c : Caret α)

theorem rows_ne_nil : c.rows ≠ [] := List.append_ne_nil_of_right_ne_nil _ (List.cons_ne_nil _ _)

theorem rows_ofRows {rows : List (List α)} (h : rows ≠ []) : (ofRows rows).rows = rows := by
  rw [ofRows]
  cases hrev : rows.reverse with
  | nil => exact absurd (List.reverse_eq_nil_iff.mp hrev) h
  | cons last above => rw [← List.reverse_reverse rows, hrev, List.reverse_cons, Caret.rows, line,
      List.reverse_reverse, List.append_nil]

@[simp] theorem rows_up : c.up.rows = c.rows := by
  unfold up
  split
  · next prev above h => simp [rows, line, h]
  · rfl

@[simp] theorem rows_down : c.down.rows = c.rows := by
  unfold down
  split
  · next next below h => simp [rows, line, h]
  · rfl

/-! ## Where the caret is -/

theorem rows_place : c.rows[c.place.1]? = some c.line := by
  simp [place, rows]

theorem place_col : c.place.2 ≤ c.line.length := by
  simp [place, line]

end Caret

end Basis

import Crabtalk.Tui.Transcript

/-!
# The input history

What was submitted, oldest first. It is kept between two runs as a file with a
line for each entry, while an entry may have several lines itself.
-/

open Basis
open Crabtalk.Store (Str)

namespace Crabtalk.Tui

structure History where
  entries : List Str
  cursor : Nat
  /-- What was typed before recall started. -/
  stash : Str
  deriving DecidableEq

namespace History

def load (file : Option Str) : History :=
  let entries := (lines (file.getD [])).filter fun line => line ≠ []
  { entries, cursor := entries.length, stash := [] }

def save (h : History) : Str := joinLines h.entries

def push (h : History) (line : Str) : History :=
  let line := trim line
  if line = [] then { h with cursor := h.entries.length }
  else
    let entries := if h.entries.getLast? = some line then h.entries else h.entries ++ [line]
    { h with entries, cursor := entries.length }

/-! ## Entries -/

section
variable {h : History} {file : Option Str} {input e : Str} {inputs : List Str}

theorem load_entries (file : Option Str) : (load file).entries = (lines (file.getD [])).filter
    fun line => line ≠ [] := rfl

theorem of_mem_load (he : e ∈ (load file).entries) : e ≠ [] ∧ '\n' ∉ e := by
  obtain ⟨hmem, hne⟩ := List.mem_filter.mp he
  exact ⟨of_decide_eq_true hne, notMem_of_mem_lines hmem⟩

theorem push_blank (hb : trim input = []) : (h.push input).entries = h.entries := by
  rw [push, if_pos hb]

theorem push_entries (hb : trim input ≠ []) :
    (h.push input).entries = if h.entries.getLast? = some (trim input) then h.entries
    else h.entries ++ [trim input] := by
  rw [push, if_neg hb]

/-- What is pushed is the last entry, whether it was there or not. -/
theorem getLast?_push (hb : trim input ≠ []) :
    (h.push input).entries.getLast? = some (trim input) := by
  rw [push_entries hb]
  split
  · assumption
  · exact List.getLast?_concat

theorem mem_push : e ∈ (h.push input).entries ↔ e ∈ h.entries ∨ e ≠ [] ∧ e = trim input := by
  by_cases hb : trim input = []
  · rw [push_blank hb]
    exact ⟨.inl, fun he => he.resolve_right fun ⟨hne, heq⟩ => hne (heq.trans hb)⟩
  · constructor
    · intro he
      rw [push_entries hb] at he
      split at he
      · exact .inl he
      · rw [List.mem_append, List.mem_singleton] at he
        exact he.imp_right fun heq => ⟨fun hnil => hb (heq.symm.trans hnil), heq⟩
    · intro he
      rcases he with he | ⟨-, rfl⟩
      · rw [push_entries hb]
        split
        · exact he
        · exact List.mem_append_left _ he
      · exact List.mem_of_getLast? (getLast?_push hb)

theorem mem_submitted : e ∈ (inputs.foldl push h).entries ↔ e ∈ h.entries ∨ e ≠ [] ∧
    ∃ input ∈ inputs, e = trim input := by
  induction inputs generalizing h with
  | nil => simp
  | cons input inputs ih => rw [List.foldl_cons, ih, mem_push, or_assoc, ← and_or_left,
      List.exists_mem_cons_iff]

/-! ## Carriage returns -/

theorem trim_ne_cr : (trim input).getLast? ≠ some '\r' :=
  fun h => absurd (getLast?_trim h) (by decide)

theorem mem_dropLast_iff (he : e.getLast? = some '\r') {es : List Str}
    (hlast : es.getLast? = some (trim input)) : e ∈ es.dropLast ↔ e ∈ es := by
  obtain ⟨front, rfl⟩ := List.getLast?_eq_some_iff.mp hlast
  have hne : e ≠ trim input := fun heq => trim_ne_cr (heq ▸ he)
  simp [hne]

/-- An entry that ends in a carriage return was there before, and what is pushed follows it. -/
theorem dropLast_submitted (he : e.getLast? = some '\r') :
    e ∈ (inputs.foldl push h).entries.dropLast ↔ e ∈ h.entries.dropLast ∨ e ∈ h.entries ∧
    ∃ input ∈ inputs, trim input ≠ [] := by
  induction inputs generalizing h with
  | nil => simp
  | cons input inputs ih =>
    rw [List.foldl_cons, ih, List.exists_mem_cons_iff]
    by_cases hb : trim input = []
    · simp only [push_blank hb, ne_eq, hb, not_true, false_or]
    · have hold : e ∈ (h.push input).entries ↔ e ∈ h.entries :=
        mem_push.trans (or_iff_left fun ⟨_, heq⟩ => trim_ne_cr (heq ▸ he))
      have hsub : e ∈ h.entries.dropLast → e ∈ h.entries := fun hmem => List.dropLast_subset _ hmem
      rw [mem_dropLast_iff he (getLast?_push hb), hold]
      simp only [ne_eq, hb, not_false_eq_true, true_or, and_true]
      exact ⟨fun hmem => .inr (hmem.elim id And.left), fun hmem => .inl (hmem.elim hsub id)⟩

/-! ## The file -/

/-- Reading back drops blank lines, of which a file of entries has none. -/
theorem load_joinLines {es : List Str} (h : ∀ e ∈ es, e ≠ [] ∧ '\n' ∉ e) :
    (load (some (joinLines es))).entries = es ↔ ∀ e ∈ es.dropLast, e.getLast? ≠ some '\r' := by
  have hlf := fun e he => (h e he).2
  have hlast : es.getLast? ≠ some [] := fun hnil => (h [] (List.mem_of_getLast? hnil)).1 rfl
  have hiff := lines_joinLines_iff hlf
  rw [and_iff_left hlast] at hiff
  rw [← hiff, load_entries, Option.getD_some]
  constructor
  · intro hback
    have hsub := List.filter_sublist (p := fun line : Str => decide (line ≠ []))
        (l := lines (joinLines es))
    rw [hback] at hsub
    exact (hsub.eq_of_length_le (length_lines_joinLines_le hlf)).symm
  · intro hback
    rw [hback, List.filter_eq_self]
    exact fun e he => decide_eq_true (h e he).1

/-- The entries come back where no input has a line break inside, unless a file that was edited by
hand has lines that end in a carriage return more than one. -/
theorem load_save (file : Option Str) (inputs : List Str) :
    (load (some (inputs.foldl push (load file)).save)).entries =
    (inputs.foldl push (load file)).entries ↔
      (∀ input ∈ inputs, '\n' ∉ trim input) ∧
      (∀ e ∈ (load file).entries.dropLast, e.getLast? ≠ some '\r') ∧
        ((∃ input ∈ inputs, trim input ≠ []) → ∀ e ∈ (load file).entries, e.getLast? ≠ some '\r') := by
  rw [save]
  by_cases hlf : ∀ input ∈ inputs, '\n' ∉ trim input
  · have hmem : ∀ e ∈ (inputs.foldl push (load file)).entries, e ≠ [] ∧ '\n' ∉ e := by
      intro e he
      rcases mem_submitted.mp he with he | ⟨hne, input, hi, rfl⟩
      · exact of_mem_load he
      · exact ⟨hne, hlf input hi⟩
    rw [load_joinLines hmem, and_iff_right hlf]
    constructor
    · intro hno
      refine ⟨fun e he hcr => hno e ((dropLast_submitted hcr).mpr (.inl he)) hcr,
        fun hsome e he hcr => ?_⟩
      exact hno e ((dropLast_submitted hcr).mpr (.inr ⟨he, hsome⟩)) hcr
    · intro ⟨hfront, hall⟩ e he hcr
      rcases (dropLast_submitted hcr).mp he with he | ⟨he, hsome⟩
      · exact hfront e he hcr
      · exact hall hsome e he hcr
  · refine iff_of_false (fun hback => hlf fun input hi hnl => ?_) fun hall => hlf hall.1
    have hne : trim input ≠ [] := List.ne_nil_of_mem hnl
    have he := mem_submitted (h := load file).mpr (.inr ⟨hne, input, hi, rfl⟩)
    rw [← hback] at he
    exact (of_mem_load he).2 hnl

/-- Two lines come back as two entries. -/
theorem load_save_two :
    (load (some (["a\nb".toList].foldl push (load none)).save)).entries ≠
    (["a\nb".toList].foldl push (load none)).entries := by
  decide +kernel

end

end History

end Crabtalk.Tui

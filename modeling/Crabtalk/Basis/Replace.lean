import Mathlib.Data.List.Infix

/-!
# Replacing every occurrence

The occurrences that are replaced are found from the left and do not overlap,
and what stands in their place is not searched again.
-/

namespace Basis

section
variable {α : Type} [DecidableEq α]

/-- The number counts what is still to be skipped of an occurrence that was replaced. -/
def replaceFrom (old new : List α) : Nat → List α → List α
  | _, [] => []
  | k + 1, _ :: s => replaceFrom old new k s
  | 0, c :: s => if old.isPrefixOf (c :: s) then new ++ replaceFrom old new (old.length -
      1) s else c :: replaceFrom old new 0 s

/-- `old` is not empty. -/
def replace (old new s : List α) : List α := replaceFrom old new 0 s

variable {old new s t x y : List α} {a c : α}

theorem replaceFrom_drop (old new : List α) (k : Nat) (s : List α) :
    replaceFrom old new k s = replace old new (s.drop k) := by
  induction k generalizing s with
  | zero => rfl
  | succ k ih =>
    cases s with
    | nil => rfl
    | cons c s => exact ih s

@[simp] theorem replace_nil (old new : List α) : replace old new [] = [] := rfl

theorem replace_match (h : old ≠ []) (t : List α) :
    replace old new (old ++ t) = new ++ replace old new t := by
  cases old with
  | nil => exact absurd rfl h
  | cons a o =>
    have hpre : (a :: o).isPrefixOf (a :: (o ++ t)) := List.isPrefixOf_iff_prefix.mpr ⟨t, rfl⟩
    rw [List.cons_append, replace, replaceFrom, if_pos hpre, replaceFrom_drop, List.length_cons,
      Nat.add_sub_cancel, List.drop_left]

theorem replace_step (h : ¬ old <+: c :: s) : replace old new (c :: s) = c :: replace old new s :=
  if_neg fun hp => h (List.isPrefixOf_iff_prefix.mp hp)

/-- A string is empty, an occurrence and a string, or a character where none begins and a string. -/
theorem replace_induction {motive : List α → Prop} (h : old ≠ []) (nil : motive [])
    (hit : ∀ t, motive t → motive (old ++ t))
    (step : ∀ c s, ¬ old <+: c :: s → motive s → motive (c :: s)) (s : List α) : motive s := by
  induction hn : s.length using Nat.strong_induction_on generalizing s with
  | h n ih =>
    cases s with
    | nil => exact nil
    | cons c s =>
      by_cases hp : old <+: c :: s
      · obtain ⟨t, ht⟩ := hp
        have hlen := congrArg List.length ht
        have hpos := List.length_pos_iff.mpr h
        rw [List.length_append] at hlen
        exact ht ▸ hit t (ih t.length (by omega) t rfl)
      · rw [List.length_cons] at hn
        exact step c s hp (ih s.length (by omega) s rfl)

theorem replace_ne_nil (h : old ≠ []) (hnew : new ≠ []) (hs : s ≠ []) : replace old new s ≠ [] := by
  induction s using replace_induction h with
  | nil => exact absurd rfl hs
  | hit t ih =>
    rw [replace_match h]
    exact List.append_ne_nil_of_left_ne_nil hnew _
  | step c s hp ih =>
    rw [replace_step hp]
    exact List.cons_ne_nil _ _

theorem head?_replace (h : old ≠ []) (hnew : new.head? = old.head?) (s : List α) :
    (replace old new s).head? = s.head? := by
  induction s using replace_induction h with
  | nil => rfl
  | hit t ih =>
    obtain ⟨a, o, rfl⟩ := List.exists_cons_of_ne_nil h
    obtain ⟨n, rfl⟩ := List.head?_eq_some_iff.mp hnew
    rw [replace_match h]
    rfl
  | step c s hp ih =>
    rw [replace_step hp]
    rfl

theorem replace_length_le (h : old ≠ []) (hlen : new.length ≤ old.length) (s : List α) :
    (replace old new s).length ≤ s.length := by
  induction s using replace_induction h with
  | nil => exact Nat.le_refl _
  | hit t ih =>
    rw [replace_match h, List.length_append, List.length_append]
    omega
  | step c s hp ih =>
    rw [replace_step hp, List.length_cons, List.length_cons]
    omega

theorem replace_eq_or_shorter (h : old ≠ []) (hlen : new.length < old.length) (s : List α) :
    replace old new s = s ∨ (replace old new s).length < s.length := by
  induction s using replace_induction h with
  | nil => exact .inl rfl
  | hit t ih =>
    have hle := replace_length_le h hlen.le t
    rw [replace_match h, List.length_append, List.length_append]
    exact .inr (by omega)
  | step c s hp ih =>
    rw [replace_step hp, List.cons.injEq, List.length_cons, List.length_cons]
    exact ih.imp (And.intro rfl) Nat.succ_lt_succ

/-- Nothing is replaced exactly where there is nothing to replace. -/
theorem replace_eq_self_iff (h : old ≠ []) (hlen : new.length < old.length) :
    replace old new s = s ↔ ¬ old <:+: s := by
  induction s using replace_induction h with
  | nil => simpa using h
  | hit t =>
    refine iff_of_false (fun heq => ?_) (fun hno => hno (List.prefix_append old t).isInfix)
    have hle := replace_length_le h hlen.le t
    have hsame := congrArg List.length heq
    rw [replace_match h, List.length_append, List.length_append] at hsame
    omega
  | step c s hp ih => rw [replace_step hp, List.cons.injEq, and_iff_right rfl, ih,
      List.infix_cons_iff, or_iff_right hp]

theorem notMem_replace (h : old ≠ []) (hs : c ∉ s) (hnew : c ∉ new) : c ∉ replace old new s := by
  induction s using replace_induction h with
  | nil => exact hs
  | hit t ih =>
    rw [replace_match h, List.mem_append, not_or]
    exact ⟨hnew, ih fun hmem => hs (List.mem_append_right _ hmem)⟩
  | step a s hp ih =>
    rw [List.mem_cons, not_or] at hs
    rw [replace_step hp, List.mem_cons, not_or]
    exact ⟨hs.1, ih hs.2⟩

theorem mem_replace_head (h : old.head? = some a) (hnew : new.head? = some a) (hs : a ∈ s) :
    a ∈ replace old new s := by
  have hne : old ≠ [] := fun hnil => by simp [hnil] at h
  induction s using replace_induction hne with
  | nil => exact hs
  | hit t ih =>
    rw [replace_match hne, List.mem_append]
    exact .inl (List.mem_of_head? hnew)
  | step c s hp ih =>
    rw [replace_step hp, List.mem_cons]
    exact (List.mem_cons.mp hs).imp_right ih

omit [DecidableEq α] in
theorem prefix_append_sep (hc : c ∉ old) : old <+: x ++ c :: y ↔ old <+: x := by
  refine ⟨fun ⟨u, hu⟩ => ?_, fun h => h.trans (List.prefix_append x (c :: y))⟩
  rcases List.append_eq_append_iff.mp hu with ⟨w, rfl, -⟩ | ⟨w, rfl, hw⟩
  · exact List.prefix_append old w
  · cases w with
    | nil => simp
    | cons b w =>
      rw [List.cons_append, List.cons.injEq] at hw
      exact absurd (by simp [hw.1]) hc

/-- No occurrence goes over a character that is not in it. -/
theorem replace_sep (h : old ≠ []) (hc : c ∉ old) (x y : List α) :
    replace old new (x ++ c :: y) = replace old new x ++ c :: replace old new y := by
  induction x using replace_induction h with
  | nil =>
    refine replace_step fun hp => ?_
    obtain ⟨a, o, rfl⟩ := List.exists_cons_of_ne_nil h
    exact hc (by simp [(List.cons_prefix_cons.mp hp).1])
  | hit t ih => rw [List.append_assoc, replace_match h, ih, replace_match h, List.append_assoc]
  | step a s hp ih =>
    have hp' : ¬ old <+: a :: (s ++ c :: y) := fun hlong => hp ((prefix_append_sep hc).mp hlong)
    rw [List.cons_append, replace_step hp', ih, replace_step hp, List.cons_append]

/-- None ends with a character that is not its last. -/
theorem replace_concat (h : old ≠ []) (hc : old.getLast? ≠ some c) (x : List α) :
    replace old new (x ++ [c]) = replace old new x ++ [c] := by
  induction x using replace_induction h with
  | nil =>
    refine replace_step fun hp => ?_
    rcases List.prefix_cons_iff.mp hp with hnil | ⟨o, rfl, ho⟩
    · exact h hnil
    · rw [List.prefix_nil.mp ho] at hc
      exact hc rfl
  | hit t ih => rw [List.append_assoc, replace_match h, ih, replace_match h, List.append_assoc]
  | step a s hp ih =>
    have hp' : ¬ old <+: a :: (s ++ [c]) := by
      intro hlong
      rw [← List.cons_append] at hlong
      rcases List.prefix_concat_iff.mp hlong with hall | hshort
      · exact hc (by rw [hall, List.getLast?_concat])
      · exact hp hshort
    rw [List.cons_append, replace_step hp', ih, replace_step hp, List.cons_append]

theorem replace_head_notMem (h : old.head? = some a) (ha : a ∉ x) (y : List α) :
    replace old new (x ++ y) = x ++ replace old new y := by
  induction x with
  | nil => rfl
  | cons c x ih =>
    rw [List.mem_cons, not_or] at ha
    have hp : ¬ old <+: c :: (x ++ y) := by
      intro hp
      obtain ⟨o, rfl⟩ := List.head?_eq_some_iff.mp h
      exact ha.1 (List.cons_prefix_cons.mp hp).1
    rw [List.cons_append, replace_step hp, ih ha.2, List.cons_append]

/-- Up to where an occurrence can begin, and there, what is put in is what was there. -/
theorem prefix_replace_iff (h : old.head? = some a) (hnew : new.head? = some a) (ha : a ∉ x) (s : List α) :
    x <+: replace old new s ↔ x <+: s := by
  obtain ⟨o, rfl⟩ := List.head?_eq_some_iff.mp h
  obtain ⟨n, rfl⟩ := List.head?_eq_some_iff.mp hnew
  induction x generalizing s with
  | nil => simp
  | cons b x ih =>
    rw [List.mem_cons, not_or] at ha
    cases s with
    | nil => rfl
    | cons c s =>
      by_cases hp : a :: o <+: c :: s
      · obtain ⟨t, ht⟩ := hp
        rw [← ht, replace_match (List.cons_ne_nil a o), List.cons_append, List.cons_append,
          List.cons_prefix_cons, List.cons_prefix_cons]
        simp [Ne.symm ha.1]
      · rw [replace_step hp, List.cons_prefix_cons, List.cons_prefix_cons, ih ha.2]

end

end Basis

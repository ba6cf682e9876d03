import Crabtalk.Basis.Replace

/-!
# Occurrences

A string may occur at several places of another, and two of them may overlap.
What counts from the left goes on behind what it found, so it sees that there
are two only where two are apart.
-/

namespace Basis

section
variable {α : Type} [DecidableEq α]

/-- The number says how much is still to be skipped of an occurrence that was counted. -/
def countFrom (old : List α) : Nat → List α → Nat
  | _, [] => 0
  | k + 1, _ :: s => countFrom old k s
  | 0, c :: s =>
    if old.isPrefixOf (c :: s) then countFrom old (old.length - 1) s + 1 else countFrom old 0 s

def countMatches (old s : List α) : Nat := countFrom old 0 s

def replacenFrom (old new : List α) : Nat → Nat → List α → List α
  | _, _, [] => []
  | n, k + 1, _ :: s => replacenFrom old new n k s
  | 0, 0, c :: s => c :: s
  | n + 1, 0, c :: s =>
    if old.isPrefixOf (c :: s) then new ++ replacenFrom old new n (old.length - 1) s
      else c :: replacenFrom old new (n + 1) 0 s

def replacen (old new : List α) (n : Nat) (s : List α) : List α := replacenFrom old new n 0 s

variable {old new s t x y : List α} {c : α} {n : Nat}

theorem countFrom_drop (old : List α) (k : Nat) (s : List α) :
    countFrom old k s = countMatches old (s.drop k) := by
  induction k generalizing s with
  | zero => rfl
  | succ k ih =>
    cases s with
    | nil => rfl
    | cons c s => exact ih s

theorem replacenFrom_drop (old new : List α) (n k : Nat) (s : List α) :
    replacenFrom old new n k s = replacen old new n (s.drop k) := by
  induction k generalizing s with
  | zero => rfl
  | succ k ih =>
    cases s with
    | nil => cases n <;> rfl
    | cons c s =>
      rw [List.drop_succ_cons, ← ih]
      cases n <;> rfl

theorem countMatches_match (h : old ≠ []) (t : List α) :
    countMatches old (old ++ t) = countMatches old t + 1 := by
  cases old with
  | nil => exact absurd rfl h
  | cons a o =>
    have hpre : (a :: o).isPrefixOf (a :: (o ++ t)) := List.isPrefixOf_iff_prefix.mpr ⟨t, rfl⟩
    rw [List.cons_append, countMatches, countFrom, if_pos hpre, countFrom_drop, List.length_cons,
      Nat.add_sub_cancel, List.drop_left]

theorem countMatches_step (h : ¬ old <+: c :: s) : countMatches old (c :: s) = countMatches old s :=
  if_neg fun hp => h (List.isPrefixOf_iff_prefix.mp hp)

@[simp] theorem replacen_zero (old new s : List α) : replacen old new 0 s = s := by cases s <;> rfl

theorem replacen_match (h : old ≠ []) (t : List α) :
    replacen old new (n + 1) (old ++ t) = new ++ replacen old new n t := by
  cases old with
  | nil => exact absurd rfl h
  | cons a o =>
    have hpre : (a :: o).isPrefixOf (a :: (o ++ t)) := List.isPrefixOf_iff_prefix.mpr ⟨t, rfl⟩
    rw [List.cons_append, replacen, replacenFrom, if_pos hpre, replacenFrom_drop, List.length_cons,
      Nat.add_sub_cancel, List.drop_left]

theorem replacen_step (h : ¬ old <+: c :: s) :
    replacen old new (n + 1) (c :: s) = c :: replacen old new (n + 1) s :=
  if_neg fun hp => h (List.isPrefixOf_iff_prefix.mp hp)

theorem countMatches_eq_zero (h : old ≠ []) : countMatches old s = 0 ↔ ¬ old <:+: s := by
  induction s using replace_induction h with
  | nil => simpa [countMatches, countFrom] using h
  | hit t => simpa [countMatches_match h] using (List.prefix_append old t).isInfix
  | step c s hp ih => rw [countMatches_step hp, ih, List.infix_cons_iff, or_iff_right hp]

/-! ## Places -/

omit [DecidableEq α]

/-- No occurrence begins before the one that is shown. -/
def FirstAt (old x y : List α) : Prop := ∀ x' y', x ++ old ++ y = x' ++ old ++ y' →
    x.length ≤ x'.length

def OnlyAt (old x y : List α) : Prop := ∀ x' y', x ++ old ++ y = x' ++ old ++ y' → x' = x

def TwoApart (old s : List α) : Prop := ∃ x m y, s = x ++ old ++ (m ++ old ++ y)

theorem OnlyAt.first (h : OnlyAt old x y) : FirstAt old x y := fun x' y' heq => by rw [h x' y' heq]

theorem first_cons (hno : ¬ old <+: c :: (x ++ old ++ y)) : FirstAt old (c :: x) y ↔
    FirstAt old x y := by
  constructor
  · intro h x' y' heq
    have hle := h (c :: x') y' (by simpa using heq)
    simpa using hle
  · intro h x' y' heq
    cases x' with
    | nil => exact absurd ⟨y', by simpa using heq.symm⟩ hno
    | cons c' x' =>
      rw [List.cons_append, List.cons_append, List.cons_append, List.cons_append, List.cons.injEq] at heq
      simpa using h x' y' heq.2

theorem FirstAt.not_prefix (h : FirstAt old (c :: x) y) : ¬ old <+: c :: (x ++ old ++ y) := by
  intro ⟨t, ht⟩
  have hle := h [] t (by simpa using ht.symm)
  simp at hle

theorem exists_first (h : old <:+: s) : ∃ x y, s = x ++ old ++ y ∧ FirstAt old x y := by
  induction s with
  | nil => exact ⟨[], [], by simp [List.infix_nil.mp h], fun _ _ _ => Nat.zero_le _⟩
  | cons c s ih =>
    by_cases hp : old <+: c :: s
    · obtain ⟨t, ht⟩ := hp
      exact ⟨[], t, by simp [ht], fun _ _ _ => Nat.zero_le _⟩
    · obtain ⟨x, y, rfl, hfirst⟩ := ih ((List.infix_cons_iff.mp h).resolve_left hp)
      exact ⟨c :: x, y, rfl, (first_cons hp).mpr hfirst⟩

/-- Two are apart where one begins behind the end of the first. -/
theorem FirstAt.twoApart_iff (h : FirstAt old x y) : TwoApart old (x ++ old ++ y) ↔ old <:+: y := by
  constructor
  · intro ⟨a, m, z, heq⟩
    have hle := h a (m ++ old ++ z) heq
    have hlen := congrArg List.length heq
    have hsuffix : old ++ z <:+ x ++ old ++ y := ⟨a ++ old ++ m, by rw [heq]; simp⟩
    have hy : y <:+ x ++ old ++ y := List.suffix_append _ _
    simp only [List.length_append] at hlen
    exact (List.prefix_append old z).isInfix.trans
      (List.suffix_of_suffix_length_le hsuffix hy
      (by simp only [List.length_append]; omega)).isInfix
  · intro ⟨m, z, heq⟩
    exact ⟨x, m, z, by rw [heq]⟩

theorem OnlyAt.not_twoApart (h : OnlyAt old x y) (hne : old ≠ []) :
    ¬ TwoApart old (x ++ old ++ y) := by
  intro hapart
  obtain ⟨m, z, heq⟩ := h.first.twoApart_iff.mp hapart
  have hx := h (x ++ old ++ m) z (by rw [← heq]; simp)
  have hlen := congrArg List.length hx
  have hpos := List.length_pos_iff.mpr hne
  simp only [List.length_append] at hlen
  omega

variable [DecidableEq α]

/-- What counts and what replaces find the first one first. -/
theorem count_first (hne : old ≠ []) (h : FirstAt old x y) :
    countMatches old (x ++ old ++ y) = countMatches old y + 1 := by
  induction x with
  | nil => exact countMatches_match hne y
  | cons c x ih =>
    have hno := h.not_prefix
    have hx := (first_cons hno).mp h
    rw [List.cons_append, List.cons_append, countMatches_step hno, ih hx]

theorem replace_first (hne : old ≠ []) (h : FirstAt old x y) :
    replacen old new 1 (x ++ old ++ y) = x ++ new ++ y := by
  induction x with
  | nil => rw [List.nil_append, replacen_match hne, replacen_zero, List.nil_append]
  | cons c x ih =>
    have hno := h.not_prefix
    have hx := (first_cons hno).mp h
    rw [List.cons_append, List.cons_append, replacen_step hno, ih hx]
    rfl

theorem count_eq_one_iff (hne : old ≠ []) : countMatches old s = 1 ↔
    old <:+: s ∧ ¬ TwoApart old s := by
  constructor
  · intro hone
    have hin : old <:+: s := by
      by_contra hno
      rw [(countMatches_eq_zero hne).mpr hno] at hone
      cases hone
    obtain ⟨x, y, rfl, hfirst⟩ := exists_first hin
    rw [count_first hne hfirst] at hone
    exact ⟨hin, fun hapart => (countMatches_eq_zero hne).mp (Nat.succ.inj hone)
      (hfirst.twoApart_iff.mp hapart)⟩
  · intro ⟨hin, hapart⟩
    obtain ⟨x, y, rfl, hfirst⟩ := exists_first hin
    rw [count_first hne hfirst, (countMatches_eq_zero hne).mpr fun hy =>
      hapart (hfirst.twoApart_iff.mpr hy)]

end

end Basis

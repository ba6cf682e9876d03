import Mathlib.Algebra.Group.Int.Defs
import Mathlib.Algebra.GroupWithZero.Nat
import Mathlib.Data.List.Forall2
import Mathlib.Data.List.Sort
import Std.Data.ExtTreeMap

/-!
# Ordered maps keyed by a column and a string

A key is a column and a list over an ordered alphabet, columns first. The keys
of one column that start with a given stem are an interval of the order, so
the ordered walk from the stem that stops at the first other key (`range`)
finds exactly them (`under`).
-/

open Std

namespace Basis

-- Instances that are found by a search are given a name once, so that definitions over texts share
-- one term.
instance lawfulText : LawfulBEq (List Char) := inferInstance

section
variable {α β : Type} {cmp : α → α → Ordering} [TransCmp cmp] [LawfulEqCmp cmp]

section
variable [DecidableEq α]

theorem find_insert (m : ExtTreeMap α β cmp) (k a : α) (v : β) :
    (m.insert k v)[a]? = if k = a then some v else m[a]? := by
  rw [ExtTreeMap.getElem?_insert]
  simp only [LawfulEqCmp.compare_eq_iff_eq]

theorem find_erase (m : ExtTreeMap α β cmp) (k a : α) :
    (m.erase k)[a]? = if k = a then none else m[a]? := by
  rw [ExtTreeMap.getElem?_erase]
  simp only [LawfulEqCmp.compare_eq_iff_eq]

end

theorem find_foldl_erase [DecidableEq α] (ks : List α) (m : ExtTreeMap α β cmp) (a : α) :
    (ks.foldl (fun m k => m.erase k) m)[a]? = if a ∈ ks then none else m[a]? := by
  induction ks generalizing m with
  | nil => simp
  | cons k ks ih =>
    rw [List.foldl_cons, ih, find_erase]
    by_cases ha : a ∈ ks
    · simp [ha]
    · by_cases hk : k = a
      · simp [hk]
      · simp [ha, hk, Ne.symm hk]

section
variable [DecidableEq α] {δ : Type} {f : δ → α} {g : δ → β}

theorem find_foldl_insert_of_notMem {l : List δ} {m : ExtTreeMap α β cmp} {a : α}
    (h : ∀ x ∈ l, f x ≠ a) :
    (l.foldl (fun m x => m.insert (f x) (g x)) m)[a]? = m[a]? := by
  induction l generalizing m with
  | nil => rfl
  | cons x l ih =>
    rw [List.foldl_cons, ih fun y hy => h y (List.mem_cons_of_mem _ hy), find_insert,
      if_neg (h x List.mem_cons_self)]

/-- Of several insertions at a key the value is known when they all agree on it. -/
theorem find_foldl_insert_of_mem {l : List δ} {m : ExtTreeMap α β cmp} {a : α} {v : β}
    (h : ∃ x ∈ l, f x = a)
    (hv : ∀ x ∈ l, f x = a → g x = v) : (l.foldl (fun m x => m.insert (f x) (g x)) m)[a]? = some v := by
  induction l generalizing m with
  | nil =>
    obtain ⟨x, hx, -⟩ := h
    cases hx
  | cons x l ih =>
    rw [List.foldl_cons]
    by_cases hl : ∃ y ∈ l, f y = a
    · exact ih hl fun y hy => hv y (List.mem_cons_of_mem _ hy)
    · have hx : f x = a := by
        obtain ⟨y, hy, hya⟩ := h
        rcases List.mem_cons.mp hy with rfl | hy
        · exact hya
        · exact absurd ⟨y, hy, hya⟩ hl
      rw [find_foldl_insert_of_notMem fun y hy hya => hl ⟨y, hy, hya⟩, find_insert, if_pos hx,
        hv x List.mem_cons_self hx]

end

theorem map_ext {m₁ m₂ : ExtTreeMap α β cmp} (h : ∀ k : α, m₁[k]? = m₂[k]?) : m₁ = m₂ :=
  ExtTreeMap.ext_getElem? fun {k} => h k

theorem erase_of_none {m : ExtTreeMap α β cmp} {k : α} (h : m[k]? = none) : m.erase k = m :=
  map_ext fun a => by
    rw [ExtTreeMap.getElem?_erase]; split
    · rename_i hk; rw [← LawfulEqCmp.compare_eq_iff_eq.mp hk, h]
    · rfl

omit [LawfulEqCmp cmp] in
theorem lt_irrefl_cmp (a : α) : cmp a a ≠ .lt := by
  rw [@ReflCmp.compare_self _ cmp _ a]; exact Ordering.noConfusion

omit [LawfulEqCmp cmp] in
theorem lt_asymm_cmp {a b : α} (h : cmp a b = .lt) : cmp b a ≠ .lt := fun h' =>
  lt_irrefl_cmp a (TransCmp.lt_trans h h')

omit [LawfulEqCmp cmp] in
theorem total_cmp (a b : α) : cmp a b ≠ .gt ∨ cmp b a ≠ .gt := by
  rw [(OrientedCmp.eq_swap : cmp b a = (cmp a b).swap)]
  cases cmp a b <;> simp

omit [LawfulEqCmp cmp] in
theorem trans_cmp {a b c : α} (hab : cmp a b ≠ .gt) (hbc : cmp b c ≠ .gt) : cmp a c ≠ .gt :=
  Ordering.isLE_iff_ne_gt.mp (TransCmp.isLE_trans (Ordering.isLE_iff_ne_gt.mpr hab)
    (Ordering.isLE_iff_ne_gt.mpr hbc))

theorem antisymm_cmp {a b : α} (hab : cmp a b ≠ .gt) (hba : cmp b a ≠ .gt) : a = b := by
  rw [ne_eq, OrientedCmp.gt_iff_lt] at hba
  cases hc : cmp a b with
  | lt => exact absurd hc hba
  | eq => exact LawfulEqCmp.eq_of_compare hc
  | gt => exact absurd hc hab

omit [LawfulEqCmp cmp] in
/-- Two strictly sorted association lists with the same entries are equal. -/
theorem sorted_ext {l₁ l₂ : List (α × β)} (h₁ : l₁.Pairwise fun a b => cmp a.1 b.1 = .lt)
    (h₂ : l₂.Pairwise fun a b => cmp a.1 b.1 = .lt) (h : ∀ x, x ∈ l₁ ↔ x ∈ l₂) : l₁ = l₂ := by
  have irr : Std.Irrefl fun a b : α × β => cmp a.1 b.1 = .lt := ⟨fun a => lt_irrefl_cmp a.1⟩
  have anti : Std.Antisymm fun a b : α × β => cmp a.1 b.1 = .lt :=
    ⟨fun _ _ h h' => absurd h' (lt_asymm_cmp h)⟩
  exact h₁.eq_of_mem_iff h₂ fun {x} => h x

omit [LawfulEqCmp cmp] in
theorem nodup_toList (m : ExtTreeMap α β cmp) : m.toList.Nodup := by
  have hlt : m.toList.Pairwise fun a b => cmp a.1 b.1 = .lt := ExtTreeMap.ordered_keys_toList
  refine hlt.imp ?_
  rintro a b hab rfl
  exact lt_irrefl_cmp _ hab

theorem toList_perm_erase [DecidableEq α] {m : ExtTreeMap α β cmp} {k : α} {v : β}
    (h : m[k]? = some v) :
    m.toList.Perm ((k, v) :: (m.erase k).toList) := by
  have hk : (k, v) ∉ (m.erase k).toList := by
    rw [ExtTreeMap.mem_toList_iff_getElem?_eq_some, find_erase, if_pos rfl]
    simp
  rw [List.perm_ext_iff_of_nodup (nodup_toList m) (List.nodup_cons.mpr ⟨hk, nodup_toList _⟩)]
  intro ⟨a, w⟩
  rw [List.mem_cons, ExtTreeMap.mem_toList_iff_getElem?_eq_some,
    ExtTreeMap.mem_toList_iff_getElem?_eq_some, find_erase]
  by_cases ha : k = a
  · subst ha
    simp [h, eq_comm]
  · simp [ha, Ne.symm ha]

theorem keys_congr {γ : Type} {m₁ : ExtTreeMap α β cmp} {m₂ : ExtTreeMap α γ cmp}
    (h : ∀ k : α, m₁[k]?.isSome = m₂[k]?.isSome) : m₁.toList.map (·.1) = m₂.toList.map (·.1) := by
  have irr : Std.Irrefl fun a b : α => cmp a b = .lt := ⟨lt_irrefl_cmp⟩
  have anti : Std.Antisymm fun a b : α => cmp a b = .lt :=
    ⟨fun _ _ h h' => absurd h' (lt_asymm_cmp h)⟩
  refine (ExtTreeMap.ordered_keys_toList.map _ fun _ _ h => h :
    List.Pairwise (fun a b => cmp a b = .lt) _).eq_of_mem_iff
    (ExtTreeMap.ordered_keys_toList.map _ fun _ _ h => h) fun {k} => ?_
  have key {δ : Type} (m : ExtTreeMap α δ cmp) : k ∈ m.toList.map (·.1) ↔ m[k]?.isSome := by
    rw [Option.isSome_iff_exists]
    constructor
    · intro hk
      obtain ⟨⟨k', v⟩, hv, rfl⟩ := List.mem_map.mp hk
      exact ⟨v, ExtTreeMap.mem_toList_iff_getElem?_eq_some.mp hv⟩
    · rintro ⟨v, hv⟩
      exact List.mem_map.mpr ⟨(k, v), ExtTreeMap.mem_toList_iff_getElem?_eq_some.mpr hv, rfl⟩
  rw [key, key, h]

theorem forall₂_toList {γ : Type} {R : α → β → γ → Prop} {m₁ : ExtTreeMap α β cmp}
    {m₂ : ExtTreeMap α γ cmp}
    (h : ∀ k : α, Option.Rel (R k) m₁[k]? m₂[k]?) :
    List.Forall₂ (fun x y => x.1 = y.1 ∧ R x.1 x.2 y.2) m₁.toList m₂.toList := by
  have zip : ∀ (l₁ : List (α × β)) (l₂ : List (α × γ)), l₁.map (·.1) = l₂.map (·.1) →
      (∀ x ∈ l₁, m₁[x.1]? = some x.2) → (∀ y ∈ l₂, m₂[y.1]? = some y.2) →
      List.Forall₂ (fun x y => x.1 = y.1 ∧ R x.1 x.2 y.2) l₁ l₂ := by
    intro l₁
    induction l₁ with
    | nil =>
      intro l₂ hk _ _
      rw [List.map_nil, eq_comm, List.map_eq_nil_iff] at hk
      rw [hk]
      exact .nil
    | cons x l₁ ih =>
      intro l₂ hk h₁ h₂
      cases l₂ with
      | nil => cases hk
      | cons y l₂ =>
        simp only [List.map_cons, List.cons.injEq] at hk
        refine .cons ⟨hk.1, ?_⟩ (ih l₂ hk.2 (fun a ha => h₁ a (List.mem_cons_of_mem _ ha))
          fun a ha => h₂ a (List.mem_cons_of_mem _ ha))
        have hr := h x.1
        rw [h₁ x List.mem_cons_self, hk.1, h₂ y List.mem_cons_self] at hr
        cases hr with
        | some hr => rw [hk.1]; exact hr
  refine zip _ _ (keys_congr fun k => ?_)
    (fun x hx => ExtTreeMap.mem_toList_iff_getElem?_eq_some.mp hx)
    fun y hy => ExtTreeMap.mem_toList_iff_getElem?_eq_some.mp hy
  cases hr : m₁[k]? <;> cases hr' : m₂[k]? <;> have := h k <;> rw [hr, hr'] at this <;>
    cases this <;> rfl

theorem size_congr {γ : Type} {m₁ : ExtTreeMap α β cmp} {m₂ : ExtTreeMap α γ cmp}
    (h : ∀ k : α, m₁[k]?.isSome = m₂[k]?.isSome) : m₁.size = m₂.size := by
  rw [← ExtTreeMap.length_toList, ← ExtTreeMap.length_toList, ← List.length_map (f := (·.1)), keys_congr h,
    List.length_map]

theorem foldl_insert_toList [DecidableEq α] (base : ExtTreeMap α β cmp) :
    base.toList.foldl (fun m e => m.insert e.1 e.2) (∅ : ExtTreeMap α β cmp) = base := by
  have key : ∀ (es : List (α × β)) (m : ExtTreeMap α β cmp), es.Pairwise
      (fun a b => cmp a.1 b.1 = .lt) → ∀ k : α,
      (es.foldl (fun m e => m.insert e.1 e.2) m)[k]? =
      ((es.find? fun e => e.1 = k).map (·.2)).or m[k]? := by
    intro es
    induction es with
    | nil => intro m _ k; rfl
    | cons e es ih =>
      intro m hs k
      rw [List.pairwise_cons] at hs
      rw [List.foldl_cons, ih _ hs.2, find_insert, List.find?_cons]
      by_cases hk : e.1 = k
      · subst hk
        have : es.find? (fun x => x.1 = e.1) = none := List.find?_eq_none.mpr fun x hx he => by
          have := hs.1 x hx
          rw [decide_eq_true_eq] at he
          rw [he] at this
          exact lt_irrefl_cmp _ this
        simp [this]
      · simp [hk]
  refine map_ext fun k => ?_
  rw [key _ _ ExtTreeMap.ordered_keys_toList]
  cases hf : base.toList.find? fun e => e.1 = k with
  | none =>
    rw [List.find?_eq_none] at hf
    cases hb : base[k]? with
    | none => simp
    | some v => exact absurd (by simp) (hf (k, v)
        (ExtTreeMap.mem_toList_iff_getElem?_eq_some.mpr hb))
  | some e =>
    obtain ⟨k', v⟩ := e
    have hm := List.mem_of_find?_eq_some hf
    have hk := List.find?_some hf
    rw [decide_eq_true_eq] at hk
    simp only at hk
    subst hk
    rw [ExtTreeMap.mem_toList_iff_getElem?_eq_some.mp hm]
    rfl

end

/-! ## Walking an interval -/

theorem takeWhile_eq_filter {γ} (p : γ → Bool) :
    ∀ l : List γ, l.Pairwise (fun a b => p b → p a) → l.takeWhile p = l.filter p
  | [], _ => rfl
  | x :: l, h => by
    rw [List.pairwise_cons] at h
    by_cases hx : p x
    · rw [List.takeWhile_cons_of_pos hx, List.filter_cons_of_pos hx, takeWhile_eq_filter p l h.2]
    · rw [List.takeWhile_cons_of_neg hx, List.filter_cons_of_neg hx]
      exact (List.filter_eq_nil_iff.mpr fun y hy hp => hx (h.1 y hy hp)).symm

/-- On a list sorted by `r`, dropping what lies below an interval and taking
while inside it is filtering by the interval. -/
theorem takeWhile_dropWhile_eq_filter {γ} {r : γ → γ → Prop} {below p : γ → Bool}
    (hb : ∀ a, p a → ¬ below a) (hm : ∀ a b, r a b → below b → below a)
    (hc : ∀ a b, r a b → ¬ below a → p b → p a) :
    ∀ l : List γ, l.Pairwise r → (l.dropWhile below).takeWhile p = l.filter p
  | [], _ => rfl
  | x :: l, h => by
    by_cases hx : below x
    · rw [List.dropWhile_cons_of_pos hx, List.filter_cons_of_neg (fun hp => hb x hp hx)]
      exact takeWhile_dropWhile_eq_filter hb hm hc l (List.pairwise_cons.mp h).2
    · rw [List.dropWhile_cons_of_neg hx]
      apply takeWhile_eq_filter
      have above : ∀ y ∈ x :: l, ¬ below y := fun y hy => by
        rcases List.mem_cons.mp hy with rfl | hy
        · exact hx
        · exact fun hby => hx (hm x y ((List.pairwise_cons.mp h).1 y hy) hby)
      exact h.imp_of_mem fun ha _ hr => hc _ _ hr (above _ ha)

/-! ## The order of keys -/

section
variable {κ γ : Type} [Ord κ] [Ord γ]

abbrev ColKey (κ γ : Type) := κ × List γ

def colCmp : ColKey κ γ → ColKey κ γ → Ordering := compareLex (compareOn (·.1)) (compareOn (·.2))

theorem colCmp_eq (a b : ColKey κ γ) : colCmp a b = (compare a.1 b.1).then (compare a.2 b.2) := rfl

instance [TransOrd κ] [TransOrd γ] : TransCmp (@colCmp κ γ _ _) :=
  inferInstanceAs (TransCmp (compareLex (compareOn fun a : ColKey κ γ => a.1) (compareOn (·.2))))

variable [LawfulEqOrd κ] [LawfulEqOrd γ]

instance : LawfulEqCmp (@colCmp κ γ _ _) where
  compare_self {a} := by
    rw [colCmp_eq, Ordering.then_eq_eq]
    exact ⟨LawfulEqCmp.compare_eq_iff_eq.mpr rfl, LawfulEqCmp.compare_eq_iff_eq.mpr rfl⟩
  eq_of_compare {a b} h := by
    rw [colCmp_eq, Ordering.then_eq_eq, LawfulEqCmp.compare_eq_iff_eq,
      LawfulEqCmp.compare_eq_iff_eq] at h
    exact Prod.ext h.1 h.2

theorem compare_append_isGE : ∀ s x : List γ, compare (s ++ x) s ≠ .lt
  | [], x => by cases x <;> simp [compare, List.compareLex_nil_nil, List.compareLex_cons_nil]
  | c :: s, x => by
    have := compare_append_isGE s x
    simp only [compare, List.cons_append, List.compareLex_cons_cons, ReflCmp.compare_self,
      Ordering.eq_then] at *
    exact this

theorem isPrefix_of_between : ∀ s a x : List γ, compare a s ≠ .lt →
    compare a (s ++ x) = .lt → s <+: a
  | [], a, _, _, _ => List.nil_prefix
  | c :: s, [], x, h, _ => by simp [compare, List.compareLex_nil_cons] at h
  | c :: s, d :: a, x, h, h' => by
    simp only [compare, List.cons_append, List.compareLex_cons_cons] at h h'
    have hcd : compare d c = .eq := by
      cases hd : compare d c with
      | eq => rfl
      | lt => exact absurd (by rw [hd]; rfl) h
      | gt => rw [hd] at h'; cases h'
    rw [hcd, Ordering.eq_then] at h h'
    obtain ⟨t, rfl⟩ := isPrefix_of_between s a x h h'
    rw [LawfulEqCmp.compare_eq_iff_eq.mp hcd]
    exact ⟨t, rfl⟩

end

/-! ## Prefix scans -/

section
variable {κ γ β : Type} [DecidableEq κ] [DecidableEq γ]

abbrev ColMap (κ γ β : Type) [Ord κ] [Ord γ] := ExtTreeMap (ColKey κ γ) β colCmp

def isUnder (col : κ) (stem : List γ) (k : ColKey κ γ) : Bool := k.1 == col && stem.isPrefixOf k.2

theorem isUnder_iff {col : κ} {stem : List γ} {k : ColKey κ γ} : isUnder col stem k ↔
    k.1 = col ∧ stem <+: k.2 := by
  simp [isUnder]

variable [Ord κ] [Ord γ] [TransOrd κ] [TransOrd γ]

namespace ColMap
variable (m : ColMap κ γ β) (col : κ) (stem : List γ)

def under : List (ColKey κ γ × β) := m.toList.filter fun e => isUnder col stem e.1

/-- The ordered walk from the stem, up to the first key that is not under it. -/
def range : List (ColKey κ γ × β) :=
  (m.toList.dropWhile fun e => colCmp e.1 (col, stem) == .lt).takeWhile fun e =>
    isUnder col stem e.1

theorem sorted_under : (under m col stem).Pairwise fun a b => colCmp a.1 b.1 = .lt :=
  ExtTreeMap.ordered_keys_toList.filter _

variable [LawfulEqOrd κ] [LawfulEqOrd γ]

theorem range_eq_under : range m col stem = under m col stem := by
  refine takeWhile_dropWhile_eq_filter (r := fun a b => colCmp a.1 b.1 = .lt) ?_ ?_ ?_ _
    ExtTreeMap.ordered_keys_toList
  · intro a ha hlt
    obtain ⟨h1, x, h2⟩ := isUnder_iff.mp ha
    have hcol : compare a.1.1 col = .eq := LawfulEqCmp.compare_eq_iff_eq.mpr h1
    rw [beq_iff_eq, colCmp_eq, hcol, Ordering.eq_then, ← h2] at hlt
    exact compare_append_isGE stem x hlt
  · intro a b hab hb
    rw [beq_iff_eq] at *
    exact TransCmp.lt_trans hab hb
  · intro a b hab ha hb
    obtain ⟨h1, x, h2⟩ := isUnder_iff.mp hb
    rw [beq_iff_eq, colCmp_eq] at ha
    rw [colCmp_eq, h1, ← h2] at hab
    have hcol : compare a.1.1 col = .eq := by
      cases hc : compare a.1.1 col with
      | eq => rfl
      | lt => exact absurd (by rw [hc]; rfl) ha
      | gt => rw [hc] at hab; cases hab
    rw [hcol, Ordering.eq_then] at ha hab
    exact isUnder_iff.mpr ⟨LawfulEqCmp.compare_eq_iff_eq.mp hcol,
      isPrefix_of_between stem _ x ha hab⟩

variable {m col stem}

theorem mem_under {k : ColKey κ γ} {v : β} :
    (k, v) ∈ under m col stem ↔ m[k]? = some v ∧ k.1 = col ∧ stem <+: k.2 := by
  rw [under, List.mem_filter, ExtTreeMap.mem_toList_iff_getElem?_eq_some, isUnder_iff]

/-- A sorted list with the right entries is the scan. -/
theorem under_eq {l : List (ColKey κ γ × β)} (hl : l.Pairwise fun a b => colCmp a.1 b.1 = .lt)
    (h : ∀ k v, (k, v) ∈ l ↔ m[k]? = some v ∧ k.1 = col ∧ stem <+: k.2) : under m col stem = l :=
  sorted_ext (sorted_under m col stem) hl fun ⟨k, v⟩ => mem_under.trans (h k v).symm

theorem under_congr {m' : ColMap κ γ β}
    (h : ∀ k : ColKey κ γ, k.1 = col → stem <+: k.2 → m'[k]? = m[k]?) :
    under m' col stem = under m col stem :=
  under_eq (sorted_under m col stem) fun k v => by
    rw [mem_under]
    exact ⟨fun ⟨h1, h2, h3⟩ => ⟨by rw [h k h2 h3, h1], h2, h3⟩,
      fun ⟨h1, h2, h3⟩ => ⟨by rw [← h k h2 h3, h1], h2, h3⟩⟩

end ColMap

end

end Basis

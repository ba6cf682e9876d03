import Crabtalk.Basis.ColumnMap
import Mathlib.Algebra.BigOperators.Ring.List
import Mathlib.Algebra.Order.BigOperators.Group.List

/-!
# Scores

A map that adds up what its keys are given, entry by entry, and the one order a
list has under a total antisymmetric relation.
-/

open Std

namespace Basis

section
variable {α β : Type} {cmp : α → α → Ordering} [TransCmp cmp] [AddMonoid β]

def addAll (m : ExtTreeMap α β cmp) (l : List (α × β)) : ExtTreeMap α β cmp :=
  l.foldl (fun m x => m.insert x.1 (m[x.1]?.getD 0 + x.2)) m

@[simp] theorem addAll_nil (m : ExtTreeMap α β cmp) : addAll m [] = m := rfl

@[simp] theorem addAll_cons (m : ExtTreeMap α β cmp) (x : α × β) (l : List (α × β)) :
    addAll m (x :: l) = addAll (m.insert x.1 (m[x.1]?.getD 0 + x.2)) l := rfl

variable [LawfulEqCmp cmp] [DecidableEq α]

theorem getD_addAll (m : ExtTreeMap α β cmp) (l : List (α × β)) (k : α) :
    (addAll m l)[k]?.getD 0 = m[k]?.getD 0 + ((l.filter fun x => x.1 = k).map (·.2)).sum := by
  induction l generalizing m with
  | nil => simp
  | cons x l ih =>
    rw [addAll_cons, ih, find_insert]
    by_cases hk : x.1 = k
    · subst hk
      simp [add_assoc]
    · simp [hk]

theorem isSome_addAll (m : ExtTreeMap α β cmp) (l : List (α × β)) (k : α) :
    (addAll m l)[k]?.isSome ↔ m[k]?.isSome ∨ k ∈ l.map (·.1) := by
  induction l generalizing m with
  | nil => simp
  | cons x l ih =>
    rw [addAll_cons, ih, find_insert]
    by_cases hk : x.1 = k
    · simp [hk]
    · simp [hk, Ne.symm hk]

end

/-- Lists with the same entries are sorted to the same list. -/
theorem insertionSort_congr {α : Type} {r : α → α → Prop} [DecidableRel r] [Std.Total r]
    [IsTrans α r] [Std.Antisymm r]
    {l l' : List α} (h : l.Perm l') : l.insertionSort r = l'.insertionSort r :=
  (((List.perm_insertionSort r l).trans h).trans (List.perm_insertionSort r l').symm).eq_of_pairwise
    (fun _ _ _ _ hab hba => Std.Antisymm.antisymm _ _ hab hba) (List.pairwise_insertionSort r l)
      (List.pairwise_insertionSort r l')

section
variable {α β : Type} {r : α → α → Prop} {r' : β → β → Prop} [DecidableRel r]
  [DecidableRel r'] {f : α → β}

theorem map_orderedInsert_of_agree {a : α} {l : List α} (h : ∀ b ∈ l, r a b ↔ r' (f a) (f b)) :
    (l.orderedInsert r a).map f = (l.map f).orderedInsert r' (f a) := by
  induction l with
  | nil => rfl
  | cons b l ih =>
    have hb := h b List.mem_cons_self
    rw [List.orderedInsert_cons, List.map_cons, List.orderedInsert_cons]
    by_cases hr : r a b
    · rw [if_pos hr, if_pos (hb.mp hr)]
      rfl
    · rw [if_neg hr, if_neg (mt hb.mpr hr), List.map_cons,
        ih fun c hc => h c (List.mem_cons_of_mem _ hc)]

/-- An entry is only compared with those behind it. -/
theorem map_insertionSort_of_agree {l : List α} (h : l.Pairwise fun a b => r a b ↔ r' (f a) (f b)) :
    (l.insertionSort r).map f = (l.map f).insertionSort r' := by
  induction l with
  | nil => rfl
  | cons a l ih =>
    rw [List.pairwise_cons] at h
    rw [List.insertionSort_cons, map_orderedInsert_of_agree fun b hb =>
      h.1 b ((List.mem_insertionSort r).mp hb), ih h.2, List.map_cons,
      List.insertionSort_cons]

end

/-! ## Places in a ranking -/

section
variable {α β : Type} [LinearOrder β] {s : α → β} {r : List α} {x : α} {p : Nat}

/-- What is ahead of an entry is behind none of those with more. -/
theorem countP_le_place (h : r.Pairwise fun a b => s b ≤ s a) (hp : r[p]? = some x) :
    r.countP (fun w => s x < s w) ≤ p := by
  obtain ⟨hlt, hx⟩ := List.getElem?_eq_some_iff.mp hp
  have hcut : r = r.take p ++ x :: r.drop (p + 1) := by
    rw [← hx, ← List.drop_eq_getElem_cons hlt, List.take_append_drop]
  have hrest : (x :: r.drop (p + 1)).countP (fun w => s x < s w) = 0 := by
    refine List.countP_eq_zero.mpr fun w hw => ?_
    rw [hcut, List.pairwise_append] at h
    rcases List.mem_cons.mp hw with rfl | hw
    · simp
    · simpa using (List.pairwise_cons.mp h.2.1).1 w hw
  rw [hcut, List.countP_append, hrest, Nat.add_zero]
  exact List.countP_le_length.trans (List.length_take_le p r)

/-- An entry that shares its score with none has so many ahead of it as have more. -/
theorem countP_eq_place (h : r.Pairwise fun a b => s b ≤ s a) (hr : r.Nodup) (hp : r[p]? = some x)
    (hx : ∀ w ∈ r, s w = s x → w = x) :
    r.countP (fun w => s x < s w) = p := by
  refine (countP_le_place h hp).antisymm ?_
  obtain ⟨hlt, hget⟩ := List.getElem?_eq_some_iff.mp hp
  have hcut : r = r.take p ++ x :: r.drop (p + 1) := by
    rw [← hget, ← List.drop_eq_getElem_cons hlt, List.take_append_drop]
  have hfirst : (r.take p).countP (fun w => s x < s w) = (r.take p).length := by
    refine List.countP_eq_length.mpr fun w hw => ?_
    rw [hcut, List.pairwise_append] at h
    rw [hcut, List.nodup_append] at hr
    have hle := h.2.2 w hw x List.mem_cons_self
    have hne : s w ≠ s x := fun heq => hr.2.2 w hw x List.mem_cons_self
        (hx w (List.mem_of_mem_take hw) heq)
    simpa using hle.lt_of_ne hne.symm
  rw [hcut, List.countP_append, hfirst, List.length_take]
  omega

theorem pairwise_descending (s : α → β) (l : List α) :
    (l.insertionSort fun a b => s b ≤ s a).Pairwise fun a b => s b ≤ s a := by
  have htotal : Std.Total fun a b => s b ≤ s a := ⟨fun a b => le_total (s b) (s a)⟩
  have htrans : IsTrans α fun a b => s b ≤ s a := ⟨fun a b c hab hbc => hbc.trans hab⟩
  exact List.pairwise_insertionSort _ l

/-- Sorting is stable: the first entry comes before those with its score. -/
theorem place_head (l : List α) (x : α) :
    ((x :: l).insertionSort fun a b => s b ≤ s a)[l.countP fun w => s x < s w]? = some x := by
  have hsorted := pairwise_descending s l
  have hahead : ((l.insertionSort fun a b => s b ≤ s a).takeWhile fun b => ¬ s b ≤ s x).length =
      l.countP fun w => s x < s w := by
    rw [takeWhile_eq_filter, ← List.countP_eq_length_filter,
      (List.perm_insertionSort _ l).countP_eq]
    · simp
    · refine hsorted.imp fun {a b} hab hb => ?_
      have hlt : s x < s b := by simpa using hb
      simpa using hlt.trans_le hab
  rw [List.insertionSort_cons_eq_take_drop, ← hahead, List.getElem?_append_right le_rfl, Nat.sub_self]
  rfl

end

theorem pair_sublist_map {α β : Type} {f : α → β} {x y : β} {l : List α}
    (h : [x, y].Sublist (l.map f)) :
    ∃ a b, [a, b].Sublist l ∧ f a = x ∧ f b = y := by
  obtain ⟨pre, hpre, hmap⟩ := List.sublist_map_iff.mp h
  match pre, hmap with
  | [a, b], hmap =>
    simp only [List.map_cons, List.map_nil, List.cons.injEq, and_true] at hmap
    exact ⟨a, b, hpre, hmap.1.symm, hmap.2.symm⟩

/-- A list in which every entry of another occurs equally often, and nothing else. -/
theorem perm_flatten_replicate {α : Type} [BEq α] [LawfulBEq α] {l u : List α} {n : Nat}
    (hu : u.Nodup) (hin : ∀ a ∈ u, l.count a = n)
    (hout : ∀ a ∈ l, a ∈ u) : l.Perm (List.replicate n u).flatten := by
  rw [List.perm_iff_count]
  intro a
  rw [List.count_flatten, List.map_replicate, List.sum_replicate_nat]
  by_cases ha : a ∈ u
  · rw [hin a ha, List.count_eq_one_of_mem hu ha, Nat.mul_one]
  · rw [List.count_eq_zero_of_not_mem (mt (hout a) ha), List.count_eq_zero_of_not_mem ha, Nat.mul_zero]

section
variable {α : Type} {β : α → Type} (f : ∀ a, List (β a))

theorem countP_le_sum_length (l : List α) :
    (l.countP fun a => !(f a).isEmpty) ≤ (l.map fun a => (f a).length).sum := by
  induction l with
  | nil => simp
  | cons a l ih =>
    rw [List.countP_cons, List.map_cons, List.sum_cons]
    cases ha : f a with
    | nil => simpa using ih
    | cons x rest =>
      simp only [List.isEmpty_cons, Bool.not_false, if_true, List.length_cons]
      omega

/-- As many in all as there are with some, exactly when none has more than one. -/
theorem sum_length_eq_countP (l : List α) :
    (l.map fun a => (f a).length).sum = (l.countP fun a => !(f a).isEmpty) ↔
    ∀ a ∈ l, (f a).length ≤ 1 := by
  induction l with
  | nil => simp
  | cons a l ih =>
    have hle := countP_le_sum_length f l
    rw [List.map_cons, List.sum_cons, List.countP_cons, List.forall_mem_cons, ← ih]
    cases ha : f a with
    | nil => simp
    | cons x rest =>
      simp only [List.isEmpty_cons, Bool.not_false, if_true, List.length_cons]
      omega

end

end Basis

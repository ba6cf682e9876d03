import Mathlib.Data.List.Lex
import Mathlib.Data.List.Sort
import Mathlib.Tactic.Common

/-!
# Maps as sorted lists

The entries of a map in the order of their keys. Two that hold the same are
one list.
-/

namespace Basis

namespace Fields

variable {κ ν : Type} [LinearOrder κ] {k a : κ} {v w : ν} {fields fields' : List (κ × ν)}

def find (k : κ) : List (κ × ν) → Option ν
  | [] => none
  | f :: rest => if k = f.1 then some f.2 else find k rest

def put (k : κ) (v : ν) : List (κ × ν) → List (κ × ν)
  | [] => [(k, v)]
  | f :: rest => if k < f.1 then (k, v) :: f :: rest else if k = f.1 then (k,
      v) :: rest else f :: put k v rest

def drop (k : κ) (fields : List (κ × ν)) : List (κ × ν) := fields.filter fun f => f.1 ≠ k

def Sorted (fields : List (κ × ν)) : Prop := fields.Pairwise fun f g => f.1 < g.1

@[simp] theorem find_nil : find k ([] : List (κ × ν)) = none := rfl

theorem mem_of_find (h : find k fields = some v) : (k, v) ∈ fields := by
  induction fields with
  | nil => cases h
  | cons f rest ih =>
    rw [find] at h
    by_cases hk : k = f.1
    · rw [if_pos hk] at h
      cases h
      subst hk
      exact List.mem_cons_self
    · rw [if_neg hk] at h
      exact List.mem_cons_of_mem _ (ih h)

theorem find_eq_none_iff : find k fields = none ↔ ∀ f ∈ fields, f.1 ≠ k := by
  induction fields with
  | nil => simp
  | cons f rest ih =>
    rw [find, List.forall_mem_cons]
    by_cases hk : k = f.1
    · simp [hk]
    · rw [if_neg hk, ih]
      simp [Ne.symm hk]

theorem find_iff (hs : Sorted fields) : find k fields = some v ↔ (k, v) ∈ fields := by
  refine ⟨mem_of_find, fun h => ?_⟩
  induction fields with
  | nil => cases h
  | cons f rest ih =>
    obtain ⟨hf, hrest⟩ := List.pairwise_cons.mp hs
    rw [find]
    rcases List.mem_cons.mp h with rfl | h
    · rw [if_pos rfl]
    · rw [if_neg (ne_of_gt (hf _ h)), ih hrest h]

theorem find_drop : find k (drop a fields) = if k = a then none else find k fields := by
  induction fields with
  | nil => simp [drop]
  | cons f rest ih =>
    unfold drop at ih ⊢
    by_cases ha : f.1 = a
    · rw [List.filter_cons_of_neg (by simp [ha]), ih, find]
      by_cases hk : k = a
      · rw [if_pos hk, if_pos hk]
      · rw [if_neg hk, if_neg hk, if_neg (by rw [ha]; exact hk)]
    · rw [List.filter_cons_of_pos (by simp [ha]), find, find, ih]
      by_cases hk : k = f.1
      · rw [if_pos hk, if_neg (by rw [hk]; exact ha), if_pos hk]
      · rw [if_neg hk, if_neg hk]

theorem find_put : find k (put a v fields) = if k = a then some v else find k fields := by
  induction fields with
  | nil => rfl
  | cons f rest ih =>
    rw [put]
    by_cases hlt : a < f.1
    · rw [if_pos hlt]
      rfl
    · rw [if_neg hlt]
      by_cases heq : a = f.1
      · rw [if_pos heq, find, find]
        by_cases hk : k = a
        · rw [if_pos hk, if_pos hk]
        · rw [if_neg hk, if_neg hk, if_neg (by rw [← heq]; exact hk)]
      · rw [if_neg heq, find, find, ih]
        by_cases hk : k = f.1
        · rw [if_pos hk, if_neg (by rw [hk]; exact Ne.symm heq), if_pos hk]
        · rw [if_neg hk, if_neg hk]

theorem sorted_drop (hs : Sorted fields) : Sorted (drop a fields) := hs.filter _

theorem mem_put {f : κ × ν} (h : f ∈ put a v fields) : f = (a, v) ∨ f ∈ fields := by
  induction fields with
  | nil => exact .inl (List.mem_singleton.mp h)
  | cons g rest ih =>
    rw [put] at h
    by_cases hlt : a < g.1
    · rw [if_pos hlt] at h
      exact List.mem_cons.mp h
    · rw [if_neg hlt] at h
      by_cases heq : a = g.1
      · rw [if_pos heq] at h
        exact (List.mem_cons.mp h).imp_right (List.mem_cons_of_mem _)
      · rw [if_neg heq] at h
        rcases List.mem_cons.mp h with rfl | h
        · exact .inr List.mem_cons_self
        · exact (ih h).imp_right (List.mem_cons_of_mem _)

theorem sorted_put (hs : Sorted fields) : Sorted (put a v fields) := by
  induction fields with
  | nil => exact List.pairwise_singleton _ _
  | cons f rest ih =>
    obtain ⟨hf, hrest⟩ := List.pairwise_cons.mp hs
    rw [put]
    by_cases hlt : a < f.1
    · rw [if_pos hlt]
      refine List.pairwise_cons.mpr ⟨fun g hg => ?_, hs⟩
      rcases List.mem_cons.mp hg with rfl | hg
      · exact hlt
      · exact hlt.trans (hf g hg)
    · rw [if_neg hlt]
      by_cases heq : a = f.1
      · rw [if_pos heq]
        exact List.pairwise_cons.mpr ⟨fun g hg => by rw [heq]; exact hf g hg, hrest⟩
      · rw [if_neg heq]
        refine List.pairwise_cons.mpr ⟨fun g hg => ?_, ih hrest⟩
        rcases mem_put hg with rfl | hg
        · exact lt_of_le_of_ne (not_lt.mp hlt) (Ne.symm heq)
        · exact hf g hg

/-- What two hold decides whether they are the same. -/
theorem ext (hs : Sorted fields) (hs' : Sorted fields') (h : ∀ k, find k fields = find k fields') :
    fields = fields' := by
  have irr : Std.Irrefl fun f g : κ × ν => f.1 < g.1 := ⟨fun f => lt_irrefl f.1⟩
  have anti : Std.Antisymm fun f g : κ × ν => f.1 < g.1 := ⟨fun _ _ h h' => absurd h' (lt_asymm h)⟩
  refine hs.eq_of_mem_iff hs' fun {f} => ?_
  rw [← find_iff hs, ← find_iff hs', h]

end Fields

end Basis

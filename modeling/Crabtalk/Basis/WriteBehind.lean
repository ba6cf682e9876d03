import Mathlib.Data.List.Basic
import Mathlib.Logic.Function.Basic

/-!
# Cells written behind

Cells are changed at once in one place and by tasks in another. Where each
change fills an empty cell or empties a full one, and the tasks of one cell run
in the order of its changes, the second place goes through what the first went
through.
-/

namespace Basis

variable {τ κ ν : Type} [DecidableEq κ] {cell : τ → κ} {value : τ → Option ν}
  {stored memory : κ → Option ν} {ts : List τ} {t : τ}
  {k : κ} {v u x : Option ν} {ws : List (Option ν)} {i : Nat}

/-! ## One cell -/

/-- From `v` the writes lead to `u`, each filling the cell or emptying it. -/
def Alternates : Option ν → List (Option ν) → Option ν → Prop
  | v, [], u => v = u
  | v, w :: ws, u => v.isSome ≠ w.isSome ∧ Alternates w ws u

theorem Alternates.snoc (h : Alternates v ws u) (hx : u.isSome ≠ x.isSome) :
    Alternates v (ws ++ [x]) x := by
  induction ws generalizing v with
  | nil =>
    have hv : v = u := h
    exact ⟨hv ▸ hx, rfl⟩
  | cons w ws ih => exact ⟨h.1, ih h.2⟩

theorem Alternates.replay (h : Alternates v ws u) : ws.foldl (fun _ w => w) v = u := by
  induction ws generalizing v with
  | nil => exact h
  | cons w ws ih => exact ih h.2

def writesTo (cell : τ → κ) (value : τ → Option ν) (k : κ) (ts : List τ) : List (Option ν) :=
  (ts.filter fun t => cell t = k).map value

theorem writesTo_append {ts' : List τ} : writesTo cell value k (ts ++ ts') =
    writesTo cell value k ts ++ writesTo cell value k ts' := by
  unfold writesTo
  rw [List.filter_append, List.map_append]

theorem writesTo_cons_same : writesTo cell value (cell t) (t :: ts) = value t :: writesTo cell value
    (cell t) ts := by simp [writesTo]

theorem writesTo_cons_other (h : cell t ≠ k) :
    writesTo cell value k (t :: ts) = writesTo cell value k ts := by simp [writesTo, h]

theorem writesTo_eq_nil (h : ∀ t ∈ ts, cell t ≠ k) : writesTo cell value k ts = [] := by
  unfold writesTo
  rw [List.map_eq_nil_iff, List.filter_eq_nil_iff]
  intro t ht hk
  exact h t ht (of_decide_eq_true hk)

theorem take_cons_drop (ht : ts[i]? = some t) : ts = ts.take i ++ t :: ts.drop (i + 1) := by
  rw [← (List.getElem?_eq_some_iff.mp ht).2, List.getElem_cons_drop, List.take_append_drop]

theorem writesTo_eraseIdx_other (ht : ts[i]? = some t) (h : cell t ≠ k) :
    writesTo cell value k (ts.eraseIdx i) = writesTo cell value k ts := by
  conv_rhs => rw [take_cons_drop ht]
  rw [List.eraseIdx_eq_take_drop_succ, writesTo_append, writesTo_append, writesTo_cons_other h]

/-- The first task of its cell does the first write. -/
theorem writesTo_oldest (ht : ts[i]? = some t) (h : ∀ u ∈ ts.take i, cell u ≠ cell t) :
    writesTo cell value (cell t) ts = value t :: writesTo cell value (cell t) (ts.eraseIdx i) := by
  conv_lhs => rw [take_cons_drop ht]
  rw [List.eraseIdx_eq_take_drop_succ, writesTo_append, writesTo_append, writesTo_cons_same,
    writesTo_eq_nil h]
  rfl

/-! ## All cells -/

/-- The tasks lead from what is stored to what is in memory, cell by cell. -/
def Behind (cell : τ → κ) (value : τ → Option ν) (stored memory : κ → Option ν) (ts : List τ) : Prop :=
  ∀ k, Alternates (stored k) (writesTo cell value k ts) (memory k)

namespace Behind

theorem issue (h : Behind cell value stored memory ts)
    (hx : (memory (cell t)).isSome ≠ (value t).isSome) :
    Behind cell value stored (Function.update memory (cell t) (value t)) (ts ++ [t]) := by
  intro k
  rw [writesTo_append]
  by_cases hk : cell t = k
  · subst hk
    rw [writesTo_cons_same, Function.update_self]
    exact (h (cell t)).snoc hx
  · rw [writesTo_cons_other hk, Function.update_of_ne (Ne.symm hk)]
    simpa [writesTo] using h k

theorem oldest (h : Behind cell value stored memory ts) (ht : ts[i]? = some t)
    (ho : ∀ u ∈ ts.take i, cell u ≠ cell t) :
    (stored (cell t)).isSome ≠ (value t).isSome := by
  have hcell := h (cell t)
  rw [writesTo_oldest ht ho] at hcell
  exact hcell.1

theorem perform (h : Behind cell value stored memory ts) (ht : ts[i]? = some t)
    (ho : ∀ u ∈ ts.take i, cell u ≠ cell t) :
    Behind cell value (Function.update stored (cell t) (value t)) memory (ts.eraseIdx i) := by
  intro k
  by_cases hk : cell t = k
  · subst hk
    have hcell := h (cell t)
    rw [writesTo_oldest ht ho] at hcell
    rw [Function.update_self]
    exact hcell.2
  · rw [writesTo_eraseIdx_other ht hk, Function.update_of_ne (Ne.symm hk)]
    exact h k

theorem settled (h : Behind cell value stored memory []) : stored = memory := funext h

/-- With the tasks run in order, memory is what is stored. -/
theorem replay (h : Behind cell value stored memory ts) :
    ts.foldl (fun s t => Function.update s (cell t) (value t)) stored = memory := by
  have hcells : ∀ (ts : List τ) (s : κ → Option ν) (k : κ),
      ts.foldl (fun s t => Function.update s (cell t) (value t)) s k =
      (writesTo cell value k ts).foldl (fun _ w => w) (s k) := by
    intro ts
    induction ts with
    | nil => intro s k; rfl
    | cons t ts ih =>
      intro s k
      rw [List.foldl_cons, ih]
      by_cases hk : cell t = k
      · subst hk
        rw [writesTo_cons_same, Function.update_self]
        rfl
      · rw [writesTo_cons_other hk, Function.update_of_ne (Ne.symm hk)]
  funext k
  rw [hcells, (h k).replay]

end Behind

end Basis

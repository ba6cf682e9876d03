import Mathlib.Logic.Basic

/-!
# States a system can get into

A system is a set of first states and a relation that says where an act can
lead from a state. What holds at first and is kept by every act holds in each
state the system gets into.
-/

namespace Basis

variable {σ α : Type} {init I : σ → Prop} {step : σ → α → σ → Prop} {s t : σ}

inductive Reachable (init : σ → Prop) (step : σ → α → σ → Prop) : σ → Prop
  | first {s : σ} : init s → Reachable init step s
  | next {s t : σ} {a : α} : Reachable init step s → step s a t → Reachable init step t

theorem Reachable.invariant (h₀ : ∀ s, init s → I s) (hstep : ∀ s a t, I s → step s a t → I t)
    (h : Reachable init step s) : I s := by
  induction h with
  | first hs => exact h₀ _ hs
  | next _ hs ih => exact hstep _ _ _ ih hs

theorem Reachable.foldlM {f : σ → α → Option σ} {as : List α}
    (hf : ∀ s a t, a ∈ as → f s a = some t → step s a t)
    (h : Reachable init step s) (hrun : as.foldlM f s = some t) : Reachable init step t := by
  induction as generalizing s with
  | nil =>
    cases hrun
    exact h
  | cons a as ih =>
    rw [List.foldlM_cons] at hrun
    obtain ⟨u, hu, hrun⟩ := Option.bind_eq_some_iff.mp hrun
    exact ih (fun s a t ha => hf s a t (List.mem_cons_of_mem _ ha))
      (h.next (hf s a u List.mem_cons_self hu)) hrun

theorem Reachable.exists_run {f : σ → α → Option σ} {P : σ → Prop} [DecidablePred P] {l : List α}
    (hf : ∀ s a t, f s a = some t → step s a t) (h : Reachable init step s)
    (hrun : (l.foldlM f s).any (fun t => P t) = true) :
    ∃ t, Reachable init step t ∧ P t := by
  obtain ⟨t, ht, hp⟩ := (Option.any_eq_true _ _).mp hrun
  exact ⟨t, h.foldlM (fun s a t _ => hf s a t) ht, of_decide_eq_true hp⟩

/-- A run that ends in a state with `P`, each of its acts in a state where it may be. -/
theorem Reachable.exists_careful_run {f : σ → α → Option σ} {C : σ → α → Prop}
    [∀ s a, Decidable (C s a)] {P : σ → Prop} [DecidablePred P]
    {l : List α} (hf : ∀ s a t, f s a = some t → C s a → step s a t) (h : Reachable init step s)
    (hrun : (l.foldlM (fun s a => if C s a then f s a else none) s).any (fun t => P t) = true) :
    ∃ t, Reachable init step t ∧ P t := by
  refine Reachable.exists_run (fun s a t hs => ?_) h hrun
  split at hs
  · rename_i hc
    exact hf s a t hs hc
  · cases hs

end Basis

import Crabtalk.Basis.Cut

/-!
# The footprint of a program

The operations a program may ask for, whatever states they are answered from.
A footprint holds no matter who else works on the state in between.
-/

namespace Basis.Prog

variable {ω : Type} {ρ : ω → Type} {ε σ α β : Type} (h : (o : ω) → EStateM ε σ (ρ o))

/-- Given answers the handler can give, `p` asks for operations in `P` only. -/
def Footprint (P : ω → Prop) : Prog ω ρ ε α → Prop
  | done _ => True
  | fail _ => True
  | call o k => P o ∧ (∀ s a s', h o s = .ok a s' →
      Footprint P (k (.ok a))) ∧ ∀ e, Footprint P (k (.error e))

section
variable {h} {P : ω → Prop} {p : Prog ω ρ ε α} {f : α → Prog ω ρ ε β}

theorem Within.footprint {R : ω → Prop} (hp : Within P p) (hR : ∀ o, P o → R o) :
    Footprint h R p := by
  induction p with
  | done a => trivial
  | fail e => trivial
  | call o k ih => exact ⟨hR o hp.1, fun _ a _ _ => ih _ (hp.2 (.ok a)),
      fun e => ih _ (hp.2 (.error e))⟩

theorem Footprint.bind (hp : Footprint h P p) (hf : ∀ a, Footprint h P (f a)) :
    Footprint h P (p >>= f) := by
  induction p with
  | done a => exact hf a
  | fail e => trivial
  | call o k ih => exact ⟨hp.1, fun s a s' ho => ih _ (hp.2.1 s a s' ho), fun e => ih _ (hp.2.2 e)⟩

theorem Footprint.attempt (hp : Footprint h P p) : Footprint h P p.attempt := by
  induction p with
  | done a => trivial
  | fail e => trivial
  | call o k ih => exact ⟨hp.1, fun s a s' ho => ih _ (hp.2.1 s a s' ho), fun e => ih _ (hp.2.2 e)⟩

theorem Footprint.perform {o : ω} (ho : P o) : Footprint h P (perform o) :=
  ⟨ho, fun _ _ _ _ => trivial, fun _ => trivial⟩

theorem Footprint.forM {f : α → Prog ω ρ ε PUnit} {l : List α} (hf : ∀ a ∈ l, Footprint h P (f a)) :
    Footprint h P (forM l f) := by
  induction l with
  | nil => trivial
  | cons a l ih =>
    rw [List.forM_cons]
    refine (hf a List.mem_cons_self).bind fun _ => ih ?_
    intro b hb
    exact hf b (List.mem_cons_of_mem _ hb)

/-- What the operations of a footprint keep, the program keeps, faults or not. -/
theorem Footprint.wp {faults : Prop} {I : σ → Prop} (hp : Footprint h P p)
    (hI : ∀ o, P o → ∀ s, I s → Basis.wp (h o) (fun _ => I) (fun _ => I) s) {s : σ} (hs : I s) :
    Prog.wp faults h p (fun _ => I) (fun _ => I) s := by
  induction p generalizing s with
  | done a => exact hs
  | fail e => exact hs
  | call o k ih =>
    rw [wp_call]
    have ho := hI o hp.1 s hs
    unfold Basis.wp at ho ⊢
    refine ⟨?_, fun _ e => ih _ (hp.2.2 e) hs⟩
    cases hr : h o s with
    | ok a s' =>
      rw [hr] at ho
      exact ih _ (hp.2.1 s a s' hr) ho
    | error e s' =>
      rw [hr] at ho
      exact ih _ (hp.2.2 e) ho

end

end Basis.Prog

import Crabtalk.Basis.Effect

/-!
# Two runs side by side

Twins are programs that take the same course from related states: the answers
to their operations may differ, but never in a way that lets one go on and the
other fail. With faults, the two are struck at the same operation.
-/

namespace Basis.Prog

variable {ω : Type} {ρ : ω → Type} {ε σ α α' β β' : Type}

/-- The answers are both results, related by `Q`, or the same failure. -/
def Alike (Q : α → α' → Prop) : Except ε α → Except ε α' → Prop
  | .ok a, .ok a' => Q a a'
  | .error e, .error e' => e = e'
  | _, _ => False

/-- The handler gives both a result or both the same failure, and the two go on with `P`. -/
def Answered (P : Except ε α → Except ε α' → σ → σ → Prop) : EStateM.Result ε σ α →
    EStateM.Result ε σ α' → Prop
  | .ok a t, .ok a' t' => P (.ok a) (.ok a') t t'
  | .error e t, .error e' t' => e = e' ∧ P (.error e) (.error e) t t'
  | _, _ => False

theorem Answered.mono {P P' : Except ε α → Except ε α' → σ → σ → Prop}
    (hP : ∀ r r' t t', P r r' t t' → P' r r' t t') :
    ∀ {x : EStateM.Result ε σ α} {x' : EStateM.Result ε σ α'}, Answered P x x' → Answered P' x x'
  | .ok _ _, .ok _ _, h => hP _ _ _ _ h
  | .error _ _, .error _ _, h => ⟨h.1, hP _ _ _ _ h.2⟩
  | .ok _ _, .error _ _, h => h.elim
  | .error _ _, .ok _ _, h => h.elim

section
variable (faults : Prop) (h : (o : ω) → EStateM ε σ (ρ o)) (R : σ → σ → Prop) (Q : α → α' → Prop)

def TwinAt : Prog ω ρ ε α → Prog ω ρ ε α' → σ → σ → Prop
  | done a, p', s, s' => ∃ a', p' = done a' ∧ Q a a' ∧ R s s'
  | fail e, p', s, s' => p' = fail e ∧ R s s'
  | call o k, p', s, s' =>
    ∃ o' k', p' = call o' k' ∧ Answered (fun r r' t t' => TwinAt (k r) (k' r') t t')
      (h o s) (h o' s') ∧
      (faults → ∀ e, TwinAt (k (.error e)) (k' (.error e)) s s')

/-- The programs are twins from all related states. -/
def Twins (p : Prog ω ρ ε α) (p' : Prog ω ρ ε α') : Prop := ∀ s s', R s s' →
    TwinAt faults h R Q p p' s s'

end

section
variable {faults : Prop} {h : (o : ω) → EStateM ε σ (ρ o)} {R : σ → σ → Prop} {Q : α → α' → Prop}
  {S : β → β' → Prop}

theorem TwinAt.bind {f : α → Prog ω ρ ε β} {f' : α' → Prog ω ρ ε β'}
    (hf : ∀ a a', Q a a' → Twins faults h R S (f a) (f' a')) :
    ∀ {p : Prog ω ρ ε α} {p' : Prog ω ρ ε α'} {s s' : σ}, TwinAt faults h R Q p p' s s' →
      TwinAt faults h R S (p >>= f) (p' >>= f') s s'
  | done a, _, s, s', hp => by
    obtain ⟨a', rfl, hq, hr⟩ := hp
    exact hf a a' hq s s' hr
  | fail e, _, s, s', hp => by
    obtain ⟨rfl, hr⟩ := hp
    exact ⟨rfl, hr⟩
  | call o k, _, s, s', hp => by
    obtain ⟨o', k', rfl, hcall, hfault⟩ := hp
    exact ⟨o', fun r => (k' r).bind f', rfl, hcall.mono fun _ _ _ _ => bind hf,
      fun hfaults e => bind hf (hfault hfaults e)⟩

theorem TwinAt.attempt : ∀ {p : Prog ω ρ ε α} {p' : Prog ω ρ ε α'} {s s' : σ},
    TwinAt faults h R Q p p' s s' →
    TwinAt faults h R (Alike Q) p.attempt p'.attempt s s'
  | done a, _, s, s', hp => by
    obtain ⟨a', rfl, hq, hr⟩ := hp
    exact ⟨.ok a', rfl, hq, hr⟩
  | fail e, _, s, s', hp => by
    obtain ⟨rfl, hr⟩ := hp
    exact ⟨.error e, rfl, rfl, hr⟩
  | call o k, _, s, s', hp => by
    obtain ⟨o', k', rfl, hcall, hfault⟩ := hp
    exact ⟨o', fun r => (k' r).attempt, rfl, hcall.mono fun _ _ _ _ => attempt,
      fun hfaults e => attempt (hfault hfaults e)⟩

theorem TwinAt.mono {Q' : α → α' → Prop} (hq : ∀ a a', Q a a' → Q' a a') :
    ∀ {p : Prog ω ρ ε α} {p' : Prog ω ρ ε α'} {s s' : σ},
    TwinAt faults h R Q p p' s s' → TwinAt faults h R Q' p p' s s'
  | done a, _, s, s', hp => by
    obtain ⟨a', rfl, ha, hr⟩ := hp
    exact ⟨a', rfl, hq a a' ha, hr⟩
  | fail e, _, s, s', hp => hp
  | call o k, _, s, s', hp => by
    obtain ⟨o', k', rfl, hcall, hfault⟩ := hp
    exact ⟨o', k', rfl, hcall.mono fun _ _ _ _ => mono hq,
      fun hfaults e => mono hq (hfault hfaults e)⟩

theorem Twins.pure {a : α} {a' : α'} (hq : Q a a') :
    Twins faults h R Q (pure a : Prog ω ρ ε α) (pure a') :=
  fun _ _ hr => ⟨a', rfl, hq, hr⟩

theorem Twins.fail (e : ε) : Twins faults h R Q (fail e : Prog ω ρ ε α) (fail e) :=
  fun _ _ hr => ⟨rfl, hr⟩

theorem Twins.bind {p : Prog ω ρ ε α} {p' : Prog ω ρ ε α'} {f : α → Prog ω ρ ε β}
    {f' : α' → Prog ω ρ ε β'} (hp : Twins faults h R Q p p')
    (hf : ∀ a a', Q a a' → Twins faults h R S (f a) (f' a')) : Twins faults h R S (p >>= f) (p' >>= f') :=
  fun s s' hr => (hp s s' hr).bind hf

theorem Twins.attempt {p : Prog ω ρ ε α} {p' : Prog ω ρ ε α'} (hp : Twins faults h R Q p p') :
    Twins faults h R (Alike Q) p.attempt p'.attempt := fun s s' hr => (hp s s' hr).attempt

theorem Twins.perform (o o' : ω) {Q : ρ o → ρ o' → Prop}
    (ho : ∀ s s', R s s' → Answered (fun r r' t t' => Alike Q r r' ∧ R t t') (h o s) (h o' s')) :
    Twins faults h R Q (perform o : Prog ω ρ ε _) (perform o') := by
  intro s s' hs
  refine ⟨o', ofExcept, rfl, (ho s s' hs).mono fun r r' t t' hr => ?_, fun _ _ => ⟨rfl, hs⟩⟩
  cases r with
  | ok a =>
    cases r' with
    | ok a' => exact ⟨a', rfl, hr⟩
    | error e => exact hr.1.elim
  | error e =>
    cases r' with
    | ok a' => exact hr.1.elim
    | error e' =>
      cases hr.1
      exact ⟨rfl, hr.2⟩

theorem Twins.forM {γ γ' : Type} {P : γ → γ' → Prop} {f : γ → Prog ω ρ ε PUnit}
    {f' : γ' → Prog ω ρ ε PUnit}
    (hf : ∀ x x', P x x' → Twins faults h R Eq (f x) (f' x')) {l : List γ} {l' : List γ'}
    (hl : List.Forall₂ P l l') :
    Twins faults h R Eq (forM l f) (forM l' f') := by
  induction hl with
  | nil => exact .pure rfl
  | cons hx _ ih =>
    rw [List.forM_cons, List.forM_cons]
    exact (hf _ _ hx).bind fun _ _ _ => ih

/-- A run of one has a run of the other beside it, struck by the same faults. -/
theorem TwinAt.runs {p : Prog ω ρ ε α} {r : Except ε α} {s t : σ} (hr : Runs faults h p s r t) :
    ∀ {p' : Prog ω ρ ε α'} {s' : σ},
    TwinAt faults h R Q p p' s s' → ∃ r' t', Runs faults h p' s' r' t' ∧ Alike Q r r' ∧ R t t' := by
  induction hr with
  | done a s =>
    intro p' s' hp
    obtain ⟨a', rfl, hq, hr⟩ := hp
    exact ⟨_, s', .done a' s', hq, hr⟩
  | fail e s =>
    intro p' s' hp
    obtain ⟨rfl, hr⟩ := hp
    exact ⟨_, s', .fail e s', rfl, hr⟩
  | ok ho _ ih =>
    intro p' s' hp
    obtain ⟨o', k', rfl, hcall, -⟩ := hp
    rw [ho] at hcall
    cases ho' : h o' s' with
    | ok a' t' =>
      rw [ho'] at hcall
      obtain ⟨r', u, hrun, hq⟩ := ih hcall
      exact ⟨r', u, .ok ho' hrun, hq⟩
    | error e' t' =>
      rw [ho'] at hcall
      exact hcall.elim
  | error ho _ ih =>
    intro p' s' hp
    obtain ⟨o', k', rfl, hcall, -⟩ := hp
    rw [ho] at hcall
    cases ho' : h o' s' with
    | ok a' t' =>
      rw [ho'] at hcall
      exact hcall.elim
    | error e' t' =>
      rw [ho'] at hcall
      obtain ⟨rfl, hcall⟩ := hcall
      obtain ⟨r', u, hrun, hq⟩ := ih hcall
      exact ⟨r', u, .error ho' hrun, hq⟩
  | fault e hfaults _ ih =>
    intro p' s' hp
    obtain ⟨o', k', rfl, -, hfault⟩ := hp
    obtain ⟨r', t', hrun, hq⟩ := ih (hfault hfaults e)
    exact ⟨r', t', .fault e hfaults hrun, hq⟩

theorem Runs.unique {p : Prog ω ρ ε α} {r r' : Except ε α} {s t t' : σ} (hr : Runs False h p s r t)
    (hr' : Runs False h p s r' t') :
    r = r' ∧ t = t' := by
  induction hr with
  | done a s =>
    cases hr'
    exact ⟨rfl, rfl⟩
  | fail e s =>
    cases hr'
    exact ⟨rfl, rfl⟩
  | ok ho _ ih =>
    cases hr' with
    | ok ho' hr' =>
      rw [ho] at ho'
      cases ho'
      exact ih hr'
    | error ho' =>
      rw [ho] at ho'
      cases ho'
    | fault e hf => exact hf.elim
  | error ho _ ih =>
    cases hr' with
    | ok ho' =>
      rw [ho] at ho'
      cases ho'
    | error ho' hr' =>
      rw [ho] at ho'
      cases ho'
      exact ih hr'
    | fault e hf => exact hf.elim
  | fault e hf => exact hf.elim

end

end Basis.Prog

import Crabtalk.Basis.Wp

/-!
# Programs over named operations

A `Prog` is a program as the sequence of operations it asks for: each is
answered with a result or with the failure of the operation, and the rest of
the program goes on from the answer. A handler performs the operations on a
state. Where faults may strike, any operation may also fail and change nothing.
A program may be stopped between two operations, so next to its precondition
(`wp`) there is the one that also keeps an invariant all the while (`during`).
-/

namespace Basis

inductive Prog (ω : Type) (ρ : ω → Type) (ε α : Type) : Type
  | done (a : α)
  | fail (e : ε)
  | call (o : ω) (k : Except ε (ρ o) → Prog ω ρ ε α)

namespace Prog

variable {ω : Type} {ρ : ω → Type} {ε σ α β : Type}

def bind : Prog ω ρ ε α → (α → Prog ω ρ ε β) → Prog ω ρ ε β
  | done a, f => f a
  | fail e, _ => fail e
  | call o k, f => call o fun r => (k r).bind f

instance : Monad (Prog ω ρ ε) where
  pure := done
  bind := bind

def ofExcept : Except ε α → Prog ω ρ ε α
  | .ok a => done a
  | .error e => fail e

def perform (o : ω) : Prog ω ρ ε (ρ o) := call o ofExcept

def attempt : Prog ω ρ ε α → Prog ω ρ ε (Except ε α)
  | done a => done (.ok a)
  | fail e => done (.error e)
  | call o k => call o fun r => (k r).attempt

/-! ## Runs -/

section
variable (faults : Prop) (h : (o : ω) → EStateM ε σ (ρ o))

def interp : Prog ω ρ ε α → EStateM ε σ α
  | done a => pure a
  | fail e => throw e
  | call o k => fun s =>
    match h o s with
    | .ok a s' => interp (k (.ok a)) s'
    | .error e s' => interp (k (.error e)) s'

/-- The runs of a program, from the state they start in to their answer and the state they leave. -/
inductive Runs : Prog ω ρ ε α → σ → Except ε α → σ → Prop
  | done (a : α) (s : σ) : Runs (.done a) s (.ok a) s
  | fail (e : ε) (s : σ) : Runs (.fail e) s (.error e) s
  | ok {o : ω} {k : Except ε (ρ o) → Prog ω ρ ε α} {s s' s'' : σ} {a : ρ o} {r : Except ε α} :
      h o s = .ok a s' → Runs (k (.ok a)) s' r s'' → Runs (.call o k) s r s''
  | error {o : ω} {k : Except ε (ρ o) → Prog ω ρ ε α} {s s' s'' : σ} {e : ε} {r : Except ε α} :
      h o s = .error e s' → Runs (k (.error e)) s' r s'' → Runs (.call o k) s r s''
  | fault {o : ω} {k : Except ε (ρ o) → Prog ω ρ ε α} {s s' : σ} {r : Except ε α} (e : ε) :
      faults → Runs (k (.error e)) s r s' → Runs (.call o k) s r s'

inductive Step : Prog ω ρ ε α → σ → Prog ω ρ ε α → σ → Prop
  | ok {o : ω} {k : Except ε (ρ o) → Prog ω ρ ε α} {s s' : σ} {a : ρ o} : h o s = .ok a s' →
  Step (.call o k) s (k (.ok a)) s'
  | error {o : ω} {k : Except ε (ρ o) → Prog ω ρ ε α} {s s' : σ} {e : ε} :
      h o s = .error e s' → Step (.call o k) s (k (.error e)) s'
  | fault {o : ω} {k : Except ε (ρ o) → Prog ω ρ ε α} {s : σ} (e : ε) : faults →
      Step (.call o k) s (k (.error e)) s

def during (I : σ → Prop) : Prog ω ρ ε α → (α → σ → Prop) → (ε → σ → Prop) → σ → Prop
  | done a, Q, _, s => Q a s
  | fail e, _, E, s => E e s
  | call o k, Q, E, s =>
    I s ∧ Basis.wp (h o) (fun a s' => during I (k (.ok a)) Q E s')
      (fun e s' => during I (k (.error e)) Q E s') s ∧
      (faults → ∀ e, during I (k (.error e)) Q E s)

def wp (p : Prog ω ρ ε α) (Q : α → σ → Prop) (E : ε → σ → Prop) (s : σ) : Prop :=
  during faults h (fun _ => True) p Q E s

theorem interp_bind (f : α → Prog ω ρ ε β) : ∀ (p : Prog ω ρ ε α) (s : σ),
    interp h (p >>= f) s = match interp h p s with
      | .ok a s' => interp h (f a) s'
      | .error e s' => .error e s'
  | done _, _ => rfl
  | fail _, _ => rfl
  | call o k, s => by
    show interp h (call o fun r => (k r).bind f) s = _
    simp only [interp]
    cases h o s with
    | ok a s' => exact interp_bind f (k (.ok a)) s'
    | error e s' => exact interp_bind f (k (.error e)) s'

theorem interp_attempt : ∀ (p : Prog ω ρ ε α) (s : σ),
    interp h p.attempt s = match interp h p s with
      | .ok a s' => .ok (.ok a) s'
      | .error e s' => .ok (.error e) s'
  | done _, _ => rfl
  | fail _, _ => rfl
  | call o k, s => by
    simp only [attempt, interp]
    cases h o s with
    | ok a s' => exact interp_attempt (k (.ok a)) s'
    | error e s' => exact interp_attempt (k (.error e)) s'

theorem runs_interp : ∀ (p : Prog ω ρ ε α) (s : σ),
    Basis.wp (interp h p) (fun a => Runs faults h p s (.ok a))
    (fun e => Runs faults h p s (.error e)) s
  | done a, s => .done a s
  | fail e, s => .fail e s
  | call o k, s => by
    have ih : ∀ r s, Basis.wp (interp h (k r)) (fun a => Runs faults h (k r) s (.ok a))
      (fun e => Runs faults h (k r) s (.error e)) s := fun r s => runs_interp (k r) s
    simp only [Basis.wp, interp] at ih ⊢
    cases ho : h o s with
    | ok a s' =>
      have := ih (.ok a) s'
      simp only
      split at this
      · exact .ok ho this
      · exact .ok ho this
    | error e s' =>
      have := ih (.error e) s'
      simp only
      split at this
      · exact .error ho this
      · exact .error ho this

variable {faults h} {Q : α → σ → Prop} {E : ε → σ → Prop} {s s' : σ}

def ends (Q : α → σ → Prop) (E : ε → σ → Prop) : Except ε α → σ → Prop
  | .ok a => Q a
  | .error e => E e

/-! ## Rules -/

theorem during.mono {I J : σ → Prop} {R : α → σ → Prop} {F : ε → σ → Prop} (hI : ∀ s, J s → I s)
    (hQ : ∀ a s', R a s' → Q a s')
    (hE : ∀ e s', F e s' → E e s') : ∀ {p : Prog ω ρ ε α} {s : σ}, during faults h J p R F s →
    during faults h I p Q E s
  | done _, _, hp => hQ _ _ hp
  | fail _, _, hp => hE _ _ hp
  | call _ _, _, hp =>
    ⟨hI _ hp.1, Basis.wp.mono hp.2.1 (fun _ _ => during.mono hI hQ hE) fun _ _ =>
      during.mono hI hQ hE,
      fun hf e => during.mono hI hQ hE (hp.2.2 hf e)⟩

theorem during.and {I J : σ → Prop} {R : α → σ → Prop} {F : ε → σ → Prop} :
    ∀ {p : Prog ω ρ ε α} {s : σ},
    during faults h I p Q E s → during faults h J p R F s →
    during faults h (fun s => I s ∧ J s) p (fun a s => Q a s ∧ R a s) (fun e s => E e s ∧ F e s) s
  | done _, _, h₁, h₂ => ⟨h₁, h₂⟩
  | fail _, _, h₁, h₂ => ⟨h₁, h₂⟩
  | call o k, s, h₁, h₂ => by
    refine ⟨⟨h₁.1, h₂.1⟩, ?_, fun hf e => during.and (h₁.2.2 hf e) (h₂.2.2 hf e)⟩
    have h₁ := h₁.2.1
    have h₂ := h₂.2.1
    unfold Basis.wp at *
    cases ho : h o s with
    | ok a s' => rw [ho] at h₁ h₂; exact during.and h₁ h₂
    | error e s' => rw [ho] at h₁ h₂; exact during.and h₁ h₂

section
variable {I : σ → Prop}

theorem during_bind {f : α → Prog ω ρ ε β} {Q : β → σ → Prop} : ∀ {p : Prog ω ρ ε α} {s : σ},
    during faults h I (p >>= f) Q E s ↔
    during faults h I p (fun a => during faults h I (f a) Q E) E s
  | done _, _ => Iff.rfl
  | fail _, _ => Iff.rfl
  | call o k, s => by
    show during faults h I (call o fun r => (k r).bind f) Q E s ↔ _
    have ih : ∀ r s, during faults h I ((k r).bind f) Q E s ↔
        during faults h I (k r) (fun a => during faults h I (f a) Q E) E s :=
      fun r s => during_bind
    simp only [during, ih]

theorem during_attempt {Q : Except ε α → σ → Prop} : ∀ {p : Prog ω ρ ε α} {s : σ},
    during faults h I p.attempt Q E s ↔
    during faults h I p (fun a => Q (.ok a)) (fun e => Q (.error e)) s
  | done _, _ => Iff.rfl
  | fail _, _ => Iff.rfl
  | call o k, s => by
    have ih : ∀ r s, during faults h I (k r).attempt Q E s ↔
        during faults h I (k r) (fun a => Q (.ok a)) (fun e => Q (.error e)) s :=
      fun r s => during_attempt
    simp only [attempt, during, ih]

theorem during_forM {J : σ → Prop} {f : α → Prog ω ρ ε PUnit} : ∀ {l : List α} {s : σ}, J s →
    (∀ a ∈ l, ∀ s, J s → during faults h I (f a) (fun _ => J) E s) →
    during faults h I (forM l f) (fun _ => J) E s
  | [], _, hJ, _ => hJ
  | a :: l, s, hJ, hf => by
    rw [List.forM_cons, during_bind]
    exact (hf a List.mem_cons_self s hJ).mono (fun _ hs => hs)
      (fun _ _ hJ' => during_forM hJ' fun b hb => hf b (List.mem_cons_of_mem _ hb)) fun _ _ he => he

theorem during.wp {p : Prog ω ρ ε α} (hp : during faults h I p Q E s) : Prog.wp faults h p Q E s :=
  hp.mono (fun _ _ => trivial) (fun _ _ hq => hq) fun _ _ he => he

/-- What an operation leaves of the program meets what the program promised. -/
theorem during.step {p p' : Prog ω ρ ε α} (hp : during faults h I p Q E s)
    (hs : Step faults h p s p' s') :
    during faults h I p' Q E s' := by
  cases hs with
  | ok ho =>
    have := hp.2.1
    rw [Basis.wp, ho] at this
    exact this
  | error ho =>
    have := hp.2.1
    rw [Basis.wp, ho] at this
    exact this
  | fault e hf => exact hp.2.2 hf e

theorem during.held {p : Prog ω ρ ε α} (hp : during faults h I p Q E s) (hQ : ∀ a, Q a s → I s)
    (hE : ∀ e, E e s → I s) : I s := by
  cases p with
  | done a => exact hQ a hp
  | fail e => exact hE e hp
  | call o k => exact hp.1

end

theorem wp.mono {R : α → σ → Prop} {F : ε → σ → Prop} (hQ : ∀ a s', R a s' → Q a s')
    (hE : ∀ e s', F e s' → E e s')
    {p : Prog ω ρ ε α} {s : σ} : wp faults h p R F s → wp faults h p Q E s :=
  during.mono (fun _ hs => hs) hQ hE

theorem wp.and {R : α → σ → Prop} {F : ε → σ → Prop} {p : Prog ω ρ ε α} {s : σ}
    (h₁ : wp faults h p Q E s)
    (h₂ : wp faults h p R F s) : wp faults h p (fun a s => Q a s ∧ R a s)
    (fun e s => E e s ∧ F e s) s :=
  (during.and h₁ h₂).wp

@[simp] theorem wp_pure {a : α} : wp faults h (pure a) Q E s ↔ Q a s := Iff.rfl

@[simp] theorem wp_fail {e : ε} : wp faults h (fail e : Prog ω ρ ε α) Q E s ↔ E e s := Iff.rfl

theorem wp_call {o : ω} {k : Except ε (ρ o) → Prog ω ρ ε α} : wp faults h (call o k) Q E s ↔
    Basis.wp (h o) (fun a s' => wp faults h (k (.ok a)) Q E s')
    (fun e s' => wp faults h (k (.error e)) Q E s') s ∧
      (faults → ∀ e, wp faults h (k (.error e)) Q E s) :=
  ⟨fun h => h.2, fun h => ⟨trivial, h⟩⟩

@[simp] theorem wp_perform {o : ω} {Q : ρ o → σ → Prop} :
    wp faults h (perform o) Q E s ↔ Basis.wp (h o) Q E s ∧ (faults → ∀ e, E e s) :=
  wp_call

theorem wp_bind {f : α → Prog ω ρ ε β} {Q : β → σ → Prop} {p : Prog ω ρ ε α} {s : σ} :
    wp faults h (p >>= f) Q E s ↔ wp faults h p (fun a => wp faults h (f a) Q E) E s :=
  during_bind

theorem wp_attempt {Q : Except ε α → σ → Prop} {p : Prog ω ρ ε α} {s : σ} :
    wp faults h p.attempt Q E s ↔ wp faults h p (fun a => Q (.ok a)) (fun e => Q (.error e)) s :=
  during_attempt

theorem wp_forM {I : σ → Prop} {f : α → Prog ω ρ ε PUnit} {l : List α} {s : σ} (hI : I s)
    (hf : ∀ a ∈ l, ∀ s, I s → wp faults h (f a) (fun _ => I) E s) :
    wp faults h (forM l f) (fun _ => I) E s :=
  during_forM hI hf

/-- Every run of a program meets what its precondition promises. -/
theorem wp.runs {p : Prog ω ρ ε α} {r : Except ε α} (hp : wp faults h p Q E s)
    (hr : Runs faults h p s r s') :
    ends Q E r s' := by
  induction hr with
  | done a s => exact hp
  | fail e s => exact hp
  | ok ho _ ih => exact ih (during.step hp (.ok ho))
  | error ho _ ih => exact ih (during.step hp (.error ho))
  | fault e hf _ ih => exact ih (during.step hp (.fault e hf))

/-- Without faults there is one run, the handler's. -/
theorem wp_interp : ∀ {p : Prog ω ρ ε α} {s : σ}, wp False h p Q E s ↔ Basis.wp (interp h p) Q E s
  | done _, _ => Iff.rfl
  | fail _, _ => Iff.rfl
  | call o k, s => by
    rw [wp_call, and_iff_left False.elim]
    simp only [Basis.wp, interp]
    cases h o s
    · exact wp_interp
    · exact wp_interp

theorem runs_of_interp (faults : Prop) {p : Prog ω ρ ε α} {a : α} (hi : interp h p s = .ok a s') :
    Runs faults h p s (.ok a) s' := by
  have hr := runs_interp faults h p s
  rw [Basis.wp, hi] at hr
  exact hr

theorem wp.answers {p : Prog ω ρ ε α} (hp : wp False h p Q (fun _ _ => False) s) :
    ∃ a s', interp h p s = .ok a s' ∧ Q a s' := by
  have hp := wp_interp.mp hp
  unfold Basis.wp at hp
  split at hp
  · exact ⟨_, _, ‹_›, hp⟩
  · exact hp.elim

/-- A program whose failure is ruled out has a run, with or without faults. -/
theorem wp.run (faults : Prop) {p : Prog ω ρ ε α} (hp : wp False h p Q (fun _ _ => False) s) :
    ∃ a s', Runs faults h p s (.ok a) s' ∧ Q a s' := by
  obtain ⟨a, s', hi, hq⟩ := hp.answers
  exact ⟨a, s', runs_of_interp faults hi, hq⟩

theorem wp.failed (faults : Prop) {p : Prog ω ρ ε α} (hp : wp False h p (fun _ _ => False) E s) :
    ∃ e s', Runs faults h p s (.error e) s' ∧ E e s' := by
  have hp := wp_interp.mp hp
  have hr := runs_interp faults h p s
  unfold Basis.wp at hp hr
  cases hi : interp h p s with
  | ok a s' =>
    rw [hi] at hp
    exact hp.elim
  | error e s' =>
    rw [hi] at hp hr
    exact ⟨e, s', hr, hp⟩

theorem wp.trivial (hQ : ∀ a s, Q a s) (hE : ∀ e s, E e s) :
    ∀ {p : Prog ω ρ ε α} {s : σ}, wp faults h p Q E s
  | done _, _ => hQ _ _
  | fail _, _ => hE _ _
  | call o k, s => by
    refine wp_call.mpr ⟨?_, fun _ _ => wp.trivial hQ hE⟩
    unfold Basis.wp
    cases h o s
    · exact wp.trivial hQ hE
    · exact wp.trivial hQ hE

/-! ## Programs that look and leave all as it is -/

variable (h) in
/-- From `s` the answer is `r`, and the state is `s` still. -/
def Sees (p : Prog ω ρ ε α) (s : σ) (r : Except ε α) : Prop :=
  interp h p s = match r with
    | .ok a => .ok a s
    | .error e => .error e s

theorem Sees.pure (a : α) (s : σ) : Sees h (pure a : Prog ω ρ ε α) s (.ok a) := rfl

theorem Sees.fail (e : ε) (s : σ) : Sees h (fail e : Prog ω ρ ε α) s (.error e) := rfl

theorem Sees.perform {o : ω} {a : ρ o} (ho : h o s = .ok a s) : Sees h (perform o) s (.ok a) := by
  unfold Sees
  simp only [Prog.perform, interp, ho]
  rfl

theorem Sees.perform_error {o : ω} {e : ε} (ho : h o s = .error e s) :
    Sees h (Prog.perform o) s (.error e) := by
  unfold Sees
  simp only [Prog.perform, interp, ho]
  rfl

theorem Sees.next {p : Prog ω ρ ε α} {f : α → Prog ω ρ ε β} {a : α} {r : Except ε β}
    (hp : Sees h p s (.ok a)) (hf : Sees h (f a) s r) :
    Sees h (p >>= f) s r := by
  unfold Sees at *
  rw [interp_bind, hp]
  exact hf

theorem Sees.stop {p : Prog ω ρ ε α} {f : α → Prog ω ρ ε β} {e : ε} (hp : Sees h p s (.error e)) :
    Sees h (p >>= f) s (.error e) := by
  unfold Sees at *
  rw [interp_bind, hp]

theorem Sees.attempt {p : Prog ω ρ ε α} {r : Except ε α} (hp : Sees h p s r) :
    Sees h p.attempt s (.ok r) := by
  unfold Sees at *
  rw [interp_attempt, hp]
  cases r with
  | ok a => rfl
  | error e => rfl

theorem Sees.wp {p : Prog ω ρ ε α} {a : α} (hp : Sees h p s (.ok a)) (hq : Q a s) :
    Prog.wp False h p Q E s := by
  rw [wp_interp, Basis.wp, hp]
  exact hq

end

end Prog

end Basis

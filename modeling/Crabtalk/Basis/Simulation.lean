import Crabtalk.Basis.Footprint

/-!
# One handler behind another

A handler may do its work by asking a lower one. Where each operation the
lower handler performs is answered by the upper one alike, and states that go
together go together still, a program cannot tell the two apart: a run of the
lower handler in which no operation fails is the upper handler's run, and a
program stopped below is stopped above at the same operation.
-/

namespace Basis.Prog

variable {ω : Type} {ρ : ω → Type} {ε σ τ α β : Type} (h : (o : ω) → EStateM ε σ (ρ o))
  (g : (o : ω) → EStateM ε τ (ρ o))

def outcome (r : Except ε α) (s : σ) : EStateM.Result ε σ α :=
  match r with
  | .ok a => .ok a s
  | .error e => .error e s

inductive Flawless : Prog ω ρ ε α → σ → Except ε α → σ → Prop
  | done (a : α) (s : σ) : Flawless (.done a) s (.ok a) s
  | fail (e : ε) (s : σ) : Flawless (.fail e) s (.error e) s
  | ok {o : ω} {k : Except ε (ρ o) → Prog ω ρ ε α} {s s' s'' : σ} {a : ρ o} {r : Except ε α} :
      h o s = .ok a s' → Flawless (k (.ok a)) s' r s'' → Flawless (.call o k) s r s''

def unfailing : Prog ω ρ ε α → σ → Option (Except ε α × σ)
  | done a, s => some (.ok a, s)
  | fail e, s => some (.error e, s)
  | call o k, s =>
    match h o s with
    | .ok a s' => unfailing (k (.ok a)) s'
    | .error _ _ => none

inductive Pauses : Nat → Prog ω ρ ε α → σ → ω → σ → Prop
  | here (o : ω) (k : Except ε (ρ o) → Prog ω ρ ε α) (s : σ) : Pauses 0 (.call o k) s o s
  | ok {n : Nat} {o o' : ω} {k : Except ε (ρ o) → Prog ω ρ ε α} {s s' s'' : σ} {a : ρ o} :
      h o s = .ok a s' → Pauses n (k (.ok a)) s' o' s'' → Pauses (n + 1) (.call o k) s o' s''

/-- Every operation the program asks for is one the state it is asked in allows. -/
def Allowed (P : τ → ω → Prop) : Prog ω ρ ε α → τ → Prop
  | done _, _ => True
  | fail _, _ => True
  | call o k, t => P t o ∧ Basis.wp (g o) (fun a t' => Allowed P (k (.ok a)) t') (fun e t' =>
      Allowed P (k (.error e)) t') t

def allowed (P : τ → ω → Prop) [∀ t o, Decidable (P t o)] : Prog ω ρ ε α → τ → Bool
  | done _, _ => true
  | fail _, _ => true
  | call o k, t =>
    P t o && match g o t with
      | .ok a t' => allowed P (k (.ok a)) t'
      | .error e t' => allowed P (k (.error e)) t'

structure Mimics (P : τ → ω → Prop) (R : σ → τ → Prop) : Prop where
  ok : ∀ {o : ω} {s s' : σ} {t : τ} {a : ρ o}, R s t → P t o → h o s = .ok a s' →
    ∃ t', g o t = .ok a t' ∧ R s' t'

section
variable {h g} {P : τ → ω → Prop} {R : σ → τ → Prop} {p : Prog ω ρ ε α} {s s' : σ} {t : τ}

theorem Allowed.next {o : ω} {k : Except ε (ρ o) → Prog ω ρ ε α} {t' : τ} {a : ρ o}
    (hp : Allowed g P (.call o k) t)
    (ho : g o t = .ok a t') : Allowed g P (k (.ok a)) t' := by
  have := hp.2
  rw [Basis.wp, ho] at this
  exact this

theorem Allowed.of_allowed [∀ t o, Decidable (P t o)] (hp : allowed g P p t = true) :
    Allowed g P p t := by
  induction p generalizing t with
  | done a => trivial
  | fail e => trivial
  | call o k ih =>
    rw [allowed, Bool.and_eq_true, decide_eq_true_iff] at hp
    refine ⟨hp.1, ?_⟩
    have hp := hp.2
    unfold Basis.wp
    cases ho : g o t with
    | ok a t' =>
      simp only [ho] at hp
      exact ih _ hp
    | error e t' =>
      simp only [ho] at hp
      exact ih _ hp

theorem interp_ok {o : ω} {k : Except ε (ρ o) → Prog ω ρ ε α} {t' : τ} {a : ρ o}
    (ho : g o t = .ok a t') :
    interp g (.call o k) t = interp g (k (.ok a)) t' := by
  rw [interp]
  simp only [ho]

theorem flawless_of_unfailing {r : Except ε α} (hr : unfailing h p s = some (r, s')) :
    Flawless h p s r s' := by
  induction p generalizing s with
  | done a =>
    cases hr
    exact .done a _
  | fail e =>
    cases hr
    exact .fail e _
  | call o k ih =>
    rw [unfailing] at hr
    cases ho : h o s with
    | ok a s₁ =>
      simp only [ho] at hr
      exact .ok ho (ih _ hr)
    | error e s₁ =>
      simp only [ho] at hr
      cases hr

/-- A program that is stopped leaves what it would if all else failed. -/
theorem runs_after (e : ε) (n : Nat) (p : Prog ω ρ ε α) (s : σ) :
    ∃ r, Runs True h p s r (after h n p s) := by
  have failing : ∀ (p : Prog ω ρ ε α) (s : σ), ∃ r, Runs True h p s r s := by
    intro p
    induction p with
    | done a => exact fun s => ⟨_, .done a s⟩
    | fail e => exact fun s => ⟨_, .fail e s⟩
    | call o k ih =>
      intro s
      obtain ⟨r, hr⟩ := ih (.error e) s
      exact ⟨r, .fault e trivial hr⟩
  induction p generalizing n s with
  | done a =>
    have hs : after h n (done a : Prog ω ρ ε α) s = s := by cases n <;> rfl
    rw [hs]
    exact ⟨_, .done a s⟩
  | fail e =>
    have hs : after h n (fail e : Prog ω ρ ε α) s = s := by cases n <;> rfl
    rw [hs]
    exact ⟨_, .fail e s⟩
  | call o k ih =>
    cases n with
    | zero => exact failing _ s
    | succ n =>
      cases ho : h o s with
      | ok a s' =>
        rw [after_ok h ho]
        obtain ⟨r, hr⟩ := ih (.ok a) n s'
        exact ⟨r, .ok ho hr⟩
      | error e' s' =>
        rw [after_error h ho]
        obtain ⟨r, hr⟩ := ih (.error e') n s'
        exact ⟨r, .error ho hr⟩

/-- What a program keeps however its operations fail, it keeps where it is stopped. -/
theorem wp.stopped {I : σ → Prop} (e : ε) (hp : Prog.wp True h p (fun _ => I) (fun _ => I) s)
    (n : Nat) : I (after h n p s) := by
  obtain ⟨r, hr⟩ := runs_after (h := h) e n p s
  have hend := hp.runs hr
  cases r <;> exact hend

theorem wp.outcome {Q : α → σ → Prop} {E : ε → σ → Prop} {r : Except ε α}
    (hp : Prog.wp False h p Q E s)
    (hi : interp h p s = Prog.outcome r s') : ends Q E r s' := by
  have hq := wp_interp.mp hp
  rw [Basis.wp, hi] at hq
  cases r <;> exact hq

theorem Mimics.flawless (hm : Mimics h g P R) {r : Except ε α} (hr : Flawless h p s r s')
    (hst : R s t) (hp : Allowed g P p t) :
    ∃ t', interp g p t = outcome r t' ∧ R s' t' := by
  induction hr generalizing t with
  | done a s => exact ⟨t, rfl, hst⟩
  | fail e s => exact ⟨t, rfl, hst⟩
  | ok ho _ ih =>
    obtain ⟨t₁, ho', hst₁⟩ := hm.ok hst hp.1 ho
    obtain ⟨t', hi, hst'⟩ := ih hst₁ (hp.next ho')
    exact ⟨t', (interp_ok ho').trans hi, hst'⟩

theorem Mimics.pauses (hm : Mimics h g P R) {n : Nat} {o : ω} (hr : Pauses h n p s o s')
    (hst : R s t) (hp : Allowed g P p t) :
    R s' (after g n p t) ∧ P (after g n p t) o ∧ ∀ a t', g o (after g n p t) = .ok a t' →
    after g (n + 1) p t = t' := by
  induction hr generalizing t with
  | here o k s =>
    refine ⟨hst, hp.1, fun a t' ho => ?_⟩
    have ho : g o t = .ok a t' := ho
    rw [after_ok g ho, after]
  | ok ho _ ih =>
    obtain ⟨t₁, ho', hst₁⟩ := hm.ok hst hp.1 ho
    obtain ⟨hst', hp', hnext⟩ := ih hst₁ (hp.next ho')
    rw [after_ok g ho', after_ok g ho']
    exact ⟨hst', hp', hnext⟩

end

/-! ## A program over more operations -/

section
variable {ω' : Type} {ρ' : ω' → Type} {h' : (o : ω') → EStateM ε τ (ρ' o)} {f : ω → ω'}
  {back : ∀ o, ρ' (f o) → ρ o}

def embed (f : ω → ω') (back : ∀ o, ρ' (f o) → ρ o) : Prog ω ρ ε α → Prog ω' ρ' ε α
  | done a => .done a
  | fail e => .fail e
  | call o k => .call (f o) fun r => embed f back (k (r.map (back o)))

/-- What is seen of the upper state changes as the lower handler says. -/
def Views (h : (o : ω) → EStateM ε σ (ρ o)) (h' : (o : ω') → EStateM ε τ (ρ' o)) (f : ω → ω')
    (back : ∀ o, ρ' (f o) → ρ o) (view : τ → σ) : Prop :=
  ∀ o t, Basis.wp (h' (f o)) (fun a t' => h o (view t) = .ok (back o a) (view t'))
    (fun e t' => h o (view t) = .error e (view t')) t

variable {h} {view : τ → σ} {faults : Prop} {I : σ → Prop} {Q : α → σ → Prop} {E : ε → σ → Prop}

theorem during_embed (hv : Views h h' f back view) {p : Prog ω ρ ε α} {t : τ}
    (hp : during faults h I p Q E (view t)) :
    during faults h' (fun t' => I (view t')) (embed f back p) (fun a t' => Q a (view t'))
    (fun e t' => E e (view t')) t := by
  induction p generalizing t with
  | done a => exact hp
  | fail e => exact hp
  | call o k ih =>
    refine ⟨hp.1, ?_, fun hf e => ih (.error e) (hp.2.2 hf e)⟩
    refine (hv o t).mono (fun a t' ha => ?_) fun e t' he => ?_
    · have hk := hp.2.1
      rw [Basis.wp, ha] at hk
      exact ih (.ok (back o a)) hk
    · have hk := hp.2.1
      rw [Basis.wp, he] at hk
      exact ih (.error e) hk

theorem Footprint.embed (hv : Views h h' f back view) {P : ω → Prop} {P' : ω' → Prop}
    (hP : ∀ o, P o → P' (f o)) {p : Prog ω ρ ε α}
    (hp : Footprint h P p) : Footprint h' P' (embed f back p) := by
  induction p with
  | done a => trivial
  | fail e => trivial
  | call o k ih => exact ⟨hP o hp.1, fun t a t' ho => ih _ (hp.2.1 _ _ _ ((hv o t).ok ho)),
      fun e => ih _ (hp.2.2 e)⟩

end

end Basis.Prog

/-! ## Courses of a system -/

namespace Basis

universe u
variable {σ τ : Type} {Λ : Type u} {step : σ → Λ → σ → Prop} {step' : τ → Λ → τ → Prop}

inductive Course (step : σ → Λ → σ → Prop) : σ → List Λ → σ → Prop
  | nil (s : σ) : Course step s [] s
  | cons {s s' s'' : σ} {l : Λ} {ls : List Λ} : step s l s' → Course step s' ls s'' →
      Course step s (l :: ls) s''

/-- However the system goes through the events, each comes in a state that admits it. -/
def Admits (step : τ → Λ → τ → Prop) (ok : τ → Λ → Prop) : τ → List Λ → Prop
  | _, [] => True
  | t, l :: ls => ok t l ∧ ∀ t', step t l t' → Admits step ok t' ls

theorem Course.simulated {R : σ → τ → Prop} {ok : τ → Λ → Prop}
    (hsim : ∀ s t l s', R s t → ok t l → step s l s' → ∃ t', step' t l t' ∧ R s' t') {s s' : σ}
    {t : τ} {ls : List Λ}
    (hc : Course step s ls s') (hst : R s t) (hok : Admits step' ok t ls) :
    ∃ t', Course step' t ls t' ∧ R s' t' := by
  induction hc generalizing t with
  | nil s => exact ⟨t, .nil t, hst⟩
  | cons hs _ ih =>
    obtain ⟨t₁, ht, hst₁⟩ := hsim _ _ _ _ hst hok.1 hs
    obtain ⟨t', ht', hst'⟩ := ih hst₁ (hok.2 t₁ ht)
    exact ⟨t', .cons ht ht', hst'⟩

end Basis

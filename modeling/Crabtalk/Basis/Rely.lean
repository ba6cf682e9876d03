import Crabtalk.Basis.Effect
import Mathlib.Order.RelClasses

/-!
# Programs beside others

Between two operations of a program others may take the state anywhere the
relation `R` allows. `A` is what the program may take for granted when it asks
for an operation, and `G` what each of its operations grants the others. Where
the operations of a program are known beforehand, `Asks` says so, for states
that meet an invariant everybody keeps. Where faults may strike some operations
and not others, the state tells which is next to fail (`relyOn`).
-/

namespace Basis.Prog

variable {ω : Type} {ρ : ω → Type} {ε σ α β : Type}

section
variable (F : Prop) (h : (o : ω) → EStateM ε σ (ρ o)) (R G : σ → σ → Prop) (A : ω → σ → Prop)

def rely : Prog ω ρ ε α → (α → σ → Prop) → (ε → σ → Prop) → σ → Prop
  | done a, Q, _, s => ∀ s', R s s' → Q a s'
  | fail e, _, E, s => ∀ s', R s s' → E e s'
  | call o k, Q, E, s => ∀ s', R s s' →
    (A o s' → Basis.wp (h o) (fun a s'' => G s' s'' ∧ rely (k (.ok a)) Q E s'')
      (fun e s'' => G s' s'' ∧ rely (k (.error e)) Q E s'') s') ∧
      (F → ∀ e, rely (k (.error e)) Q E s')

/-- Given answers from states in `I`, `p` asks for operations in `P` only, and fails only if
operations may. -/
def Asks (I : σ → Prop) (P : ω → Prop) : Prog ω ρ ε α → Prop
  | done _ => True
  | fail _ => F
  | call o k =>
    P o ∧ (∀ s, I s → Basis.wp (h o) (fun a _ => Asks I P (k (.ok a)))
      (fun e _ => Asks I P (k (.error e))) s) ∧
    (F → ∀ e, Asks I P (k (.error e)))

end

section
variable {F : Prop} {h : (o : ω) → EStateM ε σ (ρ o)} {R G : σ → σ → Prop} {A : ω → σ → Prop}
  {Q : α → σ → Prop} {E : ε → σ → Prop}
  {p : Prog ω ρ ε α} {s s' : σ}

theorem rely.mono {Q' : α → σ → Prop} {E' : ε → σ → Prop} (hp : rely F h R G A p Q' E' s)
    (hQ : ∀ a s, Q' a s → Q a s)
    (hE : ∀ e s, E' e s → E e s) : rely F h R G A p Q E s := by
  induction p generalizing s with
  | done a => exact fun s' hs => hQ a s' (hp s' hs)
  | fail e => exact fun s' hs => hE e s' (hp s' hs)
  | call o k ih =>
    intro s' hs
    obtain ⟨ho, hf⟩ := hp s' hs
    refine ⟨fun ha => (ho ha).mono ?_ ?_, fun hF e => ih _ (hf hF e)⟩
    · exact fun a s'' h₁ => ⟨h₁.1, ih _ h₁.2⟩
    · exact fun e s'' h₁ => ⟨h₁.1, ih _ h₁.2⟩

/-- What neither the others nor the program itself undo. -/
theorem rely.frame {J : σ → Prop} (hp : rely F h R G A p Q E s) (hR : ∀ s s', R s s' → J s → J s')
    (hG : ∀ s s', G s s' → J s → J s')
    (hJ : J s) : rely F h R G A p (fun a s => Q a s ∧ J s) (fun e s => E e s ∧ J s) s := by
  induction p generalizing s with
  | done a => exact fun s' hs => ⟨hp s' hs, hR s s' hs hJ⟩
  | fail e => exact fun s' hs => ⟨hp s' hs, hR s s' hs hJ⟩
  | call o k ih =>
    intro s' hs
    obtain ⟨ho, hf⟩ := hp s' hs
    have hJ' := hR s s' hs hJ
    refine ⟨fun ha => (ho ha).mono ?_ ?_, fun hF e => ih _ (hf hF e) hJ'⟩
    · exact fun a s'' h₁ => ⟨h₁.1, ih _ h₁.2 (hG s' s'' h₁.1 hJ')⟩
    · exact fun e s'' h₁ => ⟨h₁.1, ih _ h₁.2 (hG s' s'' h₁.1 hJ')⟩

variable [IsPreorder σ R]

theorem rely.stable (hp : rely F h R G A p Q E s) (hs : R s s') : rely F h R G A p Q E s' := by
  cases p with
  | done a => exact fun s'' hs' => hp s'' (trans_of R hs hs')
  | fail e => exact fun s'' hs' => hp s'' (trans_of R hs hs')
  | call o k => exact fun s'' hs' => hp s'' (trans_of R hs hs')

theorem rely.performed {o : ω} {k : Except ε (ρ o) → Prog ω ρ ε α} {a : ρ o}
    (hp : rely F h R G A (.call o k) Q E s) (ha : A o s)
    (ho : h o s = .ok a s') : G s s' ∧ rely F h R G A (k (.ok a)) Q E s' := by
  have := (hp s (refl_of R s)).1 ha
  unfold Basis.wp at this
  rw [ho] at this
  exact this

theorem rely.failed {o : ω} {k : Except ε (ρ o) → Prog ω ρ ε α}
    (hp : rely F h R G A (.call o k) Q E s) (hF : F) (e : ε) :
    rely F h R G A (k (.error e)) Q E s := (hp s (refl_of R s)).2 hF e

theorem rely.answered {a : α} (hp : rely F h R G A (.done a) Q E s) : Q a s := hp s (refl_of R s)

theorem rely_bind {f : α → Prog ω ρ ε β} {Q : β → σ → Prop}
    (hp : rely F h R G A p (fun a => rely F h R G A (f a) Q E) E s) :
    rely F h R G A (p >>= f) Q E s := by
  induction p generalizing s with
  | done a => exact hp s (refl_of R s)
  | fail e => exact hp
  | call o k ih =>
    intro s' hs
    obtain ⟨ho, hf⟩ := hp s' hs
    refine ⟨fun ha => (ho ha).mono ?_ ?_, fun hF e => ih _ (hf hF e)⟩
    · exact fun a s'' h₁ => ⟨h₁.1, ih _ h₁.2⟩
    · exact fun e s'' h₁ => ⟨h₁.1, ih _ h₁.2⟩

omit [IsPreorder σ R] in
theorem rely_attempt {Q : Except ε α → σ → Prop}
    (hp : rely F h R G A p (fun a => Q (.ok a)) (fun e => Q (.error e)) s) :
    rely F h R G A p.attempt Q E s := by
  induction p generalizing s with
  | done a => exact hp
  | fail e => exact hp
  | call o k ih =>
    intro s' hs
    obtain ⟨ho, hf⟩ := hp s' hs
    refine ⟨fun ha => (ho ha).mono ?_ ?_, fun hF e => ih _ (hf hF e)⟩
    · exact fun a s'' h₁ => ⟨h₁.1, ih _ h₁.2⟩
    · exact fun e s'' h₁ => ⟨h₁.1, ih _ h₁.2⟩

/-- One operation. What it establishes has to last. -/
theorem rely_perform {o : ω} {Q : ρ o → σ → Prop} (hp : ∀ s', R s s' → A o s' →
      Basis.wp (h o) (fun a s'' => G s' s'' ∧ ∀ t, R s'' t → Q a t) (fun e s'' => G s' s'' ∧
        ∀ t, R s'' t → E e t) s')
    (hf : F → ∀ e t, R s t → E e t) : rely F h R G A (perform o) Q E s := by
  intro s' hs
  refine ⟨fun ha => (hp s' hs ha).mono ?_ ?_, fun hF e t ht => hf hF e t (trans_of R hs ht)⟩
  · exact fun a s'' h₁ => h₁
  · exact fun e s'' h₁ => h₁

end

/-! ## Known operations -/

section
variable {F : Prop} {h : (o : ω) → EStateM ε σ (ρ o)} {I : σ → Prop} {P : ω → Prop}
  {p : Prog ω ρ ε α} {f : α → Prog ω ρ ε β} {s s' : σ}

theorem Asks.mono {I' : σ → Prop} {P' : ω → Prop} (hp : Asks F h I P p) (hI : ∀ s, I' s → I s)
    (hP : ∀ o, P o → P' o) :
    Asks F h I' P' p := by
  induction p with
  | done a => trivial
  | fail e => exact hp
  | call o k ih =>
    refine ⟨hP o hp.1, fun s hs => (hp.2.1 s (hI s hs)).mono ?_ ?_, fun hF e => ih _ (hp.2.2 hF e)⟩
    · exact fun a _ => ih _
    · exact fun e _ => ih _

theorem Asks.bind (hp : Asks F h I P p) (hf : ∀ a, Asks F h I P (f a)) :
    Asks F h I P (p >>= f) := by
  induction p with
  | done a => exact hf a
  | fail e => exact hp
  | call o k ih =>
    refine ⟨hp.1, fun s hs => (hp.2.1 s hs).mono ?_ ?_, fun hF e => ih _ (hp.2.2 hF e)⟩
    · exact fun a _ => ih _
    · exact fun e _ => ih _

theorem Asks.attempt (hp : Asks F h I P p) : Asks F h I P p.attempt := by
  induction p with
  | done a => trivial
  | fail e => trivial
  | call o k ih =>
    refine ⟨hp.1, fun s hs => (hp.2.1 s hs).mono ?_ ?_, fun hF e => ih _ (hp.2.2 hF e)⟩
    · exact fun a _ => ih _
    · exact fun e _ => ih _

/-- One operation, and what its answer says about the rest. -/
theorem Asks.perform {o : ω} {f : ρ o → Prog ω ρ ε β} (ho : P o)
    (hf : ∀ s, I s → Basis.wp (h o) (fun a _ => Asks F h I P (f a)) (fun _ _ => F) s) :
    Asks F h I P (perform o >>= f) :=
  ⟨ho, fun s hs => (hf s hs).mono (fun _ _ h₁ => h₁) fun _ _ hF => hF, fun hF _ => hF⟩

theorem Asks.forM {f : α → Prog ω ρ ε PUnit} {l : List α} (hf : ∀ a ∈ l, Asks F h I P (f a)) :
    Asks F h I P (forM l f) := by
  induction l with
  | nil => trivial
  | cons a l ih =>
    rw [List.forM_cons]
    refine (hf a List.mem_cons_self).bind fun _ => ih ?_
    intro b hb
    exact hf b (List.mem_cons_of_mem _ hb)

theorem Asks.performed {o : ω} {k : Except ε (ρ o) → Prog ω ρ ε α} {a : ρ o}
    (hp : Asks F h I P (.call o k)) (hs : I s)
    (ho : h o s = .ok a s') : Asks F h I P (k (.ok a)) := by
  have := hp.2.1 s hs
  unfold Basis.wp at this
  rw [ho] at this
  exact this

theorem Asks.anything : Asks True h I (fun _ => True) p := by
  induction p with
  | done a => trivial
  | fail e => trivial
  | call o k ih =>
    refine ⟨trivial, fun s _ => ?_, fun _ e => ih _⟩
    exact .always (fun a _ => ih _) fun e _ => ih _

theorem Asks.rely {R G : σ → σ → Prop} {A : ω → σ → Prop} (hp : Asks F h I P p)
    (hP : ∀ o, P o → ∀ s, I s → A o s →
      Basis.wp (h o) (fun _ s' => I s' ∧ G s s') (fun _ s' => I s' ∧ G s s') s)
    (hR : ∀ s s', R s s' → I s → I s') (hs : I s) : Prog.rely F h R G A p (fun _ => I)
    (fun _ s => F ∧ I s) s := by
  induction p generalizing s with
  | done a => exact fun s' h₁ => hR s s' h₁ hs
  | fail e => exact fun s' h₁ => ⟨hp, hR s s' h₁ hs⟩
  | call o k ih =>
    intro s' h₁
    have hs' := hR s s' h₁ hs
    refine ⟨fun ha => ?_, fun hF e => ih _ (hp.2.2 hF e) hs'⟩
    have h₂ := hp.2.1 s' hs'
    have h₃ := hP o hp.1 s' hs' ha
    unfold Basis.wp at h₂ h₃ ⊢
    cases ho : h o s' with
    | ok a s'' =>
      rw [ho] at h₂ h₃
      exact ⟨h₃.2, ih _ h₂ h₃.1⟩
    | error e s'' =>
      rw [ho] at h₂ h₃
      exact ⟨h₃.2, ih _ h₂ h₃.1⟩

end

/-! ## One operation at a time -/

def advance (h : (o : ω) → EStateM ε σ (ρ o)) (fault : Option ε) : Prog ω ρ ε α → σ →
    Option (Prog ω ρ ε α × σ)
  | call o k, s =>
    match fault with
    | some e => some (k (.error e), s)
    | none =>
      match h o s with
      | .ok a s' => some (k (.ok a), s')
      | .error e s' => some (k (.error e), s')
  | _, _ => none

def faulty (h : (o : ω) → EStateM ε σ (ρ o)) (o : ω) : EStateM ε (σ × Option ε) (ρ o) := fun s =>
  match s.2 with
  | some e => .error e s
  | none =>
    match h o s.1 with
    | .ok a s' => .ok a (s', none)
    | .error e s' => .error e (s', none)

section
variable {F : Prop} {h : (o : ω) → EStateM ε σ (ρ o)} {R G : σ → σ → Prop} {A : ω → σ → Prop}
  {B : ω → Prop} {Q : α → σ → Prop}
  {E : ε → σ → Prop} {p p' : Prog ω ρ ε α} {s s' : σ} {fault : Option ε}

variable [IsPreorder σ R]

theorem rely.advance (hp : rely F h R G A p Q E s) (hA : ∀ o k, p = .call o k → A o s)
    (hF : fault.isSome → F) (hG : G s s)
    (hs : p.advance h fault s = some (p', s')) : G s s' ∧ rely F h R G A p' Q E s' := by
  unfold Prog.advance at hs
  split at hs
  · rename_i o k
    split at hs
    · cases hs
      exact ⟨hG, hp.failed (hF rfl) _⟩
    · have hwp := (hp s (refl_of R s)).1 (hA o k rfl)
      unfold Basis.wp at hwp
      split at hs
      · rename_i ho
        rw [ho] at hwp
        cases hs
        exact hwp
      · rename_i ho
        rw [ho] at hwp
        cases hs
        exact hwp
  · cases hs

/-- As `rely`, with faults that strike only operations in `B`. -/
def relyOn (B : ω → Prop) (h : (o : ω) → EStateM ε σ (ρ o)) (R G : σ → σ → Prop) (p : Prog ω ρ ε α)
    (Q : α → σ → Prop) (E : ε → σ → Prop)
    (s : σ) : Prop :=
  rely False (faulty h) (Order.Preimage Prod.fst R) (Order.Preimage Prod.fst G)
    (fun o s => s.2.isSome → B o) p (fun a s => Q a s.1)
    (fun e s => E e s.1) (s, none)

omit [IsPreorder σ R] in
theorem relyOn.mono {Q' : α → σ → Prop} {E' : ε → σ → Prop} (hp : relyOn B h R G p Q' E' s)
    (hQ : ∀ a s, Q' a s → Q a s)
    (hE : ∀ e s, E' e s → E e s) : relyOn B h R G p Q E s :=
  rely.mono hp (fun a s => hQ a s.1) fun e s => hE e s.1

theorem relyOn.stable (hp : relyOn B h R G p Q E s) (hs : R s s') : relyOn B h R G p Q E s' := by
  have hs' : Order.Preimage Prod.fst R (s, (none : Option ε)) (s', none) := hs
  exact rely.stable hp hs'

theorem relyOn.answered {a : α} (hp : relyOn B h R G (.done a) Q E s) : Q a s :=
  rely.answered (R := Order.Preimage Prod.fst R) hp

theorem relyOn_bind {f : α → Prog ω ρ ε β} {Q : β → σ → Prop}
    (hp : relyOn B h R G p (fun a => relyOn B h R G (f a) Q E) E s) :
    relyOn B h R G (p >>= f) Q E s := by
  apply rely_bind
  refine rely.mono hp (fun a t ht => ?_) fun _ _ he => he
  exact rely.stable (R := Order.Preimage Prod.fst R) ht (refl_of R t.1)

omit [IsPreorder σ R] in
theorem relyOn_attempt {Q : Except ε α → σ → Prop}
    (hp : relyOn B h R G p (fun a => Q (.ok a)) (fun e => Q (.error e)) s) :
    relyOn B h R G p.attempt Q E s := rely_attempt hp

theorem relyOn_perform {o : ω} {Q : ρ o → σ → Prop} (hG : ∀ s, G s s) (hp : ∀ s', R s s' →
      Basis.wp (h o) (fun a s'' => G s' s'' ∧ ∀ t, R s'' t → Q a t) (fun e s'' => G s' s'' ∧
        ∀ t, R s'' t → E e t) s')
    (hB : B o → ∀ e t, R s t → E e t) : relyOn B h R G (perform o) Q E s := by
  refine rely_perform (fun s' hs ha => ?_) fun hF => hF.elim
  obtain ⟨s', fault⟩ := s'
  unfold Basis.wp faulty
  cases fault with
  | some e => exact ⟨hG s', fun t ht => hB (ha rfl) e t.1 (trans_of R hs ht)⟩
  | none =>
    have hwp := hp s' hs
    unfold Basis.wp at hwp
    dsimp only
    cases ho : h o s' with
    | ok a s'' =>
      rw [ho] at hwp
      exact ⟨hwp.1, fun t ht => hwp.2 t.1 ht⟩
    | error e s'' =>
      rw [ho] at hwp
      exact ⟨hwp.1, fun t ht => hwp.2 t.1 ht⟩

theorem relyOn.advance (hp : relyOn B h R G p Q E s)
    (hB : fault.isSome → ∀ o k, p = .call o k → B o) (hG : G s s)
    (hs : p.advance h fault s = some (p', s')) : G s s' ∧ relyOn B h R G p' Q E s' := by
  cases p with
  | done a => cases hs
  | fail e => cases hs
  | call o k =>
    have hwp := (hp (s, fault) (refl_of R s)).1 fun hf => hB hf o k rfl
    unfold Basis.wp faulty at hwp
    unfold Prog.advance at hs
    cases fault with
    | some e =>
      cases hs
      exact ⟨hG, rely.stable (R := Order.Preimage Prod.fst R) hwp.2 (refl_of R s)⟩
    | none =>
      dsimp only at hwp hs
      cases ho : h o s with
      | ok a s'' =>
        rw [ho] at hwp hs
        cases hs
        exact hwp
      | error e s'' =>
        rw [ho] at hwp hs
        cases hs
        exact hwp

end

end Basis.Prog

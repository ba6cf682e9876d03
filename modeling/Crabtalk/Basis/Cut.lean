import Crabtalk.Basis.Effect

/-!
# Where a program is cut short

A program may be stopped before any of its operations, or one of them may
fail. If a failure is always passed on at once, both leave the state after
some number of its operations.
-/

namespace Basis.Prog

variable {ω : Type} {ρ : ω → Type} {ε σ α β : Type} (h : (o : ω) → EStateM ε σ (ρ o))

def ops : Prog ω ρ ε α → σ → Nat
  | done _, _ => 0
  | fail _, _ => 0
  | call o k, s =>
    match h o s with
    | .ok a s' => ops (k (.ok a)) s' + 1
    | .error e s' => ops (k (.error e)) s' + 1

def after : Nat → Prog ω ρ ε α → σ → σ
  | 0, _, s => s
  | _ + 1, done _, s => s
  | _ + 1, fail _, s => s
  | n + 1, call o k, s =>
    match h o s with
    | .ok a s' => after n (k (.ok a)) s'
    | .error e s' => after n (k (.error e)) s'

/-- The states a program leaves when it is stopped after `n` operations, or when the next one fails
and nothing else does. -/
inductive CutAt : Nat → Prog ω ρ ε α → σ → σ → Prop
  | stop (p : Prog ω ρ ε α) (s : σ) : CutAt 0 p s s
  | fault {o : ω} {k : Except ε (ρ o) → Prog ω ρ ε α} {s s' : σ} {r : Except ε α} (e : ε) :
      Runs False h (k (.error e)) s r s' → CutAt 0 (.call o k) s s'
  | ok {n : Nat} {o : ω} {k : Except ε (ρ o) → Prog ω ρ ε α} {s s' s'' : σ} {a : ρ o} :
      h o s = .ok a s' → CutAt n (k (.ok a)) s' s'' → CutAt (n + 1) (.call o k) s s''
  | error {n : Nat} {o : ω} {k : Except ε (ρ o) → Prog ω ρ ε α} {s s' s'' : σ} {e : ε} :
      h o s = .error e s' → CutAt n (k (.error e)) s' s'' → CutAt (n + 1) (.call o k) s s''

/-- Every failure of an operation is the failure of the program. -/
def Strict : Prog ω ρ ε α → Prop
  | done _ => True
  | fail _ => True
  | call _ k => (∀ e, ∃ e', k (.error e) = fail e') ∧ ∀ a, Strict (k (.ok a))

/-- Every operation the program may ask for is in `P`. -/
def Within (P : ω → Prop) : Prog ω ρ ε α → Prop
  | done _ => True
  | fail _ => True
  | call o k => P o ∧ ∀ r, Within P (k r)

section
variable {o : ω} {k : Except ε (ρ o) → Prog ω ρ ε α} {s s' : σ} {a : ρ o} {e : ε}

theorem ops_ok (ho : h o s = .ok a s') : ops h (call o k) s = ops h (k (.ok a)) s' + 1 := by
  rw [ops]
  simp only [ho]

theorem ops_error (ho : h o s = .error e s') : ops h (call o k) s = ops h (k (.error e)) s' + 1 := by
  rw [ops]
  simp only [ho]

theorem after_ok (ho : h o s = .ok a s') (n : Nat) :
    after h (n + 1) (call o k) s = after h n (k (.ok a)) s' := by
  rw [after]
  simp only [ho]

theorem after_error (ho : h o s = .error e s') (n : Nat) :
    after h (n + 1) (call o k) s = after h n (k (.error e)) s' := by
  rw [after]
  simp only [ho]

end

/-! ## Sequences -/

section
variable {f : α → Prog ω ρ ε β} {p : Prog ω ρ ε α} {s s' : σ} {a : α}

theorem Strict.perform (o : ω) : Strict (perform o : Prog ω ρ ε (ρ o)) :=
  ⟨fun e => ⟨e, rfl⟩, fun _ => trivial⟩

theorem Strict.bind (hp : Strict p) (hf : ∀ a, Strict (f a)) : Strict (p >>= f) := by
  induction p with
  | done a => exact hf a
  | fail e => exact hp
  | call o k ih =>
    constructor
    · intro e
      obtain ⟨e', he⟩ := hp.1 e
      refine ⟨e', ?_⟩
      show (k (.error e)).bind f = _
      rw [he]
      rfl
    · intro a
      exact ih (.ok a) (hp.2 a)

theorem Strict.forM {f : α → Prog ω ρ ε PUnit} (hf : ∀ a, Strict (f a)) (l : List α) :
    Strict (forM l f) := by
  induction l with
  | nil => exact trivial
  | cons a l ih =>
    rw [List.forM_cons]
    exact (hf a).bind fun _ => ih

theorem Within.perform {P : ω → Prop} {o : ω} (ho : P o) :
    Within P (perform o : Prog ω ρ ε (ρ o)) := by
  refine ⟨ho, fun r => ?_⟩
  cases r <;> exact trivial

theorem Within.mono {P R : ω → Prop} (hp : Within P p) (hR : ∀ o, P o → R o) : Within R p := by
  induction p with
  | done a => trivial
  | fail e => trivial
  | call o k ih => exact ⟨hR o hp.1, fun r => ih r (hp.2 r)⟩

theorem Within.bind {P : ω → Prop} (hp : Within P p) (hf : ∀ a, Within P (f a)) :
    Within P (p >>= f) := by
  induction p with
  | done a => exact hf a
  | fail e => exact hp
  | call o k ih => exact ⟨hp.1, fun r => ih r (hp.2 r)⟩

theorem Within.forM {P : ω → Prop} {f : α → Prog ω ρ ε PUnit} {l : List α}
    (hf : ∀ a ∈ l, Within P (f a)) : Within P (forM l f) := by
  induction l with
  | nil => exact trivial
  | cons a l ih =>
    rw [List.forM_cons]
    refine (hf a List.mem_cons_self).bind fun _ => ih ?_
    intro b hb
    exact hf b (List.mem_cons_of_mem _ hb)

theorem ops_bind (hi : interp h p s = .ok a s') : ops h (p >>= f) s = ops h p s + ops h (f a) s' := by
  induction p generalizing s with
  | done b =>
    cases hi
    exact (Nat.zero_add _).symm
  | fail e => cases hi
  | call o k ih =>
    show ops h (call o fun r => (k r).bind f) s = _
    unfold interp at hi
    cases ho : h o s with
    | ok b t =>
      simp only [ho] at hi
      rw [ops_ok h ho, ops_ok h ho, show (k (.ok b)).bind f = k (.ok b) >>= f from rfl, ih _ hi]
      omega
    | error e t =>
      simp only [ho] at hi
      rw [ops_error h ho, ops_error h ho, show (k (.error e)).bind f = k (.error e) >>= f
        from rfl, ih _ hi]
      omega

theorem after_zero (p : Prog ω ρ ε α) (s : σ) : after h 0 p s = s := by cases p <;> rfl

theorem after_of_ops_le {n : Nat} (hn : ops h p s ≤ n) : after h n p s = after h (ops h p s) p s := by
  induction p generalizing s n with
  | done a => cases n <;> rfl
  | fail e => cases n <;> rfl
  | call o k ih =>
    cases ho : h o s with
    | ok a s' =>
      rw [ops_ok h ho] at hn ⊢
      obtain ⟨n, rfl⟩ := Nat.exists_eq_add_of_le' (Nat.le_of_add_left_le hn)
      rw [after_ok h ho, after_ok h ho, ih _ (Nat.le_of_add_le_add_right hn)]
    | error e s' =>
      rw [ops_error h ho] at hn ⊢
      obtain ⟨n, rfl⟩ := Nat.exists_eq_add_of_le' (Nat.le_of_add_left_le hn)
      rw [after_error h ho, after_error h ho, ih _ (Nat.le_of_add_le_add_right hn)]

theorem after_bind_of_le {n : Nat} (hn : n ≤ ops h p s) : after h n (p >>= f) s = after h n p s := by
  induction p generalizing s n with
  | done b =>
    obtain rfl := Nat.le_zero.mp hn
    rw [after_zero, after_zero]
  | fail e => cases n <;> rfl
  | call o k ih =>
    show after h n (call o fun r => (k r).bind f) s = _
    cases n with
    | zero => rfl
    | succ n =>
      cases ho : h o s with
      | ok b t =>
        rw [ops_ok h ho] at hn
        rw [after_ok h ho, after_ok h ho]
        exact ih _ (Nat.le_of_succ_le_succ hn)
      | error e t =>
        rw [ops_error h ho] at hn
        rw [after_error h ho, after_error h ho]
        exact ih _ (Nat.le_of_succ_le_succ hn)

theorem after_bind_add (hi : interp h p s = .ok a s') (n : Nat) :
    after h (ops h p s + n) (p >>= f) s = after h n (f a) s' := by
  induction p generalizing s with
  | done b =>
    cases hi
    show after h (0 + n) (f _) s' = _
    rw [Nat.zero_add]
  | fail e => cases hi
  | call o k ih =>
    show after h _ (call o fun r => (k r).bind f) s = _
    unfold interp at hi
    cases ho : h o s with
    | ok b t =>
      simp only [ho] at hi
      rw [ops_ok h ho, show ops h (k (.ok b)) t + 1 + n = (ops h (k (.ok b)) t + n) + 1 by omega,
        after_ok h ho]
      exact ih _ hi
    | error e t =>
      simp only [ho] at hi
      rw [ops_error h ho, show ops h (k (.error e)) t + 1 + n = (ops h (k (.error e)) t + n) +
        1 by omega, after_error h ho]
      exact ih _ hi

theorem Within.after {P : ω → Prop} {R : σ → σ → Prop} (hp : Within P p) (hr : ∀ s, R s s)
    (ht : ∀ {s s' s''}, R s s' → R s' s'' → R s s'')
    (hP : ∀ o, P o → ∀ s, Basis.wp (h o) (fun _ s' => R s s') (fun _ s' => R s s') s) (n : Nat) :
    R s (after h n p s) := by
  induction p generalizing s n with
  | done b => cases n <;> exact hr s
  | fail e => cases n <;> exact hr s
  | call o k ih =>
    cases n with
    | zero => exact hr s
    | succ n =>
      have hs := hP o hp.1 s
      unfold Basis.wp at hs
      cases ho : h o s with
      | ok b t =>
        rw [ho] at hs
        rw [after_ok h ho]
        exact ht hs (ih _ (hp.2 _) n)
      | error e t =>
        rw [ho] at hs
        rw [after_error h ho]
        exact ht hs (ih _ (hp.2 _) n)

/-- Where failures are passed on, a cut leaves the state some operations left. -/
theorem Strict.cutAt (hp : Strict p) {n : Nat} (hc : CutAt h n p s s') : n ≤ ops h p s ∧
    s' = after h n p s := by
  induction hc with
  | stop p s => exact ⟨Nat.zero_le _, (after_zero h p s).symm⟩
  | @fault o k s s' r e hr =>
    obtain ⟨e', he⟩ := hp.1 e
    rw [he] at hr
    cases hr
    exact ⟨Nat.zero_le _, rfl⟩
  | @ok n o k s s' s'' a ho _ ih =>
    obtain ⟨hn, hs⟩ := ih (hp.2 a)
    rw [ops_ok h ho, after_ok h ho]
    exact ⟨Nat.succ_le_succ hn, hs⟩
  | @error n o k s s' s'' e ho hc ih =>
    obtain ⟨e', he⟩ := hp.1 e
    have hk : Strict (k (.error e)) := by
      rw [he]
      trivial
    obtain ⟨hn, hs⟩ := ih hk
    rw [ops_error h ho, after_error h ho]
    exact ⟨Nat.succ_le_succ hn, hs⟩

/-- Any number of its operations may be performed. -/
theorem cutAt_after (p : Prog ω ρ ε α) (s : σ) {n : Nat} (hn : n ≤ ops h p s) :
    CutAt h n p s (after h n p s) := by
  induction p generalizing s n with
  | done b =>
    obtain rfl := Nat.le_zero.mp hn
    exact .stop _ _
  | fail e =>
    obtain rfl := Nat.le_zero.mp hn
    exact .stop _ _
  | call o k ih =>
    cases n with
    | zero => exact .stop _ _
    | succ n =>
      cases ho : h o s with
      | ok b t =>
        rw [ops_ok h ho] at hn
        rw [after_ok h ho]
        exact .ok ho (ih _ _ (Nat.le_of_succ_le_succ hn))
      | error e t =>
        rw [ops_error h ho] at hn
        rw [after_error h ho]
        exact .error ho (ih _ _ (Nat.le_of_succ_le_succ hn))

end

end Basis.Prog

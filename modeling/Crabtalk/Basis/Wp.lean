import Mathlib.Tactic.Common

/-!
# Weakest preconditions with an error clause

`wp m Q E s`: run from `s`, the computation either returns a value and a state
in `Q`, or fails with an error and a state in `E`. The state survives a
failure, so `E` is where a specification says what a computation that stops
half way leaves behind.
-/

namespace Basis

section
variable {ε σ τ α β : Type}

def wp (m : EStateM ε σ α) (Q : α → σ → Prop) (E : ε → σ → Prop) (s : σ) : Prop :=
  match m s with
  | .ok a s' => Q a s'
  | .error e s' => E e s'

variable {m : EStateM ε σ α} {Q R : α → σ → Prop} {E F : ε → σ → Prop} {s : σ}

theorem wp.mono (h : wp m R F s) (hQ : ∀ a s', R a s' → Q a s') (hE : ∀ e s', F e s' → E e s') :
    wp m Q E s := by
  unfold wp at *
  split at h
  · exact hQ _ _ h
  · exact hE _ _ h

theorem wp.and (h₁ : wp m Q E s) (h₂ : wp m R F s) :
    wp m (fun a s' => Q a s' ∧ R a s') (fun e s' => E e s' ∧ F e s') s := by
  unfold wp at *
  split
  · rename_i hm
    rw [hm] at h₁ h₂
    exact ⟨h₁, h₂⟩
  · rename_i hm
    rw [hm] at h₁ h₂
    exact ⟨h₁, h₂⟩

theorem wp.always (hQ : ∀ a s', Q a s') (hE : ∀ e s', E e s') : wp m Q E s := by
  unfold wp
  split
  · exact hQ _ _
  · exact hE _ _

@[simp] theorem wp_bind {f : α → EStateM ε σ β} {Q : β → σ → Prop} :
    wp (m >>= f) Q E s ↔ wp m (fun a => wp (f a) Q E) E s := by
  unfold wp
  show (match EStateM.bind m f s with | .ok a s' => Q a s' | .error e s' => E e s') ↔ _
  unfold EStateM.bind
  split <;> rename_i h <;> split at h <;> simp_all

/-- What a computation establishes, together with the run that established it. -/
theorem wp.result (h : wp m Q E s) : wp m (fun a s' => m s = .ok a s' ∧ Q a s') E s := by
  unfold wp at *
  split at h
  · rename_i hm
    exact ⟨hm, h⟩
  · exact h

theorem wp.ok {s' : σ} {a : α} (h : wp m Q E s) (hr : m s = .ok a s') : Q a s' := by
  rw [wp, hr] at h
  exact h

theorem wp.error {s' : σ} {e : ε} (h : wp m Q E s) (hr : m s = .error e s') : E e s' := by
  rw [wp, hr] at h
  exact h

@[simp] theorem wp_pure {a : α} : wp (pure a) Q E s ↔ Q a s := Iff.rfl

@[simp] theorem wp_throw {e : ε} : wp (throw e) Q E s ↔ E e s := Iff.rfl

@[simp] theorem wp_get {Q : σ → σ → Prop} : wp (get : EStateM ε σ σ) Q E s ↔ Q s s := Iff.rfl

@[simp] theorem wp_set {s' : σ} {Q : PUnit → σ → Prop} : wp (set s' : EStateM ε σ PUnit) Q E s ↔
    Q ⟨⟩ s' := Iff.rfl

@[simp] theorem wp_modify {f : σ → σ} {Q : PUnit → σ → Prop} :
    wp (modify f : EStateM ε σ PUnit) Q E s ↔ Q ⟨⟩ (f s) := Iff.rfl

theorem wp_ite {c : Prop} [Decidable c] {m' : EStateM ε σ α} (ht : c → wp m Q E s)
    (hf : ¬ c → wp m' Q E s) :
    wp (if c then m else m') Q E s := by
  split
  · exact ht ‹_›
  · exact hf ‹_›

/-! ## A computation on a part of the state -/

def zoom (look : σ → τ) (put : τ → σ → σ) (m : EStateM ε τ α) : EStateM ε σ α := fun s =>
  match m (look s) with
  | .ok a t => .ok a (put t s)
  | .error e t => .error e (put t s)

theorem wp_zoom {look : σ → τ} {put : τ → σ → σ} {m : EStateM ε τ α} :
    wp (zoom look put m) Q E s ↔ wp m (fun a t => Q a (put t s)) (fun e t => E e (put t s)) (look s) := by
  unfold wp zoom
  cases m (look s) <;> rfl

end

end Basis

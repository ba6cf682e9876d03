import Mathlib.Data.Finset.Max
import Mathlib.Logic.Function.Basic
import Crabtalk.Basis.Reachable

/-!
# Threads that take locks

Threads of straight code take read-write locks and give them back. A reader
also waits behind a writer who has come. Threads that only wait for locks above
those they hold do not wait for one another for ever.
-/

namespace Basis

inductive Access
  | read
  | write
  deriving DecidableEq

def Access.Conflicts : Access → Access → Prop
  | .read, .read => False
  | _, _ => True

theorem Access.conflicts_write (m : Access) : m.Conflicts .write := by cases m <;> exact trivial

theorem Access.write_conflicts (m : Access) : Access.write.Conflicts m :=
  by cases m <;> exact trivial

inductive LockAct (ℓ : Type)
  | acquire (l : ℓ) (m : Access)
  | release (l : ℓ)

structure Thread (ℓ : Type) where
  held : List (ℓ × Access)
  rest : List (LockAct ℓ)

variable {ℓ ι : Type}

namespace Thread

def Wants (t : Thread ℓ) (l : ℓ) (m : Access) : Prop := ∃ rest, t.rest = .acquire l m :: rest

def Holds (t : Thread ℓ) (l : ℓ) (m : Access) : Prop := (l, m) ∈ t.held

theorem Wants.unique {t : Thread ℓ} {l l' : ℓ} {m m' : Access} (h : t.Wants l m)
    (h' : t.Wants l' m') : l = l' ∧ m = m' := by
  obtain ⟨rest, hrest⟩ := h
  obtain ⟨rest', hrest'⟩ := h'
  rw [hrest] at hrest'
  cases hrest'
  exact ⟨rfl, rfl⟩

/-- Along the code, `P` holds of what is held and of the lock that is wanted. -/
def Along [DecidableEq ℓ] (P : List (ℓ × Access) → ℓ → Access → Prop) : List (ℓ × Access) →
    List (LockAct ℓ) → Prop
  | _, [] => True
  | held, .acquire l m :: rest => P held l m ∧ Along P ((l, m) :: held) rest
  | held, .release l :: rest => Along P (held.filter fun e => e.1 ≠ l) rest

theorem Along.wants [DecidableEq ℓ] {P : List (ℓ × Access) → ℓ → Access → Prop} {t : Thread ℓ}
    (h : Along P t.held t.rest) {l : ℓ} {m : Access}
    (hw : t.Wants l m) : P t.held l m := by
  obtain ⟨rest, hrest⟩ := hw
  rw [hrest] at h
  exact h.1

end Thread

/-! ## Threads side by side -/

section
variable [DecidableEq ι] [DecidableEq ℓ]

/-- One step of the thread `i`. It gets a lock that no other thread holds in its way. -/
inductive LockStep (s : ι → Thread ℓ) (i : ι) : (ι → Thread ℓ) → Prop
  | acquire {held : List (ℓ × Access)} {l : ℓ} {m : Access} {rest : List (LockAct ℓ)} : s i =
  ⟨held, .acquire l m :: rest⟩ →
      (∀ j m', j ≠ i → (s j).Holds l m' → ¬ m.Conflicts m') →
      LockStep s i (Function.update s i ⟨(l, m) :: held, rest⟩)
  | release {held : List (ℓ × Access)} {l : ℓ} {rest : List (LockAct ℓ)} : s i =
      ⟨held, .release l :: rest⟩ →
      LockStep s i (Function.update s i ⟨held.filter fun e => e.1 ≠ l, rest⟩)

/-- Threads that start with their code and no lock. -/
def Running (code : ι → List (LockAct ℓ)) : (ι → Thread ℓ) → Prop :=
  Reachable (· = fun i => ⟨[], code i⟩) LockStep

/-- What holds along the code of each thread holds of each wait. -/
theorem Running.along {code : ι → List (LockAct ℓ)} {P : ι → List (ℓ × Access) → ℓ → Access → Prop}
    {s : ι → Thread ℓ} (h : Running code s)
    (hP : ∀ i, Thread.Along (P i) [] (code i)) (i : ι) : Thread.Along (P i) (s i).held (s i).rest := by
  refine h.invariant (I := fun s => ∀ i, Thread.Along (P i) (s i).held (s i).rest) (fun s hs => ?_)
    (fun s j t hi hs => ?_) i
  · rw [hs]
    exact hP
  · intro i
    cases hs with
    | acquire hj hfree =>
      by_cases hij : i = j
      · subst hij
        have := hi i
        rw [hj] at this
        rw [Function.update_self]
        exact this.2
      · rw [Function.update_of_ne hij]
        exact hi i
    | release hj =>
      by_cases hij : i = j
      · subst hij
        have := hi i
        rw [hj] at this
        rw [Function.update_self]
        exact this
      · rw [Function.update_of_ne hij]
        exact hi i

end

/-! ## Waiting for one another -/

/-- `i` wants a lock that `j` holds in its way, or that `j` wants to write. -/
def Waits (s : ι → Thread ℓ) (i j : ι) : Prop :=
  ∃ l m, (s i).Wants l m ∧ ((∃ m', (s j).Holds l m' ∧ m.Conflicts m') ∨
    (m = .read ∧ (s j).Wants l .write))

def Deadlocked (s : ι → Thread ℓ) : Prop := ∃ S : Finset ι, S.Nonempty ∧
    ∀ i ∈ S, ∃ j ∈ S, Waits s i j

/-- Where every wait is for a lock above those that are held, the thread that waits highest gets its lock. -/
theorem not_deadlocked (rank : ℓ → Nat) {s : ι → Thread ℓ}
    (h : ∀ i l m, (s i).Wants l m → ∀ e ∈ (s i).held, rank e.1 < rank l) :
    ¬ Deadlocked s := by
  intro ⟨S, hS, hwaits⟩
  have hwants : ∀ i ∈ S, ∃ e : ℓ × Access, (s i).Wants e.1 e.2 := by
    intro i hi
    obtain ⟨j, -, l, m, hw, -⟩ := hwaits i hi
    exact ⟨(l, m), hw⟩
  classical
  let height (i : ι) : Nat := if hi : ∃ e : ℓ × Access, (s i).Wants e.1 e.2
      then rank hi.choose.1 else 0
  have hheight : ∀ {i l m}, (s i).Wants l m → height i = rank l := by
    intro i l m hw
    have hi : ∃ e : ℓ × Access, (s i).Wants e.1 e.2 := ⟨(l, m), hw⟩
    show dite _ _ _ = _
    rw [dif_pos hi, (hi.choose_spec.unique hw).1]
  obtain ⟨i, hi, hmax⟩ := S.exists_max_image height hS
  -- nobody in `S` holds a lock as high as the one the highest wants
  have hfree : ∀ {l m}, (s i).Wants l m → ∀ j ∈ S, ∀ m', ¬ (s j).Holds l m' := by
    intro l m hw j hj m' hheld
    obtain ⟨e, he⟩ := hwants j hj
    have hlt := h j e.1 e.2 he _ hheld
    have hle := hmax j hj
    rw [hheight hw, hheight he] at hle
    exact absurd hlt (Nat.not_lt.mpr hle)
  obtain ⟨j, hj, l, m, hw, hblocks⟩ := hwaits i hi
  rcases hblocks with ⟨m', hheld, -⟩ | ⟨rfl, hwj⟩
  · exact hfree hw j hj m' hheld
  · obtain ⟨k, hk, l', m', hw', hblocks⟩ := hwaits j hj
    obtain ⟨rfl, rfl⟩ := hwj.unique hw'
    rcases hblocks with ⟨m'', hheld, -⟩ | ⟨hread, -⟩
    · exact hfree hw k hk m'' hheld
    · cases hread

end Basis

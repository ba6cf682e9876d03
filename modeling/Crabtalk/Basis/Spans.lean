import Mathlib.Algebra.Group.Int.Defs
import Mathlib.Algebra.GroupWithZero.Nat
import Mathlib.Data.List.Pairwise
import Mathlib.Order.Interval.Finset.Nat

/-!
# What a set of spans leaves uncovered

A span is a start and a length. Spans that do not overlap, inside an interval,
leave as many positions uncovered as the interval has more than their lengths
add up to.
-/

namespace Basis

def Spans (s : Nat × Nat) (p : Nat) : Prop := s.1 ≤ p ∧ p < s.1 + s.2

instance (s : Nat × Nat) (p : Nat) : Decidable (Spans s p) := inferInstanceAs (Decidable (_ ∧ _))

def Apart (s t : Nat × Nat) : Prop := ∀ p, Spans s p → ¬ Spans t p

theorem apart_of_le {s t : Nat × Nat} (h : s.1 + s.2 ≤ t.1 ∨ t.1 + t.2 ≤ s.1) : Apart s t := by
  intro p hs ht
  simp only [Spans] at hs ht
  omega

theorem apart_empty (a : Nat) (t : Nat × Nat) : Apart (a, 0) t := by
  intro p hs
  simp only [Spans] at hs
  omega

def uncovered (a b : Nat) (spans : List (Nat × Nat)) : Finset Nat :=
  (Finset.Ico a b).filter fun p => ∀ s ∈ spans, ¬ Spans s p

theorem uncovered_cons (a b : Nat) (s : Nat × Nat) (spans : List (Nat × Nat)) :
    uncovered a b (s :: spans) = (uncovered a b spans).filter fun p => ¬ Spans s p := by
  ext p
  simp only [uncovered, Finset.mem_filter, Finset.mem_Ico, List.forall_mem_cons]
  tauto

/-- What the first span covers of what the others leave is all of it. -/
theorem filter_uncovered {a b : Nat} {s : Nat × Nat} {spans : List (Nat × Nat)}
    (hin : s.2 = 0 ∨ a ≤ s.1 ∧ s.1 + s.2 ≤ b)
    (hd : ∀ t ∈ spans, Apart s t) : (uncovered a b spans).filter (Spans s) =
    Finset.Ico s.1 (s.1 + s.2) := by
  ext p
  simp only [uncovered, Finset.mem_filter, Finset.mem_Ico]
  constructor
  · intro ⟨_, hp⟩
    exact hp
  · intro hp
    refine ⟨⟨?_, fun t ht => hd t ht p hp⟩, hp⟩
    omega

theorem card_uncovered {a b : Nat} :
    ∀ (spans : List (Nat × Nat)), (∀ s ∈ spans, s.2 = 0 ∨ a ≤ s.1 ∧ s.1 + s.2 ≤ b) →
    spans.Pairwise Apart → (uncovered a b spans).card + (spans.map (·.2)).sum = b - a
  | [], _, _ => by simp [uncovered]
  | s :: spans, hin, hd => by
    rw [List.pairwise_cons] at hd
    have ih := card_uncovered spans (fun t ht => hin t (List.mem_cons_of_mem _ ht)) hd.2
    have hs := congrArg Finset.card (filter_uncovered (hin s List.mem_cons_self) hd.1)
    have hsplit := Finset.card_filter_add_card_filter_not (s := uncovered a b spans) (Spans s)
    rw [Nat.card_Ico, Nat.add_sub_cancel_left] at hs
    rw [uncovered_cons, List.map_cons, List.sum_cons]
    omega

end Basis

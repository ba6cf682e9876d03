import Mathlib.Data.List.Basic
import Mathlib.Tactic.Ring

/-!
# Fixed-width little-endian integers and byte slices

`le w n` is the `w`-byte little-endian encoding of `n` with the high bytes
cut off, so it is also what a narrowing cast followed by the encoding gives.
A slice is read through `take`, which refuses a range the buffer ends inside.
-/

namespace Basis

abbrev Bytes := List UInt8

def le : Nat → Nat → Bytes
  | 0, _ => []
  | w + 1, n => UInt8.ofNat n :: le w (n / 256)

def ofLe : Bytes → Nat
  | [] => 0
  | b :: bs => b.toNat + 256 * ofLe bs

@[simp] theorem length_le : ∀ w n, (le w n).length = w
  | 0, _ => rfl
  | w + 1, n => by simp [le, length_le w]

theorem ofLe_le : ∀ w n, ofLe (le w n) = n % 256 ^ w
  | 0, n => by simp [le, ofLe, Nat.mod_one]
  | w + 1, n => by
    rw [le, ofLe, ofLe_le w, Nat.pow_succ, Nat.mul_comm (256 ^ w), Nat.mod_mul]
    simp

theorem ofLe_le_of_lt {w n : Nat} (h : n < 256 ^ w) : ofLe (le w n) = n := by
  rw [ofLe_le, Nat.mod_eq_of_lt h]

theorem ofLe_lt : ∀ bs : Bytes, ofLe bs < 256 ^ bs.length
  | [] => by simp [ofLe]
  | b :: bs => by
    have hb := b.toNat_lt
    have ih := ofLe_lt bs
    rw [ofLe, List.length_cons, Nat.pow_succ]
    omega

theorem le_ofLe : ∀ bs : Bytes, le bs.length (ofLe bs) = bs
  | [] => rfl
  | b :: bs => by
    have hb := b.toNat_lt
    have hlow : UInt8.ofNat (b.toNat + 256 * ofLe bs) = b := by
      apply UInt8.toNat_inj.mp
      rw [UInt8.toNat_ofNat']
      omega
    have hhigh : (b.toNat + 256 * ofLe bs) / 256 = ofLe bs := by omega
    rw [List.length_cons, ofLe, le, hlow, hhigh, le_ofLe bs]

/-! ## Slices -/

def take (buf : Bytes) (pos len : Nat) : Option (Bytes × Nat) :=
  if pos + len ≤ buf.length then some ((buf.drop pos).take len, pos + len) else none

theorem take_append (a b c : Bytes) : take (a ++ (b ++ c)) a.length b.length =
    some (b, a.length + b.length) := by
  simp [take]

/-- A slice read from a buffer is the one read from any extension of it. -/
theorem take_of_isPrefix {p b : Bytes} (h : p <+: b) {pos len : Nat} {x : Bytes × Nat}
    (hx : take p pos len = some x) : take b pos len = some x := by
  obtain ⟨t, rfl⟩ := h
  unfold take at *
  split at hx
  · rename_i hle
    rw [if_pos (by simp; omega)]
    cases hx
    rw [List.drop_append_of_le_length (by omega), List.take_append_of_le_length (by simp; omega)]
  · cases hx

theorem take_pos {buf : Bytes} {pos len : Nat} {x : Bytes × Nat} (hx : take buf pos len = some x) :
    x.2 = pos + len ∧ pos + len ≤ buf.length := by
  unfold take at hx
  split at hx
  · cases hx; exact ⟨rfl, ‹_›⟩
  · cases hx

/-- A buffer from `pos` on is the slice there and what follows it. -/
theorem take_split {buf : Bytes} {pos len : Nat} {x : Bytes × Nat}
    (hx : take buf pos len = some x) :
    buf.drop pos = x.1 ++ buf.drop x.2 ∧ x.1.length = len := by
  unfold take at hx
  split at hx
  · cases hx
    refine ⟨?_, by rw [List.length_take, List.length_drop]; omega⟩
    rw [← List.drop_drop, List.take_append_drop]
  · cases hx

/-! ## Writing over a buffer -/

/-- `bs` written at `pos`: what was there is overwritten, a gap past the end
is filled with zeros, and bytes past the written range stay. -/
def overlay (buf : Bytes) (pos : Nat) (bs : Bytes) : Bytes :=
  buf.take pos ++ List.replicate (pos - buf.length) 0 ++ bs ++ buf.drop (pos + bs.length)

theorem overlay_append (a b bs : Bytes) :
    overlay (a ++ b) a.length bs = a ++ bs ++ b.drop bs.length := by
  simp [overlay, List.drop_append]

theorem overlay_zero (a b bs : Bytes) (h : bs.length = a.length) :
    overlay (a ++ b) 0 bs = bs ++ b := by
  simp [overlay, h]

end Basis

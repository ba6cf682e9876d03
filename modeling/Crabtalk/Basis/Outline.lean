import Mathlib.Data.List.Basic
import Mathlib.Tactic.Common

/-!
# The outline of a JSON text

Read byte by byte, as far as brackets and strings go: what is not a bracket, a
quote or an escape is passed over. Every JSON object and array has this
outline, and texts without it are none. A text cut short has it no more, and
nor has what is left of one with another object behind it.
-/

namespace Basis

/-- Where a reader is. The depth is that of the brackets around it, less one. -/
inductive Outline
  | start
  | inside (depth : Nat)
  | string (depth : Nat)
  | escape (depth : Nat)
  | quoted (depth : Nat)
  | done
  deriving DecidableEq

namespace Outline

def isSpace (b : UInt8) : Bool := b = 32 || b = 9 || b = 10 || b = 13

def isOpen (b : UInt8) : Bool := b = 123 || b = 91

def isShut (b : UInt8) : Bool := b = 125 || b = 93

def isEscape (b : UInt8) : Bool := b = 34 || b = 92 || b = 47 || b = 98 || b = 102 || b = 110 || b =
    114 || b = 116 || b = 117

def isLetter (b : UInt8) : Bool := 97 ≤ b && b ≤ 122

def shut : Nat → Outline
  | 0 => done
  | depth + 1 => inside depth

def step : Outline → UInt8 → Option Outline
  | start, b => if isOpen b then some (inside 0) else if isSpace b then some start else none
  | inside d, b =>
    if isOpen b then some (inside (d + 1)) else if isShut b then some (shut d) else if b = 34
      then some (string d) else some (inside d)
  | string d, b =>
    if b = 34 then some (quoted d) else if b = 92 then some (escape d) else some (string d)
  | escape d, b => if isEscape b then some (string d) else none
  | quoted d, b =>
    if isShut b then some (shut d) else if b = 44 || b = 58 || isSpace b
      then some (inside d) else none
  | done, b => if isSpace b then some done else none

def scan (q : Outline) (text : List UInt8) : Option Outline := text.foldlM step q

variable {q q' : Outline} {b : UInt8} {text torn rest : List UInt8}

@[simp] theorem scan_nil : scan q [] = some q := rfl

theorem scan_cons : scan q (b :: text) = (step q b).bind fun q => scan q text := rfl

theorem scan_append : scan q (torn ++ text) = (scan q torn).bind fun q => scan q text := by
  unfold scan
  rw [List.foldlM_append]
  rfl

/-- An object as a serializer writes it: no space around it, and a key at its head. -/
structure Object (text : List UInt8) : Prop where
  scanned : scan start text = some done
  headed : ∃ c rest, text = 123 :: 34 :: c :: rest ∧ isLetter c = true
  ended : text.getLast? = some 125

/-! ## The same text further in -/

/-- Where the reader is with so many more brackets, and one, around the text. -/
def lift (m : Nat) : Outline → Outline
  | start => inside m
  | inside d => inside (d + m + 1)
  | string d => string (d + m + 1)
  | escape d => escape (d + m + 1)
  | quoted d => quoted (d + m + 1)
  | done => inside m

theorem lift_shut (m d : Nat) : lift m (shut d) = shut (d + m + 1) := by
  cases d with
  | zero => simp [shut, lift]
  | succ d => simp [shut, lift, Nat.add_right_comm]

theorem isSpace_cases (h : isSpace b = true) : b = 32 ∨ b = 9 ∨ b = 10 ∨ b = 13 := by
  simpa [isSpace, or_assoc] using h

theorem step_inside_space {d : Nat} (h : isSpace b = true) : step (inside d) b = some (inside d) := by
  rcases isSpace_cases h with rfl | rfl | rfl | rfl <;> rfl

theorem step_lift (m : Nat) (h : step q b = some q') : step (lift m q) b = some (lift m q') := by
  cases q with
  | start =>
    simp only [step] at h
    by_cases ho : isOpen b = true
    · rw [if_pos ho] at h
      cases h
      simp [lift, step, ho]
    · rw [if_neg ho] at h
      by_cases hs : isSpace b = true
      · rw [if_pos hs] at h
        cases h
        exact step_inside_space hs
      · rw [if_neg hs] at h
        cases h
  | inside d =>
    simp only [step, lift] at h ⊢
    by_cases ho : isOpen b = true
    · rw [if_pos ho] at h ⊢
      cases h
      simp [Nat.add_right_comm]
    · rw [if_neg ho] at h ⊢
      by_cases hs : isShut b = true
      · rw [if_pos hs] at h ⊢
        cases h
        -- the shutting bracket may bring the depth to zero
        exact congrArg some (lift_shut m d).symm
      · rw [if_neg hs] at h ⊢
        by_cases hq : b = 34
        · rw [if_pos hq] at h ⊢
          cases h
          rfl
        · rw [if_neg hq] at h ⊢
          cases h
          rfl
  | string d =>
    simp only [step, lift] at h ⊢
    by_cases hq : b = 34
    · rw [if_pos hq] at h ⊢
      cases h
      rfl
    · rw [if_neg hq] at h ⊢
      by_cases hb : b = 92
      · rw [if_pos hb] at h ⊢
        cases h
        rfl
      · rw [if_neg hb] at h ⊢
        cases h
        rfl
  | escape d =>
    simp only [step, lift] at h ⊢
    by_cases he : isEscape b = true
    · rw [if_pos he] at h ⊢
      cases h
      rfl
    · rw [if_neg he] at h
      cases h
  | quoted d =>
    simp only [step, lift] at h ⊢
    by_cases hs : isShut b = true
    · rw [if_pos hs] at h ⊢
      cases h
      exact congrArg some (lift_shut m d).symm
    · rw [if_neg hs] at h ⊢
      by_cases hm : (b = 44 || b = 58 || isSpace b) = true
      · rw [if_pos hm] at h ⊢
        cases h
        rfl
      · rw [if_neg hm] at h
        cases h
  | done =>
    simp only [step] at h
    by_cases hs : isSpace b = true
    · rw [if_pos hs] at h
      cases h
      exact step_inside_space hs
    · rw [if_neg hs] at h
      cases h

theorem scan_lift (m : Nat) (h : scan q text = some q') : scan (lift m q) text = some (lift m q') := by
  induction text generalizing q with
  | nil =>
    cases h
    rfl
  | cons b text ih =>
    rw [scan_cons] at h
    obtain ⟨p, hp, h⟩ := Option.bind_eq_some_iff.mp h
    rw [scan_cons, step_lift m hp]
    exact ih h

/-! ## Texts that are cut -/

theorem shut_ne_start (d : Nat) : shut d ≠ start := by
  cases d <;> simp [shut]

theorem step_start (h : step q b = some start) : q = start := by
  cases q with
  | start => rfl
  | inside d => grind [step, shut_ne_start]
  | string d => grind [step]
  | escape d => grind [step]
  | quoted d => grind [step, shut_ne_start]
  | done => grind [step]

theorem scan_start (h : scan q text = some start) : q = start := by
  induction text generalizing q with
  | nil =>
    cases h
    rfl
  | cons b text ih =>
    rw [scan_cons] at h
    obtain ⟨p, hp, h⟩ := Option.bind_eq_some_iff.mp h
    rw [ih h] at hp
    exact step_start hp

theorem letter_bars : ∀ n < 256, isLetter (UInt8.ofNat n) = true →
    (isShut (UInt8.ofNat n) || UInt8.ofNat n = 44 || UInt8.ofNat n =
      58 || isSpace (UInt8.ofNat n)) = false := by decide +kernel

theorem step_letter {d : Nat} (h : isLetter b = true) : step (quoted d) b = none := by
  have hbars := letter_bars b.toNat b.toNat_lt (by rw [UInt8.ofNat_toNat, h])
  rw [UInt8.ofNat_toNat] at hbars
  simp only [Bool.or_eq_false_iff] at hbars
  obtain ⟨⟨⟨hshut, hcomma⟩, hcolon⟩, hspace⟩ := hbars
  simp [step, hshut, hcomma, hcolon, hspace]

theorem scan_done (h : scan done text = some q) : ∀ b ∈ text, isSpace b = true := by
  induction text with
  | nil => simp
  | cons b text ih =>
    rw [scan_cons] at h
    obtain ⟨p, hp, h⟩ := Option.bind_eq_some_iff.mp h
    by_cases hs : isSpace b = true
    · rw [step, if_pos hs] at hp
      cases hp
      simpa [hs] using ih h
    · rw [step, if_neg hs] at hp
      cases hp

theorem Object.ne_nil (h : Object text) : text ≠ [] := by
  obtain ⟨c, rest, rfl, -⟩ := h.headed
  exact List.cons_ne_nil _ _

/-- An object that is cut short has not the outline of one. -/
theorem Object.cut (h : Object text) (ht : torn <+: text) (hne : torn ≠ text) :
    scan start torn ≠ some done := by
  intro hd
  obtain ⟨rest, rfl⟩ := ht
  have hrest : rest ≠ [] := by
    intro hr
    exact hne (by rw [hr, List.append_nil])
  have hs := h.scanned
  rw [scan_append, hd] at hs
  have hspace := scan_done hs (rest.getLast hrest) (List.getLast_mem hrest)
  have hlast := h.ended
  rw [List.getLast?_append_of_ne_nil _ hrest, List.getLast?_eq_some_getLast hrest] at hlast
  rw [Option.some.inj hlast] at hspace
  cases hspace

/-- Nor has what is left of it with another object behind. -/
theorem Object.glued (h : Object text) (ht : torn <+: text) (hne : torn ≠ []) {next : List UInt8}
    (hn : Object next) :
    scan start (torn ++ next) ≠ some done := by
  obtain ⟨rest, rfl⟩ := ht
  have hs := h.scanned
  rw [scan_append] at hs ⊢
  obtain ⟨q, hq, -⟩ := Option.bind_eq_some_iff.mp hs
  obtain ⟨c, tail, hnext, hc⟩ := hn.headed
  rw [hq]
  intro hd
  change scan q next = some done at hd
  cases q with
  | start =>
    obtain ⟨c', tail', htext, -⟩ := h.headed
    cases torn with
    | nil => exact hne rfl
    | cons b torn =>
      obtain ⟨rfl, -⟩ := List.cons.inj htext
      rw [scan_cons] at hq
      cases scan_start hq
  | inside d =>
    have hin := scan_lift d hn.scanned
    rw [show lift d start = inside d from rfl, hd] at hin
    cases hin
  | string d =>
    rw [hnext, scan_cons, show step (string d) 123 = some (string d) from rfl,
      Option.bind_some, scan_cons,
      show step (string d) 34 = some (quoted d) from rfl, Option.bind_some, scan_cons] at hd
    rw [step_letter hc] at hd
    cases hd
  | escape d =>
    rw [hnext, scan_cons] at hd
    cases hd
  | quoted d =>
    rw [hnext, scan_cons] at hd
    cases hd
  | done =>
    rw [hnext, scan_cons] at hd
    cases hd

end Outline

end Basis

import Crabtalk.Backend.Plain

/-!
# Texts put together

A kind of value with a text for each of its values and a reader that finds the
value in front of whatever follows. Records, lists and values that may be
missing are put together from their parts, and so is the proof that they are
read back.
-/

open Basis

namespace Crabtalk.Backend.Plain

open Store

structure Printed (α : Type) where
  print : α → Str
  scan : Str → Option (α × Str)
  scan_print : ∀ a rest, scan (print a ++ rest) = some (a, rest)

namespace Printed

variable {α β : Type}

def quoted : Printed Str where
  print := quote
  scan := field "\""
  scan_print s rest := by
    have hq : quote s ++ rest = "\"".toList ++ (escaped s ++ '"' :: rest) := by simp [quote]
    rw [hq, field_append]

def after (lit : String) (p : Printed α) : Printed α where
  print a := lit.toList ++ p.print a
  scan text := (expect lit.toList text).bind p.scan
  scan_print a rest := by rw [List.append_assoc, expect_append, Option.bind_some, p.scan_print]

def before (p : Printed α) (lit : String) : Printed α where
  print a := p.print a ++ lit.toList
  scan text := do
    let (a, rest) ← p.scan text
    return (a, ← expect lit.toList rest)
  scan_print a rest := by
    simp only [List.append_assoc, p.scan_print, expect_append, Option.bind_eq_bind,
      Option.bind_some]
    rfl

def both (p : Printed α) (q : Printed β) : Printed (α × β) where
  print e := p.print e.1 ++ q.print e.2
  scan text := do
    let (a, rest) ← p.scan text
    let (b, rest) ← q.scan rest
    return ((a, b), rest)
  scan_print e rest := by
    simp only [List.append_assoc, p.scan_print, q.scan_print, Option.bind_eq_bind, Option.bind_some]
    rfl

def map (p : Printed α) (f : α → β) (g : β → α) (h : ∀ b, f (g b) = b) : Printed β where
  print b := p.print (g b)
  scan text := (p.scan text).map fun e => (f e.1, e.2)
  scan_print b rest := by rw [p.scan_print, Option.map_some, h]

def count (lit : String) (h : (lit.toList.head?.any fun c => !c.isDigit) = true) : Printed Nat where
  print n := Nat.toDigits 10 n ++ lit.toList
  scan text := (expect lit.toList (number text).2).map fun rest => ((number text).1, rest)
  scan_print n rest := by
    have hend : ((lit.toList ++ rest).head?.all fun c => !c.isDigit) = true := by
      cases hl : lit.toList with
      | nil =>
        rw [hl] at h
        cases h
      | cons c s =>
        rw [hl] at h
        exact h
    rw [List.append_assoc, number_append _ _ hend, expect_append]
    rfl

def bool : Printed Bool where
  print b := if b then "true".toList else "false".toList
  scan text :=
    match expect "true".toList text with
    | some rest => some (true, rest)
    | none => (expect "false".toList text).map fun rest => (false, rest)
  scan_print b rest := by cases b <;> rfl

/-- What starts neither like the end of a list nor like a value that is missing. -/
def Solid (p : Printed α) : Prop := ∀ a, ∃ c s, p.print a = c :: s ∧ c ≠ ']' ∧ c ≠ 'n'

theorem solid_quoted : quoted.Solid := fun s => ⟨'"', _, rfl, by decide, by decide⟩

theorem solid_after {lit : String} {c : Char} {s : Str} (h : lit.toList = c :: s) (hc : c ≠ ']')
    (hn : c ≠ 'n') (p : Printed α) :
    (after lit p).Solid := fun a => ⟨c, s ++ p.print a, by simp [after, h], hc, hn⟩

def maybe (p : Printed α) (h : p.Solid) : Printed (Option α) where
  print
    | none => "null".toList
    | some a => p.print a
  scan text :=
    match expect "null".toList text with
    | some rest => some (none, rest)
    | none => (p.scan text).map fun e => (some e.1, e.2)
  scan_print a rest := by
    cases a with
    | none => rfl
    | some a =>
      obtain ⟨c, s, hp, -, hn⟩ := h a
      have hnull : expect "null".toList (p.print a ++ rest) = none := by
        rw [hp]
        exact if_neg (Ne.symm hn)
      simp only [hnull, p.scan_print, Option.map_some]

/-! ## Lists -/

def printTail (p : Printed α) : List α → Str
  | [] => "]".toList
  | a :: as => ',' :: (p.print a ++ printTail p as)

def scanTail (p : Printed α) : Nat → Str → Option (List α × Str)
  | 0, _ => none
  | n + 1, text =>
    match expect ",".toList text with
    | none => (expect "]".toList text).map fun rest => ([], rest)
    | some rest => do
      let (a, rest) ← p.scan rest
      let (as, rest) ← scanTail p n rest
      return (a :: as, rest)

theorem scanTail_printTail (p : Printed α) (as : List α) (n : Nat) (hn : as.length < n) (rest : Str) :
    scanTail p n (printTail p as ++ rest) = some (as, rest) := by
  induction as generalizing n with
  | nil =>
    cases n with
    | zero => cases hn
    | succ n => rfl
  | cons a as ih =>
    cases n with
    | zero => cases hn
    | succ n =>
      have hcomma : expect ",".toList (printTail p (a :: as) ++ rest) =
          some (p.print a ++ (printTail p as ++ rest)) := by
        rw [printTail, List.cons_append, List.append_assoc]
        rfl
      simp only [scanTail, hcomma, p.scan_print, ih n (Nat.lt_of_succ_lt_succ hn),
        Option.bind_eq_bind, Option.bind_some]
      rfl

theorem length_lt_printTail (p : Printed α) (as : List α) : as.length < (printTail p as).length := by
  induction as with
  | nil => exact Nat.zero_lt_one
  | cons a as ih =>
    rw [printTail, List.length_cons, List.length_cons, List.length_append]
    omega

def array (p : Printed α) (h : p.Solid) : Printed (List α) where
  print
    | [] => "[]".toList
    | a :: as => '[' :: (p.print a ++ printTail p as)
  scan text :=
    match expect "[]".toList text with
    | some rest => some ([], rest)
    | none => do
      let rest ← expect "[".toList text
      let (a, rest) ← p.scan rest
      let (as, rest) ← scanTail p rest.length rest
      return (a :: as, rest)
  scan_print as rest := by
    cases as with
    | nil => rfl
    | cons a as =>
      obtain ⟨c, s, hp, hc, -⟩ := h a
      have hempty : expect "[]".toList ('[' :: (p.print a ++ printTail p as) ++ rest) = none := by
        rw [hp]
        exact if_neg (Ne.symm hc)
      have hopen : expect "[".toList ('[' :: (p.print a ++ printTail p as) ++ rest) =
          some (p.print a ++ (printTail p as ++ rest)) := by
        rw [List.cons_append, List.append_assoc]
        rfl
      have hfuel : as.length < (printTail p as ++ rest).length := by
        rw [List.length_append]
        exact Nat.lt_add_right _ (length_lt_printTail p as)
      simp only [hempty, hopen, p.scan_print, scanTail_printTail p as _ hfuel, Option.bind_eq_bind,
        Option.bind_some]
      rfl

end Printed

end Crabtalk.Backend.Plain

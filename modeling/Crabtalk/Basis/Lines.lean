import Mathlib.Algebra.BigOperators.Group.List.Lemmas
import Mathlib.Algebra.Group.Int.Defs
import Mathlib.Algebra.GroupWithZero.Nat
import Mathlib.Data.List.DropRight

/-!
# Lines, white space and byte offsets

A string is its characters. An offset counts the bytes they are written in, and
a string can be cut only between two characters.
-/

namespace Basis

/-! ## White space -/

def isWhite (c : Char) : Bool :=
  (0x9 ≤ c.toNat && c.toNat ≤ 0xd) || c.toNat = 0x20 || c.toNat = 0x85 || c.toNat =
    0xa0 || c.toNat = 0x1680 ||
    (0x2000 ≤ c.toNat && c.toNat ≤ 0x200a) || c.toNat = 0x2028 || c.toNat = 0x2029 || c.toNat =
    0x202f || c.toNat = 0x205f || c.toNat = 0x3000

def trimStart (s : List Char) : List Char := s.dropWhile isWhite

def trimEnd (s : List Char) : List Char := s.rdropWhile isWhite

def trim (s : List Char) : List Char := trimEnd (trimStart s)

theorem head?_trim {s : List Char} {c : Char} (h : (trim s).head? = some c) :
    isWhite c = false := by
  have hstart : (trimStart s).head? = some c := by
    obtain ⟨u, hu⟩ := List.rdropWhile_prefix isWhite (trimStart s)
    rw [← hu, List.head?_append, ← trimEnd, ← trim, h]
    rfl
  have hnot := List.head?_dropWhile_not isWhite s
  rw [← trimStart, hstart] at hnot
  exact hnot

theorem getLast?_trim {s : List Char} {c : Char} (h : (trim s).getLast? = some c) :
    isWhite c = false := by
  have hne : trim s ≠ [] := fun hnil => by simp [hnil] at h
  have hnot := List.rdropWhile_last_not isWhite (trimStart s) hne
  rw [List.getLast?_eq_some_getLast hne, Option.some.injEq] at h
  subst h
  exact Bool.eq_false_iff.mpr hnot

theorem trim_eq_self_iff {s : List Char} (h : ∀ c, s.head? = some c → isWhite c = false) :
    trim s = s ↔ ∀ c, s.getLast? = some c → isWhite c = false := by
  have hstart : trimStart s = s := by
    cases s with
    | nil => rfl
    | cons c s => exact List.dropWhile_cons_of_neg (by simp [h c rfl])
  rw [trim, hstart, trimEnd, List.rdropWhile_eq_self_iff]
  constructor
  · intro hlast c hc
    obtain ⟨t, rfl⟩ := List.getLast?_eq_some_iff.mp hc
    simpa using hlast (by simp)
  · intro hlast hne
    simpa using hlast _ (List.getLast?_eq_some_getLast hne)

/-! ## Lines -/

def splitInclusive : List Char → List (List Char)
  | [] => []
  | c :: s =>
    if c = '\n' then [c] :: splitInclusive s
    else
      match splitInclusive s with
      | [] => [[c]]
      | p :: ps => (c :: p) :: ps

def trimEol (p : List Char) : List Char :=
  if p.getLast? = some '\n' then
    if p.dropLast.getLast? = some '\r' then p.dropLast.dropLast else p.dropLast
  else p

def lines (s : List Char) : List (List Char) := (splitInclusive s).map trimEol

section
variable {s t l p : List Char}

theorem trimEol_lf (h : '\r' ∉ l) : trimEol (l ++ ['\n']) = l := by
  have hlast : l.getLast? ≠ some '\r' := fun hl => h (List.mem_of_getLast? hl)
  simp [trimEol, hlast]

theorem trimEol_crlf (l : List Char) : trimEol (l ++ ['\r', '\n']) = l := by
  have hsplit : l ++ ['\r', '\n'] = (l ++ ['\r']) ++ ['\n'] := by simp
  rw [trimEol, hsplit, if_pos (by simp), List.dropLast_concat, if_pos (by simp),
    List.dropLast_concat]

theorem trimEol_open (h : '\n' ∉ l) : trimEol l = l := by
  have hlast : l.getLast? ≠ some '\n' := fun hl => h (List.mem_of_getLast? hl)
  rw [trimEol, if_neg hlast]

/-- What ends a line is a line feed, with a carriage return before it or without. -/
theorem trimEol_append (p : List Char) : ∃ e, trimEol p ++ e = p ∧ ∀ x ∈ e, x = '\r' ∨ x = '\n' := by
  unfold trimEol
  split
  · next hlf =>
    obtain ⟨l, rfl⟩ := List.getLast?_eq_some_iff.mp hlf
    rw [List.dropLast_concat]
    split
    · next hcr =>
      obtain ⟨l, rfl⟩ := List.getLast?_eq_some_iff.mp hcr
      rw [List.dropLast_concat]
      exact ⟨['\r', '\n'], by simp, by simp⟩
    · exact ⟨['\n'], rfl, by simp⟩
  · exact ⟨[], List.append_nil p, by simp⟩

@[simp] theorem splitInclusive_nil : splitInclusive [] = [] := rfl

theorem splitInclusive_line (h : '\n' ∉ l) (t : List Char) :
    splitInclusive (l ++ '\n' :: t) = (l ++ ['\n']) :: splitInclusive t := by
  induction l with
  | nil => simp [splitInclusive]
  | cons c l ih =>
    rw [List.mem_cons, not_or] at h
    rw [List.cons_append, splitInclusive, if_neg (Ne.symm h.1), ih h.2]
    rfl

theorem splitInclusive_last (h : '\n' ∉ l) (hne : l ≠ []) : splitInclusive l = [l] := by
  induction l with
  | nil => exact absurd rfl hne
  | cons c l ih =>
    rw [List.mem_cons, not_or] at h
    rw [splitInclusive, if_neg (Ne.symm h.1)]
    cases l with
    | nil => rfl
    | cons d l => rw [ih h.2 (List.cons_ne_nil _ _)]

/-- A string is empty, a line that is not ended, or a line that is and a string. -/
theorem lines_induction {motive : List Char → Prop} (nil : motive [])
    (last : ∀ l, '\n' ∉ l → l ≠ [] → motive l)
    (line : ∀ l t, '\n' ∉ l → motive t → motive (l ++ '\n' :: t)) (s : List Char) : motive s := by
  induction h : s.length using Nat.strong_induction_on generalizing s with
  | h n ih =>
    by_cases hmem : '\n' ∈ s
    · obtain ⟨l, t, rfl, hl⟩ := List.eq_append_cons_of_mem hmem
      refine line l t hl (ih t.length ?_ t rfl)
      rw [← h, List.length_append, List.length_cons]
      omega
    · cases s with
      | nil => exact nil
      | cons c s => exact last (c :: s) hmem (List.cons_ne_nil _ _)

@[simp] theorem flatten_splitInclusive (s : List Char) : (splitInclusive s).flatten = s := by
  induction s using lines_induction with
  | nil => rfl
  | last l h hne => rw [splitInclusive_last h hne, List.flatten_singleton]
  | line l t h ih =>
    rw [splitInclusive_line h, List.flatten_cons, ih]
    simp

/-- A piece that another follows is a line and its end. -/
theorem ended_of_splitInclusive {b r : List (List Char)} {c : List Char}
    (h : splitInclusive s = b ++ c :: r) :
    (∀ p ∈ b, ∃ l, '\n' ∉ l ∧ p = l ++ ['\n']) ∧ ∃ l, '\n' ∉ l ∧
    (c = l ++ ['\n'] ∨ c = l ∧ r = []) := by
  induction s using lines_induction generalizing b with
  | nil => simp at h
  | last l hl hne =>
    rw [splitInclusive_last hl hne] at h
    cases b with
    | nil =>
      rw [List.nil_append, List.cons.injEq] at h
      exact ⟨fun _ hp => (by cases hp), l, hl, .inr ⟨h.1.symm, h.2.symm⟩⟩
    | cons p b => simp at h
  | line l t hl ih =>
    rw [splitInclusive_line hl] at h
    cases b with
    | nil =>
      rw [List.nil_append, List.cons.injEq] at h
      exact ⟨fun _ hp => (by cases hp), l, hl, .inl h.1.symm⟩
    | cons p b =>
      rw [List.cons_append, List.cons.injEq] at h
      obtain ⟨hb, hc⟩ := ih h.2
      refine ⟨fun q hq => ?_, hc⟩
      rcases List.mem_cons.mp hq with rfl | hq
      · exact ⟨l, hl, h.1.symm⟩
      · exact hb q hq

theorem lines_line (h : '\n' ∉ l) (t : List Char) :
    lines (l ++ '\n' :: t) = trimEol (l ++ ['\n']) :: lines t := by
  rw [lines, splitInclusive_line h, List.map_cons, lines]

theorem lines_last (h : '\n' ∉ l) (hne : l ≠ []) : lines l = [l] := by
  rw [lines, splitInclusive_last h hne, List.map_singleton, trimEol_open h]

theorem trimEol_lf_iff (l : List Char) : trimEol (l ++ ['\n']) = l ↔ l.getLast? ≠ some '\r' := by
  rw [trimEol, if_pos (by simp), List.dropLast_concat]
  split
  · next hcr =>
    obtain ⟨k, rfl⟩ := List.getLast?_eq_some_iff.mp hcr
    simp
  · next hcr => simp [hcr]

theorem notMem_of_mem_lines (h : l ∈ lines s) : '\n' ∉ l := by
  induction s using lines_induction with
  | nil => cases h
  | last k hk hne =>
    rw [lines_last hk hne, List.mem_singleton] at h
    exact h ▸ hk
  | line k t hk ih =>
    rw [lines_line hk, List.mem_cons] at h
    rcases h with rfl | h
    · intro hmem
      obtain ⟨e, he, -⟩ := trimEol_append (k ++ ['\n'])
      rw [trimEol, if_pos (by simp), List.dropLast_concat] at hmem
      split at hmem
      · exact hk (List.dropLast_subset k hmem)
      · exact hk hmem
    · exact ih h

/-! ## Joining -/

def joinLines (ls : List (List Char)) : List Char := ['\n'].intercalate ls

@[simp] theorem joinLines_nil : joinLines [] = [] := rfl

@[simp] theorem joinLines_singleton (l : List Char) : joinLines [l] = l :=
  List.intercalate_singleton

theorem joinLines_cons (l : List Char) {ls : List (List Char)} (h : ls ≠ []) :
    joinLines (l :: ls) = l ++ '\n' :: joinLines ls := by
  rw [joinLines, List.intercalate_cons_of_ne_nil h, List.append_assoc]
  rfl

theorem lines_joinLines_cons (hl : '\n' ∉ l) {ls : List (List Char)} (h : ls ≠ []) :
    lines (joinLines (l :: ls)) = trimEol (l ++ ['\n']) :: lines (joinLines ls) := by
  rw [joinLines_cons l h, lines_line hl]

theorem length_lines_joinLines_le : ∀ {ls : List (List Char)}, (∀ l ∈ ls, '\n' ∉ l) →
    (lines (joinLines ls)).length ≤ ls.length
  | [], _ => Nat.le_refl _
  | [l], h => by
    rw [joinLines_singleton]
    by_cases hne : l = []
    · simp [hne, lines]
    · rw [lines_last (h l List.mem_cons_self) hne]
  | l :: l' :: ls, h => by
    rw [lines_joinLines_cons (h l List.mem_cons_self) (List.cons_ne_nil l' ls), List.length_cons,
      List.length_cons]
    exact Nat.succ_le_succ (length_lines_joinLines_le fun k hk => h k (List.mem_cons_of_mem _ hk))

/-- What is joined is read back where no line that another follows ends in a carriage return and the
last is not empty. -/
theorem lines_joinLines_iff : ∀ {ls : List (List Char)}, (∀ l ∈ ls, '\n' ∉ l) →
    (lines (joinLines ls) = ls ↔ (∀ l ∈ ls.dropLast, l.getLast? ≠ some '\r') ∧
      ls.getLast? ≠ some [])
  | [], _ => by simp [lines]
  | [l], h => by
    rw [joinLines_singleton]
    by_cases hne : l = []
    · simp [hne, lines]
    · rw [lines_last (h l List.mem_cons_self) hne]
      simp [hne]
  | l :: l' :: ls, h => by
    have ih := lines_joinLines_iff fun k hk => h k (List.mem_cons_of_mem l hk)
    rw [lines_joinLines_cons (h l List.mem_cons_self) (List.cons_ne_nil l' ls), List.cons.injEq,
      trimEol_lf_iff, ih, List.dropLast_cons_cons,
      List.forall_mem_cons, List.getLast?_cons_cons, and_assoc]

end

/-! ## Offsets -/

def utf8Length (s : List Char) : Nat := (s.map Char.utf8Size).sum

/-- `split_at`, which panics past the end and inside a character. -/
def splitBytes : Nat → List Char → Option (List Char × List Char)
  | 0, s => some ([], s)
  | _ + 1, [] => none
  | n + 1, c :: s => if c.utf8Size ≤ n + 1 then (splitBytes (n + 1 - c.utf8Size) s).map fun (p,
      q) => (c :: p, q) else none

section
variable {s t p q : List Char} {n : Nat}

@[simp] theorem utf8Length_nil : utf8Length [] = 0 := rfl

@[simp] theorem utf8Length_cons (c : Char) (s : List Char) :
    utf8Length (c :: s) = c.utf8Size + utf8Length s := rfl

@[simp] theorem utf8Length_append (s t : List Char) :
    utf8Length (s ++ t) = utf8Length s + utf8Length t := by
  simp [utf8Length]

theorem utf8Length_pos (h : s ≠ []) : 0 < utf8Length s := by
  cases s with
  | nil => exact absurd rfl h
  | cons c s =>
    have hpos := c.utf8Size_pos
    rw [utf8Length_cons]
    omega

theorem splitBytes_append (p q : List Char) : splitBytes (utf8Length p) (p ++ q) = some (p, q) := by
  induction p with
  | nil => cases q <;> rfl
  | cons c p ih =>
    obtain ⟨k, hk⟩ := Nat.exists_eq_add_one_of_ne_zero (utf8Length_pos (List.cons_ne_nil c p)).ne'
    have hsize : k + 1 - c.utf8Size = utf8Length p := by
      rw [← hk, utf8Length_cons]
      omega
    have hle : c.utf8Size ≤ k + 1 := by
      rw [← hk, utf8Length_cons]
      omega
    rw [hk, List.cons_append, splitBytes, if_pos hle, hsize, ih]
    rfl

/-- A cut is where the characters before it have that many bytes. -/
theorem splitBytes_eq_some : splitBytes n s = some (p, q) ↔ s = p ++ q ∧ utf8Length p = n := by
  refine ⟨fun h => ?_, fun ⟨hs, hn⟩ => by rw [hs, ← hn, splitBytes_append]⟩
  induction s generalizing n p with
  | nil =>
    cases n with
    | zero =>
      simp only [splitBytes, Option.some.injEq, Prod.mk.injEq] at h
      rw [← h.1, ← h.2]
      exact ⟨rfl, rfl⟩
    | succ n => cases h
  | cons c s ih =>
    cases n with
    | zero =>
      simp only [splitBytes, Option.some.injEq, Prod.mk.injEq] at h
      rw [← h.1, ← h.2]
      exact ⟨rfl, rfl⟩
    | succ n =>
      rw [splitBytes] at h
      split at h
      · obtain ⟨⟨p', q'⟩, hcut, heq⟩ := Option.map_eq_some_iff.mp h
        cases heq
        obtain ⟨hs, hlen⟩ := ih hcut
        refine ⟨by rw [hs, List.cons_append], ?_⟩
        rw [utf8Length_cons, hlen]
        omega
      · cases h

def Boundary (n : Nat) (s : List Char) : Prop := ∃ p q, s = p ++ q ∧ utf8Length p = n

theorem splitBytes_iff : (∃ cut, splitBytes n s = some cut) ↔ Boundary n s := by
  constructor
  · intro ⟨⟨p, q⟩, hcut⟩
    exact ⟨p, q, splitBytes_eq_some.mp hcut⟩
  · intro ⟨p, q, hpq⟩
    exact ⟨(p, q), splitBytes_eq_some.mpr hpq⟩

/-- It is cut so many bytes before an end where a character begins there. -/
def CutBefore (m : Nat) (t : List Char) : Prop := ∃ p q, t = p ++ q ∧ utf8Length q = m

theorem splitBytes_before {u : List Char} {m : Nat} (h : n + m = utf8Length t) :
    (∃ p q, splitBytes n (t ++ u) = some (p, q)) ↔ CutBefore m t := by
  constructor
  · intro ⟨p, q, hcut⟩
    obtain ⟨heq, hp⟩ := splitBytes_eq_some.mp hcut
    rcases List.append_eq_append_iff.mp heq with ⟨w, rfl, -⟩ | ⟨w, rfl, -⟩
    · rw [utf8Length_append] at hp
      exact ⟨t, [], by simp, by rw [utf8Length_nil]; omega⟩
    · rw [utf8Length_append] at h
      exact ⟨p, w, rfl, by omega⟩
  · intro ⟨p, q, hpq, hq⟩
    rw [hpq, utf8Length_append] at h
    exact ⟨p, q ++ u, splitBytes_eq_some.mpr ⟨by rw [hpq, List.append_assoc], by omega⟩⟩

end

end Basis

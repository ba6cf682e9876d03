import Crabtalk.Basis.Lines

/-!
# Splitting a skill file

The front matter stands between two `---` lines and the body is what follows.
The closing line is found by adding up the lengths of the lines before it, each
with one byte for what ended it, so every line that ended in two leaves the
offset one byte short.
-/

open Basis

namespace Crabtalk.Skill

abbrev Str := List Char

def isNewline (c : Char) : Bool := c = '\n' || c = '\r'

def trimNewlines (s : Str) : Str := s.dropWhile isNewline

def delimiter : Str := "---".toList

def missingOpening : Str := "missing YAML frontmatter delimiter (---)".toList

def missingClosing : Str := "missing closing YAML frontmatter delimiter (---)".toList

/-- What is before `pos` and what is behind `bodyStart`. Either cut panics inside a character. -/
def cutAt (afterFirst : Str) (pos bodyStart : Nat) : Option (Except Str (Str × Str)) := do
  let (frontmatter, _) ← splitBytes pos afterFirst
  let (_, body) ← splitBytes bodyStart afterFirst
  return .ok (trimEnd frontmatter, trimNewlines body)

def scan (afterFirst : Str) : Nat → List Str → Option (Except Str (Str × Str))
  | _, [] => some (.error missingClosing)
  | pos, line :: rest =>
    if trim line = delimiter then cutAt afterFirst pos (pos + utf8Length line)
    else scan afterFirst (pos + utf8Length line + 1) rest

/-- `split`, with `none` where it panics. -/
def split (content : Str) : Option (Except Str (Str × Str)) :=
  let content := trimStart content
  if delimiter.isPrefixOf content then
    let afterFirst := trimNewlines (content.drop 3)
    scan afterFirst 0 (lines afterFirst)
  else some (.error missingOpening)

/-! ## Where a document is delimited -/

def opened (content : Str) : Option Str :=
  if delimiter.isPrefixOf (trimStart content) then some (trimNewlines ((trimStart content).drop 3)) else none

/-- The lines before the first that is a delimiter, that line and the lines behind it. -/
def closed : List Str → Option (List Str × Str × List Str)
  | [] => none
  | p :: ps => if trim (trimEol p) = delimiter then some ([], p, ps) else (closed ps).map fun (b, c,
      r) => (p :: b, c, r)

def delimited (content : Str) : Option (List Str × Str × List Str) :=
  (opened content).bind fun s => closed (splitInclusive s)

def missed (b : List Str) : Nat := b.countP (['\r', '\n'].isSuffixOf ·)

section
variable {s t : Str} {ps b r : List Str} {c : Str}

theorem cutAt_eq_some {pos bodyStart : Nat} {res : Except Str (Str × Str)} :
    cutAt t pos bodyStart = some res ↔
      ∃ p q p' q', splitBytes pos t = some (p, q) ∧ splitBytes bodyStart t = some (p', q') ∧
      res = .ok (trimEnd p, trimNewlines q') := by
  unfold cutAt
  constructor
  · intro h
    obtain ⟨⟨p, q⟩, hp, h⟩ := Option.bind_eq_some_iff.mp h
    obtain ⟨⟨p', q'⟩, hq, h⟩ := Option.bind_eq_some_iff.mp h
    cases h
    exact ⟨p, q, p', q', hp, hq, rfl⟩
  · intro ⟨p, q, p', q', hp, hq, hres⟩
    rw [hp, hq, hres]
    rfl

theorem trimNewlines_of_all (h : ∀ x ∈ s, x = '\r' ∨ x = '\n') (t : Str) :
    trimNewlines (s ++ t) = trimNewlines t := by
  refine List.dropWhile_append_of_pos fun x hx => ?_
  rcases h x hx with rfl | rfl <;> rfl

theorem length_trimNewlines_lt {x : Char} (h : isNewline x = false) (s t : Str) :
    t.length < (trimNewlines (s ++ x :: t)).length := by
  rw [trimNewlines, List.dropWhile_append]
  split
  · simp [h]
  · rw [List.length_append, List.length_cons]
    omega

theorem closed_eq_some (h : closed ps = some (b, c, r)) :
    ps = b ++ c :: r ∧ trim (trimEol c) = delimiter := by
  induction ps generalizing b with
  | nil => cases h
  | cons p ps ih =>
    rw [closed] at h
    split at h
    · next hp =>
      cases h
      exact ⟨rfl, hp⟩
    · obtain ⟨⟨b', c', r'⟩, hps, heq⟩ := Option.map_eq_some_iff.mp h
      cases heq
      obtain ⟨heq, hc⟩ := ih hps
      exact ⟨by rw [heq, List.cons_append], hc⟩

theorem missed_cons (p : Str) (b : List Str) :
    missed (p :: b) = missed b + if ['\r', '\n'].isSuffixOf p then 1 else 0 := List.countP_cons

/-- A line's length, counted as the scan counts it, and what it misses. -/
theorem length_line (l : Str) :
    utf8Length (trimEol (l ++ ['\n'])) + 1 +
    (if ['\r', '\n'].isSuffixOf (l ++ ['\n']) then 1 else 0) = utf8Length (l ++ ['\n']) := by
  by_cases h : ['\r', '\n'].isSuffixOf (l ++ ['\n'])
  · obtain ⟨l', hl⟩ := List.isSuffixOf_iff_suffix.mp h
    rw [if_pos h, ← hl, trimEol_crlf, utf8Length_append]
    rfl
  · have hlast : l.getLast? ≠ some '\r' := by
      intro hl
      obtain ⟨l', rfl⟩ := List.getLast?_eq_some_iff.mp hl
      exact h (List.isSuffixOf_iff_suffix.mpr ⟨l', by simp⟩)
    have htrim : trimEol (l ++ ['\n']) = l := by simp [trimEol, hlast]
    rw [if_neg h, htrim, utf8Length_append]
    rfl

/-- The scan finds the first delimiter, and comes to it short by what it missed. -/
theorem scan_closed (afterFirst : Str) (h : closed ps = some (b, c, r))
    (hb : ∀ p ∈ b, ∃ l, '\n' ∉ l ∧ p = l ++ ['\n']) (pos : Nat) :
    ∃ at', at' + missed b = pos + utf8Length b.flatten ∧
      scan afterFirst pos (ps.map trimEol) = cutAt afterFirst at' (at' + utf8Length (trimEol c)) := by
  induction ps generalizing b pos with
  | nil => cases h
  | cons p ps ih =>
    rw [closed] at h
    rw [List.map_cons, scan]
    split at h
    · next hp =>
      cases h
      exact ⟨pos, rfl, if_pos hp⟩
    · next hp =>
      obtain ⟨⟨b', c', r'⟩, hps, heq⟩ := Option.map_eq_some_iff.mp h
      cases heq
      obtain ⟨l, -, rfl⟩ := hb p List.mem_cons_self
      obtain ⟨at', hat, hscan⟩ := ih hps (fun q hq => hb q (List.mem_cons_of_mem _ hq))
          (pos + utf8Length (trimEol (l ++ ['\n'])) + 1)
      refine ⟨at', ?_, by rw [if_neg hp, hscan]⟩
      have hline := length_line l
      rw [missed_cons, List.flatten_cons, utf8Length_append]
      omega

theorem scan_open (afterFirst : Str) (h : closed ps = none) (pos : Nat) :
    scan afterFirst pos (ps.map trimEol) = some (.error missingClosing) := by
  induction ps generalizing pos with
  | nil => rfl
  | cons p ps ih =>
    rw [closed] at h
    split at h
    · cases h
    · next hp =>
      rw [List.map_cons, scan, if_neg hp, ih (Option.map_eq_none_iff.mp h)]

theorem split_unopened (h : opened s = none) : split s = some (.error missingOpening) := by
  rw [opened] at h
  split at h
  · cases h
  · next hno => exact if_neg hno

theorem split_opened (h : opened s = some t) : split s = scan t 0 (lines t) := by
  rw [opened] at h
  split at h
  · next hyes =>
    cases h
    exact if_pos hyes
  · cases h

theorem split_undelimited (h : delimited s = none) :
    split s = some (.error (if (opened s).isSome then missingClosing else missingOpening)) := by
  cases ho : opened s with
  | none => exact split_unopened ho
  | some t =>
    rw [delimited, ho, Option.bind_some] at h
    exact (split_opened ho).trans (scan_open t h 0)

/-- What ended the closing line stands between it and what follows. -/
theorem body_eq (b r : List Str) (c : Str) :
    ∃ e, b.flatten ++ c ++ r.flatten = b.flatten ++ trimEol c ++ (e ++ r.flatten) ∧
    ∀ x ∈ e, x = '\r' ∨ x = '\n' := by
  obtain ⟨e, he, hends⟩ := trimEol_append c
  refine ⟨e, ?_, hends⟩
  nth_rw 1 [← he]
  simp only [List.append_assoc]

theorem split_delimited (h : delimited s = some (b, c, r)) :
    ∃ at', at' + missed b = utf8Length b.flatten ∧
      split s = cutAt (b.flatten ++ c ++ r.flatten) at' (at' + utf8Length (trimEol c)) := by
  obtain ⟨t, ho, hclosed⟩ := Option.bind_eq_some_iff.mp h
  have hpieces := (closed_eq_some hclosed).1
  obtain ⟨at', hat, hscan⟩ := scan_closed t hclosed (ended_of_splitInclusive hpieces).1 0
  have ht : t = b.flatten ++ c ++ r.flatten := by
    rw [← flatten_splitInclusive t, hpieces, List.flatten_append, List.flatten_cons,
      List.append_assoc]
  refine ⟨at', by omega, ?_⟩
  rw [split_opened ho, lines, hscan, ht]

/-- Where the scan missed nothing, the body is what follows the closing line. -/
theorem split_exact (h : delimited s = some (b, c, r)) (hm : missed b = 0) :
    split s = some (.ok (trimEnd b.flatten, trimNewlines r.flatten)) := by
  obtain ⟨at', hat, hsplit⟩ := split_delimited h
  obtain ⟨e, hbody, hends⟩ := body_eq b r c
  rw [hm, Nat.add_zero] at hat
  have hfront : b.flatten ++ c ++ r.flatten = b.flatten ++ (c ++ r.flatten) :=
    List.append_assoc _ _ _
  rw [hsplit, hat, cutAt_eq_some]
  refine ⟨_, _, _, _, splitBytes_eq_some.mpr ⟨hfront, rfl⟩,
    splitBytes_eq_some.mpr ⟨hbody, utf8Length_append _ _⟩, ?_⟩
  rw [trimNewlines_of_all hends]

/-- Where it missed something, the body begins inside the closing line or before it. -/
theorem split_short (h : delimited s = some (b, c, r)) (hm : missed b ≠ 0)
    (hc : ∀ x ∈ trimEol c, isNewline x = false) (front : Str) :
    split s ≠ some (.ok (front, trimNewlines r.flatten)) := by
  intro hok
  obtain ⟨at', hat, hsplit⟩ := split_delimited h
  obtain ⟨e, hbody, -⟩ := body_eq b r c
  have hne : trimEol c ≠ [] := by
    intro hnil
    have hd := (closed_eq_some (Option.bind_eq_some_iff.mp h).choose_spec.2).2
    rw [hnil] at hd
    exact absurd hd (by decide)
  obtain ⟨l, x, hl⟩ := (List.eq_nil_or_concat (trimEol c)).resolve_left hne
  rw [hsplit, cutAt_eq_some] at hok
  obtain ⟨p, q, p', q', -, hcut, hres⟩ := hok
  have htrim : trimNewlines r.flatten = trimNewlines q' := congrArg Prod.snd (Except.ok.inj hres)
  obtain ⟨heq, hlen⟩ := splitBytes_eq_some.mp hcut
  rcases List.append_eq_append_iff.mp (hbody.symm.trans heq) with ⟨w, rfl, -⟩ | ⟨w, hw, rfl⟩
  · rw [utf8Length_append, utf8Length_append] at hlen
    omega
  · have hwne : w ≠ [] := by
      intro hnil
      rw [hnil, List.append_nil] at hw
      rw [← hw, utf8Length_append] at hlen
      omega
    obtain ⟨w', y, rfl⟩ := (List.eq_nil_or_concat w).resolve_left hwne
    have hxy : x = y := by
      rw [hl] at hw
      simpa using congrArg List.getLast? hw
    have hx : isNewline y = false := hxy ▸ hc x (by simp [hl])
    have hlt := length_trimNewlines_lt hx w' (e ++ r.flatten)
    have hle : (trimNewlines r.flatten).length ≤ r.flatten.length :=
      (List.dropWhile_sublist _).length_le
    rw [htrim, List.concat_eq_append, List.append_assoc, List.singleton_append] at hle
    rw [List.length_append] at hlt
    omega

theorem split_some (h : delimited s = some (b, c, r)) :
    split s ≠ none ↔ CutBefore (missed b) b.flatten ∧
    CutBefore (missed b) (b.flatten ++ trimEol c) := by
  obtain ⟨at', hat, hsplit⟩ := split_delimited h
  obtain ⟨e, hbody, -⟩ := body_eq b r c
  have hfront : b.flatten ++ c ++ r.flatten = b.flatten ++ (c ++ r.flatten) :=
    List.append_assoc _ _ _
  have hlen : at' + utf8Length (trimEol c) + missed b = utf8Length (b.flatten ++ trimEol c) := by
    rw [utf8Length_append]
    omega
  rw [← splitBytes_before (u := c ++ r.flatten) hat, ← splitBytes_before (u := e ++ r.flatten) hlen,
    ← hfront, ← hbody, hsplit, Option.ne_none_iff_exists']
  constructor
  · intro ⟨res, hres⟩
    obtain ⟨p, q, p', q', hp, hq, -⟩ := cutAt_eq_some.mp hres
    exact ⟨⟨p, q, hp⟩, p', q', hq⟩
  · intro ⟨⟨p, q, hp⟩, p', q', hq⟩
    exact ⟨_, cutAt_eq_some.mpr ⟨p, q, p', q', hp, hq, rfl⟩⟩

/-- Splitting does not panic where what the scan missed stands before both cuts and begins a
character there. -/
theorem split_total (s : Str) :
    split s ≠ none ↔ ∀ b c r, delimited s = some (b, c, r) → CutBefore (missed b) b.flatten ∧
    CutBefore (missed b) (b.flatten ++ trimEol c) := by
  cases h : delimited s with
  | none =>
    rw [split_undelimited h]
    simp
  | some d =>
    obtain ⟨b, c, r⟩ := d
    rw [split_some h]
    constructor
    · intro hcut b' c' r' heq
      cases heq
      exact hcut
    · intro hcut
      exact hcut b c r rfl

end

end Crabtalk.Skill

import Crabtalk.Skill.Md

/-!
# A skill file with either line ending

A file with line feeds is split at its delimiters. With carriage returns before
them the scan misses one byte for every line of the front matter: nothing when
it is empty, and otherwise the body begins with the end of the closing line or
the cut falls inside a character.
-/

open Basis

namespace Crabtalk.Skill

def crlf (s : Str) : Str := s.flatMap fun c => if c = '\n' then ['\r', '\n'] else [c]

section
variable {s t l p : Str} {ps b r : List Str} {c : Str}

@[simp] theorem crlf_nil : crlf [] = [] := rfl

@[simp] theorem crlf_append (s t : Str) : crlf (s ++ t) = crlf s ++ crlf t := List.flatMap_append

@[simp] theorem crlf_lf (s : Str) : crlf ('\n' :: s) = '\r' :: '\n' :: crlf s := rfl

theorem crlf_cons {c : Char} (h : c ≠ '\n') (s : Str) : crlf (c :: s) = c :: crlf s := by
  simp [crlf, h]

theorem crlf_of_notMem (h : '\n' ∉ l) : crlf l = l := by
  induction l with
  | nil => rfl
  | cons c l ih =>
    rw [List.mem_cons, not_or] at h
    rw [crlf_cons (Ne.symm h.1), ih h.2]

theorem crlf_flatten (ps : List Str) : (ps.map crlf).flatten = crlf ps.flatten := by
  induction ps with
  | nil => rfl
  | cons p ps ih => rw [List.map_cons, List.flatten_cons, ih, List.flatten_cons, crlf_append]

/-! ## The opening line -/

theorem dropWhile_crlf {f : Char → Bool} (hr : f '\r' = true) (hn : f '\n' = true) (s : Str) :
    (crlf s).dropWhile f = crlf (s.dropWhile f) := by
  induction s with
  | nil => rfl
  | cons c s ih =>
    by_cases hc : c = '\n'
    · rw [hc, crlf_lf, List.dropWhile_cons_of_pos hr, List.dropWhile_cons_of_pos hn, ih,
        List.dropWhile_cons_of_pos hn]
    · rw [crlf_cons hc]
      by_cases hf : f c = true
      · rw [List.dropWhile_cons_of_pos hf, List.dropWhile_cons_of_pos hf, ih]
      · rw [List.dropWhile_cons_of_neg hf, List.dropWhile_cons_of_neg hf, crlf_cons hc]

theorem prefix_crlf (hr : '\r' ∉ p) (hn : '\n' ∉ p) (s : Str) : p <+: crlf s ↔ p <+: s := by
  induction p generalizing s with
  | nil => simp
  | cons x p ih =>
    rw [List.mem_cons, not_or] at hr hn
    cases s with
    | nil => rfl
    | cons c s =>
      by_cases hc : c = '\n'
      · rw [hc, crlf_lf, List.cons_prefix_cons, List.cons_prefix_cons]
        simp [Ne.symm hr.1, Ne.symm hn.1]
      · rw [crlf_cons hc, List.cons_prefix_cons, List.cons_prefix_cons, ih hr.2 hn.2]

theorem opened_crlf (s : Str) : opened (crlf s) = (opened s).map crlf := by
  have hstart : trimStart (crlf s) = crlf (trimStart s) := dropWhile_crlf rfl rfl s
  rw [opened, opened, hstart]
  by_cases h : delimiter <+: trimStart s
  · have h' : delimiter <+: crlf (trimStart s) := (prefix_crlf (by decide) (by decide) _).mpr h
    rw [if_pos (List.isPrefixOf_iff_prefix.mpr h), if_pos (List.isPrefixOf_iff_prefix.mpr h')]
    obtain ⟨t, ht⟩ := h
    have hd : crlf delimiter = delimiter := by decide
    rw [← ht, crlf_append, hd, Option.map_some]
    exact congrArg some (dropWhile_crlf rfl rfl t)
  · have h' : ¬ delimiter <+: crlf (trimStart s) := fun hp =>
        h ((prefix_crlf (by decide) (by decide) _).mp hp)
    rw [if_neg (fun hp => h (List.isPrefixOf_iff_prefix.mp hp)),
      if_neg (fun hp => h' (List.isPrefixOf_iff_prefix.mp hp))]
    rfl

theorem opened_suffix (h : opened s = some t) : t <:+ s := by
  rw [opened] at h
  split at h
  · cases h
    exact ((List.dropWhile_suffix _).trans (List.drop_suffix _ _)).trans (List.dropWhile_suffix _)
  · cases h

/-! ## The lines -/

theorem splitInclusive_crlf (s : Str) : splitInclusive (crlf s) = (splitInclusive s).map crlf := by
  induction s using lines_induction with
  | nil => rfl
  | last l h hne => rw [crlf_of_notMem h, splitInclusive_last h hne, List.map_singleton,
      crlf_of_notMem h]
  | line l t h ih =>
    have hl : '\n' ∉ l ++ ['\r'] := by simp [h]
    have hline : crlf (l ++ '\n' :: t) = (l ++ ['\r']) ++ '\n' :: crlf t := by
      rw [crlf_append, crlf_of_notMem h, crlf_lf, List.append_assoc]
      rfl
    rw [hline, splitInclusive_line hl, splitInclusive_line h, List.map_cons, ih, crlf_append,
      crlf_of_notMem h, List.append_assoc]
    rfl

/-- A piece of a document without carriage returns: a line, ended or not. -/
theorem piece_cases (h : '\r' ∉ s) (hp : p ∈ splitInclusive s) : ∃ l, '\n' ∉ l ∧ '\r' ∉ l ∧
    (p = l ++ ['\n'] ∨ p = l) := by
  obtain ⟨b, r, hpieces⟩ := List.append_of_mem hp
  obtain ⟨l, hl, hend⟩ := (ended_of_splitInclusive hpieces).2
  have hcr : '\r' ∉ p := by
    intro hmem
    have hs : '\r' ∈ (splitInclusive s).flatten := List.mem_flatten_of_mem hp hmem
    rw [flatten_splitInclusive] at hs
    exact h hs
  rcases hend with rfl | ⟨rfl, -⟩
  · exact ⟨l, hl, fun hmem => hcr (List.mem_append_left _ hmem), .inl rfl⟩
  · exact ⟨p, hl, hcr, .inr rfl⟩

theorem trimEol_piece (h : '\r' ∉ s) (hp : p ∈ splitInclusive s) :
    trimEol (crlf p) = trimEol p ∧ '\r' ∉ trimEol p ∧ '\n' ∉ trimEol p := by
  obtain ⟨l, hn, hr, rfl | rfl⟩ := piece_cases h hp
  · rw [crlf_append, crlf_of_notMem hn, trimEol_lf hr]
    exact ⟨trimEol_crlf l, hr, hn⟩
  · rw [crlf_of_notMem hn, trimEol_open hn]
    exact ⟨rfl, hr, hn⟩

theorem closed_crlf (h : ∀ p ∈ ps, trimEol (crlf p) = trimEol p) :
    closed (ps.map crlf) = (closed ps).map fun (b, c, r) => (b.map crlf, crlf c, r.map crlf) := by
  induction ps with
  | nil => rfl
  | cons p ps ih =>
    rw [List.map_cons, closed, closed, h p List.mem_cons_self]
    split
    · rfl
    · rw [ih fun q hq => h q (List.mem_cons_of_mem _ hq), Option.map_map, Option.map_map]
      rfl

theorem delimited_crlf (h : '\r' ∉ s) :
    delimited (crlf s) = (delimited s).map fun (b, c, r) => (b.map crlf, crlf c, r.map crlf) := by
  rw [delimited, delimited, opened_crlf]
  cases ho : opened s with
  | none => rfl
  | some t =>
    have ht : '\r' ∉ t := fun hmem => h ((opened_suffix ho).mem hmem)
    rw [Option.map_some, Option.bind_some, Option.bind_some, splitInclusive_crlf,
      closed_crlf fun p hp => (trimEol_piece ht hp).1]

/-- What the scan misses: nothing, and one byte for each line. -/
theorem missed_lf (h : '\r' ∉ s) (hd : delimited s = some (b, c, r)) :
    missed b = 0 ∧ missed (b.map crlf) = b.length ∧ trimEol (crlf c) = trimEol c ∧
    ∀ x ∈ trimEol c, isNewline x = false := by
  obtain ⟨t, ho, hclosed⟩ := Option.bind_eq_some_iff.mp hd
  have ht : '\r' ∉ t := fun hmem => h ((opened_suffix ho).mem hmem)
  have hpieces := (closed_eq_some hclosed).1
  have hlines := (ended_of_splitInclusive hpieces).1
  have hpiece (p : Str) (hp : p ∈ b) : p ∈ splitInclusive t := hpieces ▸ List.mem_append_left _ hp
  obtain ⟨hc, hcr, hlf⟩ := trimEol_piece ht (hpieces ▸ List.mem_append_right b List.mem_cons_self)
  refine ⟨?_, ?_, hc, ?_⟩
  · refine List.countP_eq_zero.mpr fun p hp hsuf => ?_
    obtain ⟨l, hn, hr, hl⟩ := piece_cases ht (hpiece p hp)
    have hmem : '\r' ∈ p := (List.isSuffixOf_iff_suffix.mp hsuf).mem List.mem_cons_self
    rcases hl with rfl | rfl
    · simp [hr] at hmem
    · exact hr hmem
  · rw [missed, List.countP_map]
    refine List.countP_eq_length.mpr fun p hp => ?_
    obtain ⟨l, hn, rfl⟩ := hlines p hp
    refine List.isSuffixOf_iff_suffix.mpr ⟨l, ?_⟩
    rw [crlf_append, crlf_of_notMem hn]
    rfl
  · intro x hx
    have h1 : x ≠ '\n' := fun heq => hlf (heq ▸ hx)
    have h2 : x ≠ '\r' := fun heq => hcr (heq ▸ hx)
    simp [isNewline, h1, h2]

end

/-! ## Both line endings -/

/-- Splitting the other version gives the other version of each part, or the same error. -/
def SameSplit (d : Str) : Prop := split (crlf d) = (split d).map (Except.map (Prod.map crlf crlf))

/-- The body is what follows the closing line, without the newlines it begins with. -/
def BodyFollows (content : Str) : Prop :=
  ∀ b c r, delimited content = some (b, c, r) → ∃ frontmatter, split content =
    some (.ok (frontmatter, trimNewlines r.flatten))

def EmptyFront (content : Str) : Prop := ∀ b c r, delimited content = some (b, c, r) → b = []

/-- What the scan missed stands before both cuts and begins a character there. -/
def CutsWhole (content : Str) : Prop :=
  ∀ b c r, delimited content = some (b, c, r) →
    CutBefore (missed b) b.flatten ∧ CutBefore (missed b) (b.flatten ++ trimEol c)

theorem emptyFront_of_bodyFollows {d : Str} (h : '\r' ∉ d) (hbody : BodyFollows (crlf d)) :
    EmptyFront d := by
  intro b c r hd
  by_contra hne
  obtain ⟨-, hmissed, htrim, hc⟩ := missed_lf h hd
  have hcrlf : delimited (crlf d) = some (b.map crlf, crlf c, r.map crlf) := by
    rw [delimited_crlf h, hd, Option.map_some]
  obtain ⟨front, hsplit⟩ := hbody _ _ _ hcrlf
  refine split_short hcrlf ?_ (htrim ▸ hc) front hsplit
  rw [hmissed]
  exact fun hlen => hne (List.eq_nil_of_length_eq_zero hlen)

theorem bodyFollows_lf {d : Str} (h : '\r' ∉ d) : BodyFollows d :=
  fun _ _ _ hd => ⟨_, split_exact hd (missed_lf h hd).1⟩

theorem split_crlf {d : Str} (h : '\r' ∉ d) (hempty : EmptyFront d) : SameSplit d ∧
    BodyFollows (crlf d) := by
  cases hd : delimited d with
  | none =>
    have hcrlf : delimited (crlf d) = none := by rw [delimited_crlf h, hd, Option.map_none]
    refine ⟨?_, fun b c r hd' => ?_⟩
    · rw [SameSplit, split_undelimited hcrlf, split_undelimited hd, opened_crlf, Option.isSome_map]
      rfl
    · rw [hcrlf] at hd'
      cases hd'
  | some cut =>
    obtain ⟨b, c, r⟩ := cut
    cases hempty b c r hd
    have hcrlf : delimited (crlf d) = some ([], crlf c, r.map crlf) := by
      rw [delimited_crlf h, hd]
      rfl
    refine ⟨?_, fun b' c' r' hd' => ?_⟩
    · rw [SameSplit, split_exact hcrlf rfl, split_exact hd rfl, crlf_flatten]
      have hrest : trimNewlines (crlf r.flatten) = crlf (trimNewlines r.flatten) :=
        dropWhile_crlf rfl rfl _
      rw [hrest]
      rfl
    · rw [hcrlf] at hd'
      cases hd'
      exact ⟨_, split_exact hcrlf rfl⟩

theorem split_iff {d : Str} (h : '\r' ∉ d) (s : Str) :
    (SameSplit d ∧ BodyFollows d ∧ BodyFollows (crlf d) ↔ EmptyFront d) ∧
    (split s ≠ none ↔ CutsWhole s) := by
  refine ⟨⟨fun ⟨_, _, hbody⟩ => emptyFront_of_bodyFollows h hbody, fun hempty => ?_⟩, split_total s⟩
  obtain ⟨hsame, hbody⟩ := split_crlf h hempty
  exact ⟨hsame, bodyFollows_lf h, hbody⟩

def emptyFront : Str := "---\n---\nbody\n".toList

theorem split_iff_emptyFront : SameSplit emptyFront ∧ BodyFollows emptyFront ∧
    BodyFollows (crlf emptyFront) := by
  refine (split_iff (d := emptyFront) (by decide) emptyFront).1.mpr fun b c r h => ?_
  have hd : delimited emptyFront = some ([], "---\n".toList, ["body\n".toList]) := by decide
  rw [hd] at h
  cases h
  rfl

def oneLine : Str := "---\nname: x\n---\nbody\n".toList

def threeLines : Str := "---\r\na\r\nb\r\né\r\n---\r\n".toList

theorem not_split_oneLine :
    ('\r' ∉ oneLine ∧ ¬ SameSplit oneLine ∧ ¬ BodyFollows (crlf oneLine)) ∧
    split threeLines = none := by
  have hlf : split oneLine = some (.ok ("name: x".toList, "body\n".toList)) := by decide
  have hcrlf : split (crlf oneLine) = some (.ok ("name: x".toList, "-\r\nbody\r\n".toList)) := by decide
  have hd : delimited (crlf oneLine) = some (["name: x\r\n".toList], "---\r\n".toList,
      ["body\r\n".toList]) := by decide
  refine ⟨⟨by decide, fun hsame => ?_, fun hbody => ?_⟩, by decide⟩
  · rw [SameSplit, hcrlf, hlf] at hsame
    revert hsame
    decide
  · obtain ⟨front, hsplit⟩ := hbody _ _ _ hd
    rw [hcrlf] at hsplit
    have hb : "-\r\nbody\r\n".toList = trimNewlines ["body\r\n".toList].flatten :=
      congrArg Prod.snd (Except.ok.inj (Option.some.inj hsplit))
    exact absurd hb (by decide)

end Crabtalk.Skill

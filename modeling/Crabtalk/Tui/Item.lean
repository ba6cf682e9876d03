import Crabtalk.Tui.Transcript

/-!
# A tool on the screen

A call is shown by its label and what came back by a few of its lines. What
does not fit in the width is cut, and the width is counted in bytes.
-/

open Basis
open Crabtalk.Store (Str)
open Crabtalk.System (Json)

namespace Crabtalk.Tui

/-! ## Cuts that may panic -/

theorem mapM_some_iff {α β : Type} {f : α → Option β} {l : List α} {bs : List β} :
    l.mapM f = some bs ↔ List.Forall₂ (fun a b => f a = some b) l bs := by
  induction l generalizing bs with
  | nil =>
    rw [List.mapM_nil, List.forall₂_nil_left_iff]
    exact ⟨fun h => (Option.some.inj h).symm, fun h => h ▸ rfl⟩
  | cons a l ih =>
    simp only [List.mapM_cons, Option.bind_eq_bind, Option.bind_eq_some_iff, Option.pure_def,
      Option.some.injEq]
    constructor
    · intro ⟨b, hb, bs', hbs, heq⟩
      exact heq ▸ .cons hb (ih.mp hbs)
    · intro h
      cases h with
      | cons hb hbs => exact ⟨_, hb, _, ih.mpr hbs, rfl⟩

theorem exists_mapM_iff {α β : Type} {f : α → Option β} {l : List α} : (∃ bs, l.mapM f = some bs) ↔
    ∀ a ∈ l, ∃ b, f a = some b := by
  simp only [mapM_some_iff]
  induction l with
  | nil => exact iff_of_true ⟨[], .nil⟩ fun a ha => by cases ha
  | cons a l ih =>
    rw [List.forall_mem_cons, ← ih]
    constructor
    · intro ⟨bs, h⟩
      cases h with
      | cons hb hbs => exact ⟨⟨_, hb⟩, _, hbs⟩
    · intro ⟨⟨b, hb⟩, bs, hbs⟩
      exact ⟨b :: bs, .cons hb hbs⟩

/-! ## Output -/

def pad : Str := "  ".toList

def resultLinesOk : Nat := 5

def resultLinesFailed : Nat := 10

section
variable [TuiStd]

/-- The first `max` lines that are not empty, and how many there were. Of the output of a shell, the
stream that has something in it. -/
def elide (output : Str) (max : Nat) : List Str × Nat :=
  let text :=
    match TuiStd.fromStr output with
    | some value =>
      let field := fun name => ((value.get name).bind Json.asStr).getD []
      let stdout := field "stdout".toList
      let stderr := field "stderr".toList
      let code := (value.get "exit_code".toList).bind Json.asI64
      if (code = some 0 ∨ code = none) ∧ stdout ≠ [] then stdout
      else if code ≠ none ∧ stderr ≠ [] then stderr
      else if stdout = [] then stderr
      else stdout
    | none => output
  let all := (lines text).filter fun line => line ≠ []
  (all.take max, all.length)

def shorten (room : Nat) (line : Str) : Option Str :=
  if room < utf8Length line then (splitBytes (room - 3) line).map fun cut =>
    cut.1 ++ "...".toList else some line

def resultRows (texts : List Str) (more : Nat) : List (List Str) :=
  (texts.mapIdx fun i text => if i = 0 then [pad, "⎿ ".toList, text]
    else [pad ++ "  ".toList, text]) ++
    if 0 < more then [[pad ++ "  ".toList, "… +".toList ++ Nat.toDigits 10 more ++ " lines".toList]] else []

/-- None where a cut panics. -/
def resultLines (output : Str) (failed : Bool) (width : Nat) : Option (List (List Str)) :=
  let (shown, total) := elide output (if failed then resultLinesFailed else resultLinesOk)
  let room := width - (utf8Length pad + 2)
  if shown = [] then some [[pad, "⎿ ".toList, "(no output)".toList]]
  else (shown.mapM (shorten room)).map fun texts => resultRows texts (total - shown.length)

/-! ## Fragments -/

def Fragment (line text : Str) : Prop := text = line ∨ ∃ p, p <+: line ∧ text = p ++ "...".toList

def commandOf (name args : Str) : Option Str :=
  if name = "bash".toList then ((TuiStd.fromStr args).bind fun value =>
    value.get "command".toList).bind Json.asStr else none

def firstLine (command : Str) : Str := (lines command).headD command

structure LabelShows (name args label : Str) : Prop where
  named : commandOf name args = none → label = TuiStd.toUpperCamelCase name
  commanded : ∀ command, commandOf name args = some command →
    ∃ text, Fragment (firstLine command) text ∧ label = "Bash(".toList ++ text ++ ")".toList

/-- The lines that are shown, and how many are not. -/
def ResultShows (output : Str) (failed : Bool) (rows : List (List Str)) : Prop :=
  let (shown, total) := elide output (if failed then resultLinesFailed else resultLinesOk)
  (shown = [] → rows = [[pad, "⎿ ".toList, "(no output)".toList]]) ∧
    (shown ≠ [] → ∃ texts, List.Forall₂ Fragment shown texts ∧
      rows = resultRows texts (total - shown.length))

variable {name args command line text : Str} {width room : Nat}

omit [TuiStd] in
theorem shorten_iff : (∃ text, shorten room line = some text) ↔
    (room < utf8Length line → Boundary (room - 3) line) := by
  rw [shorten]
  split
  · next hlong =>
    rw [forall_prop_of_true hlong, ← splitBytes_iff]
    constructor
    · intro ⟨text, h⟩
      obtain ⟨cut, hcut, -⟩ := Option.map_eq_some_iff.mp h
      exact ⟨cut, hcut⟩
    · intro ⟨cut, hcut⟩
      exact ⟨_, by rw [hcut]; rfl⟩
  · next hshort => exact iff_of_true ⟨line, rfl⟩ fun hlong => absurd hlong hshort

omit [TuiStd] in
theorem fragment_shorten (h : shorten room line = some text) : Fragment line text := by
  rw [shorten] at h
  split at h
  · obtain ⟨⟨p, q⟩, hcut, rfl⟩ := Option.map_eq_some_iff.mp h
    exact .inr ⟨p, ⟨q, (splitBytes_eq_some.mp hcut).1.symm⟩, rfl⟩
  · cases h
    exact .inl rfl

/-! ## Cuts -/

theorem label_command (h : commandOf name args = some command) :
    label name args width =
      (if width - 8 < utf8Length (firstLine command) then
          (splitBytes (width - 8) (firstLine command)).map fun cut => cut.1 ++ "...".toList
        else if utf8Length (firstLine command) < utf8Length command
        then some (firstLine command ++ "...".toList)
        else some (firstLine command)).map fun shown => "Bash(".toList ++ shown ++ ")".toList := by
  rw [commandOf] at h
  split at h
  · next hname =>
    rw [label, if_neg (not_not.mpr hname), h]
    rfl
  · cases h

theorem label_other (h : commandOf name args = none) :
    label name args width = some (TuiStd.toUpperCamelCase name) := by
  rw [commandOf] at h
  split at h
  · next hname => rw [label, if_neg (not_not.mpr hname), h]
  · next hname => rw [label, if_pos hname]

theorem label_shown (name args : Str) (width : Nat) :
    (∃ l, label name args width = some l ∧ LabelShows name args l) ↔
      ∀ command, commandOf name args = some command → width - 8 < utf8Length (firstLine command) →
      Boundary (width - 8) (firstLine command) := by
  cases hc : commandOf name args with
  | none =>
    refine iff_of_true ⟨_, label_other hc, fun _ => rfl, fun command h => ?_⟩ fun command h => by cases h
    rw [hc] at h
    cases h
  | some command =>
    have hshows {text : Str} (hf : Fragment (firstLine command) text) :
        LabelShows name args ("Bash(".toList ++ text ++ ")".toList) := by
      refine ⟨fun h => ?_, fun c h => ?_⟩
      · rw [hc] at h
        cases h
      · rw [hc] at h
        cases h
        exact ⟨text, hf, rfl⟩
    rw [label_command hc]
    split
    · next hlong =>
      constructor
      · intro ⟨l, hl, _⟩ c heq _
        cases heq
        obtain ⟨text, htext, -⟩ := Option.map_eq_some_iff.mp hl
        obtain ⟨cut, hcut, -⟩ := Option.map_eq_some_iff.mp htext
        exact splitBytes_iff.mp ⟨cut, hcut⟩
      · intro h
        obtain ⟨⟨p, q⟩, hcut⟩ := splitBytes_iff.mpr (h command rfl hlong)
        have hp : p <+: firstLine command := ⟨q, (splitBytes_eq_some.mp hcut).1.symm⟩
        exact ⟨_, by rw [hcut]; rfl, hshows (.inr ⟨p, hp, rfl⟩)⟩
    · next hshort =>
      refine iff_of_true ?_ fun c heq hlong => ?_
      · split
        · exact ⟨_, rfl, hshows (.inr ⟨_, List.prefix_refl _, rfl⟩)⟩
        · exact ⟨_, rfl, hshows (.inl rfl)⟩
      · cases heq
        exact absurd hlong hshort

theorem result_shown (output : Str) (failed : Bool) (width : Nat) :
    (∃ rows, resultLines output failed width = some rows ∧ ResultShows output failed rows) ↔
      ∀ line ∈ (elide output (if failed then resultLinesFailed else resultLinesOk)).1,
        width - 4 < utf8Length line → Boundary (width - 4 - 3) line := by
  unfold resultLines ResultShows
  generalize elide output (if failed then resultLinesFailed else resultLinesOk) = shown
  obtain ⟨shown, total⟩ := shown
  have hroom : width - (utf8Length pad + 2) = width - 4 := rfl
  simp only [hroom]
  split
  · next hnil =>
    subst hnil
    exact iff_of_true ⟨_, rfl, fun _ => rfl, fun h => absurd rfl h⟩ fun line hline => by cases hline
  · next hne =>
    constructor
    · intro ⟨rows, hrows, _⟩ line hline
      obtain ⟨texts, htexts, -⟩ := Option.map_eq_some_iff.mp hrows
      exact shorten_iff.mp (exists_mapM_iff.mp ⟨texts, htexts⟩ line hline)
    · intro h
      obtain ⟨texts, htexts⟩ := exists_mapM_iff.mpr fun line hline => shorten_iff.mpr (h line hline)
      have hfragments : List.Forall₂ Fragment shown texts :=
        (mapM_some_iff.mp htexts).imp fun _ _ => fragment_shorten
      exact ⟨_, by rw [htexts]; rfl, fun hnil => absurd hnil hne, fun _ => ⟨texts, hfragments, rfl⟩⟩

/-- A tool is shown, its label and its lines as they are or as they begin, where every cut is
between two characters. -/
theorem tool_shown (name args output : Str) (failed : Bool) (labelWidth width : Nat) :
    ((∃ l, label name args labelWidth = some l ∧ LabelShows name args l) ∧
        ∃ rows, resultLines output failed width = some rows ∧ ResultShows output failed rows) ↔
      (∀ command, commandOf name args = some command →
        labelWidth - 8 < utf8Length (firstLine command) →
        Boundary (labelWidth - 8) (firstLine command)) ∧
      ∀ line ∈ (elide output (if failed then resultLinesFailed else resultLinesOk)).1,
        width - 4 < utf8Length line → Boundary (width - 4 - 3) line := by
  rw [label_shown, result_shown]

end

abbrev wordStd : TuiStd where
  toUpperCamelCase
    | [] => []
    | c :: name => c.toUpper :: name
  fromStr _ := none

/-- A letter of two bytes across the cut. -/
theorem tool_not_shown :
    ¬ ((∃ l, @label wordStd "read".toList [] 80 = some l ∧ @LabelShows wordStd "read".toList [] l) ∧
      ∃ rows, @resultLines wordStd "éaaa".toList false 8 = some rows ∧
      @ResultShows wordStd "éaaa".toList false rows) := by
  intro ⟨_, rows, hrows, _⟩
  have hnone : @resultLines wordStd "éaaa".toList false 8 = none := by decide
  rw [hnone] at hrows
  cases hrows

end Crabtalk.Tui

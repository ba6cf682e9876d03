import Crabtalk.Basis.ColumnMap
import Crabtalk.Basis.FileSystem
import Crabtalk.Skill.Md

/-!
# Finding skills on disk

Listing visits every directory of every root and keeps the first skill that
parses under each directory name. Loading goes to the first root in which the
name has a skill file, and what that file gives is the answer.
-/

open Basis
open Crabtalk.Skill (Str split)

namespace Crabtalk.Discover

structure Frontmatter where
  name : Str
  description : Str
  license : Option Str
  compatibility : Option Str
  metadata : Std.ExtTreeMap Str Str compare
  allowedTools : List Str

structure Skill where
  name : Str
  description : Str
  license : Option Str
  compatibility : Option Str
  metadata : Std.ExtTreeMap Str Str compare
  allowedTools : List Str
  body : Str

/-- `from_str`, with `none` where splitting panics. `yaml` reads the front matter. -/
def parse (yaml : Str → Except Str Frontmatter) (content : Str) : Option (Except Str Skill) :=
  (split content).map fun cut => do
    let (frontmatter, body) ← cut
    let fm ← yaml frontmatter
    return {
      name := fm.name
      description := fm.description
      license := fm.license
      compatibility := fm.compatibility
      metadata := fm.metadata
      allowedTools := fm.allowedTools
      body := body }

/-! ## Files -/

def FileName := { s : Str // s ≠ [] ∧ '/' ∉ s ∧ s ≠ ".".toList ∧ s ≠ "..".toList }

instance : DecidableEq FileName := inferInstanceAs (DecidableEq (Subtype _))

abbrev FilePath := List (Component Str)

/-- A file system and what reading a directory of it lists until the end or an
error, with `none` for a name that is not UTF-8. A file holds what reading it as
a string gives. -/
structure Disk where
  files : FileSystem Str (Except Str Str)
  listing : List Str → List (Option FileName)

def parseName (name : Str) : Component Str := if name = "..".toList then .parentDir
    else .normal name

def components (s : Str) : FilePath :=
  ((s.splitOn '/').filter fun name => name ≠ [] ∧ name ≠ ".".toList).map parseName

def join (path : FilePath) (s : Str) : FilePath :=
  if s.head? = some '/' then .rootDir :: components s else path ++ components s

def notFound : Str := "No such file or directory (os error 2)".toList

def isADirectory : Str := "Is a directory (os error 21)".toList

namespace Disk
variable (disk : Disk)

def existsAt (path : FilePath) : Bool := (disk.files.stat path).isSome

def isDir (path : FilePath) : Bool :=
  match disk.files.stat path with
  | none => false
  | some loc => disk.files.isDir loc

def readDir (path : FilePath) : Option (List (Option FileName)) :=
  match disk.files.stat path with
  | none => none
  | some loc => if disk.files.isDir loc then some (disk.listing loc) else none

def readToString (path : FilePath) : Except Str Str :=
  match disk.files.stat path with
  | none => .error notFound
  | some loc =>
    match disk.files.node loc with
    | some (.file text) => text
    | _ => .error isADirectory

end Disk

section
variable (disk : Disk) (yaml : Str → Except Str Frontmatter)

def skillMd : Str := "SKILL.md".toList

/-! ## Listing and loading -/

def visit (root : FilePath) (skills : List (FileName × Skill)) : Option FileName →
    Option (List (FileName × Skill))
  | none => some skills
  | some name =>
    let path := join root name.1
    if !disk.isDir path then some skills
    else if name.1.head? = some '.' then some skills
    else if name ∈ skills.map (·.1) then some skills
    else
      let skillPath := join path skillMd
      if !disk.existsAt skillPath then some skills
      else
        match disk.readToString skillPath with
        | .error _ => some skills
        | .ok content =>
          match parse yaml content with
          | none => none
          | some (.error _) => some skills
          | some (.ok skill) => some (skills ++ [(name, skill)])

def visitRoot (skills : List (FileName × Skill)) (root : FilePath) :
    Option (List (FileName × Skill)) :=
  if !disk.existsAt root then some skills
  else
    match disk.readDir root with
    | none => some skills
    | some entries => entries.foldlM (visit disk yaml root) skills

def walk (roots : List FilePath) : Option (List (FileName × Skill)) :=
  roots.foldlM (visitRoot disk yaml) []

/-- `none` where a parse panics. -/
def list (roots : List FilePath) : Option (List Skill) := (walk disk yaml roots).map fun skills =>
    skills.map (·.2)

def load : List FilePath → Str → Option (Except Str (Option Skill))
  | [], _ => some (.ok none)
  | root :: roots, name =>
    let skillPath := join (join root name) skillMd
    if !disk.existsAt skillPath then load roots name
    else
      match disk.readToString skillPath with
      | .error e => some (.error e)
      | .ok content => (parse yaml content).map fun skill => skill.map some

/-! ## What each finds -/

def has (name : Str) (root : FilePath) : Bool := disk.existsAt (join (join root name) skillMd)

def parsed (root : FilePath) (name : Str) : Option (Except Str Skill) :=
  match disk.readToString (join (join root name) skillMd) with
  | .error e => some (.error e)
  | .ok content => parse yaml content

def skillAt (root : FilePath) (name : Str) : Option Skill :=
  (parsed disk yaml root name).bind Except.toOption

def names (root : FilePath) : List (Option FileName) := (disk.readDir root).getD []

def offer (name : FileName) (root : FilePath) : Option Skill :=
  if some name ∈ names disk root then skillAt disk yaml root name.1 else none

def hidden (name : FileName) : Bool := name.1.head? = some '.'

def visits (roots : List FilePath) : List (FilePath × Option FileName) :=
  roots.flatMap fun root => (names disk root).map fun name => (root, name)

def candidate : FilePath × Option FileName → Option (FileName × Skill)
  | (_, none) => none
  | (root, some name) =>
    if hidden name then none else (skillAt disk yaml root name.1).map fun skill => (name, skill)

def candidates (l : List (FilePath × Option FileName)) : List (FileName × Skill) :=
  l.filterMap (candidate disk yaml)

/-- What would panic is not parsed: there is a skill of that name before it. -/
def Quiet (l : List (FilePath × Option FileName)) : Prop :=
  ∀ A root name B, l = A ++ (root, some name) :: B → hidden name = false →
    parsed disk yaml root name.1 = none →
    ∃ c ∈ candidates disk yaml A, c.1 = name

end

/-! ## The first of each name -/

section
variable {α β : Type} [DecidableEq α] {a : α} {b : β} {c : α × β} {acc cs : List (α × β)}

def keepFirst (acc : List (α × β)) (c : α × β) : List (α × β) :=
  if c.1 ∈ acc.map (·.1) then acc else acc ++ [c]

theorem keys_keepFirst (acc cs : List (α × β)) : a ∈ (cs.foldl keepFirst acc).map (·.1) ↔
    a ∈ acc.map (·.1) ∨ a ∈ cs.map (·.1) := by
  induction cs generalizing acc with
  | nil => simp
  | cons c cs ih =>
    rw [List.foldl_cons, ih, keepFirst, List.map_cons, List.mem_cons]
    by_cases hc : c.1 ∈ acc.map (·.1)
    · rw [if_pos hc]
      constructor
      · exact fun h => h.imp_right .inr
      · intro h
        rcases h with hacc | rfl | hcs
        · exact .inl hacc
        · exact .inl hc
        · exact .inr hcs
    · rw [if_neg hc, List.map_append, List.mem_append, List.map_singleton,
        List.mem_singleton, or_assoc]

theorem mem_keepFirst (acc cs : List (α × β)) :
    (a, b) ∈ cs.foldl keepFirst acc ↔ (a, b) ∈ acc ∨ a ∉ acc.map (·.1) ∧
    cs.find? (fun c => c.1 = a) = some (a, b) := by
  induction cs generalizing acc with
  | nil => simp
  | cons c cs ih =>
    rw [List.foldl_cons, ih, keepFirst]
    by_cases hc : c.1 ∈ acc.map (·.1)
    · rw [if_pos hc]
      refine or_congr_right (and_congr_right fun ha => ?_)
      have hne : c.1 ≠ a := fun heq => ha (heq ▸ hc)
      rw [List.find?_cons_of_neg (by simpa using hne)]
    · rw [if_neg hc, List.map_append, List.mem_append, List.mem_append, List.map_singleton,
        List.mem_singleton, List.mem_singleton]
      by_cases ha : c.1 = a
      · subst ha
        rw [List.find?_cons_of_pos (by simp), Option.some_inj]
        have hnot : (c.1, b) ∉ acc := fun h => hc (List.mem_map.mpr ⟨_, h, rfl⟩)
        simp [hc, hnot, eq_comm]
      · have hne : (a, b) ≠ c := fun h => ha (h ▸ rfl)
        rw [List.find?_cons_of_neg (by simpa using ha)]
        simp [hne, Ne.symm ha]

end

section
variable {disk : Disk} {yaml : Str → Except Str Frontmatter} {root : FilePath}
  {roots : List FilePath} {name : FileName}
  {s : Skill} {skills : List (FileName × Skill)} {l : List (FilePath × Option FileName)}
    {v : FilePath × Option FileName}

theorem components_fileName (name : FileName) : components name.1 = [.normal name.1] := by
  obtain ⟨name, hne, hslash, hdot, hdots⟩ := name
  have hkeep : [name].filter (fun name => name ≠ [] ∧ name ≠ ".".toList) = [name] :=
    List.filter_eq_self.mpr fun n hn => decide_eq_true (List.mem_singleton.mp hn ▸ ⟨hne, hdot⟩)
  rw [components, List.splitOn_eq_singleton hslash, hkeep, List.map_singleton, parseName, if_neg hdots]

theorem join_fileName (root : FilePath) (name : FileName) :
    join root name.1 = root ++ [.normal name.1] := by
  have hrel : name.1.head? ≠ some '/' := fun h => name.2.2.1 (List.mem_of_head? h)
  rw [join, if_neg hrel, components_fileName]

theorem isDir_of_exists {path : FilePath} (hne : path ≠ [])
    (h : disk.existsAt (join path skillMd)) : disk.isDir path := by
  have hjoin : join path skillMd = path ++ [.normal skillMd] := rfl
  rw [Disk.existsAt, hjoin, FileSystem.stat, if_neg (by simp), Option.isSome_iff_exists] at h
  obtain ⟨loc, hloc⟩ := h
  obtain ⟨dir, hdir⟩ := FileSystem.walk_front hloc
  obtain ⟨left, hleft⟩ := FileSystem.walk_append hdir
  rw [hleft] at hloc
  rw [Disk.isDir, FileSystem.stat, if_neg (by simpa using hne), hdir]
  by_contra hnot
  rw [FileSystem.walk_not_dir (by simpa using hnot)] at hloc
  cases hloc

theorem readToString_missing {path : FilePath} (h : disk.existsAt path = false) :
    disk.readToString path = .error notFound := by
  rw [Disk.existsAt, Option.isSome_eq_false_iff, Option.isNone_iff_eq_none] at h
  rw [Disk.readToString, h]

theorem parsed_missing {name : Str} (h : has disk name root = false) :
    parsed disk yaml root name = some (.error notFound) := by
  rw [parsed, readToString_missing h]

/-! ## Listing -/

theorem visit_some (root : FilePath) (skills : List (FileName × Skill)) (name : FileName) :
    visit disk yaml root skills (some name) =
      if hidden name = true ∨ name ∈ skills.map (·.1) then some skills
      else (parsed disk yaml root name.1).map fun r => r.toOption.elim skills fun skill =>
      skills ++ [(name, skill)] := by
  by_cases hhas : has disk name.1 root = true
  · have hexists : disk.existsAt (join (join root name.1) skillMd) = true := hhas
    have hdir : disk.isDir (join root name.1) = true :=
      isDir_of_exists (by simp [join_fileName]) hexists
    simp only [visit, hexists, hdir, hidden, parsed, Bool.not_true, Bool.false_eq_true, if_false,
      decide_eq_true_eq]
    by_cases hdot : name.1.head? = some '.'
    · simp [hdot]
    · by_cases hseen : name ∈ skills.map (·.1)
      · simp [hdot, hseen]
      · rw [if_neg hdot, if_neg hseen, if_neg (by simp [hdot, hseen])]
        cases disk.readToString (join (join root name.1) skillMd) with
        | error e => rfl
        | ok content =>
          cases hparse : parse yaml content with
          | none => simp [hparse]
          | some r => cases r <;> simp [hparse, Except.toOption]
  · rw [Bool.not_eq_true] at hhas
    have hexists : disk.existsAt (join (join root name.1) skillMd) = false := hhas
    rw [parsed_missing hhas]
    simp [visit, hexists, Except.toOption]

theorem foldlM_visits (roots : List FilePath) (skills : List (FileName × Skill)) :
    roots.foldlM (visitRoot disk yaml) skills = (visits disk roots).foldlM
    (fun skills v => visit disk yaml v.1 skills v.2) skills := by
  induction roots generalizing skills with
  | nil => rfl
  | cons root roots ih =>
    have hroot : visitRoot disk yaml skills root = (names disk root).foldlM
        (visit disk yaml root) skills := by
      rw [visitRoot, names]
      cases hexists : disk.existsAt root with
      | false =>
        rw [Disk.existsAt, Option.isSome_eq_false_iff, Option.isNone_iff_eq_none] at hexists
        simp [Disk.readDir, hexists]
      | true => cases disk.readDir root <;> rfl
    rw [List.foldlM_cons, hroot, visits, List.flatMap_cons, List.foldlM_append, List.foldlM_map]
    exact bind_congr fun skills => ih skills

theorem candidates_concat (l : List (FilePath × Option FileName)) (v : FilePath × Option FileName) :
    candidates disk yaml (l ++ [v]) = candidates disk yaml l ++ (candidate disk yaml v).toList := by
  rw [candidates, List.filterMap_append, candidates]
  cases h : candidate disk yaml v <;> simp [h]

theorem quiet_concat : Quiet disk yaml (l ++ [v]) ↔
    Quiet disk yaml l ∧ ∀ name, v.2 = some name → hidden name = false →
    parsed disk yaml v.1 name.1 = none → ∃ c ∈ candidates disk yaml l, c.1 = name := by
  constructor
  · intro h
    refine ⟨fun A root name B hl => h A root name (B ++ [v]) (by simp [hl]),
      fun name hv => h l v.1 name [] (by rw [← hv])⟩
  · intro ⟨hl, hv⟩ A root name B heq
    rcases List.eq_nil_or_concat B with rfl | ⟨B, x, rfl⟩
    · obtain ⟨rfl, hx⟩ := List.append_inj' heq rfl
      obtain ⟨rfl, -⟩ := List.cons.inj hx
      exact hv name rfl
    · rw [List.concat_eq_append, ← List.cons_append, ← List.append_assoc] at heq
      exact hl A root name B (List.append_inj' heq rfl).1

theorem visit_quiet (h : ∀ name, v.2 = some name → hidden name = false →
    parsed disk yaml v.1 name.1 = none → name ∈ skills.map (·.1)) :
    visit disk yaml v.1 skills v.2 = some ((candidate disk yaml v).toList.foldl keepFirst skills) := by
  obtain ⟨root, entry⟩ := v
  cases entry with
  | none => rfl
  | some name =>
    dsimp only at h ⊢
    rw [visit_some, candidate]
    cases hdot : hidden name with
    | true => simp
    | false =>
      have hshown : (if false = true then none else (skillAt disk yaml root name.1).map fun skill =>
          (name, skill)) =
          (skillAt disk yaml root name.1).map fun skill => (name, skill) := rfl
      rw [hshown]
      by_cases hseen : name ∈ skills.map (·.1)
      · rw [if_pos (.inr hseen)]
        cases skillAt disk yaml root name.1 with
        | none => rfl
        | some s => simp [keepFirst, hseen]
      · rw [if_neg (by simp [hseen]), skillAt]
        cases hparsed : parsed disk yaml root name.1 with
        | none => exact absurd (h name rfl hdot hparsed) hseen
        | some r =>
          cases r with
          | error e => rfl
          | ok s => simp [keepFirst, hseen, Except.toOption]

theorem visit_loud (hentry : v.2 = some name) (hdot : hidden name = false)
    (hpanic : parsed disk yaml v.1 name.1 = none)
    (hnew : name ∉ skills.map (·.1)) : visit disk yaml v.1 skills v.2 = none := by
  rw [hentry, visit_some, if_neg (by simp [hdot, hnew]), hpanic, Option.map_none]

/-- Of each directory name the first that is read and parsed, unless a parse panics before. -/
theorem foldlM_visit (l : List (FilePath × Option FileName)) :
    (Quiet disk yaml l → l.foldlM (fun skills v => visit disk yaml v.1 skills v.2) [] =
      some ((candidates disk yaml l).foldl keepFirst [])) ∧
      (¬ Quiet disk yaml l → l.foldlM (fun skills v => visit disk yaml v.1 skills v.2) [] = none) := by
  induction l using List.reverseRecOn with
  | nil => exact ⟨fun _ => rfl, fun hloud => absurd (fun A root name B h => by simp at h) hloud⟩
  | append_singleton l v ih =>
    have hseen (name : FileName) :
        name ∈ ((candidates disk yaml l).foldl keepFirst []).map (·.1) ↔
        ∃ c ∈ candidates disk yaml l, c.1 = name := by
      rw [keys_keepFirst, List.mem_map]
      simp
    have hsingle (skills : List (FileName × Skill)) :
        [v].foldlM (fun skills v => visit disk yaml v.1 skills v.2) skills =
        visit disk yaml v.1 skills v.2 := by simp
    rw [List.foldlM_append, quiet_concat, candidates_concat, List.foldl_append]
    by_cases hquiet : Quiet disk yaml l
    · rw [ih.1 hquiet, Option.bind_eq_bind, Option.bind_some, hsingle]
      constructor
      · intro h
        exact visit_quiet fun name hname hdot hpanic =>
          (hseen name).mpr (h.2 name hname hdot hpanic)
      · intro h
        by_contra hvisit
        refine h ⟨hquiet, fun name hname hdot hpanic => ?_⟩
        by_contra hnew
        exact hvisit (visit_loud hname hdot hpanic (mt (hseen name).mp hnew))
    · rw [ih.2 hquiet]
      exact ⟨fun h => absurd h.1 hquiet, fun _ => rfl⟩

theorem walk_eq_some : walk disk yaml roots = some skills ↔
    Quiet disk yaml (visits disk roots) ∧
    skills = (candidates disk yaml (visits disk roots)).foldl keepFirst [] := by
  rw [walk, foldlM_visits]
  by_cases hquiet : Quiet disk yaml (visits disk roots)
  · rw [(foldlM_visit _).1 hquiet, Option.some_inj, and_iff_right hquiet, eq_comm]
  · rw [(foldlM_visit _).2 hquiet]
    simp [hquiet]

end

end Crabtalk.Discover

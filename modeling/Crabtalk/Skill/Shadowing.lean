import Crabtalk.Skill.Discover

/-!
# Listing against loading

A loaded skill comes from the first root that has the name, a listed one from
the first that lists it with a file that parses. They agree on the directory
names of the roots exactly when no root breaks what another has, no directory
is hidden and each is named in its front matter as on disk. On every name a
path can be spelt with they agree only where nothing is found.
-/

open Basis
open Crabtalk.Skill (Str split)

namespace Crabtalk.Discover

section
variable (disk : Disk) (yaml : Str → Except Str Frontmatter) (roots : List FilePath)

/-- What listing and loading promise each other: the listed are what is loaded
under their names, what is loaded is listed, and each name once. -/
structure Agree (skills : List Skill) : Prop where
  listed : ∀ s ∈ skills, load disk yaml roots s.name = some (.ok (some s))
  loaded : ∀ name s, load disk yaml roots name = some (.ok (some s)) → ∃ s' ∈ skills, s'.name = name
  first : ∀ name s, load disk yaml roots name = some (.ok (some s)) →
    ∃ root, roots.find? (has disk name) = some root ∧ skillAt disk yaml root name = some s
  once : (skills.map (·.name)).Nodup

def Agrees : Prop := ∃ skills, list disk yaml roots = some skills ∧ Agree disk yaml roots skills

/-- No directory that is listed has a skill file that parses, and under no name is the first one
that parses. -/
structure Bare : Prop where
  unlisted : ∀ root ∈ roots, ∀ name, some name ∈ names disk root → hidden name = false →
    skillAt disk yaml root name.1 = none ∧ parsed disk yaml root name.1 ≠ none
  unloaded : ∀ name root, roots.find? (has disk name) = some root →
    skillAt disk yaml root name = none

/-- The same for the names of directories: the skills kept under a name are those loaded under it,
and have it. -/
def AgreesNames : Prop :=
  ∃ skills, walk disk yaml roots = some skills ∧ (∀ name s, (name, s) ∈ skills → s.name = name.1) ∧
    ∀ name s, (name, s) ∈ skills ↔ load disk yaml roots name.1 = some (.ok (some s))

structure Tidy : Prop where
  /-- No parse panics. -/
  quiet : Quiet disk yaml (visits disk roots)
  /-- What the first root has is not hidden, has its own name, and is what the first root to list it offers. -/
  shown : ∀ name root s, roots.find? (has disk name.1) = some root →
    skillAt disk yaml root name.1 = some s →
    hidden name = false ∧ s.name = name.1 ∧ roots.findSome? (offer disk yaml name) = some s
  /-- What it breaks no other offers. -/
  unbroken : ∀ name root, roots.find? (has disk name.1) = some root →
    skillAt disk yaml root name.1 = none → hidden name = false →
    roots.findSome? (offer disk yaml name) = none

end

section
variable {disk : Disk} {yaml : Str → Except Str Frontmatter} {root : FilePath}
  {roots : List FilePath} {name : FileName}
  {s : Skill} {skills : List (FileName × Skill)}

/-! ## Loading -/

theorem load_cons (root : FilePath) (roots : List FilePath) (name : Str) :
    load disk yaml (root :: roots) name = if has disk name root
    then (parsed disk yaml root name).map (Except.map some) else load disk yaml roots name := by
  rw [load, has, parsed]
  cases disk.existsAt (join (join root name) skillMd) with
  | false => rfl
  | true =>
    cases disk.readToString (join (join root name) skillMd) with
    | error e => rfl
    | ok content => rfl

theorem load_iff {name : Str} : load disk yaml roots name = some (.ok (some s)) ↔
    ∃ root, roots.find? (has disk name) = some root ∧ skillAt disk yaml root name = some s := by
  induction roots with
  | nil => simp [load]
  | cons root roots ih =>
    rw [load_cons]
    cases hhas : has disk name root with
    | false => rw [if_neg (by simp), ih, List.find?_cons_of_neg (by simp [hhas])]
    | true =>
      rw [if_pos rfl, List.find?_cons_of_pos hhas]
      cases hparsed : parsed disk yaml root name with
      | none => simp [skillAt, hparsed]
      | some r => cases r <;> simp [skillAt, hparsed, Except.map, Except.toOption]

/-- A name with a separator behind it is the same directory. -/
theorem components_slash (s : Str) : components (s ++ ['/']) = components s := by
  rw [components, List.splitOn_append_cons_self, List.filter_append, List.map_append]
  simp [components]

theorem load_congr {a b : Str} (h : ∀ root, join root a = join root b) :
    load disk yaml roots a = load disk yaml roots b := by
  induction roots with
  | nil => rfl
  | cons root roots ih => rw [load_cons, load_cons, ih, has, has, parsed, parsed, h]

/-- Every name has another that leads to the same place. -/
theorem exists_alias (name : Str) : ∃ other, other ≠ name ∧
    ∀ root, join root other = join root name := by
  cases name with
  | nil => exact ⟨".".toList, by decide, fun root => rfl⟩
  | cons c name =>
    refine ⟨(c :: name) ++ ['/'], by simp, fun root => ?_⟩
    rw [join, join, components_slash]
    rfl

/-! ## Listing -/

theorem find?_root (root : FilePath) (entries : List (Option FileName)) (name : FileName) :
    (candidates disk yaml (entries.map fun entry => (root, entry))).find? (fun c => c.1 = name) =
      if hidden name ∨ some name ∉ entries then none else (skillAt disk yaml root name.1).map
      fun s => (name, s) := by
  induction entries with
  | nil => simp [candidates]
  | cons entry entries ih =>
    have hcons : candidates disk yaml ((entry :: entries).map fun entry => (root, entry)) =
        (candidate disk yaml (root, entry)).toList ++ candidates disk yaml
        (entries.map fun entry => (root, entry)) := by
      rw [candidates, List.map_cons, List.filterMap_cons]
      cases candidate disk yaml (root, entry) <;> rfl
    rw [hcons, List.find?_append, ih]
    by_cases hentry : entry = some name
    · rw [hentry, candidate]
      cases hdot : hidden name with
      | true => simp
      | false => cases skillAt disk yaml root name.1 <;> simp
    · -- an entry of another name
      have hother : (candidate disk yaml (root, entry)).toList.find? (fun c => c.1 = name) = none := by
        refine List.find?_eq_none.mpr fun c hc hname => hentry ?_
        rw [Option.mem_toList] at hc
        cases entry with
        | none => cases hc
        | some other =>
          rw [candidate] at hc
          split at hc
          · cases hc
          · obtain ⟨s, -, rfl⟩ := Option.map_eq_some_iff.mp hc
            exact congrArg some (of_decide_eq_true hname)
      rw [hother, Option.none_or]
      simp [Ne.symm hentry]

theorem find?_candidates (roots : List FilePath) (name : FileName) :
    (candidates disk yaml (visits disk roots)).find? (fun c => c.1 = name) =
      if hidden name then none else (roots.findSome? (offer disk yaml name)).map fun s =>
      (name, s) := by
  induction roots with
  | nil => simp [candidates, visits]
  | cons root roots ih =>
    have hcons : candidates disk yaml (visits disk (root :: roots)) =
        candidates disk yaml ((names disk root).map fun entry => (root, entry)) ++
        candidates disk yaml (visits disk roots) := by
      rw [visits, List.flatMap_cons, candidates, List.filterMap_append]
      rfl
    rw [hcons, List.find?_append, ih, find?_root, List.findSome?_cons, offer]
    cases hidden name with
    | true => simp
    | false =>
      by_cases hlisted : some name ∈ names disk root
      · cases skillAt disk yaml root name.1 <;> simp [hlisted]
      · simp [hlisted]

theorem mem_walk (h : walk disk yaml roots = some skills) :
    (name, s) ∈ skills ↔ hidden name = false ∧ roots.findSome? (offer disk yaml name) = some s := by
  rw [(walk_eq_some.mp h).2, mem_keepFirst, find?_candidates]
  cases hidden name with
  | true => simp
  | false =>
    cases roots.findSome? (offer disk yaml name) with
    | none => simp
    | some t => simp

theorem has_of_offer (h : offer disk yaml name root = some s) : has disk name.1 root = true := by
  rw [offer] at h
  split at h
  · by_contra hhas
    rw [skillAt, parsed_missing (Bool.not_eq_true _ ▸ hhas)] at h
    cases h
  · cases h

/-- What a root offers is of a name that some root has. -/
theorem exists_first (h : roots.findSome? (offer disk yaml name) = some s) :
    ∃ root, roots.find? (has disk name.1) = some root := by
  obtain ⟨root, hroot, hoffer⟩ := List.exists_of_findSome?_eq_some h
  exact Option.isSome_iff_exists.mp (List.find?_isSome.mpr ⟨root, hroot, has_of_offer hoffer⟩)

theorem mem_visits : (root, some name) ∈ visits disk roots ↔ root ∈ roots ∧
    some name ∈ names disk root := by
  rw [visits, List.mem_flatMap]
  constructor
  · rintro ⟨r, hr, hmem⟩
    obtain ⟨entry, hentry, heq⟩ := List.mem_map.mp hmem
    cases heq
    exact ⟨hr, hentry⟩
  · rintro ⟨hroot, hname⟩
    exact ⟨root, hroot, List.mem_map.mpr ⟨_, hname, rfl⟩⟩

/-! ## Under every name -/

/-- Nothing is listed exactly when nothing that is visited parses, and nothing panics. -/
theorem walk_nil : walk disk yaml roots = some [] ↔
    ∀ root ∈ roots, ∀ name, some name ∈ names disk root → hidden name = false →
      skillAt disk yaml root name.1 = none ∧ parsed disk yaml root name.1 ≠ none := by
  have hnil (cs : List (FileName × Skill)) : [] = cs.foldl keepFirst [] ↔ cs = [] := by
    constructor
    · intro h
      have hkeys := fun a => keys_keepFirst (a := a) [] cs
      rw [← h] at hkeys
      exact List.map_eq_nil_iff.mp (List.eq_nil_iff_forall_not_mem.mpr fun a ha =>
        List.not_mem_nil ((hkeys a).mpr (.inr ha)))
    · intro h
      rw [h]
      rfl
  rw [walk_eq_some, hnil]
  constructor
  · intro ⟨hquiet, hcs⟩ root hroot name hname hdot
    have hmem := mem_visits.mpr ⟨hroot, hname⟩
    constructor
    · have hcand := List.filterMap_eq_nil_iff.mp hcs _ hmem
      rw [candidate, hdot] at hcand
      exact Option.map_eq_none_iff.mp hcand
    · intro hpanic
      obtain ⟨A, B, hl⟩ := List.append_of_mem hmem
      obtain ⟨c, hc, -⟩ := hquiet A root name B hl hdot hpanic
      rw [hl, candidates, List.filterMap_append, List.append_eq_nil_iff] at hcs
      rw [candidates, hcs.1] at hc
      cases hc
  · intro h
    refine ⟨fun A root name B hl hdot hpanic => ?_, List.filterMap_eq_nil_iff.mpr fun v hv => ?_⟩
    · have hmem := mem_visits.mp (hl ▸ List.mem_append_right A List.mem_cons_self)
      exact absurd hpanic (h root hmem.1 name hmem.2 hdot).2
    · obtain ⟨root, entry⟩ := v
      cases entry with
      | none => rfl
      | some name =>
        rw [candidate]
        cases hdot : hidden name with
        | true => rfl
        | false =>
          have hmem := mem_visits.mp hv
          rw [(h root hmem.1 name hmem.2 hdot).1]
          rfl

/-- What is loaded under one name is loaded under another, and has only one. -/
theorem load_nothing {skills : List Skill} (h : Agree disk yaml roots skills) (name : Str) (s : Skill) :
    load disk yaml roots name ≠ some (.ok (some s)) := by
  intro hload
  have hnamed : ∀ other, load disk yaml roots other = some (.ok (some s)) → s.name = other := by
    intro other hother
    obtain ⟨s', hs', hname⟩ := h.loaded other s hother
    have hlisted := h.listed s' hs'
    rw [hname, hother] at hlisted
    cases hlisted
    exact hname
  obtain ⟨other, hne, hjoin⟩ := exists_alias name
  have hother : load disk yaml roots other = some (.ok (some s)) := (load_congr hjoin).trans hload
  exact hne ((hnamed other hother).symm.trans (hnamed name hload))

theorem agrees_iff : Agrees disk yaml roots ↔ Bare disk yaml roots := by
  constructor
  · intro ⟨skills, hlist, hagree⟩
    have hempty : skills = [] := List.eq_nil_iff_forall_not_mem.mpr fun s hs =>
        load_nothing hagree s.name s (hagree.listed s hs)
    obtain ⟨kept, hwalk, hkept⟩ := Option.map_eq_some_iff.mp hlist
    rw [hempty, List.map_eq_nil_iff] at hkept
    rw [hkept] at hwalk
    refine ⟨walk_nil.mp hwalk, fun name root hroot => ?_⟩
    by_contra hsome
    obtain ⟨s, hs⟩ := Option.ne_none_iff_exists'.mp hsome
    exact load_nothing hagree name s (load_iff.mpr ⟨root, hroot, hs⟩)
  · intro h
    refine ⟨[], ?_, ⟨fun s hs => ?_, fun name s hload => ?_, fun name s hload => load_iff.mp hload,
      List.nodup_nil⟩⟩
    · rw [list, walk_nil.mpr h.unlisted]
      rfl
    · cases hs
    · obtain ⟨root, hroot, hs⟩ := load_iff.mp hload
      rw [h.unloaded name root hroot] at hs
      cases hs

/-! ## Under the names of directories -/

theorem agreesNames_iff : AgreesNames disk yaml roots ↔ Tidy disk yaml roots := by
  constructor
  · intro ⟨skills, hwalk, hnamed, hagree⟩
    refine ⟨(walk_eq_some.mp hwalk).1, fun name root s hroot hs => ?_,
      fun name root hroot hbroken hdot => ?_⟩
    · have hmem := (hagree name s).mpr (load_iff.mpr ⟨root, hroot, hs⟩)
      obtain ⟨hdot, hoffer⟩ := (mem_walk hwalk).mp hmem
      exact ⟨hdot, hnamed name s hmem, hoffer⟩
    · by_contra hsome
      obtain ⟨s, hoffer⟩ := Option.ne_none_iff_exists'.mp hsome
      obtain ⟨root', hroot', hs⟩ :=
        load_iff.mp ((hagree name s).mp ((mem_walk hwalk).mpr ⟨hdot, hoffer⟩))
      rw [hroot, Option.some_inj] at hroot'
      rw [← hroot', hbroken] at hs
      cases hs
  · intro h
    have hwalk := walk_eq_some.mpr ⟨h.quiet, rfl⟩
    -- what is kept comes from the first root that has the name
    have hfirst : ∀ name s, (name, s) ∈ (candidates disk yaml (visits disk roots)).foldl keepFirst [] →
        s.name = name.1 ∧ load disk yaml roots name.1 = some (.ok (some s)) := by
      intro name s hmem
      obtain ⟨hdot, hoffer⟩ := (mem_walk hwalk).mp hmem
      obtain ⟨root, hroot⟩ := exists_first hoffer
      cases hs : skillAt disk yaml root name.1 with
      | none =>
        rw [h.unbroken name root hroot hs hdot] at hoffer
        cases hoffer
      | some t =>
        obtain ⟨-, hname, hoffer'⟩ := h.shown name root t hroot hs
        rw [hoffer, Option.some_inj] at hoffer'
        rw [hoffer']
        exact ⟨hname, load_iff.mpr ⟨root, hroot, hs⟩⟩
    refine ⟨_, hwalk, fun name s hmem => (hfirst name s hmem).1,
      fun name s => ⟨fun hmem => (hfirst name s hmem).2, fun hload => ?_⟩⟩
    obtain ⟨root, hroot, hs⟩ := load_iff.mp hload
    obtain ⟨hdot, -, hoffer⟩ := h.shown name root s hroot hs
    exact (mem_walk hwalk).mpr ⟨hdot, hoffer⟩

end

/-- Listing and loading agree on every name only where neither finds anything, and on the names of
directories where these are tidy. -/
theorem list_load_iff (disk : Disk) (yaml : Str → Except Str Frontmatter) (roots : List FilePath) :
    (Agrees disk yaml roots ↔ Bare disk yaml roots) ∧
    (AgreesNames disk yaml roots ↔ Tidy disk yaml roots) :=
  ⟨agrees_iff, agreesNames_iff⟩

def deploy : FileName := ⟨"deploy".toList, by decide⟩

def shipMd : Str := "---\nname: ship\n---\n".toList

def renamedFiles : FileSystem Str (Except Str Str) where
  node loc :=
    if loc = [] ∨ loc = [deploy.1] then some .dir
    else if loc = [deploy.1, skillMd] then some (.file (.ok shipMd))
    else none
  cwd := []
  maxLinks := 40
  unresolved _ := false
  unopened _ := false
  root_dir := rfl
  cwd_dir := rfl
  parent_dir := by
    intro loc name x h
    split at h
    · next hdir =>
      have hloc : loc = [] := by simpa using congrArg List.dropLast (hdir.resolve_left (by simp))
      rw [hloc]
      rfl
    · split at h
      · next hfile =>
        have hloc : loc = [deploy.1] := by simpa using congrArg List.dropLast hfile
        rw [hloc]
        rfl
      · cases h

def renamed : Disk := ⟨renamedFiles, fun loc => if loc = [] then [some deploy]
    else [some ⟨skillMd, by decide⟩]⟩

def nameOnly (frontmatter : Str) : Except Str Frontmatter :=
  if "name: ".toList.isPrefixOf frontmatter then .ok ⟨frontmatter.drop 6, [], none, none, ∅, []⟩
    else .error "missing field".toList

theorem not_list_load_renamed : ¬ Agrees renamed nameOnly [[.rootDir]] ∧
    ¬ AgreesNames renamed nameOnly [[.rootDir]] := by
  let ship : Skill := ⟨"ship".toList, [], none, none, ∅, [], []⟩
  have hwalk : walk renamed nameOnly [[.rootDir]] = some [(deploy, ship)] := rfl
  constructor
  · intro ⟨skills, hlist, hagree⟩
    rw [list, hwalk] at hlist
    cases hlist
    have hload : load renamed nameOnly [[.rootDir]] ship.name = some (.ok none) := rfl
    have hlisted := hagree.listed ship List.mem_cons_self
    rw [hload] at hlisted
    cases hlisted
  · intro ⟨skills, hskills, hnamed, _⟩
    rw [hwalk] at hskills
    cases hskills
    exact absurd (hnamed deploy ship List.mem_cons_self) (by decide)

end Crabtalk.Discover

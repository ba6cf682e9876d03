import Crabtalk.Backend.Memory
import Crabtalk.Store.Skills

/-!
# Skills, one file each

The markdown is what is kept. A listing parses the files it summarises, where
the keyspace keeps the summaries beside the bodies: there is nothing the two
stores answer differently.
-/

open Basis Std

namespace Crabtalk.Backend

open Store
open Discover (Skill Frontmatter)

def skillRecords : Records Str where
  dir := "skills".toList
  suffix := ".md".toList
  json := utf8
  parse := fromUtf8
  parse_json := fromUtf8_utf8
  tmp_apart := Records.tmpName_ne (by decide) (by decide)

section
variable (yaml : Str → Except Str Frontmatter)

/-! ## The interface over the directory -/

def readToString (path : FilePath) : FileM (Option Str) := do
  match ← (read path).attempt with
  | .error _ => return none
  | .ok bytes => return fromUtf8 bytes

def loadSkill (name : Str) : DirM (Option Skill) := do
  match ← files (readToString (skillRecords.path name)) with
  | none => return none
  | some markdown =>
    let skill ← Prog.ofExcept (fromStr yaml markdown)
    return some skill

def summarise : List Str → DirM (List SkillSummary)
  | [] => return []
  | name :: names => do
    let found ← loadSkill yaml name
    let rest ← summarise names
    return (found.map summaryOf).toList ++ rest

def listSkills (limit offset : Nat) : DirM (List SkillSummary) := do
  let names ← skillRecords.names
  summarise yaml ((names.drop offset).take limit)

def putSkill (markdown : Str) : DirM SkillSummary := do
  let skill ← Prog.ofExcept (fromStr yaml markdown)
  files (write (skillRecords.path skill.name) (utf8 markdown))
  return summaryOf skill

def removeSkill (name : Str) : DirM Bool := skillRecords.forget name

def serveSkill : SkillRequest → DirM SkillAnswer
  | .listSkills limit offset => do
    let skills ← listSkills yaml limit offset
    return .listed skills
  | .loadSkill name => do
    let skill ← loadSkill yaml name
    return .loaded skill
  | .putSkill markdown => do
    let s ← putSkill yaml markdown
    return .put s
  | .removeSkill name => do
    let was ← removeSkill name
    return .removed was

/-! ## What it stands for -/

/-- Each markdown is a skill's of the name it is under. -/
def Installed (m : Docs Str) : Prop := ∀ (name markdown : Str), m[name]? = some markdown →
    ∃ skill, fromStr yaml markdown = .ok skill ∧ skill.name = name

def skillOf (markdown : Str) : Option Skill := (fromStr yaml markdown).toOption

def summaries (m : Docs Str) : List SkillSummary := m.toList.filterMap fun e =>
    (skillOf yaml e.2).map summaryOf

def installs (markdown : Str) (m : Docs Str) : Docs Str :=
  match fromStr yaml markdown with
  | .ok skill => m.insert skill.name markdown
  | .error _ => m

def skillAnswer (m : Docs Str) : SkillRequest → Except Error SkillAnswer
  | .listSkills limit offset => .ok (.listed (((summaries yaml m).drop offset).take limit))
  | .loadSkill name => .ok (.loaded (m[name]?.bind (skillOf yaml)))
  | .putSkill markdown => (fromStr yaml markdown).map fun skill => .put (summaryOf skill)
  | .removeSkill name => .ok (.removed m[name]?.isSome)

def skillChange (m : Docs Str) : SkillRequest → Docs Str
  | .putSkill markdown => installs yaml markdown m
  | .removeSkill name => m.erase name
  | _ => m

end

section
variable {yaml : Str → Except Str Frontmatter} {m : Docs Str} {name markdown : Str} {skill : Skill}

theorem Installed.empty : Installed yaml ∅ := fun name markdown h => by simp at h

theorem Installed.insert (h : Installed yaml m) (hm : fromStr yaml markdown = .ok skill) :
    Installed yaml (m.insert skill.name markdown) := by
  intro name md hmd
  rw [find_insert] at hmd
  by_cases hn : skill.name = name
  · rw [if_pos hn] at hmd
    cases hmd
    exact ⟨skill, hm, hn⟩
  · rw [if_neg hn] at hmd
    exact h name md hmd

theorem Installed.erase (h : Installed yaml m) (name : Str) : Installed yaml (m.erase name) := by
  intro a md hmd
  rw [find_erase] at hmd
  by_cases hn : name = a
  · rw [if_pos hn] at hmd
    cases hmd
  · rw [if_neg hn] at hmd
    exact h a md hmd

theorem skillOf_ok (hm : fromStr yaml markdown = .ok skill) : skillOf yaml markdown = some skill :=
  by rw [skillOf, hm]; rfl

/-! ## The directory -/

section
variable {order : List Str → List Str} {s : Shelf}

theorem wp_readToString (h : skillRecords.Shelved m s.tree) (name : Str) :
    Prog.wp False (shelf order) (files (readToString (skillRecords.path name)))
    (fun found s' => found = m[name]? ∧ s'.tree = s.tree)
      (fun _ _ => False) s := by
  refine during_files (J := fun _ => True) (Q := fun found t => found = m[name]? ∧ t = s.tree)
    (E := fun _ _ => False) ?_
  unfold readToString
  rw [Prog.during_bind, Prog.during_attempt]
  refine ⟨trivial, ?_, False.elim⟩
  have hdoc := h.doc name
  unfold Basis.wp
  simp only [disk, Records.path, h.locate, Option.bind_some, hdoc]
  cases hm : m[name]? with
  | none => exact ⟨rfl, rfl⟩
  | some markdown => exact ⟨fromUtf8_utf8 markdown, rfl⟩

theorem wp_loadSkill (h : skillRecords.Shelved m s.tree) (hi : Installed yaml m) (name : Str) :
    Prog.wp False (shelf order) (loadSkill yaml name)
    (fun found s' => found = m[name]?.bind (skillOf yaml) ∧ s'.tree = s.tree)
      (fun _ _ => False) s := by
  unfold loadSkill
  rw [Prog.wp_bind]
  refine (wp_readToString h name).mono (fun found s' hf => ?_) fun _ _ he => he
  obtain ⟨rfl, hs⟩ := hf
  cases hm : m[name]? with
  | none => exact ⟨rfl, hs⟩
  | some markdown =>
    obtain ⟨skill, hparse, -⟩ := hi name markdown hm
    show Prog.wp False (shelf order) (Prog.ofExcept (fromStr yaml markdown) >>= fun skill =>
        pure (some skill)) _ _ s'
    rw [hparse, Option.bind_some, skillOf_ok hparse]
    exact ⟨rfl, hs⟩

def shownOf (yaml : Str → Except Str Frontmatter) (m : Docs Str) (names : List Str) :
    List SkillSummary :=
  names.filterMap fun name => (m[name]?.bind (skillOf yaml)).map summaryOf

theorem wp_summarise (h : skillRecords.Shelved m s.tree) (hi : Installed yaml m)
    (names : List Str) :
    Prog.wp False (shelf order) (summarise yaml names)
    (fun shown s' => shown = shownOf yaml m names ∧ s'.tree = s.tree)
      (fun _ _ => False) s := by
  induction names generalizing s with
  | nil => exact ⟨rfl, rfl⟩
  | cons name names ih =>
    unfold summarise
    rw [Prog.wp_bind]
    refine (wp_loadSkill h hi name).mono (fun found s₁ hf => ?_) fun _ _ he => he
    obtain ⟨rfl, hs⟩ := hf
    rw [Prog.wp_bind]
    refine (ih (s := s₁) (by rw [hs]; exact h)).mono (fun shown s₂ hsh => ?_) fun _ _ he => he
    obtain ⟨rfl, hs₂⟩ := hsh
    refine ⟨?_, hs₂.trans hs⟩
    rw [shownOf, shownOf, List.filterMap_cons]
    cases (m[name]?.bind (skillOf yaml)).map summaryOf with
    | none => rfl
    | some x => rfl

theorem shownOf_keys (m : Docs Str) : shownOf yaml m m.keys = summaries yaml m := by
  rw [shownOf, summaries, ← ExtTreeMap.map_fst_toList_eq_keys, List.filterMap_map]
  refine List.filterMap_congr fun e he => ?_
  rw [Function.comp_apply, ExtTreeMap.mem_toList_iff_getElem?_eq_some.mp he, Option.bind_some]

/-- Every name shows, so that a page of names shows as a page. -/
theorem shownOf_page (hi : Installed yaml m) (limit offset : Nat) :
    shownOf yaml m ((m.keys.drop offset).take limit) =
    ((summaries yaml m).drop offset).take limit := by
  have hmap : ∀ names : List Str, (∀ n ∈ names, n ∈ m.keys) →
      shownOf yaml m names = names.map fun name =>
      ((m[name]?.bind (skillOf yaml)).map summaryOf).getD ⟨[], []⟩ := by
    intro names hn
    rw [shownOf, ← List.filterMap_eq_map]
    refine List.filterMap_congr fun n hmem => ?_
    have hin := hn n hmem
    rw [ExtTreeMap.mem_keys, ← ExtTreeMap.isSome_getElem?_iff_mem] at hin
    obtain ⟨md, hmd⟩ := Option.isSome_iff_exists.mp hin
    obtain ⟨skill, hparse, -⟩ := hi n md hmd
    simp [hmd, skillOf_ok hparse]
  rw [hmap _ fun n hn => List.mem_of_mem_drop (List.mem_of_mem_take hn), ← shownOf_keys,
    hmap _ fun _ hn => hn, List.map_take, List.map_drop]

theorem Records.Shelved.put (h : skillRecords.Shelved m s.tree) {name : Str}
    (hname : NameLimit.fits (encode name ++ skillRecords.suffix) = true) (markdown : Str) :
    Prog.wp False (shelf order) (files (write (skillRecords.path name) (utf8 markdown)))
      (fun _ s' => skillRecords.Shelved (m.insert name markdown) s'.tree) (fun _ _ => False) s := by
  refine during_files (J := fun _ => True)
    (Q := fun _ t => skillRecords.Shelved (m.insert name markdown) t) (E := fun _ _ => False) ?_
  obtain ⟨t', ht⟩ : ∃ t', s.tree.writeFile [skillRecords.dir, encode name ++ skillRecords.suffix]
      (utf8 markdown) = some t' :=
    FileTree.writeFile_some (by simp) h.opened (h.flat _) hname _
  have hw : (s.tree.locate (skillRecords.path name)).bind
      (fun loc => s.tree.writeFile loc (utf8 markdown)) = some t' := by
    rw [Records.path, h.locate]
    exact ht
  refine during_write trivial hw False.elim (h.insert (fun l => FileTree.isDir_writeFile ht)
    fun stem => ?_)
  rw [FileTree.fileAt_writeFile ht]
  by_cases hs : stem = encode name
  · rw [if_pos hs, if_pos (by rw [hs])]
    rfl
  · rw [if_neg hs, if_neg (by simpa using hs)]

/-- The name a text puts a skill under is a file's. -/
def NameFits (yaml : Str → Except Str Frontmatter) : SkillRequest → Prop
  | .putSkill markdown =>
    ∀ skill, fromStr yaml markdown = .ok skill →
      NameLimit.fits (encode skill.name ++ skillRecords.suffix) = true
  | _ => True

theorem obeys_directory (hperm : ∀ l, (order l).Perm l) :
    Obeys (shelf order) (fun q => (serveSkill yaml q).attempt) (skillAnswer yaml) (skillChange yaml)
      (fun s m => skillRecords.Shelved m s.tree ∧ Installed yaml m) fun _ q => NameFits yaml q := by
  intro q s m hq hs
  obtain ⟨h, hi⟩ := hs
  rw [Prog.wp_attempt]
  cases q with
  | listSkills limit offset =>
    refine Prog.wp_bind.mpr (Prog.wp_bind.mpr
      (((Records.during_names (J := fun _ => True) h hperm trivial).mono (fun _ _ => trivial)
      (fun names s₁ hn => ?_) fun _ _ he => he.1.elim)))
    obtain ⟨rfl, rfl | ⟨hf, -⟩⟩ := hn
    · refine (wp_summarise h hi _).mono (fun shown s' hsh => ?_) fun _ _ he => he.elim
      obtain ⟨rfl, hs'⟩ := hsh
      rw [shownOf_page hi]
      exact ⟨rfl, by rw [hs']; exact h, hi⟩
    · exact hf.elim
  | loadSkill name =>
    refine Prog.wp_bind.mpr ((wp_loadSkill h hi name).mono (fun found s' hf => ?_)
      fun _ _ he => he.elim)
    obtain ⟨rfl, hs'⟩ := hf
    exact ⟨rfl, by rw [hs']; exact h, hi⟩
  | putSkill markdown =>
    rw [serveSkill, putSkill, skillAnswer, skillChange, installs]
    cases hm : fromStr yaml markdown with
    | error e => exact ⟨rfl, h, hi⟩
    | ok skill =>
      refine Prog.wp_bind.mpr (Prog.wp_bind.mpr ?_)
      show Prog.wp False (shelf order)
          (files (write (skillRecords.path skill.name) (utf8 markdown)) >>= fun _ =>
          pure (summaryOf skill)) _ _ s
      refine Prog.wp_bind.mpr ((h.put (hq skill hm) markdown).mono (fun _ s' hs' => ?_)
        fun _ _ he => he.elim)
      exact ⟨rfl, hs', hi.insert hm⟩
  | removeSkill name =>
    refine Prog.wp_bind.mpr (((Records.during_forget (I := fun _ => True) h trivial).mono
      (fun _ _ => trivial)
      (fun was s' hw => ?_) fun _ _ he => he))
    rcases hw with ⟨rfl, hs', -⟩ | ⟨hf, -⟩
    · exact ⟨rfl, hs', hi.erase name⟩
    · exact hf.elim

end

/-! ## The keyspace -/

structure Filed (yaml : Str → Except Str Frontmatter) (k : Catalogue) (m : Docs Str) : Prop where
  stocked : Stocked yaml k
  installed : Installed yaml m
  body : ∀ name : Str, k[((.skill, skillBodyKey name) : Column × Str)]? = m[name]?.map .body
  summary : ∀ name : Str, k[((.skill, skillMetaKey name) : Column × Str)]? =
    (m[name]?.bind (skillOf yaml)).map fun skill => .summary (summaryOf skill)

section
variable {k : Catalogue}

theorem Filed.empty : Filed yaml ∅ ∅ := ⟨.empty, .empty, fun name => by simp, fun name => by simp⟩

theorem Filed.put (h : Filed yaml k m) (hm : fromStr yaml markdown = .ok skill) :
    Filed yaml ((k.insert (.skill, skillBodyKey skill.name) (.body markdown)).insert
      (.skill, skillMetaKey skill.name) (.summary (summaryOf skill)))
      (m.insert skill.name markdown) where
  stocked := (h.stocked.put_body hm).put_summary (by rw [find_insert, if_pos rfl]) hm
  installed := h.installed.insert hm
  body name := by
    rw [find_insert, if_neg fun he => skillMetaKey_ne_body _ _ (Prod.mk.inj he).2, find_insert,
      find_insert, h.body]
    by_cases hn : skill.name = name
    · rw [if_pos (by rw [hn]), if_pos hn, Option.map_some]
    · rw [if_neg fun he => hn (skillBodyKey_inj (Prod.mk.inj he).2), if_neg hn]
  summary name := by
    rw [find_insert, find_insert, find_insert]
    by_cases hn : skill.name = name
    · rw [if_pos (by rw [hn]), if_pos hn, Option.bind_some, skillOf_ok hm, Option.map_some]
    · rw [if_neg fun he => hn (skillMetaKey_inj (Prod.mk.inj he).2),
        if_neg fun he => skillMetaKey_ne_body _ _ (Prod.mk.inj he).2.symm,
        if_neg hn, h.summary]

theorem Filed.remove (h : Filed yaml k m) (name : Str) :
    Filed yaml ((k.erase (.skill, skillMetaKey name)).erase (.skill, skillBodyKey name))
    (m.erase name) where
  stocked := (h.stocked.erase_summary name).erase_body (by rw [find_erase, if_pos rfl])
  installed := h.installed.erase name
  body a := by
    rw [find_erase, find_erase, find_erase, h.body]
    by_cases hn : name = a
    · rw [if_pos (by rw [hn]), if_pos hn, Option.map_none]
    · rw [if_neg fun he => hn (skillBodyKey_inj (Prod.mk.inj he).2),
        if_neg fun he => skillMetaKey_ne_body _ _ (Prod.mk.inj he).2, if_neg hn]
  summary a := by
    rw [find_erase, find_erase, find_erase, h.summary]
    by_cases hn : name = a
    · rw [if_neg fun he => skillMetaKey_ne_body _ _ (Prod.mk.inj he).2.symm, if_pos (by rw [hn]),
        if_pos hn, Option.bind_none, Option.map_none]
    · rw [if_neg fun he => skillMetaKey_ne_body _ _ (Prod.mk.inj he).2.symm,
        if_neg fun he => hn (skillMetaKey_inj (Prod.mk.inj he).2), if_neg hn]

theorem mem_summaries {x : SkillSummary} :
    x ∈ summaries yaml m ↔ ∃ name markdown skill, m[(name : Str)]? = some markdown ∧
    fromStr yaml markdown = .ok skill ∧ summaryOf skill = x := by
  rw [summaries, List.mem_filterMap]
  constructor
  · rintro ⟨⟨name, markdown⟩, he, hx⟩
    obtain ⟨skill, hs, rfl⟩ := Option.map_eq_some_iff.mp hx
    rw [skillOf] at hs
    cases hm : fromStr yaml markdown with
    | error e =>
      rw [hm] at hs
      cases hs
    | ok skill' =>
      rw [hm] at hs
      cases hs
      exact ⟨name, markdown, skill, ExtTreeMap.mem_toList_iff_getElem?_eq_some.mp he, hm, rfl⟩
  · rintro ⟨name, markdown, skill, hmd, hm, rfl⟩
    exact ⟨(name, markdown), ExtTreeMap.mem_toList_iff_getElem?_eq_some.mpr hmd,
      by rw [skillOf_ok hm]; rfl⟩

theorem Installed.shown_name (h : Installed yaml m) {x : SkillSummary}
    (hm : m[name]? = some markdown)
    (hx : (skillOf yaml markdown).map summaryOf = some x) : x.name = name := by
  obtain ⟨skill, hs, hname⟩ := h name markdown hm
  rw [skillOf_ok hs, Option.map_some, Option.some.injEq] at hx
  rw [← hx, ← hname]
  rfl

theorem Installed.sorted (h : Installed yaml m) : (summaries yaml m).Pairwise fun x y =>
    compare x.name y.name = .lt := by
  refine List.pairwise_filterMap.mpr (ExtTreeMap.ordered_keys_toList.imp_of_mem
    fun {a b} ha hb hlt x hx y hy => ?_)
  rw [h.shown_name (ExtTreeMap.mem_toList_iff_getElem?_eq_some.mp ha) hx,
    h.shown_name (ExtTreeMap.mem_toList_iff_getElem?_eq_some.mp hb) hy]
  exact hlt

theorem Filed.catalogueOf (h : Filed yaml k m) : catalogueOf k = summaries yaml m := by
  have irr : Std.Irrefl fun x y : SkillSummary => compare x.name y.name = .lt :=
    ⟨fun x => lt_irrefl_cmp x.name⟩
  have anti : Std.Antisymm fun x y : SkillSummary => compare x.name y.name = .lt :=
    ⟨fun _ _ h h' => absurd h' (lt_asymm_cmp h)⟩
  refine h.stocked.sorted.eq_of_mem_iff h.installed.sorted fun {x} => ?_
  rw [mem_summaries, Store.catalogueOf, List.mem_map]
  constructor
  · rintro ⟨e, he, rfl⟩
    obtain ⟨hkey, hcell⟩ := h.stocked.entry he
    rw [hkey, h.summary, Option.map_eq_some_iff] at hcell
    obtain ⟨skill, hskill, hx⟩ := hcell
    obtain ⟨markdown, hm, -⟩ := Option.bind_eq_some_iff.mp hskill
    obtain ⟨skill', hs, -⟩ := h.installed _ _ hm
    rw [hm, Option.bind_some, skillOf_ok hs, Option.some.injEq] at hskill
    exact ⟨_, markdown, skill', hm, hs, by rw [hskill]; exact SkillCell.summary.inj hx⟩
  · rintro ⟨name, markdown, skill, hm, hs, rfl⟩
    obtain ⟨skill', hs', hname⟩ := h.installed _ _ hm
    rw [hs] at hs'
    cases hs'
    have hcell := h.summary name
    rw [hm, Option.bind_some, skillOf_ok hs, Option.map_some] at hcell
    exact ⟨((.skill, skillMetaKey name), .summary (summaryOf skill)),
      ColMap.mem_under.mpr ⟨hcell, rfl, by rw [skillMetaKey_eq]; exact List.prefix_append _ _⟩, rfl⟩

theorem obeys_catalogue : Obeys catalogue (fun q => (q.exec yaml).attempt) (skillAnswer yaml)
    (skillChange yaml) (Filed yaml)
    fun _ q => NameFits yaml q := by
  intro q k m _ h
  cases q with
  | listSkills limit offset =>
    have hlist := h.stocked.listSkills limit offset
    rw [h.catalogueOf] at hlist
    refine (Prog.Sees.attempt (hlist.next (.pure (SkillAnswer.listed _) _))).wp ?_
    exact ⟨rfl, h⟩
  | loadSkill name =>
    have hget := sees_get (skillBodyKey name) k
    rw [h.body] at hget
    have hload : Prog.Sees catalogue (Store.loadSkill yaml name) k
        (.ok (m[name]?.bind (skillOf yaml))) := by
      refine hget.next ?_
      cases hm : m[name]? with
      | none => rfl
      | some markdown =>
        obtain ⟨skill, hs, -⟩ := h.installed name markdown hm
        show Prog.Sees catalogue (Prog.ofExcept (fromStr yaml markdown) >>= fun skill =>
            pure (some skill)) k _
        rw [hs, Option.bind_some, skillOf_ok hs]
        rfl
    refine (Prog.Sees.attempt (hload.next (.pure (SkillAnswer.loaded _) _))).wp ?_
    exact ⟨rfl, h⟩
  | putSkill markdown =>
    rw [Prog.wp_attempt, SkillRequest.exec, Store.putSkill, skillAnswer, skillChange, installs]
    cases hm : fromStr yaml markdown with
    | error e => exact ⟨rfl, h⟩
    | ok skill => exact ⟨trivial, ⟨trivial, ⟨rfl, h.put hm⟩, False.elim⟩, False.elim⟩
  | removeSkill name =>
    rw [Prog.wp_attempt]
    refine ⟨trivial, ⟨trivial, ⟨?_, h.remove name⟩, False.elim⟩, False.elim⟩
    refine congrArg (fun was => Except.ok (SkillAnswer.removed was)) ?_
    show (k[((.skill, skillMetaKey name) : Column × Str)]?.isSome ||
      (k.erase (.skill, skillMetaKey name))[((.skill, skillBodyKey name) : Column × Str)]?.isSome) =
      m[name]?.isSome
    rw [find_erase, if_neg fun he => skillMetaKey_ne_body _ _ (Prod.mk.inj he).2, h.body, h.summary]
    cases m[name]? with
    | none => rfl
    | some markdown => simp

end

/-- Every request gets the same answer of both stores, errors and pages among them. -/
theorem skills_alike {order : List Str → List Str} (hperm : ∀ l, (order l).Perm l) {s : Shelf}
    (hopen : Prog.interp (shelf order) (files openStore) blank = .ok () s) (qs : List SkillRequest)
    (hqs : ∀ q ∈ qs, NameFits yaml q) :
    ∃ as s' k', Prog.interp (shelf order) (collect (fun q => (serveSkill yaml q).attempt) qs) s = .ok as s' ∧
      Prog.interp catalogue (collect (fun q => (q.exec yaml).attempt) qs) ∅ = .ok as k' :=
  (obeys_directory hperm).alike obeys_catalogue (.of_forall (fun q hq _ => hqs q hq) _)
    ⟨Records.shelved_bare _ "skills" rfl (by decide) (bare_opened hopen), .empty⟩ .empty

end

/-! ### A few requests -/

def fewSkills : List SkillRequest :=
  [.putSkill deployMd, .putSkill "no front matter".toList, .listSkills 10 0,
    .removeSkill "deploy".toList]

theorem skills_alike_fewSkills :
    ∃ (s : Shelf) (as : List (Except Error SkillAnswer)) (s' : Shelf) (k' : Catalogue),
    Prog.interp (shelf List.reverse) (files openStore) blank = .ok () s ∧
    Prog.interp (shelf List.reverse) (collect (fun q => (serveSkill twoLines q).attempt) fewSkills)
    s = .ok as s' ∧
    Prog.interp catalogue (collect (fun q => (q.exec twoLines).attempt) fewSkills) ∅ = .ok as k' := by
  obtain ⟨_, s, hopen, -⟩ := (during_open List.reverse).answers
  have hput : NameFits twoLines (.putSkill deployMd) := by
    intro skill hs
    rw [fromStr_deployMd] at hs
    cases hs
    decide
  have hrefused : NameFits twoLines (.putSkill "no front matter".toList) :=
    fun skill hs => by cases hs
  have hqs : ∀ q ∈ fewSkills, NameFits twoLines q := by
    simp only [fewSkills, List.forall_mem_cons]
    exact ⟨hput, hrefused, trivial, trivial, by simp⟩
  obtain ⟨as, s', k', hs, hk⟩ := skills_alike List.reverse_perm hopen fewSkills hqs
  exact ⟨s, as, s', k', hopen, hs, hk⟩

end Crabtalk.Backend

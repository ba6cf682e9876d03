import Crabtalk.Basis.Codes
import Crabtalk.Basis.Service
import Crabtalk.Skill.Discover
import Crabtalk.Store.Keys

/-!
# Installed skills

A skill's body and what a listing shows of it are cells of their own. The body
is written first and removed last, so that a skill that is listed can be
loaded, wherever a change stops.
-/

open Basis Std

namespace Crabtalk.Store

open Discover (Skill Frontmatter)

structure SkillSummary where
  name : Str
  description : Str
  deriving DecidableEq

def summaryOf (skill : Skill) : SkillSummary := ⟨skill.name, skill.description⟩

inductive SkillCell
  | body (markdown : Str)
  | summary (s : SkillSummary)
  deriving DecidableEq

def SkillCell.asBody : SkillCell → Option Str
  | body markdown => some markdown
  | _ => none

def SkillCell.asSummary : SkillCell → Option SkillSummary
  | summary s => some s
  | _ => none

inductive SkillOp
  | get (key : Str)
  | put (key : Str) (cell : SkillCell)
  | delete (key : Str)
  | scanKeys (stem : Str)

def SkillOp.Reply : SkillOp → Type
  | .get _ => Option SkillCell
  | .put _ _ => Unit
  | .delete _ => Bool
  | .scanKeys _ => List Str

abbrev Catalogue := ColMap Column Char SkillCell

abbrev SkillM := Prog SkillOp SkillOp.Reply Error

def catalogue : (o : SkillOp) → EStateM Error Catalogue o.Reply
  | .get key => fun s => .ok s[(Column.skill, key)]? s
  | .put key cell => fun s => .ok () (s.insert (Column.skill, key) cell)
  | .delete key => fun s => .ok s[(Column.skill, key)]?.isSome (s.erase (Column.skill, key))
  | .scanKeys stem => fun s => .ok ((s.under Column.skill stem).map fun e => e.1.2) s

def skillKeys : List Str := ["skill".toList, "meta".toList]

def skillMetaKey (name : Str) : Str := key ["skill".toList, "meta".toList, name]

def skillBodyKey (name : Str) : Str := key ["skill".toList, "body".toList, name]

/-! ## The interface -/

section
variable (yaml : Str → Except Str Frontmatter)

def fromStr (markdown : Str) : Except Error Skill :=
  match Discover.parse yaml markdown with
  | none => .error .panic
  | some (.error e) => .error (.bail e)
  | some (.ok skill) => .ok skill

def readSummary (key : Str) : SkillM (Option SkillSummary) := do
  match ← Prog.perform (SkillOp.get key) with
  | none => return none
  | some cell =>
    match cell.asSummary with
    | some s => return some s
    | none => .fail .decode

def readSummaries : List Str → SkillM (List SkillSummary)
  | [] => return []
  | key :: keys => do
    let found ← readSummary key
    let rest ← readSummaries keys
    return found.toList ++ rest

def listSkills (limit offset : Nat) : SkillM (List SkillSummary) := do
  let keys ← Prog.perform (SkillOp.scanKeys (keysUnder skillKeys))
  readSummaries ((keys.drop offset).take limit)

def loadSkill (name : Str) : SkillM (Option Skill) := do
  match ← Prog.perform (SkillOp.get (skillBodyKey name)) with
  | none => return none
  | some cell =>
    match cell.asBody with
    | none => .fail .decode
    | some markdown =>
      let skill ← Prog.ofExcept (fromStr yaml markdown)
      return some skill

def putSkill (markdown : Str) : SkillM SkillSummary := do
  let skill ← Prog.ofExcept (fromStr yaml markdown)
  Prog.perform (SkillOp.put (skillBodyKey skill.name) (.body markdown))
  Prog.perform (SkillOp.put (skillMetaKey skill.name) (.summary (summaryOf skill)))
  return summaryOf skill

def removeSkill (name : Str) : SkillM Bool := do
  let hadMeta ← Prog.perform (SkillOp.delete (skillMetaKey name))
  let hadBody ← Prog.perform (SkillOp.delete (skillBodyKey name))
  return hadMeta || hadBody

inductive SkillRequest
  | listSkills (limit offset : Nat)
  | loadSkill (name : Str)
  | putSkill (markdown : Str)
  | removeSkill (name : Str)

inductive SkillAnswer
  | listed (skills : List SkillSummary)
  | loaded (skill : Option Skill)
  | put (s : SkillSummary)
  | removed (was : Bool)

def SkillRequest.exec : SkillRequest → SkillM SkillAnswer
  | listSkills limit offset => do
    let skills ← Store.listSkills limit offset
    return .listed skills
  | loadSkill name => do
    let skill ← Store.loadSkill yaml name
    return .loaded skill
  | putSkill markdown => do
    let s ← Store.putSkill yaml markdown
    return .put s
  | removeSkill name => do
    let was ← Store.removeSkill name
    return .removed was

end

/-! ## Keys -/

theorem skillMetaKey_eq (name : Str) : skillMetaKey name = keysUnder skillKeys ++ name :=
  by simp [skillMetaKey, skillKeys, keysUnder, key]

theorem skillMetaKey_inj {a b : Str} (h : skillMetaKey a = skillMetaKey b) : a = b := by
  rw [skillMetaKey_eq, skillMetaKey_eq] at h
  exact List.append_cancel_left h

theorem skillBodyKey_inj {a b : Str} (h : skillBodyKey a = skillBodyKey b) : a = b := by
  have happ : ∀ n, skillBodyKey n = keysUnder ["skill".toList, "body".toList] ++ n := fun n => by
    simp [skillBodyKey, keysUnder, key]
  rw [happ, happ] at h
  exact List.append_cancel_left h

theorem not_keysUnder_body (name : Str) : ¬ keysUnder skillKeys <+: skillBodyKey name := by
  have hmeta : keysUnder skillKeys = "local/skill/".toList ++ "meta/".toList := rfl
  have hbody : skillBodyKey name = "local/skill/".toList ++ ("body/".toList ++ name) := by
    simp [skillBodyKey, key, realm]
  rw [hmeta, hbody, List.prefix_append_right_inj]
  exact fun h => absurd (List.cons_prefix_cons.mp h).1 (by decide)

theorem skillMetaKey_ne_body (a b : Str) : skillMetaKey a ≠ skillBodyKey b := by
  intro h
  refine not_keysUnder_body b ?_
  rw [← h, skillMetaKey_eq]
  exact List.prefix_append _ _

theorem compare_skillMetaKey (a b : Str) : compare (skillMetaKey a) (skillMetaKey b) =
    compare a b := by
  rw [skillMetaKey_eq, skillMetaKey_eq, compare_append_left]

/-! ## What is listed can be loaded -/

/-- Under the keys of the listing are summaries, each of a skill whose body is there. -/
structure Stocked (yaml : Str → Except Str Frontmatter) (s : Catalogue) : Prop where
  listed : ∀ (k : Str) cell, s[((.skill, k) : Column × Str)]? = some cell →
    keysUnder skillKeys <+: k →
    ∃ x markdown skill, cell = .summary x ∧ k = skillMetaKey x.name ∧
    s[((.skill, skillBodyKey x.name) : Column × Str)]? = some (.body markdown) ∧
      fromStr yaml markdown = .ok skill ∧ skill.name = x.name

section
variable {yaml : Str → Except Str Frontmatter} {s : Catalogue} {name markdown : Str}
  {skill : Skill} {F : Prop}

theorem Stocked.empty : Stocked yaml ∅ := ⟨fun k cell h => by simp at h⟩

theorem Stocked.put_body (h : Stocked yaml s) (hm : fromStr yaml markdown = .ok skill) :
    Stocked yaml (s.insert (.skill, skillBodyKey skill.name) (.body markdown)) := by
  refine ⟨fun k cell hk hunder => ?_⟩
  rw [find_insert, if_neg fun he => not_keysUnder_body _ ((Prod.mk.inj he).2 ▸ hunder)] at hk
  obtain ⟨x, md, skill', rfl, rfl, hbody, hparse, hname⟩ := h.listed k cell hk hunder
  by_cases hx : skill.name = x.name
  · exact ⟨x, markdown, skill, rfl, rfl, by rw [find_insert, if_pos (by rw [hx])], hm, hx⟩
  · refine ⟨x, md, skill', rfl, rfl, ?_, hparse, hname⟩
    rw [find_insert, if_neg fun he => hx (skillBodyKey_inj (Prod.mk.inj he).2), hbody]

theorem Stocked.put_summary (h : Stocked yaml s)
    (hbody : s[((.skill, skillBodyKey skill.name) : Column × Str)]? = some (.body markdown))
    (hm : fromStr yaml markdown = .ok skill) :
    Stocked yaml (s.insert (.skill, skillMetaKey skill.name) (.summary (summaryOf skill))) := by
  have hother : ∀ b : Str, (s.insert (.skill, skillMetaKey skill.name)
      (.summary (summaryOf skill)))[((.skill, skillBodyKey b) : Column × Str)]? =
      s[((.skill, skillBodyKey b) : Column × Str)]? := fun b => by
    rw [find_insert, if_neg fun he => skillMetaKey_ne_body _ _ (Prod.mk.inj he).2]
  refine ⟨fun k cell hk hunder => ?_⟩
  rw [find_insert] at hk
  by_cases he : ((.skill, skillMetaKey skill.name) : Column × Str) = (.skill, k)
  · rw [if_pos he, Option.some.injEq] at hk
    exact ⟨summaryOf skill, markdown, skill, hk.symm, (Prod.mk.inj he).2.symm,
      (hother _).trans hbody, hm, rfl⟩
  · rw [if_neg he] at hk
    obtain ⟨x, md, skill', rfl, rfl, hbody', hparse, hname⟩ := h.listed k cell hk hunder
    exact ⟨x, md, skill', rfl, rfl, (hother _).trans hbody', hparse, hname⟩

theorem Stocked.erase_summary (h : Stocked yaml s) (name : Str) :
    Stocked yaml (s.erase (.skill, skillMetaKey name)) := by
  refine ⟨fun k cell hk hunder => ?_⟩
  rw [find_erase] at hk
  split at hk
  · cases hk
  · obtain ⟨x, md, skill', rfl, rfl, hbody, hparse, hname⟩ := h.listed k cell hk hunder
    refine ⟨x, md, skill', rfl, rfl, ?_, hparse, hname⟩
    rw [find_erase, if_neg fun he => skillMetaKey_ne_body _ _ (Prod.mk.inj he).2, hbody]

theorem Stocked.erase_body (h : Stocked yaml s)
    (hgone : s[((.skill, skillMetaKey name) : Column × Str)]? = none) :
    Stocked yaml (s.erase (.skill, skillBodyKey name)) := by
  refine ⟨fun k cell hk hunder => ?_⟩
  rw [find_erase] at hk
  split at hk
  · cases hk
  · obtain ⟨x, md, skill', rfl, rfl, hbody, hparse, hname⟩ := h.listed k cell hk hunder
    refine ⟨x, md, skill', rfl, rfl, ?_, hparse, hname⟩
    rw [find_erase, if_neg fun he => ?_, hbody]
    rw [← skillBodyKey_inj (Prod.mk.inj he).2, hgone] at hk
    cases hk

/-- A program that leaves what is listed loadable at each of its operations. -/
abbrev Restocks (yaml : Str → Except Str Frontmatter) (F : Prop) {α : Type} (p : SkillM α) : Prop :=
  ∀ s, Stocked yaml s → Prog.during F catalogue (Stocked yaml) p (fun _ => Stocked yaml)
    (fun _ => Stocked yaml) s

theorem Restocks.bind {α β : Type} {p : SkillM α} {f : α → SkillM β} (hp : Restocks yaml F p)
    (hf : ∀ a, Restocks yaml F (f a)) :
    Restocks yaml F (p >>= f) := fun s hs =>
    Prog.during_bind.mpr ((hp s hs).mono (fun _ h => h) (fun a s' h => hf a s' h) fun _ _ h => h)

theorem restocks_pure {α : Type} (a : α) : Restocks yaml F (pure a) := fun _ hs => hs

theorem restocks_fail {α : Type} (e : Error) : Restocks yaml F (.fail e : SkillM α) := fun _ hs => hs

theorem restocks_get (key : Str) : Restocks yaml F (Prog.perform (SkillOp.get key)) :=
  fun _ hs => ⟨hs, hs, fun _ _ => hs⟩

theorem restocks_readSummaries (keys : List Str) : Restocks yaml F (readSummaries keys) := by
  induction keys with
  | nil => exact restocks_pure _
  | cons key keys ih =>
    refine .bind (.bind (restocks_get key) fun found => ?_) fun _ => .bind ih fun _ =>
      restocks_pure _
    cases found with
    | none => exact restocks_pure _
    | some cell =>
      cases cell with
      | body _ => exact restocks_fail _
      | summary s => exact restocks_pure _

theorem restocks_loadSkill (name : Str) : Restocks yaml F (loadSkill yaml name) := by
  refine .bind (restocks_get _) fun found => ?_
  cases found with
  | none => exact restocks_pure _
  | some cell =>
    cases cell with
    | summary _ => exact restocks_fail _
    | body markdown =>
      refine .bind ?_ fun _ => restocks_pure _
      cases fromStr yaml markdown with
      | ok _ => exact restocks_pure _
      | error e => exact restocks_fail e

theorem restocks_putSkill (markdown : Str) : Restocks yaml F (putSkill yaml markdown) := by
  intro s hs
  unfold putSkill
  cases hm : fromStr yaml markdown with
  | error e => exact hs
  | ok skill =>
    have hbody := hs.put_body hm
    refine ⟨hs, ⟨hbody, ?_, fun _ _ => hbody⟩, fun _ _ => hs⟩
    exact hbody.put_summary (by rw [find_insert, if_pos rfl]) hm

theorem restocks_removeSkill (name : Str) : Restocks yaml F (removeSkill name) := by
  intro s hs
  have hmeta := hs.erase_summary name
  refine ⟨hs, ⟨hmeta, ?_, fun _ _ => hmeta⟩, fun _ _ => hs⟩
  exact hmeta.erase_body (by rw [find_erase, if_pos rfl])

theorem restocks_exec (q : SkillRequest) : Restocks yaml F (q.exec yaml) := by
  cases q with
  | listSkills limit offset =>
    exact .bind (.bind (fun _ hs => ⟨hs, hs, fun _ _ => hs⟩) fun _ => restocks_readSummaries _)
      fun _ => restocks_pure _
  | loadSkill name => exact .bind (restocks_loadSkill name) fun _ => restocks_pure _
  | putSkill markdown => exact .bind (restocks_putSkill markdown) fun _ => restocks_pure _
  | removeSkill name => exact .bind (restocks_removeSkill name) fun _ => restocks_pure _

def whole : SkillOp → Catalogue → Catalogue → Prop := fun _ _ _ => False

theorem stocked_ends {r : Except Error SkillAnswer} {s : Catalogue}
    (h : Prog.ends (fun _ => Stocked yaml) (fun _ => Stocked yaml) r s) : Stocked yaml s := by
  cases r with
  | ok _ => exact h
  | error _ => exact h

theorem stocked_course {es : List (Trial SkillRequest (Except Error SkillAnswer))}
    {s s' : Catalogue} (hs : Stocked yaml s)
    (hc : Course (Attends catalogue whole (SkillRequest.exec yaml)) s es s') : Stocked yaml s' := by
  have hwhole : ∀ o s s', ¬ whole o s s' := fun _ _ _ h => h
  induction hc with
  | nil s => exact hs
  | cons he _ ih =>
    refine ih ?_
    cases he with
    | @served q r _ _ hr => exact stocked_ends ((restocks_exec (F := False) q _ hs).wp.runs hr)
    | @faulted q r _ _ hr =>
      exact stocked_ends ((restocks_exec q _ hs).falters (.whole hwhole _) (.all _)
        (fun _ _ _ _ _ _ h => h.elim) hr)
    | @died q _ _ hd =>
      exact (restocks_exec q _ hs).dies (.whole hwhole _) (.all _) (fun _ _ _ _ _ h => h.elim) hd

/-! ### Pages -/

def shownOf (cell : SkillCell) : SkillSummary := cell.asSummary.getD ⟨[], []⟩

def catalogueOf (s : Catalogue) : List SkillSummary :=
  (s.under Column.skill (keysUnder skillKeys)).map fun e => shownOf e.2

theorem Stocked.entry (h : Stocked yaml s) {e : (Column × Str) × SkillCell}
    (he : e ∈ s.under Column.skill (keysUnder skillKeys)) :
    e = ((.skill, skillMetaKey (shownOf e.2).name), .summary (shownOf e.2)) ∧
    s[e.1]? = some e.2 := by
  obtain ⟨⟨col, k⟩, cell⟩ := e
  obtain ⟨hcell, hcol, hunder⟩ := ColMap.mem_under.mp he
  simp only at hcol hunder
  subst hcol
  obtain ⟨x, -, -, rfl, rfl, -⟩ := h.listed k cell hcell hunder
  exact ⟨rfl, hcell⟩

theorem sees_get (key : Str) (s : Catalogue) :
    Prog.Sees catalogue (Prog.perform (SkillOp.get key)) s
    (.ok s[((.skill, key) : Column × Str)]?) :=
  .perform rfl

theorem sees_readSummary {key : Str} {x : SkillSummary}
    (hk : s[((.skill, key) : Column × Str)]? = some (.summary x)) :
    Prog.Sees catalogue (readSummary key) s (.ok (some x)) := by
  have hget := sees_get key s
  rw [hk] at hget
  exact hget.next (.pure _ _)

theorem Stocked.readSummaries (h : Stocked yaml s) {es : List ((Column × Str) × SkillCell)}
    (hes : ∀ e ∈ es, e ∈ s.under Column.skill (keysUnder skillKeys)) :
    Prog.Sees catalogue (readSummaries (es.map fun e => e.1.2)) s
    (.ok (es.map fun e => shownOf e.2)) := by
  induction es with
  | nil => rfl
  | cons e es ih =>
    obtain ⟨he, hcell⟩ := h.entry (hes e List.mem_cons_self)
    have hread : Prog.Sees catalogue (readSummary e.1.2) s (.ok (some (shownOf e.2))) := by
      refine sees_readSummary ?_
      rw [he] at hcell ⊢
      exact hcell
    exact hread.next ((ih fun e' he' => hes e' (List.mem_cons_of_mem _ he')).next (.pure _ _))

theorem Stocked.listSkills (h : Stocked yaml s) (limit offset : Nat) :
    Prog.Sees catalogue (listSkills limit offset) s
    (.ok (((catalogueOf s).drop offset).take limit)) := by
  have hpage : ∀ e ∈ ((s.under Column.skill (keysUnder skillKeys)).drop offset).take limit, e ∈
      s.under Column.skill (keysUnder skillKeys) :=
    fun e he => List.mem_of_mem_drop (List.mem_of_mem_take he)
  have hread := h.readSummaries hpage
  rw [List.map_take, List.map_take, List.map_drop, List.map_drop] at hread
  exact Prog.Sees.next (.perform rfl) hread

theorem Stocked.sorted (h : Stocked yaml s) : (catalogueOf s).Pairwise fun x y =>
    compare x.name y.name = .lt := by
  rw [catalogueOf, List.pairwise_map]
  refine (ColMap.sorted_under s Column.skill _).imp_of_mem fun {a b} ha hb hlt => ?_
  have hcol : compare Column.skill Column.skill = .eq := ReflCmp.compare_self
  rw [(h.entry ha).1, (h.entry hb).1, colCmp_eq, hcol, Ordering.eq_then, compare_skillMetaKey] at hlt
  exact hlt

theorem Stocked.loads (h : Stocked yaml s) {x : SkillSummary} (hx : x ∈ catalogueOf s) :
    ∃ skill, Prog.interp catalogue (loadSkill yaml x.name) s = .ok (some skill) s ∧
    skill.name = x.name := by
  obtain ⟨e, he, rfl⟩ := List.mem_map.mp hx
  obtain ⟨-, -, hunder⟩ := ColMap.mem_under.mp he
  obtain ⟨hkey, hcell⟩ := h.entry he
  rw [hkey] at hcell hunder
  obtain ⟨x, markdown, skill, hx, -, hbody, hparse, hname⟩ := h.listed _ _ hcell hunder
  obtain rfl := SkillCell.summary.inj hx
  refine ⟨skill, ?_, hname⟩
  have hget := sees_get (skillBodyKey (shownOf e.2).name) s
  rw [hbody] at hget
  refine hget.next (r := .ok (some skill)) ?_
  show Prog.Sees catalogue (Prog.ofExcept (fromStr yaml markdown) >>= fun skill =>
      pure (some skill)) s _
  rw [hparse]
  rfl

/-- Whatever was cut short, a page of the listing is a page of one catalogue, and each skill in it
can be loaded. -/
theorem listed_loads {es : List (Trial SkillRequest (Except Error SkillAnswer))} {s : Catalogue}
    (hc : Course (Attends catalogue whole (SkillRequest.exec yaml)) ∅ es s) :
    ∃ all : List SkillSummary, all.Pairwise (fun x y => compare x.name y.name = .lt) ∧
      (∀ limit offset, Prog.interp catalogue (listSkills limit offset) s =
        .ok ((all.drop offset).take limit) s) ∧
      ∀ x ∈ all, ∃ skill, Prog.interp catalogue (loadSkill yaml x.name) s = .ok (some skill) s ∧
      skill.name = x.name := by
  have h := stocked_course Stocked.empty hc
  exact ⟨catalogueOf s, h.sorted, h.listSkills, fun x hx => h.loads hx⟩

end

/-! ### A change that is cut short -/

section

def twoLines (frontmatter : Str) : Except Str Frontmatter :=
  match frontmatter.splitOn '\n' with
  | [name, description] =>
    .ok ⟨name.drop "name: ".length, description.drop "description: ".length, none, none, ∅, []⟩
  | _ => .error "missing field".toList

def deploySkill : Skill := ⟨"deploy".toList, "ship it".toList, none, none, ∅, [],
    "run the script".toList⟩

def deployMd : Str := "---\nname: deploy\ndescription: ship it\n---\nrun the script".toList

theorem fromStr_deployMd : fromStr twoLines deployMd = .ok deploySkill := rfl

theorem putSkill_deployMd : putSkill twoLines deployMd =
    Prog.call (.put (skillBodyKey "deploy".toList) (.body deployMd)) fun r =>
    (Prog.ofExcept r : SkillM Unit) >>= fun _ =>
    Prog.perform (SkillOp.put (skillMetaKey "deploy".toList) (.summary (summaryOf deploySkill))) >>=
      fun _ => pure (summaryOf deploySkill) := by
  rw [putSkill, fromStr_deployMd]
  rfl

/-- A process dies in a put, and the next one finds the skill, puts it again and is refused a
text. -/
def cutLife : List (Trial SkillRequest (Except Error SkillAnswer)) :=
  [.died (.putSkill deployMd), .served (.loadSkill "deploy".toList)
    (.ok (.loaded (some deploySkill))),
    .served (.putSkill deployMd) (.ok (.put (summaryOf deploySkill))),
    .faulted (.listSkills 10 0) (.error .io)]

/-- The process dies with the body written and no summary. The skill is listed when it is put
again. -/
theorem listed_loads_cutLife :
    ∃ s : Catalogue, Course (Attends catalogue whole (SkillRequest.exec twoLines)) ∅ cutLife s ∧
    catalogueOf s = [summaryOf deploySkill] ∧
    ∃ all : List SkillSummary, all.Pairwise (fun x y => compare x.name y.name = .lt) ∧
      (∀ limit offset, Prog.interp catalogue (listSkills limit offset) s =
        .ok ((all.drop offset).take limit) s) ∧
      ∀ x ∈ all, ∃ skill, Prog.interp catalogue (loadSkill twoLines x.name) s = .ok (some skill) s ∧
      skill.name = x.name := by
  let s : Catalogue := (∅ : Catalogue).insert (.skill, skillBodyKey "deploy".toList)
      (.body deployMd)
  let s' : Catalogue := (s.insert (.skill, skillBodyKey "deploy".toList) (.body deployMd)).insert
    (.skill, skillMetaKey "deploy".toList) (.summary (summaryOf deploySkill))
  have hdied : Prog.Dies catalogue whole ((SkillRequest.putSkill deployMd).exec twoLines) ∅ s := by
    show Prog.Dies catalogue whole (putSkill twoLines deployMd >>= fun x =>
        pure (SkillAnswer.put x)) ∅ s
    rw [putSkill_deployMd]
    exact .step (.ok rfl) (.here _ _)
  have hload : Prog.Sees catalogue ((SkillRequest.loadSkill "deploy".toList).exec twoLines) s
      (.ok (.loaded (some deploySkill))) := by
    have hget := sees_get (skillBodyKey "deploy".toList) s
    rw [find_insert, if_pos rfl] at hget
    refine Prog.Sees.next (hget.next (r := .ok (some deploySkill)) ?_) (.pure _ _)
    show Prog.Sees catalogue (Prog.ofExcept (fromStr twoLines deployMd) >>= fun skill =>
        pure (some skill)) s _
    rw [fromStr_deployMd]
    rfl
  have hput : Prog.Runs False catalogue ((SkillRequest.putSkill deployMd).exec twoLines) s
      (.ok (.put (summaryOf deploySkill))) s' := by
    show Prog.Runs False catalogue (putSkill twoLines deployMd >>= fun x =>
        pure (SkillAnswer.put x)) s _ s'
    rw [putSkill_deployMd]
    exact .ok rfl (.ok rfl (.done _ _))
  have hlist : Prog.Falters catalogue whole ((SkillRequest.listSkills 10 0).exec twoLines) s'
      (.error .io) s' :=
    .step (.fault .io trivial) (.fail _ _)
  have hcourse : Course (Attends catalogue whole (SkillRequest.exec twoLines)) ∅ cutLife s' :=
    .cons (.died hdied) (.cons (.served (Prog.runs_of_interp False hload))
      (.cons (.served hput) (.cons (.faulted hlist) (.nil _))))
  exact ⟨s', hcourse, by decide, listed_loads hcourse⟩

end

end Crabtalk.Store

import Crabtalk.Backend.Printed
import Crabtalk.Backend.Skills
import Crabtalk.Store.Agents

/-!
# Agents, one file each

There is no index of names: a name is found by reading the configs, where the
keyspace keeps a row for it. As long as no two agents bear one name, the two
stores cannot be told apart.
-/

open Basis Std

namespace Crabtalk.Backend

open Store

/-! ## Configs as they are stored -/

/-- A path is written bare, so that the path `home` is read as the home directory. -/
def rereadRoot : Root → Root
  | .fixed path => if path = "home".toList then .home else .fixed path
  | root => root

def reread (c : AgentConfig) : AgentConfig :=
  { c.persist with harnesses := c.harnesses.map fun h => { h with root := h.root.map rereadRoot } }

theorem rereadRoot_idem (root : Root) : rereadRoot (rereadRoot root) = rereadRoot root := by
  cases root with
  | session path => rfl
  | home => rfl
  | fixed path =>
    by_cases hp : path = "home".toList
    · rw [rereadRoot, if_pos hp]
      rfl
    · rw [rereadRoot, if_neg hp, rereadRoot, if_neg hp]

theorem reread_idem (c : AgentConfig) : reread (reread c) = reread c := by
  have hroot : ∀ root : Option Root, (root.map rereadRoot).map rereadRoot = root.map rereadRoot :=
    fun root => by
    rw [Option.map_map]
    exact Option.map_congr fun r _ => rereadRoot_idem r
  simp only [reread, AgentConfig.persist, List.map_map, AgentConfig.mk.injEq, true_and, and_true]
  exact List.map_congr_left fun h _ => by simp only [Function.comp_apply, hroot]

abbrev Staffer := { c : AgentConfig // reread c = c }

def stored (c : AgentConfig) : Staffer := ⟨reread c, reread_idem c⟩

theorem stored_renamed (c : Staffer) (name : Str) :
    (stored { c.1 with name }).1 = { c.1 with name } := by
  have hc := c.2
  simp only [reread, AgentConfig.persist] at hc
  have hh := congrArg AgentConfig.harnesses hc
  have ht := congrArg AgentConfig.tools hc
  simp only at hh ht
  simp only [stored, reread, AgentConfig.persist, AgentConfig.mk.injEq, true_and]
  exact ⟨hh, ht⟩

/-! ## Requests -/

inductive AgentRequest
  | loadAgent (id : AgentId)
  | loadAgentByName (name : Str)
  | agentIds
  | upsertAgent (config : AgentConfig)
  | deleteAgent (id : AgentId)
  | renameAgent (id : AgentId) (newName : Str)
  | defaultAgent
  | setDefaultAgent (id : AgentId)

inductive AgentAnswer
  | config (found : Option AgentConfig)
  | ids (ids : List AgentId)
  | done
  | changed (was : Bool)
  | chosen (id : Option AgentId)
  deriving DecidableEq

/-! ## The interface over the keyspace -/

def AgentRequest.keyed {μ : Type} : AgentRequest → KvM μ AgentAnswer
  | .loadAgent id => do
    let found ← Store.loadAgent id
    return .config found
  | .loadAgentByName name => do
    let found ← Store.loadAgentByName name
    return .config found
  | .agentIds => do
    let ids ← Store.agentIds
    return .ids ids
  | .upsertAgent config => do
    Store.upsertAgent config
    return .done
  | .deleteAgent id => do
    let was ← Store.deleteAgent id
    return .changed was
  | .renameAgent id newName => do
    let was ← Store.renameAgent id newName
    return .changed was
  | .defaultAgent => do
    let id ← Store.defaultAgent
    return .chosen id
  | .setDefaultAgent id => do
    Store.setDefaultAgent id
    return .done

/-! ## The interface over the directory -/

def byName (agents : List AgentConfig) : List AgentConfig := agents.insertionSort fun a b =>
    compare a.name b.name ≠ .gt

section
variable (c : Records Staffer)

def defaultAgentPath : FilePath := [.normal c.dir, .normal "default".toList]

def loadAgent (id : AgentId) : DirM (Option AgentConfig) := do
  let found ← c.load id.toStr
  return found.map Subtype.val

def readAgents : List Str → DirM (List AgentConfig)
  | [] => return []
  | name :: names =>
    match AgentId.ofStr name with
    | none => readAgents names
    | some id => do
      let found ← loadAgent c id
      let rest ← readAgents names
      return found.toList ++ rest

def allAgents : DirM (List AgentConfig) := do
  let names ← c.names
  let agents ← readAgents c names
  return byName agents

def loadAgentByName (name : Str) : DirM (Option AgentConfig) := do
  let agents ← allAgents c
  return agents.find? fun config => config.name = name

def agentIds : DirM (List AgentId) := do
  let agents ← allAgents c
  return agents.map AgentConfig.id

def upsertAgent (config : AgentConfig) : DirM Unit := do
  Prog.ofExcept (checkTableName "agent".toList config.name)
  c.save config.id.toStr (stored config)

def deleteAgent (id : AgentId) : DirM Bool := c.forget id.toStr

def renameAgent (id : AgentId) (newName : Str) : DirM Bool := do
  Prog.ofExcept (checkTableName "agent".toList newName)
  match ← loadAgent c id with
  | none => return false
  | some config =>
    c.save id.toStr (stored { config with name := newName })
    return true

def defaultAgent : DirM (Option AgentId) := do
  match ← files (readToString (defaultAgentPath c)) with
  | none => return none
  | some raw => return AgentId.ofStr (Basis.trim raw)

def setDefaultAgent (id : AgentId) : DirM Unit := files (write (defaultAgentPath c) (utf8 id.toStr))

def AgentRequest.serve : AgentRequest → DirM AgentAnswer
  | .loadAgent id => do
    let found ← Backend.loadAgent c id
    return .config found
  | .loadAgentByName name => do
    let found ← Backend.loadAgentByName c name
    return .config found
  | .agentIds => do
    let ids ← Backend.agentIds c
    return .ids ids
  | .upsertAgent config => do
    Backend.upsertAgent c config
    return .done
  | .deleteAgent id => do
    let was ← Backend.deleteAgent c id
    return .changed was
  | .renameAgent id newName => do
    let was ← Backend.renameAgent c id newName
    return .changed was
  | .defaultAgent => do
    let id ← Backend.defaultAgent c
    return .chosen id
  | .setDefaultAgent id => do
    Backend.setDefaultAgent c id
    return .done

end

/-! ## What it stands for -/

structure Staff where
  agents : Docs Staffer
  chosen : Option AgentId

def roll (m : Docs Staffer) : List AgentConfig := byName (m.toList.map fun e => e.2.1)

def Staff.enter (m : Staff) (c : AgentConfig) : Staff :=
  { m with agents := m.agents.insert c.id.toStr (stored c) }

def Staff.rename (m : Staff) (id : AgentId) (newName : Str) : Staff :=
  match m.agents[id.toStr]? with
  | none => m
  | some config =>
    { m with agents := m.agents.insert id.toStr (stored { config.1 with name := newName }) }

def agentAnswer (m : Staff) : AgentRequest → Except Error AgentAnswer
  | .loadAgent id => .ok (.config (m.agents[id.toStr]?.map Subtype.val))
  | .loadAgentByName name => .ok (.config ((roll m.agents).find? fun config => config.name = name))
  | .agentIds => .ok (.ids ((roll m.agents).map AgentConfig.id))
  | .upsertAgent config => (checkTableName "agent".toList config.name).map fun _ => .done
  | .deleteAgent id => .ok (.changed m.agents[id.toStr]?.isSome)
  | .renameAgent id newName =>
    (checkTableName "agent".toList newName).map fun _ => .changed m.agents[id.toStr]?.isSome
  | .defaultAgent => .ok (.chosen m.chosen)
  | .setDefaultAgent _ => .ok .done

def agentChange (m : Staff) : AgentRequest → Staff
  | .upsertAgent config =>
    if (checkTableName "agent".toList config.name).isOk then m.enter config else m
  | .deleteAgent id => { m with agents := m.agents.erase id.toStr }
  | .renameAgent id newName =>
    if (checkTableName "agent".toList newName).isOk then m.rename id newName else m
  | .setDefaultAgent id => { m with chosen := some id }
  | _ => m

/-- An upsert of a config that is read as it is written, under a name no other agent bears; a rename
to a name no agent bears at all. -/
def Unclaimed (m : Staff) : AgentRequest → Prop
  | .upsertAgent config =>
    reread config = config.persist ∧ ∀ k c, m.agents[(k : Str)]? = some c → c.1.name = config.name →
      c.1.id = config.id
  | .renameAgent id newName =>
    m.agents[id.toStr]?.isSome → ∀ k c, m.agents[(k : Str)]? = some c → c.1.name ≠ newName
  | _ => True

structure Enrolled (m : Docs Staffer) : Prop where
  keyed : ∀ k c, m[(k : Str)]? = some c → k = c.1.id.toStr
  distinct : ∀ k k' c c', m[(k : Str)]? = some c → m[(k' : Str)]? = some c' →
    c.1.name = c'.1.name → k = k'

section
variable {m : Docs Staffer} {config : AgentConfig}

theorem Enrolled.empty : Enrolled ∅ := ⟨fun k c h => by simp at h, fun k k' c c' h => by simp at h⟩

variable (config) in
theorem Enrolled.enter (h : Enrolled m)
    (hfree : ∀ k c, m[(k : Str)]? = some c → c.1.name = config.name → c.1.id = config.id) :
    Enrolled (m.insert config.id.toStr (stored config)) := by
  refine ⟨fun k c hk => ?_, fun k k' c c' hk hk' hn => ?_⟩
  · rw [find_insert] at hk
    by_cases he : config.id.toStr = k
    · rw [if_pos he] at hk
      cases hk
      exact he.symm
    · rw [if_neg he] at hk
      exact h.keyed k c hk
  · have hown : ∀ k c, m[(k : Str)]? = some c → c.1.name = config.name → config.id.toStr = k :=
      fun k c hc hname => by
      rw [h.keyed k c hc, hfree k c hc hname]
    rw [find_insert] at hk hk'
    by_cases he : config.id.toStr = k
    · by_cases he' : config.id.toStr = k'
      · exact he.symm.trans he'
      · rw [if_pos he] at hk
        rw [if_neg he'] at hk'
        cases hk
        exact absurd (hown k' c' hk' hn.symm) he'
    · by_cases he' : config.id.toStr = k'
      · rw [if_neg he] at hk
        rw [if_pos he'] at hk'
        cases hk'
        exact absurd (hown k c hk hn) he
      · rw [if_neg he] at hk
        rw [if_neg he'] at hk'
        exact h.distinct k k' c c' hk hk' hn

theorem Enrolled.erase (h : Enrolled m) (name : Str) : Enrolled (m.erase name) := by
  have hold : ∀ k c, (m.erase name)[(k : Str)]? = some c → m[k]? = some c := by
    intro k c hk
    rw [find_erase] at hk
    by_cases hn : name = k
    · rw [if_pos hn] at hk
      cases hk
    · rwa [if_neg hn] at hk
  exact ⟨fun k c hk => h.keyed k c (hold k c hk),
    fun k k' c c' hk hk' => h.distinct k k' c c' (hold k c hk) (hold k' c' hk')⟩

theorem enter_cases {m : Staff} {k : Str} {d : Staffer} (h : (m.enter config).agents[k]? = some d) :
    d = stored config ∨ m.agents[k]? = some d := by
  rw [Staff.enter, find_insert] at h
  by_cases hk : config.id.toStr = k
  · rw [if_pos hk] at h
    exact .inl (Option.some.inj h).symm
  · rw [if_neg hk] at h
    exact .inr h

theorem mem_roll : config ∈ roll m ↔ ∃ k c, m[(k : Str)]? = some c ∧ c.1 = config := by
  rw [roll, byName, List.mem_insertionSort, List.mem_map]
  constructor
  · rintro ⟨e, he, rfl⟩
    exact ⟨e.1, e.2, ExtTreeMap.mem_toList_iff_getElem?_eq_some.mp he, rfl⟩
  · rintro ⟨k, c, hk, rfl⟩
    exact ⟨(k, c), ExtTreeMap.mem_toList_iff_getElem?_eq_some.mpr hk, rfl⟩

theorem Enrolled.mem_roll (h : Enrolled m) : config ∈ roll m ↔
    m[config.id.toStr]?.map Subtype.val = some config := by
  rw [Backend.mem_roll, Option.map_eq_some_iff]
  constructor
  · rintro ⟨k, c, hk, rfl⟩
    rw [← h.keyed k c hk]
    exact ⟨c, hk, rfl⟩
  · rintro ⟨c, hc, rfl⟩
    exact ⟨_, c, hc, rfl⟩

theorem Enrolled.sorted (h : Enrolled m) : (roll m).Pairwise fun a b =>
    compare a.name b.name = .lt := by
  have total : Std.Total fun a b : AgentConfig => compare a.name b.name ≠ .gt :=
    ⟨fun _ _ => total_cmp _ _⟩
  have trans : IsTrans AgentConfig fun a b => compare a.name b.name ≠ .gt :=
    ⟨fun _ _ _ => trans_cmp⟩
  have hperm : (roll m).Perm (m.toList.map fun e => e.2.1) := List.perm_insertionSort _ _
  have hdistinct : (m.toList.map fun e => e.2.1).Pairwise fun a b => a.name ≠ b.name := by
    refine List.pairwise_map.mpr (ExtTreeMap.ordered_keys_toList.imp_of_mem
      fun {a b} ha hb hlt hn => ?_)
    rw [ExtTreeMap.mem_toList_iff_getElem?_eq_some] at ha hb
    rw [h.distinct _ _ _ _ ha hb hn] at hlt
    exact lt_irrefl_cmp _ hlt
  refine ((List.pairwise_insertionSort (fun a b : AgentConfig => compare a.name b.name ≠ .gt) _).and
    ((hperm.pairwise_iff fun hab => hab.symm).mpr hdistinct)).imp fun {a b} hab => ?_
  cases hc : compare a.name b.name with
  | lt => rfl
  | eq => exact absurd (LawfulEqCmp.eq_of_compare hc) hab.2
  | gt => exact absurd hc hab.1

theorem find?_roll {name : Str} (found : Option AgentConfig)
    (hfound : ∀ config, found = some config ↔ config ∈ roll m ∧ config.name = name) :
    ((roll m).find? fun config => config.name = name) = found := by
  cases hf : (roll m).find? fun config => config.name = name with
  | none =>
    cases found with
    | none => rfl
    | some config =>
      obtain ⟨hmem, hname⟩ := (hfound config).mp rfl
      exact absurd hname (by simpa using List.find?_eq_none.mp hf config hmem)
  | some config =>
    exact ((hfound config).mpr ⟨List.mem_of_find?_eq_some hf,
      by simpa using List.find?_some hf⟩).symm

end

/-! ## Digits -/

theorem isWhite_base32 (w n : Nat) : ∀ d ∈ base32 w n, isWhite d = false := by
  have hdigit : ∀ k < 32, isWhite (crockford.getD k '0') = false := by decide
  induction w generalizing n with
  | zero => simp [base32]
  | succ w ih =>
    intro d hd
    rcases List.mem_append.mp hd with hd | hd
    · exact ih _ d hd
    · rw [List.mem_singleton.mp hd]
      exact hdigit _ (Nat.mod_lt _ (by decide))

theorem trim_toStr (id : AgentId) : Basis.trim id.toStr = id.toStr :=
  (trim_eq_self_iff fun d hd => isWhite_base32 _ _ d (List.mem_of_head? hd)).mpr fun d hd =>
    isWhite_base32 _ _ d (List.mem_of_getLast? hd)

/-! ## The directory -/

structure Housed (c : Records Staffer) (s : Shelf) (m : Staff) : Prop where
  shelved : c.Shelved m.agents s.tree
  enrolled : Enrolled m.agents
  chosen : s.tree.fileAt [c.dir, "default".toList] = m.chosen.map fun id => utf8 id.toStr

section
variable {c : Records Staffer} {order : List Str → List Str} {m : Staff} {s s' : Shelf}

theorem Housed.same (h : Housed c s m) (hs : s'.tree = s.tree) : Housed c s' m :=
  ⟨by rw [hs]; exact h.shelved, h.enrolled, by rw [hs]; exact h.chosen⟩

theorem Housed.beside (h : Housed c s m) (happ : ∀ stem, "default".toList ≠ stem ++ c.suffix)
    {agents : Docs Staffer}
    (hs : c.Shelved agents s'.tree) (he : Enrolled agents) (hb : c.Beside s.tree s'.tree) :
    Housed c s' { m with agents := agents } where
  shelved := hs
  enrolled := he
  chosen := by
    rw [hb _ happ fun name hn => ?_]
    · exact h.chosen
    · have hlast := congrArg List.getLast? hn
      rw [tmpName, List.getLast?_append_of_ne_nil _ (by decide)] at hlast
      cases hlast

theorem wp_loadAgent (h : Housed c s m) (id : AgentId) :
    Prog.wp False (shelf order) (loadAgent c id)
    (fun found s' => found = m.agents[id.toStr]?.map Subtype.val ∧ s'.tree = s.tree)
    (fun _ _ => False) s := by
  refine Prog.wp_bind.mpr ((Records.during_load (I := fun _ => True) trivial h.shelved).mono
    (fun _ _ => trivial) (fun found s' hf => ?_)
    fun _ _ he => he)
  obtain ⟨hs, rfl | ⟨hf, -⟩⟩ := hf
  · exact ⟨rfl, hs⟩
  · exact hf.elim

theorem wp_readAgents (h : Housed c s m) (names : List Str) :
    Prog.wp False (shelf order) (readAgents c names)
    (fun agents s' => agents = names.filterMap
      (fun name => (AgentId.ofStr name).bind fun id => m.agents[id.toStr]?.map Subtype.val) ∧
      s'.tree = s.tree) (fun _ _ => False) s := by
  induction names generalizing s with
  | nil => exact ⟨rfl, rfl⟩
  | cons name names ih =>
    rw [readAgents, List.filterMap_cons]
    cases AgentId.ofStr name with
    | none => exact ih h
    | some id =>
      refine Prog.wp_bind.mpr ((wp_loadAgent h id).mono (fun found s₁ hf => ?_) fun _ _ he => he)
      obtain ⟨rfl, hs⟩ := hf
      refine Prog.wp_bind.mpr ((ih (h.same hs)).mono (fun agents s₂ ha => ?_) fun _ _ he => he)
      obtain ⟨rfl, hs₂⟩ := ha
      refine ⟨?_, hs₂.trans hs⟩
      rw [Option.bind_some]
      cases m.agents[id.toStr]?.map Subtype.val with
      | none => rfl
      | some config => rfl

theorem Enrolled.read {m : Docs Staffer} (h : Enrolled m) :
    (m.keys.filterMap fun name => (AgentId.ofStr name).bind fun id =>
      m[id.toStr]?.map Subtype.val) = m.toList.map fun e => e.2.1 := by
  rw [← ExtTreeMap.map_fst_toList_eq_keys, List.filterMap_map, ← List.filterMap_eq_map]
  refine List.filterMap_congr fun e he => ?_
  have hc := ExtTreeMap.mem_toList_iff_getElem?_eq_some.mp he
  rw [Function.comp_apply, h.keyed _ _ hc, AgentId.ofStr_toStr, Option.bind_some,
    ← h.keyed _ _ hc, hc]
  rfl

theorem wp_allAgents (h : Housed c s m) (hperm : ∀ l, (order l).Perm l) :
    Prog.wp False (shelf order) (allAgents c)
    (fun agents s' => agents = roll m.agents ∧ s'.tree = s.tree) (fun _ _ => False) s := by
  refine Prog.wp_bind.mpr ((Records.during_names (J := fun _ => True) h.shelved hperm trivial).mono
    (fun _ _ => trivial)
    (fun names s₁ hn => ?_) fun _ _ he => he.1)
  obtain ⟨rfl, rfl | ⟨hf, -⟩⟩ := hn
  · refine Prog.wp_bind.mpr ((wp_readAgents h _).mono (fun agents s₂ ha => ?_) fun _ _ he => he)
    obtain ⟨rfl, hs⟩ := ha
    rw [h.enrolled.read]
    exact ⟨rfl, hs⟩
  · exact hf.elim

theorem Housed.save (h : Housed c s m) (happ : ∀ stem, "default".toList ≠ stem ++ c.suffix)
    (hfits : ∀ id : AgentId, c.Fits id.toStr) (config : AgentConfig)
    (hfree : ∀ k c, m.agents[(k : Str)]? = some c → c.1.name = config.name → c.1.id = config.id) :
    Prog.wp False (shelf order) (c.save config.id.toStr (stored config))
    (fun _ s' => Housed c s' (m.enter config)) (fun _ _ => False) s :=
  (Records.during_save (I := fun _ => True) h.shelved fun _ _ => trivial).mono (fun _ _ => trivial)
    (fun _ _ hs => h.beside happ hs.2.1 (h.enrolled.enter config hfree) hs.2.2) fun _ _ he =>
      he.1.elim (fun hno => hno.1 (hfits _)) id

theorem wp_defaultAgent (h : Housed c s m) : Prog.wp False (shelf order) (defaultAgent c)
    (fun id s' => id = m.chosen ∧ s'.tree = s.tree) (fun _ _ => False) s := by
  have hread : Prog.wp False (shelf order) (files (readToString (defaultAgentPath c)))
      (fun found s' => found = m.chosen.map AgentId.toStr ∧ s'.tree = s.tree)
        (fun _ _ => False) s := by
    refine during_files (J := fun _ => True)
      (Q := fun found t => found = m.chosen.map AgentId.toStr ∧ t = s.tree)
      (E := fun _ _ => False) ?_
    unfold readToString
    rw [Prog.during_bind, Prog.during_attempt]
    refine ⟨trivial, ?_, False.elim⟩
    unfold Basis.wp
    simp only [disk, defaultAgentPath, h.shelved.locate, Option.bind_some, h.chosen]
    cases m.chosen with
    | none => exact ⟨rfl, rfl⟩
    | some id => exact ⟨fromUtf8_utf8 _, rfl⟩
  refine Prog.wp_bind.mpr (hread.mono (fun found s' hf => ?_) fun _ _ he => he)
  obtain ⟨rfl, hs⟩ := hf
  cases hm : m.chosen with
  | none => exact ⟨rfl, hs⟩
  | some id =>
    refine ⟨?_, hs⟩
    show AgentId.ofStr (Basis.trim id.toStr) = some id
    rw [trim_toStr, AgentId.ofStr_toStr]

theorem wp_setDefaultAgent (h : Housed c s m) (happ : ∀ stem, "default".toList ≠ stem ++ c.suffix)
    (id : AgentId) :
    Prog.wp False (shelf order) (setDefaultAgent c id)
    (fun _ s' => Housed c s' { m with chosen := some id }) (fun _ _ => False) s := by
  refine during_files (J := fun _ => True) (Q := fun _ t => c.Shelved m.agents t ∧
    t.fileAt [c.dir, "default".toList] = some (utf8 id.toStr))
    (E := fun _ _ => False) ?_ |>.mono (fun _ _ => trivial)
      (fun _ s' hs => ⟨hs.1, h.enrolled, hs.2⟩) fun _ _ he => he
  obtain ⟨t', ht⟩ : ∃ t', s.tree.writeFile [c.dir, "default".toList] (utf8 id.toStr) = some t' :=
    FileTree.writeFile_some (by simp) h.shelved.opened (h.shelved.flat _)
      (show NameLimit.fits "default".toList = true by decide) _
  have hw : (s.tree.locate (defaultAgentPath c)).bind
      (fun loc => s.tree.writeFile loc (utf8 id.toStr)) = some t' := by
    rw [defaultAgentPath, h.shelved.locate]
    exact ht
  refine during_write trivial hw False.elim ⟨h.shelved.congr (fun l => FileTree.isDir_writeFile ht)
    fun stem => ?_, ?_⟩
  · rw [FileTree.fileAt_writeFile ht, if_neg]
    intro he
    exact happ stem (by simpa using he.symm)
  · rw [FileTree.fileAt_writeFile ht, if_pos rfl]

theorem serves_agents (hperm : ∀ l, (order l).Perm l)
    (happ : ∀ stem, "default".toList ≠ stem ++ c.suffix)
    (hfits : ∀ id : AgentId, c.Fits id.toStr) :
    Obeys (shelf order) (fun q => (AgentRequest.serve c q).attempt) agentAnswer agentChange
    (Housed c) Unclaimed := by
  intro q s m hq h
  rw [Prog.wp_attempt]
  cases q with
  | loadAgent id =>
    refine Prog.wp_bind.mpr ((wp_loadAgent h id).mono (fun found s' hf => ?_) fun _ _ he => he.elim)
    obtain ⟨rfl, hs⟩ := hf
    exact ⟨rfl, h.same hs⟩
  | loadAgentByName name =>
    refine Prog.wp_bind.mpr (Prog.wp_bind.mpr ((wp_allAgents h hperm).mono (fun agents s' ha => ?_)
      fun _ _ he => he.elim))
    obtain ⟨rfl, hs⟩ := ha
    exact ⟨rfl, h.same hs⟩
  | agentIds =>
    refine Prog.wp_bind.mpr (Prog.wp_bind.mpr ((wp_allAgents h hperm).mono (fun agents s' ha => ?_)
      fun _ _ he => he.elim))
    obtain ⟨rfl, hs⟩ := ha
    exact ⟨rfl, h.same hs⟩
  | upsertAgent config =>
    rw [AgentRequest.serve, upsertAgent, agentAnswer, agentChange]
    cases checkTableName "agent".toList config.name with
    | error e => exact ⟨rfl, h⟩
    | ok _ => exact Prog.wp_bind.mpr ((h.save happ hfits _ hq.2).mono (fun _ s' hs => ⟨rfl, hs⟩)
        fun _ _ he => he.elim)
  | deleteAgent id =>
    refine Prog.wp_bind.mpr
      (((Records.during_forget (I := fun _ => True) (E := fun _ _ => False) h.shelved trivial).mono
      (fun _ _ => trivial)
      (fun was s' hw => ?_) fun _ _ he => he.elim))
    rcases hw with ⟨rfl, hs, hb⟩ | ⟨hf, -⟩
    · exact ⟨rfl, h.beside happ hs (h.enrolled.erase _) hb⟩
    · exact hf.elim
  | renameAgent id newName =>
    rw [AgentRequest.serve, renameAgent, agentAnswer, agentChange]
    cases checkTableName "agent".toList newName with
    | error e => exact ⟨rfl, h⟩
    | ok u =>
      -- the agent is loaded, then saved under its old id
      have hthen : (if (Except.ok u : Except Error Unit).isOk = true then m.rename id newName
          else m) = m.rename id newName := if_pos rfl
      rw [hthen]
      refine Prog.wp_bind.mpr (Prog.wp_bind.mpr
        (Prog.wp_bind.mpr ((wp_loadAgent h id).mono (fun found s₁ hf => ?_) fun _ _ he => he.elim)))
      obtain ⟨rfl, hs⟩ := hf
      rw [Staff.rename]
      cases hm : m.agents[id.toStr]? with
      | none => exact ⟨rfl, h.same hs⟩
      | some config =>
        obtain rfl : id = config.1.id := AgentId.toStr_inj (h.enrolled.keyed _ _ hm)
        have hfree : ∀ k d, m.agents[(k : Str)]? = some d → d.1.name = newName →
            d.1.id = config.1.id := fun k d hk hn =>
          absurd hn (hq (by rw [hm]; rfl) k d hk)
        exact Prog.wp_bind.mpr
          (((h.same hs).save happ hfits { config.1 with name := newName } hfree).mono
          (fun _ s' hs' => ⟨rfl, hs'⟩)
          fun _ _ he => he.elim)
  | defaultAgent =>
    refine Prog.wp_bind.mpr ((wp_defaultAgent h).mono (fun id s' hd => ?_) fun _ _ he => he.elim)
    obtain ⟨rfl, hs⟩ := hd
    exact ⟨rfl, h.same hs⟩
  | setDefaultAgent id =>
    exact Prog.wp_bind.mpr ((wp_setDefaultAgent h happ id).mono (fun _ s' hs => ⟨rfl, hs⟩)
      fun _ _ he => he.elim)

end

/-! ## The keyspace -/

structure Seated {μ : Type} (k : Kv μ) (m : Staff) : Prop where
  named : Named k
  enrolled : Enrolled m.agents
  cell : ∀ id, k[((.agent, agentKey id) : Cell)]?.bind Value.asAgent =
    m.agents[id.toStr]?.map Subtype.val
  chosen : k[((.config, defaultAgentKey) : Cell)]? = m.chosen.map fun id => .raw id.toStr

section
variable {μ : Type} {k k' : Kv μ} {m : Staff} {id : AgentId}

/-- What becomes of the records and of the cells of the configuration when `id`'s record becomes `v`. -/
structure Reseats (id : AgentId) (v : Option (Value μ)) (k k' : Kv μ) : Prop where
  record : ∀ a, k'[((.agent, agentKey a) : Cell)]? = if a = id then v
    else k[((.agent, agentKey a) : Cell)]?
  config : ∀ key : Str, k'[((.config, key) : Cell)]? = k[((.config, key) : Cell)]?

theorem Reseats.refl {v : Option (Value μ)} (hv : k[((.agent, agentKey id) : Cell)]? = v) :
    Reseats id v k k where
  record a := by
    by_cases ha : a = id
    · rw [if_pos ha, ha, hv]
    · rw [if_neg ha]
  config _ := rfl

theorem Reseats.put {v : Option (Value μ)} (h : Reseats id v k k') (w : Value μ) :
    Reseats id (some w) k (k'.insert (.agent, agentKey id) w) where
  record a := by
    rw [find_insert, h.record]
    by_cases ha : a = id
    · rw [if_pos (by rw [ha]), if_pos ha]
    · rw [if_neg fun he => ha (agentKey_inj (Prod.mk.inj he).2).symm, if_neg ha, if_neg ha]
  config key := by rw [find_insert, if_neg (by simp), h.config]

theorem Reseats.drop {v : Option (Value μ)} (h : Reseats id v k k') :
    Reseats id none k (k'.erase (.agent, agentKey id)) where
  record a := by
    rw [find_erase, h.record]
    by_cases ha : a = id
    · rw [if_pos (by rw [ha]), if_pos ha]
    · rw [if_neg fun he => ha (agentKey_inj (Prod.mk.inj he).2).symm, if_neg ha, if_neg ha]
  config key := by rw [find_erase, if_neg (by simp), h.config]

theorem Reseats.putRow {v : Option (Value μ)} (h : Reseats id v k k') (name : Str) (w : Value μ) :
    Reseats id v k (k'.insert (.agent, agentNameKey name) w) where
  record a := by
    rw [find_insert, if_neg fun he => agentKey_ne_agentNameKey a name (Prod.mk.inj he).2.symm, h.record]
  config key := by rw [find_insert, if_neg (by simp), h.config]

theorem Reseats.dropRow {v : Option (Value μ)} (h : Reseats id v k k') (name : Str) :
    Reseats id v k (k'.erase (.agent, agentNameKey name)) where
  record a := by
    rw [find_erase, if_neg fun he => agentKey_ne_agentNameKey a name (Prod.mk.inj he).2.symm, h.record]
  config key := by rw [find_erase, if_neg (by simp), h.config]

/-! ### What the operations rewrite -/

theorem reseats_upsert (h : Named k) (config : AgentConfig) {u : Unit}
    (hu : checkTableName "agent".toList config.name = .ok u) :
    Prog.wp False memory (Store.upsertAgent config)
    (fun _ => Reseats config.id (some (.agent config)) k) (fun _ _ => False) k := by
  have finish : ∀ (k₁ : Kv μ) (v : Option (Value μ)), Reseats config.id v k k₁ →
      Prog.wp False memory (do
      put .agent (agentKey config.id) (.agent config)
      putAgentName config.name config.id) (fun _ => Reseats config.id (some (.agent config)) k)
        (fun _ _ => False) k₁ := by
    intro k₁ v h₁
    rw [Prog.wp_bind, wp_put, putAgentName, wp_put]
    exact ⟨⟨(h₁.put _).putRow _ _, False.elim⟩, False.elim⟩
  rw [Store.upsertAgent, validateTableName_eq, hu]
  refine Prog.wp_bind.mpr (Prog.wp_bind.mpr
    (Store.wp_loadAgent h (fun hnone => finish k _ (.refl rfl)) fun c hc => ?_))
  simp only
  by_cases hn : c.persist.name ≠ config.name
  · rw [if_pos hn, Prog.wp_bind, wp_delete]
    exact ⟨finish _ _ ((Reseats.refl rfl).dropRow _), False.elim⟩
  · rw [if_neg hn]
    exact finish k _ (.refl rfl)

theorem reseats_delete (h : Named k) (id : AgentId) : Prog.wp False memory (Store.deleteAgent id)
    (fun was k' => was = k[((.agent, agentKey id) : Cell)]?.isSome ∧ Reseats id none k k')
    (fun _ _ => False) k := by
  have hself : Reseats id k[((.agent, agentKey id) : Cell)]? k k := .refl rfl
  rw [Store.deleteAgent]
  refine Prog.wp_bind.mpr (Store.wp_loadAgent h (fun hnone => ?_) fun c hc => ?_)
  · exact wp_delete.mpr ⟨⟨rfl, hself.drop⟩, False.elim⟩
  · simp only
    rw [Prog.wp_bind, wp_delete, wp_delete]
    refine ⟨⟨⟨?_, (hself.dropRow _).drop⟩, False.elim⟩, False.elim⟩
    rw [(hself.dropRow c.persist.name).record, if_pos rfl]

theorem reseats_rename (h : Named k) {newName : Str} {u : Unit}
    (hu : checkTableName "agent".toList newName = .ok u) :
    Prog.wp False memory (Store.renameAgent id newName)
      (fun was k' => (k[((.agent, agentKey id) : Cell)]? = none ∧ was = false ∧ k' = k) ∨
        ∃ c, StoredAgent k id c ∧ was = true ∧
        Reseats id (some (.agent { c.persist with name := newName })) k k')
      (fun _ _ => False) k := by
  rw [Store.renameAgent, validateTableName_eq, hu]
  refine Prog.wp_bind.mpr (Prog.wp_bind.mpr
    (Store.wp_loadAgent h (fun hnone => .inl ⟨hnone, rfl, rfl⟩) fun c hc => ?_))
  simp only
  rw [Prog.wp_bind, wp_put, Prog.wp_bind, putAgentName, wp_put, Prog.wp_bind, wp_delete]
  have hself : Reseats id k[((.agent, agentKey id) : Cell)]? k k := .refl rfl
  exact ⟨⟨⟨.inr ⟨c, hc, rfl, ((hself.put _).putRow _ _).dropRow _⟩, False.elim⟩, False.elim⟩, False.elim⟩

/-! ### What it answers -/

theorem Seated.some_iff (h : Seated k m) {config : AgentConfig} :
    (∃ c, StoredAgent k id c ∧ c.persist = config) ↔
    m.agents[id.toStr]?.map Subtype.val = some config := by
  rw [← h.cell, Option.bind_eq_some_iff]
  constructor
  · rintro ⟨c, hc, rfl⟩
    exact ⟨_, hc, rfl⟩
  · rintro ⟨v, hv, hconfig⟩
    obtain ⟨c, rfl, -, -⟩ := h.named.records id v hv
    exact ⟨c, hv, Option.some.inj hconfig⟩

theorem Seated.isSome (h : Seated k m) : k[((.agent, agentKey id) : Cell)]?.isSome =
    m.agents[id.toStr]?.isSome := by
  rw [← Option.isSome_map (f := Subtype.val) (x := m.agents[id.toStr]?), ← h.cell]
  cases hk : k[((.agent, agentKey id) : Cell)]? with
  | none => rfl
  | some v =>
    obtain ⟨c, rfl, -, -⟩ := h.named.records id v hk
    rfl

theorem Seated.free (h : Seated k m) {a : AgentId} {c : AgentConfig} (hc : StoredAgent k a c) :
    ∃ d : Staffer, m.agents[a.toStr]? = some d ∧ d.1 = c.persist ∧ d.1.id = a := by
  obtain ⟨d, hd, hdc⟩ := Option.map_eq_some_iff.mp (h.some_iff.mp ⟨c, hc, rfl⟩)
  exact ⟨d, hd, hdc, by rw [hdc]; exact (h.named.own hc).1⟩

theorem Seated.byName (h : Seated k m) (name : Str) :
    Prog.Sees memory (Store.loadAgentByName name) k
    (.ok ((roll m.agents).find? fun config => config.name = name)) := by
  have hread := reads_loadAgentByName h.named name
  rw [find?_roll _ fun config => ?_]
  · exact hread
  · rw [h.enrolled.mem_roll]
    cases hrow : k[((.agent, agentNameKey name) : Cell)]? with
    | none =>
      simp only [Option.bind_none, reduceCtorEq, false_iff]
      rintro ⟨hconfig, rfl⟩
      obtain ⟨c, hc, rfl⟩ := h.some_iff.mpr hconfig
      have hown := (h.named.own hc).2
      rw [AgentConfig.persist_name, hown] at hrow
      cases hrow
    | some v =>
      obtain ⟨id, c, rfl, hc, rfl⟩ := h.named.rows name v hrow
      simp only [Option.bind_some, Value.asRaw, AgentId.ofStr_toStr]
      rw [hc, Option.bind_some, Value.asAgent, Option.some.injEq]
      constructor
      · rintro rfl
        refine ⟨?_, rfl⟩
        rw [show c.persist.id = id from (h.named.own hc).1]
        exact h.some_iff.mp ⟨c, hc, rfl⟩
      · rintro ⟨hconfig, hname⟩
        obtain ⟨d, hd, hdc⟩ := h.some_iff.mpr hconfig
        have hid := h.named.inj hd hc (by rw [← hname, ← hdc]; rfl)
        rw [hid] at hd
        rw [← hdc, hd.unique hc]

/-- The rows are the roll: a name, and whose it is. -/
theorem Seated.ids (h : Seated k m) :
    Prog.Sees memory Store.agentIds k (.ok ((roll m.agents).map AgentConfig.id)) := by
  let nameOf : Cell → Str := fun cell =>
      cell.2.drop (keysUnder ["idx".toList, "agent".toList]).length
  let rows := (k.under .agent (keysUnder ["idx".toList, "agent".toList])).filterMap fun e =>
      (e.2.asRaw.bind AgentId.ofStr).map fun id => (nameOf e.1, id)
  have hname : ∀ name, nameOf (.agent, agentNameKey name) = name := fun name => by
    simp only [nameOf, agentNameKey_eq, List.drop_left]
  have irr : Std.Irrefl fun a b : Str × AgentId => compare a.1 b.1 = .lt :=
    ⟨fun _ => lt_irrefl_cmp _⟩
  have anti : Std.Antisymm fun a b : Str × AgentId => compare a.1 b.1 = .lt :=
    ⟨fun _ _ h h' => absurd h' (lt_asymm_cmp h)⟩
  have hsorted : rows.Pairwise fun a b => compare a.1 b.1 = .lt := by
    refine List.pairwise_filterMap.mpr ((ColMap.sorted_under k .agent _).imp_of_mem
      fun {a b} ha hb hlt x hx y hy => ?_)
    obtain ⟨name, id, c, rfl, -, -⟩ := mem_agent_rows h.named ha
    obtain ⟨name', id', c', rfl, -, -⟩ := mem_agent_rows h.named hb
    simp only [Value.asRaw, Option.bind_some, AgentId.ofStr_toStr, Option.map_some,
      Option.some.injEq, hname] at hx hy
    rw [← hx, ← hy]
    have hcol : compare Column.agent Column.agent = .eq := ReflCmp.compare_self
    rw [colCmp_eq, hcol, Ordering.eq_then, agentNameKey_eq, agentNameKey_eq, compare_append_left] at hlt
    exact hlt
  have hroll : ((roll m.agents).map fun c => (c.name, c.id)).Pairwise fun a b =>
      compare a.1 b.1 = .lt := List.pairwise_map.mpr h.enrolled.sorted
  -- two lists sorted by name that hold the same pairs are one
  have hrows : rows = (roll m.agents).map fun c => (c.name, c.id) := by
    refine hsorted.eq_of_mem_iff hroll fun {e} => ?_
    rw [List.mem_filterMap, List.mem_map]
    constructor
    · rintro ⟨row, hrow, he⟩
      obtain ⟨name, id, c, rfl, hc, rfl⟩ := mem_agent_rows h.named hrow
      simp only [Value.asRaw, Option.bind_some, AgentId.ofStr_toStr, Option.map_some,
        Option.some.injEq, hname] at he
      have hid : c.id = id := (h.named.own hc).1
      refine ⟨c.persist, h.enrolled.mem_roll.mpr ?_, ?_⟩
      · show m.agents[c.id.toStr]?.map Subtype.val = _
        rw [hid]
        exact h.some_iff.mp ⟨c, hc, rfl⟩
      · rw [← he, ← hid]
        rfl
    · rintro ⟨config, hconfig, rfl⟩
      obtain ⟨c, hc, rfl⟩ := h.some_iff.mpr (h.enrolled.mem_roll.mp hconfig)
      refine ⟨((.agent, agentNameKey c.name), .raw c.id.toStr),
        ColMap.mem_under.mpr ⟨(h.named.own hc).2, rfl, ?_⟩, ?_⟩
      · exact ⟨c.name, (agentNameKey_eq c.name).symm⟩
      · simp only [Value.asRaw, Option.bind_some, AgentId.ofStr_toStr, Option.map_some, hname]
        rfl
  have hids : rows.map Prod.snd = (roll m.agents).map AgentConfig.id := by
    rw [hrows, List.map_map]
    rfl
  have hsame : ((k.under .agent (keysUnder ["idx".toList, "agent".toList])).map (·.2)).filterMap
      (fun v => v.asRaw.bind AgentId.ofStr) = rows.map Prod.snd := by
    rw [List.map_filterMap, List.filterMap_map]
    refine List.filterMap_congr fun e _ => ?_
    rw [Function.comp_apply, Option.map_map]
    exact (Option.map_id' (x := e.2.asRaw.bind AgentId.ofStr)).symm
  rw [← hids, ← hsame]
  exact reads_agentIds

theorem Seated.reseat (h : Seated k m) (hn : Named k') {config : AgentConfig}
    (hs : (stored config).1 = config.persist)
    (hr : Reseats id (some (.agent config)) k k')
    (he : Enrolled (m.agents.insert id.toStr (stored config))) :
    Seated k' { m with agents := m.agents.insert id.toStr (stored config) } where
  named := hn
  enrolled := he
  cell a := by
    rw [hr.record, find_insert]
    by_cases ha : a = id
    · rw [if_pos ha, if_pos (by rw [ha]), Option.map_some, hs]
      rfl
    · rw [if_neg ha, if_neg fun hs => ha (AgentId.toStr_inj hs).symm, h.cell]
  chosen := by rw [hr.config, h.chosen]

theorem Seated.unseat (h : Seated k m) (hn : Named k') (hr : Reseats id none k k') :
    Seated k' { m with agents := m.agents.erase id.toStr } where
  named := hn
  enrolled := h.enrolled.erase _
  cell a := by
    rw [hr.record, find_erase]
    by_cases ha : a = id
    · rw [if_pos ha, if_pos (by rw [ha])]
      rfl
    · rw [if_neg ha, if_neg fun hs => ha (AgentId.toStr_inj hs).symm, h.cell]
  chosen := by rw [hr.config, h.chosen]

theorem Seated.default (h : Seated k m) : Prog.Sees memory Store.defaultAgent k (.ok m.chosen) := by
  have hget : Prog.Sees memory (get .config defaultAgentKey) k
      (.ok k[((.config, defaultAgentKey) : Cell)]?) := rfl
  rw [h.chosen] at hget
  refine hget.next ?_
  cases m.chosen with
  | none => exact .pure none k
  | some id =>
    simp only [Option.map_some, Value.asRaw, Option.bind_some, AgentId.ofStr_toStr]
    exact .pure (some id) k

theorem Seated.empty : Seated (∅ : Kv μ) ⟨∅, none⟩ := ⟨.empty, .empty, fun id => by simp, by simp⟩

theorem keyed_agents : Obeys (memory (μ := μ)) (fun q => (AgentRequest.keyed q).attempt) agentAnswer
    agentChange Seated Unclaimed := by
  intro q k m hq h
  cases q with
  | loadAgent id =>
    rw [Prog.wp_attempt]
    refine Prog.wp_bind.mpr (Store.wp_loadAgent h.named (fun hnone => ⟨?_, h⟩) fun c hc => ⟨?_, h⟩)
    · rw [agentAnswer, ← h.cell, hnone]
      rfl
    · rw [agentAnswer, ← h.cell, hc]
      rfl
  | loadAgentByName name =>
    exact (Prog.Sees.attempt ((h.byName name).next (.pure (AgentAnswer.config _) _))).wp ⟨rfl, h⟩
  | agentIds => exact (Prog.Sees.attempt (h.ids.next (.pure (AgentAnswer.ids _) _))).wp ⟨rfl, h⟩
  | upsertAgent config =>
    rw [Prog.wp_attempt, AgentRequest.keyed, agentAnswer, agentChange]
    cases hu : checkTableName "agent".toList config.name with
    | error e =>
      rw [Store.upsertAgent, validateTableName_eq, hu]
      exact ⟨rfl, h⟩
    | ok u =>
      have hthen : (if (Except.ok u : Except Error Unit).isOk = true then m.enter config else m) =
          m.enter config := if_pos rfl
      -- an agent that bears the name is the one that is entered
      have hfree : Free k config.id config.name := fun a c hc hn => by
        obtain ⟨d, hd, hdc, hid⟩ := h.free hc
        rw [← hid]
        exact hq.2 _ d hd (by rw [hdc]; exact hn)
      rw [hthen]
      refine Prog.wp_bind.mpr
        (((wp_upsertAgent h.named hfree).and (reseats_upsert h.named config hu)).mono
        (fun _ k' hk => ⟨rfl, ?_⟩)
        fun _ _ he => he.2.elim)
      exact h.reseat hk.1 hq.1 hk.2 (h.enrolled.enter _ hq.2)
  | deleteAgent id =>
    rw [Prog.wp_attempt]
    refine Prog.wp_bind.mpr (((wp_deleteAgent h.named id).and (reseats_delete h.named id)).mono
      (fun was k' hk => ?_) fun _ _ he => he.2.elim)
    obtain ⟨hn, rfl, hr⟩ := hk
    exact ⟨by rw [h.isSome]; rfl, h.unseat hn hr⟩
  | renameAgent id newName =>
    rw [Prog.wp_attempt, AgentRequest.keyed, agentAnswer, agentChange]
    cases hu : checkTableName "agent".toList newName with
    | error e =>
      rw [Store.renameAgent, validateTableName_eq, hu]
      exact ⟨rfl, h⟩
    | ok u =>
      have hthen : (if (Except.ok u : Except Error Unit).isOk = true then m.rename id newName
          else m) = m.rename id newName := if_pos rfl
      have hfree : (∃ c, StoredAgent k id c) → ∀ a c, StoredAgent k a c → c.name ≠ newName := by
        rintro ⟨c₀, h₀⟩ a c hc hn
        obtain ⟨d₀, hd₀, -, -⟩ := h.free h₀
        obtain ⟨d, hd, hdc, -⟩ := h.free hc
        exact hq (by rw [hd₀]; rfl) _ d hd (by rw [hdc]; exact hn)
      rw [hthen]
      refine Prog.wp_bind.mpr (((wp_renameAgent h.named hfree).and (reseats_rename h.named hu)).mono
        (fun was k' hk => ?_)
        fun _ _ he => he.2.elim)
      obtain ⟨hn, ⟨hnone, rfl, rfl⟩ | ⟨c, hc, rfl, hr⟩⟩ := hk
      · have hm : m.agents[id.toStr]? = none := by
          rw [← Option.isNone_iff_eq_none, ← Option.not_isSome, ← h.isSome, hnone]; rfl
        rw [Staff.rename, hm]
        exact ⟨rfl, h⟩
      · obtain ⟨d, hd, hdc, hid⟩ := h.free hc
        -- the renamed agent keeps its id, so it goes back to its own place
        have henter : Enrolled (m.agents.insert id.toStr (stored { d.1 with name := newName })) := by
          have hfree' : ∀ a e, m.agents[(a : Str)]? = some e → e.1.name = newName →
              e.1.id = d.1.id := fun a e he hname =>
            absurd hname (hq (by rw [hd]; rfl) a e he)
          have hkey := h.enrolled.enter { d.1 with name := newName } hfree'
          rwa [show ({ d.1 with name := newName } : AgentConfig).id = id from hid] at hkey
        rw [Staff.rename, hd]
        refine ⟨rfl, h.reseat hn ?_ ?_ henter⟩
        · rw [stored_renamed, hdc]
          rfl
        · rw [hdc]
          exact hr
  | defaultAgent =>
    exact (Prog.Sees.attempt (h.default.next (.pure (AgentAnswer.chosen _) _))).wp ⟨rfl, h⟩
  | setDefaultAgent id =>
    rw [Prog.wp_attempt]
    have other : ∀ key : Str, (k.insert (.config, defaultAgentKey)
        (.raw id.toStr))[((.agent, key) : Cell)]? = k[((.agent, key) : Cell)]? := by
      intro key
      rw [find_insert, if_neg (by simp)]
    refine Prog.wp_bind.mpr (wp_put.mpr ⟨⟨rfl, h.named.congr other, h.enrolled, fun a => ?_, ?_⟩, False.elim⟩)
    · rw [other, h.cell]
      rfl
    · rw [find_insert, if_pos rfl]
      rfl

end

/-! ## Two stores -/

section
variable {json : Staffer → Bytes} {parse : Bytes → Option Staffer}

theorem jsonTmp_ne : ∀ name stem : Str, tmpName name ≠ stem ++ ".json".toList :=
  Records.tmpName_ne (by decide) (by decide)

def agentRecords (json : Staffer → Bytes) (parse : Bytes → Option Staffer)
    (hparse : ∀ v, parse (json v) = some v) : Records Staffer where
  dir := "agents".toList
  suffix := ".json".toList
  json := json
  parse := parse
  parse_json := hparse
  tmp_apart := jsonTmp_ne

theorem default_apart (stem : Str) : "default".toList ≠ stem ++ ".json".toList := by
  intro he
  have hlast := congrArg List.getLast? he
  rw [List.getLast?_append_of_ne_nil _ (by decide)] at hlast
  exact absurd hlast (by decide)

theorem length_crockford : ∀ d < 32, (utf8 [crockford.getD d '0']).length = 1 := by decide

theorem length_utf8_base32 (w n : Nat) : (utf8 (base32 w n)).length = w := by
  induction w generalizing n with
  | zero => rfl
  | succ w ih =>
    have hdigit := length_crockford (n % 32) (Nat.mod_lt _ (by omega))
    rw [base32, utf8_append, List.length_append, ih, hdigit]

/-- An id is a file's name, however it is encoded. -/
theorem agentRecords_fits {hparse : ∀ v, parse (json v) = some v} (id : AgentId) :
    (agentRecords json parse hparse).Fits id.toStr := by
  have hsuffix : (utf8 (agentRecords json parse hparse).suffix).length = 5 := rfl
  have hid : (utf8 id.toStr).length = 26 := length_utf8_base32 26 _
  refine Records.fits_of_length _ ?_
  rw [hid, hsuffix]
  omega

/-- Requests that leave each name to one agent get the same answers of both stores, refusals among them. -/
theorem agents_alike {μ : Type} {order : List Str → List Str}
    (hparse : ∀ v, parse (json v) = some v) (hperm : ∀ l, (order l).Perm l) {s : Shelf}
    (hopen : Prog.interp (shelf order) (files openStore) blank = .ok () s) (qs : List AgentRequest)
    (hqs : Along agentChange Unclaimed ⟨∅, none⟩ qs) :
    ∃ as s' k', Prog.interp (shelf order)
    (collect (fun q => (AgentRequest.serve (agentRecords json parse hparse) q).attempt) qs) s = .ok as s' ∧
      Prog.interp (memory (μ := μ)) (collect (fun q => q.keyed.attempt) qs) ∅ = .ok as k' := by
  have hbare := bare_opened hopen
  have hhoused : Housed (agentRecords json parse hparse) s ⟨∅, none⟩ :=
    ⟨Records.shelved_bare _ "agents" rfl (by decide) hbare, .empty, by rw [hbare.files]; rfl⟩
  exact (serves_agents hperm default_apart agentRecords_fits).alike keyed_agents hqs hhoused .empty

end

/-! ## Configs as JSON -/

namespace Plain

open Printed

def rootPrinted : Printed Root where
  print
    | .home => "\"home\"".toList
    | .session path => (after "\x7b\"session\": " (before quoted "\x7d")).print path
    | .fixed path => (after "\x7b\"fixed\": " (before quoted "\x7d")).print path
  scan text :=
    match expect "\"home\"".toList text with
    | some rest => some (.home, rest)
    | none =>
      match expect "\x7b\"session\": ".toList text with
      | some rest => ((before quoted "\x7d").scan rest).map fun e => (.session e.1, e.2)
      | none => ((after "\x7b\"fixed\": " (before quoted "\x7d")).scan
          text).map fun e => (.fixed e.1, e.2)
  scan_print root rest := by
    cases root with
    | home => rfl
    | session path =>
      have hhome : expect "\"home\"".toList
          ((after "\x7b\"session\": " (before quoted "\x7d")).print path ++ rest) = none := rfl
      have hsession : expect "\x7b\"session\": ".toList
          ((after "\x7b\"session\": " (before quoted "\x7d")).print path ++ rest) =
          some ((before quoted "\x7d").print path ++ rest) := by
        rw [after, List.append_assoc, expect_append]
      simp only [hhome, hsession, scan_print, Option.map_some]
    | fixed path =>
      have hhome : expect "\"home\"".toList
          ((after "\x7b\"fixed\": " (before quoted "\x7d")).print path ++ rest) = none := rfl
      have hsession : expect "\x7b\"session\": ".toList
          ((after "\x7b\"fixed\": " (before quoted "\x7d")).print path ++ rest) = none := rfl
      simp only [hhome, hsession, scan_print, Option.map_some]

theorem solid_rootPrinted : rootPrinted.Solid := by
  intro root
  cases root with
  | home => exact ⟨'"', _, rfl, by decide, by decide⟩
  | session path => exact ⟨'\x7b', _, rfl, by decide, by decide⟩
  | fixed path => exact ⟨'\x7b', _, rfl, by decide, by decide⟩

def listPrinted : Printed (List Str) := array quoted solid_quoted

def harnessPrinted : Printed HarnessConfig :=
  map (both (after "\x7b\"name\": " quoted)
    (both (after ", \"root\": " (maybe rootPrinted solid_rootPrinted))
      (before (after ", \"hosts\": " listPrinted) "\x7d")))
    (fun e => ⟨e.1, e.2.1, e.2.2⟩) (fun h => (h.name, h.root, h.hosts)) fun _ => rfl

def envPrinted : Printed (Str × Str) := after "[" (both quoted (before (after ", " quoted) "]"))

def serverPrinted : Printed McpServerConfig :=
  map (both (after "\x7b\"name\": " quoted)
    (both (after ", \"command\": " quoted) (both (after ", \"args\": " listPrinted)
      (both (after ", \"env\": " (array envPrinted (solid_after rfl (by decide) (by decide) _)))
        (both (after ", \"auto_restart\": " bool)
          (both (after ", \"url\": " (maybe quoted solid_quoted))
          (before (after ", \"auth\": " (maybe quoted solid_quoted)) "\x7d")))))))
    (fun e => ⟨e.1, e.2.1, e.2.2.1, e.2.2.2.1, e.2.2.2.2.1, e.2.2.2.2.2.1, e.2.2.2.2.2.2⟩)
    (fun m => (m.name, m.command, m.args, m.env, m.autoRestart, m.url, m.auth)) fun _ => rfl

theorem solid_harnessPrinted : harnessPrinted.Solid :=
  fun _ => ⟨'\x7b', _, rfl, by decide, by decide⟩

theorem solid_serverPrinted : serverPrinted.Solid := fun _ => ⟨'\x7b', _, rfl, by decide, by decide⟩

def fieldsPrinted : Printed (Str × Str × Str × Str × Nat × List Str × List McpServerConfig × List
    HarnessConfig) :=
  both (after "\x7b\n  \"id\": " quoted)
    (both (after ",\n  \"name\": " quoted) (both (after ",\n  \"description\": " quoted)
    (both (after ",\n  \"model\": " quoted)
      (both (after ",\n  \"max_iterations\": " (count ",\n" rfl))
      (both (after "  \"skills\": " listPrinted)
        (both (after ",\n  \"mcps\": " (array serverPrinted solid_serverPrinted))
        (before (after ",\n  \"harnesses\": " (array harnessPrinted solid_harnessPrinted))
          "\n\x7d")))))))

def configText (c : AgentConfig) : Str :=
  fieldsPrinted.print (c.id.toStr, c.name, c.description, c.model, c.maxIterations, c.skills,
    c.mcps, c.harnesses)

def parseConfig (text : Str) : Option AgentConfig := do
  let (fields, _) ← fieldsPrinted.scan text
  let (id, name, description, model, maxIterations, skills, mcps, harnesses) := fields
  let id ← AgentId.ofStr id
  return { id, name, description, model, maxIterations, skills, mcps, harnesses, tools := [] }

theorem parse_configText (c : AgentConfig) : parseConfig (configText c) = some c.persist := by
  have hscan := fieldsPrinted.scan_print (c.id.toStr, c.name, c.description, c.model,
      c.maxIterations, c.skills, c.mcps, c.harnesses) []
  rw [List.append_nil] at hscan
  simp only [parseConfig, configText, hscan, AgentId.ofStr_toStr, Option.bind_eq_bind,
    Option.bind_some]
  rfl

def staffJson (c : Staffer) : Bytes := utf8 (configText c.1)

def readStaffer (bytes : Bytes) : Option Staffer := ((fromUtf8 bytes).bind parseConfig).map stored

theorem readStaffer_staffJson (c : Staffer) : readStaffer (staffJson c) = some c := by
  have hstored : stored c.1.persist = c := by
    obtain ⟨c, hc⟩ := c
    exact Subtype.ext hc
  rw [readStaffer, staffJson, fromUtf8_utf8, Option.bind_some, parse_configText,
    Option.map_some, hstored]

/-! ### A few requests -/

def fewAgents : List AgentRequest :=
  [.upsertAgent (.named ⟨1⟩ "crab".toList), .upsertAgent (.named ⟨2⟩ "a.b".toList),
    .upsertAgent (.named ⟨3⟩ "ant".toList), .agentIds,
    .renameAgent ⟨3⟩ "zebra".toList, .setDefaultAgent ⟨3⟩, .loadAgentByName "zebra".toList,
    .deleteAgent ⟨1⟩]

theorem agents_alike_fewAgents :
    ∃ (s : Shelf) (as : List (Except Error AgentAnswer)) (s' : Shelf) (k' : Kv Store.Plain.Message),
    Prog.interp (shelf List.reverse) (files openStore) blank = .ok () s ∧
    Prog.interp (shelf List.reverse)
    (collect (fun q => (AgentRequest.serve
      (agentRecords staffJson readStaffer readStaffer_staffJson) q).attempt)
      fewAgents) s = .ok as s' ∧
    Prog.interp memory (collect (fun q => q.keyed.attempt) fewAgents) ∅ = .ok as k' := by
  obtain ⟨_, s, hopen, -⟩ := (during_open List.reverse).answers
  have hcrab : ∀ k d, (Staff.enter ⟨∅, none⟩ (.named ⟨1⟩ "crab".toList)).agents[(k : Str)]? =
      some d → d.1.name = "crab".toList := by
    intro k d hd
    rcases enter_cases hd with rfl | hd
    · rfl
    · simp at hd
  have hant : ∀ k d, ((Staff.enter ⟨∅, none⟩ (.named ⟨1⟩ "crab".toList)).enter
      (.named ⟨3⟩ "ant".toList)).agents[(k : Str)]? = some d →
      d.1.name ≠ "zebra".toList := by
    intro k d hd
    rcases enter_cases hd with rfl | hd
    · decide
    · rw [hcrab k d hd]
      decide
  have halong : Along agentChange Unclaimed ⟨∅, none⟩ fewAgents := by
    refine ⟨⟨rfl, fun k d hd => by simp at hd⟩, ⟨rfl, fun k d hd hn => ?_⟩,
      ⟨rfl, fun k d hd hn => ?_⟩, trivial, fun _ => hant, trivial, trivial,
      trivial, trivial⟩
    · exact absurd hn (by rw [hcrab k d hd]; decide)
    · exact absurd hn (by rw [hcrab k d hd]; decide)
  obtain ⟨as, s', k', hs, hk⟩ :=
    agents_alike readStaffer_staffJson List.reverse_perm hopen fewAgents halong
  exact ⟨s, as, s', k', hopen, hs, hk⟩

end Plain

end Crabtalk.Backend

import Crabtalk.Store.Views

/-! # Persisted agents and their names

An agent is filed under its id; a row of its own leads from its name to the
id. Every operation that moves a name rewrites both.
-/

open Basis

namespace Crabtalk.Store

variable {μ : Type}

/-! ## The interface -/

def agentKey (id : AgentId) : Str := key ["agent".toList, id.toStr]

def agentNameKey (name : Str) : Str := key ["idx".toList, "agent".toList, name]

def isControl (c : Char) : Bool := c.toNat < 32 ∨ 127 ≤ c.toNat ∧ c.toNat < 160

def validateTableName (kind name : Str) : KvM μ Unit :=
  if name = [] then .fail (.bail (kind ++ ": name must not be empty".toList))
  else if name.any fun c => c = '.' || c = '[' || c = ']' || c = '"' || isControl c then
    .fail (.bail (kind ++ ": name '".toList ++ name ++
      "' must not contain '.', '[', ']', '\"', or control chars".toList))
  else pure ()

def checkTableName (kind name : Str) : Except Error Unit :=
  if name = [] then .error (.bail (kind ++ ": name must not be empty".toList))
  else if name.any fun c => c = '.' || c = '[' || c = ']' || c = '"' || isControl c then
    .error (.bail (kind ++ ": name '".toList ++ name ++
      "' must not contain '.', '[', ']', '\"', or control chars".toList))
  else .ok ()

theorem validateTableName_eq (kind name : Str) : (validateTableName kind name : KvM μ Unit) =
    Prog.ofExcept (checkTableName kind name) := by
  unfold validateTableName checkTableName
  split
  · rfl
  · split
    · rfl
    · rfl

def loadAgent (id : AgentId) : KvM μ (Option AgentConfig) :=
  getJson Value.asAgent .agent (agentKey id)

def agentId (name : Str) : KvM μ (Option AgentId) := do
  match ← get .agent (agentNameKey name) with
  | none => return none
  | some v => return v.asRaw.bind AgentId.ofStr

def putAgentName (name : Str) (id : AgentId) : KvM μ Unit :=
  put .agent (agentNameKey name) (.raw id.toStr)

def loadAgentByName (name : Str) : KvM μ (Option AgentConfig) := do
  match ← agentId name with
  | none => return none
  | some id => loadAgent id

def agentIds : KvM μ (List AgentId) := do
  let rows ← scan .agent (keysUnder ["idx".toList, "agent".toList])
  return rows.filterMap fun row => row.2.asRaw.bind AgentId.ofStr

def upsertAgent (config : AgentConfig) : KvM μ Unit := do
  validateTableName "agent".toList config.name
  match ← loadAgent config.id with
  | some previous =>
    if previous.name ≠ config.name then
      let _ ← delete .agent (agentNameKey previous.name)
    else pure ()
  | none => pure ()
  put .agent (agentKey config.id) (.agent config)
  putAgentName config.name config.id

def deleteAgent (id : AgentId) : KvM μ Bool := do
  match ← loadAgent id with
  | some config =>
    let _ ← delete .agent (agentNameKey config.name)
  | none => pure ()
  delete .agent (agentKey id)

def renameAgent (id : AgentId) (newName : Str) : KvM μ Bool := do
  validateTableName "agent".toList newName
  match ← loadAgent id with
  | none => return false
  | some config =>
    put .agent (agentKey id) (.agent { config with name := newName })
    putAgentName newName id
    let _ ← delete .agent (agentNameKey config.name)
    return true

def defaultAgentKey : Str := key ["default_agent".toList]

def defaultAgent : KvM μ (Option AgentId) := do
  match ← get .config defaultAgentKey with
  | none => return none
  | some v => return v.asRaw.bind AgentId.ofStr

def setDefaultAgent (id : AgentId) : KvM μ Unit := put .config defaultAgentKey (.raw id.toStr)

/-! ## Records and rows -/

theorem agentKey_inj {a b : AgentId} (h : agentKey a = agentKey b) : a = b :=
  AgentId.toStr_inj (by simpa [agentKey, key] using h)

theorem agentNameKey_inj {a b : Str} (h : agentNameKey a = agentNameKey b) : a = b := by
  simpa [agentNameKey, key] using h

theorem agentKey_ne_agentNameKey (id : AgentId) (name : Str) : agentKey id ≠ agentNameKey name := by
  simp [agentKey, agentNameKey, key]

theorem agentNameKey_eq (name : Str) :
    agentNameKey name = keysUnder ["idx".toList, "agent".toList] ++ name := by
  simp [agentNameKey, keysUnder, key]

def StoredAgent (s : Kv μ) (id : AgentId) (config : AgentConfig) : Prop :=
  s[(Column.agent, agentKey id)]? = some (.agent config)

structure Named (s : Kv μ) : Prop where
  records : ∀ id v, s[(Column.agent, agentKey id)]? = some v →
    ∃ c, v = .agent c ∧ c.id = id ∧ s[(Column.agent, agentNameKey c.name)]? = some (.raw id.toStr)
  rows : ∀ name v, s[(Column.agent, agentNameKey name)]? = some v →
    ∃ id c, v = .raw id.toStr ∧ StoredAgent s id c ∧ c.name = name

def Free (s : Kv μ) (id : AgentId) (name : Str) : Prop := ∀ a c, StoredAgent s a c →
    c.name = name → a = id

section
variable {s s' : Kv μ} {id : AgentId}

theorem Named.empty : Named (∅ : Kv μ) := ⟨fun _ _ h => by simp at h, fun _ _ h => by simp at h⟩

theorem Named.congr (h : Named s) (hs : ∀ k : Str, s'[(Column.agent, k)]? = s[(Column.agent, k)]?) :
    Named s' := by
  refine ⟨fun id v hv => ?_, fun name v hv => ?_⟩
  · rw [hs] at hv
    obtain ⟨c, rfl, hc, hr⟩ := h.records id v hv
    exact ⟨c, rfl, hc, by rw [hs]; exact hr⟩
  · rw [hs] at hv
    obtain ⟨id, c, rfl, hc, hn⟩ := h.rows name v hv
    exact ⟨id, c, rfl, by rw [StoredAgent, hs]; exact hc, hn⟩

def OldRow (s : Kv μ) (id : AgentId) (k : Str) : Prop := ∃ c, StoredAgent s id c ∧
    k = agentNameKey c.name

theorem StoredAgent.unique {c c' : AgentConfig} (h : StoredAgent s id c)
    (h' : StoredAgent s id c') : c = c' := by
  rw [StoredAgent, h] at h'
  simpa using h'

theorem Named.own (h : Named s) {c : AgentConfig} (hc : StoredAgent s id c) :
    c.id = id ∧ s[(Column.agent, agentNameKey c.name)]? = some (.raw id.toStr) := by
  obtain ⟨c', he, hid, hr⟩ := h.records id _ hc
  cases he
  exact ⟨hid, hr⟩

theorem Named.inj (h : Named s) {a b : AgentId} {c d : AgentConfig} (ha : StoredAgent s a c)
    (hb : StoredAgent s b d)
    (hn : c.name = d.name) : a = b := by
  have h₁ := (h.own ha).2
  rw [hn, (h.own hb).2] at h₁
  exact (AgentId.toStr_inj (by simpa using h₁)).symm

/-- A name that is not the old name of `id` is borne by an agent whose record stays. -/
theorem Named.row_kept (h : Named s)
    (other : ∀ a, a ≠ id → s'[(Column.agent, agentKey a)]? = s[(Column.agent, agentKey a)]?)
    {name : Str} {v : Value μ}
    (hold : ¬ OldRow s id (agentNameKey name))
    (hv : s[(Column.agent, agentNameKey name)]? = some v) :
    ∃ a d, v = .raw a.toStr ∧ StoredAgent s' a d ∧ d.name = name := by
  obtain ⟨a, d, rfl, hd, hn⟩ := h.rows name v hv
  refine ⟨a, d, rfl, ?_, hn⟩
  rw [StoredAgent, other a]
  · exact hd
  · rintro rfl
    exact hold ⟨d, hd, by rw [hn]⟩

theorem Named.file (h : Named s) {c : AgentConfig} (hid : c.id = id) (hfree : Free s id c.name)
    (hrec : s'[(Column.agent, agentKey id)]? = some (.agent c))
    (hrow : s'[(Column.agent, agentNameKey c.name)]? = some (.raw id.toStr))
    (hgone : ∀ k, k ≠ agentNameKey c.name → OldRow s id k → s'[(Column.agent, k)]? = none)
    (hrest : ∀ k, k ≠ agentKey id → k ≠ agentNameKey c.name → ¬ OldRow s id k →
      s'[(Column.agent, k)]? = s[(Column.agent, k)]?) : Named s' := by
  have other : ∀ a, a ≠ id → s'[(Column.agent, agentKey a)]? = s[(Column.agent, agentKey a)]? := fun a ha =>
    hrest _ (fun he => ha (agentKey_inj he)) (agentKey_ne_agentNameKey a _) fun ⟨_, _, he⟩ =>
      agentKey_ne_agentNameKey a _ he
  refine ⟨fun a v hv => ?_, fun name v hv => ?_⟩
  · by_cases ha : a = id
    · subst ha
      rw [hrec] at hv
      cases hv
      exact ⟨c, rfl, hid, hrow⟩
    · rw [other a ha] at hv
      obtain ⟨d, rfl, hd, hr⟩ := h.records a v hv
      refine ⟨d, rfl, hd, ?_⟩
      rw [hrest _ (agentKey_ne_agentNameKey id _).symm]
      · exact hr
      · exact fun he => ha (hfree a d hv (agentNameKey_inj he))
      · rintro ⟨c₀, h₀, he⟩
        exact ha (h.inj hv h₀ (agentNameKey_inj he))
  · by_cases hname : name = c.name
    · subst hname
      rw [hrow] at hv
      cases hv
      exact ⟨id, c, rfl, hrec, rfl⟩
    · have hne : agentNameKey name ≠ agentNameKey c.name := fun he => hname (agentNameKey_inj he)
      by_cases hold : OldRow s id (agentNameKey name)
      · rw [hgone _ hne hold] at hv
        cases hv
      · rw [hrest _ (agentKey_ne_agentNameKey id _).symm hne hold] at hv
        exact h.row_kept other hold hv

theorem Named.drop (h : Named s) (id : AgentId) (hrec : s'[(Column.agent, agentKey id)]? = none)
    (hgone : ∀ k, OldRow s id k → s'[(Column.agent, k)]? = none)
    (hrest : ∀ k, k ≠ agentKey id → ¬ OldRow s id k →
      s'[(Column.agent, k)]? = s[(Column.agent, k)]?) : Named s' := by
  have other : ∀ a, a ≠ id → s'[(Column.agent, agentKey a)]? = s[(Column.agent, agentKey a)]? := fun a ha =>
    hrest _ (fun he => ha (agentKey_inj he)) fun ⟨_, _, he⟩ => agentKey_ne_agentNameKey a _ he
  refine ⟨fun a v hv => ?_, fun name v hv => ?_⟩
  · have ha : a ≠ id := by
      rintro rfl
      rw [hrec] at hv
      cases hv
    rw [other a ha] at hv
    obtain ⟨d, rfl, hd, hr⟩ := h.records a v hv
    refine ⟨d, rfl, hd, ?_⟩
    rw [hrest _ (agentKey_ne_agentNameKey id _).symm]
    · exact hr
    · rintro ⟨c₀, h₀, he⟩
      exact ha (h.inj hv h₀ (agentNameKey_inj he))
  · by_cases hold : OldRow s id (agentNameKey name)
    · rw [hgone _ hold] at hv
      cases hv
    · rw [hrest _ (agentKey_ne_agentNameKey id _).symm hold] at hv
      exact h.row_kept other hold hv

/-! ## The operations -/

theorem wp_validate {kind name : Str} {Q : Unit → Kv μ → Prop} {E : Error → Kv μ → Prop}
    (hQ : Q () s) (hE : ∀ e, E e s) :
    Prog.wp False memory (validateTableName kind name) Q E s := by
  rw [validateTableName]
  split
  · exact hE _
  · split
    · exact hE _
    · exact hQ

theorem wp_loadAgent (h : Named s) {Q : Option AgentConfig → Kv μ → Prop} {E : Error → Kv μ → Prop}
    (hnone : s[(Column.agent, agentKey id)]? = none → Q none s) (hsome : ∀ c, StoredAgent s id c →
      Q (some c.persist) s) :
    Prog.wp False memory (loadAgent id) Q E s := by
  rw [loadAgent, wp_getJson]
  refine ⟨?_, False.elim⟩
  cases hv : s[(Column.agent, agentKey id)]? with
  | none => exact hnone hv
  | some v =>
    obtain ⟨c, rfl, -, -⟩ := h.records id v hv
    exact hsome c hv

theorem wp_upsertAgent (h : Named s) {config : AgentConfig} (hfree : Free s config.id config.name) :
    Prog.wp False memory (upsertAgent config) (fun _ => Named) (fun _ => Named) s := by
  have hkey := agentKey_ne_agentNameKey config.id config.name
  -- Whether or not the old row went first, the writes file the agent.
  have file : ∀ s₁ : Kv μ, (∀ k, k ≠ agentNameKey config.name → OldRow s config.id k →
      s₁[(Column.agent, k)]? = none) →
      (∀ k, k ≠ agentNameKey config.name → ¬ OldRow s config.id k →
        s₁[(Column.agent, k)]? = s[(Column.agent, k)]?) →
      Prog.wp False memory (do
          put .agent (agentKey config.id) (.agent config)
          putAgentName config.name config.id) (fun _ => Named) (fun _ => Named) s₁ := by
    intro s₁ hgone hrest
    rw [Prog.wp_bind, wp_put, putAgentName, wp_put]
    refine ⟨⟨h.file (c := config) rfl hfree ?_ ?_ (fun k hk hold => ?_) fun k hk hn hold => ?_,
      False.elim⟩, False.elim⟩
    · rw [find_insert, if_neg (by simpa using hkey.symm), find_insert, if_pos rfl]
    · rw [find_insert, if_pos rfl]
    · have hne : k ≠ agentKey config.id := by
        rintro rfl
        obtain ⟨_, -, he⟩ := hold
        exact agentKey_ne_agentNameKey _ _ he
      rw [find_insert, if_neg (by simpa using hk.symm), find_insert,
        if_neg (by simpa using hne.symm), hgone k hk hold]
    · rw [find_insert, if_neg (by simpa using hn.symm), find_insert,
        if_neg (by simpa using hk.symm), hrest k hn hold]
  rw [upsertAgent, Prog.wp_bind]
  refine wp_validate ?_ fun _ => h
  rw [Prog.wp_bind]
  refine wp_loadAgent h (fun hnone => ?_) fun c hc => ?_
  · refine file s (fun k hk ⟨c, hc, he⟩ => ?_) fun _ _ _ => rfl
    rw [StoredAgent, hnone] at hc
    cases hc
  · have hold : ∀ k, OldRow s config.id k ↔ k = agentNameKey c.name := fun k =>
      ⟨fun ⟨d, hd, he⟩ => by rw [he, hc.unique hd], fun he => ⟨c, hc, he⟩⟩
    simp only
    by_cases hn : c.persist.name ≠ config.name
    · rw [if_pos hn, Prog.wp_bind, wp_delete]
      refine ⟨file _ (fun k _ hk => ?_) fun k _ hk => ?_, False.elim⟩
      · rw [find_erase, if_pos (by rw [(hold k).mp hk]; rfl)]
      · rw [find_erase, if_neg fun he => hk ((hold k).mpr (congrArg Prod.snd he).symm)]
    · rw [if_neg hn]
      refine file s (fun k hk ho => ?_) fun _ _ _ => rfl
      rw [(hold k).mp ho] at hk
      exact absurd (congrArg agentNameKey (not_not.mp hn)) hk

theorem wp_deleteAgent (h : Named s) (id : AgentId) :
    Prog.wp False memory (deleteAgent id) (fun _ => Named) (fun _ => Named) s := by
  rw [deleteAgent, Prog.wp_bind]
  refine wp_loadAgent h (fun hnone => ?_) fun c hc => ?_
  · exact wp_delete.mpr ⟨by rw [erase_of_none hnone]; exact h, False.elim⟩
  · have hold : ∀ k, OldRow s id k ↔ k = agentNameKey c.name := fun k =>
      ⟨fun ⟨d, hd, he⟩ => by rw [he, hc.unique hd], fun he => ⟨c, hc, he⟩⟩
    simp only
    rw [Prog.wp_bind, wp_delete, wp_delete]
    refine ⟨⟨h.drop id ?_ (fun k hk => ?_) fun k hk ho => ?_, False.elim⟩, False.elim⟩
    · rw [find_erase, if_pos rfl]
    · rw [(hold k).mp hk, find_erase, if_neg (by simpa using agentKey_ne_agentNameKey id c.name), find_erase]
      exact if_pos rfl
    · rw [find_erase, if_neg (by simpa using hk.symm), find_erase, if_neg]
      exact fun he => ho ((hold k).mpr (congrArg Prod.snd he).symm)

theorem wp_renameAgent (h : Named s) {newName : Str}
    (hfree : (∃ c, StoredAgent s id c) → ∀ a c, StoredAgent s a c → c.name ≠ newName) :
    Prog.wp False memory (renameAgent id newName) (fun _ => Named) (fun _ => Named) s := by
  rw [renameAgent, Prog.wp_bind]
  refine wp_validate ?_ fun _ => h
  rw [Prog.wp_bind]
  refine wp_loadAgent h (fun _ => h) fun c hc => ?_
  have hold : ∀ k, OldRow s id k ↔ k = agentNameKey c.name := fun k =>
    ⟨fun ⟨d, hd, he⟩ => by rw [he, hc.unique hd], fun he => ⟨c, hc, he⟩⟩
  have hfree := hfree ⟨c, hc⟩
  have hne : agentNameKey c.name ≠ agentNameKey newName :=
    fun he => hfree id c hc (agentNameKey_inj he)
  simp only
  rw [Prog.wp_bind, wp_put, Prog.wp_bind, putAgentName, wp_put, Prog.wp_bind, wp_delete]
  refine ⟨⟨⟨h.file (c := { c.persist with name := newName }) (h.own hc).1
    (fun a d hd hn => absurd hn (hfree a d hd)) ?_ ?_ (fun k hk ho => ?_) fun k hk hn ho => ?_,
      False.elim⟩, False.elim⟩, False.elim⟩
  · rw [find_erase, if_neg (by simpa using (agentKey_ne_agentNameKey id c.name).symm), find_insert,
      if_neg (by simpa using (agentKey_ne_agentNameKey id newName).symm), find_insert, if_pos rfl]
  · rw [find_erase, if_neg (by simpa using hne), find_insert]
    exact if_pos rfl
  · rw [(hold k).mp ho, find_erase]
    exact if_pos rfl
  · rw [find_erase, if_neg fun he => ho ((hold k).mpr (congrArg Prod.snd he).symm), find_insert,
      if_neg (by simpa using hn.symm), find_insert, if_neg (by simpa using hk.symm)]

/-- A rename to the name an agent has files the row and then deletes it. -/
theorem wp_rename_same (h : Named s) {c : AgentConfig} (hc : StoredAgent s id c)
    (hv : (validateTableName "agent".toList c.name : KvM μ Unit) = pure ()) :
    Prog.wp False memory (renameAgent id c.name)
      (fun r s' => r = true ∧ StoredAgent s' id c.persist ∧
        s'[(Column.agent, agentNameKey c.name)]? = none) (fun _ _ => False) s := by
  rw [renameAgent, hv, Prog.wp_bind, Prog.wp_pure, Prog.wp_bind]
  refine wp_loadAgent h (fun hnone => ?_) fun d hd => ?_
  · rw [StoredAgent, hnone] at hc
    cases hc
  · rw [← hc.unique hd]
    simp only
    rw [Prog.wp_bind, wp_put, Prog.wp_bind, putAgentName, wp_put, Prog.wp_bind, wp_delete]
    refine ⟨⟨⟨⟨rfl, ?_, ?_⟩, False.elim⟩, False.elim⟩, False.elim⟩
    · rw [StoredAgent, find_erase,
        if_neg (by simpa using (agentKey_ne_agentNameKey id c.name).symm), find_insert,
        if_neg (by simpa using (agentKey_ne_agentNameKey id c.name).symm), find_insert, if_pos rfl]
      rfl
    · rw [find_erase]
      exact if_pos rfl

end

/-! ## Any run of them -/

inductive AgentOp
  | upsert (config : AgentConfig)
  | delete (id : AgentId)
  | rename (id : AgentId) (newName : Str)

def AgentOp.exec : AgentOp → KvM μ Unit
  | .upsert config => upsertAgent config
  | .delete id => do let _ ← deleteAgent id
  | .rename id newName => do let _ ← renameAgent id newName

/-- An upsert under a name no other agent bears, a rename to a name no agent bears at all. -/
def AgentOp.Clear (s : Kv μ) : AgentOp → Prop
  | .upsert config => Free s config.id config.name
  | .delete _ => True
  | .rename id newName => (∃ c, StoredAgent s id c) → ∀ a c, StoredAgent s a c → c.name ≠ newName

/-- The stores agent operations leave behind, next to work on the other columns. -/
inductive Staffed : Kv μ → Prop
  | empty : Staffed ∅
  | op {s s' : Kv μ} {r : Except Error Unit} (op : AgentOp) : Staffed s → op.Clear s →
      Prog.Runs False memory op.exec s r s' →
      Staffed s'
  | elsewhere {s s' : Kv μ} : Staffed s →
      (∀ k : Str, s'[(Column.agent, k)]? = s[(Column.agent, k)]?) → Staffed s'

theorem Staffed.named {s : Kv μ} (h : Staffed s) : Named s := by
  induction h with
  | empty => exact .empty
  | @op s s' r op _ hop hr ih =>
    have hw : Prog.wp False memory op.exec (fun _ => Named) (fun _ => Named) s := by
      cases op with
      | upsert config => exact wp_upsertAgent ih hop
      | delete id =>
        rw [AgentOp.exec, Prog.wp_bind]
        exact wp_deleteAgent ih id
      | rename id newName =>
        rw [AgentOp.exec, Prog.wp_bind]
        exact wp_renameAgent ih hop
    have := hw.runs hr
    cases r <;> exact this
  | elsewhere _ hs ih => exact ih.congr hs

section
variable {s : Kv μ}

theorem reads_loadAgentByName (h : Named s) (name : Str) : Reads (loadAgentByName name) s
    (.ok (s[(Column.agent, agentNameKey name)]?.bind fun v =>
      (v.asRaw.bind AgentId.ofStr).bind fun id =>
      s[(Column.agent, agentKey id)]?.bind Value.asAgent)) := by
  have hget : Reads (get .agent (agentNameKey name)) s
      (.ok s[(Column.agent, agentNameKey name)]?) := rfl
  have hload := fun id => reads_getJson (s := s) Value.asAgent .agent (agentKey id)
  rw [loadAgentByName, agentId]
  cases hv : s[(Column.agent, agentNameKey name)]? with
  | none =>
    rw [hv] at hget
    have hid : Reads (agentId name) s (.ok none) := by
      rw [agentId]
      exact hget.next (.pure none)
    rw [agentId] at hid
    exact hid.next (.pure none)
  | some v =>
    rw [hv] at hget
    obtain ⟨id, c, rfl, hc, -⟩ := h.rows name v hv
    have hid : Reads (agentId name) s (.ok (some id)) := by
      rw [agentId]
      have := hget.next (f := fun v => match v with
        | none => pure none
        | some v => pure (v.asRaw.bind AgentId.ofStr)) (.pure _)
      rwa [Value.asRaw, Option.bind_some, AgentId.ofStr_toStr] at this
    rw [agentId] at hid
    have hload := hload id
    rw [readJson, hc] at hload
    simp only [Value.asRaw, Option.bind_some, AgentId.ofStr_toStr]
    rw [hc]
    exact hid.next hload

theorem reads_agentIds : Reads agentIds s
    (.ok (((s.under .agent (keysUnder ["idx".toList, "agent".toList])).map (·.2)).filterMap fun v =>
      v.asRaw.bind AgentId.ofStr)) := by
  have : Reads agentIds s
      (.ok (((s.under .agent (keysUnder ["idx".toList, "agent".toList])).map fun e =>
      (e.1.2, e.2)).filterMap
    fun row => row.2.asRaw.bind AgentId.ofStr)) := rfl
  rw [List.filterMap_map] at this
  rw [List.filterMap_map]
  exact this

/-- What the listing finds: a row for each name, in order. -/
theorem mem_agent_rows (h : Named s) {e : Cell × Value μ}
    (he : e ∈ s.under .agent (keysUnder ["idx".toList, "agent".toList])) :
    ∃ name id c, e = ((.agent, agentNameKey name), .raw id.toStr) ∧ StoredAgent s id c ∧
    c.name = name := by
  obtain ⟨⟨col, k⟩, v⟩ := e
  obtain ⟨hv, hcol, name, hk⟩ := ColMap.mem_under.mp he
  simp only at hcol hk
  subst hcol hk
  rw [← agentNameKey_eq] at hv
  obtain ⟨id, c, rfl, hc, hn⟩ := h.rows name v hv
  exact ⟨name, id, c, by rw [agentNameKey_eq], hc, hn⟩

/-- Each agent is found by its own name, listed once, and no name leads elsewhere. -/
theorem agents_indexed (hs : Staffed s) :
    (∀ id v, s[(Column.agent, agentKey id)]? = some v → ∃ c, v = .agent c ∧ c.id = id ∧
      answer (loadAgentByName c.name) s = .ok (some c.persist)) ∧
    (∃ ids, answer agentIds s = .ok ids ∧ ids.Nodup ∧ ∀ id, id ∈ ids ↔ ∃ c, StoredAgent s id c) ∧
    ∀ name v, s[(Column.agent, agentNameKey name)]? = some v → ∃ id c, StoredAgent s id c ∧
    c.name = name ∧
      answer (loadAgentByName name) s = .ok (some c.persist) := by
  have h := hs.named
  have byName : ∀ id c, StoredAgent s id c → answer (loadAgentByName c.name) s =
      .ok (some c.persist) := by
    intro id c hc
    rw [(reads_loadAgentByName h c.name).answer, (h.own hc).2]
    simp only [Option.bind_some, Value.asRaw, AgentId.ofStr_toStr]
    rw [hc]
    rfl
  refine ⟨fun id v hv => ?_, ⟨_, reads_agentIds.answer, ?_, fun id => ?_⟩, fun name v hv => ?_⟩
  · obtain ⟨c, rfl, hid, -⟩ := h.records id v hv
    exact ⟨c, rfl, hid, byName id c hv⟩
  · rw [List.filterMap_map, List.Nodup, List.pairwise_filterMap]
    refine List.Pairwise.imp_of_mem ?_ (ColMap.sorted_under s .agent _)
    -- Rows with the same id name the same agent, so they are the same row.
    intro e e' he he' hlt a ha b hb hab
    subst hab
    obtain ⟨name, id, c, rfl, hc, rfl⟩ := mem_agent_rows h he
    obtain ⟨name', id', c', rfl, hc', rfl⟩ := mem_agent_rows h he'
    simp only [Function.comp_apply, Value.asRaw, Option.bind_some, AgentId.ofStr_toStr,
      Option.some.injEq] at ha hb
    subst ha hb
    rw [hc.unique hc'] at hlt
    exact lt_irrefl_cmp _ hlt
  · rw [List.filterMap_map, List.mem_filterMap]
    constructor
    · rintro ⟨e, he, hid⟩
      obtain ⟨name, id', c, rfl, hc, -⟩ := mem_agent_rows h he
      simp only [Function.comp_apply, Value.asRaw, Option.bind_some, AgentId.ofStr_toStr,
        Option.some.injEq] at hid
      exact ⟨c, hid ▸ hc⟩
    · rintro ⟨c, hc⟩
      refine ⟨((.agent, agentNameKey c.name), .raw id.toStr),
        ColMap.mem_under.mpr ⟨(h.own hc).2, rfl, ?_⟩, ?_⟩
      · exact ⟨c.name, (agentNameKey_eq c.name).symm⟩
      · simp only [Function.comp_apply, Value.asRaw, Option.bind_some, AgentId.ofStr_toStr]
  · obtain ⟨id, c, rfl, hc, rfl⟩ := h.rows name v hv
    exact ⟨id, c, hc, rfl, byName id c hc⟩

end

def AgentConfig.named (id : AgentId) (name : Str) : AgentConfig :=
  { id, name, description := [], model := [], maxIterations := 16, skills := [], mcps := [],
    harnesses := [], tools := [] }

@[irreducible] def AgentOp.after (s : Kv Unit) (op : AgentOp) : Kv Unit :=
  match Prog.interp memory op.exec s with
  | .ok _ s' => s'
  | .error _ s' => s'

theorem Staffed.after {s : Kv Unit} (h : Staffed s) (op : AgentOp) (hc : op.Clear s) :
    Staffed (op.after s) := by
  have hr := Prog.runs_interp False memory op.exec s
  unfold Basis.wp at hr
  unfold AgentOp.after
  split <;> rename_i he <;> rw [he] at hr <;> exact .op op h hc hr

theorem Staffed.unnamed {s : Kv Unit} (h : Staffed s) {name : Str}
    (hn : (s[(Column.agent, agentNameKey name)]?).isNone) (a : AgentId)
    (c : AgentConfig) (hc : StoredAgent s a c) : c.name ≠ name := by
  rintro rfl
  rw [(h.named.own hc).2] at hn
  cases hn

def staffing : List AgentOp :=
  [.upsert (.named ⟨1⟩ "crab".toList), .upsert (.named ⟨2⟩ "eel".toList),
    .rename ⟨1⟩ "lobster".toList, .delete ⟨2⟩]

theorem agents_indexed_instance : ∃ s : Kv Unit, Staffed s ∧
    answer agentIds s = .ok [⟨1⟩] ∧ answer (loadAgentByName "lobster".toList) s =
    .ok (some (.named ⟨1⟩ "lobster".toList)) ∧
    ∃ ids, answer agentIds s = .ok ids ∧ ids.Nodup ∧ ∀ id, id ∈ ids ↔ ∃ c, StoredAgent s id c := by
  have h₁ := Staffed.empty.after (.upsert (.named ⟨1⟩ "crab".toList)) fun a c hc => by
    simp [StoredAgent] at hc
  have h₂ := h₁.after (.upsert (.named ⟨2⟩ "eel".toList)) fun a c hc hn =>
    absurd hn (h₁.unnamed (by decide +kernel) a c hc)
  have h₃ := h₂.after (.rename ⟨1⟩ "lobster".toList) fun _ a c hc =>
      h₂.unnamed (by decide +kernel) a c hc
  have h₄ := h₃.after (.delete ⟨2⟩) trivial
  exact ⟨staffing.foldl AgentOp.after ∅, h₄, by decide +kernel, by decide +kernel,
    (agents_indexed h₄).2.1⟩

/-- An agent renamed to the name it has is stored and cannot be loaded by that name. -/
theorem rename_loses_name : ∃ s : Kv Unit, Prog.interp memory (do
      upsertAgent (.named ⟨1⟩ "crab".toList)
      renameAgent ⟨1⟩ "crab".toList) ∅ = .ok true s ∧
    StoredAgent s ⟨1⟩ (.named ⟨1⟩ "crab".toList) ∧ answer (loadAgentByName "crab".toList) s = .ok none := by
  have hv : (validateTableName "agent".toList "crab".toList : KvM Unit Unit) = pure () := rfl
  let s₁ : Kv Unit := ((∅ : Kv Unit).insert (.agent, agentKey ⟨1⟩)
      (.agent (.named ⟨1⟩ "crab".toList))).insert
    (.agent, agentNameKey "crab".toList) (.raw (AgentId.toStr ⟨1⟩))
  have hs₁ : StoredAgent s₁ ⟨1⟩ (.named ⟨1⟩ "crab".toList) := by
    rw [StoredAgent, find_insert,
      if_neg (by simpa using (agentKey_ne_agentNameKey ⟨1⟩ "crab".toList).symm),
      find_insert, if_pos rfl]
  have hup : Prog.wp False memory (upsertAgent (.named ⟨1⟩ "crab".toList))
      (fun _ s => Named s ∧ s = s₁) (fun _ _ => False) (∅ : Kv Unit) := by
    refine (Prog.wp.and ((wp_upsertAgent .empty fun a c hc => by simp [StoredAgent] at hc).mono
      (fun _ _ h => h) fun _ _ _ => trivial) ?_).mono
      (fun _ _ h => h) fun _ _ h => h.2
    rw [upsertAgent]
    show Prog.wp False memory (validateTableName _ "crab".toList >>= _) _ _ _
    rw [hv, Prog.wp_bind, Prog.wp_pure, Prog.wp_bind]
    refine wp_loadAgent .empty (fun _ => ?_) fun c hc => by simp [StoredAgent] at hc
    simp only [Prog.wp_bind, wp_put, putAgentName]
    exact ⟨⟨rfl, False.elim⟩, False.elim⟩
  have hall : Prog.wp False memory (do
      upsertAgent (.named ⟨1⟩ "crab".toList)
      renameAgent ⟨1⟩ "crab".toList) (fun r s => r = true ∧
        StoredAgent s ⟨1⟩ (.named ⟨1⟩ "crab".toList) ∧
        s[(Column.agent, agentNameKey "crab".toList)]? = none) (fun _ _ => False) (∅ : Kv Unit) := by
    rw [Prog.wp_bind]
    refine hup.mono (fun _ s hnamed => ?_) fun _ _ h => h
    obtain ⟨hn, hs⟩ := hnamed
    subst hs
    exact wp_rename_same hn hs₁ hv
  obtain ⟨_, s, hr, rfl, hst, hrow⟩ := hall.answers
  refine ⟨s, hr, hst, ?_⟩
  have hget : Reads (get .agent (agentNameKey "crab".toList)) s
      (.ok s[(Column.agent, agentNameKey "crab".toList)]?) := rfl
  rw [hrow] at hget
  have hid : Reads (agentId "crab".toList) s (.ok none) := by
    rw [agentId]
    exact hget.next (.pure none)
  have hload : Reads (loadAgentByName "crab".toList) s (.ok none) := by
    rw [loadAgentByName]
    exact hid.next (.pure none)
  exact hload.answer

end Crabtalk.Store

import Crabtalk.System.Registry

/-! # What is advertised, what is routed, what is refused

The index of the tools and the snapshot of their schemas are both taken while
the daemon is built, before any image is loaded. The scope of an agent is
recorded from its stored config, which never carries a whitelist.
-/

open Basis Std

namespace Crabtalk.System

open Store

variable {ε η μ : Type}

theorem ok_of_bind {α β : Type} {x : Except Str α} {f : α → Except Str β} {b : β}
    (h : x >>= f = .ok b) :
    ∃ a, x = .ok a ∧ f a = .ok b := by
  cases x with
  | error e => cases h
  | ok a => exact ⟨a, rfl, h⟩

/-! ## The index -/

namespace HarnessRegistry

theorem find_insertAll (member : Member) (names : List Str) (map : ExtTreeMap Str Member) (name : Str) :
    (names.foldl (fun map name => map.insert name member) map)[name]? = if name ∈ names
    then some member else map[name]? := by
  induction names generalizing map with
  | nil => simp
  | cons n names ih =>
    rw [List.foldl_cons, ih, find_insert]
    by_cases hn : name ∈ names
    · simp [hn]
    · by_cases he : n = name
      · simp [he]
      · have : ¬ name = n := fun h => he h.symm
        simp [hn, he, this]

/-- The index of the members `ms`: the tool and the member that offers it. -/
def Indexed (r : HarnessRegistry η) (w : World ε η) (ms : List Member) : Prop :=
  ∀ (name : Str) m, r.dispatchMap[name]? = some m ↔
    m ∈ ms ∧ name ∈ ((r.get m).schema w).map (·.name)

theorem Indexed.index {r r' : HarnessRegistry η} {w : World ε η} {ms : List Member}
    {member : Member} {names : List Str}
    (h : Indexed r w ms) (hn : names = ((r.get member).schema w).map (·.name))
    (hr : r.index member names = .ok r') :
    Indexed r' w (ms ++ [member]) ∧ r'.hooks = r.hooks ∧ r'.berm = r.berm := by
  unfold HarnessRegistry.index at hr
  split at hr
  · cases hr
  · rename_i hnone
    simp only [Except.ok.injEq] at hr
    subst hr
    refine ⟨?_, rfl, rfl⟩
    intro name m
    have fresh : name ∈ names → r.dispatchMap[name]? = none := by
      intro hmem
      have := List.find?_eq_none.mp hnone name hmem
      simpa using this
    have hget : (HarnessRegistry.get (ε := ε)
        { r with dispatchMap := names.foldl (fun map name => map.insert name member) r.dispatchMap } m) =
        r.get m := by cases m <;> rfl
    rw [find_insertAll, hget]
    by_cases hmem : name ∈ names
    · rw [if_pos hmem]
      constructor
      · intro he
        cases he
        exact ⟨by simp, hn ▸ hmem⟩
      · intro ⟨hm, hname⟩
        rcases List.mem_append.mp hm with hm | hm
        · have := (h name m).mpr ⟨hm, hname⟩
          rw [fresh hmem] at this
          cases this
        · rw [List.mem_singleton.mp hm]
    · rw [if_neg hmem, h name m]
      constructor
      · intro ⟨hm, hname⟩
        exact ⟨List.mem_append_left _ hm, hname⟩
      · intro ⟨hm, hname⟩
        refine ⟨?_, hname⟩
        rcases List.mem_append.mp hm with hm | hm
        · exact hm
        · rw [List.mem_singleton.mp hm, ← hn] at hname
          exact absurd hname hmem

theorem Indexed.indexAll {w : World ε η} (rest : List Member) :
    ∀ {r r' : HarnessRegistry η} {ms : List Member},
    Indexed r w ms → HarnessRegistry.indexAll w rest r = .ok r' →
    Indexed r' w (ms ++ rest) ∧ r'.hooks = r.hooks ∧ r'.berm = r.berm := by
  induction rest with
  | nil =>
    intro r r' ms h hr
    cases hr
    exact ⟨by simpa using h, rfl, rfl⟩
  | cons member rest ih =>
    intro r r' ms h hr
    obtain ⟨r₁, hi, hr⟩ := ok_of_bind hr
    obtain ⟨h₁, hk₁, hb₁⟩ := h.index rfl hi
    obtain ⟨h₂, hk₂, hb₂⟩ := ih h₁ hr
    exact ⟨by simpa using h₂, hk₂.trans hk₁, hb₂.trans hb₁⟩

theorem Indexed.empty (w : World ε η) (berm : Bool) (hooks : List (Harness η)) :
    Indexed ⟨berm, hooks, ∅⟩ w [] := by
  intro name m
  simp

theorem get_hook_lt {r : HarnessRegistry η} {i : Nat} {h : Harness η} (hi : r.hooks[i]? = some h) :
    r.get (.hook i) = (h.lift : Harness (World ε η)) := by
  rw [get_hook, hi]
  rfl

theorem Indexed.register {w : World ε η} {r r' : HarnessRegistry η} {harness : Harness η}
    (h : Indexed r w r.members)
    (hr : register w r harness = .ok r') : Indexed r' w r'.members ∧
    r'.hooks = r.hooks ++ [harness] ∧ r'.berm = r.berm := by
  -- The registry as it will be, before its tools are indexed.
  let r₀ : HarnessRegistry η := { r with hooks := r.hooks ++ [harness] }
  have hget : ∀ m ∈ r.members, (r₀.get m : Harness (World ε η)) = r.get m := by
    intro m hm
    cases m with
    | hook i =>
      have hi : i < r.hooks.length := by
        unfold HarnessRegistry.members at hm
        by_cases hb : r.berm = true <;> simpa [hb] using hm
      rw [get_hook, get_hook]
      simp [r₀, List.getElem?_append_left hi]
    | _ => rfl
  have h₀ : Indexed r₀ w r.members := by
    intro name m
    rw [show r₀.dispatchMap = r.dispatchMap from rfl, h name m]
    constructor
    · intro ⟨hm, hn⟩
      exact ⟨hm, by rw [hget m hm]; exact hn⟩
    · intro ⟨hm, hn⟩
      exact ⟨hm, by rw [← hget m hm]; exact hn⟩
  have hlast : (r₀.get (.hook r.hooks.length) : Harness (World ε η)) = harness.lift := by
    apply get_hook_lt
    simp [r₀]
  obtain ⟨r₁, hi, hr⟩ := ok_of_bind hr
  cases hr
  have hi₀ : r₀.index (.hook r.hooks.length) ((harness.schema w.hooks).map (·.name)) =
      .ok { r₁ with hooks := r.hooks ++ [harness] } := by
    unfold HarnessRegistry.index at hi ⊢
    simp only [r₀]
    split at hi
    · cases hi
    · cases hi
      rfl
  have hk : r₁.hooks = r.hooks ∧ r₁.berm = r.berm := by
    unfold HarnessRegistry.index at hi
    split at hi
    · cases hi
    · cases hi
      exact ⟨rfl, rfl⟩
  obtain ⟨h₁, -, -⟩ := h₀.index (by rw [hlast]; rfl) hi₀
  rw [hk.1]
  refine ⟨?_, rfl, hk.2⟩
  have hm : HarnessRegistry.members { r₁ with hooks := r.hooks ++ [harness] } =
      r.members ++ [.hook r.hooks.length] := by
    unfold HarnessRegistry.members
    simp [hk.2, List.range_succ]
  rw [hm]
  exact h₁

theorem Indexed.registerAll {w : World ε η} (hooks : List (Harness η)) :
    ∀ {r r' : HarnessRegistry η},
    Indexed r w r.members → registerAll w hooks r = .ok r' →
    Indexed r' w r'.members ∧ r'.hooks = r.hooks ++ hooks ∧ r'.berm = r.berm := by
  induction hooks with
  | nil =>
    intro r r' h hr
    cases hr
    exact ⟨h, by simp, rfl⟩
  | cons harness hooks ih =>
    intro r r' h hr
    obtain ⟨r₁, hi, hr⟩ := ok_of_bind hr
    obtain ⟨h₁, hk₁, hb₁⟩ := h.register hi
    obtain ⟨h₂, hk₂, hb₂⟩ := ih h₁ hr
    exact ⟨h₂, by rw [hk₂, hk₁]; simp, hb₂.trans hb₁⟩

theorem mem_members {r : HarnessRegistry η} {m : Member} : m ∈ r.members ↔
    m = .berm ∧ r.berm = true ∨ m = .mcp ∨ m = .memory ∨ ∃ i < r.hooks.length, m = .hook i := by
  unfold HarnessRegistry.members
  by_cases hb : r.berm = true <;> simp [hb, eq_comm]

end HarnessRegistry

/-! ## The daemon as it is built -/

/-- What holds of a daemon from its start: the index, and the snapshot, of the members as they were then. -/
structure Built (d : Daemon ε η μ) (w : World ε η) : Prop where
  indexed : d.registry.Indexed w d.registry.members
  tools : d.tools = ToolRegistry.insertAll ∅ (d.registry.schema w)
  noImages : w.berm = .empty

theorem built_of_build {berm : Bool} {harnesses : List (Harness η)} {machine : Machine ε}
    {peers : Peers} {hooks : η} {store : Kv μ}
    {d : Daemon ε η μ} (h : Daemon.build berm harnesses machine peers hooks store = .ok d) :
    Built d d.world ∧ d.world.scopes = ∅ := by
  obtain ⟨r₀, hnew, h⟩ := ok_of_bind h
  obtain ⟨r, hreg, h⟩ := ok_of_bind h
  cases h
  obtain ⟨h₀, hk₀, hb₀⟩ := (HarnessRegistry.Indexed.empty _ berm []).indexAll _ hnew
  have hm : r₀.members = HarnessRegistry.members (⟨berm, [], ∅⟩ : HarnessRegistry η) := by
    unfold HarnessRegistry.members
    rw [hk₀, hb₀]
  rw [List.nil_append, ← hm] at h₀
  obtain ⟨h₁, -, -⟩ := HarnessRegistry.Indexed.registerAll harnesses h₀ hreg
  exact ⟨⟨h₁, rfl, rfl⟩, rfl⟩

theorem insertAll_isSome {schema : List Tool} (name : Str) : ∀ tools : ToolRegistry,
    (∃ t, (ToolRegistry.insertAll tools schema)[name]? = some t) ↔ (∃ t, tools[name]? = some t) ∨
    name ∈ schema.map (·.name) := by
  induction schema with
  | nil =>
    intro tools
    simp [ToolRegistry.insertAll]
  | cons t schema ih =>
    intro tools
    have := ih (tools.insert t.name t)
    unfold ToolRegistry.insertAll at this ⊢
    rw [List.foldl_cons, this, find_insert]
    by_cases he : t.name = name
    · simp [he]
    · have hne : ¬ name = t.name := fun h => he h.symm
      simp [he, hne]

theorem insertAll_name {schema : List Tool} {name : Str} {t : Tool} : ∀ tools : ToolRegistry,
    (∀ (name : Str) t, tools[name]? = some t → t.name = name) →
    (ToolRegistry.insertAll tools schema)[name]? = some t → t.name = name := by
  induction schema with
  | nil =>
    intro tools h ht
    exact h _ _ ht
  | cons t' schema ih =>
    intro tools h ht
    apply ih (tools.insert t'.name t') ?_ ht
    intro n t₁ h₁
    rw [find_insert] at h₁
    by_cases he : t'.name = n
    · rw [if_pos he] at h₁
      cases h₁
      exact he
    · rw [if_neg he] at h₁
      exact h _ _ h₁

/-- A whitelist admits what it lists; an empty one admits everything. -/
def Admits (whitelist : List Str) (name : Str) : Prop := whitelist = [] ∨ name ∈ whitelist

theorem mem_filteredSnapshot {tools : ToolRegistry} {names : List Str} {t : Tool}
    (hname : ∀ (name : Str) t, tools[name]? = some t → t.name = name) :
    t ∈ tools.filteredSnapshot names ↔ tools[t.name]? = some t ∧ Admits names t.name := by
  have hmem : ∀ e : Str × Tool, e ∈ tools.toList ↔ tools[e.1]? = some e.2 := fun e =>
    ExtTreeMap.mem_toList_iff_getElem?_eq_some
  unfold ToolRegistry.filteredSnapshot Admits
  by_cases hn : names = []
  · rw [if_pos hn, List.mem_map]
    constructor
    · intro ⟨e, he, ht⟩
      rw [hmem, ht] at he
      exact ⟨by rw [hname _ _ he]; exact he, Or.inl hn⟩
    · intro ⟨h, _⟩
      exact ⟨(t.name, t), (hmem _).mpr h, rfl⟩
  · rw [if_neg hn, List.mem_map]
    constructor
    · intro ⟨e, he, ht⟩
      rw [List.mem_filter, hmem, ht] at he
      rw [hname _ _ he.1]
      exact ⟨he.1, Or.inr (by simpa using he.2)⟩
    · intro ⟨h, ha⟩
      refine ⟨(t.name, t), ?_, rfl⟩
      rw [List.mem_filter, hmem]
      exact ⟨h, by simpa [hn] using ha⟩

/-! ## Its runs -/

structure Running (ε η : Type) where
  world : World ε η
  agent : Agent

/-- The daemons reached from a start, each with the agents last resolved. What the machine holds,
what is stored and what the consumer's members remember may change between any two steps. -/
inductive Reached : Daemon ε η μ → (AgentId → Option (Running ε η)) → Prop
  | build {berm : Bool} {harnesses : List (Harness η)} {machine : Machine ε} {peers : Peers}
  {hooks : η} {store : Kv μ}
      {d : Daemon ε η μ} : Daemon.build berm harnesses machine peers hooks store = .ok d →
        Reached d fun _ => none
  | resolve {d : Daemon ε η μ} {agents : AgentId → Option (Running ε η)} {id : AgentId}
      {agent : Agent} : Reached d agents →
      (d.resolveAgent id).1 = some agent →
      Reached (d.resolveAgent id).2
      (Function.update agents id (some ⟨(d.resolveAgent id).2.world, agent⟩))
  | forget {d : Daemon ε η μ} {agents : AgentId → Option (Running ε η)} (id : AgentId) :
      Reached d agents →
      Reached (d.forgetAgent id) agents
  | dispatch {d : Daemon ε η μ} {agents : AgentId → Option (Running ε η)} (name : Str)
      (call : ToolDispatch) : Reached d agents →
      Reached (d.dispatch name call).2 agents
  | outside {d : Daemon ε η μ} {agents : AgentId → Option (Running ε η)} (machine : Machine ε)
      (peers : Peers) (hooks : η)
      (store : Kv μ) : Reached d agents →
      Reached { d with world := { d.world with machine, peers, hooks }, store } agents

theorem agent_tools {d : Daemon ε η μ} {id : AgentId} {config : AgentConfig}
    (h : d.agent id = some config) : config.tools = [] := by
  have hr := (reads_getJson (s := d.store) Value.asAgent .agent (agentKey id)).answer
  unfold Daemon.agent loadAgent at h
  rw [hr] at h
  unfold readJson at h
  cases hv : d.store[((.agent, agentKey id) : Cell)]? with
  | none => simp [hv] at h
  | some v =>
    cases v with
    | agent c =>
      simp only [hv, Value.asAgent, Option.some.injEq] at h
      subst h
      rfl
    | _ => simp [hv, Value.asAgent] at h

theorem resolveAgent_some {d : Daemon ε η μ} {id : AgentId} {agent : Agent}
    (h : (d.resolveAgent id).1 = some agent) :
    d.agent id = some agent.declared ∧
      (d.resolveAgent id).2 =
      { d with world := d.registry.onResolveAgent id agent.declared d.world } ∧
      agent = (d.resolveAgent id).2.buildAgent agent.declared := by
  unfold Daemon.resolveAgent at h ⊢
  cases hc : d.agent id with
  | none => simp [hc] at h
  | some config =>
    simp only [hc, Option.some.injEq] at h ⊢
    subst h
    exact ⟨rfl, rfl, rfl⟩

namespace HarnessRegistry

variable {r : HarnessRegistry η} {id : AgentId} {config : AgentConfig}

theorem get_onResolveAgent_scopes (m : Member) (w : World ε η) :
    ((r.get m).onResolveAgent id config w).scopes = w.scopes := by
  cases m with
  | hook i =>
    rw [get_hook]
    cases r.hooks[i]? <;> rfl
  | _ => rfl

theorem get_onForgetAgent_scopes (m : Member) (w : World ε η) :
    ((r.get m).onForgetAgent id w).scopes = w.scopes := by
  cases m with
  | hook i =>
    rw [get_hook]
    cases r.hooks[i]? <;> rfl
  | _ => rfl

theorem get_dispatch_scopes (m : Member) (name : Str) (call : ToolDispatch) (w : World ε η) :
    ((r.get m).dispatch name call w).2.scopes = w.scopes := by
  cases m with
  | hook i =>
    rw [get_hook]
    cases r.hooks[i]? <;> rfl
  | mcp =>
    show (mcpHarness.dispatch name call w).2.scopes = w.scopes
    unfold mcpHarness
    simp only
    split <;> rfl
  | memory =>
    show (memoryHarness.dispatch name call w).2.scopes = w.scopes
    unfold memoryHarness
    simp only
    split <;> rfl
  | berm => rfl

theorem onResolveAgent_scopes (w : World ε η) : (r.onResolveAgent id config w).scopes =
    w.scopes.insert id config.tools := by
  unfold HarnessRegistry.onResolveAgent
  have fold : ∀ (ms : List Member) (w : World ε η),
      (ms.foldl (fun w m => (r.get m).onResolveAgent id config w) w).scopes = w.scopes := by
    intro ms
    induction ms with
    | nil => intro w; rfl
    | cons m ms ih => intro w; rw [List.foldl_cons, ih, get_onResolveAgent_scopes]
  exact fold _ _

theorem onForgetAgent_scopes (w : World ε η) : (r.onForgetAgent id w).scopes = w.scopes.erase id := by
  unfold HarnessRegistry.onForgetAgent
  have fold : ∀ (ms : List Member) (w : World ε η),
      (ms.foldl (fun w m => (r.get m).onForgetAgent id w) w).scopes = w.scopes := by
    intro ms
    induction ms with
    | nil => intro w; rfl
    | cons m ms ih => intro w; rw [List.foldl_cons, ih, get_onForgetAgent_scopes]
  exact fold _ _

theorem dispatch_scopes (name : Str) (call : ToolDispatch) (w : World ε η) :
    (r.dispatch name call w).2.scopes = w.scopes := by
  unfold HarnessRegistry.dispatch
  split
  · rfl
  · split
    · exact get_dispatch_scopes _ _ _ _
    · rfl

end HarnessRegistry

/-- What holds of every daemon reached: it routes by the index it was built with, and no scope it
recorded restricts anything. -/
structure Daemon.Steady (d : Daemon ε η μ) (agents : AgentId → Option (Running ε η)) : Prop where
  built : ∃ w, Built d w
  unscoped : ∀ (id : AgentId) tools, d.world.scopes[id]? = some tools → tools = []
  resolved : ∀ id run, agents id = some run →
    run.agent = Daemon.buildAgent { d with world := run.world } run.agent.declared

theorem Reached.steady {d : Daemon ε η μ} {agents : AgentId → Option (Running ε η)}
    (h : Reached d agents) : d.Steady agents := by
  -- Induction on the run: the index of tools stays, and scopes come from `resolve` alone.
  induction h with
  | build h =>
    obtain ⟨hb, hs⟩ := built_of_build h
    refine ⟨⟨_, hb⟩, ?_, ?_⟩
    · intro id tools ht
      rw [hs] at ht
      simp at ht
    · intro id run hr
      cases hr
  | @resolve d agents id agent _ ha ih =>
    obtain ⟨hc, hd, hagent⟩ := resolveAgent_some ha
    obtain ⟨w, hw⟩ := ih.built
    rw [hd] at hagent ⊢
    refine ⟨⟨w, hw.indexed, hw.tools, hw.noImages⟩, ?_, ?_⟩
    · intro id' tools ht
      simp only [HarnessRegistry.onResolveAgent_scopes] at ht
      rw [find_insert] at ht
      by_cases he : id = id'
      · rw [if_pos he, agent_tools hc] at ht
        cases ht
        rfl
      · rw [if_neg he] at ht
        exact ih.unscoped _ _ ht
    · intro id' run hr
      by_cases he : id' = id
      · subst he
        rw [Function.update_self] at hr
        cases hr
        exact hagent
      · rw [Function.update_of_ne he] at hr
        exact ih.resolved _ _ hr
  | @forget d agents id _ ih =>
    obtain ⟨w, hw⟩ := ih.built
    refine ⟨⟨w, hw.indexed, hw.tools, hw.noImages⟩, ?_, ih.resolved⟩
    intro id' tools ht
    unfold Daemon.forgetAgent at ht
    simp only [HarnessRegistry.onForgetAgent_scopes] at ht
    rw [find_erase] at ht
    by_cases he : id = id'
    · rw [if_pos he] at ht
      cases ht
    · rw [if_neg he] at ht
      exact ih.unscoped _ _ ht
  | @dispatch d agents name call _ ih =>
    obtain ⟨w, hw⟩ := ih.built
    refine ⟨⟨w, hw.indexed, hw.tools, hw.noImages⟩, ?_, ih.resolved⟩
    intro id' tools ht
    unfold Daemon.dispatch at ht
    simp only [HarnessRegistry.dispatch_scopes] at ht
    exact ih.unscoped _ _ ht
  | outside machine peers hooks store _ ih =>
    obtain ⟨w, hw⟩ := ih.built
    exact ⟨⟨w, hw.indexed, hw.tools, hw.noImages⟩, ih.unscoped, ih.resolved⟩

/-! ## Scopes -/

def Running.scoped (run : Running ε η) (r : HarnessRegistry η) (m : Member) : List Str :=
  ((r.get m).scopedTools run.world (r.withUsage run.world run.agent.declared)).1

/-- No member runs the call: the scope leaves it out, or nobody answers to it. -/
def Refused (d : Daemon ε η μ) (name : Str) (call : ToolDispatch) : Prop :=
  HarnessRegistry.outOfScope name call d.world = true ∨
    (d.registry.dispatch name call d.world).1 = none

theorem mem_onBuildAgent_tools {r : HarnessRegistry η} {w : World ε η} {config : AgentConfig}
    (hs : config.skills ≠ [] ∨ config.mcps ≠ [])
    {name : Str} : name ∈ (r.onBuildAgent w config).tools ↔
      ∃ m ∈ r.members, name ∈ ((r.get m).scopedTools w (r.withUsage w config)).1 := by
  have hs : ¬ ((r.withUsage w config).skills = [] ∧ (r.withUsage w config).mcps = []) := by
    intro ⟨h₁, h₂⟩
    rcases hs with hs | hs
    · exact hs h₁
    · exact hs h₂
  unfold HarnessRegistry.onBuildAgent HarnessRegistry.applyScope
  rw [if_neg hs]
  simp

section
variable {d : Daemon ε η μ} {agents : AgentId → Option (Running ε η)} {id : AgentId}
  {run : Running ε η}

theorem Daemon.Steady.inScope (h : d.Steady agents) (name : Str) (call : ToolDispatch) :
    HarnessRegistry.outOfScope name call d.world = false := by
  unfold HarnessRegistry.outOfScope
  cases hs : d.world.scopes[call.agent]? with
  | none => rfl
  | some tools => simp [h.unscoped _ _ hs]

theorem Daemon.Steady.refused_iff (h : d.Steady agents) (name : Str) (call : ToolDispatch) :
    Refused d name call ↔ ∀ m, d.registry.dispatchMap[name]? = some m →
    ((d.registry.get m).dispatch name call d.world).1 = none := by
  unfold Refused HarnessRegistry.dispatch
  rw [h.inScope]
  cases d.registry.dispatchMap[name]? <;> simp

theorem Daemon.Steady.mem_whitelist (h : d.Steady agents) (ha : agents id = some run)
    (hs : run.agent.declared.skills ≠ [] ∨ run.agent.declared.mcps ≠ []) {name : Str} :
    name ∈ run.agent.config.tools ↔ ∃ m ∈ d.registry.members, name ∈ run.scoped d.registry m := by
  have hc : run.agent.config = d.registry.onBuildAgent run.world run.agent.declared := by
    rw [h.resolved _ _ ha]
    rfl
  rw [hc, mem_onBuildAgent_tools hs]
  rfl

/-- No image was loaded when the tools were indexed. -/
theorem Daemon.Steady.not_routes_berm (h : d.Steady agents) (name : Str) :
    d.registry.dispatchMap[name]? ≠ some .berm := by
  intro hroute
  obtain ⟨w, hw⟩ := h.built
  obtain ⟨-, hname⟩ := (hw.indexed _ _).mp hroute
  have : (d.registry.get .berm).schema w = [] := by
    show catalogue w.berm = []
    rw [hw.noImages, catalogue_empty]
  rw [this] at hname
  cases hname

/-- A scoped agent is refused whatever its whitelist leaves out exactly if the whitelist has `mcp`
and every tool of the consumer's that its member answers to. -/
theorem scope_enforced (h : Reached d agents) (ha : agents id = some run)
    (hs : run.agent.declared.skills ≠ [] ∨ run.agent.declared.mcps ≠ []) :
    (∀ name, name ∉ run.agent.config.tools → ∀ call, call.agent = id → Refused d name call) ↔
      (run.agent.declared.mcps ≠ [] ∨ ∃ m ∈ d.registry.members, m ≠ .mcp ∧
        "mcp".toList ∈ run.scoped d.registry m) ∧
      ∀ (name : Str) i, d.registry.dispatchMap[name]? = some (.hook i) →
      (∀ m ∈ d.registry.members, name ∉ run.scoped d.registry m) →
        ∀ call, call.agent = id → ((d.registry.get (.hook i)).dispatch name call d.world).1 = none := by
  have hd := h.steady
  obtain ⟨w, hw⟩ := hd.built
  constructor
  · intro hall
    constructor
    -- `mcp` is not on the list of such an agent, and is dispatched all the same
    · by_contra hno
      rw [not_or, not_not] at hno
      have hout : "mcp".toList ∉ run.agent.config.tools := by
        rw [hd.mem_whitelist ha hs]
        intro ⟨m, hm, hmem⟩
        by_cases he : m = .mcp
        · subst he
          have : run.scoped d.registry .mcp = [] := by
            unfold Running.scoped
            show (mcpHarness.scopedTools _ _).1 = []
            unfold mcpHarness
            simp only
            rw [if_pos]
            exact hno.1
          rw [this] at hmem
          cases hmem
        · exact hno.2 ⟨m, hm, he, hmem⟩
      have hroute : d.registry.dispatchMap["mcp".toList]? = some .mcp := by
        rw [hw.indexed]
        exact ⟨HarnessRegistry.mem_members.mpr (Or.inr (Or.inl rfl)), List.mem_singleton.mpr rfl⟩
      have := (hd.refused_iff _ _).mp (hall _ hout ⟨[], id, [], none, [], none⟩ rfl) _ hroute
      cases this
    · intro name i hroute hout call hcall
      refine (hd.refused_iff _ _).mp (hall name ?_ call hcall) _ hroute
      rw [hd.mem_whitelist ha hs]
      intro ⟨m, hm, hmem⟩
      exact hout m hm hmem
  · intro ⟨hmcp, hhooks⟩ name hout call hcall
    rw [hd.mem_whitelist ha hs] at hout
    have hout : ∀ m ∈ d.registry.members, name ∉ run.scoped d.registry m := by
      intro m hm hmem
      exact hout ⟨m, hm, hmem⟩
    rw [hd.refused_iff]
    intro m hroute
    obtain ⟨hm, hname⟩ := (hw.indexed name m).mp hroute
    -- a family's own tools are in its scope; those of a hook need not be
    cases m with
    | berm => exact absurd hroute (hd.not_routes_berm name)
    | mcp =>
      have hname : name = "mcp".toList := List.mem_singleton.mp hname
      subst hname
      rcases hmcp with hmcp | ⟨m, hm, -, hmem⟩
      · refine absurd ?_ (hout .mcp hm)
        unfold Running.scoped
        show _ ∈ (mcpHarness.scopedTools _ _).1
        unfold mcpHarness
        simp only
        rw [if_neg]
        · exact List.mem_singleton.mpr rfl
        · exact hmcp
      · exact absurd hmem (hout m hm)
    | memory => exact absurd hname (hout .memory hm)
    | hook i => exact hhooks name i hroute hout call hcall

/-! ## Images -/

/-- Calls of the agent for the tool go to the member. -/
def Routes (d : Daemon ε η μ) (id : AgentId) (name : Str) (m : Member) : Prop :=
  d.registry.dispatchMap[name]? = some m ∧ ∀ call : ToolDispatch, call.agent = id →
    HarnessRegistry.outOfScope name call d.world = false

/-- The tools of the images that loaded are advertised and reach their image; what is advertised is routed. -/
structure Wired (d : Daemon ε η μ) (id : AgentId) (run : Running ε η) : Prop where
  exported : ∀ m ∈ d.world.berm.of id none, ∀ t ∈ m.tools, Admits run.agent.config.tools t.name →
    (∃ t' ∈ run.agent.tools, t'.name = t.name) ∧ Routes d id t.name .berm ∧
      (owner d.world.machine d.world.berm id none t.name).1 = some m
  advertised : ∀ t ∈ run.agent.tools, ∃ m ∈ d.registry.members, Routes d id t.name m

theorem Daemon.Steady.advertised (h : d.Steady agents) (ha : agents id = some run) {t : Tool}
    (ht : t ∈ run.agent.tools) :
    ∃ m ∈ d.registry.members, Routes d id t.name m := by
  obtain ⟨w, hw⟩ := h.built
  have hr := h.resolved _ _ ha
  rw [hr] at ht
  have ht : t ∈ d.tools.filteredSnapshot
      (d.registry.onBuildAgent run.world run.agent.declared).tools := ht
  have hname : ∀ (name : Str) t, d.tools[name]? = some t → t.name = name := by
    intro name t ht
    rw [hw.tools] at ht
    exact insertAll_name _ (by simp) ht
  have hsome := ((mem_filteredSnapshot hname).mp ht).1
  rw [hw.tools] at hsome
  rcases (insertAll_isSome t.name _).mp ⟨t, hsome⟩ with ⟨_, he⟩ | hmem
  · simp at he
  · obtain ⟨t', ht', hn⟩ := List.mem_map.mp hmem
    obtain ⟨m, hm, hs⟩ := List.mem_flatMap.mp ht'
    refine ⟨m, hm, (hw.indexed _ _).mpr ⟨hm, List.mem_map.mpr ⟨t', hs, hn⟩⟩, ?_⟩
    intro call _
    exact h.inScope _ _

/-- Once resolved, an agent is wired exactly if no image it declares and that loaded exports a tool
its whitelist admits. -/
theorem harness_wired (h : Reached d agents) (ha : agents id = some run) :
    Wired d id run ↔ ∀ m ∈ d.world.berm.of id none, ∀ t ∈ m.tools,
    ¬ Admits run.agent.config.tools t.name := by
  have hd := h.steady
  constructor
  · intro hwired m hm t ht hadmits
    obtain ⟨-, ⟨hroute, -⟩, -⟩ := hwired.exported m hm t ht hadmits
    exact hd.not_routes_berm _ hroute
  · intro hno
    refine ⟨?_, fun t ht => hd.advertised ha ht⟩
    intro m hm t ht hadmits
    exact absurd hadmits (hno m hm t ht)

end

/-! ## Two daemons -/

def plainMachine : Machine Unit where
  elf _ := .ok ()
  home := none
  resolve _ path := .ok path
  digest _ _ _ _ _ := 0
  load _ _ _ _ _ := .ok ⟨[⟨"read".toList, none⟩]⟩

def mute : Machine Unit := { plainMachine with load := fun _ _ _ _ _ => .ok ⟨[]⟩ }

def plainPeers : Peers := ⟨fun _ _ _ => .ok [], fun _ _ => .ok [], fun _ _ _ => .ok []⟩

def plainDaemon (machine : Machine Unit) (config : AgentConfig) :
    Except Str (Daemon Unit Unit Unit) :=
  Daemon.build true [] machine plainPeers ()
    ((∅ : Kv Unit).insert (.agent, agentKey config.id) (.agent config))

theorem agent_of_stored {d : Daemon ε η μ} {id : AgentId} {config : AgentConfig}
    (h : d.store[((.agent, agentKey id) : Cell)]? = some (.agent config)) : d.agent id =
    some config.persist := by
  unfold Daemon.agent loadAgent
  rw [(reads_getJson Value.asAgent .agent (agentKey id)).answer]
  unfold readJson
  rw [h]
  rfl

theorem resolveAgent_of_agent {d : Daemon ε η μ} {id : AgentId} {config : AgentConfig}
    (h : d.agent id = some config) :
    d.resolveAgent id =
    (some (Daemon.buildAgent { d with world := d.registry.onResolveAgent id config d.world } config),
      { d with world := d.registry.onResolveAgent id config d.world }) := by
  unfold Daemon.resolveAgent
  rw [h]

theorem plainDaemon_resolve (machine : Machine Unit) (config : AgentConfig) :
    ∃ (d : Daemon Unit Unit Unit) (agents : AgentId → Option (Running Unit Unit))
    (run : Running Unit Unit), Reached d agents ∧ agents config.id = some run ∧
    run.agent.declared = config.persist ∧
      d.registry.members = [.berm, .mcp, .memory] ∧
      d.world.berm = load machine .empty config.id config.persist ∧
      run.world = d.world := by
  obtain ⟨d, hd, hm, hw, hs⟩ : ∃ d, plainDaemon machine config = .ok d ∧
      d.registry.members = [.berm, .mcp, .memory] ∧
      d.world = ⟨machine, plainPeers, ∅, .empty, ∅, ()⟩ ∧
      d.store = (∅ : Kv Unit).insert (.agent, agentKey config.id) (.agent config) :=
      ⟨_, rfl, rfl, rfl, rfl⟩
  have hstored : d.store[((.agent, agentKey config.id) : Cell)]? = some (.agent config) := by
    rw [hs, find_insert, if_pos rfl]
  have hr := resolveAgent_of_agent (agent_of_stored hstored)
  refine ⟨_, _, _, .resolve (.build hd) (congrArg Prod.fst hr), Function.update_self ..,
    rfl, ?_, ?_, rfl⟩
  · rw [hr]
    exact hm
  · rw [hr]
    show (d.registry.onResolveAgent config.id config.persist d.world).berm = _
    unfold HarnessRegistry.onResolveAgent
    rw [hm, hw]
    rfl

def withOs : AgentConfig :=
  { AgentConfig.named ⟨1⟩ "crab".toList with harnesses := [⟨"os".toList, none, []⟩] }

theorem plainDaemon_images {r : Registry}
    (hr : r = load plainMachine .empty withOs.id withOs.persist) :
    r.of withOs.id none = [⟨[⟨"read".toList, none⟩]⟩] := by
  subst hr
  exact (of_load plainMachine .empty withOs.id withOs.persist rfl).trans rfl

/-- The image of a declared harness is loaded, and its tool is neither advertised nor routed. -/
theorem loaded_harness_unrouted :
    ∃ (d : Daemon Unit Unit Unit) (agents : AgentId → Option (Running Unit Unit))
      (run : Running Unit Unit),
    Reached d agents ∧ agents ⟨1⟩ = some run ∧
    (∃ m ∈ d.world.berm.of ⟨1⟩ none, ⟨"read".toList, none⟩ ∈ m.tools) ∧
      Admits run.agent.config.tools "read".toList ∧ ¬ Wired d ⟨1⟩ run := by
  obtain ⟨d, agents, run, h, ha, hdecl, hm, hb, -⟩ := plainDaemon_resolve plainMachine withOs
  have himages := plainDaemon_images hb
  have hconfig : run.agent.config = d.registry.onBuildAgent run.world run.agent.declared := by
    rw [h.steady.resolved _ _ ha]
    rfl
  have hadmits : Admits run.agent.config.tools "read".toList := by
    left
    rw [hconfig, hdecl]
    rfl
  have hmem : (⟨[⟨"read".toList, none⟩]⟩ : Manifest) ∈ d.world.berm.of ⟨1⟩ none := by
    have hmem : (⟨[⟨"read".toList, none⟩]⟩ : Manifest) ∈ d.world.berm.of withOs.id none := by
      rw [himages]
      exact List.mem_singleton.mpr rfl
    exact hmem
  refine ⟨d, agents, run, h, ha, ⟨_, hmem, List.mem_singleton.mpr rfl⟩, hadmits, ?_⟩
  intro hwired
  obtain ⟨-, ⟨hroute, -⟩, -⟩ := hwired.exported _ hmem ⟨"read".toList, none⟩
      (List.mem_singleton.mpr rfl) hadmits
  exact h.steady.not_routes_berm _ hroute

/-- The image of a declared harness is loaded, and exports no tool that would have to be wired. -/
theorem harness_wired_instance :
    ∃ (d : Daemon Unit Unit Unit) (agents : AgentId → Option (Running Unit Unit))
      (run : Running Unit Unit),
    agents ⟨1⟩ = some run ∧ run.agent.declared.harnesses = withOs.harnesses ∧
    d.world.berm.of ⟨1⟩ none = [⟨[]⟩] ∧ Wired d ⟨1⟩ run := by
  obtain ⟨d, agents, run, h, ha, hdecl, hm, hb, -⟩ := plainDaemon_resolve mute withOs
  have himages : d.world.berm.of ⟨1⟩ none = [⟨[]⟩] := by
    rw [hb]
    exact (of_load mute .empty withOs.id withOs.persist rfl).trans rfl
  refine ⟨d, agents, run, ha, by rw [hdecl]; rfl, himages, (harness_wired h ha).mpr ?_⟩
  intro m hmem t ht
  rw [show withOs.id = ⟨1⟩ from rfl, himages, List.mem_singleton] at hmem
  rw [hmem] at ht
  cases ht

def withSkill : AgentConfig :=
  { AgentConfig.named ⟨1⟩ "crab".toList with skills := ["review".toList] }

/-- An agent that names a skill and no MCP server is scoped without `mcp`, and may call it. -/
theorem skills_leave_mcp_open :
    ∃ (d : Daemon Unit Unit Unit) (agents : AgentId → Option (Running Unit Unit))
      (run : Running Unit Unit),
    Reached d agents ∧ agents ⟨1⟩ = some run ∧ run.agent.declared.skills ≠ [] ∧
    "mcp".toList ∉ run.agent.config.tools ∧
      ∃ call : ToolDispatch, call.agent = ⟨1⟩ ∧ ¬ Refused d "mcp".toList call := by
  obtain ⟨d, agents, run, h, ha, hdecl, hm, hb, hw⟩ := plainDaemon_resolve plainMachine withSkill
  have hskills : run.agent.declared.skills ≠ [] := by
    rw [hdecl]
    exact List.cons_ne_nil _ _
  obtain ⟨w, hbuilt⟩ := h.steady.built
  refine ⟨d, agents, run, h, ha, hskills, ?_, ⟨[], ⟨1⟩, [], none, [], none⟩, rfl, ?_⟩
  · rw [h.steady.mem_whitelist ha (Or.inl hskills), hm]
    intro ⟨m, hmem, hname⟩
    simp only [List.mem_cons, List.not_mem_nil, or_false] at hmem
    rcases hmem with rfl | rfl | rfl
    · have : run.scoped d.registry .berm = [] := by
        show names run.world.berm run.agent.declared.id = []
        have hnone : (load plainMachine .empty withSkill.id withSkill.persist).of withSkill.id
            none = [] := of_load_nil plainMachine rfl
        rw [hw, hb, hdecl]
        unfold names
        rw [show withSkill.persist.id = withSkill.id from rfl, hnone]
        rfl
      rw [this] at hname
      cases hname
    · have : run.scoped d.registry .mcp = [] := by
        show (mcpHarness.scopedTools _ (d.registry.withUsage _ run.agent.declared)).1 = []
        rw [hdecl]
        rfl
      rw [this] at hname
      cases hname
    · have hname : "mcp".toList ∈ memoryTools.map (·.name) := hname
      revert hname
      decide
  · rw [h.steady.refused_iff]
    intro hall
    have hroute : d.registry.dispatchMap["mcp".toList]? = some .mcp := by
      rw [hbuilt.indexed, hm]
      exact ⟨by decide, List.mem_singleton.mpr rfl⟩
    cases hall _ hroute

def withMcp : AgentConfig :=
  { AgentConfig.named ⟨1⟩ "crab".toList with mcps := [⟨"fs".toList, "mcp-fs".toList, [], [], true, none, none⟩] }

theorem scope_enforced_instance :
    ∃ (d : Daemon Unit Unit Unit) (agents : AgentId → Option (Running Unit Unit))
      (run : Running Unit Unit),
    agents ⟨1⟩ = some run ∧ run.agent.declared.mcps ≠ [] ∧
      ∀ name, name ∉ run.agent.config.tools → ∀ call, call.agent = ⟨1⟩ → Refused d name call := by
  obtain ⟨d, agents, run, h, ha, hdecl, hm, -, -⟩ := plainDaemon_resolve plainMachine withMcp
  have hmcps : run.agent.declared.mcps ≠ [] := by
    rw [hdecl]
    exact List.cons_ne_nil _ _
  obtain ⟨w, hbuilt⟩ := h.steady.built
  refine ⟨d, agents, run, ha, hmcps, (scope_enforced h ha (Or.inr hmcps)).mpr ⟨Or.inl hmcps, ?_⟩⟩
  intro name i hroute
  obtain ⟨hmem, -⟩ := (hbuilt.indexed _ _).mp hroute
  rw [hm] at hmem
  simp at hmem

end Crabtalk.System

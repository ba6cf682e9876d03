import Crabtalk.System.Berm
import Crabtalk.System.Mcp

/-! # Declaring servers through the hooks

A resolved agent's servers are registered by tasks the hook leaves behind, one
for each, and so are the registrations taken back of a server it declares no
more. The tasks run in any order.
-/

open Basis Std

namespace Crabtalk.System

open Store

variable {hash : Str × List Str × List (Str × Str) × Option Str × Option Str → Fingerprint}
  {overlay : List (Str × Str)}

/-! ## Hooks and tasks -/

inductive Task
  | register (agent : Str) (cfg : McpServerConfig)
  | unregister (agent name : Str)
  deriving DecidableEq

namespace Task

def key : Task → OwnerKey
  | register agent cfg => (agent, cfg.name)
  | unregister agent name => (agent, name)

def execute (hash : Str × List Str × List (Str × Str) × Option Str × Option Str → Fingerprint)
    (h : McpHandler) : Task → McpHandler
  | register agent cfg => (h.registerForAgent (fingerprint hash cfg) (agent, cfg.name) cfg).2
  | unregister agent name => (h.unregisterForAgent (agent, name)).2

def outcome (hash : Str × List Str × List (Str × Str) × Option Str × Option Str → Fingerprint) :
    Task → Option Fingerprint
  | register _ cfg => some (fingerprint hash cfg)
  | unregister _ _ => none

end Task

/-- The config with what the daemon adds to the environment, where the config does not say otherwise. -/
def effective (overlay : List (Str × Str)) (cfg : McpServerConfig) : McpServerConfig :=
  { cfg with
    env := (overlay.foldl (fun (env : ExtTreeMap Str Str) e => env.insertIfNew e.1 e.2)
      (ExtTreeMap.ofList cfg.env)).toList }

@[simp] theorem effective_name (overlay : List (Str × Str)) (cfg : McpServerConfig) :
    (effective overlay cfg).name = cfg.name := rfl

/-- The tasks in the order they were spawned, and what each agent declared last. -/
structure McpHarness where
  handler : McpHandler
  agentMcps : ExtTreeMap AgentId (List Str)
  tasks : List Task
  declared : AgentId → List McpServerConfig

namespace McpHarness

def empty : McpHarness := ⟨.empty, ∅, [], fun _ => []⟩

def onResolveAgent (overlay : List (Str × Str)) (w : McpHarness) (id : AgentId)
    (mcps : List McpServerConfig) : McpHarness :=
  let newNames := mcps.map (·.name)
  let prior := w.agentMcps[id]?.getD []
  { w with
    agentMcps := w.agentMcps.insert id newNames
    tasks := w.tasks ++ ((prior.filter fun name => name ∉ newNames).map (.unregister id.toStr) ++
      mcps.map fun cfg => .register id.toStr (effective overlay cfg))
    declared := fun i => if i = id then mcps else w.declared i }

def onForgetAgent (w : McpHarness) (id : AgentId) : McpHarness :=
  match w.agentMcps[id]? with
  | none => w
  | some names =>
    { w with
      agentMcps := w.agentMcps.erase id
      tasks := w.tasks ++ names.map (.unregister id.toStr)
      declared := fun i => if i = id then [] else w.declared i }

inductive Act
  | resolve (id : AgentId) (mcps : List McpServerConfig)
  | forget (id : AgentId)
  | run (i : Nat)

def perform (hash : Str × List Str × List (Str × Str) × Option Str × Option Str → Fingerprint)
    (overlay : List (Str × Str)) (w : McpHarness) :
    Act → Option McpHarness
  | .resolve id mcps => some (w.onResolveAgent overlay id mcps)
  | .forget id => some (w.onForgetAgent id)
  | .run i =>
    w.tasks[i]?.map fun t =>
      { w with handler := t.execute hash w.handler, tasks := w.tasks.eraseIdx i }

def Unambiguous (hash : Str × List Str × List (Str × Str) × Option Str × Option Str → Fingerprint)
    (overlay : List (Str × Str))
    (mcps : List McpServerConfig) : Prop :=
  ∀ c ∈ mcps, ∀ c' ∈ mcps, c.name = c'.name → fingerprint hash (effective overlay c) =
    fingerprint hash (effective overlay c')

/-- A resolved config is unambiguous, and the last task spawned for a server does not run before one
that would leave the server otherwise. -/
def Ordered (hash : Str × List Str × List (Str × Str) × Option Str × Option Str → Fingerprint)
    (overlay : List (Str × Str)) (w : McpHarness) :
    Act → Prop
  | .resolve _ mcps => Unambiguous hash overlay mcps
  | .forget _ => True
  | .run i => ∀ t, w.tasks[i]? = some t → (∀ u ∈ w.tasks.drop (i + 1), u.key ≠ t.key) →
      ∀ u ∈ w.tasks.take i, u.key = t.key → u.outcome hash = t.outcome hash

/-! ## What becomes of a server -/

variable {w w' : McpHarness} {a : Act} {key : OwnerKey} {id : AgentId} {name : Str}

def fate (hash : Str × List Str × List (Str × Str) × Option Str × Option Str → Fingerprint)
    (w : McpHarness) (key : OwnerKey) :
    Option Fingerprint :=
  match (w.tasks.filter fun t => t.key = key).getLast? with
  | some t => t.outcome hash
  | none => w.handler.byOwner[key]?

def desired (hash : Str × List Str × List (Str × Str) × Option Str × Option Str → Fingerprint)
    (overlay : List (Str × Str))
    (mcps : List McpServerConfig) (name : Str) : Option Fingerprint :=
  (mcps.find? fun c => c.name = name).map fun c => fingerprint hash (effective overlay c)

theorem execute_byOwner (h : McpHandler) (t : Task) (key : OwnerKey) :
    (t.execute hash h).byOwner[key]? = if t.key = key then t.outcome hash else h.byOwner[key]? := by
  cases t with
  | register agent cfg => exact McpHandler.registerForAgent_byOwner h _ _ key cfg
  | unregister agent name => exact McpHandler.unregisterForAgent_byOwner h _ key

theorem fate_spawn_other {ts : List Task} (h : ∀ t ∈ ts, t.key ≠ key) :
    fate hash { w with tasks := w.tasks ++ ts } key = fate hash w key := by
  have hnone : ts.filter (fun t => t.key = key) = [] := by
    rw [List.filter_eq_nil_iff]
    intro t ht hk
    exact h t ht (of_decide_eq_true hk)
  unfold fate
  rw [List.filter_append, hnone, List.append_nil]

/-- Where tasks of the server are spawned that all come to the same, that is what becomes of it. -/
theorem fate_spawn {ts : List Task} {o : Option Fingerprint} (hex : ∃ t ∈ ts, t.key = key)
    (h : ∀ t ∈ ts, t.key = key → t.outcome hash = o) :
    fate hash { w with tasks := w.tasks ++ ts } key = o := by
  unfold fate
  rw [List.filter_append, List.getLast?_append]
  cases hlast : (ts.filter fun t => t.key = key).getLast? with
  | none =>
    obtain ⟨t, ht, hk⟩ := hex
    have hmem : t ∈ ts.filter fun t => t.key = key := List.mem_filter.mpr ⟨ht, decide_eq_true hk⟩
    rw [List.getLast?_eq_none_iff.mp hlast] at hmem
    cases hmem
  | some t =>
    obtain ⟨ht, hk⟩ := List.mem_filter.mp (List.mem_of_getLast? hlast)
    exact h t ht (of_decide_eq_true hk)

/-- A task that runs in order leaves the fate of every server as it was. -/
theorem fate_run {i : Nat} {t : Task} (ht : w.tasks[i]? = some t)
    (ho : Ordered hash overlay w (.run i)) (key : OwnerKey) :
    fate hash { w with handler := t.execute hash w.handler, tasks := w.tasks.eraseIdx i } key =
    fate hash w key := by
  have hsplit : w.tasks = w.tasks.take i ++ t :: w.tasks.drop (i + 1) := by
    rw [← (List.getElem?_eq_some_iff.mp ht).2, List.cons_getElem_drop_succ, List.take_append_drop]
  have hbefore : (w.tasks.filter fun t => t.key = key) =
      (w.tasks.take i).filter (fun t => t.key = key) ++ (t :: w.tasks.drop (i + 1)).filter fun t =>
      t.key = key := by
    rw [← List.filter_append, ← hsplit]
  unfold fate
  dsimp only
  rw [execute_byOwner, hbefore, List.eraseIdx_eq_take_drop_succ, List.filter_append,
    List.getLast?_append, List.getLast?_append]
  by_cases hk : t.key = key
  · rw [List.filter_cons_of_pos (by simpa using hk)]
    cases hlater : ((w.tasks.drop (i + 1)).filter fun t => t.key = key).getLast? with
    | some u =>
      rw [List.getLast?_cons, hlater]
      rfl
    | none =>
      rw [List.getLast?_eq_none_iff.mp hlater]
      have hyoungest : ∀ u ∈ w.tasks.drop (i + 1), u.key ≠ t.key := by
        intro u hu hku
        have hmem : u ∈ (w.tasks.drop (i + 1)).filter fun t => t.key = key :=
          List.mem_filter.mpr ⟨hu, decide_eq_true (hku.trans hk)⟩
        rw [List.getLast?_eq_none_iff.mp hlater] at hmem
        cases hmem
      cases holder : ((w.tasks.take i).filter fun t => t.key = key).getLast? with
      | none => simp [hk]
      | some u =>
        obtain ⟨hu, hku⟩ := List.mem_filter.mp (List.mem_of_getLast? holder)
        simpa using ho t ht hyoungest u hu ((of_decide_eq_true hku).trans hk.symm)
  · rw [List.filter_cons_of_neg (by simpa using hk), if_neg hk]

/-! ## Declarations and their fate -/

/-- Every server of every agent is on its way to what the agent declared last. -/
structure Settling (hash : Str × List Str × List (Str × Str) × Option Str × Option Str →
    Fingerprint) (overlay : List (Str × Str))
    (w : McpHarness) : Prop where
  clear : ∀ id, Unambiguous hash overlay (w.declared id)
  names : ∀ id : AgentId, w.agentMcps[id]?.getD [] = (w.declared id).map (·.name)
  fated : ∀ (id : AgentId) (name : Str), fate hash w (id.toStr, name) =
    desired hash overlay (w.declared id) name

theorem desired_none {mcps : List McpServerConfig} (h : name ∉ mcps.map (·.name)) :
    desired hash overlay mcps name = none := by
  unfold desired
  rw [Option.map_eq_none_iff, List.find?_eq_none]
  intro c hc hn
  exact h (List.mem_map.mpr ⟨c, hc, of_decide_eq_true hn⟩)

theorem desired_some {mcps : List McpServerConfig} {c : McpServerConfig} (hc : c ∈ mcps)
    (h : Unambiguous hash overlay mcps) :
    desired hash overlay mcps c.name = some (fingerprint hash (effective overlay c)) := by
  unfold desired
  cases hf : mcps.find? fun d => d.name = c.name with
  | none => exact absurd (decide_eq_true rfl) (List.find?_eq_none.mp hf c hc)
  | some d => exact congrArg some (h d (List.mem_of_find?_eq_some hf) c hc
      (by simpa using List.find?_some hf))

theorem key_ne {i : AgentId} {n : Str} (h : i ≠ id) (t : Task) (ht : t.key.1 = id.toStr) :
    t.key ≠ (i.toStr, n) := by
  intro hk
  rw [hk] at ht
  exact h (AgentId.toStr_inj ht)

theorem Settling.resolve (h : w.Settling hash overlay) {mcps : List McpServerConfig}
    (ho : Ordered hash overlay w (.resolve id mcps)) :
    (w.onResolveAgent overlay id mcps).Settling hash overlay := by
  refine ⟨fun i => ?_, fun i => ?_, fun i n => ?_⟩
  · show Unambiguous hash overlay (if i = id then mcps else w.declared i)
    split
    · exact ho
    · exact h.clear i
  · show ((w.agentMcps.insert id _)[i]?).getD [] =
        (if i = id then mcps else w.declared i).map (·.name)
    rw [find_insert]
    by_cases hi : i = id
    · simp [hi]
    · rw [if_neg (Ne.symm hi), if_neg hi]
      exact h.names i
  · show fate hash { w with tasks := w.tasks ++ _ } (i.toStr, n) =
        desired hash overlay (if i = id then mcps else w.declared i) n
    by_cases hi : i = id
    · subst hi
      rw [if_pos rfl]
      -- what the tasks leave behind is decided by the last one for the name
      by_cases hn : n ∈ mcps.map (·.name)
      · obtain ⟨c, hc, rfl⟩ := List.mem_map.mp hn
        rw [desired_some hc ho]
        apply fate_spawn
        · exact ⟨.register i.toStr (effective overlay c),
            List.mem_append_right _ (List.mem_map.mpr ⟨c, hc, rfl⟩), rfl⟩
        · intro t ht hk
          rcases List.mem_append.mp ht with ht | ht
          · obtain ⟨m, hm, rfl⟩ := List.mem_map.mp ht
            have hname : m = c.name := congrArg Prod.snd hk
            exact absurd hn (hname ▸ of_decide_eq_true (List.mem_filter.mp hm).2)
          · obtain ⟨d, hd, rfl⟩ := List.mem_map.mp ht
            exact congrArg some (ho d hd c hc (congrArg Prod.snd hk))
      · rw [desired_none hn]
        have hregister : ∀ t ∈ mcps.map (fun cfg => Task.register i.toStr (effective overlay cfg)),
            t.key ≠ (i.toStr, n) := by
          intro t ht hk
          obtain ⟨d, hd, rfl⟩ := List.mem_map.mp ht
          exact hn (List.mem_map.mpr ⟨d, hd, congrArg Prod.snd hk⟩)
        -- a name that is not declared any more is unregistered, if it was declared before
        by_cases hprior : n ∈ w.agentMcps[i]?.getD []
        · apply fate_spawn
          · exact ⟨.unregister i.toStr n,
              List.mem_append_left _ (List.mem_map.mpr
              ⟨n, List.mem_filter.mpr ⟨hprior, by simpa using hn⟩, rfl⟩), rfl⟩
          · intro t ht hk
            rcases List.mem_append.mp ht with ht | ht
            · obtain ⟨m, hm, rfl⟩ := List.mem_map.mp ht
              rfl
            · exact absurd hk (hregister t ht)
        · rw [fate_spawn_other, h.fated, desired_none (by rwa [h.names] at hprior)]
          intro t ht hk
          rcases List.mem_append.mp ht with ht | ht
          · obtain ⟨m, hm, rfl⟩ := List.mem_map.mp ht
            have hname : m = n := congrArg Prod.snd hk
            exact hprior (hname ▸ (List.mem_filter.mp hm).1)
          · exact hregister t ht hk
    · rw [if_neg hi, fate_spawn_other, h.fated]
      intro t ht
      apply key_ne hi
      rcases List.mem_append.mp ht with ht | ht
      · obtain ⟨m, hm, rfl⟩ := List.mem_map.mp ht
        rfl
      · obtain ⟨d, hd, rfl⟩ := List.mem_map.mp ht
        rfl

theorem Settling.forget (h : w.Settling hash overlay) (id : AgentId) :
    (w.onForgetAgent id).Settling hash overlay := by
  unfold onForgetAgent
  cases hnames : w.agentMcps[id]? with
  | none => exact h
  | some names =>
    have hdeclared : names = (w.declared id).map (·.name) := by
      rw [← h.names id, hnames]
      rfl
    refine ⟨fun i => ?_, fun i => ?_, fun i n => ?_⟩
    · show Unambiguous hash overlay (if i = id then [] else w.declared i)
      split
      · intro c hc
        cases hc
      · exact h.clear i
    · show ((w.agentMcps.erase id)[i]?).getD [] = (if i = id then [] else w.declared i).map (·.name)
      rw [find_erase]
      by_cases hi : i = id
      · simp [hi]
      · rw [if_neg (Ne.symm hi), if_neg hi]
        exact h.names i
    · show fate hash { w with tasks := w.tasks ++ _ } (i.toStr, n) =
          desired hash overlay (if i = id then [] else w.declared i) n
      by_cases hi : i = id
      · subst hi
        rw [if_pos rfl]
        by_cases hn : n ∈ names
        · apply fate_spawn
          · exact ⟨.unregister i.toStr n, List.mem_map.mpr ⟨n, hn, rfl⟩, rfl⟩
          · intro t ht hk
            obtain ⟨m, hm, rfl⟩ := List.mem_map.mp ht
            rfl
        · rw [fate_spawn_other, h.fated, desired_none (hdeclared ▸ hn)]
          · rfl
          · intro t ht hk
            obtain ⟨m, hm, rfl⟩ := List.mem_map.mp ht
            have hname : m = n := congrArg Prod.snd hk
            exact hn (hname ▸ hm)
      · rw [if_neg hi, fate_spawn_other, h.fated]
        intro t ht
        apply key_ne hi
        obtain ⟨m, hm, rfl⟩ := List.mem_map.mp ht
        rfl

theorem Settling.perform (h : w.Settling hash overlay) (hp : w.perform hash overlay a = some w')
    (ho : Ordered hash overlay w a) :
    w'.Settling hash overlay := by
  cases a with
  | resolve id mcps =>
    cases hp
    exact h.resolve ho
  | forget id =>
    cases hp
    exact h.forget id
  | run i =>
    obtain ⟨t, ht, rfl⟩ := Option.map_eq_some_iff.mp hp
    refine ⟨h.clear, h.names, fun id name => ?_⟩
    rw [fate_run ht ho]
    exact h.fated id name

/-- When the tasks are done, an agent has the registrations it declared last and no others. -/
theorem registered_as_declared
    (hr : Reachable (· = empty) (fun w a w' => w.perform hash overlay a = some w' ∧
      Ordered hash overlay w a) w) (hdone : w.tasks = [])
    (id : AgentId) (name : Str) (fp : Fingerprint) :
    w.handler.byOwner[((id.toStr, name) : OwnerKey)]? = some fp ↔
      ∃ c ∈ w.declared id, c.name = name ∧ fingerprint hash (effective overlay c) = fp := by
  have hsettling : w.Settling hash overlay := by
    refine hr.invariant (fun w hw => ?_) fun w a w' hi hs => hi.perform hs.1 hs.2
    rw [hw]
    refine ⟨fun id c hc => (by cases hc), fun id => ?_, fun id name => ?_⟩
    · simp [empty]
    · simp [empty, fate, desired, McpHandler.empty]
  have hfate := hsettling.fated id name
  have hnow : fate hash w (id.toStr, name) = w.handler.byOwner[((id.toStr, name) : OwnerKey)]? := by
    unfold fate
    rw [hdone]
    rfl
  rw [← hnow, hfate]
  constructor
  · intro hd
    obtain ⟨c, hc, hfp⟩ := Option.map_eq_some_iff.mp hd
    exact ⟨c, List.mem_of_find?_eq_some hc, by simpa using List.find?_some hc, hfp⟩
  · rintro ⟨c, hc, hname, hfp⟩
    rw [← hname, desired_some hc (hsettling.clear id), hfp]

/-! ## Two orders -/

theorem ordered_oldest (w : McpHarness) : Ordered hash overlay w (.run 0) := by
  intro t ht hlater u hu
  cases hu

def byCommand (c : Str × List Str × List (Str × Str) × Option Str × Option Str) : Fingerprint :=
  UInt64.ofNat c.1.length

def server (name command : Str) : McpServerConfig := ⟨name, command, [], [], true, none, none⟩

/-- One server gives way to another, and the tasks run as they were spawned. -/
theorem registered_as_declared_instance : ∃ w : McpHarness, w.declared ⟨1⟩ =
    [server ['t'] ['x', 'y']] ∧
    (w.handler.byOwner[((AgentId.toStr ⟨1⟩, ['t']) : OwnerKey)]? = some 2 ↔
      ∃ c ∈ w.declared ⟨1⟩, c.name = ['t'] ∧ fingerprint byCommand (effective [] c) = 2) := by
  let acts : List Act := [.resolve ⟨1⟩ [server ['s'] ['x']], .resolve ⟨1⟩ [server ['t'] ['x', 'y']],
      .run 0, .run 0, .run 0]
  obtain ⟨w, hrun, hw⟩ := (Option.any_eq_true _ _).mp
      (by decide +kernel : (acts.foldlM (perform byCommand []) empty).any
    (fun w => w.tasks = [] ∧ w.declared ⟨1⟩ = [server ['t'] ['x', 'y']]) = true)
  obtain ⟨hdone, hdeclared⟩ := of_decide_eq_true hw
  have hone : ∀ c : McpServerConfig, Unambiguous byCommand [] [c] := by
    intro c d hd d' hd' _
    rw [List.mem_singleton.mp hd, List.mem_singleton.mp hd']
  have h₀ : Reachable (· = empty) (fun w a w' => w.perform byCommand [] a = some w' ∧
      Ordered byCommand [] w a) empty := .first rfl
  have hr : Reachable (· = empty) (fun w a w' => w.perform byCommand [] a = some w' ∧
      Ordered byCommand [] w a) w := by
    refine h₀.foldlM (fun w a w' ha hp => ⟨hp, ?_⟩) hrun
    simp only [acts, List.mem_cons, List.not_mem_nil, or_false] at ha
    rcases ha with rfl | rfl | rfl | rfl | rfl
    · exact hone _
    · exact hone _
    · exact ordered_oldest w
    · exact ordered_oldest w
    · exact ordered_oldest w
  exact ⟨w, hdeclared, registered_as_declared hr hdone ⟨1⟩ ['t'] 2⟩

/-- The agent is resolved and forgotten, and the registration is taken back before it is made. -/
theorem registered_when_forgotten :
    ∃ w : McpHarness, Reachable (· = empty) (fun w a w' => w.perform byCommand [] a = some w') w ∧
    w.tasks = [] ∧ w.declared ⟨1⟩ = [] ∧
    w.handler.byOwner[((AgentId.toStr ⟨1⟩, ['s']) : OwnerKey)]? = some 1 := by
  let acts : List Act := [.resolve ⟨1⟩ [server ['s'] ['x']], .forget ⟨1⟩, .run 1, .run 0]
  have h₀ : Reachable (· = empty) (fun w a w' => w.perform byCommand [] a = some w') empty := .first rfl
  exact h₀.exists_run (l := acts) (f := perform byCommand []) (fun _ _ _ hp => hp)
    (by decide +kernel)

end McpHarness

end Crabtalk.System

import Crabtalk.System.Berm
import Crabtalk.Store.Agents

/-! # The composite harness, and the daemon around it

Each member answers for its own tools. The registry indexes them by name when
it is built, and asks every member again for each agent that is resolved.
-/

open Basis Std

namespace Crabtalk.System

open Store

structure ToolDispatch where
  args : Str
  agent : AgentId
  sender : Str
  sessionId : Option Nat
  callId : Str
  root : Option Str

structure Harness (σ : Type) where
  schema : σ → List Tool := fun _ => []
  usage : σ → Option Str := fun _ => none
  onResolveAgent : AgentId → AgentConfig → σ → σ := fun _ _ s => s
  onForgetAgent : AgentId → σ → σ := fun _ s => s
  scopedTools : σ → AgentConfig → List Str × Option Str := fun s _ =>
    ((schema s).map (·.name), none)
  dispatch : Str → ToolDispatch → σ → Option (Except Str Str) × σ := fun _ _ s => (none, s)

structure Peers where
  mcp : Str → Str → List Str → Except Str Str
  memory : Str → ToolDispatch → Except Str Str
  call : Manifest → Str → Str → Except Str Str

structure World (ε η : Type) where
  machine : Machine ε
  peers : Peers
  scopes : ExtTreeMap AgentId (List Str)
  berm : Registry
  agentMcps : ExtTreeMap AgentId (List Str)
  hooks : η

variable {ε η : Type}

/-! ## The members -/

def bermHarness : Harness (World ε η) where
  schema w := catalogue w.berm
  onResolveAgent id config w := { w with berm := load w.machine w.berm id config }
  onForgetAgent id w := { w with berm := forget w.berm id }
  scopedTools w config := (names w.berm config.id, none)
  dispatch name call w :=
    let (found, berm) := owner w.machine w.berm call.agent call.root name
    (found.map fun harness => w.peers.call harness name call.args, { w with berm })

def mcpTool : Tool := ⟨"mcp".toList,
    some "Call an MCP tool by name, or list available tools if no exact match.".toList⟩

def mcpHarness : Harness (World ε η) where
  schema _ := [mcpTool]
  scopedTools _ config :=
    if config.mcps = [] then ([], none)
    else
      ([mcpTool.name], some ("mcp servers: ".toList ++ List.intercalate ", ".toList
        (config.mcps.map (·.name))))
  onResolveAgent id config w :=
    { w with agentMcps := w.agentMcps.insert id (config.mcps.map (·.name)) }
  onForgetAgent id w := { w with agentMcps := w.agentMcps.erase id }
  dispatch name call w :=
    if name ≠ mcpTool.name then (none, w)
    else (some (w.peers.mcp call.agent.toStr call.args (w.agentMcps[call.agent]?.getD [])), w)

def memoryTools : List Tool :=
  [⟨"recall".toList, some "Search your memory entries by keyword. Returns ranked results.".toList⟩,
    ⟨"remember".toList,
      some "Save or update a memory entry. Aliases are searchable alternative terms.".toList⟩,
    ⟨"forget".toList, some "Delete a memory entry by name.".toList⟩]

def memoryUsage : Str :=
  "Call `recall` before assuming context is missing. Use `remember` for durable facts, `forget` to remove ones no longer true — skip transient or one-off details.".toList

def memoryHarness : Harness (World ε η) where
  schema _ := memoryTools
  usage _ := some ("\n\n".toList ++ memoryUsage)
  dispatch name call w :=
    if name ∈ memoryTools.map (·.name) then (some (w.peers.memory name call), w) else (none, w)

def Harness.lift (h : Harness η) : Harness (World ε η) where
  schema w := h.schema w.hooks
  usage w := h.usage w.hooks
  onResolveAgent id config w := { w with hooks := h.onResolveAgent id config w.hooks }
  onForgetAgent id w := { w with hooks := h.onForgetAgent id w.hooks }
  scopedTools w config := h.scopedTools w.hooks config
  dispatch name call w := ((h.dispatch name call w.hooks).1,
    { w with hooks := (h.dispatch name call w.hooks).2 })

inductive Member
  | berm
  | mcp
  | memory
  | hook (i : Nat)
  deriving DecidableEq

structure HarnessRegistry (η : Type) where
  berm : Bool
  hooks : List (Harness η)
  dispatchMap : ExtTreeMap Str Member

namespace HarnessRegistry

def get (r : HarnessRegistry η) : Member → Harness (World ε η)
  | .berm => bermHarness
  | .mcp => mcpHarness
  | .memory => memoryHarness
  | .hook i => ((r.hooks[i]?).map Harness.lift).getD {}

theorem get_hook (r : HarnessRegistry η) (i : Nat) :
    (r.get (.hook i) : Harness (World ε η)) = ((r.hooks[i]?).map Harness.lift).getD {} := rfl

/-- The builtins first, then the consumer's in the order they were registered. -/
def members (r : HarnessRegistry η) : List Member :=
  (if r.berm then [.berm] else []) ++ [.mcp, .memory] ++ (List.range r.hooks.length).map .hook

/-! ## Building it -/

def index (r : HarnessRegistry η) (member : Member) (names : List Str) :
    Except Str (HarnessRegistry η) :=
  match names.find? fun name => r.dispatchMap[name]?.isSome with
  | some name => .error ("duplicate tool: ".toList ++ name)
  | none =>
    .ok { r with dispatchMap := names.foldl (fun map name => map.insert name member) r.dispatchMap }

def indexAll (w : World ε η) : List Member → HarnessRegistry η → Except Str (HarnessRegistry η)
  | [], r => .ok r
  | member :: rest, r => do
    let r ← r.index member ((r.get member).schema w |>.map (·.name))
    indexAll w rest r

def new (berm : Bool) (w : World ε η) : Except Str (HarnessRegistry η) :=
  let r : HarnessRegistry η := ⟨berm, [], ∅⟩
  indexAll w r.members r

def register (w : World ε η) (r : HarnessRegistry η) (harness : Harness η) :
    Except Str (HarnessRegistry η) := do
  let r ← r.index (.hook r.hooks.length) ((harness.schema w.hooks).map (·.name))
  return { r with hooks := r.hooks ++ [harness] }

def registerAll (w : World ε η) : List (Harness η) → HarnessRegistry η →
    Except Str (HarnessRegistry η)
  | [], r => .ok r
  | harness :: rest, r => do
    let r ← register w r harness
    registerAll w rest r

/-! ## As one harness -/

variable (r : HarnessRegistry η)

def schema (w : World ε η) : List Tool := r.members.flatMap fun m => (r.get m).schema w

def usage (w : World ε η) : Option Str :=
  let usage := r.members.flatMap fun m => ((r.get m).usage w).getD []
  if usage = [] then none else some usage

def applyScope (w : World ε η) (config : AgentConfig) : AgentConfig :=
  if config.skills = [] ∧ config.mcps = [] then config
  else
    let answers := r.members.map fun m => (r.get m).scopedTools w config
    let lines := answers.filterMap (·.2)
    { config with
      description :=
        if lines = [] then config.description
        else config.description ++ "\n\n<scope>\n".toList ++ List.intercalate "\n".toList lines ++
          "\n</scope>".toList
      tools := answers.flatMap (·.1) }

def withUsage (w : World ε η) (config : AgentConfig) : AgentConfig :=
  { config with description := config.description ++ (r.usage w).getD [] }

def onBuildAgent (w : World ε η) (config : AgentConfig) : AgentConfig :=
  r.applyScope w (r.withUsage w config)

def onResolveAgent (id : AgentId) (config : AgentConfig) (w : World ε η) : World ε η :=
  r.members.foldl (fun w m => (r.get m).onResolveAgent id config w)
    { w with scopes := w.scopes.insert id config.tools }

def onForgetAgent (id : AgentId) (w : World ε η) : World ε η :=
  r.members.foldl (fun w m => (r.get m).onForgetAgent id w) { w with scopes := w.scopes.erase id }

def outOfScope (name : Str) (call : ToolDispatch) (w : World ε η) : Bool :=
  match w.scopes[call.agent]? with
  | some tools => tools ≠ [] ∧ name ∉ tools
  | none => false

def dispatch (name : Str) (call : ToolDispatch) (w : World ε η) :
    Option (Except Str Str) × World ε η :=
  if outOfScope name call w then (some (.error ("tool not available: ".toList ++ name)), w)
  else
    match r.dispatchMap[name]? with
    | some m => (r.get m).dispatch name call w
    | none => (none, w)

end HarnessRegistry

/-! ## The daemon -/

abbrev ToolRegistry := ExtTreeMap Str Tool

def ToolRegistry.insertAll (tools : ToolRegistry) (schema : List Tool) : ToolRegistry :=
  schema.foldl (fun tools t => tools.insert t.name t) tools

def ToolRegistry.filteredSnapshot (tools : ToolRegistry) (names : List Str) : List Tool :=
  if names = [] then tools.toList.map (·.2)
    else (tools.toList.filter fun e => e.1 ∈ names).map (·.2)

/-- An agent as it runs: the config it was resolved from, the one built from it, and the tools it
advertises. -/
structure Agent where
  declared : AgentConfig
  config : AgentConfig
  tools : List Tool

structure Daemon (ε η μ : Type) where
  registry : HarnessRegistry η
  tools : ToolRegistry
  world : World ε η
  store : Kv μ

variable {μ : Type}

namespace Daemon

def build (berm : Bool) (harnesses : List (Harness η)) (machine : Machine ε) (peers : Peers)
    (hooks : η) (store : Kv μ) :
    Except Str (Daemon ε η μ) := do
  let world : World ε η := ⟨machine, peers, ∅, .empty, ∅, hooks⟩
  let registry ← HarnessRegistry.new berm world
  let registry ← HarnessRegistry.registerAll world harnesses registry
  return ⟨registry, ToolRegistry.insertAll ∅ (registry.schema world), world, store⟩

variable (d : Daemon ε η μ)

def agent (id : AgentId) : Option AgentConfig :=
  match answer (loadAgent id) d.store with
  | .ok config => config
  | .error _ => none

def buildAgent (config : AgentConfig) : Agent :=
  let built := d.registry.onBuildAgent d.world config
  ⟨config, built, d.tools.filteredSnapshot built.tools⟩

def resolveAgent (id : AgentId) : Option Agent × Daemon ε η μ :=
  match d.agent id with
  | none => (none, d)
  | some config =>
    let d := { d with world := d.registry.onResolveAgent id config d.world }
    (some (d.buildAgent config), d)

def forgetAgent (id : AgentId) : Daemon ε η μ :=
  { d with world := d.registry.onForgetAgent id d.world }

def dispatch (name : Str) (call : ToolDispatch) : Except Str Str × Daemon ε η μ :=
  let (answer, world) := d.registry.dispatch name call d.world
  (answer.getD (.error ("tool not registered: ".toList ++ name)), { d with world })

end Daemon

end Crabtalk.System

import Crabtalk.System.Images

/-! # Loading an agent again

Every run loads its agent, which drops what the agent resolved to under any
root. An owner lookup resolves again when it finds nothing; the lookup by name
that a nested call makes does not.
-/

open Basis Std

namespace Crabtalk.System

open Store

variable {ε : Type}

/-! ## Nested calls -/

namespace Registry

def named (r : Registry) (agent : AgentId) (root : Option Str) (name : Str) : Option Manifest :=
  ((r.resolved agent root).find? fun e => e.1 = name).bind fun e => r.images[e.2]?

inductive Refused
  | undeclared (harness : Str)
  | noTool (harness tool : Str)
  deriving DecidableEq

def target (r : Registry) (agent : AgentId) (session : Option Str) (name tool : Str) :
    Except Refused Manifest :=
  match r.named agent session name with
  | none => .error (.undeclared name)
  | some found =>
    if found.tools.any fun t => t.name = tool then .ok found else .error (.noTool name tool)

end Registry

/-! ## What a declaration comes to -/

section
variable (machine : Machine ε)

def Machine.Determined : Prop :=
  ∀ e e' declaration declaration' root root' session session' scope scope',
    machine.digest e declaration root session scope =
    machine.digest e' declaration' root' session' scope' →
      machine.load e declaration root session scope =
      machine.load e' declaration' root' session' scope'

def sandbox (agent : AgentId) (declaration : HarnessConfig) (skills : List Str)
    (session : Option Str) : Except Str (Digest × Manifest) := do
  let elf ← machine.elf declaration.name
  let scope : Scope := ⟨skills, agent⟩
  let root ← bind machine declaration.root session
  let manifest ← machine.load elf declaration root session scope
  return (machine.digest elf declaration root session scope, manifest)

def sandboxes (agent : AgentId) (skills : List Str) (session : Option Str) : List HarnessConfig →
    List (Str × Digest × Manifest)
  | [] => []
  | declaration :: rest =>
    match sandbox machine agent declaration skills session with
    | .ok built => (declaration.name, built) :: sandboxes agent skills session rest
    | .error _ => sandboxes agent skills session rest

/-- Every image is what each sandbox of its digest loads to. -/
def Genuine (images : ExtTreeMap Digest Manifest) : Prop :=
  ∀ (d : Digest) (m : Manifest), images[d]? = some m → ∀ e declaration root session scope,
    machine.digest e declaration root session scope = d →
    machine.load e declaration root session scope = .ok m

variable {machine} {r : Registry}

theorem Genuine.image (agent : AgentId) (skills : List Str) (session : Option Str)
    (hm : machine.Determined) (h : Genuine machine r.images) (declaration : HarnessConfig) :
    match sandbox machine agent declaration skills session with
    | .error _ => ∃ e, image machine r agent declaration skills session = .error e
    | .ok built => ∃ r', image machine r agent declaration skills session = .ok (built.1,
        r') ∧ Genuine machine r'.images ∧
        r'.images[built.1]? = some built.2 := by
  unfold sandbox System.image
  cases helf : machine.elf declaration.name with
  | error e => exact ⟨e, rfl⟩
  | ok elf =>
    cases hroot : bind machine declaration.root session with
    | error e => exact ⟨e, rfl⟩
    | ok root =>
      simp only [Bind.bind, Except.bind, Pure.pure, Except.pure]
      cases hd : r.images[machine.digest elf declaration root session ⟨skills, agent⟩]? with
      | some m =>
        rw [h _ m hd elf declaration root session ⟨skills, agent⟩ rfl]
        exact ⟨r, rfl, h, hd⟩
      | none =>
        cases hload : machine.load elf declaration root session ⟨skills, agent⟩ with
        | error e => exact ⟨e, rfl⟩
        | ok m =>
          refine ⟨_, rfl, fun d m' hd' e declaration' root' session' scope' he => ?_, by simp⟩
          rw [find_insert] at hd'
          by_cases hsame : machine.digest elf declaration root session ⟨skills, agent⟩ = d
          · rw [if_pos hsame] at hd'
            cases hd'
            rw [← hload]
            exact hm _ _ _ _ _ _ _ _ _ _ (he.trans hsame.symm)
          · rw [if_neg hsame] at hd'
            exact h d m' hd' e declaration' root' session' scope' he

theorem Genuine.imageAll (agent : AgentId) (skills : List Str) (session : Option Str)
    (hm : machine.Determined) (declarations : List HarnessConfig) :
    ∀ {r : Registry}, Genuine machine r.images →
    Genuine machine (imageAll machine agent skills session declarations r).2.images ∧
      (imageAll machine agent skills session declarations r).1 =
        (sandboxes machine agent skills session declarations).map (fun s => (s.1, s.2.1)) ∧
      ∀ s ∈ sandboxes machine agent skills session declarations,
        (imageAll machine agent skills session declarations r).2.images[s.2.1]? = some s.2.2 := by
  induction declarations with
  | nil =>
    intro r h
    exact ⟨h, rfl, fun s hs => by cases hs⟩
  | cons declaration rest ih =>
    intro r h
    have himage := h.image agent skills session hm declaration
    unfold System.imageAll sandboxes
    cases hs : sandbox machine agent declaration skills session with
    | error e =>
      rw [hs] at himage
      obtain ⟨e', he⟩ := himage
      rw [he]
      exact ih h
    | ok built =>
      rw [hs] at himage
      obtain ⟨r', he, hr', hbuilt⟩ := himage
      rw [he]
      obtain ⟨hrest, hdigests, hfiled⟩ := ih hr'
      refine ⟨hrest, ?_, fun s hmem => ?_⟩
      · simp only [List.map_cons]
        rw [← hdigests]
      · rcases List.mem_cons.mp hmem with rfl | hmem
        · exact (Registry.extends_imageAll machine agent skills session rest r').kept _ _ hbuilt
        · exact hfiled s hmem

section
variable {agent : AgentId} {skills : List Str} {session : Option Str}

theorem image_declared {declaration : HarnessConfig} {r' : Registry} {d : Digest}
    (h : image machine r agent declaration skills session = .ok (d, r')) : r'.declared =
    r.declared := by
  unfold System.image at h
  simp only [Bind.bind, Except.bind, Pure.pure, Except.pure] at h
  split at h
  · cases h
  · split at h
    · cases h
    · split at h
      · cases h
        rfl
      · split at h
        · cases h
        · cases h
          rfl

theorem imageAll_declared (declarations : List HarnessConfig) : ∀ {r : Registry},
    (imageAll machine agent skills session declarations r).2.declared = r.declared := by
  induction declarations with
  | nil =>
    intro r
    rfl
  | cons declaration rest ih =>
    intro r
    unfold System.imageAll
    cases hi : image machine r agent declaration skills session with
    | error e => exact ih
    | ok found => exact ih.trans (image_declared hi)

end

end

/-! ## Entries are what was declared -/

namespace Registry

variable (machine : Machine ε)

def built (agent : AgentId) (declared : Declared) (root : Option Str) :
    List (Str × Digest × Manifest) :=
  sandboxes machine agent declared.skills root declared.harnesses

/-- Each entry is what its agent's declarations come to under its root, and has its images. -/
structure Settled (r : Registry) : Prop where
  images : Genuine machine r.images
  entries : ∀ (agent : AgentId) (root : Option Str) (ds : Resolved),
    r.agents[(⟨agent, root⟩ : Resolution)]? = some ds →
    ∃ declared, r.declared[agent]? = some declared ∧
    ds = (built machine agent declared root).map (fun s => (s.1, s.2.1)) ∧
      ∀ s ∈ built machine agent declared root, r.images[s.2.1]? = some s.2.2

variable {machine} {r : Registry}

theorem resolve_declared (agent : AgentId) (root : Option Str) :
    (System.resolve machine r agent root).declared = r.declared := by
  unfold System.resolve
  split
  · rfl
  · split
    · rfl
    · exact imageAll_declared _

theorem Settled.resolve (hm : machine.Determined) (h : r.Settled machine) (agent : AgentId)
    (root : Option Str) :
    (System.resolve machine r agent root).Settled machine := by
  unfold System.resolve
  split
  · exact h
  · split
    · exact h
    · rename_i declared hd
      obtain ⟨himages, hdigests, hfiled⟩ :=
        h.images.imageAll agent declared.skills root hm declared.harnesses
      have hextends := extends_imageAll machine agent declared.skills root declared.harnesses r
      refine ⟨himages, fun agent' root' ds hds => ?_⟩
      dsimp only at hds ⊢
      rw [imageAll_declared]
      rw [find_insert, hextends.agents] at hds
      by_cases heq : (⟨agent, root⟩ : Resolution) = ⟨agent', root'⟩
      · rw [if_pos heq] at hds
        cases heq
        cases hds
        exact ⟨declared, hd, hdigests, hfiled⟩
      · rw [if_neg heq] at hds
        obtain ⟨declared', hd', hds', hfiled'⟩ := h.entries agent' root' ds hds
        exact ⟨declared', hd', hds', fun s hs => hextends.kept _ _ (hfiled' s hs)⟩

theorem Settled.sweep (h : r.Settled machine) : r.sweep.Settled machine := by
  refine ⟨fun d m hd => h.images d m ((sweep_images r d m).mp hd).1, fun agent root ds hds => ?_⟩
  obtain ⟨declared, hd, hds', hfiled⟩ := h.entries agent root ds hds
  refine ⟨declared, hd, hds', fun s hs => (sweep_images r _ _).mpr ⟨hfiled s hs, ⟨agent, root⟩, ds,
    hds, (s.1, s.2.1), ?_, rfl⟩⟩
  rw [hds']
  exact List.mem_map_of_mem (f := fun s : Str × Digest × Manifest => (s.1, s.2.1)) hs

theorem Settled.clear (h : r.Settled machine) (agent : AgentId)
    (declared : ExtTreeMap AgentId Declared)
    (hdeclared : ∀ agent', agent' ≠ agent → declared[agent']? = r.declared[agent']?) :
    ({ r.clear agent with declared } : Registry).Settled machine := by
  refine ⟨h.images, fun agent' root ds hds => ?_⟩
  have hds' : (r.clear agent).agents[(⟨agent', root⟩ : Resolution)]? = some ds := hds
  rw [clear_agents] at hds'
  by_cases heq : agent' = agent
  · rw [if_pos heq] at hds'
    cases hds'
  · rw [if_neg heq] at hds'
    dsimp only
    rw [hdeclared agent' heq]
    exact h.entries agent' root ds hds'

theorem Settled.declare (h : r.Settled machine) (agent : AgentId) (config : AgentConfig) :
    (System.declare r agent config).Settled machine := by
  refine h.clear agent _ fun agent' hne => ?_
  rw [find_insert, if_neg (Ne.symm hne)]

theorem Settled.perform (hm : machine.Determined) (h : r.Settled machine) (op : Op) :
    (op.perform machine r).Settled machine := by
  cases op with
  | load agent config => exact ((h.declare agent config).resolve hm agent none).sweep
  | resolve agent root => exact h.resolve hm agent root
  | owner agent root tool =>
    dsimp only [Op.perform]
    rcases owner_cases machine r agent root tool with hsame | hresolved
    · rw [hsame]
      exact h
    · rw [hresolved]
      exact h.resolve hm agent root
  | forget agent =>
    refine Settled.sweep (h.clear agent (r.declared.erase agent) fun agent' hne => ?_)
    rw [find_erase, if_neg (Ne.symm hne)]

/-! ## What the lookups answer -/

def HasEntry (r : Registry) (agent : AgentId) (root : Option Str) : Prop :=
  (r.agents[(⟨agent, root⟩ : Resolution)]?).isSome

instance (r : Registry) (agent : AgentId) (root : Option Str) : Decidable (r.HasEntry agent root) :=
  inferInstanceAs (Decidable (_ = true))

section
variable {agent : AgentId} {declared : Declared}

theorem Settled.entry (h : r.Settled machine) (hd : r.declared[agent]? = some declared)
    {root : Option Str} (he : r.HasEntry agent root) :
    r.resolved agent root = (built machine agent declared root).map (fun s => (s.1, s.2.1)) ∧
      ∀ s ∈ built machine agent declared root, r.images[s.2.1]? = some s.2.2 := by
  obtain ⟨ds, hds⟩ := Option.isSome_iff_exists.mp he
  obtain ⟨declared', hd', hds', hfiled⟩ := h.entries agent root ds hds
  rw [hd] at hd'
  cases hd'
  refine ⟨?_, hfiled⟩
  unfold resolved
  rw [hds, hds']
  rfl

theorem Settled.of_eq (h : r.Settled machine) (hd : r.declared[agent]? = some declared)
    {root : Option Str} (he : r.HasEntry agent root) :
    r.of agent root = (built machine agent declared root).map fun s => s.2.2 := by
  obtain ⟨hresolved, hfiled⟩ := h.entry hd he
  unfold of
  rw [hresolved, List.filterMap_map]
  exact (List.filterMap_congr hfiled).trans (congrFun List.filterMap_eq_map' _)

end

/-! ## Two runs, one with a load more -/

section
variable {agent : AgentId} {config : AgentConfig}

def run (machine : Machine ε) (r : Registry) (l : List Op) : Registry :=
  l.foldl (fun r op => op.perform machine r) r

/-- The operation leaves the agent what it is configured to be. -/
def Op.Keeps (agent : AgentId) (config : AgentConfig) : Op → Prop
  | .load a c => a = agent → c.harnesses = config.harnesses ∧ c.skills = config.skills
  | .forget a => a ≠ agent
  | _ => True

def Configured (r : Registry) (agent : AgentId) (config : AgentConfig) : Prop :=
  r.declared[agent]? = some ⟨config.harnesses, config.skills⟩

theorem Configured.perform (machine : Machine ε) (hc : r.Configured agent config) {op : Op}
    (hop : op.Keeps agent config) :
    (op.perform machine r).Configured agent config := by
  unfold Configured at hc ⊢
  cases op with
  | load a c =>
    show (System.resolve machine (System.declare r a c) a none).declared[agent]? = _
    rw [resolve_declared]
    unfold System.declare
    rw [find_insert]
    by_cases ha : a = agent
    · rw [if_pos ha, (hop ha).1, (hop ha).2]
    · rw [if_neg ha]
      exact hc
  | resolve a root =>
    dsimp only [Op.perform]
    rw [resolve_declared, hc]
  | owner a root tool =>
    dsimp only [Op.perform]
    rcases owner_cases machine r a root tool with hsame | hresolved
    · rw [hsame, hc]
    · rw [hresolved, resolve_declared, hc]
  | forget a =>
    show (r.declared.erase a)[agent]? = _
    rw [find_erase, if_neg hop]
    exact hc

theorem Settled.run (hm : machine.Determined) (l : List Op) : ∀ {r : Registry}, r.Settled machine →
    (run machine r l).Settled machine := by
  induction l with
  | nil =>
    intro r h
    exact h
  | cons op l ih =>
    intro r h
    exact ih (h.perform hm op)

theorem Configured.run (machine : Machine ε) {l : List Op} (hl : ∀ op ∈ l, op.Keeps agent config) :
    ∀ {r : Registry}, r.Configured agent config → (run machine r l).Configured agent config := by
  induction l with
  | nil =>
    intro r h
    exact h
  | cons op l ih =>
    intro r h
    exact ih (fun op hop => hl op (List.mem_cons_of_mem _ hop))
      (h.perform machine (hl op List.mem_cons_self))

end

/-! ## A run of the agent beside a call -/

def onePlugin : Machine Unit where
  elf _ := .ok ()
  home := none
  resolve _ path := .ok path
  digest _ _ _ session _ := if session.isSome then 1 else 0
  load _ _ _ _ _ := .ok ⟨[⟨['r'], none⟩]⟩

def plugged : AgentConfig := ⟨⟨1⟩, [], [], [], 16, [], [], [⟨['c'], some (.session ['/']), []⟩], []⟩

def called : Registry := run onePlugin empty [.load ⟨1⟩ plugged, .owner ⟨1⟩ (some ['/', 'p']) ['r']]

end Registry

end Crabtalk.System

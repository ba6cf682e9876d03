import Crabtalk.Store.Kv

/-! # Harness images, and who declared them

An image is compiled from an ELF, the declaration that bounds it and the
agent's scope, and filed under a digest of all three. Reading, hashing and
compiling happen on the machine, which may change between two calls.
-/

open Basis Std

namespace Crabtalk.System

open Store

instance : Ord AgentId := ⟨compareOn fun id => id.ulid.val⟩

instance : TransOrd AgentId :=
  inferInstanceAs (TransCmp (compareOn fun id : AgentId => id.ulid.val))

instance : LawfulEqOrd AgentId where
  compare_self {a} := (LawfulEqOrd.compare_eq_iff_eq (a := a.ulid.val)).mpr rfl
  eq_of_compare {a b} h := by
    have hn : a.ulid.val = b.ulid.val := LawfulEqOrd.compare_eq_iff_eq.mp h
    cases a
    cases b
    simp only [AgentId.mk.injEq]
    exact Fin.ext hn

structure Tool where
  name : Str
  description : Option Str
  deriving DecidableEq

structure Manifest where
  tools : List Tool
  deriving DecidableEq

structure Scope where
  skills : List Str
  agent : AgentId

abbrev Digest := Fin (2 ^ 256)

instance digestRange : NeZero (2 ^ 256) := ⟨by decide⟩

instance digestOrder : TransOrd (Fin (2 ^ 256)) := inferInstance

structure Machine (ε : Type) where
  elf : Str → Except Str ε
  home : Option Str
  resolve : Str → Str → Except Str Str
  digest : ε → HarnessConfig → Option Str → Option Str → Scope → Digest
  load : ε → HarnessConfig → Option Str → Option Str → Scope → Except Str Manifest

structure Resolution where
  agent : AgentId
  root : Option Str
  deriving DecidableEq

instance : Ord Resolution := ⟨compareLex (compareOn Resolution.agent) (compareOn Resolution.root)⟩

instance : TransOrd Resolution :=
  inferInstanceAs (TransCmp (compareLex (compareOn Resolution.agent) (compareOn Resolution.root)))

instance : LawfulEqOrd Resolution where
  compare_self {a} := by
    show compareLex (compareOn Resolution.agent) (compareOn Resolution.root) a a = .eq
    exact ReflCmp.compare_self
  eq_of_compare {a b} h := by
    obtain ⟨ha, hr⟩ := compareLex_eq_eq.mp h
    have ha : a.agent = b.agent := LawfulEqOrd.compare_eq_iff_eq.mp ha
    have hr : a.root = b.root := LawfulEqOrd.compare_eq_iff_eq.mp hr
    cases a
    cases b
    simp_all

abbrev Resolved := List (Str × Digest)

structure Declared where
  harnesses : List HarnessConfig
  skills : List Str

structure Registry where
  images : ExtTreeMap Digest Manifest
  declared : ExtTreeMap AgentId Declared
  agents : ExtTreeMap Resolution Resolved

namespace Registry

def empty : Registry := ⟨∅, ∅, ∅⟩

def sweep (r : Registry) : Registry :=
  { r with images := r.images.filter fun digest _ => r.agents.toList.any fun e => e.2.any fun d => d.2 = digest }

def resolved (r : Registry) (agent : AgentId) (root : Option Str) : Resolved :=
  r.agents[(⟨agent, root⟩ : Resolution)]?.getD []

def of (r : Registry) (agent : AgentId) (root : Option Str) : List Manifest :=
  (r.resolved agent root).filterMap fun d => r.images[d.2]?

def clear (r : Registry) (agent : AgentId) : Registry :=
  { r with agents := r.agents.filter fun key _ => key.agent ≠ agent }

end Registry

section
variable {ε : Type} (machine : Machine ε)

/-- The path a harness is bounded by: the session narrows inside what was declared. -/
def bind (declared : Option Root) (session : Option Str) : Except Str (Option Str) :=
  match declared with
  | none => .ok none
  | some (.fixed path) => .ok (some path)
  | some (.session path) => narrow path
  | some .home =>
    match machine.home with
    | some path => narrow path
    | none => .error "no home directory to bind a harness to".toList
where
  narrow (bound : Str) : Except Str (Option Str) :=
    match session with
    | none => .ok (some bound)
    | some session => (machine.resolve bound session).map some

/-- Read one image; one already filed under its digest is not compiled again. -/
def image (r : Registry) (agent : AgentId) (declaration : HarnessConfig) (skills : List Str)
    (session : Option Str) :
    Except Str (Digest × Registry) := do
  let elf ← machine.elf declaration.name
  let scope : Scope := ⟨skills, agent⟩
  let root ← bind machine declaration.root session
  let digest := machine.digest elf declaration root session scope
  if r.images[digest]?.isSome then return (digest, r)
  let manifest ← machine.load elf declaration root session scope
  return (digest, { r with images := r.images.insert digest manifest })

def imageAll (agent : AgentId) (skills : List Str) (session : Option Str) : List HarnessConfig →
    Registry → Resolved × Registry
  | [], r => ([], r)
  | declaration :: rest, r =>
    match image machine r agent declaration skills session with
    | .ok (digest, r) =>
      let (digests, r) := imageAll agent skills session rest r
      ((declaration.name, digest) :: digests, r)
    | .error _ => imageAll agent skills session rest r

/-- File the declarations of `agent` against `root`, unless they are filed already. -/
def resolve (r : Registry) (agent : AgentId) (root : Option Str) : Registry :=
  if r.agents[(⟨agent, root⟩ : Resolution)]?.isSome then r
  else
    match r.declared[agent]? with
    | none => r
    | some declared =>
      let (digests, r) := imageAll machine agent declared.skills root declared.harnesses r
      { r with agents := r.agents.insert ⟨agent, root⟩ digests }

def declare (r : Registry) (agent : AgentId) (config : AgentConfig) : Registry :=
  { r.clear agent with declared := r.declared.insert agent ⟨config.harnesses, config.skills⟩ }

def load (r : Registry) (agent : AgentId) (config : AgentConfig) : Registry :=
  (resolve machine (declare r agent config) agent none).sweep

def owner (r : Registry) (agent : AgentId) (root : Option Str) (tool : Str) :
    Option Manifest × Registry :=
  let find (r : Registry) := (r.of agent root).find? fun m => m.tools.any fun t => t.name = tool
  match find r with
  | some found => (some found, r)
  | none =>
    let r := resolve machine r agent root
    (find r, r)

def forget (r : Registry) (agent : AgentId) : Registry :=
  (({ r with declared := r.declared.erase agent } : Registry).clear agent).sweep

def names (r : Registry) (agent : AgentId) : List Str := (r.of agent none).flatMap fun m =>
    m.tools.map (·.name)

def catalogue (r : Registry) : List Tool := r.images.toList.flatMap fun e => e.2.tools

@[simp] theorem catalogue_empty : catalogue .empty = [] := rfl

/-! ## What a load leaves -/

/-- The sweep takes no image away from a resolution. -/
theorem of_sweep (r : Registry) (agent : AgentId) (root : Option Str) :
    r.sweep.of agent root = r.of agent root := by
  unfold Registry.of
  apply List.filterMap_congr
  intro d hd
  have hpointed : (r.agents.toList.any fun e => e.2.any fun d' => d'.2 = d.2) = true := by
    have hd : d ∈ r.resolved agent root := hd
    unfold Registry.resolved at hd
    rw [List.any_eq_true]
    cases ha : r.agents[(⟨agent, root⟩ : Resolution)]? with
    | none => simp [ha] at hd
    | some ds =>
      rw [ha, Option.getD_some] at hd
      refine ⟨(⟨agent, root⟩, ds), ExtTreeMap.mem_toList_iff_getElem?_eq_some.mpr ha, ?_⟩
      rw [List.any_eq_true]
      exact ⟨d, hd, by simp⟩
  show (r.images.filter _)[d.2]? = _
  rw [ExtTreeMap.getElem?_filter', hpointed]
  cases r.images[d.2]? <;> rfl

theorem declare_agents (r : Registry) (agent : AgentId) (config : AgentConfig) (root : Option Str) :
    (declare r agent config).agents[(⟨agent, root⟩ : Resolution)]? = none := by
  unfold declare Registry.clear
  simp only
  rw [ExtTreeMap.getElem?_filter']
  simp

theorem declare_declared (r : Registry) (agent : AgentId) (config : AgentConfig) :
    (declare r agent config).declared[agent]? = some ⟨config.harnesses, config.skills⟩ := by
  unfold declare
  rw [find_insert, if_pos rfl]

/-- After a load an agent has the images of its declarations that loaded, in their order. -/
theorem of_load (r : Registry) (agent : AgentId) (config : AgentConfig) {ds : Resolved}
    {r' : Registry}
    (hi : imageAll machine agent config.skills none config.harnesses (declare r agent config) = (ds, r')) :
    (load machine r agent config).of agent none = ds.filterMap fun d => r'.images[d.2]? := by
  unfold load
  rw [of_sweep]
  unfold resolve
  rw [declare_agents, declare_declared]
  simp only [Option.isSome_none, Bool.false_eq_true, if_false]
  rw [hi]
  unfold Registry.of Registry.resolved
  simp only
  rw [find_insert, if_pos rfl, Option.getD_some]

theorem of_load_nil {r : Registry} {agent : AgentId} {config : AgentConfig}
    (h : config.harnesses = []) :
    (load machine r agent config).of agent none = [] := by
  have hi : imageAll machine agent config.skills none config.harnesses (declare r agent config) =
      ([], declare r agent config) := by
    rw [h]
    rfl
  rw [of_load machine r agent config hi]
  rfl

end

end Crabtalk.System

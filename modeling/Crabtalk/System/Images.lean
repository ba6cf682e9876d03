import Crabtalk.Basis.Reachable
import Crabtalk.System.Berm

/-! # Which images the registry holds

Images are shared between agents and between session roots. The registry holds
those its resolutions name, whoever comes, calls a tool or goes.
-/

open Basis Std

namespace Crabtalk.System

open Store

namespace Registry

variable {r r' r'' : Registry}

/-! ## What a resolution names -/

def Names (r : Registry) (d : Digest) : Prop :=
  ∃ (key : Resolution) (ds : Resolved), r.agents[key]? = some ds ∧ ∃ e ∈ ds, e.2 = d

def Filed (r : Registry) : Prop := ∀ d, r.Names d → r.images[d]?.isSome

def Swept (r : Registry) : Prop := ∀ d, r.images[d]?.isSome → r.Names d

theorem sweep_images (r : Registry) (d : Digest) (m : Manifest) : r.sweep.images[d]? = some m ↔
    r.images[d]? = some m ∧ r.Names d := by
  unfold sweep
  simp only [ExtTreeMap.getElem?_filter', Option.filter_eq_some_iff, List.any_eq_true,
    decide_eq_true_eq]
  apply and_congr_right
  intro _
  constructor
  · intro ⟨⟨key, ds⟩, hkey, e, he, hd⟩
    exact ⟨key, ds, ExtTreeMap.mem_toList_iff_getElem?_eq_some.mp hkey, e, he, hd⟩
  · intro ⟨key, ds, hkey, e, he, hd⟩
    exact ⟨(key, ds), ExtTreeMap.mem_toList_iff_getElem?_eq_some.mpr hkey, e, he, hd⟩

theorem swept_sweep (r : Registry) : r.sweep.Swept := by
  intro d hd
  obtain ⟨m, hm⟩ := Option.isSome_iff_exists.mp hd
  exact ((sweep_images r d m).mp hm).2

theorem Filed.sweep (h : r.Filed) : r.sweep.Filed := by
  intro d hd
  obtain ⟨m, hm⟩ := Option.isSome_iff_exists.mp (h d hd)
  rw [(sweep_images r d m).mpr ⟨hm, hd⟩]
  rfl

theorem clear_agents (r : Registry) (agent : AgentId) (key : Resolution) :
    (r.clear agent).agents[key]? = if key.agent = agent then none else r.agents[key]? := by
  unfold clear
  rw [ExtTreeMap.getElem?_filter']
  by_cases h : key.agent = agent
  · simp [h]
  · cases r.agents[key]? <;> simp [h]

theorem Filed.clear (h : r.Filed) (agent : AgentId) : (r.clear agent).Filed := by
  intro d ⟨key, ds, hkey, hd⟩
  rw [clear_agents] at hkey
  split at hkey
  · cases hkey
  · exact h d ⟨key, ds, hkey, hd⟩

/-! ## Building images -/

/-- The images of `r` are there, and those for `ds`, and no others. The entries are the same. -/
structure Extends (r r' : Registry) (ds : List Digest) : Prop where
  agents : r'.agents = r.agents
  kept : ∀ (d : Digest) (m : Manifest), r.images[d]? = some m → r'.images[d]? = some m
  filed : ∀ d ∈ ds, r'.images[d]?.isSome
  only : ∀ d : Digest, r'.images[d]?.isSome → r.images[d]?.isSome ∨ d ∈ ds

theorem Extends.refl (r : Registry) : r.Extends r [] :=
  ⟨rfl, fun _ _ h => h, fun _ h => (by cases h), fun _ h => .inl h⟩

theorem Extends.trans {ds ds' : List Digest} (h : r.Extends r' ds) (h' : r'.Extends r'' ds') :
    r.Extends r'' (ds ++ ds') := by
  refine ⟨h'.agents.trans h.agents, fun d m hd => h'.kept d m (h.kept d m hd), fun d hd => ?_,
    fun d hd => ?_⟩
  · rcases List.mem_append.mp hd with hd | hd
    · obtain ⟨m, hm⟩ := Option.isSome_iff_exists.mp (h.filed d hd)
      rw [h'.kept d m hm]
      rfl
    · exact h'.filed d hd
  · rcases h'.only d hd with hd | hd
    · exact (h.only d hd).imp_right fun hd => List.mem_append_left _ hd
    · exact .inr (List.mem_append_right _ hd)

section
variable {ε : Type} (machine : Machine ε)

theorem extends_image {agent : AgentId} {declaration : HarnessConfig} {skills : List Str}
    {session : Option Str} {d : Digest}
    (h : image machine r agent declaration skills session = .ok (d, r')) : r.Extends r' [d] := by
  unfold image at h
  simp only [Bind.bind, Except.bind, Pure.pure, Except.pure] at h
  split at h
  · cases h
  · split at h
    · cases h
    · split at h
      · rename_i hpresent
        cases h
        exact ⟨rfl, fun _ _ hd => hd, fun d hd => (List.mem_singleton.mp hd) ▸ hpresent,
          fun _ hd => .inl hd⟩
      · rename_i hmissing
        split at h
        · cases h
        · cases h
          refine ⟨rfl, fun d m hd => ?_, fun d hd => ?_, fun d hd => ?_⟩
          · rw [find_insert]
            split
            · rename_i heq
              subst heq
              rw [hd] at hmissing
              exact absurd rfl hmissing
            · exact hd
          · rw [List.mem_singleton.mp hd, find_insert, if_pos rfl]
            rfl
          · rw [find_insert] at hd
            split at hd
            · rename_i heq
              exact .inr (List.mem_singleton.mpr heq.symm)
            · exact .inl hd

theorem extends_imageAll (agent : AgentId) (skills : List Str) (session : Option Str)
    (declarations : List HarnessConfig) (r : Registry) :
    r.Extends (imageAll machine agent skills session declarations r).2
      ((imageAll machine agent skills session declarations r).1.map (·.2)) := by
  induction declarations generalizing r with
  | nil => exact .refl r
  | cons declaration rest ih =>
    unfold imageAll
    cases hi : image machine r agent declaration skills session with
    | error e => exact ih r
    | ok found => exact (extends_image machine hi).trans (ih found.2)

/-- A resolution files the entry it builds, and touches no other. -/
theorem resolve_agents (agent : AgentId) (root : Option Str) {key : Resolution}
    (hkey : key ≠ ⟨agent, root⟩) :
    (resolve machine r agent root).agents[key]? = r.agents[key]? := by
  unfold resolve
  split
  · rfl
  · split
    · rfl
    · rename_i declared _
      have hsame := (extends_imageAll machine agent declared.skills root
          declared.harnesses r).agents
      dsimp only
      rw [find_insert, if_neg (Ne.symm hkey), hsame]

theorem resolve_images (agent : AgentId) (root : Option Str) {d : Digest} {m : Manifest}
    (hd : r.images[d]? = some m) :
    (resolve machine r agent root).images[d]? = some m := by
  unfold resolve
  split
  · exact hd
  · split
    · exact hd
    · exact (extends_imageAll machine _ _ _ _ r).kept d m hd

theorem Filed.resolve (h : r.Filed) (agent : AgentId) (root : Option Str) :
    (resolve machine r agent root).Filed := by
  unfold System.resolve
  split
  · exact h
  · split
    · exact h
    · rename_i declared _
      have he := extends_imageAll machine agent declared.skills root declared.harnesses r
      intro d ⟨key, ds, hkey, e, hmem, hd⟩
      dsimp only at hkey ⊢
      rw [find_insert, he.agents] at hkey
      split at hkey
      · cases hkey
        exact he.filed d (List.mem_map.mpr ⟨e, hmem, hd⟩)
      · obtain ⟨m, hm⟩ := Option.isSome_iff_exists.mp (h d ⟨key, ds, hkey, e, hmem, hd⟩)
        rw [he.kept d m hm]
        rfl

/-- What is built is named by the entry it is built for, so that nothing has to be swept after a
resolution. -/
theorem Swept.resolve (h : r.Swept) (agent : AgentId) (root : Option Str) :
    (resolve machine r agent root).Swept := by
  unfold System.resolve
  split
  · exact h
  · rename_i hnew
    split
    · exact h
    · rename_i declared _
      have he := extends_imageAll machine agent declared.skills root declared.harnesses r
      intro d hd
      rcases he.only d hd with hd | hd
      · obtain ⟨key, ds, hkey, hmem⟩ := h d hd
        refine ⟨key, ds, ?_, hmem⟩
        dsimp only
        rw [find_insert, he.agents, if_neg, hkey]
        intro heq
        rw [heq, hkey] at hnew
        exact hnew rfl
      · obtain ⟨e, hmem, hd⟩ := List.mem_map.mp hd
        refine ⟨⟨agent, root⟩, _, ?_, e, hmem, hd⟩
        dsimp only
        rw [find_insert, if_pos rfl]

end

/-! ## Agents come and go -/

section
variable {ε : Type}

inductive Op
  | load (agent : AgentId) (config : AgentConfig)
  | resolve (agent : AgentId) (root : Option Str)
  | owner (agent : AgentId) (root : Option Str) (tool : Str)
  | forget (agent : AgentId)

def Op.perform (machine : Machine ε) (r : Registry) : Op → Registry
  | .load agent config => System.load machine r agent config
  | .resolve agent root => System.resolve machine r agent root
  | .owner agent root tool => (System.owner machine r agent root tool).2
  | .forget agent => System.forget r agent

def Op.agent : Op → AgentId
  | .load agent _ | .resolve agent _ | .owner agent _ _ | .forget agent => agent

variable {machine : Machine ε}

theorem owner_cases (machine : Machine ε) (r : Registry) (agent : AgentId) (root : Option Str) (tool : Str) :
    (System.owner machine r agent root tool).2 = r ∨ (System.owner machine r agent root tool).2 =
    System.resolve machine r agent root := by
  unfold System.owner
  dsimp only
  split
  · exact .inl rfl
  · exact .inr rfl

theorem Filed.perform (h : r.Filed) (op : Op) : (op.perform machine r).Filed := by
  cases op with
  | load agent config =>
    apply Filed.sweep
    apply Filed.resolve
    exact (h.clear agent : (r.clear agent).Filed)
  | resolve agent root => exact h.resolve machine agent root
  | owner agent root tool =>
    dsimp only [Op.perform]
    rcases owner_cases machine r agent root tool with hsame | hresolved
    · rw [hsame]
      exact h
    · rw [hresolved]
      exact h.resolve machine agent root
  | forget agent =>
    apply Filed.sweep
    exact (h.clear agent : (r.clear agent).Filed)

theorem Swept.perform (h : r.Swept) (op : Op) : (op.perform machine r).Swept := by
  cases op with
  | load agent config => exact swept_sweep _
  | resolve agent root => exact h.resolve machine agent root
  | owner agent root tool =>
    dsimp only [Op.perform]
    rcases owner_cases machine r agent root tool with hsame | hresolved
    · rw [hsame]
      exact h
    · rw [hresolved]
      exact h.resolve machine agent root
  | forget agent => exact swept_sweep _

/-- No agent's entry is touched by what another does. -/
theorem perform_agents (op : Op) {key : Resolution} (hkey : key.agent ≠ op.agent) :
    (op.perform machine r).agents[key]? = r.agents[key]? := by
  have hne : ∀ agent root, op.agent = agent → key ≠ ⟨agent, root⟩ := by
    intro agent root ha heq
    apply hkey
    rw [ha, heq]
  cases op with
  | load agent config =>
    show (System.resolve machine (declare r agent config) agent none).agents[key]? = _
    rw [resolve_agents machine agent none (hne agent none rfl)]
    show (r.clear agent).agents[key]? = _
    rw [clear_agents]
    exact if_neg hkey
  | resolve agent root => exact resolve_agents machine agent root (hne agent root rfl)
  | owner agent root tool =>
    dsimp only [Op.perform]
    rcases owner_cases machine r agent root tool with hsame | hresolved
    · rw [hsame]
    · rw [hresolved, resolve_agents machine agent root (hne agent root rfl)]
  | forget agent =>
    show (r.clear agent).agents[key]? = _
    rw [clear_agents]
    exact if_neg hkey

/-- An image that is still named stays what it was. -/
theorem perform_images (op : Op) {d : Digest} {m : Manifest} (hd : r.images[d]? = some m)
    (hn : (op.perform machine r).Names d) :
    (op.perform machine r).images[d]? = some m := by
  cases op with
  | load agent config =>
    exact (sweep_images _ d m).mpr
      ⟨resolve_images machine agent none (r := declare r agent config) hd, hn⟩
  | resolve agent root => exact resolve_images machine agent root hd
  | owner agent root tool =>
    dsimp only [Op.perform]
    rcases owner_cases machine r agent root tool with hsame | hresolved
    · rw [hsame]
      exact hd
    · rw [hresolved]
      exact resolve_images machine agent root hd
  | forget agent => exact (sweep_images _ d m).mpr ⟨hd, hn⟩

def Performed (ε : Type) (r : Registry) (act : Machine ε × Op) (r' : Registry) : Prop :=
  r' = act.2.perform act.1 r

/-- What entries name has an image and is kept, and an image is there only while it is named. -/
theorem images_named (h : Reachable (· = empty) (Performed ε) r) :
    r.Filed ∧ r.Swept ∧ ∀ (machine : Machine ε) (op : Op) (key : Resolution) (ds : Resolved),
    key.agent ≠ op.agent →
      r.agents[key]? = some ds → (op.perform machine r).agents[key]? = some ds ∧
        ∀ e ∈ ds, ∃ m, r.images[e.2]? = some m ∧ (op.perform machine r).images[e.2]? = some m := by
  have hfiled : r.Filed := by
    refine h.invariant (I := Filed) (fun r hr => ?_) fun r act r' hi hr => ?_
    · intro d ⟨key, ds, hkey, _⟩
      rw [hr] at hkey
      simp [empty] at hkey
    · rw [hr]
      exact hi.perform act.2
  have hswept : r.Swept := by
    refine h.invariant (I := Swept) (fun r hr => ?_) fun r act r' hi hr => ?_
    · intro d hd
      rw [hr] at hd
      simp [empty] at hd
    · rw [hr]
      exact hi.perform act.2
  refine ⟨hfiled, hswept, fun machine op key ds hkey hds => ?_⟩
  have hkept : (op.perform machine r).agents[key]? = some ds := by rw [perform_agents op hkey, hds]
  refine ⟨hkept, fun e he => ?_⟩
  obtain ⟨m, hm⟩ := Option.isSome_iff_exists.mp (hfiled e.2 ⟨key, ds, hds, e, he, rfl⟩)
  exact ⟨m, hm, perform_images op hm ⟨key, ds, hkept, e, he, rfl⟩⟩

/-- Two agents declare the same image, and one of them goes. -/
theorem images_named_instance :
    let machine : Machine Unit :=
      ⟨fun _ => .ok (), none, fun _ path => .ok path, fun _ _ _ _ _ => 7,
        fun _ _ _ _ _ => .ok ⟨[⟨['r'], none⟩]⟩⟩
    let config (n : Fin (2 ^ 128)) : AgentConfig :=
      ⟨⟨n⟩, [], [], [], 16, [], [], [⟨['c'], none, []⟩], []⟩
    let r := Op.perform machine (Op.perform machine empty (.load ⟨1⟩ (config 1)))
        (.load ⟨2⟩ (config 2))
    ∃ m, r.images[(7 : Digest)]? = some m ∧
      (Op.perform machine r (.forget ⟨1⟩)).images[(7 : Digest)]? = some m := by
  intro machine config r
  have hr : Reachable (· = empty) (Performed Unit) r :=
    .next (a := (machine, .load ⟨2⟩ (config 2)))
      (.next (a := (machine, .load ⟨1⟩ (config 1))) (.first rfl) rfl) rfl
  have hds : r.agents[(⟨⟨2⟩, none⟩ : Resolution)]? = some [(['c'], 7)] := by decide +kernel
  obtain ⟨-, hkept⟩ := (images_named hr).2.2 machine (.forget ⟨1⟩) ⟨⟨2⟩, none⟩ _
      (by decide +kernel) hds
  exact hkept (['c'], 7) List.mem_cons_self

end

end Registry

end Crabtalk.System

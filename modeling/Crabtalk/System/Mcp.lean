import Mathlib.Data.Finset.Basic
import Mathlib.Data.Finset.Insert
import Mathlib.Data.Finset.Erase
import Crabtalk.Basis.Reachable
import Crabtalk.Basis.ColumnMap
import Crabtalk.Store.Kv

/-! # Declared MCP servers

Agents declare servers, and declarations that spell the same process share one
peer. The operations are given by the sections they run under the locks of the
two maps; between two sections anything may happen.
-/

open Basis Std

namespace Crabtalk.System

open Store

/-! ## The handler -/

abbrev Fingerprint := UInt64

/-- What the fingerprint is a hash of. Neither the name nor `auto_restart` is. -/
def fingerprint (hash : Str × List Str × List (Str × Str) × Option Str × Option Str → Fingerprint)
    (cfg : McpServerConfig) : Fingerprint :=
  hash (cfg.command, cfg.args, cfg.env, cfg.url, cfg.auth)

inductive ServerStatus
  | connecting
  | connected
  | failed
  | disconnected
  deriving DecidableEq

structure McpServerState where
  status : ServerStatus
  tools : List Str
  lastError : Option Str
  deriving DecidableEq

namespace McpServerState

def connecting : McpServerState := ⟨.connecting, [], none⟩

def connected (tools : List Str) : McpServerState := ⟨.connected, tools, none⟩

def failed (error : Str) : McpServerState := ⟨.failed, [], some error⟩

def idle : McpServerState := ⟨.disconnected, [], none⟩

end McpServerState

abbrev OwnerKey := Str × Str

instance : Ord OwnerKey := ⟨compareLex (compareOn Prod.fst) (compareOn Prod.snd)⟩

instance : TransOrd OwnerKey :=
  inferInstanceAs (TransCmp (compareLex (compareOn (Prod.fst : OwnerKey → Str))
    (compareOn Prod.snd)))

instance : LawfulEqOrd OwnerKey where
  compare_self {a} := by
    show compareLex (compareOn (Prod.fst : OwnerKey → Str)) (compareOn Prod.snd) a a = .eq
    exact ReflCmp.compare_self
  eq_of_compare {a b} h := by
    obtain ⟨hfst, hsnd⟩ := compareLex_eq_eq.mp h
    exact Prod.ext (LawfulEqOrd.compare_eq_iff_eq.mp hfst) (LawfulEqOrd.compare_eq_iff_eq.mp hsnd)

structure PeerEntry where
  state : McpServerState
  refs : Finset OwnerKey
  cfg : McpServerConfig
  lastUsed : Option Nat

namespace PeerEntry

def expired (idleTimeout now : Nat) (e : PeerEntry) : Bool :=
  decide (e.state.status = .connected ∨ e.state.status = .failed) &&
    match e.lastUsed with
    | some t => idleTimeout ≤ now - t
    | none => false

def stop (e : PeerEntry) : PeerEntry :=
  { e with state := { e.state with status := .disconnected, tools := [] }, lastUsed := none }

end PeerEntry

structure McpHandler where
  peers : ExtTreeMap Fingerprint PeerEntry
  byOwner : ExtTreeMap OwnerKey Fingerprint

namespace McpHandler

def empty : McpHandler := ⟨∅, ∅⟩

/-! ## The sections -/

/-- Take the owner off the peer, and the peer away with its last owner. The fingerprint of a peer
that goes. -/
def release (h : McpHandler) (fp : Fingerprint) (key : OwnerKey) :
    Option Fingerprint × McpHandler :=
  match h.peers[fp]? with
  | none => (none, h)
  | some entry =>
    let refs := entry.refs.erase key
    if refs = ∅ then (some fp, { h with peers := h.peers.erase fp })
    else (none, { h with peers := h.peers.insert fp { entry with refs } })

def claim (h : McpHandler) (fp : Fingerprint) (key : OwnerKey) (cfg : McpServerConfig) : McpHandler :=
  match h.peers[fp]? with
  | some entry => { h with peers := h.peers.insert fp { entry with refs := insert key entry.refs } }
  | none => { h with peers := h.peers.insert fp ⟨.idle, {key}, cfg, none⟩ }

/-- `register_for_agent`, up to the disconnect of a peer left without owners. -/
def registerForAgent (h : McpHandler) (fp : Fingerprint) (key : OwnerKey) (cfg : McpServerConfig) :
    Option Fingerprint × McpHandler :=
  let old := h.byOwner[key]?
  let h := { h with byOwner := h.byOwner.insert key fp }
  match old with
  | some oldFp =>
    if oldFp ≠ fp then
      let (stale, h) := h.release oldFp key
      (stale, h.claim fp key cfg)
    else (none, h.claim fp key cfg)
  | none => (none, h.claim fp key cfg)

/-- `unregister_for_agent`, up to the disconnect. -/
def unregisterForAgent (h : McpHandler) (key : OwnerKey) : Option Fingerprint × McpHandler :=
  match h.byOwner[key]? with
  | none => (none, h)
  | some fp => ({ h with byOwner := h.byOwner.erase key } : McpHandler).release fp key

/-- The peers `ensure_connected` goes after. -/
def pending (h : McpHandler) (agent : Str) (mcpNames : List Str) : List Fingerprint :=
  (mcpNames.filterMap fun name => h.byOwner[((agent, name) : OwnerKey)]?).filter fun fp =>
    match h.peers[fp]? with
    | some e => e.state.status = .disconnected ∨ e.state.status = .connecting
    | none => False

/-- `connect_peer` under the gate: whether there is something to connect. -/
def startConnect (h : McpHandler) (fp : Fingerprint) : Bool × McpHandler :=
  match h.peers[fp]? with
  | none => (false, h)
  | some entry =>
    if entry.state.status = .connected ∨ entry.state.status = .failed then (false, h)
    else (true, { h with peers := h.peers.insert fp { entry with state := .connecting } })

/-- `connect_peer` writes down how it went. -/
def settle (h : McpHandler) (fp : Fingerprint) (state : McpServerState) (now : Nat) : McpHandler :=
  match h.peers[fp]? with
  | none => h
  | some entry => { h with peers := h.peers.insert fp { entry with state, lastUsed := some now } }

/-- `reap_idle`, up to the disconnects. -/
def reapIdle (h : McpHandler) (idleTimeout now : Nat) : List Fingerprint × McpHandler :=
  ((h.peers.toList.filter fun e => e.2.expired idleTimeout now).map (·.1),
    { h with peers := h.peers.map fun _ e => if e.expired idleTimeout now then e.stop else e })

/-- `reconnect_for_agent`, once the peer is looked up, up to the disconnect. -/
def resetPeer (h : McpHandler) (fp : Fingerprint) : Bool × McpHandler :=
  match h.peers[fp]? with
  | none => (false, h)
  | some entry => (true, { h with peers := h.peers.insert fp { entry with state := .idle } })

/-- `call` before it calls. -/
def touch (h : McpHandler) (fp : Fingerprint) (now : Nat) : McpHandler :=
  match h.peers[fp]? with
  | none => h
  | some entry => { h with peers := h.peers.insert fp { entry with lastUsed := some now } }

def markFailed (h : McpHandler) (fp : Fingerprint) (error : Str) : McpHandler :=
  match h.peers[fp]? with
  | none => h
  | some entry =>
    if entry.state.status = .failed then h
    else
      { h with
        peers := h.peers.insert fp
          { entry with state := { entry.state with status := .failed, lastError := some error } } }

/-! ## Owners and their peers -/

variable {hash : Str × List Str × List (Str × Str) × Option Str × Option Str → Fingerprint}
  {h h' : McpHandler} {fp : Fingerprint}
  {key : OwnerKey}

def Lists (h : McpHandler) (fp : Fingerprint) (key : OwnerKey) : Prop :=
  ∃ e, h.peers[fp]? = some e ∧ key ∈ e.refs

/-- No peer is without an owner, and each stands under the fingerprint of its config. -/
def Sound (hash : Str × List Str × List (Str × Str) × Option Str × Option Str → Fingerprint)
    (h : McpHandler) : Prop :=
  ∀ (fp : Fingerprint) (e : PeerEntry), h.peers[fp]? = some e → e.refs.Nonempty ∧
    fingerprint hash e.cfg = fp

def Owned (h : McpHandler) : Prop := ∀ (key : OwnerKey) (fp : Fingerprint), h.byOwner[key]? =
    some fp ↔ h.Lists fp key

theorem release_byOwner (h : McpHandler) (fp : Fingerprint) (key : OwnerKey) :
    (h.release fp key).2.byOwner = h.byOwner := by
  unfold release
  split
  · rfl
  · dsimp only
    split <;> rfl

theorem claim_byOwner (h : McpHandler) (fp : Fingerprint) (key : OwnerKey) (cfg : McpServerConfig) :
    (h.claim fp key cfg).byOwner = h.byOwner := by
  unfold claim
  split <;> rfl

theorem release_peers {fp' : Fingerprint} {e' : PeerEntry} (h : McpHandler) (fp : Fingerprint)
    (key : OwnerKey) :
    (h.release fp key).2.peers[fp']? = some e' ↔
      ∃ e, h.peers[fp']? = some e ∧
      (if fp = fp' then (e.refs.erase key).Nonempty ∧ e' = { e with refs := e.refs.erase key }
        else e' = e) := by
  by_cases hfp : fp = fp'
  · subst hfp
    unfold release
    cases he : h.peers[fp]? with
    | none => simp [he]
    | some e =>
      by_cases hrefs : e.refs.erase key = ∅
      · simp [hrefs]
      · simp only [hrefs, if_false, if_true, ExtTreeMap.getElem?_insert_self, Option.some.injEq,
          exists_eq_left',
          Finset.nonempty_iff_ne_empty, ne_eq, not_false_eq_true, true_and]
        exact eq_comm
  · have hsame : (h.release fp key).2.peers[fp']? = h.peers[fp']? := by
      unfold release
      split
      · rfl
      · dsimp only
        split
        · rw [find_erase, if_neg hfp]
        · rw [find_insert, if_neg hfp]
    simp only [hsame, if_neg hfp]
    constructor
    · exact fun he => ⟨e', he, rfl⟩
    · intro ⟨e, he, heq⟩
      rw [heq, he]

theorem lists_release (h : McpHandler) (fp fp' : Fingerprint) (key key' : OwnerKey) :
    (h.release fp key).2.Lists fp' key' ↔ h.Lists fp' key' ∧ ¬ (fp = fp' ∧ key = key') := by
  unfold Lists
  simp only [release_peers]
  by_cases hfp : fp = fp'
  · subst hfp
    simp only [if_true, true_and]
    constructor
    · intro ⟨e', ⟨e, he, hne, he'⟩, hmem⟩
      subst he'
      obtain ⟨hk, hmem⟩ := Finset.mem_erase.mp hmem
      exact ⟨⟨e, he, hmem⟩, Ne.symm hk⟩
    · intro ⟨⟨e, he, hmem⟩, hk⟩
      have hmem' : key' ∈ e.refs.erase key := Finset.mem_erase.mpr ⟨Ne.symm hk, hmem⟩
      exact ⟨_, ⟨e, he, ⟨key', hmem'⟩, rfl⟩, hmem'⟩
  · simp [hfp]

theorem claim_peers {fp' : Fingerprint} (h : McpHandler) (fp : Fingerprint) (key : OwnerKey)
    (cfg : McpServerConfig) :
    (h.claim fp key cfg).peers[fp']? = if fp = fp' then
      some (match h.peers[fp]? with
        | some e => { e with refs := insert key e.refs }
        | none => ⟨.idle, {key}, cfg, none⟩) else h.peers[fp']? := by
  unfold claim
  cases he : h.peers[fp]? with
  | none =>
    dsimp only
    rw [find_insert]
  | some e =>
    dsimp only
    rw [find_insert]

theorem lists_claim (h : McpHandler) (fp fp' : Fingerprint) (key key' : OwnerKey)
    (cfg : McpServerConfig) :
    (h.claim fp key cfg).Lists fp' key' ↔ h.Lists fp' key' ∨ (fp = fp' ∧ key = key') := by
  unfold Lists
  rw [claim_peers]
  by_cases hfp : fp = fp'
  · subst hfp
    cases he : h.peers[fp]? with
    | none => simp [eq_comm]
    | some e => simp [or_comm, eq_comm]
  · simp [hfp]

theorem Sound.release (hs : h.Sound hash) (fp : Fingerprint) (key : OwnerKey) :
    (h.release fp key).2.Sound hash := by
  intro fp' e' he'
  obtain ⟨e, he, hif⟩ := (release_peers h fp key).mp he'
  split at hif
  · obtain ⟨hne, rfl⟩ := hif
    exact ⟨hne, (hs fp' e he).2⟩
  · rw [hif]
    exact hs fp' e he

theorem Sound.claim (hs : h.Sound hash) (fp : Fingerprint) (key : OwnerKey) {cfg : McpServerConfig}
    (hcfg : fingerprint hash cfg = fp) :
    (h.claim fp key cfg).Sound hash := by
  intro fp' e' he'
  rw [claim_peers] at he'
  split at he'
  · rename_i hfp
    subst hfp
    cases he'
    cases he : h.peers[fp]? with
    | none => exact ⟨Finset.singleton_nonempty key, hcfg⟩
    | some e => exact ⟨Finset.insert_nonempty key e.refs, (hs fp e he).2⟩
  · exact hs fp' e' he'

/-- Whoever registers leaves the peer it owned before and owns the new one. -/
theorem registerForAgent_lists (ho : h.Owned) (fp fp' : Fingerprint) (key key' : OwnerKey)
    (cfg : McpServerConfig) :
    (h.registerForAgent fp key cfg).2.Lists fp' key' ↔
    if key = key' then fp = fp' else h.Lists fp' key' := by
  have hown : h.Lists fp' key → h.byOwner[key]? = some fp' := (ho key fp').mpr
  have hsame : ∀ m : ExtTreeMap OwnerKey Fingerprint, Lists { h with byOwner := m } fp' key' ↔
      h.Lists fp' key' := fun _ => Iff.rfl
  unfold registerForAgent
  dsimp only
  cases hold : h.byOwner[key]? with
  | none =>
    dsimp only
    rw [lists_claim, hsame]
    by_cases hk : key = key'
    · subst hk
      have hnot : ¬ h.Lists fp' key := fun hl => by
        rw [hown hl] at hold
        cases hold
      simp [hnot]
    · simp [hk]
  -- an owner that moves from one peer to another leaves the old one
  | some oldFp =>
    dsimp only
    by_cases hne : oldFp = fp
    · rw [if_neg (fun h => h hne), lists_claim, hsame]
      by_cases hk : key = key'
      · subst hk
        have honly : h.Lists fp' key → fp = fp' := fun hl => by
          rw [hown hl, Option.some.injEq] at hold
          rw [hold, hne]
        simp only [if_true, and_true]
        exact ⟨fun hl => hl.elim honly id, Or.inr⟩
      · simp [hk]
    · rw [if_pos hne]
      dsimp only
      rw [lists_claim, lists_release, hsame]
      by_cases hk : key = key'
      · subst hk
        have honly : h.Lists fp' key → oldFp = fp' := fun hl => by
          rw [hown hl, Option.some.injEq] at hold
          exact hold.symm
        simp only [if_true, and_true]
        exact ⟨fun hl => hl.elim (fun hl => absurd (honly hl.1) hl.2) id, Or.inr⟩
      · simp [hk]

theorem registerForAgent_byOwner (h : McpHandler) (fp : Fingerprint) (key key' : OwnerKey)
    (cfg : McpServerConfig) :
    (h.registerForAgent fp key cfg).2.byOwner[key']? = if key = key' then some fp
    else h.byOwner[key']? := by
  have hinsert : (h.byOwner.insert key fp)[key']? = if key = key' then some fp
      else h.byOwner[key']? := find_insert _ _ _ _
  unfold registerForAgent
  dsimp only
  split
  · split
    · dsimp only
      rw [claim_byOwner, release_byOwner, hinsert]
    · dsimp only
      rw [claim_byOwner, hinsert]
  · dsimp only
    rw [claim_byOwner, hinsert]

theorem Owned.register (ho : h.Owned) (fp : Fingerprint) (key : OwnerKey) (cfg : McpServerConfig) :
    (h.registerForAgent fp key cfg).2.Owned := by
  intro key' fp'
  rw [registerForAgent_byOwner, registerForAgent_lists ho]
  split
  · exact Option.some_inj
  · exact ho key' fp'

theorem Sound.register (hs : h.Sound hash) (key : OwnerKey) (cfg : McpServerConfig) :
    (h.registerForAgent (fingerprint hash cfg) key cfg).2.Sound hash := by
  have hbase : ∀ m : ExtTreeMap OwnerKey Fingerprint, Sound hash { h with byOwner := m } := fun _ => hs
  unfold registerForAgent
  dsimp only
  split
  · split
    · exact ((hbase _).release _ key).claim _ key rfl
    · exact (hbase _).claim _ key rfl
  · exact (hbase _).claim _ key rfl

theorem unregisterForAgent_byOwner (h : McpHandler) (key key' : OwnerKey) :
    (h.unregisterForAgent key).2.byOwner[key']? = if key = key' then none else h.byOwner[key']? := by
  unfold unregisterForAgent
  split
  · rename_i hnone
    split
    · rename_i hk
      rw [← hk, hnone]
    · rfl
  · rw [release_byOwner]
    exact find_erase _ _ _

theorem Owned.unregister (ho : h.Owned) (key : OwnerKey) : (h.unregisterForAgent key).2.Owned := by
  intro key' fp'
  rw [unregisterForAgent_byOwner]
  unfold unregisterForAgent
  cases hfp : h.byOwner[key]? with
  | none =>
    dsimp only
    rw [← ho key' fp']
    by_cases hk : key = key'
    · subst hk
      simp [hfp]
    · simp [hk]
  | some fp =>
    dsimp only
    rw [lists_release]
    show _ ↔ h.Lists fp' key' ∧ _
    rw [← ho key' fp']
    by_cases hk : key = key'
    · subst hk
      simp [hfp]
    · simp [hk]

theorem Sound.unregister (hs : h.Sound hash) (key : OwnerKey) :
    (h.unregisterForAgent key).2.Sound hash := by
  unfold unregisterForAgent
  split
  · exact hs
  · exact Sound.release (h := { h with byOwner := h.byOwner.erase key }) hs _ key

/-! ## Connections come and go -/

structure Alike (h h' : McpHandler) : Prop where
  byOwner : h'.byOwner = h.byOwner
  peers : ∀ fp : Fingerprint, h'.peers[fp]?.map (fun e => (e.refs, e.cfg)) = h.peers[fp]?.map
    fun e => (e.refs, e.cfg)

theorem Alike.refl (h : McpHandler) : h.Alike h := ⟨rfl, fun _ => rfl⟩

theorem Alike.find (ha : h.Alike h') {e' : PeerEntry} (he' : h'.peers[fp]? = some e') :
    ∃ e, h.peers[fp]? = some e ∧ e.refs = e'.refs ∧ e.cfg = e'.cfg := by
  have hmap := ha.peers fp
  rw [he', Option.map_some] at hmap
  obtain ⟨e, he, heq⟩ := Option.map_eq_some_iff.mp hmap.symm
  exact ⟨e, he, congrArg Prod.fst heq, congrArg Prod.snd heq⟩

theorem Alike.symm (ha : h.Alike h') : h'.Alike h := ⟨ha.byOwner.symm, fun fp => (ha.peers fp).symm⟩

theorem Alike.lists (ha : h.Alike h') (fp : Fingerprint) (key : OwnerKey) : h'.Lists fp key ↔
    h.Lists fp key := by
  have hto : ∀ {h h' : McpHandler}, h.Alike h' → h'.Lists fp key → h.Lists fp key := by
    intro h h' ha ⟨e', he', hmem⟩
    obtain ⟨e, he, hrefs, -⟩ := ha.find he'
    exact ⟨e, he, hrefs ▸ hmem⟩
  exact ⟨hto ha, hto ha.symm⟩

theorem Alike.owned (ha : h.Alike h') (ho : h.Owned) : h'.Owned := by
  intro key fp
  rw [ha.lists, ha.byOwner]
  exact ho key fp

theorem Alike.sound (ha : h.Alike h') (hs : h.Sound hash) : h'.Sound hash := by
  intro fp e' he'
  obtain ⟨e, he, hrefs, hcfg⟩ := ha.find he'
  rw [← hrefs, ← hcfg]
  exact hs fp e he

/-- An entry that keeps its owners and its config may change otherwise. -/
theorem alike_insert {e e' : PeerEntry} (he : h.peers[fp]? = some e) (hrefs : e'.refs = e.refs)
    (hcfg : e'.cfg = e.cfg) :
    h.Alike { h with peers := h.peers.insert fp e' } := by
  refine ⟨rfl, fun fp' => ?_⟩
  dsimp only
  rw [find_insert]
  split
  · rename_i hfp
    rw [← hfp, he, Option.map_some, Option.map_some, hrefs, hcfg]
  · rfl

theorem alike_startConnect (h : McpHandler) (fp : Fingerprint) : h.Alike (h.startConnect fp).2 := by
  unfold startConnect
  split
  · exact .refl h
  · split
    · exact .refl h
    · rename_i he _
      exact alike_insert he rfl rfl

theorem alike_settle (h : McpHandler) (fp : Fingerprint) (state : McpServerState) (now : Nat) :
    h.Alike (h.settle fp state now) := by
  unfold settle
  split
  · exact .refl h
  · rename_i he
    exact alike_insert he rfl rfl

theorem alike_reapIdle (h : McpHandler) (idleTimeout now : Nat) :
    h.Alike (h.reapIdle idleTimeout now).2 := by
  refine ⟨rfl, fun fp => ?_⟩
  unfold reapIdle
  dsimp only
  rw [ExtTreeMap.getElem?_map]
  cases h.peers[fp]? with
  | none => rfl
  | some e =>
    dsimp only [Option.map_some]
    split <;> rfl

theorem alike_resetPeer (h : McpHandler) (fp : Fingerprint) : h.Alike (h.resetPeer fp).2 := by
  unfold resetPeer
  split
  · exact .refl h
  · rename_i he
    exact alike_insert he rfl rfl

theorem alike_touch (h : McpHandler) (fp : Fingerprint) (now : Nat) : h.Alike (h.touch fp now) := by
  unfold touch
  split
  · exact .refl h
  · rename_i he
    exact alike_insert he rfl rfl

theorem alike_markFailed (h : McpHandler) (fp : Fingerprint) (error : Str) :
    h.Alike (h.markFailed fp error) := by
  unfold markFailed
  split
  · exact .refl h
  · split
    · exact .refl h
    · rename_i he _
      exact alike_insert he rfl rfl

/-! ## Every order of sections -/

inductive Section
  | register (agent : Str) (cfg : McpServerConfig)
  | unregister (agent name : Str)
  | startConnect (fp : Fingerprint)
  | settle (fp : Fingerprint) (state : McpServerState) (now : Nat)
  | reapIdle (idleTimeout now : Nat)
  | resetPeer (fp : Fingerprint)
  | touch (fp : Fingerprint) (now : Nat)
  | markFailed (fp : Fingerprint) (error : Str)

def Section.perform (hash : Str × List Str × List (Str × Str) × Option Str × Option Str →
    Fingerprint) (h : McpHandler) : Section → McpHandler
  | .register agent cfg => (h.registerForAgent (fingerprint hash cfg) (agent, cfg.name) cfg).2
  | .unregister agent name => (h.unregisterForAgent (agent, name)).2
  | .startConnect fp => (h.startConnect fp).2
  | .settle fp state now => h.settle fp state now
  | .reapIdle idleTimeout now => (h.reapIdle idleTimeout now).2
  | .resetPeer fp => (h.resetPeer fp).2
  | .touch fp now => h.touch fp now
  | .markFailed fp error => h.markFailed fp error

theorem consistent_perform (ho : h.Owned) (hs : h.Sound hash) (x : Section) :
    (x.perform hash h).Owned ∧ (x.perform hash h).Sound hash := by
  have halike : ∀ {h' : McpHandler}, h.Alike h' → h'.Owned ∧ h'.Sound hash :=
    fun ha => ⟨ha.owned ho, ha.sound hs⟩
  cases x with
  | register agent cfg => exact ⟨ho.register _ _ cfg, hs.register _ cfg⟩
  | unregister agent name => exact ⟨ho.unregister _, hs.unregister _⟩
  | startConnect fp => exact halike (alike_startConnect h fp)
  | settle fp state now => exact halike (alike_settle h fp state now)
  | reapIdle idleTimeout now => exact halike (alike_reapIdle h idleTimeout now)
  | resetPeer fp => exact halike (alike_resetPeer h fp)
  | touch fp now => exact halike (alike_touch h fp now)
  | markFailed fp error => exact halike (alike_markFailed h fp error)

/-- The sections of any operations in any order, those of one operation with others in between. -/
theorem owners_agree (hr : Reachable (· = empty)
    (fun h (x : Section) h' => h' = x.perform hash h) h) :
    (∀ (key : OwnerKey) (fp : Fingerprint), h.byOwner[key]? = some fp ↔ ∃ e, h.peers[fp]? = some e ∧
      key ∈ e.refs) ∧
      ∀ (fp : Fingerprint) (e : PeerEntry), h.peers[fp]? = some e → e.refs.Nonempty ∧
      fingerprint hash e.cfg = fp := by
  refine hr.invariant (I := fun h => h.Owned ∧ h.Sound hash) (fun h hh => ?_) fun h x h' hi hx => ?_
  · rw [hh]
    refine ⟨fun key fp => ?_, fun fp e he => ?_⟩
    · simp [empty, Lists]
    · simp [empty] at he
  · rw [hx]
    exact consistent_perform hi.1 hi.2 x

/-- Two agents share a server, and one of them declares another under the same name. -/
theorem owners_agree_instance :
    let hash (c : Str × List Str × List (Str × Str) × Option Str × Option Str) : Fingerprint :=
    UInt64.ofNat c.1.length
    let cfg (command : Str) : McpServerConfig := ⟨['s'], command, [], [], true, none, none⟩
    let h₁ := Section.perform hash empty (.register ['a'] (cfg ['x']))
    let h₂ := Section.perform hash h₁ (.register ['b'] (cfg ['x']))
    let h₃ := Section.perform hash h₂ (.register ['a'] (cfg ['x', 'y']))
    (∃ e, h₃.peers[(2 : Fingerprint)]? = some e ∧ ((['a'], ['s']) : OwnerKey) ∈ e.refs) ∧
      ∃ e, h₃.peers[(1 : Fingerprint)]? = some e ∧ ((['b'], ['s']) : OwnerKey) ∈ e.refs := by
  intro hash cfg h₁ h₂ h₃
  have hr : Reachable (· = empty) (fun h (x : Section) h' => h' = x.perform hash h) h₃ :=
    .next (a := .register ['a'] (cfg ['x', 'y']))
      (.next (a := .register ['b'] (cfg ['x'])) (.next (a := .register ['a'] (cfg ['x']))
      (.first rfl) rfl) rfl) rfl
  exact ⟨((owners_agree hr).1 (['a'], ['s']) 2).mp (by decide +kernel),
    ((owners_agree hr).1 (['b'], ['s']) 1).mp (by decide +kernel)⟩

end McpHandler

end Crabtalk.System

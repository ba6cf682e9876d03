import Crabtalk.System.McpBridge

/-! # Peers the reaper finds

The reaper stops a peer by the time it was last used. A peer that is connected
or has failed and has no such time is out of its reach.
-/

open Basis Std

namespace Crabtalk.System

open Store

variable {hash : Str × List Str × List (Str × Str) × Option Str × Option Str → Fingerprint}

namespace PeerEntry

def Running (e : PeerEntry) : Prop := e.state.status = .connected ∨ e.state.status = .failed

instance (e : PeerEntry) : Decidable e.Running := inferInstanceAs (Decidable (_ ∨ _))

def Aged (e : PeerEntry) : Prop := e.Running → e.lastUsed.isSome

end PeerEntry

namespace McpHandler

variable {h : McpHandler} {fp : Fingerprint} {key : OwnerKey}

/-- Every peer that is connected or has failed was used at some time. -/
def Aged (h : McpHandler) : Prop := ∀ (fp : Fingerprint) (e : PeerEntry), h.peers[fp]? = some e → e.Aged

theorem Aged.insert (ha : h.Aged) {e : PeerEntry} (he : e.Aged) :
    Aged { h with peers := h.peers.insert fp e } := by
  intro fp' e' he'
  dsimp only at he'
  rw [find_insert] at he'
  split at he'
  · cases he'
    exact he
  · exact ha fp' e' he'

theorem Aged.release (ha : h.Aged) (fp : Fingerprint) (key : OwnerKey) :
    (h.release fp key).2.Aged := by
  intro fp' e' he'
  obtain ⟨e, he, hif⟩ := (release_peers h fp key).mp he'
  split at hif
  · rw [hif.2]
    exact ha fp' e he
  · rw [hif]
    exact ha fp' e he

theorem Aged.claim (ha : h.Aged) (fp : Fingerprint) (key : OwnerKey) (cfg : McpServerConfig) :
    (h.claim fp key cfg).Aged := by
  unfold McpHandler.claim
  split
  · rename_i e he
    exact ha.insert (ha fp e he)
  · refine ha.insert fun hr => ?_
    rcases hr with hr | hr <;> cases hr

theorem Aged.register (ha : h.Aged) (fp : Fingerprint) (key : OwnerKey) (cfg : McpServerConfig) :
    (h.registerForAgent fp key cfg).2.Aged := by
  have hbase : Aged { h with byOwner := h.byOwner.insert key fp } := ha
  unfold registerForAgent
  dsimp only
  split
  · split
    · exact (hbase.release _ key).claim fp key cfg
    · exact hbase.claim fp key cfg
  · exact hbase.claim fp key cfg

theorem Aged.unregister (ha : h.Aged) (key : OwnerKey) : (h.unregisterForAgent key).2.Aged := by
  have hbase : Aged { h with byOwner := h.byOwner.erase key } := ha
  unfold unregisterForAgent
  split
  · exact ha
  · exact hbase.release _ key

theorem Aged.startConnect (ha : h.Aged) (fp : Fingerprint) : (h.startConnect fp).2.Aged := by
  unfold McpHandler.startConnect
  split
  · exact ha
  · split
    · exact ha
    · refine ha.insert fun hr => ?_
      rcases hr with hr | hr <;> cases hr

theorem Aged.settle (ha : h.Aged) (fp : Fingerprint) (state : McpServerState) (now : Nat) :
    (h.settle fp state now).Aged := by
  unfold McpHandler.settle
  split
  · exact ha
  · exact ha.insert fun _ => rfl

theorem Aged.reapIdle (ha : h.Aged) (idleTimeout now : Nat) : (h.reapIdle idleTimeout now).2.Aged := by
  intro fp e' he'
  unfold McpHandler.reapIdle at he'
  dsimp only at he'
  rw [ExtTreeMap.getElem?_map] at he'
  obtain ⟨e, he, rfl⟩ := Option.map_eq_some_iff.mp he'
  split
  · intro hr
    rcases hr with hr | hr <;> cases hr
  · exact ha fp e he

theorem Aged.resetPeer (ha : h.Aged) (fp : Fingerprint) : (h.resetPeer fp).2.Aged := by
  unfold McpHandler.resetPeer
  split
  · exact ha
  · refine ha.insert fun hr => ?_
    rcases hr with hr | hr <;> cases hr

theorem Aged.touch (ha : h.Aged) (fp : Fingerprint) (now : Nat) : (h.touch fp now).Aged := by
  unfold McpHandler.touch
  split
  · exact ha
  · exact ha.insert fun _ => rfl

/-- A failure is seen by the reaper if the peer it is put down for was used since it was last stopped. -/
theorem aged_markFailed (ha : h.Aged) (fp : Fingerprint) (error : Str) :
    (h.markFailed fp error).Aged ↔ ∀ e ∈ h.peers[fp]?, e.lastUsed.isSome := by
  unfold markFailed
  cases he : h.peers[fp]? with
  | none => exact iff_of_true ha fun e he => by cases he
  | some e =>
    dsimp only
    split
    · rename_i hfailed
      refine iff_of_true ha fun e' he' => ?_
      cases he'
      exact ha fp e he (.inr hfailed)
    · constructor
      · intro hmarked e' he'
        cases he'
        have hnew : (h.peers.insert fp
            { e with state := { e.state with status := .failed, lastError := some error } })[fp]? =
            some { e with state := { e.state with status := .failed, lastError := some error } } :=
            (find_insert _ _ _ _).trans (if_pos rfl)
        have haged := hmarked fp _ hnew
        exact haged (.inr rfl)
      · intro hused
        exact ha.insert fun _ => hused e rfl

theorem reapIdle_spares {e : PeerEntry} (he : h.peers[fp]? = some e) (hused : e.lastUsed = none)
    (idleTimeout now : Nat) :
    (h.reapIdle idleTimeout now).2.status fp = h.status fp := by
  have hexpired : e.expired idleTimeout now = false := by
    unfold PeerEntry.expired
    rw [hused, Bool.and_false]
  unfold reapIdle status
  dsimp only
  rw [ExtTreeMap.getElem?_map, he]
  simp only [Option.map_some, hexpired, Bool.false_eq_true, if_false]

theorem reapIdle_stops {e : PeerEntry} (he : h.peers[fp]? = some e) (hr : e.Running)
    {t idleTimeout now : Nat} (ht : e.lastUsed = some t)
    (hnow : t + idleTimeout ≤ now) : (h.reapIdle idleTimeout now).2.status fp =
    some .disconnected := by
  have hexpired : e.expired idleTimeout now = true := by
    unfold PeerEntry.expired
    rw [ht, Bool.and_eq_true]
    exact ⟨decide_eq_true hr, decide_eq_true (by omega)⟩
  unfold reapIdle status
  dsimp only
  rw [ExtTreeMap.getElem?_map, he]
  simp only [Option.map_some, hexpired, if_true]
  rfl

end McpHandler

def Op.called : Op → Option Fingerprint
  | callTool fp => some fp
  | _ => none

namespace McpSystem

variable {w w' : McpSystem}

/-- A call does not fail for a peer that was stopped, or declared anew, since it was last used. -/
def Timely (w : McpSystem) : Act → Prop
  | .endCall i (some _) =>
    ∀ fp ∈ w.ops[i]?.bind Op.called, ∀ e ∈ w.handler.peers[fp]?, e.lastUsed.isSome
  | _ => True

instance (w : McpSystem) : ∀ a, Decidable (w.Timely a)
  | .endCall i (some _) => Option.decidableForallMem (w.ops[i]?.bind Op.called)
  | .endCall _ none | .register _ _ | .unregister _ _ | .ensureConnected _ _ | .reconnect _
      _ | .reapIdle _ _ | .call _ _ _
  | .removeServer _ | .enterGate _ | .settle _ _ _ | .startCall _ => instDecidableTrue

def Paced (idleTimeout : Nat) : Act → Prop
  | .reapIdle t _ => t = idleTimeout
  | _ => True

instance (idleTimeout : Nat) : ∀ a, Decidable (Paced idleTimeout a)
  | .reapIdle t _ => inferInstanceAs (Decidable (t = idleTimeout))
  | .endCall _ _ | .register _ _ | .unregister _ _ | .ensureConnected _ _ | .reconnect _ _ | .call _
      _ _ | .removeServer _ | .enterGate _
  | .settle _ _ _ | .startCall _ => instDecidableTrue

theorem aged_perform (ha : w.handler.Aged) {a : Act} (hp : w.perform hash a = some w') :
    w'.handler.Aged ↔ w.Timely a := by
  cases a with
  | register agent cfg =>
    cases hp
    exact iff_of_true (ha.register _ _ cfg) trivial
  | unregister agent name =>
    cases hp
    exact iff_of_true (ha.unregister _) trivial
  | ensureConnected agent mcpNames =>
    cases hp
    exact iff_of_true ha trivial
  | reconnect agent name =>
    dsimp only [perform] at hp
    split at hp
    · cases hp
      exact iff_of_true ha trivial
    · cases hp
      exact iff_of_true (ha.resetPeer _) trivial
  | reapIdle idleTimeout now =>
    cases hp
    exact iff_of_true (ha.reapIdle idleTimeout now) trivial
  | call fp tool now =>
    cases hp
    exact iff_of_true (ha.touch fp now) trivial
  | removeServer i =>
    dsimp only [perform] at hp
    split at hp
    · cases hp
    · split at hp <;> cases hp
      · exact iff_of_true ha trivial
      · exact iff_of_true ha trivial
  | enterGate i =>
    dsimp only [perform] at hp
    split at hp
    · split at hp
      · cases hp
      · cases hp
        exact iff_of_true (ha.startConnect _) trivial
    · cases hp
  | settle i outcome now =>
    dsimp only [perform] at hp
    split at hp
    · split at hp
      · split at hp
        · cases hp
        · cases hp
          exact iff_of_true (ha.settle _ _ now) trivial
      · cases hp
        exact iff_of_true (ha.settle _ _ now) trivial
    · cases hp
  | startCall i =>
    dsimp only [perform] at hp
    split at hp
    · split at hp
      · cases hp
      · split at hp <;> cases hp
        · exact iff_of_true ha trivial
        · exact iff_of_true ha trivial
    · cases hp
  | endCall i failure =>
    dsimp only [perform] at hp
    split at hp
    · rename_i fp ht
      cases failure with
      | none =>
        cases hp
        exact iff_of_true ha trivial
      | some message =>
        cases hp
        -- a failed call is the one step that may leave a peer without a time of its use
        refine (McpHandler.aged_markFailed ha fp message).trans ?_
        dsimp only [Timely]
        rw [ht]
        constructor
        · intro hused fp' hfp
          cases hfp
          exact hused
        · exact fun htimely => htimely fp rfl
    · cases hp

/-- While every failure is timely the reaper finds each peer that is connected or has failed, and
stops it once it has been idle for long enough. Only an untimely failure leaves a peer it does not
find. -/
theorem reaper_finds (hr : Reachable (· = new) (fun w a w' => w.perform hash a = some w' ∧
    w.Timely a) w) :
    (∀ (fp : Fingerprint) (e : PeerEntry), w.handler.peers[fp]? = some e →
      e.state.status = .connected ∨ e.state.status = .failed →
      ∃ t, e.lastUsed = some t ∧ ∀ idleTimeout now, t + idleTimeout ≤ now →
        (w.handler.reapIdle idleTimeout now).2.status fp = some .disconnected) ∧
    ∀ a w', w.perform hash a = some w' → (w'.handler.Aged ↔ w.Timely a) := by
  have ha : w.handler.Aged := by
    refine hr.invariant (I := fun w => w.handler.Aged) (fun w hw fp e he => ?_) fun w a w' ha hs =>
      (aged_perform ha hs.1).mpr hs.2
    rw [hw] at he
    simp [new, McpHandler.empty] at he
  refine ⟨fun fp e he hrunning => ?_, fun a w' hp => aged_perform ha hp⟩
  obtain ⟨t, ht⟩ := Option.isSome_iff_exists.mp (ha fp e he hrunning)
  exact ⟨t, ht, fun idleTimeout now hnow => McpHandler.reapIdle_stops he hrunning ht hnow⟩

/-! ## A call that outlives its server -/

/-- A server is called, fails, and is stopped ten minutes later. -/
theorem reaper_finds_instance : ∃ w : McpSystem, w.handler.status 1 = some .failed ∧
    ∃ t, ∀ now, t + 10 ≤ now → (w.handler.reapIdle 10 now).2.status 1 = some .disconnected := by
  let acts : List Act := [.register ['a'] searchServer, .ensureConnected ['a'] [['s']],
      .enterGate 0, .settle 0 (.ok [['t']]) 5,
    .call 1 ['t'] 7, .startCall 0, .endCall 0 (some ['e'])]
  have h₀ : Reachable (· = new) (fun w a w' => w.perform byLength a = some w' ∧ w.Timely a) new := .first rfl
  obtain ⟨w, hr, hs⟩ := h₀.exists_careful_run (l := acts) (f := perform byLength) (C := Timely)
    (P := fun w => w.handler.status 1 = some .failed) (fun _ _ _ hp hc => ⟨hp, hc⟩)
      (by decide +kernel)
  obtain ⟨e, he, hfailed⟩ := Option.map_eq_some_iff.mp hs
  obtain ⟨t, -, hstop⟩ := (reaper_finds hr).1 1 e he (.inr hfailed)
  exact ⟨w, hs, t, fun now => hstop 10 now⟩

/-- A call is still under way when its server is stopped for being idle; then it fails. The reaper
never looks at the peer again. -/
theorem failed_for_good : ∃ w : McpSystem,
    Reachable (· = new) (fun w a w' => w.perform byLength a = some w' ∧ Paced 10 a) w ∧ w.ops = [] ∧
      ∃ e, w.handler.peers[(1 : Fingerprint)]? = some e ∧ e.state.status = .failed ∧
      e.lastUsed = none ∧
        ∀ now, (w.handler.reapIdle 10 now).2.status 1 = some .failed := by
  let acts : List Act := [.register ['a'] searchServer, .ensureConnected ['a'] [['s']],
      .enterGate 0, .settle 0 (.ok [['t']]) 5,
    .call 1 ['t'] 7, .startCall 0, .reapIdle 10 20, .endCall 0 (some ['e']), .removeServer 0]
  have h₀ : Reachable (· = new) (fun w a w' => w.perform byLength a = some w' ∧ Paced 10 a) new := .first rfl
  obtain ⟨w, hr, hdone, hs⟩ := h₀.exists_careful_run (l := acts) (f := perform byLength)
      (C := fun _ => Paced 10)
    (P := fun w => w.ops = [] ∧ w.handler.peers[(1 : Fingerprint)]?.map
      (fun e => (e.state.status, e.lastUsed)) = some (.failed, none))
    (fun _ _ _ hp hc => ⟨hp, hc⟩) (by decide +kernel)
  obtain ⟨e, he, heq⟩ := Option.map_eq_some_iff.mp hs
  obtain ⟨hfailed, hused⟩ := Prod.mk.inj heq
  refine ⟨w, hr, hdone, e, he, hfailed, hused, fun now => ?_⟩
  rw [McpHandler.reapIdle_spares he hused, McpHandler.status_some he, hfailed]

end McpSystem

end Crabtalk.System

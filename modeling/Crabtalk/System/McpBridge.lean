import Crabtalk.Basis.WriteBehind
import Crabtalk.System.Mcp

/-! # Connections behind the declarations

The bridge holds the connections. An operation works on the declarations first
and on the bridge later, and whatever is done in between sees the one without
the other. The steps of an operation are those between its waits.
-/

open Basis Std

namespace Crabtalk.System

open Store

/-! ## The bridge -/

structure ConnectedPeer where
  id : Fingerprint
  tools : List Str
  live : Bool
  deriving DecidableEq

abbrev McpBridge := List ConnectedPeer

namespace McpBridge

def removeServer (b : McpBridge) (fp : Fingerprint) : McpBridge := b.filter fun p => p.id ≠ fp

/-- A call reaches the first connection of the peer, and so does its failure. -/
def breakPeer (fp : Fingerprint) : McpBridge → McpBridge
  | [] => []
  | p :: ps => if p.id = fp then { p with live := false } :: ps else p :: breakPeer fp ps

def held (b : McpBridge) (fp : Fingerprint) : McpBridge := b.filter fun p => p.id = fp

end McpBridge

/-! ## Operations under way -/

inductive Op
  | disconnect (fps : List Fingerprint)
  | reconnect (fp : Fingerprint)
  | awaitGate (fp : Fingerprint) (gate : Nat)
  | connect (fp : Fingerprint) (gate : Nat)
  | awaitBridge (fp : Fingerprint) (tool : Str)
  | callTool (fp : Fingerprint)
  deriving DecidableEq

namespace Op

def removals : Op → List Fingerprint
  | disconnect fps => fps
  | reconnect fp => [fp]
  | _ => []

def joining : Op → Option Fingerprint
  | connect fp _ => some fp
  | _ => none

def holds (gate : Nat) : Op → Bool
  | connect _ g => g == gate
  | _ => false

def calling : Op → Bool
  | callTool _ => true
  | _ => false

end Op

/-- The gate of a peer is made with its entry. The bridge is locked for as long as a call lasts. -/
structure McpSystem where
  handler : McpHandler
  gates : ExtTreeMap Fingerprint Nat
  nextGate : Nat
  bridge : McpBridge
  ops : List Op

namespace McpSystem

def new : McpSystem := ⟨.empty, ∅, 0, [], []⟩

def locked (w : McpSystem) : Bool := w.ops.any Op.calling

def goOn (w : McpSystem) (i : Nat) (next : Option Op) : McpSystem :=
  { w with ops := w.ops.take i ++ next.toList ++ w.ops.drop (i + 1) }

/-- `connect_peer` up to the gate. -/
def connectPeer (w : McpSystem) (fp : Fingerprint) : Option Op := w.handler.peers[fp]?.map fun _ =>
    .awaitGate fp (w.gates[fp]?.getD 0)

inductive Act
  | register (agent : Str) (cfg : McpServerConfig)
  | unregister (agent name : Str)
  | ensureConnected (agent : Str) (mcpNames : List Str)
  | reconnect (agent name : Str)
  | reapIdle (idleTimeout now : Nat)
  | call (fp : Fingerprint) (tool : Str) (now : Nat)
  | removeServer (i : Nat)
  | enterGate (i : Nat)
  | settle (i : Nat) (outcome : Except Str (List Str)) (now : Nat)
  | startCall (i : Nat)
  | endCall (i : Nat) (failure : Option Str)

/-- An operation starts, or the `i`-th of those under way gets what it waits for. -/
def perform (hash : Str × List Str × List (Str × Str) × Option Str × Option Str → Fingerprint)
    (w : McpSystem) : Act → Option McpSystem
  | .register agent cfg =>
    let fp := fingerprint hash cfg
    let (stale, handler) := w.handler.registerForAgent fp (agent, cfg.name) cfg
    some { w with
      handler
      gates := if w.handler.peers[fp]?.isNone then w.gates.insert fp w.nextGate else w.gates
      nextGate := w.nextGate + 1
      ops := w.ops ++ (stale.map fun old => .disconnect [old]).toList }
  | .unregister agent name =>
    let (dropped, handler) := w.handler.unregisterForAgent (agent, name)
    some { w with handler, ops := w.ops ++ (dropped.map fun fp => .disconnect [fp]).toList }
  | .ensureConnected agent mcpNames =>
    some { w with ops := w.ops ++ (w.handler.pending agent mcpNames).filterMap w.connectPeer }
  | .reconnect agent name =>
    match w.handler.byOwner[((agent, name) : OwnerKey)]? with
    | none => some w
    | some fp =>
      let (tracked, handler) := w.handler.resetPeer fp
      some { w with handler, ops := w.ops ++ if tracked then [.reconnect fp] else [] }
  | .reapIdle idleTimeout now =>
    let (expired, handler) := w.handler.reapIdle idleTimeout now
    some { w with handler, ops := w.ops ++ if expired = [] then [] else [.disconnect expired] }
  | .call fp tool now =>
    some { w with handler := w.handler.touch fp now, ops := w.ops ++ [.awaitBridge fp tool] }
  | .removeServer i =>
    if w.locked then none
    else
      match w.ops[i]? with
      | some (.disconnect (fp :: rest)) =>
        some ({ w with bridge := w.bridge.removeServer fp }.goOn i
          (if rest = [] then none else some (.disconnect rest)))
      | some (.reconnect fp) =>
        some ({ w with bridge := w.bridge.removeServer fp }.goOn i (w.connectPeer fp))
      | _ => none
  | .enterGate i =>
    match w.ops[i]? with
    | some (.awaitGate fp gate) =>
      if w.ops.any (·.holds gate) then none
      else
        let (starts, handler) := w.handler.startConnect fp
        some ({ w with handler }.goOn i (if starts then some (.connect fp gate) else none))
    | _ => none
  | .settle i outcome now =>
    match w.ops[i]? with
    | some (.connect fp _) =>
      match outcome with
      | .ok tools =>
        if w.locked then none
        else
          some
            ({ w with
                handler := w.handler.settle fp (.connected tools) now
                bridge := w.bridge ++ [ConnectedPeer.mk fp tools true] }.goOn i none)
      | .error message =>
        some ({ w with handler := w.handler.settle fp (.failed message) now }.goOn i none)
    | _ => none
  | .startCall i =>
    match w.ops[i]? with
    | some (.awaitBridge fp tool) =>
      if w.locked then none
      else
        match w.bridge.find? fun p => p.id = fp with
        | none => some (w.goOn i none)
        | some peer => some (w.goOn i (if tool ∈ peer.tools then some (.callTool fp) else none))
    | _ => none
  | .endCall i failure =>
    match w.ops[i]? with
    | some (.callTool fp) =>
      match failure with
      | none => some (w.goOn i none)
      | some message =>
        some
          ({ w with handler := w.handler.markFailed fp message, bridge := w.bridge.breakPeer fp }.goOn i none)
    | _ => none

def removals (w : McpSystem) : List Fingerprint := w.ops.flatMap Op.removals

end McpSystem

def McpHandler.status (h : McpHandler) (fp : Fingerprint) : Option ServerStatus :=
  h.peers[fp]?.map (·.state.status)

namespace McpSystem

/-- The last removal of a peer does not come after a connect that has made it connected, and a
connect that ends with no removal to come finds the peer declared and not connected by another. -/
def Careful (w : McpSystem) : Act → Prop
  | .removeServer i =>
    ∀ fp ∈ w.ops[i]?.bind fun op => op.removals.head?, w.removals.count fp = 1 →
      w.handler.status fp ≠ some .connected
  | .settle i outcome _ =>
    ∀ fp ∈ w.ops[i]?.bind Op.joining, fp ∉ w.removals → w.handler.status fp ≠ some .connected ∧
      (outcome.isOk = true → w.handler.status fp ≠ none ∧
        (w.handler.status fp = some .failed → w.bridge.held fp = []))
  | _ => True

instance (w : McpSystem) : ∀ a, Decidable (w.Careful a)
  | .removeServer i => Option.decidableForallMem (w.ops[i]?.bind fun op => op.removals.head?)
  | .settle i _ _ => Option.decidableForallMem (w.ops[i]?.bind Op.joining)
  | .register _ _ | .unregister _ _ | .ensureConnected _ _ | .reconnect _ _ | .reapIdle _ _ | .call
      _ _ _ | .enterGate _ | .startCall _
  | .endCall _ _ => instDecidableTrue

end McpSystem

/-! ## What the sections do to a status -/

namespace McpHandler

variable {h : McpHandler} {fp fp' : Fingerprint} {key : OwnerKey}

theorem status_insert (h : McpHandler) (fp fp' : Fingerprint) (e : PeerEntry) :
    status { h with peers := h.peers.insert fp e } fp' = if fp = fp' then some e.state.status
    else h.status fp' := by
  unfold status
  rw [find_insert]
  split <;> rfl

theorem status_some {e : PeerEntry} (he : h.peers[fp]? = some e) :
    h.status fp = some e.state.status := by
  unfold status
  rw [he]
  rfl

theorem status_none (he : h.peers[fp]? = none) : h.status fp = none := by
  unfold status
  rw [he]
  rfl

theorem release_status (h : McpHandler) (fp : Fingerprint) (key : OwnerKey) (fp' : Fingerprint) :
    (h.release fp key).1 = some fp' ∨ (h.release fp key).2.status fp' = h.status fp' := by
  unfold release
  split
  · exact .inr rfl
  · rename_i e he
    dsimp only
    split
    · by_cases hfp : fp = fp'
      · exact .inl (congrArg some hfp)
      · right
        unfold status
        rw [find_erase, if_neg hfp]
    · right
      rw [status_insert]
      split
      · rename_i hfp
        rw [← hfp, status_some he]
      · rfl

theorem claim_status (h : McpHandler) (fp : Fingerprint) (key : OwnerKey) (cfg : McpServerConfig)
    (fp' : Fingerprint) :
    (h.claim fp key cfg).status fp' = h.status fp' ∨
    (h.status fp' = none ∧ (h.claim fp key cfg).status fp' = some .disconnected) := by
  unfold claim
  split
  · rename_i e he
    left
    rw [status_insert]
    split
    · rename_i hfp
      rw [← hfp, status_some he]
    · rfl
  · rename_i he
    rw [status_insert]
    split
    · rename_i hfp
      exact .inr ⟨hfp ▸ status_none he, rfl⟩
    · exact .inl rfl

theorem registerForAgent_status (h : McpHandler) (fp : Fingerprint) (key : OwnerKey)
    (cfg : McpServerConfig) (fp' : Fingerprint) :
    (h.registerForAgent fp key cfg).1 = some fp' ∨ (h.registerForAgent fp key cfg).2.status fp' =
    h.status fp' ∨
      (h.status fp' = none ∧ (h.registerForAgent fp key cfg).2.status fp' = some .disconnected) := by
  have hbase : status { h with byOwner := h.byOwner.insert key fp } fp' = h.status fp' := rfl
  unfold registerForAgent
  dsimp only
  split
  · rename_i oldFp hold
    split
    · rcases release_status { h with byOwner := h.byOwner.insert key fp } oldFp key fp'
        with hstale | hsame
      · exact .inl hstale
      · right
        dsimp only
        rw [← hbase, ← hsame]
        exact claim_status _ fp key cfg fp'
    · exact .inr (claim_status _ fp key cfg fp')
  · exact .inr (claim_status _ fp key cfg fp')

theorem unregisterForAgent_status (h : McpHandler) (key : OwnerKey) (fp' : Fingerprint) :
    (h.unregisterForAgent key).1 = some fp' ∨ (h.unregisterForAgent key).2.status fp' =
    h.status fp' := by
  unfold unregisterForAgent
  split
  · exact .inr rfl
  · exact release_status _ _ key fp'

theorem startConnect_status (h : McpHandler) (fp fp' : Fingerprint) :
    (h.startConnect fp).2.status fp' = h.status fp' ∨
      (h.status fp' ≠ none ∧ h.status fp' ≠ some .connected ∧ h.status fp' ≠ some .failed ∧
        (h.startConnect fp).2.status fp' = some .connecting) := by
  unfold startConnect
  split
  · exact .inl rfl
  · rename_i e he
    split
    · exact .inl rfl
    · rename_i hidle
      rw [not_or] at hidle
      rw [status_insert]
      split
      · rename_i hfp
        rw [← hfp, status_some he]
        exact .inr ⟨Option.some_ne_none _, fun hs => hidle.1 (Option.some.inj hs),
          fun hs => hidle.2 (Option.some.inj hs), rfl⟩
      · exact .inl rfl

theorem settle_status (h : McpHandler) (fp : Fingerprint) (state : McpServerState) (now : Nat)
    (fp' : Fingerprint) :
    (h.settle fp state now).status fp' = if fp = fp' ∧ h.status fp' ≠ none then some state.status
    else h.status fp' := by
  unfold settle
  split
  · rename_i he
    rw [if_neg]
    intro ⟨hfp, hs⟩
    exact hs (hfp ▸ status_none he)
  · rename_i e he
    rw [status_insert]
    by_cases hfp : fp = fp'
    · subst hfp
      rw [status_some he, if_pos rfl, if_pos ⟨rfl, Option.some_ne_none _⟩]
    · rw [if_neg hfp, if_neg fun hs => hfp hs.1]

theorem reapIdle_status (h : McpHandler) (idleTimeout now : Nat) (fp : Fingerprint) :
    fp ∈ (h.reapIdle idleTimeout now).1 ∨ (h.reapIdle idleTimeout now).2.status fp = h.status fp := by
  unfold reapIdle status
  dsimp only
  rw [ExtTreeMap.getElem?_map]
  cases he : h.peers[fp]? with
  | none => exact .inr rfl
  | some e =>
    cases hex : e.expired idleTimeout now with
    | true =>
      left
      exact List.mem_map.mpr ⟨(fp, e),
        List.mem_filter.mpr ⟨ExtTreeMap.mem_toList_iff_getElem?_eq_some.mpr he, hex⟩, rfl⟩
    | false =>
      right
      simp [hex]

theorem resetPeer_status (h : McpHandler) (fp fp' : Fingerprint) :
    ((h.resetPeer fp).1 = true ∧ fp = fp') ∨ (h.resetPeer fp).2.status fp' = h.status fp' := by
  unfold resetPeer
  split
  · exact .inr rfl
  · rw [status_insert]
    split
    · rename_i hfp
      exact .inl ⟨rfl, hfp⟩
    · exact .inr rfl

theorem touch_status (h : McpHandler) (fp : Fingerprint) (now : Nat) (fp' : Fingerprint) :
    (h.touch fp now).status fp' = h.status fp' := by
  unfold touch
  split
  · rfl
  · rename_i e he
    rw [status_insert]
    split
    · rename_i hfp
      rw [← hfp, status_some he]
    · rfl

theorem markFailed_status (h : McpHandler) (fp : Fingerprint) (error : Str) (fp' : Fingerprint) :
    (h.markFailed fp error).status fp' = if fp = fp' ∧ h.status fp' ≠ none then some .failed
    else h.status fp' := by
  unfold markFailed
  split
  · rename_i he
    rw [if_neg]
    intro ⟨hfp, hs⟩
    exact hs (hfp ▸ status_none he)
  · rename_i e he
    by_cases hfailed : e.state.status = .failed
    · rw [if_pos hfailed]
      split
      · rename_i hfp
        rw [← hfp.1, status_some he, hfailed]
      · rfl
    · rw [if_neg hfailed, status_insert]
      by_cases hfp : fp = fp'
      · subst hfp
        rw [status_some he, if_pos rfl, if_pos ⟨rfl, Option.some_ne_none _⟩]
      · rw [if_neg hfp, if_neg fun hs => hfp hs.1]

end McpHandler

/-! ## What the bridge holds of a peer -/

namespace McpBridge

variable {b : McpBridge} {fp fp' : Fingerprint}

theorem held_removeServer (b : McpBridge) (fp fp' : Fingerprint) :
    (b.removeServer fp).held fp' = if fp = fp' then [] else b.held fp' := by
  unfold held removeServer
  rw [List.filter_filter]
  split
  · rename_i hfp
    subst hfp
    rw [List.filter_eq_nil_iff]
    intro p _
    simp
  · rename_i hfp
    apply List.filter_congr
    intro p _
    by_cases hp : p.id = fp'
    · subst hp
      simp [Ne.symm hfp]
    · simp [hp]

theorem held_append (b : McpBridge) (p : ConnectedPeer) (fp' : Fingerprint) :
    held (b ++ [p]) fp' = if p.id = fp' then b.held fp' ++ [p] else b.held fp' := by
  unfold held
  rw [List.filter_append]
  split <;> simp [*]

theorem breakPeer_cons (fp : Fingerprint) (p : ConnectedPeer) (ps : McpBridge) :
    breakPeer fp (p :: ps) = if p.id = fp then { p with live := false } :: ps
    else p :: breakPeer fp ps := rfl

theorem held_breakPeer (b : McpBridge) (fp fp' : Fingerprint) :
    (b.breakPeer fp).held fp' = if fp = fp' then (b.held fp').breakPeer fp else b.held fp' := by
  induction b with
  | nil => split <;> rfl
  | cons p ps ih =>
    rw [breakPeer_cons]
    by_cases hp : p.id = fp
    · by_cases hfp : fp = fp'
      · subst hfp
        simp [held, hp, breakPeer_cons]
      · have hne : p.id ≠ fp' := fun h => hfp (hp ▸ h)
        simp [held, hp, hfp]
    · rw [if_neg hp]
      unfold held at ih ⊢
      by_cases hp' : p.id = fp'
      · have hne : fp ≠ fp' := fun h => hp (h ▸ hp')
        rw [List.filter_cons_of_pos (by simpa using hp'),
          List.filter_cons_of_pos (by simpa using hp'), ih, if_neg hne, if_neg hne]
      · rw [List.filter_cons_of_neg (by simpa using hp'),
          List.filter_cons_of_neg (by simpa using hp'), ih]

theorem length_breakPeer (b : McpBridge) (fp : Fingerprint) : (b.breakPeer fp).length = b.length := by
  induction b with
  | nil => rfl
  | cons p ps ih =>
    rw [breakPeer_cons]
    split <;> simp [ih]

theorem dead_breakPeer (hd : ∀ p ∈ b, p.live = false) : ∀ p ∈ b.breakPeer fp, p.live = false := by
  induction b with
  | nil => exact hd
  | cons q ps ih =>
    rw [breakPeer_cons]
    have htail : ∀ p ∈ ps, p.live = false := fun p hp => hd p (List.mem_cons_of_mem _ hp)
    intro p hp
    split at hp
    · rcases List.mem_cons.mp hp with rfl | hp
      · rfl
      · exact htail p hp
    · rcases List.mem_cons.mp hp with rfl | hp
      · exact hd p List.mem_cons_self
      · exact ih htail p hp

theorem mem_held {p : ConnectedPeer} (hp : p ∈ b.held fp) : p.id = fp := by
  unfold held at hp
  simpa using (List.mem_filter.mp hp).2

end McpBridge

/-! ## Statuses and connections -/

namespace McpSystem

variable {hash : Str × List Str × List (Str × Str) × Option Str × Option Str → Fingerprint}
  {w w' : McpSystem} {a : Act} {i : Nat}
  {op : Op} {next : Option Op} {fp : Fingerprint} {handler : McpHandler} {b : McpBridge}
    {s : Option ServerStatus} {agent name : Str}
  {names : List Str} {cfg : McpServerConfig}

/-- What the bridge holds of a peer that no removal is to come for. -/
def Right : Option ServerStatus → McpBridge → Prop
  | some .connected, held => ∃ p, held = [p] ∧ p.live = true
  | some .failed, held => ∀ p ∈ held, p.live = false
  | _, held => held = []

theorem right_nil (hs : s ≠ some .connected) : Right s [] := by
  cases s with
  | none => rfl
  | some s =>
    cases s with
    | connected => exact absurd rfl hs
    | failed => exact fun p hp => (by cases hp)
    | _ => rfl

theorem Right.dead (hr : Right s b) (hs : s ≠ some .connected) : ∀ p ∈ b, p.live = false := by
  have hempty : b = [] → ∀ p ∈ b, p.live = false := by
    intro hb p hp
    rw [hb] at hp
    cases hp
  cases s with
  | none => exact hempty hr
  | some s =>
    cases s with
    | connected => exact absurd rfl hs
    | failed => exact hr
    | _ => exact hempty hr

theorem Right.eq_nil (hr : Right s b) (hs : s ≠ some .connected) (hf : s = some .failed → b = []) :
    b = [] := by
  cases s with
  | none => exact hr
  | some s =>
    cases s with
    | connected => exact absurd rfl hs
    | failed => exact hf rfl
    | _ => exact hr

/-- A peer with a connection that is called on is connected or failed, and failed once the call
has. -/
theorem Right.breakPeer (hr : Right s (b.held fp)) (hheld : b.held fp ≠ []) : s ≠ none ∧
    ∀ p ∈ (b.held fp).breakPeer fp, p.live = false := by
  cases s with
  | none => exact absurd hr hheld
  | some s =>
    refine ⟨Option.some_ne_none _, ?_⟩
    cases s with
    | connected =>
      obtain ⟨p, hp, -⟩ := hr
      have hid : p.id = fp := McpBridge.mem_held (hp ▸ List.mem_cons_self)
      intro q hq
      rw [hp, McpBridge.breakPeer_cons, if_pos hid] at hq
      rw [List.mem_singleton.mp hq]
    | failed => exact McpBridge.dead_breakPeer hr
    | _ => exact absurd hr hheld

structure Accounted (w : McpSystem) : Prop where
  right : ∀ fp ∉ w.removals, Right (w.handler.status fp) (w.bridge.held fp)
  called : ∀ fp, Op.callTool fp ∈ w.ops → w.bridge.held fp ≠ []

theorem removals_split (ht : w.ops[i]? = some op) :
    w.removals = (w.ops.take i).flatMap Op.removals ++
    (op.removals ++ (w.ops.drop (i + 1)).flatMap Op.removals) := by
  unfold removals
  conv_lhs => rw [take_cons_drop ht]
  rw [List.flatMap_append, List.flatMap_cons]

theorem removals_goOn (w : McpSystem) (i : Nat) (next : Option Op) : (w.goOn i next).removals =
    (w.ops.take i).flatMap Op.removals ++
    (next.toList.flatMap Op.removals ++ (w.ops.drop (i + 1)).flatMap Op.removals) := by
  unfold goOn removals
  simp only [List.flatMap_append, List.append_assoc]

theorem mem_goOn (h : op ∈ (w.goOn i next).ops) : op ∈ w.ops ∨ next = some op := by
  unfold goOn at h
  simp only [List.mem_append] at h
  rcases h with (h | h) | h
  · exact .inl (List.mem_of_mem_take h)
  · exact .inr (Option.mem_toList.mp h)
  · exact .inl (List.mem_of_mem_drop h)

theorem not_calling (hfree : ¬ w.locked = true) (fp : Fingerprint) : Op.callTool fp ∉ w.ops := by
  intro hm
  exact hfree (List.any_eq_true.mpr ⟨_, hm, rfl⟩)

/-! ### Operations start -/

/-- What a section makes of a status without a removal to follow. -/
def Keeps (h h' : McpHandler) (fp : Fingerprint) : Prop :=
  h'.status fp = h.status fp ∨ (h.status fp = none ∧ h'.status fp = some .disconnected)

theorem Keeps.right {h h' : McpHandler} (hk : Keeps h h' fp) (hr : Right (h.status fp) b) :
    Right (h'.status fp) b := by
  rcases hk with hsame | ⟨hnone, hnew⟩
  · exact hsame ▸ hr
  · rw [hnone] at hr
    rw [hnew]
    exact hr

theorem Accounted.start (h : w.Accounted) {ops : List Op} {gates : ExtTreeMap Fingerprint Nat}
    {nextGate : Nat}
    (hcalls : ∀ fp, Op.callTool fp ∉ ops) (hkeeps : ∀ fp, fp ∉ ops.flatMap Op.removals →
      Keeps w.handler handler fp) :
    Accounted { w with handler, gates, nextGate, ops := w.ops ++ ops } := by
  refine ⟨fun fp hfp => ?_, fun fp hfp => ?_⟩
  · have hfp : fp ∉ (w.ops ++ ops).flatMap Op.removals := hfp
    rw [List.flatMap_append, List.mem_append, not_or] at hfp
    exact (hkeeps fp hfp.2).right (h.right fp hfp.1)
  · rcases List.mem_append.mp hfp with hfp | hfp
    · exact h.called fp hfp
    · exact absurd hfp (hcalls fp)

theorem mem_disconnect {o : Option Fingerprint} (ho : o = some fp) :
    fp ∈ ((o.map fun old => Op.disconnect [old]).toList).flatMap Op.removals := by
  subst ho
  exact List.mem_singleton.mpr rfl

theorem callTool_notMem_disconnect (o : Option Fingerprint) (fp : Fingerprint) :
    Op.callTool fp ∉ (o.map fun old => Op.disconnect [old]).toList := by
  cases o <;> simp

theorem Accounted.register (h : w.Accounted) (hp : w.perform hash (.register agent cfg) = some w') :
    w'.Accounted := by
  cases hp
  refine h.start (callTool_notMem_disconnect _) fun fp hfp => ?_
  rcases McpHandler.registerForAgent_status w.handler _ (agent, cfg.name) cfg fp
    with hstale | hkeeps
  · exact absurd (mem_disconnect hstale) hfp
  · exact hkeeps

theorem Accounted.unregister (h : w.Accounted)
    (hp : w.perform hash (.unregister agent name) = some w') : w'.Accounted := by
  cases hp
  refine h.start (callTool_notMem_disconnect _) fun fp hfp => ?_
  rcases McpHandler.unregisterForAgent_status w.handler (agent, name) fp with hdropped | hsame
  · exact absurd (mem_disconnect hdropped) hfp
  · exact .inl hsame

theorem Accounted.ensureConnected (h : w.Accounted)
    (hp : w.perform hash (.ensureConnected agent names) = some w') : w'.Accounted := by
  cases hp
  refine h.start (fun fp hfp => ?_) fun fp _ => .inl rfl
  obtain ⟨x, -, hx⟩ := List.mem_filterMap.mp hfp
  obtain ⟨_, -, hx⟩ := Option.map_eq_some_iff.mp hx
  cases hx

theorem Accounted.reconnect (h : w.Accounted)
    (hp : w.perform hash (.reconnect agent name) = some w') : w'.Accounted := by
  dsimp only [perform] at hp
  split at hp
  · cases hp
    exact h
  · rename_i fp hfp
    cases hp
    refine h.start (fun fp hfp => ?_) fun fp' hfp' => ?_
    · split at hfp <;> simp at hfp
    · rcases McpHandler.resetPeer_status w.handler fp fp' with ⟨htracked, rfl⟩ | hsame
      · rw [if_pos htracked] at hfp'
        exact absurd (List.mem_singleton.mpr rfl) hfp'
      · exact .inl hsame

theorem Accounted.reapIdle (h : w.Accounted) {idleTimeout now : Nat}
    (hp : w.perform hash (.reapIdle idleTimeout now) = some w') :
    w'.Accounted := by
  cases hp
  refine h.start (fun fp hfp => ?_) fun fp hfp => ?_
  · split at hfp <;> simp at hfp
  · rcases McpHandler.reapIdle_status w.handler idleTimeout now fp with hexpired | hsame
    · have hfp : fp ∉ (if (w.handler.reapIdle idleTimeout now).1 = [] then []
        else [Op.disconnect (w.handler.reapIdle idleTimeout now).1]).flatMap Op.removals := hfp
      rw [if_neg (List.ne_nil_of_mem hexpired)] at hfp
      exact absurd (by simpa [Op.removals] using hexpired) hfp
    · exact .inl hsame

/-! ### Operations go on -/

theorem Accounted.goOn (h : w.Accounted) (ht : w.ops[i]? = some op) (hop : op.removals = [])
    (hnext : next.toList.flatMap Op.removals = [])
    (hcall : ∀ fp, next = some (.callTool fp) → w.bridge.held fp ≠ [])
    (hright : ∀ fp ∉ w.removals, Right (w.handler.status fp) (w.bridge.held fp) →
      Right (handler.status fp) (w.bridge.held fp)) :
    (({ w with handler } : McpSystem).goOn i next).Accounted := by
  refine ⟨fun fp hfp => ?_, fun fp hfp => ?_⟩
  · have hsame : (({ w with handler } : McpSystem).goOn i next).removals = w.removals := by
      rw [removals_goOn, removals_split ht, hop, hnext]
    rw [hsame] at hfp
    exact hright fp hfp (h.right fp hfp)
  · rcases mem_goOn hfp with hm | hm
    · exact h.called fp hm
    · exact hcall fp hm

theorem Accounted.removeServer (h : w.Accounted) (hfree : ¬ w.locked = true)
    (ht : w.ops[i]? = some op) {rest : List Fingerprint}
    (hop : op.removals = fp :: rest) (hnext : next.toList.flatMap Op.removals = rest)
    (hcall : ∀ fp, next ≠ some (.callTool fp))
    (hcare : w.removals.count fp = 1 → w.handler.status fp ≠ some .connected) :
    (({ w with bridge := w.bridge.removeServer fp } : McpSystem).goOn i next).Accounted := by
  refine ⟨fun fp' hfp' => ?_, fun fp' hfp' => ?_⟩
  · rw [removals_goOn, hnext] at hfp'
    have hbefore := removals_split ht
    rw [hop] at hbefore
    show Right (w.handler.status fp') ((w.bridge.removeServer fp).held fp')
    rw [McpBridge.held_removeServer]
    split
    · rename_i heq
      subst heq
      apply right_nil
      apply hcare
      -- no removal of the peer is left, so this was the only one
      have hleft := List.count_eq_zero.mpr hfp'
      rw [hbefore]
      simp only [List.count_append, List.count_cons_self, List.cons_append] at hleft ⊢
      omega
    · rename_i hne
      apply h.right
      rw [hbefore]
      intro hm
      apply hfp'
      simp only [List.mem_append, List.mem_cons] at hm ⊢
      rcases hm with hm | (hm | hm) | hm
      · exact .inl hm
      · exact absurd hm.symm hne
      · exact .inr (.inl hm)
      · exact .inr (.inr hm)
  · rcases mem_goOn hfp' with hm | hm
    · exact absurd hm (not_calling hfree fp')
    · exact absurd hm (hcall fp')

theorem Accounted.connected (h : w.Accounted) (hfree : ¬ w.locked = true) {gate now : Nat}
    {tools : List Str}
    (ht : w.ops[i]? = some (.connect fp gate)) (hcare : fp ∉ w.removals →
      w.handler.status fp ≠ some .connected ∧
      w.handler.status fp ≠ none ∧ (w.handler.status fp = some .failed → w.bridge.held fp = [])) :
    (({ w with
        handler := w.handler.settle fp (.connected tools) now
        bridge := w.bridge ++ [ConnectedPeer.mk fp tools true] } : McpSystem).goOn i none).Accounted := by
  refine ⟨fun fp' hfp' => ?_, fun fp' hfp' => ?_⟩
  · rw [removals_goOn] at hfp'
    have hnot : fp' ∉ w.removals := by
      rw [removals_split ht]
      exact hfp'
    have hright := h.right fp' hnot
    show Right ((w.handler.settle fp (.connected tools) now).status fp')
        (McpBridge.held (w.bridge ++ [ConnectedPeer.mk fp tools true]) fp')
    rw [McpHandler.settle_status, McpBridge.held_append]
    by_cases hfp : fp = fp'
    · subst hfp
      obtain ⟨hs, hdeclared, hfailed⟩ := hcare hnot
      rw [if_pos ⟨rfl, hdeclared⟩, if_pos rfl, hright.eq_nil hs hfailed]
      exact ⟨_, rfl, rfl⟩
    · rw [if_neg fun hs => hfp hs.1, if_neg hfp]
      exact hright
  · rcases mem_goOn hfp' with hm | hm
    · exact absurd hm (not_calling hfree fp')
    · cases hm

theorem Accounted.endCall (h : w.Accounted) (ht : w.ops[i]? = some (.callTool fp)) (message : Str) :
    (({ w with handler := w.handler.markFailed fp message, bridge := w.bridge.breakPeer fp } :
      McpSystem).goOn i none).Accounted := by
  have hheld := h.called fp (List.mem_of_getElem? ht)
  refine ⟨fun fp' hfp' => ?_, fun fp' hfp' => ?_⟩
  · rw [removals_goOn] at hfp'
    have hnot : fp' ∉ w.removals := by
      rw [removals_split ht]
      exact hfp'
    have hright := h.right fp' hnot
    show Right ((w.handler.markFailed fp message).status fp') ((w.bridge.breakPeer fp).held fp')
    rw [McpHandler.markFailed_status, McpBridge.held_breakPeer]
    by_cases hfp : fp = fp'
    · subst hfp
      obtain ⟨hdeclared, hdead⟩ := hright.breakPeer hheld
      rw [if_pos ⟨rfl, hdeclared⟩, if_pos rfl]
      exact hdead
    · rw [if_neg fun hs => hfp hs.1, if_neg hfp]
      exact hright
  · rcases mem_goOn hfp' with hm | hm
    · have hbefore := h.called fp' hm
      show (w.bridge.breakPeer fp).held fp' ≠ []
      rw [McpBridge.held_breakPeer]
      split
      · intro hnil
        have hlen := McpBridge.length_breakPeer (w.bridge.held fp') fp
        rw [hnil] at hlen
        exact hbefore (List.eq_nil_of_length_eq_zero hlen.symm)
      · exact hbefore
    · cases hm

/-! ### Every run -/

theorem Accounted.settle (h : w.Accounted) {outcome : Except Str (List Str)} {now : Nat}
    (hp : w.perform hash (.settle i outcome now) = some w')
    (hc : w.Careful (.settle i outcome now)) : w'.Accounted := by
  dsimp only [perform] at hp
  split at hp
  · rename_i fp gate ht
    have hjoining : fp ∈ w.ops[i]?.bind Op.joining := by
      rw [ht]
      rfl
    cases outcome with
    | ok tools =>
      dsimp only at hp
      split at hp
      · cases hp
      · rename_i hfree
        cases hp
        refine h.connected hfree ht fun hnot => ?_
        obtain ⟨hs, hok⟩ := hc fp hjoining hnot
        exact ⟨hs, hok rfl⟩
    | error message =>
      cases hp
      refine h.goOn ht rfl rfl (fun _ hn => (by cases hn)) fun fp' hnot hright => ?_
      rw [McpHandler.settle_status]
      split
      · rename_i hfp
        obtain ⟨rfl, -⟩ := hfp
        exact hright.dead (hc fp hjoining hnot).1
      · exact hright
  · cases hp

theorem Accounted.perform (h : w.Accounted) (hp : w.perform hash a = some w') (hc : w.Careful a) :
    w'.Accounted := by
  cases a with
  | register agent cfg => exact h.register hp
  | unregister agent name => exact h.unregister hp
  | ensureConnected agent names => exact h.ensureConnected hp
  | reconnect agent name => exact h.reconnect hp
  | reapIdle idleTimeout now => exact h.reapIdle hp
  | call fp tool now =>
    cases hp
    exact h.start (fun _ hm => (by simp at hm)) fun fp' _ =>
      .inl (McpHandler.touch_status _ _ _ fp')
  | removeServer i =>
    dsimp only [McpSystem.perform] at hp
    split at hp
    · cases hp
    · rename_i hfree
      split at hp
      · rename_i fp rest ht
        cases hp
        refine h.removeServer hfree ht rfl ?_ ?_ (hc fp (by rw [ht]; rfl))
        · split
          · rename_i hrest
            rw [hrest]
            rfl
          · exact List.append_nil rest
        · intro fp' hn
          split at hn <;> cases hn
      · rename_i fp ht
        cases hp
        refine h.removeServer hfree ht rfl ?_ ?_ (hc fp (by rw [ht]; rfl))
        · unfold connectPeer
          cases w.handler.peers[fp]? <;> rfl
        · intro fp' hn
          obtain ⟨_, -, hn⟩ := Option.map_eq_some_iff.mp hn
          cases hn
      · cases hp
  | enterGate i =>
    dsimp only [McpSystem.perform] at hp
    split at hp
    · rename_i fp gate ht
      split at hp
      · cases hp
      · cases hp
        refine h.goOn ht rfl ?_ ?_ fun fp' _ hright => ?_
        · split <;> rfl
        · intro fp' hn
          split at hn <;> cases hn
        -- a peer that starts to connect had no connection to hold
        · rcases McpHandler.startConnect_status w.handler fp fp'
            with hsame | ⟨hdeclared, hs, hf, hconnecting⟩
          · exact hsame ▸ hright
          · rw [hconnecting]
            exact hright.eq_nil hs fun hfailed => absurd hfailed hf
    · cases hp
  | settle i outcome now => exact h.settle hp hc
  | startCall i =>
    dsimp only [McpSystem.perform] at hp
    split at hp
    · rename_i fp tool ht
      split at hp
      · cases hp
      · split at hp
        · cases hp
          exact h.goOn ht rfl rfl (fun _ hn => (by cases hn)) fun _ _ hright => hright
        · rename_i peer hpeer
          cases hp
          refine h.goOn ht rfl ?_ ?_ fun _ _ hright => hright
          · split <;> rfl
          · intro fp' hn hnil
            split at hn
            · cases hn
              -- a call goes out on a peer, so one is held
              have hmem : peer ∈ w.bridge.held fp :=
                List.mem_filter.mpr ⟨List.mem_of_find?_eq_some hpeer,
                  by simpa using List.find?_some hpeer⟩
              rw [hnil] at hmem
              cases hmem
            · cases hn
    · cases hp
  | endCall i failure =>
    dsimp only [McpSystem.perform] at hp
    split at hp
    · rename_i fp ht
      cases failure with
      | none =>
        cases hp
        exact h.goOn ht rfl rfl (fun _ hn => (by cases hn)) fun _ _ hright => hright
      | some message =>
        cases hp
        exact h.endCall ht message
    · cases hp

/-- With nothing under way, a peer has one live connection when it is connected and none
otherwise. -/
theorem connections_match (hr : Reachable (· = new) (fun w a w' => w.perform hash a = some w' ∧
    w.Careful a) w) (hdone : w.ops = [])
    (fp : Fingerprint) : ((w.bridge.held fp).filter (·.live)).length = if w.handler.status fp =
    some .connected then 1 else 0 := by
  have h : w.Accounted := by
    refine hr.invariant (fun w hw => ?_) fun w a w' h hs => h.perform hs.1 hs.2
    rw [hw]
    refine ⟨fun fp _ => ?_, fun fp hm => (by cases hm)⟩
    rw [McpHandler.status_none ExtTreeMap.getElem?_empty]
    rfl
  have hright : Right (w.handler.status fp) (w.bridge.held fp) := by
    apply h.right
    unfold removals
    rw [hdone]
    exact List.not_mem_nil
  split
  · rename_i hs
    rw [hs] at hright
    obtain ⟨p, hp, hlive⟩ := hright
    rw [hp, List.filter_cons_of_pos hlive]
    rfl
  · rename_i hs
    rw [List.length_eq_zero_iff, List.filter_eq_nil_iff]
    intro p hp
    rw [hright.dead hs p hp]
    exact Bool.false_ne_true

/-! ## Two orders -/

def byLength (c : Str × List Str × List (Str × Str) × Option Str × Option Str) : Fingerprint :=
  UInt64.ofNat c.1.length

def searchServer : McpServerConfig := ⟨['s'], ['x'], [], [], true, none, none⟩

/-- A server is connected, and connected again. -/
theorem connections_match_instance : ∃ w : McpSystem, w.handler.status 1 = some .connected ∧
    ((w.bridge.held 1).filter (·.live)).length = if w.handler.status 1 = some .connected
    then 1 else 0 := by
  let acts : List Act := [.register ['a'] searchServer, .ensureConnected ['a'] [['s']],
      .enterGate 0, .settle 0 (.ok [['t']]) 5,
    .reconnect ['a'] ['s'], .removeServer 0, .enterGate 0, .settle 0 (.ok [['t']]) 9]
  have h₀ : Reachable (· = new) (fun w a w' => w.perform byLength a = some w' ∧ w.Careful a) new := .first rfl
  obtain ⟨w, hr, hdone, hs⟩ := h₀.exists_careful_run (l := acts) (f := perform byLength) (C := Careful)
    (P := fun w => w.ops = [] ∧ w.handler.status 1 = some .connected) (fun _ _ _ hp hc => ⟨hp, hc⟩)
      (by decide +kernel)
  exact ⟨w, hs, connections_match hr hdone 1⟩

/-- The server is taken back while it is being connected. -/
theorem connected_undeclared :
    ∃ w : McpSystem, Reachable (· = new) (fun w a w' => w.perform byLength a = some w') w ∧ w.ops = [] ∧
    w.handler.status 1 = none ∧ ((w.bridge.held 1).filter (·.live)).length = 1 := by
  let acts : List Act := [.register ['a'] searchServer, .ensureConnected ['a'] [['s']],
      .enterGate 0, .unregister ['a'] ['s'],
    .removeServer 1, .settle 0 (.ok [['t']]) 5]
  have h₀ : Reachable (· = new) (fun w a w' => w.perform byLength a = some w') new := .first rfl
  exact h₀.exists_run (l := acts) (f := perform byLength) (fun _ _ _ hp => hp) (by decide +kernel)

end McpSystem

end Crabtalk.System

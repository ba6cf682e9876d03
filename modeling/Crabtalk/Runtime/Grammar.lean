import Crabtalk.Runtime.Pairing

/-! # The order of a run's events

The brackets a consumer relies on, as the phases of a reader. -/

open Crabtalk.Store

namespace Crabtalk.Runtime

variable {η β μ : Type}

/-- Where a reader of the events stands: inside a segment, waiting for the results of
the calls in `owed`, past the end, or none of these. -/
inductive Phase
  | idle
  | text
  | thinking
  | tools (owed : List Str)
  | finished
  deriving DecidableEq

/-- What may come next. A run may only end with results owed when it was cancelled. -/
def Phase.next : Phase → AgentEvent μ → Option Phase
  | .idle, .textStart => some .text
  | .idle, .thinkingStart => some .thinking
  | .idle, .toolCallsStart calls => some (.tools (calls.map ToolCall.id))
  | .idle, .contextUsage _ => some .idle
  | .idle, .done _ => some .finished
  | .text, .textDelta _ => some .text
  | .text, .textEnd => some .idle
  | .thinking, .thinkingDelta _ => some .thinking
  | .thinking, .thinkingEnd => some .idle
  | .idle, .toolCallsBegin _ => some .idle
  | .text, .toolCallsBegin _ => some .text
  | .thinking, .toolCallsBegin _ => some .thinking
  | .tools owed, .toolResult callId _ _ =>
    if callId ∈ owed then some (.tools (owed.erase callId)) else none
  | .tools [], .toolCallsComplete => some .idle
  | .tools _, .done response => if response.stopReason = .cancelled then some .finished else none
  | _, _ => none

/-- The events lead the reader from one phase to another. -/
def Leads (p : Phase) (events : List (AgentEvent μ)) (q : Phase) : Prop :=
  events.foldlM Phase.next p = some q

section
variable {p q r : Phase} {a b : List (AgentEvent μ)}

theorem Leads.nil : Leads p ([] : List (AgentEvent μ)) p := rfl

theorem Leads.append (ha : Leads p a q) (hb : Leads q b r) : Leads p (a ++ b) r := by
  unfold Leads at *
  rw [List.foldlM_append, ha]
  exact hb

theorem Leads.cons {e : AgentEvent μ} (he : p.next e = some q) (hb : Leads q b r) :
    Leads p (e :: b) r := by
  unfold Leads at *
  rw [List.foldlM_cons, he]
  exact hb

theorem Leads.one {e : AgentEvent μ} (he : p.next e = some q) : Leads p [e] q := .cons he .nil

end

def AgentEvent.isDone : AgentEvent μ → Bool
  | .done _ => true
  | _ => false

theorem next_finished {p : Phase} {e : AgentEvent μ} {q : Phase} (h : p.next e = some q) :
    e.isDone = true ↔ q = .finished := by
  unfold Phase.next at h
  split at h <;> try (cases h <;> simp [AgentEvent.isDone])
  · split at h
    · cases h
      simp [AgentEvent.isDone]
    · cases h
  · split at h
    · cases h
      simp [AgentEvent.isDone]
    · cases h

/-- A reader at the end has read one `Done`, and nothing behind it. -/
theorem Leads.done : ∀ {events : List (AgentEvent μ)} {p : Phase}, p ≠ .finished →
    Leads p events .finished →
    ∃ before response, events = before ++ [.done response] ∧ ∀ e ∈ before, e.isDone = false
  | [], p, hp, h => absurd (Option.some.inj h) hp
  | e :: events, p, hp, h => by
    unfold Leads at h
    rw [List.foldlM_cons] at h
    cases hn : p.next e with
    | none => rw [hn] at h; cases h
    | some q =>
      rw [hn] at h
      have h : Leads q events .finished := h
      by_cases hq : q = .finished
      · subst hq
        have hd := (next_finished hn).mpr rfl
        cases events with
        | nil =>
          cases e with
          | done response => exact ⟨[], response, rfl, fun _ hx => by cases hx⟩
          | _ => cases hd
        | cons e' events =>
          unfold Leads at h
          rw [List.foldlM_cons] at h
          cases e' <;> cases h
      · obtain ⟨before, response, rfl, hb⟩ := Leads.done hq h
        refine ⟨e :: before, response, rfl, fun x hx => ?_⟩
        rcases List.mem_cons.mp hx with rfl | hx
        · exact Bool.eq_false_iff.mpr fun hd => hq ((next_finished hn).mp hd)
        · exact hb x hx

/-! ## The stream of one round -/

def OpenSegment.phase : OpenSegment → Phase
  | .none => .idle
  | .text => .text
  | .thinking => .thinking

theorem leads_closeSegment (seg : OpenSegment) :
    Leads seg.phase (closeSegment seg : List (AgentEvent μ)) .idle := by
  cases seg <;> exact rfl

theorem leads_openSegment {wanted seg : OpenSegment} {start : AgentEvent μ}
    (h : Phase.idle.next start = some wanted.phase) :
    Leads seg.phase (openSegment wanted start seg) wanted.phase := by
  rw [openSegment]
  split
  · exact (leads_closeSegment seg).append (.one h)
  · rename_i he
    rw [not_not.mp he]
    exact .nil

theorem leads_onDelta (st : Streaming β) (v : Streamed) :
    Leads st.seg.phase (onDelta st v : Streaming β × List (AgentEvent μ)).2
    (onDelta st v : Streaming β × List (AgentEvent μ)).1.seg.phase := by
  cases v with
  | text text => exact (leads_openSegment rfl).append (.one rfl)
  | thinking thinking =>
    rw [onDelta]
    split
    · exact .nil
    · exact (leads_openSegment rfl).append (.one rfl)
  | delta stopReason usage => exact .nil
  | other => exact .nil

variable [AgentWire μ] (c : Codec η β μ)

theorem leads_onEvent (st : Streaming β) (event : η) :
    Leads st.seg.phase (onEvent c st event).2 (onEvent c st event).1.seg.phase := by
  have h := leads_onDelta (μ := μ) st (c.view event)
  rw [onEvent]
  simp only
  split
  · refine h.append (.one ?_)
    cases (onDelta st (c.view event) : Streaming β × List (AgentEvent μ)).1.seg <;> rfl
  · exact h

theorem leads_onEvents : ∀ (events : List η) (st : Streaming β),
    Leads st.seg.phase (onEvents c st events).2 (onEvents c st events).1.seg.phase
  | [], _ => .nil
  | event :: events, st => (leads_onEvent c st event).append (leads_onEvents events _)

/-! ## The tools of one round -/

omit [AgentWire μ] in
theorem leads_results (r : Round η) (calls : List ToolCall) :
    ∀ (idxs rest running : List Nat) (owed : List Str),
    (idxs ++ rest).Perm running → (∀ i ∈ running, i < calls.length) →
    owed.Perm (running.filterMap fun i => calls[i]?.map ToolCall.id) →
    ∃ owed', Leads (.tools owed) (idxs.filterMap (resultEvent r calls) : List (AgentEvent μ))
    (.tools owed') ∧
      owed'.Perm (rest.filterMap fun i => calls[i]?.map ToolCall.id)
  | [], rest, running, owed, hp, _, ho => ⟨owed, .nil, ho.trans (hp.symm.filterMap _)⟩
  | idx :: idxs, rest, running, owed, hp, hr, ho => by
    have hlt : idx < calls.length := hr idx (hp.mem_iff.mp (by simp))
    have hcall : calls[idx]? = some calls[idx] := List.getElem?_eq_getElem hlt
    have hperm : owed.Perm (calls[idx].id :: (idxs ++ rest).filterMap fun i =>
        calls[i]?.map ToolCall.id) := by
      refine ho.trans ((hp.symm.filterMap _).trans ?_)
      rw [List.cons_append, List.filterMap_cons, hcall]
      exact .refl _
    have hmem : calls[idx].id ∈ owed := hperm.mem_iff.mpr List.mem_cons_self
    have herase : (owed.erase calls[idx].id).Perm
        ((idxs ++ rest).filterMap fun i => calls[i]?.map ToolCall.id) :=
      (hperm.erase _).trans (by rw [List.erase_cons_head])
    obtain ⟨owed', hl, ho'⟩ := leads_results r calls idxs rest (idxs ++ rest) _ (.refl _)
      (fun i hi => hr i (hp.mem_iff.mp (List.mem_cons_of_mem _ hi))) herase
    refine ⟨owed', ?_, ho'⟩
    rw [List.filterMap_cons, resultEvent, hcall]
    refine .cons ?_ hl
    show (if calls[idx].id ∈ owed then _ else _) = _
    rw [if_pos hmem]

omit [AgentWire μ] in
theorem leads_finished (r : Round η) (calls : List ToolCall) : ∃ owed,
    Leads (.tools (calls.map ToolCall.id)) ((finished r calls).filterMap (resultEvent r calls) :
      List (AgentEvent μ)) (.tools owed) ∧
      (interrupted r calls = false → owed = []) := by
  have hall : (calls.map ToolCall.id).Perm
      ((List.range calls.length).filterMap fun i => calls[i]?.map ToolCall.id) := by
    have : ∀ l : List ToolCall, (List.range l.length).filterMap (fun i => l[i]?.map ToolCall.id) =
        l.map ToolCall.id := by
      intro l
      induction l with
      | nil => rfl
      | cons a l ih =>
        rw [List.length_cons, List.range_succ_eq_map, List.filterMap_cons]
        simp only [List.getElem?_cons_zero, Option.map_some, List.filterMap_map, List.map_cons]
        refine congrArg _ (Eq.trans ?_ ih)
        exact List.filterMap_congr fun i _ => by simp
    rw [this]
  have hrange : ∀ i ∈ List.range calls.length, i < calls.length := fun i hi => List.mem_range.mp hi
  have horder := completions_perm r.choose calls.length (List.range calls.length) List.length_range
  have hsplit : ∃ rest, (finished r calls ++ rest).Perm (List.range calls.length) := by
    rw [finished]
    cases r.cancelAt with
    | none => exact ⟨[], by rw [List.append_nil]; exact horder⟩
    | some k => exact ⟨_, by rw [List.take_append_drop]; exact horder⟩
  obtain ⟨rest, hrest⟩ := hsplit
  obtain ⟨owed, hl, ho⟩ := leads_results (μ := μ) r calls _ rest _ _ hrest hrange hall
  refine ⟨owed, hl, fun hi => ?_⟩
  have hlen := hrest.length_eq
  rw [List.length_append, (finished_perm hi).length_eq] at hlen
  have : rest = [] := List.eq_nil_of_length_eq_zero (by omega)
  subst this
  exact List.Perm.eq_nil ho

/-! ## The run -/

omit [AgentWire μ] in
theorem emitted_append (a b : List (Act μ)) : emitted (a ++ b) = emitted a ++ emitted b :=
  List.filterMap_append

omit [AgentWire μ] in
@[simp] theorem emitted_emits :
    ∀ events : List (AgentEvent μ), emitted (events.map Act.emit) = events
  | [] => rfl
  | e :: events => congrArg (e :: ·) (emitted_emits events)

omit [AgentWire μ] in
@[simp] theorem emitted_dispatches (r : Round η) (calls : List ToolCall) (sender : Str) :
    emitted (dispatches r calls sender : List (Act μ)) = [] := by
  rw [dispatches]
  split
  · rfl
  · refine List.filterMap_eq_nil_iff.mpr fun a ha => ?_
    obtain ⟨call, -, rfl⟩ := List.mem_map.mp ha
    rfl

omit [AgentWire μ] in
theorem leads_surfaceUsage (usage : Usage) :
    Leads .idle (emitted (surfaceUsage usage : List (Act μ))) .idle := by
  rw [surfaceUsage]
  split
  · exact .one rfl
  · exact .nil

theorem emitted_partialText (message : μ) : emitted (partialText message) = [] := by
  rw [partialText]
  split <;> rfl

/-- What the rest of a round leads to: the end, or the next round. -/
def Carries (o : List (Act μ) × Option (Loop μ)) : Prop :=
  Leads .idle (emitted o.1) (if o.2.isSome then .idle else .finished)

theorem dispatchRound_carries (model : Str) (r : Round η) (s : Loop μ) (st : Streaming β) :
    Carries (dispatchRound c model r s st) := by
  rw [dispatchRound]
  split
  · exact .one rfl
  · simp only
    split
    · exact .one rfl
    · split
      · show Leads .idle (emitted (surfaceUsage _ ++ [finish _ _ _ _])) .finished
        rw [emitted_append]
        exact (leads_surfaceUsage _).append (.one rfl)
      · obtain ⟨owed, hl, ho⟩ := leads_finished (μ := μ) r (c.toolCalls st.builder)
        have hstart : Leads .idle (emitted (.emit (.toolCallsStart (c.toolCalls st.builder)) ::
            dispatches r (c.toolCalls st.builder) (lastSender s.history) ++
            ((finished r (c.toolCalls st.builder)).filterMap
              (resultEvent r (c.toolCalls st.builder))).map Act.emit : List (Act μ)))
            (.tools owed) := by
          rw [List.cons_append]
          show Leads .idle (.toolCallsStart _ :: emitted (_ ++ _)) _
          rw [emitted_append, emitted_dispatches, emitted_emits, List.nil_append]
          exact .cons rfl hl
        by_cases hi : interrupted r (c.toolCalls st.builder)
        · rw [if_pos hi, Carries, emitted_append]
          refine hstart.append (.one ?_)
          cases owed <;> rfl
        · rw [if_neg hi, buffered_eq (by simpa using hi), Carries, emitted_append]
          rw [ho (by simpa using hi)] at hstart
          refine hstart.append ?_
          show Leads (.tools []) (.toolCallsComplete :: emitted (surfaceUsage _)) .idle
          exact .cons rfl (leads_surfaceUsage _)

theorem roundActs_carries (model : Str) (r : Round η) (s : Loop μ) :
    Carries (roundActs c model r s) := by
  have hstream : Leads .idle ((onEvents c (Streaming.new c) r.events).2 ++
      closeSegment (onEvents c (Streaming.new c) r.events).1.seg) .idle :=
    (leads_onEvents c r.events (Streaming.new c)).append (leads_closeSegment _)
  have hemit : ∀ acts : List (Act μ), emitted
      (.request s.history :: ((onEvents c (Streaming.new c) r.events).2 ++
      closeSegment (onEvents c (Streaming.new c) r.events).1.seg).map Act.emit ++ acts) =
      ((onEvents c (Streaming.new c) r.events).2 ++ closeSegment
        (onEvents c (Streaming.new c) r.events).1.seg) ++ emitted acts := by
    intro acts
    rw [emitted_append]
    show emitted (List.map Act.emit _) ++ _ = _
    rw [emitted_emits]
  cases h : r.ending with
  | cancelled =>
    rw [Carries, roundActs, h]
    simp only [List.append_assoc _ (partialText _)]
    rw [hemit, emitted_append, emitted_partialText]
    exact hstream.append (.one rfl)
  | error e =>
    rw [Carries, roundActs, h]
    simp only
    rw [hemit]
    exact hstream.append (.one rfl)
  | closed =>
    rw [Carries, roundActs, h]
    simp only
    rw [hemit]
    exact hstream.append (dispatchRound_carries c model r s _)

theorem runRounds_leads (model : Str) (script : Nat → Round η) : ∀ (n i : Nat) (s : Loop μ),
    Leads .idle (emitted (runRounds c model script n i s)) .finished
  | 0, _, _ => .one rfl
  | n + 1, i, s => by
    have h := roundActs_carries c model (script i) s
    rw [runRounds]
    split
    · rename_i acts heq
      rw [heq] at h
      exact h
    · rename_i acts s' heq
      rw [heq] at h
      rw [emitted_append]
      exact Leads.append h (runRounds_leads model script n (i + 1) s')

/-- The events of a run read to its end keep the brackets; there is one `Done`, at the end. -/
theorem events_grammatical (model : Str) (maxIterations : Nat) (script : Nat → Round η)
    (history : List (HistoryEntry μ)) :
    Leads .idle (emitted (runStream c model maxIterations script history)) .finished ∧
      ∃ before response, emitted (runStream c model maxIterations script history) =
      before ++ [.done response] ∧
        ∀ e ∈ before, e.isDone = false := by
  have h := runRounds_leads c model script maxIterations 0 ⟨history, []⟩
  exact ⟨h, h.done (by decide)⟩

/-- Two rounds with a tool each, until no more are allowed. -/
theorem events_grammatical_instance :
    Leads .idle (emitted (runStream Plain.codec [] 2 Plain.asking [])) .finished ∧
      (emitted (runStream Plain.codec [] 2 Plain.asking [])).countP AgentEvent.isDone = 1 ∧
      (emitted (runStream Plain.codec [] 2 Plain.asking [])).length = 9 :=
  ⟨(events_grammatical Plain.codec [] 2 Plain.asking []).1, by decide, by decide⟩

end Crabtalk.Runtime

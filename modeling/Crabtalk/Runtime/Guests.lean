import Crabtalk.Runtime.Batch
import Crabtalk.Runtime.Grammar

/-! # The events of a guest's turn

A guest answers in a loop of its own, beside the agent's. It reads the
provider's stream to its end or to its first failure and passes the deltas on.
-/

open Basis
open Crabtalk.Store

namespace Crabtalk.Runtime

variable {μ : Type}

/-! ## The stream of a guest -/

inductive Heard
  | text (text : Str)
  | thinking (thinking : Str)
  | messageDelta (stopReason : Option Str)
  | messageStop
  | other

def Heard.speaks : Heard → Bool
  | .text _ | .thinking _ => true
  | _ => false

structure Listening where
  responseText : Str
  reasoning : Str
  truncated : Bool
  sawStop : Bool

def Listening.new : Listening := ⟨[], [], false, false⟩

def hear (st : Listening) : Heard → Listening × List (AgentEvent μ)
  | .text text => ({ st with responseText := st.responseText ++ text }, [.textDelta text])
  | .thinking thinking => ({ st with reasoning := st.reasoning ++ thinking },
      [.thinkingDelta thinking])
  | .messageDelta stopReason =>
    ({ st with
      sawStop := st.sawStop || stopReason.isSome
      truncated := st.truncated || decide (stopReason = some "max_tokens".toList) }, [])
  | .messageStop => ({ st with sawStop := true }, [])
  | .other => (st, [])

def listen : Listening → List (Except Str Heard) → Except Str Listening × List (AgentEvent μ)
  | st, [] => (.ok st, [])
  -- a connection that closes after the turn was complete is no failure
  | st, .error e :: _ => (if st.sawStop then .ok st else .error e, [])
  | st, .ok heard :: results =>
    let (st, out) := hear st heard
    let (r, rest) := listen st results
    (r, out ++ rest)

def AgentResponse.error (msg : Str) : AgentResponse μ :=
  { steps := [], finalResponse := none, iterations := 0, stopReason := .error msg, model := [] }

section
variable [TextStd] [Wire μ]

/-- `guest_stream_to`, given the model of the guest if it resolves. A panic in the tail ends the
stream as it is. -/
def guestStreamTo (preprocess : AgentId → Str → Option Str) (s : Session μ) (content sender : Str)
    (guest : AgentId) (model : Option Str)
    (primary name : Str) (results : List (Except Str Heard)) (now later : Str) :
    KvM μ (Session μ × List (AgentEvent μ)) :=
  match model with
  | none => return (s, [.done (.error ("guest ".toList ++ notRegistered guest))])
  | some model =>
    let preRunLen := s.history.length
    let history := guestHistory preprocess s content sender primary
    match listen .new results with
    | (.error e, events) =>
      return ({ s with history },
        events ++ [.done
          { steps := [], finalResponse := none, iterations := 1, stopReason := .error e, model }])
    | (.ok st, events) => do
      let reasoning := if st.reasoning = [] then none else some st.reasoning
      let s' := { s with history := history ++ [guestReply name st.responseText reasoning] }
      match ← (finalizeRun s' preRunLen [] now later).attempt with
      | .ok _ =>
        return (s', events ++ [.done
          { steps := [], finalResponse := some st.responseText, iterations := 1,
            stopReason := if st.truncated then .maxTokens else .textResponse, model }])
      | .error _ => return (s', events)

def guestRun (model : Option Str) (primary name : Str) (results : List (Except Str Heard)) : GuestRun :=
  match model with
  | none => .unresolved
  | some _ =>
    match (listen .new results : _ × List (AgentEvent μ)).1 with
    | .error _ => .broken primary
    | .ok st => .done primary name st.responseText (if st.reasoning = [] then none
        else some st.reasoning)

/-- The events of a turn whose tail does not panic. -/
def guestEvents (guest : AgentId) (model : Option Str) (results : List (Except Str Heard)) :
    List (AgentEvent μ) :=
  match model with
  | none => [.done (.error ("guest ".toList ++ notRegistered guest))]
  | some model =>
    match listen .new results with
    | (.error e, events) =>
      events ++ [.done
        { steps := [], finalResponse := none, iterations := 1, stopReason := .error e, model }]
    | (.ok st, events) =>
      events ++ [.done
        { steps := [], finalResponse := some st.responseText, iterations := 1,
          stopReason := if st.truncated then .maxTokens else .textResponse, model }]

variable {F : Prop} {kv kv' : Kv μ} {preprocess : AgentId → Str → Option Str} {s : Session μ}

theorem wp_finalizeRun_ok {n : Nat} {trace : List EventLine} {now later : Str}
    (hn : (newEntries s.history n).isSome) :
    Prog.wp F memory (finalizeRun s n trace now later) (fun _ _ => True) (fun _ _ => False) kv := by
  have hupdate : ∀ h kv, Prog.wp F memory
      (do let _ ← (updateSessionMeta h (s.sessionMeta later)).attempt : KvM μ Unit)
      (fun _ _ => True) (fun _ _ => False) kv := by
    intro h kv
    rw [Prog.wp_bind, Prog.wp_attempt]
    exact .trivial (fun _ _ => trivial) fun _ _ => trivial
  obtain ⟨entries, he⟩ := Option.isSome_iff_exists.mp hn
  unfold finalizeRun
  cases s.handle with
  | none => exact trivial
  | some h =>
    simp only [he]
    rw [Prog.wp_bind, Prog.wp_attempt]
    have htail : ∀ kv, Prog.wp F memory
        (if trace.isEmpty then do let _ ← (updateSessionMeta h (s.sessionMeta later)).attempt
        else do
          let _ ← (appendSessionEvents h trace).attempt
          let _ ← (updateSessionMeta h (s.sessionMeta later)).attempt : KvM μ Unit)
              (fun _ _ => True) (fun _ _ => False) kv := by
      intro kv
      split
      · exact hupdate h kv
      · rw [Prog.wp_bind, Prog.wp_attempt]
        exact .trivial (fun _ => hupdate h) fun _ => hupdate h
    exact .trivial (fun _ => htail) fun _ => htail

omit [TextStd] in
theorem newEntries_guest (hs : framings s.history ≤ 1) (content sender primary name text : Str)
    (reasoning : Option Str) :
    (newEntries (guestHistory preprocess s content sender primary ++
      [guestReply name text reasoning]) s.history.length).isSome := by
  have h : newEntries (guestAfter preprocess s content sender
      (.done primary name text reasoning)).history s.history.length = some _ :=
    newEntries_after hs (.guest content sender primary name text reasoning) id
  simp only [guestAfter] at h
  rw [h]
  rfl

theorem wp_guestStreamTo (hs : framings s.history ≤ 1) (content sender : Str) (guest : AgentId)
    (model : Option Str) (primary name : Str)
    (results : List (Except Str Heard)) (now later : Str) :
    Prog.wp F memory (guestStreamTo preprocess s content sender guest model primary name
      results now later)
      (fun r _ => r = (guestAfter preprocess s content sender
        (guestRun (μ := μ) model primary name results), guestEvents guest model results))
      (fun _ _ => False) kv := by
  unfold guestStreamTo guestRun guestEvents
  cases model with
  | none => exact rfl
  | some model =>
    rcases hl : (listen .new results : _ × List (AgentEvent μ)) with ⟨_ | st, events⟩
    · exact rfl
    · dsimp only
      rw [Prog.wp_bind, Prog.wp_attempt]
      exact (wp_finalizeRun_ok (newEntries_guest hs content sender primary name st.responseText
        _)).mono (fun _ _ _ => rfl)
        fun _ _ h => h.elim

/-! ## Deltas without a segment -/

def heard : List (Except Str Heard) → List Heard
  | .ok h :: results => h :: heard results
  | _ => []

/-- No text and no thinking comes before the stream ends or fails. -/
def Silent (results : List (Except Str Heard)) : Prop := ∀ h ∈ heard results, h.speaks = false

instance (results : List (Except Str Heard)) : Decidable (Silent results) :=
  inferInstanceAs (Decidable (∀ h ∈ heard results, h.speaks = false))

omit [TextStd] [Wire μ] in
theorem listen_events (st : Listening) (results : List (Except Str Heard)) :
    (listen st results : _ × List (AgentEvent μ)).2 = (heard results).flatMap fun h =>
    (hear .new h : _ × List (AgentEvent μ)).2 := by
  induction results generalizing st with
  | nil => rfl
  | cons result results ih =>
    cases result with
    | error e => rfl
    | ok h =>
      rw [heard, List.flatMap_cons, ← ih (hear st h : _ × List (AgentEvent μ)).1]
      cases h <;> rfl

omit [TextStd] [Wire μ] in
theorem hear_silent {h : Heard} (hh : h.speaks = false) :
    (hear .new h : _ × List (AgentEvent μ)).2 = [] := by
  cases h with
  | text _ | thinking _ => cases hh
  | _ => rfl

omit [TextStd] [Wire μ] in
/-- A reader that has seen no start cannot read a delta. -/
theorem not_leads_speech {h : Heard} (hh : h.speaks = true) {events : List (AgentEvent μ)} :
    ¬ Leads .idle ((hear .new h : _ × List (AgentEvent μ)).2 ++ events) .finished := by
  cases h with
  | text _ | thinking _ => exact fun hl => by cases hl
  | _ => cases hh

omit [TextStd] [Wire μ] in
theorem not_leads_heard {events : List (AgentEvent μ)} :
    ∀ {l : List Heard}, (∃ h ∈ l, h.speaks = true) →
    ¬ Leads .idle (l.flatMap (fun h => (hear .new h : _ × List (AgentEvent μ)).2) ++ events) .finished
  | h :: l, ⟨x, hx, hs⟩ => by
    rw [List.flatMap_cons, List.append_assoc]
    cases hh : h.speaks with
    | true => exact not_leads_speech hh
    | false =>
      rw [hear_silent hh, List.nil_append]
      refine not_leads_heard ⟨x, (List.mem_cons.mp hx).resolve_left fun he => ?_, hs⟩
      rw [he, hh] at hs
      cases hs

omit [TextStd] [Wire μ] in
theorem guestEvents_grammatical (guest : AgentId) (model : Option Str)
    (results : List (Except Str Heard)) :
    Leads .idle (guestEvents guest model results : List (AgentEvent μ)) .finished ↔
    model = none ∨ Silent results := by
  unfold guestEvents
  cases model with
  | none => exact iff_of_true (.one rfl) (.inl rfl)
  | some model =>
    have hevents := listen_events (μ := μ) .new results
    have hiff : ∀ response, Leads .idle
        ((listen .new results : _ × List (AgentEvent μ)).2 ++ [.done response]) .finished ↔
        some model = none ∨ Silent results := by
      intro response
      rw [hevents, or_iff_right (Option.some_ne_none model)]
      constructor
      · intro hl
        by_contra hn
        obtain ⟨h, hn⟩ := not_forall.mp hn
        obtain ⟨hh, hs⟩ := Classical.not_imp.mp hn
        exact not_leads_heard ⟨h, hh, Bool.eq_true_of_not_eq_false hs⟩ hl
      · intro hsilent
        have hnil : (heard results).flatMap (fun h => (hear .new h : _ × List (AgentEvent μ)).2) = [] :=
          List.flatMap_eq_nil_iff.mpr fun h hh => hear_silent (hsilent h hh)
        rw [hnil]
        exact .one rfl
    rcases hl : (listen .new results : _ × List (AgentEvent μ)) with ⟨_ | st, events⟩
    · rw [hl] at hiff
      exact hiff _
    · rw [hl] at hiff
      exact hiff _

/-- The events of a guest's turn keep the brackets exactly if the guest does not resolve or says nothing. -/
theorem guest_events_grammatical (hs : Lived preprocess s) {content sender : Str} {guest : AgentId}
    {model : Option Str} {primary name : Str}
    {results : List (Except Str Heard)} {now later : Str} {r : Session μ × List (AgentEvent μ)}
    (hr : Prog.Runs True memory (guestStreamTo preprocess s content sender guest model primary name
      results now later) kv (.ok r) kv') :
    Leads .idle r.2 .finished ↔ model = none ∨ Silent results := by
  have he : r = _ := (wp_guestStreamTo hs.framings_le content sender guest model primary name
      results now later).runs hr
  rw [he]
  exact guestEvents_grammatical guest model results

end

/-! ## A guest who says hello -/

section
open Plain

theorem guest_events_grammatical_instance : ∃ r kv,
    Prog.Runs True memory (guestStreamTo noHook fresh "ask".toList [] ⟨1⟩
      (some "m".toList) "crab".toList "guest".toList
      [.ok .messageStop] [] []) (∅ : Kv Message) (.ok r) kv ∧
    (Leads .idle r.2 .finished ↔ (some "m".toList) = none ∨ Silent [.ok .messageStop]) := by
  obtain ⟨r, kv, hr, -⟩ := Prog.wp.run True
      (wp_guestStreamTo fresh_lived.framings_le "ask".toList [] ⟨1⟩
    (some "m".toList) "crab".toList "guest".toList [.ok .messageStop] [] [])
  exact ⟨r, kv, hr, guest_events_grammatical fresh_lived hr⟩

/-- One word from a guest, and no segment is open. -/
theorem guest_speaks_outside_segments :
    ¬ ∀ (r : Session Message × List (AgentEvent Message)) (kv : Kv Message),
    Prog.Runs True memory (guestStreamTo noHook fresh "ask".toList [] ⟨1⟩
      (some "m".toList) "crab".toList "guest".toList
      [.ok (.text "hello".toList), .ok .messageStop] [] []) (∅ : Kv Message) (.ok r) kv →
      Leads .idle r.2 .finished := by
  intro h
  obtain ⟨r, kv, hr, he⟩ := Prog.wp.run True
      (wp_guestStreamTo fresh_lived.framings_le "ask".toList [] ⟨1⟩
    (some "m".toList) "crab".toList "guest".toList [.ok (.text "hello".toList), .ok .messageStop] [] [])
  have hl := h r kv hr
  rw [he, guestEvents_grammatical] at hl
  revert hl
  decide

end

end Crabtalk.Runtime

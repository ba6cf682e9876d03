import Crabtalk.Runtime.Grammar
import Crabtalk.Runtime.Sender
import Crabtalk.Tui.Item
import Crabtalk.Tui.Kept

/-!
# What settles

An item that is settled is written to the scrollback, in order, and a tool that
runs holds up what is behind it. A round of tools is announced and then
started, and both push an item; one event settles one of them, and so does the
end of the turn.
-/

open Basis
open Crabtalk.Store (Str)
open Crabtalk.Runtime (AgentEvent Phase Leads toolOutputText)

namespace Crabtalk.Tui

def Item.settled : Item → Bool
  | .tool _ .running => false
  | _ => true

namespace Transcript

def commit (items : List Item) (committed : Nat) : Nat :=
  committed + ((items.drop committed).takeWhile Item.settled).length

/-! ## A turn -/

def fail (t : Transcript) (error : Str) : Transcript := (t.finish.push (.error error)).push .blank

def interrupt (t : Transcript) (error : Option Str) : Transcript :=
  match error with
  | some e => (t.push (.error e)).finish.push .blank
  | none => t.finish.push .blank

section
variable [TuiStd] {μ : Type}

def chunk (t : Transcript) : AgentEvent μ → Option Transcript
  | .textDelta text => some (t.pushText text)
  | .thinkingDelta text => some (t.pushThinking text)
  | .toolCallsBegin calls => t.pushToolStart (calls.map fun call => (call.name, []))
  | .toolCallsStart calls => t.pushToolStart (calls.map fun call => (call.name, call.arguments))
  | .toolResult _ output _ => some (t.pushToolResult (toolOutputText output))
  | .toolCallsComplete => some t.pushToolDone
  | .done response =>
    match response.stopReason with
    | .error e => some (if e ≠ [] then t.fail e else t.finish)
    | _ => some t.finish
  | .textStart | .textEnd | .thinkingStart | .thinkingEnd | .contextUsage _ => some t

end

/-- How a turn ends: at its last event, or after some of those before, by the user or by the
stream. -/
inductive Stop
  | read
  | interrupted (received : Nat) (error : Option Str)
  | failed (received : Nat) (error : Str)

def Stop.received {μ : Type} (events : List (AgentEvent μ)) : Stop → List (AgentEvent μ)
  | .read => events.dropLast
  | .interrupted n _ | .failed n _ => events.dropLast.take n

def runTurn [TuiStd] {μ : Type} (t : Transcript) (line : Str) (events : List (AgentEvent μ))
    (stop : Stop) : Option Transcript :=
  let t := ((t.push (.prompt line)).push .blank).start
  match stop with
  | .read => events.foldlM chunk t
  | .interrupted _ error => ((stop.received events).foldlM chunk t).map fun t => t.interrupt error
  | .failed _ error => ((stop.received events).foldlM chunk t).map fun t => t.fail error

/-! ## Running items -/

def running (t : Transcript) : Nat := t.items.countP fun item => !item.settled

variable {t t' t'' : Transcript} {item : Item}

theorem running_eq_zero : t.running = 0 ↔ ∀ item ∈ t.items, item.settled = true := by
  simp [running, List.countP_eq_zero]

def Grows (t t' : Transcript) : Prop := ∃ added : List Item, t'.items = t.items ++ added ∧
    ∀ item ∈ added, item.settled = true

theorem Grows.refl (t : Transcript) : Grows t t :=
  ⟨[], (List.append_nil _).symm, fun _ h => by cases h⟩

theorem Grows.trans (h : Grows t t') (h' : Grows t' t'') : Grows t t'' := by
  obtain ⟨a, ha, hs⟩ := h
  obtain ⟨b, hb, hs'⟩ := h'
  refine ⟨a ++ b, by rw [hb, ha, List.append_assoc], fun item hmem => ?_⟩
  exact (List.mem_append.mp hmem).elim (hs item) (hs' item)

theorem Grows.running (h : Grows t t') : t'.running = t.running := by
  obtain ⟨added, ha, hs⟩ := h
  have hzero : added.countP (fun item => !item.settled) = 0 :=
    List.countP_eq_zero.mpr fun item hmem => by simp [hs item hmem]
  rw [Transcript.running, Transcript.running, ha, List.countP_append, hzero, Nat.add_zero]

theorem Grows.of_items (h : t'.items = t.items) : Grows t t' :=
  ⟨[], by rw [h, List.append_nil], fun _ hmem => by cases hmem⟩

theorem grows_push (item : Item) (h : item.settled = true) : Grows t (t.push item) :=
  ⟨[item], rfl, fun _ hmem => List.mem_singleton.mp hmem ▸ h⟩

theorem grows_openCode (lang : Str) : Grows t (t.openCode lang) :=
  ⟨[_], rfl, fun _ hmem => List.mem_singleton.mp hmem ▸ rfl⟩

theorem grows_flushTable : Grows t t.flushTable := by
  unfold flushTable
  split
  · exact ⟨[_], rfl, fun _ hmem => List.mem_singleton.mp hmem ▸ rfl⟩
  · exact .of_items rfl

theorem grows_flushLine : Grows t t.flushLine := by
  unfold flushLine
  split
  · exact .refl t
  · simp only
    split
    · exact ⟨[_], rfl, fun _ hmem => List.mem_singleton.mp hmem ▸ rfl⟩
    · exact ⟨[_], rfl, fun _ hmem => List.mem_singleton.mp hmem ▸ rfl⟩

theorem grows_flushThinking : Grows t t.flushThinking := by
  have hthought : Grows t (if t.thinking = [] then t
      else { t.push (.thinking t.thinking) with thinking := [] }) := by
    split
    · exact .refl t
    · exact ⟨[_], rfl, fun _ hmem => List.mem_singleton.mp hmem ▸ rfl⟩
  unfold flushThinking
  simp only
  split
  · exact hthought.trans (.of_items rfl)
  · exact hthought

theorem grows_plainLine (line : Str) : Grows t (t.plainLine line) := by
  unfold plainLine
  split
  · exact grows_openCode _
  · split
    · exact .of_items rfl
    · split
      · exact grows_push _ rfl
      · exact grows_push _ rfl

theorem grows_takeLine (line : Str) : Grows t (t.takeLine line) := by
  unfold takeLine
  split
  · split
    · exact ⟨[_], rfl, fun _ hmem => List.mem_singleton.mp hmem ▸ rfl⟩
    · exact .of_items rfl
  · split
    · exact .of_items rfl
    · exact grows_flushTable.trans (grows_plainLine line)
  · exact grows_plainLine line
  · exact grows_plainLine line

theorem grows_pushChar (ch : Char) : Grows t (t.pushChar ch) := by
  unfold pushChar
  split
  · exact .of_items rfl
  · have hline : Grows t ({ t with line := [] }.takeLine t.line) :=
      (Grows.of_items rfl).trans (grows_takeLine t.line)
    simp only
    split
    · exact hline.trans (.of_items rfl)
    · exact hline

theorem grows_pushChars (chunk : Str) : Grows t (chunk.foldl pushChar t) := by
  induction chunk generalizing t with
  | nil => exact .refl t
  | cons ch chunk ih => exact (grows_pushChar ch).trans ih

theorem grows_openResponse : Grows t t.openResponse := by
  unfold openResponse
  split
  · exact .refl t
  · exact .of_items rfl

theorem grows_openAfterTool : Grows t t.openAfterTool := by
  unfold openAfterTool
  split
  · exact .of_items rfl
  · exact .refl t

theorem grows_pushText (chunk : Str) : Grows t (t.pushText chunk) := by
  unfold pushText
  split
  · exact .refl t
  · have hflush : Grows t (if ({ t with waiting := false } : Transcript).state = .thinking
        then { t with waiting := false }.flushThinking
        else { t with waiting := false }) := by
      split
      · exact (Grows.of_items rfl).trans grows_flushThinking
      · exact .of_items rfl
    exact hflush.trans (grows_openResponse.trans
      (grows_openAfterTool.trans (grows_pushChars chunk)))

theorem grows_pushThinking (chunk : Str) : Grows t (t.pushThinking chunk) := by
  unfold pushThinking
  split
  · exact .refl t
  · exact .of_items rfl

/-! ## What starts and what settles -/

theorem running_settleFirst {status : ToolStatus} (h : status ≠ .running) (items : List Item) :
    (settleFirst status items).countP (fun item => !item.settled) =
    items.countP (fun item => !item.settled) - 1 := by
  induction items using settleFirst.induct with
  | case1 => rfl
  | case2 labels rest =>
    rw [settleFirst]
    cases status with
    | running => exact absurd rfl h
    | success => simp [Item.settled]
    | failure => simp [Item.settled]
  | case3 item rest hno ih =>
    have hsettled : item.settled = true := by
      cases item with
      | tool labels held =>
        cases held with
        | running => exact absurd rfl (hno labels)
        | _ => rfl
      | _ => rfl
    rw [settleFirst, List.countP_cons, List.countP_cons, ih, hsettled]
    · simp
    · exact hno

@[simp] theorem running_pushToolDone : t.pushToolDone.running = t.running - 1 := by
  have hstatus : (if t.toolFailed then ToolStatus.failure else .success) ≠ .running := by
    split <;> simp
  show (settleFirst _ t.items.reverse).reverse.countP _ = _
  rw [List.countP_reverse, running_settleFirst hstatus, List.countP_reverse]
  rfl

@[simp] theorem running_finish : t.finish.running = t.running - 1 :=
  (grows_flushThinking.trans grows_flushLine).running.trans running_pushToolDone

@[simp] theorem running_push (h : item.settled = true) : (t.push item).running = t.running :=
  (grows_push item h).running

@[simp] theorem running_fail (error : Str) : (t.fail error).running = t.running - 1 :=
  ((grows_push _ rfl).trans (grows_push _ rfl)).running.trans running_finish

@[simp] theorem running_interrupt (error : Option Str) :
    (t.interrupt error).running = t.running - 1 := by
  cases error with
  | none => exact (grows_push _ rfl).running.trans running_finish
  | some e =>
    refine (grows_push _ rfl).running.trans (running_finish.trans ?_)
    rw [(grows_push (t := t) (.error e) rfl).running]

section
variable [TuiStd] {μ : Type} {events : List (AgentEvent μ)} {p q : Phase}

theorem running_pushToolStart {calls : List (Str × Str)} (h : t.pushToolStart calls = some t') :
    t'.running = t.running + 1 := by
  obtain ⟨labels, rfl⟩ := pushToolStart_eq h
  have hflush : Grows t { t.flushThinking.flushLine with waiting := false, toolFailed := false } :=
    (grows_flushThinking.trans grows_flushLine).trans (.of_items rfl)
  rw [← (hflush.trans (grows_push .blank rfl)).running]
  simp [running, push, List.countP_append, Item.settled]

theorem grows_pushToolResult (output : Str) : Grows t (t.pushToolResult output) :=
  ((Grows.of_items rfl).trans (grows_push (.result output (failed output)) rfl)).trans
    (grows_push _ rfl)

def starts : AgentEvent μ → Bool
  | .toolCallsBegin _ | .toolCallsStart _ => true
  | _ => false

def completes : AgentEvent μ → Bool
  | .toolCallsComplete => true
  | _ => false

def runningAfter (event : AgentEvent μ) (n : Nat) : Nat :=
  if starts event then n + 1 else if completes event then n - 1 else n

theorem running_chunk {event : AgentEvent μ} (hd : event.isDone = false)
    (h : t.chunk event = some t') : t'.running = runningAfter event t.running := by
  cases event with
  | toolCallsBegin calls => exact running_pushToolStart h
  | toolCallsStart calls => exact running_pushToolStart h
  | textDelta text =>
    cases h
    exact (grows_pushText text).running
  | thinkingDelta text =>
    cases h
    exact (grows_pushThinking text).running
  | toolResult callId output durationMs =>
    cases h
    exact (grows_pushToolResult _).running
  | toolCallsComplete =>
    cases h
    exact running_pushToolDone
  | done response => cases hd
  | _ =>
    cases h
    rfl

theorem running_done {response : Runtime.AgentResponse μ} (h : t.chunk (.done response) = some t') :
    t'.running = t.running - 1 := by
  unfold chunk at h
  simp only at h
  split at h
  · cases h
    split
    · exact running_fail _
    · exact running_finish
  · cases h
    exact running_finish

/-! ## Runs -/

def inTools : Phase → Bool
  | .tools _ => true
  | _ => false

omit [TuiStd] in
theorem inTools_next {event : AgentEvent μ} (h : p.next event = some q) (hs : starts event = false)
    (hq : inTools q = true) : inTools p = true := by
  cases p with
  | tools owed => rfl
  | _ =>
    cases event with
    | toolCallsBegin calls => cases hs
    | toolCallsStart calls => cases hs
    | _ =>
      cases h
      try cases hq

omit [TuiStd] in
/-- A tool item runs while results are owed, so there is one to settle when they are through. -/
theorem runningAfter_next {event : AgentEvent μ} {n : Nat} (h : p.next event = some q)
    (hp : inTools p = true → 1 ≤ n) :
    runningAfter event n + (if completes event then 1 else 0) =
    n + (if starts event then 1 else 0) ∧
      (inTools q = true → 1 ≤ runningAfter event n) := by
  cases event with
  | toolCallsBegin calls => exact ⟨rfl, fun _ => Nat.le_add_left 1 n⟩
  | toolCallsStart calls => exact ⟨rfl, fun _ => Nat.le_add_left 1 n⟩
  | toolCallsComplete =>
    cases p with
    | tools owed =>
      cases owed with
      | nil =>
        cases h
        exact ⟨Nat.sub_add_cancel (hp rfl), fun hq => by cases hq⟩
      | cons id owed => cases h
    | _ => cases h
  | _ => exact ⟨rfl, fun hq => hp (inTools_next h rfl hq)⟩

theorem running_chunks (hl : Leads p events q) (hd : ∀ e ∈ events, e.isDone = false)
    (hp : inTools p = true → 1 ≤ t.running)
    (h : events.foldlM chunk t = some t') : t'.running + events.countP completes =
    t.running + events.countP starts := by
  induction events generalizing p t with
  | nil =>
    cases h
    rfl
  | cons e events ih =>
    unfold Leads at hl
    rw [List.foldlM_cons] at hl h
    obtain ⟨r, hr, hl⟩ := Option.bind_eq_some_iff.mp hl
    obtain ⟨s, hs, h⟩ := Option.bind_eq_some_iff.mp h
    have hde := hd e List.mem_cons_self
    have hrun := running_chunk hde hs
    obtain ⟨hbalance, hin⟩ := runningAfter_next hr hp
    rw [← hrun] at hbalance hin
    have hrest := ih hl (fun e' he' => hd e' (List.mem_cons_of_mem e he')) hin h
    rw [List.countP_cons, List.countP_cons]
    omega

omit [TuiStd] in
theorem leads_prefix {received rest : List (AgentEvent μ)} (h : Leads p (received ++ rest) q) :
    ∃ r, Leads p received r := by
  unfold Leads at h
  rw [List.foldlM_append] at h
  obtain ⟨r, hr, -⟩ := Option.bind_eq_some_iff.mp h
  exact ⟨r, hr⟩

/-- However a turn ends, one item more is settled than by its events. -/
theorem running_runTurn {before : List (AgentEvent μ)} {response : Runtime.AgentResponse μ}
    {line : Str} {stop : Stop}
    (h : t.runTurn line (before ++ [.done response]) stop = some t') :
    ∃ s s', s.running = t.running ∧ (stop.received (before ++ [.done response])).foldlM chunk s =
    some s' ∧ t'.running = s'.running - 1 := by
  have hstart : Grows t ((t.push (.prompt line)).push .blank).start :=
    ((grows_push _ rfl).trans (grows_push _ rfl)).trans (.of_items rfl)
  cases stop with
  | read =>
    rw [Stop.received, List.dropLast_concat]
    simp only [runTurn, List.foldlM_append] at h
    obtain ⟨s', hs', hdone⟩ := Option.bind_eq_some_iff.mp h
    rw [List.foldlM_cons] at hdone
    obtain ⟨s'', hs'', heq⟩ := Option.bind_eq_some_iff.mp hdone
    cases heq
    exact ⟨_, s', hstart.running, hs', running_done hs''⟩
  | interrupted n error =>
    obtain ⟨s', hs', rfl⟩ := Option.map_eq_some_iff.mp h
    exact ⟨_, s', hstart.running, hs', running_interrupt error⟩
  | failed n error =>
    obtain ⟨s', hs', rfl⟩ := Option.map_eq_some_iff.mp h
    exact ⟨_, s', hstart.running, hs', running_fail error⟩

omit [TuiStd] in
theorem received_prefix (before : List (AgentEvent μ)) (response : Runtime.AgentResponse μ)
    (stop : Stop) :
    ∃ rest, before = stop.received (before ++ [.done response]) ++ rest := by
  cases stop with
  | read => exact ⟨[], by rw [Stop.received, List.dropLast_concat, List.append_nil]⟩
  | interrupted n error =>
    exact ⟨before.drop n, by rw [Stop.received, List.dropLast_concat, List.take_append_drop]⟩
  | failed n error =>
    exact ⟨before.drop n, by rw [Stop.received, List.dropLast_concat, List.take_append_drop]⟩

/-- Nothing waits, and whatever is not in the scrollback yet goes there. -/
def Final (t : Transcript) : Prop := (∀ item ∈ t.items, item.settled = true) ∧
    ∀ n ≤ t.items.length, commit t.items n = t.items.length

omit [TuiStd] in
theorem final_iff : Final t ↔ t.running = 0 := by
  rw [running_eq_zero]
  refine ⟨And.left, fun h => ⟨h, fun n hn => ?_⟩⟩
  have hall : (t.items.drop n).takeWhile Item.settled = t.items.drop n :=
    List.takeWhile_eq_self_iff.mpr fun item hmem => h item (List.mem_of_mem_drop hmem)
  rw [commit, hall, List.length_drop]
  omega

/-- At the end of a turn nothing waits where no more than one tool item was pushed beyond those that
were settled. -/
theorem turn_final {η β : Type} [Runtime.AgentWire μ] (c : Runtime.Codec η β μ) (model : Str)
    (maxIterations : Nat)
    (script : Nat → Runtime.Round η) (history : List (Store.HistoryEntry μ)) (t : Transcript)
    (line : Str) (stop : Stop)
    (h : t.runTurn line (Runtime.emitted (Runtime.runStream c model maxIterations script history))
      stop = some t') :
    Final t' ↔
      t.running + (stop.received (Runtime.emitted
        (Runtime.runStream c model maxIterations script history))).countP starts ≤
        (stop.received (Runtime.emitted
          (Runtime.runStream c model maxIterations script history))).countP completes + 1 := by
  have hleads : Runtime.Leads .idle
      (Runtime.emitted (Runtime.runStream c model maxIterations script history)) .finished :=
    Runtime.runRounds_leads c model script maxIterations 0 ⟨history, []⟩
  obtain ⟨before, response, hevents, hdone⟩ := hleads.done (by decide)
  rw [hevents] at h hleads ⊢
  obtain ⟨s, s', hs, hrun, hlast⟩ := running_runTurn h
  obtain ⟨rest, hrest⟩ := received_prefix before response stop
  rw [hrest, List.append_assoc] at hleads
  obtain ⟨q, hq⟩ := leads_prefix hleads
  have hbalance := running_chunks hq
      (fun e he => hdone e (by rw [hrest]; exact List.mem_append_left _ he))
      (fun hin => by cases hin) hrun
  rw [final_iff, hlast]
  omega

end

theorem turn_final_one :
    ∃ t', @runTurn wordStd _ (new 80) "hi".toList
    (Runtime.emitted (Runtime.runStream Runtime.Plain.codec [] 1 Runtime.Plain.asking [])) .read =
      some t' ∧ Final t' := by
  let _ : TuiStd := wordStd
  exact ⟨_, rfl, (turn_final Runtime.Plain.codec [] 1 Runtime.Plain.asking []
    (new 80) "hi".toList .read rfl).mpr (by decide)⟩

/-- Of two rounds of tools one is left running. -/
theorem turn_final_two :
    ∃ t', @runTurn wordStd _ (new 80) "hi".toList
    (Runtime.emitted (Runtime.runStream Runtime.Plain.codec [] 2 Runtime.Plain.asking [])) .read =
      some t' ∧ ¬ Final t' := by
  refine ⟨_, rfl, fun h => ?_⟩
  have hzero := final_iff.mp h
  exact absurd hzero (by decide)

end Transcript

end Crabtalk.Tui

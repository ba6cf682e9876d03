import Crabtalk.Runtime.Agent

/-! # Tool calls and their results in the history

Entries are committed in closed groups: an assistant entry, and with it a
result for each of its calls. Wherever the consumer leaves the stream, the
history it leaves is made of whole groups.
-/

open Crabtalk.Store

namespace Crabtalk.Runtime

variable {η β μ : Type} [AgentWire μ]

def IsResult (e : HistoryEntry μ) : Prop :=
  ∃ (call : ToolCall) (out : Except Str Str), e.message =
    (toolEntry call out : HistoryEntry μ).message

/-- Every entry that is no result is followed by one result for each of its calls, in call order,
and results stand nowhere else. -/
inductive Paired : List (HistoryEntry μ) → Prop
  | nil : Paired []
  | round {e : HistoryEntry μ} {outs : List (Except Str Str)} {rest : List (HistoryEntry μ)} : ¬ IsResult e →
      outs.length = (AgentWire.toolCalls e.message).length → Paired rest →
      Paired (e :: List.zipWith toolEntry (AgentWire.toolCalls e.message) outs ++ rest)

theorem Paired.append {l l' : List (HistoryEntry μ)} (h : Paired l) (h' : Paired l') :
    Paired (l ++ l') := by
  induction h with
  | nil => exact h'
  | round he ho _ ih =>
    rw [List.append_assoc]
    exact .round he ho ih

theorem Paired.plain {e : HistoryEntry μ} {rest : List (HistoryEntry μ)} (he : ¬ IsResult e)
    (hcalls : AgentWire.toolCalls e.message = []) (h : Paired rest) : Paired (e :: rest) := by
  have hround : Paired (e :: List.zipWith toolEntry (AgentWire.toolCalls e.message) [] ++ rest) :=
    .round he (by rw [hcalls]; rfl) h
  rwa [hcalls] at hround

theorem Paired.single {e : HistoryEntry μ} (he : ¬ IsResult e)
    (h : AgentWire.toolCalls e.message = []) : Paired [e] :=
  .plain he h .nil

theorem Paired.group {e : HistoryEntry μ} (he : ¬ IsResult e) (outs : List (Except Str Str))
    (h : outs.length = (AgentWire.toolCalls e.message).length) :
    Paired (e :: List.zipWith toolEntry (AgentWire.toolCalls e.message) outs) := by
  have := Paired.round he h .nil
  rwa [List.append_nil] at this

theorem not_isResult {e : HistoryEntry μ} (h : Wire.role e.message = "assistant".toList) :
    ¬ IsResult e := by
  intro ⟨call, out, he⟩
  rw [he] at h
  exact (AgentWire.role_tool call.id call.name (toolOutputText out)).1 h

/-- A list of acts whose commits are closed groups. -/
def Whole (acts : List (Act μ)) : Prop := ∀ a ∈ acts, Paired a.entries

theorem Whole.append {a b : List (Act μ)} (ha : Whole a) (hb : Whole b) :
    Whole (a ++ b) := fun x hx =>
  (List.mem_append.mp hx).elim (ha x) (hb x)

theorem Whole.cons {a : Act μ} {b : List (Act μ)} (ha : Paired a.entries) (hb : Whole b) :
    Whole (a :: b) := fun x hx =>
  (List.mem_cons.mp hx).elim (fun h => h ▸ ha) (hb x)

theorem Whole.paired {acts : List (Act μ)} (h : Whole acts) : Paired (committed acts) := by
  induction acts with
  | nil => exact .nil
  | cons a acts ih =>
    rw [committed, List.flatMap_cons]
    exact (h a List.mem_cons_self).append (ih fun x hx => h x (List.mem_cons_of_mem _ hx))

omit [AgentWire μ] in
theorem committed_append (a b : List (Act μ)) : committed (a ++ b) = committed a ++ committed b := by
  simp [committed]

omit [AgentWire μ] in
theorem committed_eq_nil {acts : List (Act μ)} (h : ∀ a ∈ acts, a.entries = []) :
    committed acts = [] :=
  List.flatMap_eq_nil_iff.mpr h

omit [AgentWire μ] in
@[simp] theorem committed_emits (events : List (AgentEvent μ)) :
    committed (events.map Act.emit) = [] :=
  committed_eq_nil fun a ha => by
    obtain ⟨e, -, rfl⟩ := List.mem_map.mp ha
    rfl

omit [AgentWire μ] in
@[simp] theorem committed_dispatches (r : Round η) (calls : List ToolCall) (sender : Str) :
    committed (dispatches r calls sender : List (Act μ)) = [] :=
  committed_eq_nil fun a ha => by
    rw [dispatches] at ha
    split at ha
    · cases ha
    · obtain ⟨call, -, rfl⟩ := List.mem_map.mp ha
      rfl

omit [AgentWire μ] in
@[simp] theorem committed_surfaceUsage (usage : Usage) :
    committed (surfaceUsage usage : List (Act μ)) = [] := by
  rw [surfaceUsage]
  split <;> rfl

omit [AgentWire μ] in
@[simp] theorem entries_finish (model : Str) (steps : List (AgentStep μ)) (text : Option Str)
    (reason : AgentStopReason) :
    (finish model steps text reason).entries = [] := rfl

omit [AgentWire μ] in
@[simp] theorem entries_request (history : List (HistoryEntry μ)) :
    (Act.request history).entries = [] := rfl

omit [AgentWire μ] in
@[simp] theorem entries_emit (event : AgentEvent μ) : (Act.emit event).entries = [] := rfl

omit [AgentWire μ] in
@[simp] theorem committed_nil : committed ([] : List (Act μ)) = [] := rfl

omit [AgentWire μ] in
@[simp] theorem committed_cons (a : Act μ) (acts : List (Act μ)) :
    committed (a :: acts) = a.entries ++ committed acts := rfl

omit [AgentWire μ] in
theorem whole_of_committed [AgentWire μ] {acts : List (Act μ)} (h : committed acts = []) :
    Whole acts := fun a ha => by
  rw [List.flatMap_eq_nil_iff.mp h a ha]
  exact .nil

/-! ## The tools are all through -/

theorem completions_perm (choose : Nat → Nat) :
    ∀ (n : Nat) (running : List Nat), running.length = n →
    (completions choose n running).Perm running
  | 0, running, h => by
    rw [List.length_eq_zero_iff.mp h]
    exact .nil
  | n + 1, running, h => by
    have hlt : choose n % running.length < running.length := Nat.mod_lt _ (by omega)
    rw [completions, List.getElem?_eq_getElem hlt]
    have ih := completions_perm choose n (running.eraseIdx (choose n % running.length))
        (by rw [List.length_eraseIdx_of_lt hlt]; omega)
    exact (ih.cons _).trans (List.getElem_cons_eraseIdx_perm hlt)

theorem length_completions (choose : Nat → Nat) (n : Nat) :
    (completions choose n (List.range n)).length = n := by
  rw [(completions_perm choose n (List.range n) List.length_range).length_eq, List.length_range]

theorem finished_perm {r : Round η} {calls : List ToolCall} (h : interrupted r calls = false) :
    (finished r calls).Perm (List.range calls.length) := by
  have hp := completions_perm r.choose calls.length (List.range calls.length) List.length_range
  rw [finished]
  rw [interrupted] at h
  cases hc : r.cancelAt with
  | none => exact hp
  | some k =>
    rw [hc] at h
    simp only [decide_eq_false_iff_not, Nat.not_le] at h
    simp only
    rw [List.take_of_length_le (by rw [length_completions]; omega)]
    exact hp

theorem getElem?_foldl_set (f : Nat → Except Str Str) :
    ∀ (idxs : List Nat) (b : List (Option (Except Str Str))) (i : Nat),
    (idxs.foldl (fun b idx => b.set idx (some (f idx))) b)[i]? =
      if i ∈ idxs ∧ i < b.length then some (some (f i)) else b[i]?
  | [], b, i => by simp
  | idx :: idxs, b, i => by
    rw [List.foldl_cons, getElem?_foldl_set f idxs]
    simp only [List.length_set, List.mem_cons, List.getElem?_set]
    by_cases hi : i ∈ idxs
    · by_cases hb : i < b.length
      · simp [hi, hb]
      · have hle := Nat.le_of_not_lt hb
        simp only [hb, and_false, if_false, List.getElem?_eq_none hle]
        split
        · rename_i he
          rw [if_neg (he ▸ hb)]
        · rfl
    · by_cases he : idx = i
      · subst he
        by_cases hb : idx < b.length
        · simp [hi, hb]
        · simp [hb]
      · simp [hi, he, Ne.symm he]

theorem mapM_id_some {α : Type} : ∀ outs : List α, (outs.map some).mapM id = some outs
  | [] => rfl
  | o :: outs => by simp [mapM_id_some outs]

/-- The slots are all filled, so the `expect` on them never fails. -/
theorem buffered_eq {r : Round η} {calls : List ToolCall} (h : interrupted r calls = false) :
    (buffered r calls).mapM id = some ((List.range calls.length).map r.output) := by
  have : buffered r calls = ((List.range calls.length).map r.output).map some := by
    refine List.ext_getElem? fun i => ?_
    rw [buffered, getElem?_foldl_set]
    simp only [(finished_perm h).mem_iff, List.mem_range, List.length_replicate, List.map_map]
    by_cases hi : i < calls.length
    · simp [hi]
    · simp [hi]
  rw [this, mapM_id_some]

/-! ## One round -/

section
variable (c : Codec η β μ)

def roundCalls (r : Round η) : List ToolCall :=
  c.toolCalls (onEvents c (Streaming.new c) r.events).1.builder

theorem dispatchRound_whole (hrole : ∀ b, Wire.role (c.build b) = "assistant".toList) (model : Str)
    (r : Round η) (s : Loop μ)
    (st : Streaming β) : Whole (dispatchRound c model r s st).1 := by
  have hentry : ¬ IsResult (HistoryEntry.fromMessage (c.build st.builder)) :=
    not_isResult (hrole st.builder)
  have built : AgentWire.toolCalls (c.build st.builder) = c.toolCalls st.builder :=
    c.toolCalls_build st.builder
  rw [dispatchRound]
  split
  · exact whole_of_committed rfl
  · simp only
    split
    · exact whole_of_committed rfl
    · split
      · rename_i hnone
        refine .cons (.single hentry (by rw [← hnone]; exact built)) (whole_of_committed ?_)
        show committed (surfaceUsage _ ++ [finish _ _ _ _]) = []
        simp [committed_append]
      · by_cases hi : interrupted r (c.toolCalls st.builder)
        · rw [if_pos hi]
          refine whole_of_committed ?_
          simp [committed_append]
        · rw [if_neg hi, buffered_eq (by simpa using hi)]
          refine Whole.append (whole_of_committed ?_) (.cons ?_ (whole_of_committed ?_))
          · simp [committed_append]
          · have := Paired.group hentry ((List.range (c.toolCalls st.builder).length).map r.output)
                (by simp [HistoryEntry.fromMessage, built])
            simp only [HistoryEntry.fromMessage, built] at this
            exact this
          · simp

theorem partialText_entries (message : μ) : committed (partialText message) = [] ∨
    ∃ e : HistoryEntry μ, committed (partialText message) = [e] ∧ e.role = .assistant ∧
    AgentWire.toolCalls e.message = [] := by
  rw [partialText]
  split
  · exact .inl rfl
  · refine .inr ⟨_, rfl, if_pos ?_, AgentWire.toolCalls_assistant _ _⟩
    exact Wire.role_assistant _ _

theorem committed_cancelled {model : Str} {r : Round η} {s : Loop μ} (h : r.ending = .cancelled) :
    committed (roundActs c model r s).1 = [] ∨
      ∃ e, committed (roundActs c model r s).1 = [e] ∧ e.role = .assistant ∧
      AgentWire.toolCalls e.message = [] := by
  rw [roundActs, h]
  simp only [committed_append, committed_cons, committed_emits, committed_nil, entries_finish,
    List.append_nil, entries_request, List.nil_append]
  exact partialText_entries (c.build _)

theorem committed_error {model : Str} {r : Round η} {s : Loop μ} {e : Str}
    (h : r.ending = .error e) :
    committed (roundActs c model r s).1 = [] := by
  rw [roundActs, h]
  simp [committed_append]

theorem committed_interrupted {model : Str} {r : Round η} {s : Loop μ} (h : r.ending = .closed)
    (hc : roundCalls c r ≠ [])
    (hi : interrupted r (roundCalls c r) = true) : committed (roundActs c model r s).1 = [] := by
  rw [roundCalls] at hc hi
  rw [roundActs, h]
  simp only [committed_append, committed_cons, committed_emits, entries_request, List.nil_append]
  rw [dispatchRound]
  split
  · rfl
  · simp only
    rw [if_neg fun h => hc h.2, if_neg hc, if_pos hi]
    simp [committed_append]

theorem roundActs_whole (hrole : ∀ b, Wire.role (c.build b) = "assistant".toList) (model : Str)
    (r : Round η) (s : Loop μ) :
    Whole (roundActs c model r s).1 := by
  cases h : r.ending with
  | cancelled =>
    rw [roundActs, h]
    refine Whole.append (Whole.append (whole_of_committed (by simp [committed_append])) fun a ha =>
      ?_) (whole_of_committed rfl)
    rw [partialText] at ha
    split at ha
    · cases ha
    · rw [List.mem_singleton.mp ha]
      exact .single (not_isResult (Wire.role_assistant _ _)) (AgentWire.toolCalls_assistant _ _)
  | error e => exact whole_of_committed (committed_error c h)
  | closed =>
    rw [roundActs, h]
    exact Whole.append (whole_of_committed (by simp [committed_append]))
      (dispatchRound_whole c hrole model r s _)

/-! ## The run -/

def Act.isRequest : Act μ → Bool
  | .request _ => true
  | _ => false

theorem dispatchRound_requests (model : Str) (r : Round η) (s : Loop μ) (st : Streaming β) :
    (dispatchRound c model r s st).1.countP Act.isRequest = 0 := by
  have hu : ∀ usage, (surfaceUsage usage : List (Act μ)).countP Act.isRequest = 0 := fun usage => by
    rw [surfaceUsage]
    split <;> rfl
  have hd : ∀ calls sender, (dispatches r calls sender : List (Act μ)).countP Act.isRequest = 0 :=
    fun calls sender => by
    rw [dispatches]
    split
    · rfl
    · rw [List.countP_map]
      exact List.countP_eq_zero.mpr fun _ _ => by simp [Act.isRequest]
  have he : ∀ events : List (AgentEvent μ), (events.map Act.emit).countP Act.isRequest = 0 :=
    fun events => by
    rw [List.countP_map]
    exact List.countP_eq_zero.mpr fun _ _ => by simp [Act.isRequest]
  rw [dispatchRound]
  split
  · rfl
  · simp only
    split
    · rfl
    · split
      · simp [List.countP_append, hu, Act.isRequest, finish]
      · split
        · simp [List.countP_append, hd, he, Act.isRequest, finish]
        · split <;> simp [List.countP_append, hd, he, hu, Act.isRequest]

theorem roundActs_requests (model : Str) (r : Round η) (s : Loop μ) :
    (roundActs c model r s).1.countP Act.isRequest = 1 := by
  have he : ∀ events : List (AgentEvent μ), (events.map Act.emit).countP Act.isRequest = 0 :=
    fun events => by
    rw [List.countP_map]
    exact List.countP_eq_zero.mpr fun _ _ => by simp [Act.isRequest]
  have hp : ∀ message : μ, (partialText message).countP Act.isRequest = 0 := fun message => by
    rw [partialText]
    split <;> rfl
  cases h : r.ending with
  | cancelled =>
    rw [roundActs, h]
    simp [List.countP_cons, List.countP_append, he, hp, Act.isRequest, finish]
  | error e =>
    rw [roundActs, h]
    simp [List.countP_cons, List.countP_append, he, Act.isRequest, finish]
  | closed =>
    rw [roundActs, h]
    simp [List.countP_cons, List.countP_append, he, dispatchRound_requests, Act.isRequest]

theorem runRounds_whole (hrole : ∀ b, Wire.role (c.build b) = "assistant".toList) (model : Str)
    (script : Nat → Round η) :
    ∀ (n i : Nat) (s : Loop μ), Whole (runRounds c model script n i s)
  | 0, _, _ => whole_of_committed rfl
  | n + 1, i, s => by
    have h := roundActs_whole c hrole model (script i) s
    rw [runRounds]
    split
    · rename_i acts heq
      rw [heq] at h
      exact h
    · rename_i acts s' heq
      rw [heq] at h
      exact h.append (runRounds_whole hrole model script n (i + 1) s')

theorem runRounds_requests (model : Str) (script : Nat → Round η) : ∀ (n i : Nat) (s : Loop μ),
    (runRounds c model script n i s).countP Act.isRequest ≤ n
  | 0, _, _ => Nat.le_refl 0
  | n + 1, i, s => by
    have h := roundActs_requests c model (script i) s
    rw [runRounds]
    split
    · rename_i acts heq
      rw [heq] at h
      exact h.trans_le (Nat.le_add_left 1 n)
    · rename_i acts s' heq
      rw [heq] at h
      rw [List.countP_append, h, Nat.add_comm]
      exact Nat.add_le_add_right (runRounds_requests model script n (i + 1) s') 1

def rounds (model : Str) (script : Nat → Round η) : Nat → Nat → Loop μ → List (Round η × Loop μ)
  | 0, _, _ => []
  | n + 1, i, s =>
    (script i, s) ::
      match (roundActs c model (script i) s).2 with
      | none => []
      | some s' => rounds model script n (i + 1) s'

def actsOf (model : Str) (rs : List (Round η × Loop μ)) : List (Act μ) :=
  rs.flatMap fun p => (roundActs c model p.1 p.2).1

/-- A run is its rounds, and past the last of them it commits nothing. -/
theorem runRounds_eq (model : Str) (script : Nat → Round η) : ∀ (n i : Nat) (s : Loop μ),
    ∃ tail, runRounds c model script n i s = actsOf c model (rounds c model script n i s) ++ tail ∧
    committed tail = []
  | 0, _, _ => ⟨_, rfl, rfl⟩
  | n + 1, i, s => by
    rw [runRounds, rounds]
    split
    · rename_i acts heq
      rw [heq]
      exact ⟨[], by simp [actsOf, heq], rfl⟩
    · rename_i acts s' heq
      obtain ⟨tail, hrun, htail⟩ := runRounds_eq model script n (i + 1) s'
      refine ⟨tail, ?_, htail⟩
      rw [heq, hrun, ← List.append_assoc]
      unfold actsOf
      rw [List.flatMap_cons, heq]

theorem dispatchRound_history {model : Str} {r : Round η} {s s' : Loop μ} {st : Streaming β}
    (h : (dispatchRound c model r s st).2 = some s') : s'.history = s.history ++
    committed (dispatchRound c model r s st).1 := by
  rw [dispatchRound] at h ⊢
  split at h
  · cases h
  · rename_i hfine
    rw [if_neg hfine]
    simp only at h ⊢
    split at h
    · cases h
    · rename_i hsome
      rw [if_neg hsome]
      split at h
      · cases h
      · rename_i hcalls
        rw [if_neg hcalls]
        split at h
        · cases h
        · rename_i hi
          rw [if_neg hi, buffered_eq (by simpa using hi)] at *
          cases h
          simp [committed_append, Act.entries]

/-- A round that is followed by another hands on the history with what it committed. -/
theorem roundActs_history {model : Str} {r : Round η} {s s' : Loop μ}
    (h : (roundActs c model r s).2 = some s') :
    s'.history = s.history ++ committed (roundActs c model r s).1 := by
  rw [roundActs] at h ⊢
  simp only at h ⊢
  cases he : r.ending with
  | cancelled =>
    rw [he] at h
    cases h
  | error e =>
    rw [he] at h
    cases h
  | closed =>
    rw [he] at h
    simp only at h ⊢
    rw [dispatchRound_history c h]
    simp [committed_append]

theorem rounds_history {model : Str} {script : Nat → Round η} :
    ∀ {n i : Nat} {s : Loop μ} {before after : List (Round η × Loop μ)}
    {p : Round η × Loop μ}, rounds c model script n i s = before ++ p :: after →
    p.2.history = s.history ++ committed (actsOf c model before)
  | 0, _, _, before, _, _, h =>
    absurd h (by rw [rounds]; exact List.append_ne_nil_of_right_ne_nil before (List.cons_ne_nil _
        _) ∘ Eq.symm)
  | n + 1, i, s, before, after, p, h => by
    rw [rounds] at h
    cases before with
    | nil =>
      obtain ⟨rfl, -⟩ := List.cons.inj h
      exact (List.append_nil _).symm
    | cons q before =>
      obtain ⟨rfl, htail⟩ := List.cons.inj h
      cases hnext : (roundActs c model (script i) s).2 with
      | none =>
        rw [hnext] at htail
        exact absurd htail.symm (List.append_ne_nil_of_right_ne_nil before (List.cons_ne_nil _ _))
      | some s' =>
        rw [hnext] at htail
        rw [rounds_history htail, roundActs_history c hnext, actsOf, actsOf, List.flatMap_cons,
          committed_append, List.append_assoc]

/-- What a round leaves that does not come to its end: nothing when its stream fails or its dispatch
is interrupted, and of a stream cut short at most what the assistant said so far. -/
structure CutShort (model : Str) (r : Round η) (s : Loop μ) : Prop where
  failed : ∀ e, r.ending = .error e → committed (roundActs c model r s).1 = []
  interrupted : r.ending = .closed → roundCalls c r ≠ [] → interrupted r (roundCalls c r) = true →
    committed (roundActs c model r s).1 = []
  cancelled : r.ending = .cancelled → committed (roundActs c model r s).1 = [] ∨
    ∃ e, committed (roundActs c model r s).1 = [e] ∧ e.role = .assistant ∧
    AgentWire.toolCalls e.message = []

theorem cutShort (model : Str) (r : Round η) (s : Loop μ) : CutShort c model r s where
  failed _ h := committed_error c h
  interrupted h hc hi := committed_interrupted c h hc hi
  cancelled h := committed_cancelled c h

theorem step_whole (response : Except Str (AgentWire.Blocks μ × Usage × Option Str))
    (output : Nat → Except Str Str)
    (history : List (HistoryEntry μ)) : Whole (step response output history).1 := by
  cases response with
  | error e => exact whole_of_committed rfl
  | ok a =>
    obtain ⟨content, usage, finishReason⟩ := a
    have hentry : ¬ IsResult (HistoryEntry.fromMessage (AgentWire.ofBlocks content : μ)) :=
      not_isResult (AgentWire.role_ofBlocks content)
    rw [step]
    split
    · rename_i hnone
      exact .cons .nil (.cons (.single hentry hnone) fun _ ha => by cases ha)
    · refine .append (whole_of_committed ?_) (.cons ?_ fun _ ha => by cases ha)
      · refine committed_eq_nil fun a ha => ?_
        rcases List.mem_cons.mp ha with rfl | ha
        · rfl
        · obtain ⟨call, -, rfl⟩ := List.mem_map.mp ha
          rfl
      · exact Paired.group hentry _ (by simp [HistoryEntry.fromMessage])

/-- What a run, left wherever its consumer likes, and a single step make of a history. -/
structure KeepsPairs (model : Str) (maxIterations : Nat) (script : Nat → Round η)
    (history : List (HistoryEntry μ)) : Prop where
  paired : ∀ n, Paired (committed ((runStream c model maxIterations script history).take n))
  requests : ∀ n, ((runStream c model maxIterations script history).take n).countP Act.isRequest ≤
    maxIterations
  rounds : ∃ tail, runStream c model maxIterations script history =
    actsOf c model (rounds c model script maxIterations 0 ⟨history, []⟩) ++ tail ∧
    committed tail = []
  entered : ∀ before p after, Runtime.rounds c model script maxIterations 0 ⟨history, []⟩ =
    before ++ p :: after →
    p.2.history = history ++ committed (actsOf c model before) ∧ CutShort c model p.1 p.2
  step : ∀ (response : Except Str (AgentWire.Blocks μ × Usage × Option Str))
    (output : Nat → Except Str Str), Paired (committed (step response output history).1)

/-- Wherever a run is left, each call in what it added has its one result, no more than
`maxIterations` requests were made, and a round that was cut short added nothing or what the
assistant said so far. -/
theorem history_paired (hrole : ∀ b, Wire.role (c.build b) = "assistant".toList) (model : Str)
    (maxIterations : Nat)
    (script : Nat → Round η) (history : List (HistoryEntry μ)) :
    KeepsPairs c model maxIterations script history where
  paired _ := Whole.paired fun a ha => runRounds_whole c hrole model script maxIterations 0
    ⟨history, []⟩ a (List.mem_of_mem_take ha)
  requests n := ((List.take_sublist n _).countP_le).trans
    (runRounds_requests c model script maxIterations 0 ⟨history, []⟩)
  rounds := runRounds_eq c model script maxIterations 0 ⟨history, []⟩
  entered _ p _ h := ⟨rounds_history c h, cutShort c model p.1 p.2⟩
  step response output := (step_whole response output history).paired

end

/-- Two rounds of one tool each, left in the middle of the second. -/
theorem history_paired_instance : KeepsPairs Plain.codec [] 2 Plain.asking [] ∧
    committed ((runStream Plain.codec [] 2 Plain.asking []).take 12) =
      [.fromMessage (.asked [⟨"1".toList, "recall".toList, []⟩]),
        .fromMessage (.answered "1".toList "recall".toList [])] :=
  ⟨history_paired Plain.codec (fun _ => rfl) [] 2 Plain.asking [], by decide⟩

end Crabtalk.Runtime

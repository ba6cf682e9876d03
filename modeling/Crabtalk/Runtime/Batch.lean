import Crabtalk.Runtime.Outcomes
import Crabtalk.Store.Growth

/-! # What a finished turn appends to the store

The slice handed over starts at the length the history had before the framing
of earlier turns was stripped from it. A live session carries at most one such
entry, so the slice is off by at most one, and framing put in again makes up
for it. A plain turn after a framing entry that nobody puts in again loses its
user message.
-/

open Basis
open Crabtalk.Store

namespace Crabtalk.Runtime

variable {μ : Type}

/-! ## Framing entries -/

def framings (history : List (HistoryEntry μ)) : Nat :=
  (history.filter fun e => e.autoInjected).length

theorem length_stripped (history : List (HistoryEntry μ)) :
    (stripped history).length + framings history = history.length := by
  rw [stripped, framings, ← List.countP_eq_length_filter, ← List.countP_eq_length_filter]
  have := List.length_eq_countP_add_countP (fun e : HistoryEntry μ => e.autoInjected) (l := history)
  simp only [Bool.not_eq_true] at this
  rw [this, Nat.add_comm]
  congr 2
  funext e
  cases e.autoInjected <;> rfl

theorem framings_append (a b : List (HistoryEntry μ)) :
    framings (a ++ b) = framings a + framings b := by
  simp [framings]

theorem stripped_append (a b : List (HistoryEntry μ)) :
    stripped (a ++ b) = stripped a ++ stripped b := List.filter_append _ _

theorem framings_stripped (history : List (HistoryEntry μ)) : framings (stripped history) = 0 := by
  simp [framings, stripped]

theorem stripped_eq_self {history : List (HistoryEntry μ)}
    (h : ∀ e ∈ history, e.autoInjected = false) : stripped history = history :=
  List.filter_eq_self.mpr fun e he => by rw [h e he]; rfl

theorem framings_eq_zero {history : List (HistoryEntry μ)} : framings history = 0 ↔
    ∀ e ∈ history, e.autoInjected = false := by
  simp [framings]

theorem insertBeforeLast_concat (l : List (HistoryEntry μ)) (u f : HistoryEntry μ) :
    insertBeforeLast (l ++ [u]) f = l ++ [f, u] := by
  rw [insertBeforeLast, List.length_append, List.length_singleton, Nat.add_sub_cancel]
  induction l with
  | nil => rfl
  | cons e l ih => rw [List.length_cons, List.cons_append, List.insertIdx_succ_cons, ih,
      List.cons_append]

theorem framings_pushed (pushed : List μ) : framings (pushed.map HistoryEntry.fromMessage) = 0 := by
  rw [framings_eq_zero]
  intro e he
  obtain ⟨m, -, rfl⟩ := List.mem_map.mp he
  rfl

theorem newEntries_eq {history rest : List (HistoryEntry μ)} {n k : Nat} (h : List (HistoryEntry μ))
    (hn : h.length + k = n)
    (hh : history = h ++ rest) (hk : k ≤ rest.length) : newEntries history n =
    some (stripped (rest.drop k)) := by
  subst hn hh
  rw [newEntries, if_pos (by rw [List.length_append]; omega), List.drop_append,
    List.drop_of_length_le (by omega),
    List.nil_append, Nat.add_sub_cancel_left, stripped]

section
variable [Wire μ] {preprocess : AgentId → Str → Option Str}

theorem autoInjected_userEntry (agent : AgentId) (content sender : Str) :
    (userEntry preprocess agent content sender : HistoryEntry μ).autoInjected = false := by
  rw [userEntry]
  split <;> rfl

theorem agent_userEntry (agent : AgentId) (content sender : Str) :
    (userEntry preprocess agent content sender : HistoryEntry μ).agent = [] := by
  rw [userEntry]
  split <;> rfl

theorem joinHistory_eq (preprocess : AgentId → Str → Option Str) (s : Session μ)
    (content sender : Str) :
    joinHistory preprocess s content sender = stripped s.history ++
    [userEntry preprocess s.agent content sender] := by
  have hu : stripped [(userEntry preprocess s.agent content sender : HistoryEntry μ)] =
      [userEntry preprocess s.agent content sender] := by
    refine stripped_eq_self fun e he => ?_
    rw [List.mem_singleton.mp he]
    exact autoInjected_userEntry ..
  rw [joinHistory, stripped_append, hu]

theorem guestHistory_eq (s : Session μ) (content sender primary : Str) :
    guestHistory preprocess s content sender primary =
      stripped s.history ++ [(HistoryEntry.system (guestText primary)).inject,
        userEntry preprocess s.agent content sender] := by
  rw [guestHistory, joinHistory_eq, insertBeforeLast_concat]

/-- Whether a guest has spoken in what is left of the history. -/
def Consulted (s : Session μ) : Prop := ∃ e ∈ s.history, e.autoInjected = false ∧ e.agent ≠ []

theorem prepareHistory_of_consulted {s : Session μ} (h : Consulted s) (content sender : Str) :
    prepareHistory preprocess s content sender =
      stripped s.history ++ [(HistoryEntry.user guestsText).inject,
        userEntry preprocess s.agent content sender] := by
  obtain ⟨e, he, hi, ha⟩ := h
  have hj := joinHistory_eq preprocess s content sender
  rw [joinHistory] at hj
  rw [prepareHistory, hj]
  rw [if_pos, insertBeforeLast_concat]
  refine List.any_eq_true.mpr ⟨e,
    List.mem_append_left _ (List.mem_filter.mpr ⟨he, by rw [hi]; rfl⟩), ?_⟩
  simpa using ha

theorem prepareHistory_of_not {s : Session μ} (h : ¬ Consulted s) (content sender : Str) :
    prepareHistory preprocess s content sender = stripped s.history ++
    [userEntry preprocess s.agent content sender] := by
  have hj := joinHistory_eq preprocess s content sender
  rw [joinHistory] at hj
  rw [prepareHistory, hj]
  rw [if_neg]
  intro hany
  obtain ⟨e, he, ha⟩ := List.any_eq_true.mp hany
  rcases List.mem_append.mp he with he | he
  · obtain ⟨he, hi⟩ := List.mem_filter.mp he
    exact h ⟨e, he, by simpa using hi, by simpa using ha⟩
  · rw [List.mem_singleton.mp he, agent_userEntry] at ha
    simp at ha

theorem framings_prepare (s : Session μ) (content sender : Str) :
    framings (prepareHistory preprocess s content sender) ≤ 1 := by
  have hu : (userEntry preprocess s.agent content sender : HistoryEntry μ).autoInjected = false :=
    autoInjected_userEntry ..
  by_cases h : Consulted s
  · rw [prepareHistory_of_consulted h, framings_append, framings_stripped]
    simp [framings, hu, HistoryEntry.inject]
  · rw [prepareHistory_of_not h, framings_append, framings_stripped]
    simp [framings, hu]

theorem framings_guest (s : Session μ) (content sender primary : Str) :
    framings (guestHistory preprocess s content sender primary) = 1 := by
  have hu : (userEntry preprocess s.agent content sender : HistoryEntry μ).autoInjected = false :=
    autoInjected_userEntry ..
  rw [guestHistory_eq, framings_append, framings_stripped]
  simp [framings, hu, HistoryEntry.inject]

/-- A live session carries at most one framing entry. -/
theorem Lived.framings_le [TextStd] {s : Session μ} (h : Lived preprocess s) :
    framings s.history ≤ 1 := by
  induction h with
  | opened archives known handle id agent createdBy root now later hr =>
    have := (wp_open_plain (F := True) archives known handle id agent createdBy root now later).runs hr
    exact (framings_eq_zero.mpr this).trans_le (Nat.zero_le 1)
  | @own s _ _ r content sender run now later _ hr ih =>
    have hs : r.1 = ownAfter preprocess s content sender run :=
      (wp_ownTurn (F := True) s content sender run now later).runs hr
    rw [hs]
    cases run with
    | unresolved => exact framings_prepare s content sender
    | dropped pushed | done pushed trace =>
      simp only [ownAfter, framings_append, framings_pushed]
      exact framings_prepare s content sender
  | @guest s _ _ r content sender guest run now later _ hr ih =>
    have hs : r.1 = guestAfter preprocess s content sender run :=
      (wp_guestTurn (F := True) s content sender guest run now later).runs hr
    rw [hs]
    cases run with
    | unresolved => exact ih
    | early =>
      simp only [guestAfter, joinHistory]
      exact (framings_stripped _).trans_le (Nat.zero_le 1)
    | broken primary => exact Nat.le_of_eq (framings_guest s content sender primary)
    | done primary name text reasoning =>
      simp only [guestAfter, framings_append, framings_guest]
      exact Nat.le_refl 1
  | @compacted s _ _ r prompt summarize archive now _ hr ih =>
    rcases (wp_compact (F := True) s prompt summarize archive now).runs hr with hs | ⟨summary, hs⟩
    · rw [hs]; exact ih
    · rw [hs]; exact Nat.zero_le 1
  | @truncated s _ _ r turns _ hr ih =>
    obtain ⟨n, hs⟩ : ∃ n, r.1 = { s with history := s.history.take n } :=
      (wp_truncate (F := True) s turns).runs hr
    rw [hs]
    exact Nat.le_trans ((List.take_sublist n s.history).filter _).length_le ih

/-! ## The batch -/

inductive Turn (μ : Type)
  | own (content sender : Str) (pushed : List μ) (trace : List EventLine)
  | guest (content sender primary name text : Str) (reasoning : Option Str)

namespace Turn

def entry (preprocess : AgentId → Str → Option Str) (s : Session μ) : Turn μ → HistoryEntry μ
  | own content sender _ _ => userEntry preprocess s.agent content sender
  | guest content sender _ _ _ _ => userEntry preprocess s.agent content sender

def pushed : Turn μ → List (HistoryEntry μ)
  | own _ _ pushed _ => pushed.map .fromMessage
  | guest _ _ _ name text reasoning => [guestReply name text reasoning]

def after (preprocess : AgentId → Str → Option Str) (s : Session μ) : Turn μ → Session μ
  | own content sender pushed trace => ownAfter preprocess s content sender (.done pushed trace)
  | guest content sender primary name text reasoning =>
    guestAfter preprocess s content sender (.done primary name text reasoning)

def trace : Turn μ → List EventLine
  | own _ _ _ trace => trace
  | guest .. => []

/-- What the turn is to append: its user message, and what its run pushes but for framing. -/
def batch (preprocess : AgentId → Str → Option Str) (s : Session μ) (t : Turn μ) :
    List (HistoryEntry μ) :=
  t.entry preprocess s :: t.pushed.filter fun e => !e.autoInjected

def exec [TextStd] (preprocess : AgentId → Str → Option Str) (s : Session μ) (guestId : AgentId)
    (now later : Str) :
    Turn μ → KvM μ (Session μ × Ended)
  | own content sender pushed trace =>
    ownTurn preprocess s content sender (.done pushed trace) now later
  | guest content sender primary name text reasoning =>
    guestTurn preprocess s content sender guestId (.done primary name text reasoning) now later

/-- A plain turn on a history with framing that nothing puts in again. -/
def Skips (s : Session μ) : Turn μ → Prop
  | own _ _ _ _ => (∃ e ∈ s.history, e.autoInjected = true) ∧ ¬ Consulted s
  | guest _ _ _ _ _ _ => False

instance (s : Session μ) : Decidable (Consulted s) :=
  inferInstanceAs (Decidable (∃ e ∈ s.history, e.autoInjected = false ∧ e.agent ≠ []))

instance (s : Session μ) : (t : Turn μ) → Decidable (t.Skips s)
  | own _ _ _ _ =>
    inferInstanceAs (Decidable ((∃ e ∈ s.history, e.autoInjected = true) ∧ ¬ Consulted s))
  | guest _ _ _ _ _ _ => instDecidableFalse

end Turn

section
variable {s : Session μ}

omit [Wire μ] in
theorem framing_iff (hk : framings s.history ≤ 1) : (∃ e ∈ s.history, e.autoInjected = true) ↔
    framings s.history = 1 := by
  rw [← not_iff_not]
  have : ¬ framings s.history = 1 ↔ framings s.history = 0 := by omega
  rw [this, framings_eq_zero]
  simp

theorem newEntries_after (hk : framings s.history ≤ 1) (t : Turn μ) (hskip : ¬ t.Skips s) :
    newEntries (t.after preprocess s).history s.history.length =
      some (t.entry preprocess s :: t.pushed.filter fun e => !e.autoInjected) := by
  have hlen := length_stripped s.history
  have h01 : framings s.history = 0 ∨ framings s.history = 1 := by omega
  have hu : ∀ content sender, (userEntry preprocess s.agent content sender :
      HistoryEntry μ).autoInjected = false :=
    fun _ _ => autoInjected_userEntry ..
  cases t with
  | guest content sender primary name text reasoning =>
    simp only [Turn.entry, Turn.pushed, Turn.after, guestAfter]
    rw [newEntries_eq (stripped s.history) hlen (by rw [guestHistory_eq, List.append_assoc])
      (by simp; omega)]
    rcases h01 with h0 | h1
    · rw [h0]
      simp [stripped, HistoryEntry.inject, hu]
    · rw [h1]
      simp [stripped, hu]
  | own content sender pushed trace =>
    simp only [Turn.Skips, framing_iff hk] at hskip
    simp only [Turn.entry, Turn.pushed, Turn.after, ownAfter]
    by_cases hc : Consulted s
    · rw [newEntries_eq (stripped s.history) hlen
        (by rw [prepareHistory_of_consulted hc, List.append_assoc]) (by simp; omega)]
      rcases h01 with h0 | h1
      · rw [h0]
        simp [stripped, HistoryEntry.inject, hu]
      · rw [h1]
        simp [stripped, hu]
    · have h0 : framings s.history = 0 := h01.resolve_right fun h1 => hskip ⟨h1, hc⟩
      rw [newEntries_eq (stripped s.history) hlen
        (by rw [prepareHistory_of_not hc, List.append_assoc]) (by simp; omega), h0]
      simp [stripped, hu]

/-- The slice starts behind the user message: it is one entry short. -/
theorem newEntries_skips (hk : framings s.history ≤ 1) (t : Turn μ) (hskip : t.Skips s) :
    newEntries (t.after preprocess s).history s.history.length =
    some (t.pushed.filter fun e => !e.autoInjected) := by
  have hlen := length_stripped s.history
  cases t with
  | guest content sender primary name text reasoning => exact hskip.elim
  | own content sender pushed trace =>
    simp only [Turn.Skips, framing_iff hk] at hskip
    obtain ⟨h1, hc⟩ := hskip
    simp only [Turn.pushed, Turn.after, ownAfter]
    rw [newEntries_eq (stripped s.history) hlen
      (by rw [prepareHistory_of_not hc, List.append_assoc]) (by simp; omega), h1]
    simp [stripped]

end

/-! ## The tail of its run -/

section
variable [TextStd] {F : Prop} {s : Session μ} {h : Str} {n : Nat}
  {entries : List (HistoryEntry μ)} {kv : Kv μ}

/-- What `finalize_run` does behind the append. -/
def finalizeTail (s : Session μ) (handle : Str) (eventTrace : List EventLine) (later : Str) :
    KvM μ Unit := do
  if eventTrace.isEmpty then pure ()
  else let _ ← (appendSessionEvents handle eventTrace).attempt
  let _ ← (updateSessionMeta handle (s.sessionMeta later)).attempt

theorem finalizeRun_cut (hh : s.handle = some h) (hn : newEntries s.history n = some entries)
    (trace : List EventLine) (now later : Str) :
    finalizeRun s n trace now later =
      (appendSessionMessages h entries now).attempt >>= fun _ => finalizeTail s h trace later := by
  unfold finalizeRun finalizeTail
  rw [hh]
  dsimp only
  rw [hn]

omit [Wire μ] in
theorem wp_finalizeTail_kept (ht : TextTyped kv) (trace : List EventLine) (later : Str) :
    Prog.wp F memory (finalizeTail s h trace later) (fun _ => MessagesKept h kv)
    (fun _ => MessagesKept h kv) kv := by
  have hupdate : ∀ kv₁, TextTyped kv₁ ∧ MessagesKept h kv kv₁ → Prog.wp F memory (do
      let _ ← (updateSessionMeta h (s.sessionMeta later)).attempt : KvM μ Unit)
      (fun _ => MessagesKept h kv) (fun _ => MessagesKept h kv) kv₁ := by
    intro kv₁ ⟨ht₁, hk₁⟩
    rw [Prog.wp_bind, Prog.wp_attempt]
    exact (wp_update_kept ht₁ _).mono (fun _ _ h₂ => hk₁.trans h₂.2) fun _ _ h₂ => hk₁.trans h₂.2
  unfold finalizeTail
  dsimp only
  split
  · exact hupdate kv ⟨ht, .refl⟩
  · rw [Prog.wp_bind, Prog.wp_attempt]
    exact (wp_events_kept ht trace).mono (fun _ => hupdate) fun _ => hupdate

/-- The tail of a run appends its slice. It writes no other message, whichever of its operations fail. -/
theorem wp_finalizeRun_appended (hh : s.handle = some h)
    (hn : newEntries s.history n = some entries)
    (ht : TextTyped kv) (trace : List EventLine) (now later : Str) :
    Prog.wp F memory (finalizeRun s n trace now later)
      (fun _ kv' => WrittenOf h entries kv kv' ∧
        ((∃ m, kv[((.session, metaKey h) : Cell)]? = some (.sessionMeta m)) → F ∨
          Appended h entries kv kv'))
      (fun _ kv' => WrittenOf h entries kv kv' ∧
        ((∃ m, kv[((.session, metaKey h) : Cell)]? = some (.sessionMeta m)) → F ∨
          Appended h entries kv kv')) kv := by
  rw [finalizeRun_cut hh hn, Prog.wp_bind, Prog.wp_attempt]
  have hrest : ∀ kv₁, TextTyped kv₁ → WrittenOf h entries kv kv₁ →
      ((∃ m, kv[((.session, metaKey h) : Cell)]? = some (.sessionMeta m)) → F ∨
        Appended h entries kv kv₁) →
      ∀ kv₂, MessagesKept h kv₁ kv₂ → WrittenOf h entries kv kv₂ ∧
        ((∃ m, kv[((.session, metaKey h) : Cell)]? = some (.sessionMeta m)) → F ∨
          Appended h entries kv kv₂) :=
    fun kv₁ _ hw ha kv₂ hk => ⟨hw.kept hk, fun hm => (ha hm).imp_right (Appended.kept · hk)⟩
  refine (wp_append_appended ht now).mono (fun _ kv₁ h₁ => ?_) fun _ kv₁ h₁ => ?_
  · obtain ⟨ht₁, hw, ha⟩ := h₁
    have hkept := hrest kv₁ ht₁ hw fun hm => .inr (ha hm)
    exact (wp_finalizeTail_kept ht₁ trace later).mono (fun _ => hkept) fun _ => hkept
  · obtain ⟨ht₁, hw, hF⟩ := h₁
    have hkept := hrest kv₁ ht₁ hw fun hm => .inl (hF hm)
    exact (wp_finalizeTail_kept ht₁ trace later).mono (fun _ => hkept) fun _ => hkept

theorem wp_exec_appended (hh : s.handle = some h) (t : Turn μ)
    (hn : newEntries (t.after preprocess s).history s.history.length = some entries)
    (ht : TextTyped kv)
    (guestId : AgentId) (now later : Str) :
    Prog.wp F memory (t.exec preprocess s guestId now later)
      (fun _ kv' => WrittenOf h entries kv kv' ∧
        ((∃ m, kv[((.session, metaKey h) : Cell)]? = some (.sessionMeta m)) → F ∨
          Appended h entries kv kv'))
      (fun _ _ => False) kv := by
  cases t with
  | own content sender pushed trace =>
    unfold Turn.exec ownTurn
    rw [Prog.wp_bind, Prog.wp_attempt]
    refine (wp_finalizeRun_appended ?_ hn ht trace now later).mono (fun _ _ h₁ => h₁)
      fun _ _ h₁ => h₁
    exact hh
  | guest content sender primary name text reasoning =>
    unfold Turn.exec guestTurn
    rw [Prog.wp_bind, Prog.wp_attempt]
    refine (wp_finalizeRun_appended ?_ hn ht [] now later).mono (fun _ _ h₁ => h₁) fun _ _ h₁ => h₁
    exact hh

omit [TextStd] in
/-- The slice of a turn is its batch, or its batch without the user message. -/
theorem newEntries_turn (hk : framings s.history ≤ 1) (t : Turn μ) :
    ∃ entries, newEntries (t.after preprocess s).history s.history.length = some entries ∧
      (∀ e ∈ entries, e ∈ t.batch preprocess s) ∧
      (entries.length = (t.batch preprocess s).length ↔ ¬ t.Skips s) ∧
      (¬ t.Skips s → entries = t.batch preprocess s) := by
  by_cases hskip : t.Skips s
  · refine ⟨_, newEntries_skips hk t hskip, fun e he => List.mem_cons_of_mem _ he, ?_,
      fun hn => (hn hskip).elim⟩
    simp [Turn.batch, hskip]
  · exact ⟨_, newEntries_after hk t hskip, fun _ he => he, by simp [Turn.batch, hskip], fun _ => rfl⟩

end

/-- A finished turn appends its user message and then what its run pushed, in
order, when the record of its session is there and it does not skip its user
message. Whatever it skips, and whichever operations fail, no message is
written that is not of the turn. -/
theorem batch_exact [TextStd] {s : Session μ} (hs : Lived preprocess s) {h : Str}
    (hh : s.handle = some h) {kv : Kv μ}
    (ht : TextTyped kv) (t : Turn μ) (guestId : AgentId) (now later : Str) :
    (∃ r kv', Prog.interp memory (t.exec preprocess s guestId now later) kv = .ok r kv' ∧
      (Appended h (t.batch preprocess s) kv kv' ↔
        (∃ m, kv[((.session, metaKey h) : Cell)]? = some (.sessionMeta m)) ∧ ¬ t.Skips s)) ∧
    ∀ r kv', Prog.Runs True memory (t.exec preprocess s guestId now later) kv r kv' →
      WrittenOf h (t.batch preprocess s) kv kv' := by
  obtain ⟨entries, hn, hsub, hlen, heq⟩ := newEntries_turn hs.framings_le t
  constructor
  · obtain ⟨r, kv', hr, -, ha⟩ :=
      (wp_exec_appended (F := False) hh t hn ht guestId now later).answers
    refine ⟨r, kv', hr, fun hb => ⟨hb.stored, ?_⟩, fun ⟨hm, hskip⟩ => ?_⟩
    · -- the slice was appended too, and the counter has moved by one number only
      exact hlen.mp (((ha hb.stored).resolve_left id).length_eq hb)
    · rw [← heq hskip]
      exact (ha hm).resolve_left id
  · intro r kv' hr k hk
    have hw := (wp_exec_appended (F := True) hh t hn ht guestId now later).runs hr
    cases r with
    | error e => exact hw.elim
    | ok r => exact (hw.1 k hk).imp_right fun ⟨e, he, hv⟩ => ⟨e, hsub e he, hv⟩

end

/-! ## A guest who failed to answer -/

section
open Plain

def noHook : AgentId → Str → Option Str := fun _ _ => none

def fresh : Session Message :=
  { Session.new 1 ⟨0⟩ "user".toList "t1+00:00".toList with handle := some "chat".toList }

theorem fresh_lived : Lived noHook fresh := by
  have hw : Prog.wp False memory _ _ (fun _ _ => False) (∅ : Kv Message) :=
    wp_open_absent (fun _ => none) (fun _ => true) "chat".toList 1 ⟨0⟩ "user".toList none
      "t0+00:00".toList "t1+00:00".toList
      (by simp) rfl
  obtain ⟨s, kv, hr, rfl⟩ := hw.run True
  exact .opened _ _ _ _ _ _ _ _ _ hr

theorem record_created : ∃ kv : Kv Message, Reached kv ∧
    ∃ m, kv[((.session, metaKey "chat".toList) : Cell)]? = some (.sessionMeta m) := by
  obtain ⟨_, kv, hr, hf⟩ := (wp_create_filed (s := (∅ : Kv Message)) (h := "chat".toList)
      (fun _ _ => by simp)
    ⟨0⟩ "user".toList none "t0+00:00".toList).answers
  obtain ⟨m, hm, -⟩ := hf.counted
  exact ⟨kv, .session "chat".toList (.create ⟨0⟩ "user".toList none "t0+00:00".toList) .empty
    ⟨by decide, by decide⟩
    (Prog.runs_of_interp True hr), m, hm⟩

def greeting : Turn Message := .own "hello".toList [] [⟨"assistant".toList, "hi".toList⟩] []

theorem batch_exact_instance : Lived noHook fresh ∧ ∃ r, ∃ kv kv' : Kv Message, TextTyped kv ∧
    Prog.interp memory (greeting.exec noHook fresh ⟨0⟩ "t2+00:00".toList "t3+00:00".toList) kv = .ok r kv' ∧
      Appended "chat".toList [.user "hello".toList, .fromMessage ⟨"assistant".toList, "hi".toList⟩]
      kv kv' := by
  obtain ⟨kv, hreached, hm⟩ := record_created
  have ht : TextTyped kv := hreached.typed.text
  obtain ⟨⟨r, kv', hr, ha⟩, -⟩ :=
    batch_exact fresh_lived rfl ht greeting ⟨0⟩ "t2+00:00".toList "t3+00:00".toList
  exact ⟨fresh_lived, r, kv, kv', ht, hr, ha.mpr ⟨hm, by decide⟩⟩

/-- A guest's stream fails; the next plain turn appends the answer without the question. -/
theorem failed_guest_skips_message : ∃ s : Session Message, Lived noHook s ∧
    s.handle = some "chat".toList ∧
    ∃ r, ∃ kv kv' : Kv Message, Reached kv ∧
      Prog.interp memory (greeting.exec noHook s ⟨0⟩ "t2+00:00".toList "t3+00:00".toList) kv = .ok r kv' ∧
      Appended "chat".toList [.fromMessage ⟨"assistant".toList, "hi".toList⟩] kv kv' ∧
      ¬ Appended "chat".toList [.user "hello".toList,
        .fromMessage ⟨"assistant".toList, "hi".toList⟩] kv kv' := by
  have hbroken : Prog.Runs True memory
      (guestTurn noHook fresh "ask".toList [] ⟨1⟩ (.broken "crab".toList) [] []) (∅ : Kv Message)
      (.ok (guestAfter noHook fresh "ask".toList [] (.broken "crab".toList), .dropped)) ∅ := .done _ _
  have hs := Lived.guest "ask".toList [] ⟨1⟩ (.broken "crab".toList) [] [] fresh_lived hbroken
  obtain ⟨kv, hreached, hm⟩ := record_created
  have hn : newEntries (greeting.after noHook _).history _ = _ :=
    newEntries_skips hs.framings_le greeting (by decide)
  obtain ⟨r, kv', hr, -, ha⟩ :=
    (wp_exec_appended (F := False) rfl greeting hn hreached.typed.text ⟨0⟩
    "t2+00:00".toList "t3+00:00".toList).answers
  have hanswer := (ha hm).resolve_left id
  exact ⟨_, hs, rfl, r, kv, kv', hreached, hr, hanswer,
    fun hb => absurd (hb.length_eq hanswer) (by decide)⟩

end

end Crabtalk.Runtime

import Crabtalk.Runtime.Pairing
import Crabtalk.Runtime.Rewind
import Crabtalk.Runtime.Sender

/-!
# Where a turn opens

A turn is opened by what the user said. Tool results have the role of the user
too, and so has the archive in front of a compacted history: counted as turns,
they move the cut.
-/

open Basis
open Crabtalk.Store

namespace Crabtalk.Runtime

/-! ## Turns -/

section
variable {μ : Type} [Wire μ]

def userSaid (e : HistoryEntry μ) : Bool := opensTurn e && !Wire.hasToolResult e.message

/-- Counted from the end, the message of the user number `turns` is at position `b`, behind the archive. -/
def UserTurnAt (s : Session μ) (turns b : Nat) : Prop :=
  archiveOffset s ≤ b ∧ (∃ e, s.history[b]? = some e ∧ userSaid e = true) ∧
    (s.history.drop b).countP userSaid = turns

/-- No tool result stands from the cut on, and where there are not so many turns there are not so
many entries of the user's role. -/
def Cuttable (s : Session μ) (turns : Nat) : Prop :=
  (∀ b, UserTurnAt s turns b → ∀ e ∈ s.history.drop b, opensTurn e = true →
    Wire.hasToolResult e.message = false) ∧
    ((∀ b, ¬ UserTurnAt s turns b) → turns = 0 ∨ s.history.countP opensTurn < turns)

theorem exists_turnAt {l : List (HistoryEntry μ)} {n : Nat} : (∃ b, TurnAt l n b) ↔
    0 < n ∧ n ≤ l.countP opensTurn := by
  induction l using List.reverseRecOn generalizing n with
  | nil =>
    constructor
    · intro ⟨b, hb⟩
      exact absurd hb.pos.2 (Nat.not_lt_zero b)
    · intro ⟨hpos, hle⟩
      exact absurd hle (by simp; omega)
  | append_singleton l e ih =>
    simp only [turnAt_concat]
    rw [List.countP_append, List.countP_singleton]
    cases ho : opensTurn e with
    | false => simpa using ih
    | true =>
      simp only [ite_true, true_and, Bool.true_eq_false, false_and, or_false]
      constructor
      · intro ⟨b, hb⟩
        rcases hb with ⟨rfl, -⟩ | ⟨m, rfl, hb⟩
        · omega
        · have := ih.mp ⟨b, hb⟩
          omega
      · intro ⟨hpos, hle⟩
        by_cases hone : n = 1
        · exact ⟨l.length, .inl ⟨hone, rfl⟩⟩
        · obtain ⟨b, hb⟩ := (ih (n := n - 1)).mpr ⟨by omega, by omega⟩
          exact ⟨b, .inr ⟨n - 1, by omega, hb⟩⟩

theorem countP_userSaid {l : List (HistoryEntry μ)} :
    l.countP userSaid = l.countP opensTurn ↔ ∀ e ∈ l, opensTurn e = true →
    Wire.hasToolResult e.message = false := by
  induction l with
  | nil => simp
  | cons e l ih =>
    have hle : l.countP userSaid ≤ l.countP opensTurn := List.countP_mono_left fun e _ he =>
        (Bool.and_eq_true_iff.mp he).1
    rw [List.countP_cons, List.countP_cons, List.forall_mem_cons, ← ih]
    cases ho : opensTurn e with
    | false => simp [userSaid, ho]
    | true =>
      cases ht : Wire.hasToolResult e.message with
      | false => simp [userSaid, ho, ht]
      | true =>
        simp only [userSaid, ho, ht, Bool.not_true, Bool.and_false, Bool.false_eq_true,
          ite_false, ite_true]
        simp
        omega

end

/-! ## The cut -/

section
variable {μ : Type} [Wire μ] {F : Prop} {s : Session μ} {kv kv' : Kv μ} {turns : Nat}
  {r : Session μ × Except Error Nat}

theorem wp_truncate_history {b : Nat} (hb : boundary s.history turns = some b) :
    Prog.wp F memory (truncate s turns) (fun r _ => r.1.history = s.history.take b)
    (fun _ _ => True) kv := by
  unfold truncate
  rw [hb]
  cases hh : s.handle with
  | none => exact rfl
  | some h =>
    dsimp only
    by_cases hlt : (s.history.take b).length < if s.summary.isSome then 1 else 0
    · rw [if_pos hlt]
      exact rfl
    · rw [if_neg hlt, Prog.wp_bind, Prog.wp_attempt]
      exact Prog.wp.trivial (fun _ _ => rfl) fun _ _ => rfl

/-- The cut is where so many entries of the user's role follow, whatever the store does. -/
theorem truncate_history (hr : Prog.Runs F memory (truncate s turns) kv (.ok r) kv') :
    (∀ b, TurnAt s.history turns b → r.1.history = s.history.take b) ∧
    ((∀ b, ¬ TurnAt s.history turns b) → r.1.history = s.history) := by
  cases hb : boundary s.history turns with
  | none =>
    unfold truncate at hr
    rw [hb] at hr
    cases hr
    exact ⟨fun b ht => absurd ht (boundary_none hb b), fun _ => rfl⟩
  | some b =>
    have hturn := boundary_some.mp hb
    have hcut : r.1.history = s.history.take b := (wp_truncate_history hb).runs hr
    exact ⟨fun b' ht => by rw [hturn.unique ht, hcut], fun hn => absurd hturn (hn b)⟩

end

/-! ## What a truncation should leave -/

section
variable {μ : Type} [AgentWire μ] {F : Prop} {s : Session μ} {kv kv' : Kv μ} {turns : Nat}
  {r : Session μ × Except Error Nat}

/-- Exactly the entries from the opening of the turn on are gone, and no results of a call are cut off. -/
structure CutsTurns (s : Session μ) (turns : Nat) (rest : List (HistoryEntry μ)) : Prop where
  cut : ∀ b, UserTurnAt s turns b → rest = s.history.take b
  kept : (∀ b, ¬ UserTurnAt s turns b) → rest = s.history
  paired : Paired s.history → Paired rest

/-- In front of a message that is no tool result, every call has its results. -/
theorem Paired.cut (htool : ∀ (call : ToolCall) (out : Except Str Str), Wire.hasToolResult
    (toolEntry call out : HistoryEntry μ).message = true)
    {a rest : List (HistoryEntry μ)} {e : HistoryEntry μ}
    (he : Wire.hasToolResult e.message = false) (h : Paired (a ++ e :: rest)) :
    Paired a := by
  generalize hl : a ++ e :: rest = l at h
  induction h generalizing a with
  | nil => simp at hl
  | @round x outs tail hx hlen _ ih =>
    cases a with
    | nil => exact .nil
    | cons y a =>
      obtain ⟨rfl, hl⟩ := List.cons.inj hl
      rcases List.append_eq_append_iff.mp hl with ⟨c, hc, htail⟩ | ⟨c, hc, htail⟩
      · -- the cut is among the results
        cases c with
        | nil =>
          rw [List.append_nil] at hc
          rw [← hc]
          exact .group hx outs hlen
        | cons z c =>
          obtain ⟨rfl, -⟩ := List.cons.inj htail
          have hmem : e ∈ List.zipWith toolEntry (AgentWire.toolCalls y.message) outs := by
            rw [hc]
            simp
          obtain ⟨i, hi, hget⟩ := List.mem_iff_getElem.mp hmem
          rw [List.getElem_zipWith] at hget
          rw [← hget, htool] at he
          cases he
      · rw [hc]
        exact .round hx hlen (ih htail.symm)

/-- A truncation cuts at the turn just when no tool result, nor the archive, is taken for the
opening of one. -/
theorem truncate_cuts_turns
    (htool : ∀ (call : ToolCall) (out : Except Str Str), Wire.hasToolResult
      (toolEntry call out : HistoryEntry μ).message = true)
    (hr : Prog.Runs F memory (truncate s turns) kv (.ok r) kv') : CutsTurns s turns r.1.history ↔
    Cuttable s turns := by
  obtain ⟨hcut, hkept⟩ := truncate_history hr
  have hshorter : ∀ b, b < s.history.length → s.history.take b ≠ s.history := by
    intro b hb he
    have := congrArg List.length he
    rw [List.length_take] at this
    omega
  constructor
  · intro hc
    constructor
    · intro b hb
      have hlt : b < s.history.length := by
        obtain ⟨-, ⟨e, he, -⟩, -⟩ := hb
        exact (List.getElem?_eq_some_iff.mp he).1
      by_cases hex : ∃ b', TurnAt s.history turns b'
      -- two cuts of one history are the same only at one place
      · obtain ⟨b', hb'⟩ := hex
        have hsame := congrArg List.length ((hcut b' hb').symm.trans (hc.cut b hb))
        have hlt' := hb'.pos.2
        rw [List.length_take, List.length_take] at hsame
        have heq : b' = b := by omega
        subst heq
        exact countP_userSaid.mp (hb.2.2.trans hb'.2.symm)
      · have hall := hkept fun b' hb' => hex ⟨b', hb'⟩
        rw [hc.cut b hb] at hall
        exact absurd hall (hshorter b hlt)
    · intro hn
      -- a turn that the scan finds though the user has not had so many
      by_contra hmany
      obtain ⟨b, hb⟩ := exists_turnAt.mpr (show 0 < turns ∧
          turns ≤ s.history.countP opensTurn by omega)
      have hall := hc.kept hn
      rw [hcut b hb] at hall
      exact hshorter b hb.pos.2 hall
  · intro ⟨hplain, hfew⟩
    have hturn : ∀ b, UserTurnAt s turns b → TurnAt s.history turns b := by
      intro b hb
      have hcount := countP_userSaid.mpr (hplain b hb)
      obtain ⟨-, ⟨e, he, hsaid⟩, hn⟩ := hb
      exact ⟨⟨e, he, (Bool.and_eq_true_iff.mp hsaid).1⟩, hcount.symm.trans hn⟩
    have hnone : (∀ b, ¬ UserTurnAt s turns b) → ∀ b, ¬ TurnAt s.history turns b := by
      intro hn b hb
      have := exists_turnAt.mp ⟨b, hb⟩
      have := hfew hn
      omega
    refine ⟨fun b hb => hcut b (hturn b hb), fun hn => hkept (hnone hn), fun hp => ?_⟩
    -- the cut is at a message of the user, where no result is due
    by_cases hex : ∃ b, UserTurnAt s turns b
    · obtain ⟨b, hb⟩ := hex
      rw [hcut b (hturn b hb)]
      obtain ⟨-, ⟨e, he, hsaid⟩, -⟩ := hb
      obtain ⟨hlt, hget⟩ := List.getElem?_eq_some_iff.mp he
      rw [← List.take_append_drop b s.history, List.drop_eq_getElem_cons hlt, hget] at hp
      have hno : Wire.hasToolResult e.message = false := by
        simpa using (Bool.and_eq_true_iff.mp hsaid).2
      exact hp.cut htool hno
    · rw [hkept (hnone fun b hb => hex ⟨b, hb⟩)]
      exact hp

end

/-! ## A turn with a tool -/

section
open Plain

def askedTurn (calls : List ToolCall) : Session Talk :=
  { (Session.new 1 ⟨0⟩ [] [] : Session Talk) with
    history := HistoryEntry.user "hi".toList :: (if calls = [] then [] else
      HistoryEntry.fromMessage (.asked calls) :: calls.map fun call =>
        toolEntry call (.ok "done".toList)) ++
        [HistoryEntry.fromMessage (.said "assistant".toList "there".toList)] }

theorem plain_turn_cut : ∃ r : Session Talk × Except Error Nat,
    Prog.Runs False memory (truncate (askedTurn []) 1) (∅ : Kv Talk) (.ok r) ∅ ∧
    CutsTurns (askedTurn []) 1 r.1.history := by
  have hr : Prog.Runs False memory (truncate (askedTurn []) 1) (∅ : Kv Talk)
      (.ok ({ askedTurn [] with history := [] }, .ok 0)) ∅ :=
    .done _ _
  refine ⟨_, hr, (truncate_cuts_turns (fun _ _ => rfl) hr).mpr ⟨fun b hb e he ho => ?_, fun hn => ?_⟩⟩
  · have hall : ∀ e ∈ (askedTurn []).history, Wire.hasToolResult e.message = false := by decide
    exact hall e (List.mem_of_mem_drop he)
  · exact absurd ⟨by decide, ⟨_, rfl, by decide⟩, by decide⟩ (hn 0)

/-- With a tool called, the cut is at its result: the question stays, and a call without its result
behind it. -/
theorem tool_result_taken_for_turn : ∃ r : Session Talk × Except Error Nat,
    Prog.Runs False memory (truncate (askedTurn [⟨"1".toList, "recall".toList, []⟩]) 1)
    (∅ : Kv Talk) (.ok r) ∅ ∧
    r.1.history = [HistoryEntry.user "hi".toList,
      HistoryEntry.fromMessage (.asked [⟨"1".toList, "recall".toList, []⟩])] ∧
    ¬ CutsTurns (askedTurn [⟨"1".toList, "recall".toList, []⟩]) 1 r.1.history := by
  refine ⟨_, .done _ _, rfl, fun hc => ?_⟩
  have hnone := congrArg List.length (hc.cut 0 ⟨by decide, ⟨_, rfl, by decide⟩, by decide⟩)
  exact absurd hnone (by decide)

end

end Crabtalk.Runtime

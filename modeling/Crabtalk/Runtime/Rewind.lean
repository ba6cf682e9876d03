import Crabtalk.Runtime.Synced
import Crabtalk.Store.Compaction

/-! # Rewinding a session

The cut is looked for in the live history, where the archive prefix is a user
entry like any other. The store has no such entry, so the cut is turned into a
count of stored messages before it is made there.
-/

open Basis
open Crabtalk.Store

namespace Crabtalk.Runtime

variable {μ : Type}

/-! ## The cut in the live history -/

section
variable [Wire μ]

def opensTurn (e : HistoryEntry μ) : Bool := decide (e.role = .user ∧ e.autoInjected = false)

/-- Counted from the end, the turn number `turns` opens at position `b`. -/
def TurnAt (history : List (HistoryEntry μ)) (turns b : Nat) : Prop :=
  (∃ e, history[b]? = some e ∧ opensTurn e = true) ∧ (history.drop b).countP opensTurn = turns

theorem TurnAt.pos {history : List (HistoryEntry μ)} {turns b : Nat} (ht : TurnAt history turns b) :
    0 < turns ∧ b < history.length := by
  obtain ⟨⟨e, he, ho⟩, hcount⟩ := ht
  obtain ⟨hb, hget⟩ := List.getElem?_eq_some_iff.mp he
  refine ⟨?_, hb⟩
  rw [← hcount, List.countP_pos_iff]
  exact ⟨e, hget ▸ List.mem_drop_iff_getElem.mpr ⟨0, by simpa using hb, rfl⟩, ho⟩

theorem turnAt_concat {l : List (HistoryEntry μ)} {e : HistoryEntry μ} {n b : Nat} :
    TurnAt (l ++ [e]) n b ↔
    (opensTurn e = true ∧ ((n = 1 ∧ b = l.length) ∨ ∃ m, n = m + 1 ∧ TurnAt l m b)) ∨
    (opensTurn e = false ∧ TurnAt l n b) := by
  unfold TurnAt
  by_cases hb : b < l.length
  · rw [List.getElem?_append_left hb, List.drop_append_of_le_length (Nat.le_of_lt hb),
      List.countP_append, List.countP_singleton]
    cases ho : opensTurn e with
    | true =>
      simp only [ite_true, true_and, Bool.true_eq_false, false_and, or_false]
      constructor
      · intro h
        exact .inr ⟨_, h.2.symm, h.1, rfl⟩
      · intro h
        rcases h with h | ⟨m, hm, h⟩
        · omega
        · exact ⟨h.1, by omega⟩
    | false => simp
  · have hnone : l[b]? = none := List.getElem?_eq_none (Nat.le_of_not_lt hb)
    by_cases he : b = l.length
    · subst he
      cases ho : opensTurn e with
      | true =>
        simp [ho]
        exact eq_comm
      | false => simp [ho]
    · rw [List.getElem?_eq_none (by simp; omega), hnone]
      simp
      omega

theorem boundaryFrom_some {turns b : Nat} {l : List (HistoryEntry μ)} :
    ∀ {seen : Nat}, boundaryFrom turns l.zipIdx.reverse seen = some b ↔
    ∃ n, seen + n = turns ∧ TurnAt l n b := by
  induction l using List.reverseRecOn with
  | nil =>
    intro seen
    simp [boundaryFrom, TurnAt]
  | append_singleton l e ih =>
    intro seen
    rw [List.zipIdx_append, List.reverse_append]
    simp only [List.zipIdx_singleton, List.reverse_singleton, List.singleton_append, Nat.zero_add,
      boundaryFrom, turnAt_concat]
    have hopens : (e.role = .user ∧ e.autoInjected = false) ↔ opensTurn e = true := by
      simp [opensTurn]
    rw [if_congr hopens rfl rfl]
    cases ho : opensTurn e with
    | false => simp [ih]
    | true =>
      by_cases ht : seen + 1 = turns
      · simp only [ite_true, if_pos ht, Option.some.injEq]
        constructor
        · intro hb
          exact ⟨1, ht, .inl ⟨trivial, .inl ⟨rfl, hb.symm⟩⟩⟩
        · intro h
          obtain ⟨n, hn, h⟩ := h
          rcases h with ⟨-, h | ⟨m, hm, h⟩⟩ | h
          · exact h.2.symm
          · have := h.pos.1
            omega
          · cases h.1
      · simp only [ite_true, if_neg ht, ih]
        constructor
        · intro h
          obtain ⟨n, hn, h⟩ := h
          exact ⟨n + 1, by omega, .inl ⟨trivial, .inr ⟨n, rfl, h⟩⟩⟩
        · intro h
          obtain ⟨n, hn, h⟩ := h
          rcases h with ⟨-, h | ⟨m, hm, h⟩⟩ | h
          · omega
          · exact ⟨m, by omega, h⟩
          · cases h.1

theorem boundary_some {history : List (HistoryEntry μ)} {turns b : Nat} :
    boundary history turns = some b ↔ TurnAt history turns b := by
  unfold boundary
  rw [boundaryFrom_some]
  simp

end

/-! ## The cut in the store -/

section
variable {h : Str} {kv kv' : Kv μ}

theorem mem_take_iff {α β : Type} {f : α → β} {l : List α} (hl : (l.map f).Nodup)
    (n : Nat) {a : α} :
    a ∈ l.take n ↔ a ∈ l ∧ f a ∉ (l.map f).drop n := by
  have hsplit : ((l.take n).map f ++ (l.map f).drop n).Nodup := by
    rw [List.map_take, List.take_append_drop]
    exact hl
  have hdisj := List.disjoint_of_nodup_append hsplit
  constructor
  · intro ha
    exact ⟨List.mem_of_mem_take ha, hdisj (List.mem_map_of_mem ha)⟩
  · intro ⟨ha, hn⟩
    rw [← List.take_append_drop n l, List.mem_append] at ha
    refine ha.resolve_right fun hd => hn ?_
    rw [← List.map_drop]
    exact List.mem_map_of_mem hd

/-- The messages a truncation leaves are the first ones. -/
theorem under_truncated {keep : Nat} (hs : ∀ k, messagePrefix h <+: k →
      kv'[((.session, k) : Cell)]? = if k ∈ (messageKeys h kv).drop keep then none
      else kv[((.session, k) : Cell)]?) :
    kv'.under .session (messagePrefix h) = (kv.under .session (messagePrefix h)).take keep := by
  apply ColMap.under_eq
  · exact (ColMap.sorted_under kv .session (messagePrefix h)).sublist (List.take_sublist _ _)
  · rintro ⟨col, k⟩ v
    rw [mem_take_iff (messageKeys_nodup h kv), ColMap.mem_under]
    simp only
    constructor
    · rintro ⟨⟨hv, hcol, hk⟩, hn⟩
      subst hcol
      exact ⟨(hs k hk).trans ((if_neg hn).trans hv), rfl, hk⟩
    · rintro ⟨hv, hcol, hk⟩
      subst hcol
      rw [hs k hk] at hv
      by_cases hn : k ∈ (messageKeys h kv).drop keep
      · rw [if_pos hn] at hv
        cases hv
      · rw [if_neg hn] at hv
        exact ⟨⟨hv, rfl, hk⟩, hn⟩

theorem wp_truncate_view (ht : TextTyped kv) (hm : MetasTyped kv) (keep : Nat) :
    Prog.wp False memory (truncateSessionMessages h keep)
      (fun _ kv' => ∀ c, sessionView h kv = .ok (some c) → ∃ m, sessionView h kv' =
        .ok (some ⟨m, ((kv.under .session (messagePrefix h)).take keep).filterMap fun e =>
          e.2.asEntry, c.archive⟩))
      (fun _ _ => False) kv := by
  rw [truncateSessionMessages, Prog.wp_bind]
  cases hmeta : kv[((.session, metaKey h) : Cell)]? with
  | none =>
    rw [sessionMeta, wp_getJson, hmeta]
    refine ⟨fun c hc => ?_, False.elim⟩
    rw [(sessionView_some hc).1] at hmeta
    cases hmeta
  | some v =>
    obtain ⟨m, rfl⟩ := hm.metas h v hmeta
    refine wp_sessionMeta hmeta ?_ False.elim
    simp only
    rw [Prog.wp_bind, wp_scanKeys]
    refine ⟨?_, False.elim⟩
    rw [Prog.wp_bind]
    refine (wp_dropKeys _ kv ht).mono (fun _ s hdropped => ?_) fun _ _ he => he
    obtain ⟨-, hs⟩ := hdropped
    rw [wp_put]
    refine ⟨fun c hc => ?_, False.elim⟩
    have hkey : ∀ k, k ≠ metaKey h → (s.insert ((.session, metaKey h) : Cell) (.sessionMeta { m with
        messageCount := min keep (messageKeys h kv).length }))[((.session, k) : Cell)]? =
          if k ∈ (messageKeys h kv).drop keep then none else kv[((.session, k) : Cell)]? := by
      intro k hk
      rw [find_insert, if_neg (by simpa using hk.symm)]
      exact hs k
    have harch : archiveKey h ∉ (messageKeys h kv).drop keep := by
      intro hmem
      exact messagePrefix_not_archiveKey (mem_messageKeys.mp (List.mem_of_mem_drop hmem)).1
    have hpointer := hkey (archiveKey h) (archiveKey_ne_metaKey h h)
    rw [if_neg harch] at hpointer
    have hview := sessionView_of ((find_insert ..).trans (if_pos rfl))
        ((readJson_congr hpointer).trans (sessionView_some hc).2.1)
    rw [under_truncated fun k hk => hkey k fun he => messagePrefix_not_metaKey (he ▸ hk)] at hview
    exact ⟨_, hview⟩

end

/-! ## Behind the archive -/

section
variable {s : Session μ} {h : Str} {kv kv' : Kv μ}

/-- The archive prefix is there, and behind it stands what is stored. -/
def InStep (c : SessionSnapshot μ) (l : List (HistoryEntry μ)) : Prop :=
  archived c ≤ l.length ∧ (l.drop (archived c)).map HistoryEntry.persist = c.history

theorem synced_iff {c : SessionSnapshot μ} (hh : s.handle = some h)
    (hc : sessionView h kv = .ok (some c)) :
    Synced s kv ↔ InStep c (stripped s.history) := by
  constructor
  · intro ⟨h', c', front, rest, hh', hc', hhist, hfront, hrest⟩
    rw [hh] at hh'
    cases hh'
    rw [hc] at hc'
    cases hc'
    unfold InStep
    rw [hhist, ← hfront, List.drop_left]
    exact ⟨by simp, hrest⟩
  · intro ⟨hle, hdrop⟩
    exact ⟨h, c, (stripped s.history).take (archived c), (stripped s.history).drop (archived c), hh, hc,
      (List.take_append_drop _ _).symm, List.length_take_of_le hle, hdrop⟩

def archiveOffset (s : Session μ) : Nat := if s.summary.isSome then 1 else 0

def readable (h : Str) (kv : Kv μ) (n : Nat) : Nat :=
  ((kv.under .session (messagePrefix h)).take n).countP fun e => e.2.asEntry.isSome

/-- The history in front of `b` can be made the stored one: the archive prefix is in it, what stands
behind that is stored, and is as much as can be read of the messages that are kept. -/
structure CutsAt (s : Session μ) (h : Str) (c : SessionSnapshot μ) (kv : Kv μ) (b : Nat) : Prop where
  prefixed : archived c ≤ (stripped (s.history.take b)).length
  stored : ((stripped (s.history.take b)).drop (archived c)).map HistoryEntry.persist <+: c.history
  counted : readable h kv (stripped ((s.history.take b).drop (archiveOffset s))).length =
    (stripped (s.history.take b)).length - archived c

theorem inStep_cut {c : SessionSnapshot μ} {m : SessionMeta} {b n : Nat}
    (hc : c.history = (kv.under .session (messagePrefix h)).filterMap fun e => e.2.asEntry) :
    InStep ⟨m, ((kv.under .session (messagePrefix h)).take n).filterMap fun e => e.2.asEntry,
      c.archive⟩ (stripped (s.history.take b)) ↔
      archived c ≤ (stripped (s.history.take b)).length ∧
        ((stripped (s.history.take b)).drop (archived c)).map HistoryEntry.persist <+: c.history ∧
        readable h kv n = (stripped (s.history.take b)).length - archived c := by
  have hpre := (List.take_prefix n (kv.under .session (messagePrefix h))).filterMap
      fun e => e.2.asEntry
  rw [← hc] at hpre
  have hlen : (((kv.under .session (messagePrefix h)).take n).filterMap fun e =>
      e.2.asEntry).length = readable h kv n := by
    rw [List.length_filterMap_eq_countP]
    rfl
  show archived c ≤ _ ∧ ((stripped (s.history.take b)).drop (archived c)).map HistoryEntry.persist = _ ↔ _
  refine and_congr_right fun _ => ?_
  constructor
  · intro he
    have hcount := congrArg List.length he
    simp only [List.length_map, List.length_drop] at hcount
    exact ⟨he ▸ hpre, hlen.symm.trans hcount.symm⟩
  · rintro ⟨hstored, hcount⟩
    have hsame : (((stripped (s.history.take b)).drop (archived c)).map
        HistoryEntry.persist).length = readable h kv n := by
      rw [hcount]
      simp
    rw [← hlen] at hsame
    exact (List.prefix_of_prefix_length_le hstored hpre (Nat.le_of_eq hsame)).eq_of_length hsame

section
variable [Wire μ]

/-- When a session can be rewound by so many turns: none opens so many turns from the end and the
session is in step already, or the turn that does opens behind the archive offset, at a place where
the stored messages can be cut too. -/
def Rewindable (s : Session μ) (turns : Nat) (kv : Kv μ) : Prop :=
  ∀ h, s.handle = some h → (∀ b, TurnAt s.history turns b → archiveOffset s ≤ b) ∧
    ∀ c, sessionView h kv = .ok (some c) →
      ((∀ b, ¬ TurnAt s.history turns b) → InStep c (stripped s.history)) ∧
      ∀ b, TurnAt s.history turns b → CutsAt s h c kv b

/-- No panic, the archive prefix as before, and the store in step with what remains. -/
def Rewound (s s' : Session μ) (r : Except Error Nat) (kv kv' : Kv μ) : Prop :=
  r ≠ .error .panic ∧ ∀ h c, s.handle = some h → sessionView h kv = .ok (some c) →
    (stripped s'.history).take (archived c) = (stripped s.history).take (archived c) ∧ Synced s' kv'

theorem boundary_none {history : List (HistoryEntry μ)} {turns : Nat}
    (hb : boundary history turns = none) (b : Nat) :
    ¬ TurnAt history turns b := by
  intro ht
  rw [boundary_some.mpr ht] at hb
  cases hb

theorem TurnAt.unique {history : List (HistoryEntry μ)} {turns b b' : Nat}
    (ht : TurnAt history turns b) (ht' : TurnAt history turns b') :
    b' = b := by
  have h := boundary_some.mpr ht'
  rw [boundary_some.mpr ht] at h
  exact (Option.some.inj h).symm

theorem wp_truncate_at {turns b : Nat} (ht : TextTyped kv) (hm : MetasTyped kv)
    (hh : s.handle = some h) (hb : TurnAt s.history turns b) :
    Prog.wp False memory (truncate s turns)
      (fun r kv' => (r.1.history = s.history.take b ∧ r.1.handle = some h) ∧
        if b < archiveOffset s then r.2 = .error .panic else r.2 ≠ .error .panic ∧
          ∀ c, sessionView h kv = .ok (some c) → ∃ m, sessionView h kv' = .ok (some ⟨m,
            ((kv.under .session (messagePrefix h)).take
              (stripped ((s.history.take b).drop (archiveOffset s))).length).filterMap
              fun e => e.2.asEntry, c.archive⟩))
      (fun _ _ => False) kv := by
  have hlen : (s.history.take b).length = b := List.length_take_of_le (Nat.le_of_lt hb.pos.2)
  unfold truncate archiveOffset
  rw [boundary_some.mpr hb]
  simp only [hh, hlen]
  by_cases hlt : b < if s.summary.isSome then 1 else 0
  · simp only [if_pos hlt]
    exact ⟨⟨rfl, rfl⟩, rfl⟩
  · simp only [if_neg hlt]
    rw [Prog.wp_bind, Prog.wp_attempt]
    refine (wp_truncate_view ht hm _).mono (fun _ kv' hview => ?_) fun _ _ he => he.elim
    exact ⟨⟨rfl, rfl⟩, by simp, hview⟩

theorem take_eq_of_prefix {α : Type} {l l' : List α} {n : Nat} (hl : l <+: l') (hn : n ≤ l.length) :
    l.take n = l'.take n := by
  obtain ⟨rest, rfl⟩ := hl
  rw [List.take_append_of_le_length hn]

/-- Rewinding a session does not panic, spares the archive prefix and leaves the store in step
exactly if the session is rewindable. -/
theorem truncate_rewinds [TextStd] [Chrono] (hkv : Reached kv) {turns : Nat}
    {r : Session μ × Except Error Nat}
    (hr : Prog.Runs False memory (truncate s turns) kv (.ok r) kv') : Rewound s r.1 r.2 kv kv' ↔
    Rewindable s turns kv := by
  cases hb : boundary s.history turns with
  | none =>
    have hnone := boundary_none hb
    unfold truncate at hr
    rw [hb] at hr
    cases hr
    -- no turn opens there, so that nothing is cut
    constructor
    · intro hw h hh
      refine ⟨fun b hb => (hnone b hb).elim,
        fun c hc => ⟨fun _ => ?_, fun b hb => (hnone b hb).elim⟩⟩
      exact (synced_iff hh hc).mp (hw.2 h c hh hc).2
    · intro hw
      exact ⟨by simp, fun h c hh hc => ⟨rfl, (synced_iff hh hc).mpr (((hw h hh).2 c hc).1 hnone)⟩⟩
  | some b =>
    have hturn := boundary_some.mp hb
    cases hh : s.handle with
    | none =>
      unfold truncate at hr
      rw [hb] at hr
      simp only [hh] at hr
      cases hr
      -- a session without a handle is cut in memory only
      constructor
      · intro _ h hh'
        rw [hh] at hh'
        cases hh'
      · intro _
        refine ⟨by simp, fun h c hh' => ?_⟩
        rw [hh] at hh'
        cases hh'
    | some h =>
      obtain ⟨⟨hhist, hhandle⟩, hresult⟩ :=
        (wp_truncate_at hkv.typed.text hkv.typed.metas hh hturn).runs hr
      by_cases hlt : b < archiveOffset s
      · rw [if_pos hlt] at hresult
        -- a cut in front of the archive entry panics
        constructor
        · intro hw
          exact absurd hresult hw.1
        · intro hw
          have := (hw h hh).1 b hturn
          omega
      · rw [if_neg hlt] at hresult
        -- behind it, being in step afterwards is a condition on the session before
        have hcuts : ∀ c, sessionView h kv = .ok (some c) →
            (((stripped r.1.history).take (archived c) = (stripped s.history).take (archived c) ∧
              Synced r.1 kv') ↔ CutsAt s h c kv b) := by
          intro c hc
          obtain ⟨m, hview⟩ := hresult.2 c hc
          rw [synced_iff hhandle hview, hhist, inStep_cut (sessionView_some hc).2.2]
          constructor
          · intro ⟨_, hprefixed, hstored, hcounted⟩
            exact ⟨hprefixed, hstored, hcounted⟩
          · intro hcut
            refine ⟨?_, hcut.prefixed, hcut.stored, hcut.counted⟩
            have hfront : stripped (s.history.take b) <+: stripped s.history :=
              (List.take_prefix b s.history).filter _
            exact take_eq_of_prefix hfront hcut.prefixed
        constructor
        · intro hw h' hh'
          rw [hh] at hh'
          cases hh'
          refine ⟨fun b' hb' => ?_, fun c hc => ⟨fun hn => (hn b hturn).elim, fun b' hb' => ?_⟩⟩
          · rw [hturn.unique hb']
            omega
          · rw [hturn.unique hb']
            exact (hcuts c hc).mp (hw.2 h c hh hc)
        · intro hw
          refine ⟨hresult.1, fun h' c hh' hc => ?_⟩
          rw [hh] at hh'
          cases hh'
          exact (hcuts c hc).mpr (((hw h hh).2 c hc).2 b hturn)

/-- A session in step, whose stored messages can all be read and whose summary goes with its
archive, is rewindable unless the turn to go back to is the archive itself. -/
theorem synced_rewindable (hs : Synced s kv) {c : SessionSnapshot μ} (hh : s.handle = some h)
    (hc : sessionView h kv = .ok (some c))
    (hread : ∀ e ∈ kv.under .session (messagePrefix h), e.2.asEntry.isSome)
    (hsummary : s.summary.isSome = c.archive.isSome)
    (hfirst : s.summary.isSome → ∃ e rest, s.history = e :: rest ∧ e.autoInjected = false)
    (turns : Nat) :
    Rewindable s turns kv ↔ ¬ (s.summary.isSome ∧ TurnAt s.history turns 0) := by
  have hstep := (synced_iff hh hc).mp hs
  have hoffset : archived c = archiveOffset s := by
    unfold archived archiveOffset
    rw [hsummary]
  constructor
  · intro hw ⟨hsome, hturn⟩
    have := (hw h hh).1 0 hturn
    rw [archiveOffset, if_pos hsome] at this
    omega
  · intro hn h' hh'
    rw [hh] at hh'
    cases hh'
    have hle : ∀ b, TurnAt s.history turns b → archiveOffset s ≤ b := by
      intro b hb
      unfold archiveOffset
      by_cases hsome : s.summary.isSome = true
      · rw [if_pos hsome]
        refine Nat.pos_of_ne_zero fun h0 => hn ⟨hsome, ?_⟩
        rw [← h0]
        exact hb
      · rw [if_neg hsome]
        exact Nat.zero_le b
    refine ⟨hle, fun c' hc' => ?_⟩
    rw [hc] at hc'
    cases hc'
    refine ⟨fun _ => hstep, fun b hb => ?_⟩
    -- the archive prefix is the one entry the offset skips
    have hkept : (stripped (s.history.take b)).length = archived c +
        (stripped ((s.history.take b).drop (archiveOffset s))).length := by
      have hb' := hle b hb
      rw [hoffset]
      unfold archiveOffset at hb' ⊢
      by_cases hsome : s.summary.isSome = true
      · rw [if_pos hsome] at hb' ⊢
        obtain ⟨e, rest, he, hinj⟩ := hfirst hsome
        obtain ⟨n, rfl⟩ : ∃ n, b = n + 1 := ⟨b - 1, by omega⟩
        rw [he, List.take_succ_cons]
        simp [stripped, hinj, Nat.add_comm]
      · rw [if_neg hsome]
        simp
    have hfront : stripped (s.history.take b) <+: stripped s.history :=
      (List.take_prefix b s.history).filter _
    have hstored : ((stripped (s.history.take b)).drop (archived c)).map HistoryEntry.persist <+:
        c.history := by
      rw [← hstep.2]
      exact (hfront.drop _).map _
    refine ⟨by omega, hstored, ?_⟩
    have hle := hstored.length_le
    rw [(sessionView_some hc).2.2, List.length_map, List.length_drop,
      List.length_filterMap_eq_countP, List.countP_eq_length.mpr hread] at hle
    unfold readable
    rw [List.countP_eq_length.mpr fun e he => hread e (List.mem_of_mem_take he), List.length_take]
    omega

end

end

/-! ## A turn too many -/

section
open Plain

def compactedOnce : KvM Message (Session Message) := do
  let s ← openSession (fun _ => none) (fun _ => true) "chat".toList 1
      ⟨0⟩ "user".toList none "t0+00:00".toList "t1+00:00".toList
  let (s, _) ← ownTurn noHook s "hello".toList [] (.done [⟨"assistant".toList, "hi".toList⟩] [])
      "t2+00:00".toList "t3+00:00".toList
  let (s, _) ← compact s "sum up".toList (fun _ _ => some "greetings".toList)
      (some "chat-1".toList) "t4+00:00".toList
  return s

def returns {α : Type} : EStateM.Result Error (Kv Message) α → (α → Kv Message → Bool) → Bool
  | .ok a kv, p => p a kv
  | .error _ _, _ => false

theorem compactedOnce_run : ∃ s kv, Prog.Runs False memory compactedOnce
    (∅ : Kv Message) (.ok s) kv ∧
    s.history = [.user "greetings".toList] ∧ s.handle = some "chat".toList ∧ s.summary.isSome ∧
    Synced s kv := by
  have hrun : returns (Prog.interp memory compactedOnce (∅ : Kv Message)) (fun s kv =>
      decide (s.history = [.user "greetings".toList] ∧ s.handle = some "chat".toList ∧
        s.summary.isSome) &&
        meets (sessionView "chat".toList kv)
        (fun c => decide (c.history = [] ∧ c.archive = some "chat-1".toList))) = true := by
    decide +kernel
  cases hi : Prog.interp memory compactedOnce (∅ : Kv Message) with
  | error e kv =>
    rw [hi] at hrun
    cases hrun
  | ok s kv =>
    rw [hi] at hrun
    obtain ⟨hsession, hview⟩ := Bool.and_eq_true_iff.mp hrun
    obtain ⟨hhist, hhandle, hsummary⟩ := of_decide_eq_true hsession
    refine ⟨s, kv, Prog.runs_of_interp False hi, hhist, hhandle, hsummary, ?_⟩
    obtain ⟨c, hc, hmeets⟩ := exists_of_meets hview
    obtain ⟨hempty, harc⟩ := of_decide_eq_true hmeets
    have hplain : stripped s.history = [.user "greetings".toList] := by
      rw [hhist]
      rfl
    rw [synced_iff hhandle hc, InStep, hplain, hempty]
    simp [archived, harc]

theorem talked_reached : Reached talkedStore := by
  have hcreate : Prog.Runs True memory
      (createSession "chat".toList ⟨0⟩ "user".toList none "t0+00:00".toList)
      (∅ : Kv Message) (.ok ()) freshStore := Prog.runs_of_interp True rfl
  have hfresh : Reached freshStore :=
    .session "chat".toList (.create ⟨0⟩ "user".toList none "t0+00:00".toList) .empty
      ⟨by decide, by decide⟩ hcreate
  obtain ⟨r, hr⟩ := runs_settle True
      (appendSessionMessages "chat".toList talked.history "t2+00:00".toList) freshStore
  exact .session "chat".toList (.append talked.history "t2+00:00".toList) hfresh trivial hr

theorem truncate_rewinds_instance : ∃ r : Session Message × Except Error Nat, Reached talkedStore ∧
    Prog.Runs False memory (truncate talked 1) talkedStore (.ok r)
    (settle (truncate talked 1) talkedStore) ∧
    talked.history ≠ [] ∧ r.1.history = [] ∧
    Rewound talked r.1 r.2 talkedStore (settle (truncate talked 1) talkedStore) := by
  obtain ⟨c, hc, -, harc⟩ := talked_view
  have hsummary : talked.summary.isSome = c.archive.isSome := by
    rw [harc]
    rfl
  have hw : Rewindable talked 1 talkedStore := by
    apply (synced_rewindable talked_synced rfl hc (by decide +kernel) hsummary
      (fun hsome => by cases hsome) 1).mpr
    intro hn
    cases hn.1
  obtain ⟨r, hr⟩ := runs_settle False (truncate talked 1) talkedStore
  have hturn : TurnAt talked.history 1 0 := boundary_some.mp (by decide)
  have hwp := wp_truncate_at talked_reached.typed.text talked_reached.typed.metas rfl hturn
  have hres := hwp.runs hr
  cases r with
  | error e => exact hres.elim
  | ok r => exact ⟨r, talked_reached, hr, by simp [talked], hres.1.1,
      (truncate_rewinds talked_reached hr).mpr hw⟩

/-- The session is taken back by one turn, and the archive is the only one left. -/
theorem rewound_past_archive : ∃ (s s' : Session Message) (kv : Kv Message),
    Prog.Runs False memory compactedOnce (∅ : Kv Message) (.ok s) kv ∧ Synced s kv ∧
    s.history = [.user "greetings".toList] ∧
      Prog.Runs False memory (truncate s 1) kv (.ok (s', .error .panic)) kv ∧ s'.history = [] := by
  obtain ⟨s, kv, hr, hhist, hhandle, hsummary, hs⟩ := compactedOnce_run
  have hb : boundary s.history 1 = some 0 := by
    rw [hhist]
    decide
  have htruncate : Prog.Runs False memory (truncate s 1) kv
      (.ok ({ s with history := [] }, .error .panic)) kv := by
    unfold truncate
    rw [hb]
    simp only [hhandle, hsummary, List.take_zero]
    exact .done _ _
  exact ⟨s, _, kv, hr, hs, hhist, htruncate, rfl⟩

end

end Crabtalk.Runtime

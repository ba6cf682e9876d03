import Crabtalk.Store.Indexing
import Crabtalk.Store.Messages
import Crabtalk.Store.Views

/-! # A compaction cut short

The messages go one by one and the archive pointer comes last. Between the
first and the last there is neither the old session nor the compacted one.
-/

open Basis Prog

namespace Crabtalk.Store

variable {μ : Type}

def KvOp.col : KvOp μ → Column
  | .get col _ => col
  | .put col _ _ => col
  | .delete col _ => col
  | .scanKeys col _ => col
  | .scan col _ => col

/-! ## Index work at any operation -/

theorem Indexing.col_eq {o : KvOp μ} (h : Indexing o) : o.col = .text := by
  cases o with
  | put col key v => exact h.1
  | _ => exact h

theorem strict_getJson {α : Type} (decode : Value μ → Option α) (col : Column) (key : Str) :
    Strict (getJson decode col key) := by
  unfold getJson
  refine (Strict.perform _).bind ?_
  intro v
  cases v with
  | none => trivial
  | some v =>
    simp only
    cases decode v <;> trivial

theorem strict_dropText (index : TextIndex) (key : Str) :
    Strict (dropText index key : KvM μ Unit) := by
  unfold dropText
  refine (strict_getJson _ _ _).bind ?_
  intro doc
  cases doc with
  | none => trivial
  | some doc =>
    refine Strict.bind (Strict.forM (fun term => ?_) _) ?_
    · exact (Strict.perform _).bind fun _ => trivial
    · intro _
      refine (Strict.perform _).bind fun _ => ?_
      refine Strict.bind ?_ fun _ => Strict.perform _
      unfold stats
      exact (strict_getJson _ _ _).bind fun _ => trivial

theorem after_within {col : Column} {p : KvM μ Unit} (hp : Within (fun o => o.col = col) p)
    (n : Nat) (s : Kv μ) {c : Cell}
    (hc : c.1 ≠ col) : (after memory n p s)[c]? = s[c]? := by
  refine hp.after (R := fun s s' => s'[c]? = s[c]?) memory (fun _ => rfl)
    (fun h h' => h'.trans h) ?_ n
  intro o ho s
  have hne : ∀ key : Str, ((col, key) : Cell) ≠ c := fun key he => hc (congrArg Prod.fst he).symm
  subst ho
  cases o with
  | put col key v =>
    show (s.insert (col, key) v)[c]? = s[c]?
    rw [find_insert]
    exact if_neg (hne key)
  | delete col key =>
    show (s.erase (col, key))[c]? = s[c]?
    rw [find_erase]
    exact if_neg (hne key)
  | _ => rfl

/-! ## The loop at any operation -/

/-- One turn of the loop of a truncation. -/
def dropMessage (key : Str) : KvM μ Unit := do
  dropText .messages key
  let _ ← delete .session key

theorem strict_dropMessage (key : Str) : Strict (dropMessage key : KvM μ Unit) :=
  (strict_dropText _ _).bind fun _ => (Strict.perform _).bind fun _ => trivial

theorem interp_dropText {s : Kv μ} (ht : TextTyped s) (index : TextIndex) (key : Str) :
    ∃ s', interp memory (dropText index key) s = .ok () s' ∧ Indexed (docCells index key) s s' := by
  have hw : Prog.wp False memory (dropText index key) (fun _ => Indexed (docCells index key) s)
      (fun _ _ => False) s :=
    (wp_dropText ht).mono (fun _ _ h => h) fun _ _ h => h.1
  obtain ⟨_, s', hi, hq⟩ := hw.answers
  exact ⟨s', hi, hq⟩

/-- A turn of the loop: the column of sessions keeps everything until the last operation deletes the key. -/
theorem after_dropMessage {s : Kv μ} (ht : TextTyped s) (key : Str) :
    (∀ n < ops memory (dropMessage key) s, ∀ k,
      (after memory n (dropMessage key) s)[((.session, k) : Cell)]? = s[((.session, k) : Cell)]?) ∧
      ∃ s', interp memory (dropMessage key) s = .ok () s' ∧ TextTyped s' ∧
        ∀ k, s'[((.session, k) : Cell)]? = if key = k then none else s[((.session, k) : Cell)]? := by
  obtain ⟨s₁, hi, ht₁, hc⟩ := interp_dropText ht .messages key
  unfold dropMessage
  constructor
  · intro n hn k
    rw [ops_bind memory hi] at hn
    have hn : n < ops memory (dropText .messages key) s + 1 := hn
    rw [after_bind_of_le memory (Nat.le_of_lt_succ hn)]
    exact after_within ((within_dropText _ _).mono fun _ => Indexing.col_eq) n s (by simp)
  · refine ⟨s₁.erase (.session, key), ?_, ht₁.erase _, ?_⟩
    · rw [interp_bind, hi]
      rfl
    · intro k
      rw [find_erase, hc (.session, k) (fun h => by cases h.1)]
      by_cases he : key = k <;> simp [he]

def goneAt (keys : List Str) (s : Kv μ) (k : Str) : Nat :=
  ops memory (forM (keys.takeWhile (· ≠ k) ++ [k]) dropMessage) s

theorem goneAt_self {s : Kv μ} (ht : TextTyped s) (key : Str) (keys : List Str) :
    goneAt (key :: keys) s key = ops memory (dropMessage key) s := by
  obtain ⟨-, s₁, hi, -⟩ := after_dropMessage ht key
  unfold goneAt
  rw [List.takeWhile_cons_of_neg (by simp), List.nil_append, List.forM_cons, ops_bind memory hi]
  rfl

theorem goneAt_cons {s s₁ : Kv μ} {key k : Str} (hi : interp memory (dropMessage key) s = .ok () s₁)
    (hk : key ≠ k) (keys : List Str) :
    goneAt (key :: keys) s k = ops memory (dropMessage key) s + goneAt keys s₁ k := by
  unfold goneAt
  rw [List.takeWhile_cons_of_pos (by simpa using hk), List.cons_append, List.forM_cons,
    ops_bind memory hi]

/-- At any operation of the loop the keys that are gone by then are gone, and no others. -/
theorem after_drops (keys : List Str) : keys.Nodup → ∀ {s : Kv μ}, TextTyped s →
    ∀ (n : Nat) (k : Str),
    (after memory n (forM keys dropMessage) s)[((.session, k) : Cell)]? =
      if k ∈ keys ∧ goneAt keys s k ≤ n then none else s[((.session, k) : Cell)]? := by
  induction keys with
  | nil =>
    intro _ s _ n k
    rw [if_neg (by simp)]
    cases n <;> rfl
  | cons key keys ih =>
    intro hnodup s ht n k
    obtain ⟨hkey, hnodup⟩ := List.nodup_cons.mp hnodup
    obtain ⟨hbefore, s₁, hi, ht₁, hs₁⟩ := after_dropMessage ht key
    rw [List.forM_cons]
    by_cases hn : n < ops memory (dropMessage key) s
    · rw [after_bind_of_le memory (Nat.le_of_lt hn), hbefore n hn k, if_neg]
      intro ⟨_, hg⟩
      by_cases hk : key = k
      · subst hk
        rw [goneAt_self ht] at hg
        omega
      · rw [goneAt_cons hi hk] at hg
        omega
    · obtain ⟨n', rfl⟩ := Nat.exists_eq_add_of_le (Nat.le_of_not_lt hn)
      rw [after_bind_add memory hi, ih hnodup ht₁ n' k, hs₁]
      by_cases hk : key = k
      · subst hk
        rw [if_neg (fun h => hkey h.1), if_pos rfl,
          if_pos ⟨List.mem_cons_self, by rw [goneAt_self ht]; omega⟩]
      · rw [goneAt_cons hi hk, if_neg hk]
        have hmem : k ∈ key :: keys ↔ k ∈ keys := by
          rw [List.mem_cons]
          constructor
          · intro h
            rcases h with rfl | h
            · exact absurd rfl hk
            · exact h
          · exact Or.inr
        simp only [hmem, Nat.add_le_add_iff_left]

theorem ops_dropMessage_pos {s : Kv μ} (ht : TextTyped s) (key : Str) :
    0 < ops memory (dropMessage key) s := by
  obtain ⟨s₁, hi, -⟩ := interp_dropText ht .messages key
  unfold dropMessage
  rw [ops_bind memory hi]
  exact Nat.succ_pos _

theorem goneAt_pos {s : Kv μ} (ht : TextTyped s) (keys : List Str) (k : Str) :
    0 < goneAt keys s k := by
  cases keys with
  | nil =>
    have := goneAt_self ht k []
    have hpos := ops_dropMessage_pos ht k
    unfold goneAt at this ⊢
    rw [List.takeWhile_cons_of_neg (by simp)] at this
    rw [List.takeWhile_nil]
    omega
  | cons key keys =>
    obtain ⟨-, s₁, hi, -⟩ := after_dropMessage ht key
    have hpos := ops_dropMessage_pos ht key
    by_cases hk : key = k
    · rw [← hk, goneAt_self ht]
      exact hpos
    · rw [goneAt_cons hi hk]
      omega

theorem goneAt_le (keys : List Str) {k : Str} : k ∈ keys → ∀ {s : Kv μ}, TextTyped s →
    goneAt keys s k ≤ ops memory (forM keys dropMessage) s := by
  induction keys with
  | nil =>
    intro hk
    cases hk
  | cons key keys ih =>
    intro hk s ht
    obtain ⟨-, s₁, hi, ht₁, -⟩ := after_dropMessage ht key
    rw [List.forM_cons, ops_bind memory hi]
    by_cases he : key = k
    · rw [← he, goneAt_self ht]
      omega
    · have hk : k ∈ keys := by
        rcases List.mem_cons.mp hk with rfl | hk
        · exact absurd rfl he
        · exact hk
      rw [goneAt_cons hi he]
      have := ih hk ht₁
      omega

theorem interp_drops {s : Kv μ} (ht : TextTyped s) (keys : List Str) :
    ∃ s', interp memory (forM keys dropMessage) s = .ok () s' ∧ TextTyped s' ∧
      ∀ k, s'[((.session, k) : Cell)]? = if k ∈ keys then none else s[((.session, k) : Cell)]? := by
  obtain ⟨_, s', hi, hq⟩ := (wp_dropKeys (F := False) keys s ht).answers
  exact ⟨s', hi, hq⟩

/-! ## The whole compaction -/

def messageKeys (h : Str) (s : Kv μ) : List Str :=
  (s.under .session (messagePrefix h)).map fun e => e.1.2

theorem messageKeys_nodup (h : Str) (s : Kv μ) : (messageKeys h s).Nodup := by
  unfold messageKeys
  rw [List.nodup_map_iff_inj_on]
  · rintro ⟨⟨col, k⟩, v⟩ he ⟨⟨col', k'⟩, v'⟩ he' heq
    obtain ⟨hv, hcol, -⟩ := ColMap.mem_under.mp he
    obtain ⟨hv', hcol', -⟩ := ColMap.mem_under.mp he'
    simp only at hcol hcol' heq
    subst hcol hcol' heq
    rw [hv] at hv'
    rw [Option.some.inj hv']
  · have := ColMap.sorted_under s .session (messagePrefix h)
    refine this.imp ?_
    intro a b hab he
    subst he
    exact lt_irrefl_cmp _ hab

theorem mem_messageKeys {h k : Str} {s : Kv μ} :
    k ∈ messageKeys h s ↔ messagePrefix h <+: k ∧ ∃ v, s[((.session, k) : Cell)]? = some v := by
  unfold messageKeys
  rw [List.mem_map]
  constructor
  · rintro ⟨⟨⟨col, k'⟩, v⟩, he, rfl⟩
    obtain ⟨hv, hcol, hk⟩ := ColMap.mem_under.mp he
    simp only at hcol hk
    subst hcol
    exact ⟨hk, v, hv⟩
  · rintro ⟨hk, v, hv⟩
    exact ⟨((.session, k), v), ColMap.mem_under.mpr ⟨hv, rfl, hk⟩, rfl⟩

section
variable {h : Str} {s : Kv μ} {m : SessionMeta}

theorem interp_sessionMeta (hm : s[((.session, metaKey h) : Cell)]? = some (.sessionMeta m)) :
    interp memory (sessionMeta h) s = .ok (some m) s ∧ ops memory (sessionMeta h) s = 1 := by
  constructor
  · have := reads_getJson (s := s) Value.asMeta .session (metaKey h)
    unfold Reads readJson at this
    rw [hm] at this
    exact this
  · have hget : interp memory (get .session (metaKey h)) s =
        .ok s[((.session, metaKey h) : Cell)]? s := rfl
    unfold sessionMeta getJson
    rw [ops_bind memory hget, hm]
    rfl

def dropAll (h : Str) (m : SessionMeta) (keys : List Str) : KvM μ Unit := do
  forM keys dropMessage
  put .session (metaKey h) (.sessionMeta { m with messageCount := min 0 keys.length })

theorem after_reads (hm : s[((.session, metaKey h) : Cell)]? = some (.sessionMeta m)) (n : Nat) :
    after memory (2 + n) (truncateSessionMessages h 0) s =
    after memory n (dropAll h m (messageKeys h s)) s := by
  obtain ⟨hi, ho⟩ := interp_sessionMeta hm
  have hr : after memory (ops memory (sessionMeta h) s + (1 + n)) (truncateSessionMessages h 0) s =
      _ := after_bind_add memory hi (1 + n)
  rw [ho] at hr
  rw [show 2 + n = 1 + (1 + n) by omega, hr]
  simp only
  have hscan : interp memory (scanKeys .session (messagePrefix h)) s = .ok (messageKeys h s) s := rfl
  exact after_bind_add memory hscan n

theorem after_lt_two (hm : s[((.session, metaKey h) : Cell)]? = some (.sessionMeta m)) {n : Nat}
    (hn : n ≤ 2) :
    after memory n (truncateSessionMessages h 0) s = s := by
  obtain ⟨hi, ho⟩ := interp_sessionMeta hm
  by_cases h2 : n = 2
  · subst h2
    exact after_reads hm 0
  · unfold truncateSessionMessages
    rw [after_bind_of_le memory (by omega)]
    unfold sessionMeta getJson
    have hget : ops memory (get .session (metaKey h)) s = 1 := rfl
    rw [after_bind_of_le memory (by omega)]
    obtain rfl | rfl : n = 0 ∨ n = 1 := by omega
    · rfl
    · rfl

theorem ops_dropAll (ht : TextTyped s) (keys : List Str) :
    ops memory (dropAll h m keys) s = ops memory (forM keys dropMessage : KvM μ Unit) s + 1 := by
  obtain ⟨s₁, hi, -⟩ := interp_drops ht keys
  unfold dropAll
  rw [ops_bind memory hi]
  rfl

theorem interp_truncate (ht : TextTyped s)
    (hm : s[((.session, metaKey h) : Cell)]? = some (.sessionMeta m)) :
    ops memory (truncateSessionMessages h 0) s =
    2 + (ops memory (forM (messageKeys h s) dropMessage : KvM μ Unit) s + 1) ∧
      ∃ s₁ : Kv μ, (∀ k, s₁[((.session, k) : Cell)]? = if k ∈ messageKeys h s then none
        else s[((.session, k) : Cell)]?) ∧
        interp memory (truncateSessionMessages h 0) s =
          .ok () (s₁.insert (.session, metaKey h)
            (.sessionMeta { m with messageCount := min 0 (messageKeys h s).length })) := by
  obtain ⟨hi, ho⟩ := interp_sessionMeta hm
  obtain ⟨s₁, hd, -, hs₁⟩ := interp_drops ht (messageKeys h s)
  have hscan : interp memory (scanKeys .session (messagePrefix h)) s = .ok (messageKeys h s) s := rfl
  constructor
  · unfold truncateSessionMessages
    rw [ops_bind memory hi, ho]
    simp only
    rw [ops_bind memory hscan, show ops memory (scanKeys .session (messagePrefix h)) s = 1 from rfl,
      ← ops_dropAll (h := h) (m := m) ht]
    show 1 + (1 + ops memory (dropAll h m (messageKeys h s)) s) = _
    omega
  · refine ⟨s₁, hs₁, ?_⟩
    unfold truncateSessionMessages
    rw [interp_bind, hi]
    simp only
    rw [interp_bind, hscan]
    show interp memory (dropAll h m (messageKeys h s)) s = _
    unfold dropAll
    rw [interp_bind, hd]
    rfl

def goneFrom (h : Str) (s : Kv μ) (k : Str) : Nat := 2 + goneAt (messageKeys h s) s k

/-- The state of the session column before the last operation. -/
theorem after_compact (ht : TextTyped s)
    (hm : s[((.session, metaKey h) : Cell)]? = some (.sessionMeta m)) {archive : Str} {n : Nat}
    (hn : n < ops memory (appendSessionCompact h archive) s) :
    (∀ k, messagePrefix h <+: k →
      (after memory n (appendSessionCompact h archive) s)[((.session, k) : Cell)]? =
      if goneFrom h s k ≤ n then none else s[((.session, k) : Cell)]?) ∧
    (after memory n (appendSessionCompact h archive) s)[((.session, archiveKey h) : Cell)]? =
    s[((.session, archiveKey h) : Cell)]? ∧
    ∃ m', (after memory n (appendSessionCompact h archive) s)[((.session, metaKey h) : Cell)]? =
    some (.sessionMeta m') := by
  obtain ⟨ho, s₁, hs₁, hi⟩ := interp_truncate ht hm
  obtain ⟨sl, hl, -, hsl⟩ := interp_drops ht (messageKeys h s)
  have hops : ops memory (appendSessionCompact h archive) s =
      ops memory (truncateSessionMessages h 0) s + 1 := by
    unfold appendSessionCompact
    rw [ops_bind memory hi]
    rfl
  rw [hops] at hn
  have htrunc : after memory n (appendSessionCompact h archive) s =
      after memory n (truncateSessionMessages h 0) s := by
    unfold appendSessionCompact
    exact after_bind_of_le memory (Nat.le_of_lt_succ hn)
  rw [htrunc]
  have hmeta : metaKey h ∉ messageKeys h s := fun hk =>
      messagePrefix_not_metaKey (mem_messageKeys.mp hk).1
  have harch : archiveKey h ∉ messageKeys h s := fun hk =>
      messagePrefix_not_archiveKey (mem_messageKeys.mp hk).1
  by_cases h2 : n ≤ 2
  · rw [after_lt_two hm h2]
    refine ⟨?_, rfl, m, hm⟩
    intro k _
    have hpos := goneAt_pos ht (messageKeys h s) k
    unfold goneFrom
    rw [if_neg (by omega)]
  · obtain ⟨n', rfl⟩ : ∃ n', n = 2 + n' := ⟨n - 2, by omega⟩
    have absent : ∀ k, messagePrefix h <+: k → k ∉ messageKeys h s →
        s[((.session, k) : Cell)]? = none := by
      intro k hk hmem
      by_contra hne
      obtain ⟨v, hv⟩ := Option.ne_none_iff_exists'.mp hne
      exact hmem (mem_messageKeys.mpr ⟨hk, v, hv⟩)
    rw [after_reads hm]
    by_cases hloop : n' ≤ ops memory (forM (messageKeys h s) dropMessage : KvM μ Unit) s
    · -- Inside the loop the keys go one after the other.
      unfold dropAll
      rw [after_bind_of_le memory hloop]
      have hcell := after_drops (messageKeys h s) (messageKeys_nodup h s) ht n'
      refine ⟨?_, ?_, m, ?_⟩
      · intro k hk
        rw [hcell]
        by_cases hmem : k ∈ messageKeys h s
        · simp only [hmem, true_and, goneFrom, Nat.add_le_add_iff_left]
        · rw [if_neg (fun hc => hmem hc.1), absent k hk hmem, ite_self]
      · rw [hcell, if_neg (fun hc => harch hc.1)]
      · rw [hcell, if_neg (fun hc => hmeta hc.1), hm]
    · -- The counter is written when they are all gone.
      obtain rfl : n' = ops memory (forM (messageKeys h s) dropMessage : KvM μ Unit) s + 1 := by omega
      unfold dropAll
      rw [after_bind_add memory hl]
      have hlast : after memory 1 (put .session (metaKey h)
          (.sessionMeta { m with messageCount := min 0 (messageKeys h s).length })) sl =
          sl.insert (.session, metaKey h)
          (.sessionMeta { m with messageCount := min 0 (messageKeys h s).length }) := rfl
      rw [hlast]
      refine ⟨?_, ?_, _, by rw [find_insert, if_pos rfl]⟩
      · intro k hk
        rw [find_insert, if_neg, hsl]
        · by_cases hmem : k ∈ messageKeys h s
          · have := goneAt_le (messageKeys h s) hmem ht
            unfold goneFrom
            rw [if_pos hmem, if_pos (by omega)]
          · rw [if_neg hmem, absent k hk hmem, ite_self]
        · intro he
          cases he
          exact messagePrefix_not_metaKey hk
      · rw [find_insert, if_neg (by simpa using (archiveKey_ne_metaKey h h).symm), hsl, if_neg harch]

theorem view_compacted (ht : TextTyped s)
    (hm : s[((.session, metaKey h) : Cell)]? = some (.sessionMeta m)) (archive : Str) :
    ∃ m', sessionView h (after memory (ops memory (appendSessionCompact h archive) s)
      (appendSessionCompact h archive) s) =
      .ok (some ⟨m', [], some archive⟩) := by
  obtain ⟨ho, s₁, hs₁, hi⟩ := interp_truncate ht hm
  have hops : ops memory (appendSessionCompact h archive) s =
      ops memory (truncateSessionMessages h 0) s + 1 := by
    unfold appendSessionCompact
    rw [ops_bind memory hi]
    rfl
  rw [hops]
  unfold appendSessionCompact
  rw [after_bind_add memory hi]
  let s₂ := s₁.insert ((.session, metaKey h) : Cell)
      (.sessionMeta { m with messageCount := min 0 (messageKeys h s).length })
  have hlast : after memory 1 (put .session (archiveKey h) (.text archive)) s₂ =
      s₂.insert (.session, archiveKey h) (.text archive) := rfl
  -- no message is left in front of the archive
  have hnone : ∀ k, messagePrefix h <+: k →
      (s₂.insert ((.session, archiveKey h) : Cell) (.text archive))[((.session, k) : Cell)]? = none := by
    intro k hk
    rw [find_insert, if_neg, find_insert, if_neg, hs₁]
    · by_cases hmem : k ∈ messageKeys h s
      · rw [if_pos hmem]
      · rw [if_neg hmem]
        by_contra hne
        obtain ⟨v, hv⟩ := Option.ne_none_iff_exists'.mp hne
        exact hmem (mem_messageKeys.mpr ⟨hk, v, hv⟩)
    · intro he
      cases he
      exact messagePrefix_not_metaKey hk
    · intro he
      cases he
      exact messagePrefix_not_archiveKey hk
  refine ⟨{ m with messageCount := min 0 (messageKeys h s).length }, ?_⟩
  rw [hlast]
  refine (sessionView_of (m := { m with messageCount := min 0 (messageKeys h s).length }) ?_
    (?_ : readJson Value.asText _ .session (archiveKey h) = .ok (some archive))).trans ?_
  rotate_left 2
  · have hunder : ColMap.under (s₂.insert ((.session, archiveKey h) : Cell) (.text archive))
        .session (messagePrefix h) = [] := by
      rw [List.eq_nil_iff_forall_not_mem]
      rintro ⟨⟨col, k⟩, v⟩ he
      obtain ⟨hv, hcol, hk⟩ := ColMap.mem_under.mp he
      simp only at hcol hk
      subst hcol
      rw [hnone k hk] at hv
      cases hv
    rw [hunder]
    rfl
  · rw [find_insert, if_neg (by simpa using archiveKey_ne_metaKey h h), find_insert, if_pos rfl]
  · unfold readJson
    rw [find_insert, if_pos rfl]
    rfl

/-! ## What a cut leaves -/

/-- A load finds the whole session as it was, or the compacted one. -/
def Whole (h archive : Str) (c : SessionSnapshot μ) (s : Kv μ) : Prop :=
  ∃ c', sessionView h s = .ok (some c') ∧
    (c'.history = c.history ∧ c'.archive = c.archive ∨ c'.history = [] ∧ c'.archive = some archive)

theorem filterMap_filter_eq_iff {α β : Type} (f : α → Option β) (p : α → Bool) (l : List α) :
    (l.filter p).filterMap f = l.filterMap f ↔ ∀ a ∈ l, (f a).isSome → p a := by
  induction l with
  | nil => simp
  | cons a l ih =>
    rw [List.filter_cons, List.forall_mem_cons, ← ih]
    by_cases hp : p a
    · rw [if_pos hp, List.filterMap_cons, List.filterMap_cons]
      cases f a <;> simp [hp]
    · rw [if_neg hp, List.filterMap_cons]
      cases hf : f a with
      | none => simp
      | some b =>
        have hlen : ((l.filter p).filterMap f).length ≤ (l.filterMap f).length :=
          (List.filter_sublist.filterMap f).length_le
        constructor
        · intro he
          rw [he] at hlen
          simp only [List.length_cons] at hlen
          omega
        · intro ⟨h, _⟩
          exact absurd (h rfl) hp

/-- Whether a message of the session that can be read stands under the key. -/
def Readable (h : Str) (s : Kv μ) (k : Str) : Prop :=
  messagePrefix h <+: k ∧ ∃ e, s[((.session, k) : Cell)]? = some (.entry e)

theorem under_after (ht : TextTyped s)
    (hm : s[((.session, metaKey h) : Cell)]? = some (.sessionMeta m)) {archive : Str} {n : Nat}
    (hn : n < ops memory (appendSessionCompact h archive) s) :
    (after memory n (appendSessionCompact h archive) s).under .session (messagePrefix h) =
      (s.under .session (messagePrefix h)).filter fun e => n < goneFrom h s e.1.2 := by
  obtain ⟨hcell, -, -⟩ := after_compact ht hm hn
  apply ColMap.under_eq
  · exact (ColMap.sorted_under s .session (messagePrefix h)).filter _
  · rintro ⟨col, k⟩ v
    rw [List.mem_filter, ColMap.mem_under]
    simp only [decide_eq_true_eq]
    constructor
    · rintro ⟨⟨hv, hcol, hk⟩, hg⟩
      subst hcol
      exact ⟨by rw [hcell k hk, if_neg (by omega), hv], rfl, hk⟩
    · rintro ⟨hv, hcol, hk⟩
      subst hcol
      rw [hcell k hk] at hv
      by_cases hg : goneFrom h s k ≤ n
      · rw [if_pos hg] at hv
        cases hv
      · rw [if_neg hg] at hv
        exact ⟨⟨hv, rfl, hk⟩, by omega⟩

theorem asEntry_isSome {v : Value μ} : v.asEntry.isSome ↔ ∃ e, v = .entry e := by
  cases v <;> simp [Value.asEntry]

theorem forall_readable {P : Str → Prop} :
    (∀ e ∈ s.under .session (messagePrefix h), e.2.asEntry.isSome → P e.1.2) ↔
    ∀ k, Readable h s k → P k := by
  constructor
  · rintro hall k ⟨hk, e, hv⟩
    exact hall ((.session, k), .entry e) (ColMap.mem_under.mpr ⟨hv, rfl, hk⟩) rfl
  · rintro hall ⟨⟨col, k⟩, v⟩ he hsome
    obtain ⟨hv, hcol, hk⟩ := ColMap.mem_under.mp he
    simp only at hcol hk
    subst hcol
    obtain ⟨e, rfl⟩ := asEntry_isSome.mp hsome
    exact hall k ⟨hk, e, hv⟩

theorem strict_compact (h archive : Str) : Strict (appendSessionCompact h archive : KvM μ Unit) := by
  unfold appendSessionCompact truncateSessionMessages
  refine Strict.bind ((strict_getJson _ _ _).bind ?_) fun _ => Strict.perform _
  intro m
  cases m with
  | none => trivial
  | some m =>
    refine (Strict.perform _).bind fun keys => ?_
    exact (Strict.forM (fun key => strict_dropMessage key) _).bind fun _ => Strict.perform _

/-- What a load finds before the last operation: the messages that are not gone, and the old pointer. -/
theorem view_after (ht : TextTyped s) {c : SessionSnapshot μ} (hc : sessionView h s = .ok (some c))
    (archive : Str) {n : Nat}
    (hn : n < ops memory (appendSessionCompact h archive) s) :
    ∃ c', sessionView h (after memory n (appendSessionCompact h archive) s) = .ok (some c') ∧
    c'.archive = c.archive ∧
      (c'.history = c.history ↔ ∀ k, Readable h s k → n < goneFrom h s k) ∧
      (c'.history = [] ↔ ∀ k, Readable h s k → goneFrom h s k ≤ n) := by
  obtain ⟨hm, ha, hhist⟩ := sessionView_some hc
  obtain ⟨-, harch, m', hm'⟩ := after_compact ht hm hn
  have hview := sessionView_of hm' ((readJson_congr harch).trans ha)
  rw [under_after ht hm hn] at hview
  refine ⟨_, hview, rfl, ?_, ?_⟩
  · rw [hhist, filterMap_filter_eq_iff]
    simp only [decide_eq_true_eq]
    exact forall_readable (P := fun k => n < goneFrom h s k)
  · rw [List.filterMap_eq_nil_iff]
    simp only [List.mem_filter, decide_eq_true_eq, and_imp]
    rw [← forall_readable (P := fun k => goneFrom h s k ≤ n)]
    constructor
    · intro hall e he hsome
      by_contra hg
      rw [hall e he (by omega)] at hsome
      cases hsome
    · intro hall e he hg
      by_contra hne
      have := hall e he (Option.isSome_iff_ne_none.mpr hne)
      omega

/-- A compaction cut short leaves the session whole exactly if no message is gone yet, or everything
is done; or if they are all gone and the pointer had the new name before. -/
theorem compact_cut [TextStd] [Chrono] [Wire μ] (hs : Reached s) {c : SessionSnapshot μ}
    (hc : sessionView h s = .ok (some c))
    {archive : Str} {n : Nat} {s' : Kv μ}
    (hcut : CutAt memory n (appendSessionCompact h archive) s s') :
    Whole h archive c s' ↔ (∀ k, Readable h s k → n < goneFrom h s k) ∨
    n = ops memory (appendSessionCompact h archive) s ∨
      c.archive = some archive ∧ ∀ k, Readable h s k → goneFrom h s k ≤ n := by
  have ht := hs.typed.text
  obtain ⟨hle, rfl⟩ := (strict_compact h archive).cutAt memory hcut
  by_cases hn : n = ops memory (appendSessionCompact h archive) s
  · subst hn
    obtain ⟨m', hv⟩ := view_compacted ht (sessionView_some hc).1 archive
    constructor
    · intro _
      exact Or.inr (Or.inl rfl)
    · intro _
      exact ⟨_, hv, Or.inr ⟨rfl, rfl⟩⟩
  · obtain ⟨c', hview, harc, hsame, hnone⟩ := view_after ht hc archive (n := n) (by omega)
    constructor
    · rintro ⟨c'', hv', hwhole⟩
      rw [hview] at hv'
      cases hv'
      rcases hwhole with ⟨hh, -⟩ | ⟨hh, ha⟩
      · exact Or.inl (hsame.mp hh)
      · exact Or.inr (Or.inr ⟨harc.symm.trans ha, hnone.mp hh⟩)
    · rintro (hall | he | ⟨ha, hall⟩)
      · exact ⟨c', hview, Or.inl ⟨hsame.mpr hall, harc⟩⟩
      · exact absurd he hn
      · exact ⟨c', hview, Or.inr ⟨hnone.mpr hall, harc.trans ha⟩⟩

/-- The counter and the pointer are still to be written when a message goes. -/
theorem goneFrom_lt (ht : TextTyped s)
    (hm : s[((.session, metaKey h) : Cell)]? = some (.sessionMeta m)) {k : Str}
    (hk : Readable h s k)
    (archive : Str) : goneFrom h s k < ops memory (appendSessionCompact h archive) s := by
  obtain ⟨ho, s₁, -, hi⟩ := interp_truncate ht hm
  obtain ⟨hp, e, hv⟩ := hk
  have := goneAt_le (messageKeys h s) (mem_messageKeys.mpr ⟨hp, _, hv⟩) ht
  unfold appendSessionCompact goneFrom
  rw [ops_bind memory hi, ho]
  omega

/-! ## A session of one message -/

theorem wp_append_archive [TextStd] [Wire μ] {l : List (HistoryEntry μ)} (ht : TextTyped s)
    (hf : Filed h l s) (es : List (HistoryEntry μ))
    (now : Str) : Prog.wp False memory (appendSessionMessages h es now)
      (fun _ s' => s'[((.session, archiveKey h) : Cell)]? = s[((.session, archiveKey h) : Cell)]?)
      (fun _ _ => False) s := by
  unfold appendSessionMessages
  split
  · rfl
  · obtain ⟨m, hm, hc⟩ := hf.counted
    rw [Prog.wp_bind]
    refine wp_sessionMeta hm ?_ False.elim
    simp only
    rw [Prog.wp_bind]
    refine (wp_appendEntries es m.messageCount s ht).mono (fun _ s₁ ⟨h₁, _⟩ => ?_)
      fun _ _ he => he.1
    rw [wp_put]
    refine ⟨?_, False.elim⟩
    rw [find_insert, if_neg (by simpa using (archiveKey_ne_metaKey h h).symm)]
    apply h₁.2
    rintro (hc | ⟨j, -, he⟩)
    · cases hc
    · exact messageKey_ne_archiveKey h h _ (congrArg Prod.snd he).symm

end

section
open Plain

theorem one_message : ∃ (s : Kv Message) (c : SessionSnapshot Message), Reached s ∧
    sessionView "chat".toList s = .ok (some c) ∧
    c.history = [.user "hello".toList] ∧ c.archive = none ∧ ∀ k, Readable "chat".toList s k ↔
    k = messageKey "chat".toList 0 := by
  obtain ⟨s₁, h₁⟩ : ∃ s₁, interp memory (createSession "chat".toList ⟨0⟩ [] none "t0+00:00".toList)
      (∅ : Kv Message) = .ok () s₁ := ⟨_, rfl⟩
  have hr₁ : Reached s₁ := .session "chat".toList (.create ⟨0⟩ [] none "t0+00:00".toList) .empty
      ⟨by decide, by decide⟩ (runs_of_interp True h₁)
  have hf₁ : Filed "chat".toList ([] : List (HistoryEntry Message)) s₁ := by
    obtain ⟨_, s, hi, hf⟩ := (wp_create_filed (h := "chat".toList) (s := (∅ : Kv Message))
        (fun _ _ => by simp) ⟨0⟩ [] none "t0+00:00".toList).answers
    rw [h₁] at hi
    cases hi
    exact hf
  have ha₁ : s₁[((.session, archiveKey "chat".toList) : Cell)]? = none := by
    let m : SessionMeta := ⟨⟨0⟩, [], "t0+00:00".toList, [], "t0+00:00".toList, 0, none, none⟩
    have he : s₁ = ((∅ : Kv Message).insert (.session, metaKey "chat".toList)
        (.sessionMeta m)).insert
        (.session, sessionIndexKey m "chat".toList) (.raw "chat".toList) := by
      cases h₁
      rfl
    rw [he, find_insert, if_neg (by simpa using sessionIndexKey_ne_archiveKey m _ _), find_insert,
      if_neg (by simpa using (archiveKey_ne_metaKey _ _).symm)]
    simp
  obtain ⟨_, s₂, h₂, hf₂, ha₂⟩ :=
    ((wp_append_filed hr₁.typed.text hf₁ [.user "hello".toList] "t1+00:00".toList).and
    (wp_append_archive hr₁.typed.text hf₁ [.user "hello".toList] "t1+00:00".toList)).mono
      (fun _ _ hq => hq) (fun _ _ he => he.1) |>.answers
  have hr₂ : Reached s₂ := .session "chat".toList (.append [.user "hello".toList] "t1+00:00".toList)
      hr₁ trivial (runs_of_interp True h₂)
  obtain ⟨m, hm, -⟩ := hf₂.counted
  have ha : readJson Value.asText s₂ .session (archiveKey "chat".toList) = .ok none := by
    unfold readJson
    rw [ha₂, ha₁]
  have hview := sessionView_of hm ha
  rw [hf₂.toLaid.under (by simp)] at hview
  refine ⟨s₂, _, hr₂, hview, rfl, rfl, ?_⟩
  intro k
  constructor
  · rintro ⟨hk, e, hv⟩
    obtain ⟨i, hi, rfl⟩ := hf₂.keys k _ hv hk
    obtain rfl : i = 0 := by simpa using hi
    rfl
  · rintro rfl
    exact ⟨messagePrefix_messageKey _ 0, .user "hello".toList, by rw [hf₂.entries]; rfl⟩

/-- A failure behind the first delete loses the only message, with no archive to point to. -/
theorem compact_cut_loses :
    ∃ (s : Kv Message) (c : SessionSnapshot Message) (n : Nat) (s' : Kv Message)
    (c' : SessionSnapshot Message),
    Reached s ∧ sessionView "chat".toList s = .ok (some c) ∧ c.history = [.user "hello".toList] ∧
      CutAt memory n (appendSessionCompact "chat".toList "chat-1".toList) s s' ∧
      sessionView "chat".toList s' = .ok (some c') ∧ c'.history = [] ∧ c'.archive = none := by
  obtain ⟨s, c, hs, hc, hhist, harc, hread⟩ := one_message
  have ht := hs.typed.text
  have hk := (hread _).mpr rfl
  have hn := goneFrom_lt ht (sessionView_some hc).1 hk "chat-1".toList
  obtain ⟨c', hv, ha, -, hnone⟩ := view_after ht hc _ hn
  refine ⟨s, c, _, _, c', hs, hc, hhist, cutAt_after memory _ s (Nat.le_of_lt hn), hv, hnone.mpr ?_,
    ha.trans harc⟩
  intro k hk'
  rw [(hread k).mp hk']

theorem compact_cut_instance :
    ∃ (s : Kv Message) (c : SessionSnapshot Message) (s' : Kv Message), Reached s ∧
    sessionView "chat".toList s = .ok (some c) ∧
    CutAt memory 2 (appendSessionCompact "chat".toList "chat-1".toList) s s' ∧
      Whole "chat".toList "chat-1".toList c s' := by
  obtain ⟨s, c, hs, hc, hhist, harc, hread⟩ := one_message
  have hlt : ∀ k, 2 < goneFrom "chat".toList s k :=
    fun k => Nat.lt_add_of_pos_right (goneAt_pos hs.typed.text _ k)
  have hn := goneFrom_lt hs.typed.text (sessionView_some hc).1 ((hread _).mpr rfl) "chat-1".toList
  have hcut := cutAt_after memory (appendSessionCompact "chat".toList "chat-1".toList) s (n := 2)
      (Nat.le_of_lt ((hlt _).trans hn))
  exact ⟨s, c, _, hs, hc, hcut, (compact_cut hs hc hcut).mpr (Or.inl fun k _ => hlt k)⟩

end

end Crabtalk.Store

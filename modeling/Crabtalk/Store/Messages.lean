import Crabtalk.Store.Plain
import Crabtalk.Store.Reach

/-! # The messages of a session are a list

The keys under the message prefix of a handle, the counter in its meta record
and the order of a scan stand together for one list: append appends, truncate
takes, compact clears, and nothing else touches it.
-/

open Basis

namespace Crabtalk.Store

variable {μ : Type}

structure Laid (h : Str) (l : List (HistoryEntry μ)) (s : Kv μ) : Prop where
  persisted : l.map HistoryEntry.persist = l
  entries : ∀ i, s[((.session, messageKey h i) : Cell)]? = l[i]?.map .entry
  keys : ∀ k v, s[((.session, k) : Cell)]? = some v → messagePrefix h <+: k →
    ∃ i < l.length, k = messageKey h i

structure Filed (h : Str) (l : List (HistoryEntry μ)) (s : Kv μ) : Prop extends Laid h l s where
  counted : ∃ m, s[((.session, metaKey h) : Cell)]? = some (.sessionMeta m) ∧
    m.messageCount = l.length

def Vacant (h : Str) (s : Kv μ) : Prop := ∀ k, messagePrefix h <+: k →
    s[((.session, k) : Cell)]? = none

theorem messageKey_eq (h : Str) (i : Nat) : messageKey h i = messagePrefix h ++ pad12 i := by
  simp [messageKey, messagePrefix, keysUnder, key]

theorem messageKey_inj {h : Str} {i j : Nat} (he : messageKey h i = messageKey h j) : i = j := by
  rw [messageKey_eq, messageKey_eq] at he
  exact pad12_inj (List.append_cancel_left he)

theorem messageKey_compare (h : Str) {i j : Nat} (hi : i < 10 ^ 12) (hj : j < 10 ^ 12) :
    compare (messageKey h i) (messageKey h j) = compare i j := by
  rw [messageKey_eq, messageKey_eq, compare_append rfl, Std.ReflOrd.compare_self, Ordering.eq_then,
    pad12_compare hi hj]

section
variable {h : Str} {l : List (HistoryEntry μ)} {s s' : Kv μ}

theorem messagePrefix_not_metaKey : ¬ messagePrefix h <+: metaKey h := by
  intro hp
  obtain ⟨rest, -, hr⟩ := components_of_messagePrefix hp
  rw [components_metaKey] at hr
  simp only [List.cons.injEq, true_and, List.append_cancel_left_eq] at hr
  exact absurd hr.1 (by decide)

theorem messagePrefix_not_archiveKey : ¬ messagePrefix h <+: archiveKey h := by
  intro hp
  obtain ⟨rest, -, hr⟩ := components_of_messagePrefix hp
  rw [components_archiveKey] at hr
  simp only [List.cons.injEq, true_and, List.append_cancel_left_eq] at hr
  exact absurd hr.1 (by decide)

theorem messagePrefix_not_eventKey (j : Nat) : ¬ messagePrefix h <+: eventKey h j := by
  intro hp
  obtain ⟨rest, -, hr⟩ := components_of_messagePrefix hp
  rw [components_eventKey] at hr
  simp at hr

theorem Laid.congr (hl : Laid h l s)
    (hs : ∀ k, messagePrefix h <+: k → s'[((.session, k) : Cell)]? = s[((.session, k) : Cell)]?) :
    Laid h l s' where
  persisted := hl.persisted
  entries i := by rw [hs _ (messagePrefix_messageKey h i)]; exact hl.entries i
  keys k v hv hk := hl.keys k v (by rw [← hs _ hk]; exact hv) hk

theorem Laid.putMeta (hl : Laid h l s) {m : SessionMeta} (hm : m.messageCount = l.length) :
    Filed h l (s.insert (.session, metaKey h) (.sessionMeta m)) where
  toLaid := hl.congr fun k hk => by
    rw [find_insert, if_neg]
    intro he
    cases he
    exact messagePrefix_not_metaKey hk
  counted := ⟨m, by rw [find_insert, if_pos rfl], hm⟩

theorem Filed.congr (hf : Filed h l s)
    (hs : ∀ k, sessionPrefix h <+: k → s'[((.session, k) : Cell)]? = s[((.session, k) : Cell)]?) :
    Filed h l s' where
  toLaid := hf.toLaid.congr fun k hk => hs k ((sessionPrefix_messagePrefix h).trans hk)
  counted := by
    obtain ⟨m, hm, hc⟩ := hf.counted
    exact ⟨m, by rw [hs _ (sessionPrefix_metaKey h)]; exact hm, hc⟩

theorem Laid.under (hf : Laid h l s) (hl : l.length ≤ 10 ^ 12) :
    s.under .session (messagePrefix h) = l.mapIdx fun i e =>
    ((.session, messageKey h i), .entry e) := by
  refine ColMap.under_eq ?_ ?_
  · rw [List.pairwise_iff_getElem]
    intro i j hi hj hij
    simp only [List.length_mapIdx] at hi hj
    simp only [List.getElem_mapIdx]
    rw [colCmp_eq, Std.ReflOrd.compare_self, Ordering.eq_then,
      messageKey_compare h (by omega) (by omega)]
    exact Nat.compare_eq_lt.mpr hij
  · rintro ⟨col, k⟩ v
    rw [List.mem_mapIdx]
    constructor
    · rintro ⟨i, hi, he⟩
      simp only [Prod.mk.injEq] at he
      obtain ⟨⟨rfl, rfl⟩, rfl⟩ := he
      refine ⟨?_, rfl, messagePrefix_messageKey h i⟩
      rw [hf.entries, List.getElem?_eq_getElem hi]
      rfl
    · rintro ⟨hv, hcol, hk⟩
      simp only at hcol hk
      subst hcol
      obtain ⟨i, hi, rfl⟩ := hf.keys k v hv hk
      rw [hf.entries, List.getElem?_eq_getElem hi] at hv
      exact ⟨i, hi, by rw [← Option.some.inj hv]⟩

theorem Laid.scan (hf : Laid h l s) (hl : l.length ≤ 10 ^ 12) :
    ((s.under .session (messagePrefix h)).map fun e => e.1.2) = (List.range l.length).map
    (messageKey h) := by
  rw [hf.under hl]
  exact List.ext_getElem (by simp) fun i _ _ => by simp

/-! ## Operations that write elsewhere -/

variable {F : Prop}

theorem wp_indexMetaText [TextStd] (ht : TextTyped s) (g : Str) (m : SessionMeta) :
    Prog.wp F memory (indexMetaText g m) (fun _ => Indexed (fun c => c.1 = .text) s)
      (fun _ s' => F ∧ Indexed (fun c => c.1 = .text) s s') s := by
  have htext : ∀ (key text : Str) (s₁ : Kv μ), Indexed (fun c => c.1 = .text) s s₁ →
      Prog.wp F memory (metaText key text) (fun _ => Indexed (fun c => c.1 = .text) s)
        (fun _ s' => F ∧ Indexed (fun c => c.1 = .text) s s') s₁ := by
    intro key text s₁ h₁
    unfold metaText
    split
    · exact (wp_dropText h₁.1).mono (fun _ _ h₂ => h₁.trans (h₂.mono fun c hc => hc.1))
        fun _ _ he => ⟨he.1, h₁.trans (he.2.mono fun c hc => hc.1)⟩
    · exact (wp_indexText h₁.1).mono (fun _ _ h₂ => h₁.trans (h₂.mono fun c hc => hc.1))
        fun _ _ he => ⟨he.1, h₁.trans (he.2.mono fun c hc => hc.1)⟩
  rw [indexMetaText_eq]
  exact Prog.wp_bind.mpr ((htext _ _ s (.refl ht)).mono (fun _ => htext _ _) fun _ _ he => he)

theorem wp_sessionMeta {g : Str} {m : SessionMeta} {Q : Option SessionMeta → Kv μ → Prop}
    {E : Error → Kv μ → Prop}
    (hm : s[((.session, metaKey g) : Cell)]? = some (.sessionMeta m)) (hQ : Q (some m) s)
    (hE : F → ∀ e, E e s) :
    Prog.wp F memory (sessionMeta g) Q E s := by
  rw [sessionMeta, wp_getJson]
  exact ⟨by rw [hm]; exact hQ, hE⟩

/-! ## The list operations -/

/-- The first `k` entries are in the cells from `idx` on, and nothing else was written but the text index. -/
def Penned (h : Str) (idx : Nat) (es : List (HistoryEntry μ)) (k : Nat) (s s' : Kv μ) : Prop :=
  Indexed (fun c => c.1 = .text ∨ ∃ j < k, c = (.session, messageKey h (idx + j))) s s' ∧
    ∀ j (hj : j < es.length), j < k → s'[((.session, messageKey h (idx + j)) : Cell)]? =
    some (.entry es[j].persist)

theorem Penned.cons {idx k : Nat} {e : HistoryEntry μ} {es : List (HistoryEntry μ)} {s₁ : Kv μ}
    (h₁ : Indexed (fun c => c.1 = .text ∨ c = (.session, messageKey h idx)) s s₁)
    (hcell : s₁[((.session, messageKey h idx) : Cell)]? = some (.entry e.persist))
    (h₂ : Penned h (idx + 1) es k s₁ s') :
    Penned h idx (e :: es) (k + 1) s s' := by
  constructor
  · refine (h₁.mono ?_).trans (h₂.1.mono ?_)
    · rintro c (hc | rfl)
      · exact .inl hc
      · exact .inr ⟨0, Nat.zero_lt_succ _, rfl⟩
    · rintro c (hc | ⟨j, hj, rfl⟩)
      · exact .inl hc
      · exact .inr ⟨j + 1, Nat.succ_lt_succ hj, by rw [Nat.add_right_comm]; rfl⟩
  · intro j hj hjk
    cases j with
    | zero =>
      -- the cell just written is not one of those the rest of the loop writes
      rw [Nat.add_zero, h₂.1.2 _ ?_, hcell]
      · rfl
      · rintro (hc | ⟨j, hj, he⟩)
        · cases hc
        · have := messageKey_inj (congrArg Prod.snd he)
          omega
    | succ j =>
      have := h₂.2 j (Nat.lt_of_succ_lt_succ hj) (Nat.lt_of_succ_lt_succ hjk)
      rw [Nat.add_right_comm] at this
      exact this

/-- All entries are written, or those in front of the operation that failed. -/
theorem wp_appendEntries [TextStd] [Wire μ] :
    ∀ (es : List (HistoryEntry μ)) (idx : Nat) (s : Kv μ), TextTyped s →
    Prog.wp F memory (appendEntries h idx es) (fun _ s' => Penned h idx es es.length s s')
      (fun _ s' => F ∧ ∃ k ≤ es.length, Penned h idx es k s s') s
  | [], idx, s, ht => ⟨.refl ht, fun _ hj => absurd hj (Nat.not_lt_zero _)⟩
  | e :: es, idx, s, ht => by
    have hput : Indexed (fun c => c.1 = .text ∨ c = (.session, messageKey h idx)) s
        (s.insert (.session, messageKey h idx) (.entry e.persist)) :=
      ⟨ht.changes (Changes.insert (P := fun c => c.1 = .session) rfl _) fun c hc =>
        by rw [hc]; decide, .insert (.inr rfl) _⟩
    have hcell : (s.insert (.session, messageKey h idx)
        (.entry e.persist))[((.session, messageKey h idx) : Cell)]? =
        some (.entry e.persist) := by rw [find_insert, if_pos rfl]
    have rest : ∀ s₁, Indexed (fun c => c.1 = .text ∨ c = (.session, messageKey h idx)) s s₁ →
        s₁[((.session, messageKey h idx) : Cell)]? = some (.entry e.persist) →
        Prog.wp F memory (appendEntries h (idx + 1) es)
        (fun _ s' => Penned h idx (e :: es) (e :: es).length s s')
          (fun _ s' => F ∧ ∃ k ≤ (e :: es).length, Penned h idx (e :: es) k s s') s₁ := by
      intro s₁ h₁ hcell₁
      refine (wp_appendEntries es (idx + 1) s₁ h₁.1).mono (fun _ s₂ h₂ => h₂.cons h₁ hcell₁)
        fun _ s₂ he => ?_
      obtain ⟨hf, k, hk, h₂⟩ := he
      exact ⟨hf, k + 1, Nat.succ_le_succ hk, h₂.cons h₁ hcell₁⟩
    rw [appendEntries, Prog.wp_bind, wp_put]
    refine ⟨?_, fun hf _ => ⟨hf, 0, Nat.zero_le _, .refl ht,
      fun _ _ hj => absurd hj (Nat.not_lt_zero _)⟩⟩
    cases e.indexable with
    | none => exact rest _ hput hcell
    | some b =>
      simp only
      rw [Prog.wp_bind]
      have htext : ∀ s₁, Indexed (docCells .messages (messageKey h idx))
          (s.insert (.session, messageKey h idx) (.entry e.persist)) s₁ →
          Indexed (fun c => c.1 = .text ∨ c = (.session, messageKey h idx)) s s₁ ∧
            s₁[((.session, messageKey h idx) : Cell)]? = some (.entry e.persist) := by
        intro s₁ h₁
        refine ⟨hput.trans (h₁.mono fun c hc => .inl hc.1), ?_⟩
        rw [h₁.2 _ fun hc => by cases hc.1]
        exact hcell
      refine (wp_indexText hput.1).mono (fun _ s₁ h₁ => rest s₁ (htext s₁ h₁).1 (htext s₁ h₁).2)
        fun _ s₁ he => ?_
      obtain ⟨hf, h₁⟩ := he
      -- the entry is filed, and its text is not
      have hnone : Penned h (idx + 1) es 0 s₁ s₁ :=
        ⟨.refl h₁.1, fun _ _ hj => absurd hj (Nat.not_lt_zero _)⟩
      exact ⟨hf, 1, Nat.succ_le_succ (Nat.zero_le _), hnone.cons (htext s₁ h₁).1 (htext s₁ h₁).2⟩

theorem Laid.append (hl : Laid h l s) {es : List (HistoryEntry μ)}
    (hc : Changes (fun c => c.1 = .text ∨
      ∃ j < es.length, c = (.session, messageKey h (l.length + j))) s s')
    (hes : ∀ j (hj : j < es.length), s'[((.session, messageKey h (l.length + j)) : Cell)]? =
      some (.entry es[j].persist)) :
    Laid h (l ++ es.map HistoryEntry.persist) s' where
  persisted := by
    rw [List.map_append, hl.persisted, List.map_map]
    rfl
  entries i := by
    have old : (∀ j < es.length, i ≠ l.length + j) → s'[((.session, messageKey h i) : Cell)]? =
        l[i]?.map .entry := by
      intro hi
      rw [hc, hl.entries]
      rintro (hp | ⟨j, hj, he⟩)
      · cases hp
      · exact hi j hj (messageKey_inj (congrArg Prod.snd he))
    rcases Nat.lt_or_ge i l.length with hi | hi
    · rw [old fun j _ => by omega, List.getElem?_append_left hi]
    · obtain ⟨j, rfl⟩ := Nat.exists_eq_add_of_le hi
      rw [List.getElem?_append_right hi, Nat.add_sub_cancel_left]
      rcases Nat.lt_or_ge j es.length with hj | hj
      · rw [hes j hj]; simp [hj]
      · rw [old fun j' hj' => by omega, List.getElem?_eq_none hi,
          List.getElem?_eq_none (by simpa using hj)]
  keys k v hv hk := by
    by_cases hnew : ∃ j < es.length, k = messageKey h (l.length + j)
    · obtain ⟨j, hj, rfl⟩ := hnew
      exact ⟨l.length + j, by simpa using hj, rfl⟩
    · rw [hc] at hv
      · obtain ⟨i, hi, rfl⟩ := hl.keys k v hv hk
        exact ⟨i, by rw [List.length_append]; omega, rfl⟩
      · rintro (hp | ⟨j, hj, he⟩)
        · cases hp
        · exact hnew ⟨j, hj, congrArg Prod.snd he⟩

theorem wp_append_filed [TextStd] [Wire μ] (ht : TextTyped s) (hf : Filed h l s)
    (es : List (HistoryEntry μ)) (now : Str) :
    Prog.wp False memory (appendSessionMessages h es now)
    (fun _ => Filed h (l ++ es.map HistoryEntry.persist))
      (fun _ _ => False) s := by
  rw [appendSessionMessages]
  split
  · rename_i he
    rw [List.isEmpty_iff.mp he, List.map_nil, List.append_nil]
    exact hf
  · obtain ⟨m, hm, hc⟩ := hf.counted
    rw [Prog.wp_bind]
    refine wp_sessionMeta hm ?_ False.elim
    simp only
    rw [Prog.wp_bind, hc]
    refine (wp_appendEntries es l.length s ht).mono (fun _ s₁ hfiled => ?_) fun _ _ he => he.1
    obtain ⟨h₁, hes⟩ := hfiled
    rw [wp_put]
    exact ⟨(hf.toLaid.append h₁.2 fun j hj => hes j hj hj).putMeta (by simp), False.elim⟩

theorem wp_dropKeys : ∀ (keys : List Str) (s : Kv μ), TextTyped s →
    Prog.wp F memory (forM keys fun key => do
        dropText .messages key
        let _ ← delete .session key)
      (fun _ s' => TextTyped s' ∧ ∀ k, s'[((.session, k) : Cell)]? = if k ∈ keys then none
        else s[((.session, k) : Cell)]?)
      (fun _ _ => F) s
  | [], s, ht => ⟨ht, fun k => by simp⟩
  | key :: keys, s, ht => by
    rw [List.forM_cons, Prog.wp_bind, Prog.wp_bind]
    refine (wp_dropText ht).mono (fun _ s₁ h₁ => ?_) fun _ _ he => he.1
    rw [Prog.wp_bind, wp_delete]
    refine ⟨?_, fun hF _ => hF⟩
    refine (wp_dropKeys keys _ (h₁.1.erase _)).mono (fun _ s₂ ⟨h₂, hk⟩ => ⟨h₂, fun k => ?_⟩)
      fun _ _ he => he
    rw [hk, find_erase, h₁.2 _ (fun hc => by cases hc.1)]
    by_cases hkey : key = k
    · simp [hkey]
    · simp [hkey, Ne.symm hkey]

theorem Laid.take (hl : Laid h l s) (keep : Nat)
    (hs : ∀ k, s'[((.session, k) : Cell)]? =
      if k ∈ ((List.range l.length).map (messageKey h)).drop keep then none
      else s[((.session, k) : Cell)]?) :
    Laid h (l.take keep) s' := by
  have hmem : ∀ i, messageKey h i ∈ ((List.range l.length).map (messageKey h)).drop keep ↔
      keep ≤ i ∧ i < l.length := by
    intro i
    rw [← List.map_drop, List.mem_map]
    constructor
    · rintro ⟨j, hj, he⟩
      obtain rfl := messageKey_inj he
      obtain ⟨n, hn, hj⟩ := List.mem_iff_getElem.mp hj
      simp at hn hj
      omega
    · rintro ⟨hk, hi⟩
      refine ⟨i, List.mem_iff_getElem.mpr ⟨i - keep, ?_, ?_⟩, rfl⟩
      · simp; omega
      · simp; omega
  constructor
  · rw [List.map_take, hl.persisted]
  · intro i
    simp only [hs, hl.entries, hmem, List.getElem?_take]
    by_cases hi : i < keep
    · rw [if_neg (by omega), if_pos hi]
    · rw [if_neg hi]
      split
      · rfl
      · rw [List.getElem?_eq_none (by omega)]
  · intro k v hv hk
    rw [hs] at hv
    split at hv
    · cases hv
    · obtain ⟨i, hi, rfl⟩ := hl.keys k v hv hk
      rw [hmem] at *
      exact ⟨i, by rw [List.length_take]; omega, rfl⟩

theorem wp_truncate_filed (ht : TextTyped s) (hf : Filed h l s) (hlen : l.length ≤ 10 ^ 12) (keep : Nat) :
    Prog.wp False memory (truncateSessionMessages h keep) (fun _ => Filed h (l.take keep))
    (fun _ _ => False) s := by
  obtain ⟨m, hm, hc⟩ := hf.counted
  rw [truncateSessionMessages, Prog.wp_bind]
  refine wp_sessionMeta hm ?_ False.elim
  simp only
  rw [Prog.wp_bind, wp_scanKeys, hf.toLaid.scan hlen]
  refine ⟨?_, False.elim⟩
  rw [Prog.wp_bind]
  refine (wp_dropKeys _ s ht).mono (fun _ s₁ hdropped => ?_) fun _ _ he => he
  obtain ⟨-, h₁⟩ := hdropped
  rw [wp_put]
  exact ⟨(hf.toLaid.take keep h₁).putMeta (by simp), False.elim⟩

theorem wp_compact_filed (ht : TextTyped s) (hf : Filed h l s) (hlen : l.length ≤ 10 ^ 12)
    (archive : Str) :
    Prog.wp False memory (appendSessionCompact h archive)
    (fun _ => Filed h ([] : List (HistoryEntry μ))) (fun _ _ => False) s := by
  rw [appendSessionCompact, Prog.wp_bind]
  refine (wp_truncate_filed ht hf hlen 0).mono (fun _ s₁ h₁ => ?_) fun _ _ he => he
  rw [wp_put]
  refine ⟨?_, False.elim⟩
  have hcell : ∀ k, k ≠ archiveKey h →
      (s₁.insert (.session, archiveKey h) (.text archive))[((.session, k) : Cell)]? =
      s₁[((.session, k) : Cell)]? := fun k hk => by
    rw [find_insert, if_neg fun he => hk (congrArg Prod.snd he).symm]
  rw [List.take_zero] at h₁
  constructor
  · constructor
    · rfl
    · intro i
      rw [hcell _ fun he => messagePrefix_not_archiveKey (he ▸ messagePrefix_messageKey h i)]
      exact h₁.entries i
    · intro k v hv hk
      rw [hcell k fun he => messagePrefix_not_archiveKey (he ▸ hk)] at hv
      exact h₁.keys k v hv hk
  · obtain ⟨m, hm, hc⟩ := h₁.counted
    exact ⟨m, by rw [hcell _ fun he => archiveKey_ne_metaKey h h he.symm]; exact hm, hc⟩

theorem wp_update_filed [TextStd] (ht : TextTyped s) (hf : Filed h l s) (m : SessionMeta) :
    Prog.wp False memory (updateSessionMeta h m) (fun _ => Filed h l) (fun _ _ => False) s := by
  obtain ⟨stored, hm, hc⟩ := hf.counted
  rw [updateSessionMeta, Prog.wp_bind]
  refine wp_sessionMeta hm ?_ False.elim
  simp only
  rw [Prog.wp_bind, wp_put]
  refine ⟨?_, False.elim⟩
  have hput := hf.toLaid.putMeta (m := { m with messageCount := stored.messageCount }) hc
  have ht' : TextTyped (s.insert (.session, metaKey h)
      (.sessionMeta { m with messageCount := stored.messageCount })) :=
    ht.changes (Changes.insert (P := fun c => c.1 = .session) rfl _) fun c hc => by rw [hc]; decide
  refine (wp_indexMetaText ht' h _).mono (fun _ s₁ h₁ => hput.congr fun k _ => h₁.2 _ (by simp))
    fun _ _ he => he.1

theorem wp_appendEvents_filed : ∀ (events : List EventLine) (idx : Nat) (s : Kv μ), Filed h l s →
    Prog.wp False memory (appendEvents h idx events) (fun _ => Filed h l) (fun _ _ => False) s
  | [], _, _, hf => hf
  | event :: events, idx, s, hf => by
    rw [appendEvents, Prog.wp_bind, wp_put]
    refine ⟨wp_appendEvents_filed events (idx + 1) _ ?_, False.elim⟩
    constructor
    · refine hf.toLaid.congr fun k hk => ?_
      rw [find_insert, if_neg]
      intro he
      cases he
      exact messagePrefix_not_eventKey idx hk
    · obtain ⟨m, hm, hc⟩ := hf.counted
      exact ⟨m, by rw [find_insert, if_neg fun he => eventKey_ne_metaKey h h idx
        (congrArg Prod.snd he)]; exact hm, hc⟩

end

theorem wp_create_filed {h : Str} {s : Kv μ} (hs : Vacant h s) (agent : AgentId) (createdBy : Str)
    (root : Option Str) (now : Str) :
    Prog.wp False memory (createSession h agent createdBy root now)
    (fun _ => Filed h ([] : List (HistoryEntry μ)))
      (fun _ _ => False) s := by
  have hl : Laid h [] s := by
    constructor
    · rfl
    · intro i
      rw [hs _ (messagePrefix_messageKey h i)]
      rfl
    · intro k v hv hk
      rw [hs _ hk] at hv
      cases hv
  rw [createSession, Prog.wp_bind, wp_put]
  refine ⟨?_, False.elim⟩
  rw [wp_put]
  have hf := hl.putMeta (m := ⟨agent, createdBy, now, [], now, 0, none, root⟩) rfl
  refine ⟨hf.congr fun k hk => ?_, False.elim⟩
  rw [find_insert, if_neg]
  intro he
  cases he
  exact indexPrefix_not_session hk (indexPrefix_isPrefix _ h)

/-! ## Loading it back -/

theorem wp_loadHistory {s : Kv μ} {Q : List (HistoryEntry μ) → Kv μ → Prop} :
    ∀ {keys : List Str} {l : List (HistoryEntry μ)},
    List.Forall₂ (fun k e => s[((.session, k) : Cell)]? = some (.entry e)) keys l →
    Q (l.map HistoryEntry.persist) s →
    Prog.wp False memory (loadHistory keys) Q (fun _ _ => False) s
  | [], _, h, hQ => by
    cases h
    exact hQ
  | key :: keys, _, h, hQ => by
    cases h with
    | cons hk h =>
      rw [loadHistory, Prog.wp_bind, Prog.wp_attempt, wp_getJson, hk]
      refine ⟨?_, False.elim⟩
      simp only [Value.asEntry]
      rw [Prog.wp_bind]
      exact wp_loadHistory h hQ

theorem wp_load_filed {h : Str} {l : List (HistoryEntry μ)} {s : Kv μ} (ht : MetasTyped s)
    (hf : Filed h l s) (hlen : l.length ≤ 10 ^ 12) :
    Prog.wp False memory (loadSession h)
      (fun snap s' => s' = s ∧ ∃ c, snap = some c ∧ c.history = l ∧
        c.sessionMeta.messageCount = l.length)
      (fun _ _ => False) s := by
  obtain ⟨m, hm, hc⟩ := hf.counted
  rw [loadSession, Prog.wp_bind]
  refine wp_sessionMeta hm ?_ False.elim
  simp only
  rw [Prog.wp_bind, wp_getJson]
  have rest : ∀ archive : Option Str, Prog.wp False memory
      (do let keys ← scanKeys .session (messagePrefix h)
          let history ← loadHistory keys
          return some (⟨m, history, archive⟩ : SessionSnapshot μ))
      (fun snap s' => s' = s ∧ ∃ c, snap = some c ∧ c.history = l ∧
        c.sessionMeta.messageCount = l.length)
      (fun _ _ => False) s := by
    intro archive
    rw [Prog.wp_bind, wp_scanKeys, hf.toLaid.scan hlen]
    refine ⟨?_, False.elim⟩
    rw [Prog.wp_bind]
    refine wp_loadHistory (l := l) ?_ ⟨rfl, _, rfl, hf.persisted, hc⟩
    rw [List.forall₂_iff_get]
    refine ⟨by simp, fun i hi hi' => ?_⟩
    simp [hf.entries]
  refine ⟨?_, False.elim⟩
  cases ha : s[((.session, archiveKey h) : Cell)]? with
  | none => exact rest none
  | some v =>
    obtain ⟨t, rfl⟩ := ht.archives h v ha
    exact rest (some t)

/-! ## Any run of a single writer -/

def SessionOp.edit (l : List (HistoryEntry μ)) : SessionOp μ → List (HistoryEntry μ)
  | .append entries _ => l ++ entries.map HistoryEntry.persist
  | .truncate keep => l.take keep
  | .compact _ => []
  | _ => l

def SessionOp.Edits : SessionOp μ → Prop
  | .create _ _ _ _ => False
  | .delete => False
  | _ => True

def plain (h : Str) (l : List (HistoryEntry μ)) (steps : List (Str × SessionOp μ)) :
    List (HistoryEntry μ) :=
  steps.foldl (fun l x => if x.1 = h then x.2.edit l else l) l

section
variable [TextStd] [Wire μ]

def play (h : Str) : List (Str × SessionOp μ) → KvM μ Unit
  | [] => pure ()
  | (g, op) :: steps =>
    if g = h then do
      op.exec h
      play h steps
    else do
      let _ ← (op.exec g).attempt
      play h steps

theorem wp_edit_filed {h : Str} {l : List (HistoryEntry μ)} {s : Kv μ} {op : SessionOp μ}
    (hop : op.Edits)
    (ht : TextTyped s) (hf : Filed h l s) (hlen : l.length ≤ 10 ^ 12) :
    Prog.wp False memory (op.exec h) (fun _ => Filed h (op.edit l)) (fun _ _ => False) s := by
  cases op with
  | create => exact hop.elim
  | delete => exact hop.elim
  | append entries now => exact wp_append_filed ht hf entries now
  | events lines =>
    rw [SessionOp.exec, appendSessionEvents, Prog.wp_bind, wp_scanKeys]
    exact ⟨wp_appendEvents_filed lines _ s hf, False.elim⟩
  | compact archive => exact wp_compact_filed ht hf hlen archive
  | truncate keep => exact wp_truncate_filed ht hf hlen keep
  | update m => exact wp_update_filed ht hf m

variable [Chrono]

def Allowed (h : Str) (x : Str × SessionOp μ) : Prop := '/' ∉ x.1 ∧ x.2.Timed ∧
    (x.1 = h → x.2.Edits)

theorem wp_play_filed {h : Str} (hh : '/' ∉ h) :
    ∀ (steps : List (Str × SessionOp μ)) (l : List (HistoryEntry μ)) (s : Kv μ),
    Typed s → Filed h l s → (∀ x ∈ steps, Allowed h x) →
    (∀ k, (plain h l (steps.take k)).length < 10 ^ 12) →
    Prog.wp False memory (play h steps) (fun _ s' => Typed s' ∧ Filed h (plain h l steps) s')
    (fun _ _ => False) s
  | [], _, _, ht, hf, _, _ => ⟨ht, hf⟩
  | (g, op) :: steps, l, s, ht, hf, hall, hsmall => by
    have hlen : l.length ≤ 10 ^ 12 := by
      have := hsmall 0
      simp only [List.take_zero, plain, List.foldl_nil] at this
      omega
    obtain ⟨hg, htimed, hedits⟩ := hall (g, op) List.mem_cons_self
    have hrest : ∀ x ∈ steps, Allowed h x := fun x hx => hall x (List.mem_cons_of_mem _ hx)
    rw [play]
    by_cases hgh : g = h
    · subst hgh
      rw [if_pos rfl, Prog.wp_bind]
      refine ((wp_edit_filed (hedits rfl) ht.text hf hlen).and (keeps_exec htimed ht.kept)).mono
        (fun _ s₁ ⟨h₁, hk⟩ => ?_) fun _ _ he => he.1
      have := wp_play_filed hh steps (op.edit l) s₁ hk.typed h₁ hrest fun k => by
        simpa [plain] using hsmall (k + 1)
      simpa [plain] using this
    · rw [if_neg hgh, Prog.wp_bind, Prog.wp_attempt]
      have next : ∀ s₁, Kept g s s₁ → Prog.wp False memory (play h steps)
          (fun _ s' => Typed s' ∧ Filed h (plain h l ((g, op) :: steps)) s')
            (fun _ _ => False) s₁ := by
        intro s₁ hk
        have := wp_play_filed hh steps l s₁ hk.typed
            (hf.congr fun k hp => hk.frame _ (sessionCells_apart hg hh hgh hp))
          hrest fun k => by simpa [plain, hgh] using hsmall (k + 1)
        simpa [plain, hgh] using this
      exact (keeps_exec htimed ht.kept).mono (fun _ => next) fun _ => next

/-- A created session behaves as the list its writer makes of it: loading
gives the list, the message keys are its indices, and the counter is its length. -/
theorem single_writer_refines_list {h : Str} (hh : '/' ∉ h) {s₀ : Kv μ} (hs : Reached s₀)
    (hnew : Vacant h s₀)
    (agent : AgentId) (createdBy : Str) (root : Option Str) {now : Str}
    (hnow : Chrono.IsTimestamp now)
    {steps : List (Str × SessionOp μ)} (hsteps : ∀ x ∈ steps, Allowed h x)
    (hsmall : ∀ k, (plain h [] (steps.take k)).length < 10 ^ 12) :
    ∃ snap keys s, Prog.interp memory (do
        createSession h agent createdBy root now
        play h steps
        let snap ← loadSession h
        let keys ← scanKeys .session (messagePrefix h)
        return (snap, keys)) s₀ = .ok (some snap, keys) s ∧
      snap.history = plain h [] steps ∧
      keys = (List.range (plain h [] steps).length).map (messageKey h) ∧
      snap.sessionMeta.messageCount = (plain h [] steps).length := by
  have hlen : (plain h [] steps).length ≤ 10 ^ 12 := by
    have := hsmall steps.length
    rw [List.take_length] at this
    omega
  have hwp : Prog.wp False memory (do
      createSession h agent createdBy root now
      play h steps
      let snap ← loadSession h
      let keys ← scanKeys .session (messagePrefix h)
      return (snap, keys))
      (fun r _ => ∃ snap, r.1 = some snap ∧ snap.history = plain h [] steps ∧
        r.2 = (List.range (plain h [] steps).length).map (messageKey h) ∧
        snap.sessionMeta.messageCount = (plain h [] steps).length) (fun _ _ => False) s₀ := by
    rw [Prog.wp_bind]
    refine ((wp_create_filed hnew agent createdBy root now).and
      (keeps_createSession hs.typed.kept agent createdBy root hnow)).mono (fun _ s₁ ⟨h₁, hk⟩ => ?_)
        fun _ _ he => he.1
    rw [Prog.wp_bind]
    refine (wp_play_filed hh steps [] s₁ hk.typed h₁ hsteps hsmall).mono (fun _ s₂ ⟨ht, h₂⟩ => ?_)
      fun _ _ he => he
    rw [Prog.wp_bind]
    refine (wp_load_filed ht.metas h₂ hlen).mono ?_ fun _ _ he => he
    rintro _ s₃ ⟨rfl, snap, rfl, hhist, hcount⟩
    rw [Prog.wp_bind, wp_scanKeys, h₂.toLaid.scan hlen]
    exact ⟨⟨snap, rfl, hhist, rfl, hcount⟩, False.elim⟩
  obtain ⟨⟨snap, keys⟩, s, hrun, snap', hsnap, hrest⟩ := hwp.answers
  simp only at hsnap hrest
  subst hsnap
  exact ⟨snap', keys, s, hrun, hrest⟩

end

section
open Plain

theorem single_writer_refines_list_instance :
    let steps : List (Str × SessionOp Message) :=
      [("chat".toList, .append [.user "hello".toList, .assistant "hi".toList none]
        "t1+00:00".toList),
       ("other".toList, .delete),
       ("chat".toList, .truncate 1),
       ("chat".toList, .update ⟨⟨0⟩, [], [], "title".toList, [], 99, none, none⟩)]
    (∀ x ∈ steps, Allowed "chat".toList x) ∧
      (∀ k, (plain "chat".toList [] (steps.take k)).length < 10 ^ 12) ∧
      ∃ snap keys s, Prog.interp memory (do
        createSession "chat".toList ⟨0⟩ [] none "t0+00:00".toList
        play "chat".toList steps
        let snap ← loadSession "chat".toList
        let keys ← scanKeys .session (messagePrefix "chat".toList)
        return (snap, keys)) (∅ : Kv Message) = .ok (some snap, keys) s ∧
      snap.history = [.user "hello".toList] ∧ keys = [messageKey "chat".toList 0] ∧
        snap.sessionMeta.messageCount = 1 := by
  intro steps
  have hsteps : ∀ x ∈ steps, Allowed "chat".toList x := by
    simp [steps, Allowed, SessionOp.Timed, SessionOp.Edits]
  have hsmall : ∀ k, (plain "chat".toList [] (steps.take k)).length < 10 ^ 12
    | 0 | 1 | 2 | 3 | _ + 4 => by simp [steps, plain, SessionOp.edit]
  exact ⟨hsteps, hsmall, single_writer_refines_list (by decide) .empty
    (fun _ _ => by simp) ⟨0⟩ [] none
    ⟨by decide, by decide⟩ hsteps hsmall⟩

end

end Crabtalk.Store

import Crabtalk.Store.Deletion
import Crabtalk.Store.Hits

/-! # The message index keeps up with the messages

One writer works on sessions of the store. After each operation every document
of the message index stands for a message that is there now.
-/

open Basis

namespace Crabtalk.Store

variable {μ : Type} {s s' : Kv μ} {g h : Str}

theorem messageKey_handle {a b : Str} {i j : Nat} (ha : '/' ∉ a) (hb : '/' ∉ b)
    (he : messageKey a i = messageKey b j) : a = b := by
  have hc := congrArg components he
  rw [components_messageKey, components_messageKey, components_of_notMem ha,
    components_of_notMem hb] at hc
  simp only [List.singleton_append, List.cons.injEq, true_and] at hc
  exact hc.1

theorem Vacant.congr (hv : Vacant h s)
    (hs : ∀ k, sessionPrefix h <+: k → s'[((.session, k) : Cell)]? = s[((.session, k) : Cell)]?) :
    Vacant h s' := by
  intro k hk
  rw [hs k ((sessionPrefix_messagePrefix h).trans hk)]
  exact hv k hk

theorem Vacant.laid (hv : Vacant h s) : Laid h ([] : List (HistoryEntry μ)) s := by
  refine ⟨rfl, fun i => ?_, fun k v hk hp => ?_⟩
  · rw [hv _ (messagePrefix_messageKey h i)]
    rfl
  · rw [hv k hp] at hk
    cases hk

theorem HistoryEntry.indexable_persist [Wire μ] {e : HistoryEntry μ} {b : Str × Str}
    (hi : e.indexable = some b) :
    e.persist.indexable = some b := by
  have hfalse : e.autoInjected = false := by
    unfold HistoryEntry.indexable at hi
    split at hi
    · cases hi
    · simpa using ‹¬ e.autoInjected = true›
  rw [← hi]
  unfold HistoryEntry.indexable HistoryEntry.persist HistoryEntry.role
  rw [hfalse]

section
variable [TextStd] {C C' : TextIndex → Corpus}

theorem Exact.of_text (he : Exact C s)
    (hs : ∀ k, s'[((.text, k) : Cell)]? = s[((.text, k) : Cell)]?) : Exact C s' := by
  refine ⟨fun k v hk => ?_, fun i => (he.totals i).of_eq (hs _)⟩
  rw [hs]
  exact he.rows k v hk

theorem Exact.put (he : Exact C s) (k : Str) (v : Value μ) : Exact C (s.insert (.session, k) v) :=
  he.of_text fun a => by rw [find_insert, if_neg (by simp)]

theorem Exact.erase (he : Exact C s) (k : Str) : Exact C (s.erase (.session, k)) :=
  he.of_text fun a => by rw [find_erase, if_neg (by simp)]

/-! ## The index beside each operation -/

theorem wp_dropKeys_exact (he : Exact C s) (keys : List Str) :
    Prog.wp False memory (forM keys fun key => do
        dropText .messages key
        let _ ← delete .session key)
      (fun _ s' => ∃ C', Exact C' s' ∧ ∀ (k text : Str) (weight : ℚ), (C' .messages)[k]? =
        some (text, weight) →
        (C .messages)[k]? = some (text, weight) ∧ k ∉ keys)
      (fun _ _ => False) s := by
  induction keys generalizing C s with
  | nil => exact ⟨C, he, fun k text weight hc => ⟨hc, by simp⟩⟩
  | cons key keys ih =>
    rw [List.forM_cons, Prog.wp_bind, Prog.wp_bind]
    refine (wp_dropText_exact he).mono ?_ fun _ _ he => he
    intro _ s₁ h₁
    rw [Prog.wp_bind, wp_delete]
    refine ⟨?_, False.elim⟩
    refine (ih (h₁.erase key)).mono ?_ fun _ _ he => he
    rintro _ s₂ ⟨C', h₂, hC'⟩
    refine ⟨C', h₂, fun k text weight hc => ?_⟩
    obtain ⟨hc, hk⟩ := hC' k text weight hc
    rw [find_update_erase] at hc
    split at hc
    · cases hc
    · rename_i hne
      refine ⟨hc, fun hmem => ?_⟩
      rcases List.mem_cons.mp hmem with he | hmem
      · exact hne ⟨rfl, he.symm⟩
      · exact hk hmem

theorem wp_truncate_exact (he : Exact C s) {m : SessionMeta}
    (hm : s[((.session, metaKey g) : Cell)]? = some (.sessionMeta m)) (keep : Nat) :
    Prog.wp False memory (truncateSessionMessages g keep)
      (fun _ s' => ∃ C', Exact C' s' ∧ ∀ (k text : Str) (weight : ℚ), (C' .messages)[k]? =
        some (text, weight) →
        (C .messages)[k]? = some (text, weight) ∧
        k ∉ ((s.under .session (messagePrefix g)).map fun e => e.1.2).drop keep)
      (fun _ _ => False) s := by
  unfold truncateSessionMessages
  rw [Prog.wp_bind]
  refine wp_sessionMeta hm ?_ False.elim
  dsimp only
  rw [Prog.wp_bind, wp_scanKeys]
  refine ⟨?_, False.elim⟩
  rw [Prog.wp_bind]
  refine (wp_dropKeys_exact he _).mono ?_ fun _ _ he => he
  rintro _ s₁ ⟨C', h₁, hC'⟩
  rw [wp_put]
  exact ⟨⟨C', h₁.put _ _, hC'⟩, False.elim⟩

theorem wp_indexMetaText_exact (he : Exact C s) (m : SessionMeta) :
    Prog.wp False memory (indexMetaText g m) (fun _ s' => ∃ C', Exact C' s' ∧
      C' .messages = C .messages) (fun _ _ => False) s := by
  have htext : ∀ (key text : Str) (s₁ : Kv μ), (∃ C', Exact C' s₁ ∧ C' .messages = C .messages) →
      Prog.wp False memory (metaText key text) (fun _ s' => ∃ C', Exact C' s' ∧
        C' .messages = C .messages) (fun _ _ => False) s₁ := by
    rintro key text s₁ ⟨C₁, h₁, hC₁⟩
    unfold metaText
    rw [← hC₁]
    split
    · refine (wp_dropText_exact h₁).mono (fun _ s₂ h₂ => ⟨_, h₂, ?_⟩) fun _ _ he => he
      exact Function.update_of_ne (by decide) _ _
    · refine (wp_indexText_exact h₁).mono (fun _ s₂ h₂ => ⟨_, h₂, ?_⟩) fun _ _ he => he
      exact Function.update_of_ne (by decide) _ _
  rw [indexMetaText_eq]
  exact Prog.wp_bind.mpr ((htext _ _ s ⟨C, he, rfl⟩).mono (fun _ => htext _ _) fun _ _ he => he)

theorem wp_update_exact (he : Exact C s) (hm : MetasTyped s) (m : SessionMeta) :
    Prog.wp False memory (updateSessionMeta g m) (fun _ s' => ∃ C', Exact C' s' ∧
      C' .messages = C .messages) (fun _ _ => False) s := by
  unfold updateSessionMeta sessionMeta
  rw [Prog.wp_bind, wp_getJson]
  refine ⟨?_, False.elim⟩
  cases hv : s[((.session, metaKey g) : Cell)]? with
  | none =>
    dsimp only
    rw [Prog.wp_bind, wp_put]
    exact ⟨wp_indexMetaText_exact (he.put _ _) _, False.elim⟩
  | some v =>
    obtain ⟨stored, rfl⟩ := hm.metas g v hv
    simp only [Value.asMeta]
    rw [Prog.wp_bind, wp_put]
    exact ⟨wp_indexMetaText_exact (he.put _ _) _, False.elim⟩

theorem wp_delete_exact (he : Exact C s) (ht : TextTyped s) (hm : MetasTyped s) :
    Prog.wp False memory (deleteSession g)
      (fun _ s' => ∃ C', Exact C' s' ∧ ∀ (k text : Str) (weight : ℚ), (C' .messages)[k]? =
        some (text, weight) →
        (C .messages)[k]? = some (text, weight) ∧ ¬ sessionPrefix g <+: k)
      (fun _ _ => False) s := by
  have sess : ∀ {index : TextIndex} {s s' : Kv μ}, Indexed
      (stemCells index (sessionPrefix g)) s s' →
      ∀ k, s'[((.session, k) : Cell)]? = s[((.session, k) : Cell)]? :=
      fun h k => h.2 _ fun ⟨_, _, hc⟩ => by cases hc.1
  unfold deleteSession
  rw [Prog.wp_bind]
  refine ((wp_dropTextPrefix_exact he).and (wp_dropTextPrefix ht)).mono ?_ fun _ _ he => he.1
  rintro _ s₁ ⟨h₁, hi₁⟩
  rw [Prog.wp_bind]
  refine ((wp_dropTextPrefix_exact h₁).and (wp_dropTextPrefix hi₁.1)).mono ?_ fun _ _ he => he.1
  rintro _ s₂ ⟨h₂, hi₂⟩
  have hm₂ : MetasTyped s₂ := hm.congr fun k => by rw [sess hi₂, sess hi₁]
  obtain ⟨C₂, h₂, hC⟩ : ∃ C₂, Exact C₂ s₂ ∧ ∀ (k text : Str) (weight : ℚ), (C₂ .messages)[k]? =
      some (text, weight) →
      (C .messages)[k]? = some (text, weight) ∧ ¬ sessionPrefix g <+: k := by
    refine ⟨_, h₂, fun k text weight hc => ?_⟩
    rw [find_update_filter, if_neg (by simp), find_update_filter] at hc
    split at hc
    · cases hc
    · rename_i hne
      exact ⟨hc, fun hp => hne ⟨rfl, hp⟩⟩
  -- what is left to do is in the session column
  have hfinish : ∀ s₃ : Kv μ, Exact C₂ s₃ →
      Prog.wp False memory (do deleteKeys (← scanKeys .session (sessionPrefix g)) false)
      (fun _ s' => ∃ C', Exact C' s' ∧ ∀ (k text : Str) (weight : ℚ), (C' .messages)[k]? =
        some (text, weight) →
        (C .messages)[k]? = some (text, weight) ∧ ¬ sessionPrefix g <+: k)
      (fun _ _ => False) s₃ := by
    intro s₃ h₃
    rw [Prog.wp_bind, wp_scanKeys]
    refine ⟨(wp_deleteKeys _ false s₃).mono ?_ fun _ _ he => he, False.elim⟩
    rintro _ s' ⟨-, htext, -⟩
    exact ⟨_, h₃.of_text htext, hC⟩
  unfold sessionMeta
  rw [Prog.wp_bind, wp_getJson]
  refine ⟨?_, False.elim⟩
  cases hv : s₂[((.session, metaKey g) : Cell)]? with
  | none => exact hfinish s₂ h₂
  | some v =>
    obtain ⟨m, rfl⟩ := hm₂.metas g v hv
    simp only [Value.asMeta]
    rw [Prog.wp_bind, wp_delete]
    exact ⟨hfinish _ (h₂.erase _), False.elim⟩

variable [Wire μ]

theorem wp_appendEntries_exact (he : Exact C s) (idx : Nat) (es : List (HistoryEntry μ)) :
    Prog.wp False memory (appendEntries g idx es)
      (fun _ s' => ∃ C', Exact C' s' ∧ ∀ (k text : Str) (weight : ℚ), (C' .messages)[k]? =
        some (text, weight) →
        (C .messages)[k]? = some (text, weight) ∨
          ∃ j e role, es[j]? = some e ∧ k = messageKey g (idx + j) ∧
          e.indexable = some (text, role))
      (fun _ _ => False) s := by
  induction es generalizing C s idx with
  | nil => exact ⟨C, he, fun k text weight hc => .inl hc⟩
  | cons e es ih =>
    -- the rest of the loop, after what this entry added
    have hrest : ∀ {C₁ : TextIndex → Corpus} {s₁ : Kv μ}, Exact C₁ s₁ →
        (∀ (k text : Str) (weight : ℚ), (C₁ .messages)[k]? = some (text, weight) →
          (C .messages)[k]? = some (text, weight) ∨
          k = messageKey g idx ∧ ∃ role, e.indexable = some (text, role)) →
        Prog.wp False memory (appendEntries g (idx + 1) es)
          (fun _ s' => ∃ C', Exact C' s' ∧ ∀ (k text : Str) (weight : ℚ), (C' .messages)[k]? =
            some (text, weight) →
            (C .messages)[k]? = some (text, weight) ∨
              ∃ j e' role, (e :: es)[j]? = some e' ∧ k = messageKey g (idx + j) ∧
              e'.indexable = some (text, role))
          (fun _ _ => False) s₁ := by
      intro C₁ s₁ h₁ hC₁
      refine (ih h₁ (idx + 1)).mono ?_ fun _ _ he => he
      rintro _ s' ⟨C', h', hC'⟩
      refine ⟨C', h', fun k text weight hc => ?_⟩
      rcases hC' k text weight hc with hc | ⟨j, e', role, hj, hk, hi⟩
      · rcases hC₁ k text weight hc with hc | ⟨hk, role, hi⟩
        · exact .inl hc
        · exact .inr ⟨0, e, role, rfl, hk, hi⟩
      · exact .inr ⟨j + 1, e', role, hj, by rw [hk, Nat.add_right_comm, Nat.add_assoc], hi⟩
    unfold appendEntries
    rw [Prog.wp_bind, wp_put]
    refine ⟨?_, False.elim⟩
    cases hi : e.indexable with
    | none => exact hrest (he.put _ _) fun k text weight hc => .inl hc
    | some b =>
      obtain ⟨body, role⟩ := b
      dsimp only
      rw [Prog.wp_bind]
      refine (wp_indexText_exact (he.put _ _)).mono ?_ fun _ _ he => he
      intro _ s₁ h₁
      refine hrest h₁ fun k text weight hc => ?_
      rw [find_update_insert] at hc
      split at hc
      · rename_i hk
        cases hc
        exact .inr ⟨hk.2.symm, role, hi⟩
      · exact .inl hc

theorem wp_append_exact (he : Exact C s) {m : SessionMeta}
    (hm : s[((.session, metaKey g) : Cell)]? = some (.sessionMeta m))
    (es : List (HistoryEntry μ)) (now : Str) :
    Prog.wp False memory (appendSessionMessages g es now)
      (fun _ s' => ∃ C', Exact C' s' ∧ ∀ (k text : Str) (weight : ℚ), (C' .messages)[k]? =
        some (text, weight) →
        (C .messages)[k]? = some (text, weight) ∨
          ∃ j e role, es[j]? = some e ∧ k = messageKey g (m.messageCount + j) ∧
          e.indexable = some (text, role))
      (fun _ _ => False) s := by
  unfold appendSessionMessages
  split
  · exact ⟨C, he, fun k text weight hc => .inl hc⟩
  · rw [Prog.wp_bind]
    refine wp_sessionMeta hm ?_ False.elim
    dsimp only
    rw [Prog.wp_bind]
    refine (wp_appendEntries_exact he _ es).mono ?_ fun _ _ he => he
    rintro _ s₁ ⟨C', h₁, hC'⟩
    rw [wp_put]
    exact ⟨⟨C', h₁.put _ _, hC'⟩, False.elim⟩

/-! ## What holds between operations -/

/-- A session is either stored with a counted list of messages, or has neither a record nor messages. -/
def Settled (h : Str) (s : Kv μ) : Prop :=
  (∃ l, Filed h l s ∧ l.length < 2 ^ 32) ∨ (s[((.session, metaKey h) : Cell)]? = none ∧ Vacant h s)

variable [Chrono]

structure Fresh (C : TextIndex → Corpus) (s : Kv μ) : Prop where
  exact : Exact C s
  typed : Typed s
  settled : ∀ h, '/' ∉ h → Settled h s
  mirrors : Mirrors C s

theorem Fresh.empty : Fresh (fun _ => ∅) (∅ : Kv μ) where
  exact := .empty (by simp)
  typed := .empty
  settled h _ := .inr ⟨by simp, fun k _ => by simp⟩
  mirrors k text weight hc := by simp at hc

theorem Fresh.legible (hf : Fresh C s) (hh : '/' ∉ h) : Legible h s := by
  intro i v hv
  rcases hf.settled h hh with ⟨l, hl, -⟩ | ⟨-, hvac⟩
  · rw [hl.entries] at hv
    obtain ⟨e, -, rfl⟩ := Option.map_eq_some_iff.mp hv
    exact ⟨e, rfl⟩
  · rw [hvac _ (messagePrefix_messageKey h i)] at hv
    cases hv

/-- Work on one session keeps the index fresh when the documents of that session are still its messages. -/
theorem Fresh.step (hf : Fresh C s) (hg : '/' ∉ g) (hk : Kept g s s') (he : Exact C' s')
    (hs : Settled g s')
    (hnew : ∀ (k text : Str) (weight : ℚ), (C' .messages)[k]? = some (text, weight) →
      (∃ i e role, i < 2 ^ 32 ∧ k = messageKey g i ∧ s'[((.session, messageKey g i) : Cell)]? =
        some (.entry e) ∧
        e.indexable = some (text, role)) ∨
        ((C .messages)[k]? = some (text, weight) ∧ ∀ i, k ≠ messageKey g i)) : Fresh C' s' := by
  have hframe : ∀ a, '/' ∉ a → a ≠ g → ∀ k, sessionPrefix a <+: k →
      s'[((.session, k) : Cell)]? = s[((.session, k) : Cell)]? :=
    fun a ha hne k hp => hk.frame _ (sessionCells_apart hg ha (Ne.symm hne) hp)
  refine ⟨he, hk.typed, fun a ha => ?_, fun k text weight hc => ?_⟩
  · by_cases hag : a = g
    · rw [hag]
      exact hs
    · rcases hf.settled a ha with ⟨l, hl, hlen⟩ | ⟨hm, hvac⟩
      · exact .inl ⟨l, hl.congr (hframe a ha hag), hlen⟩
      · exact .inr ⟨by rw [hframe a ha hag _ (sessionPrefix_metaKey a), hm],
          hvac.congr (hframe a ha hag)⟩
  · rcases hnew k text weight hc with ⟨i, e, role, hi, hk', hcell, hindex⟩ | ⟨hold, hne⟩
    · exact ⟨g, i, e, role, hg, hi, hk', hcell, hindex⟩
    · obtain ⟨a, i, e, role, ha, hi, hk', hcell, hindex⟩ := hf.mirrors k text weight hold
      have hag : a ≠ g := by
        rintro rfl
        exact hne i hk'
      exact ⟨a, i, e, role, ha, hi, hk',
        by rw [hframe a ha hag _ (sessionPrefix_messageKey a i), hcell], hindex⟩

/-- Work on `g` that leaves its messages and their documents alone. -/
theorem Fresh.untouched (hf : Fresh C s) (hg : '/' ∉ g) (hk : Kept g s s') (he : Exact C' s')
    (hC : C' .messages = C .messages)
    (hmsg : ∀ k, messagePrefix g <+: k → s'[((.session, k) : Cell)]? = s[((.session, k) : Cell)]?)
    (hs : Settled g s') : Fresh C' s' := by
  refine hf.step hg hk he hs fun k text weight hc => ?_
  rw [hC] at hc
  by_cases hown : ∃ i, k = messageKey g i
  · obtain ⟨i, rfl⟩ := hown
    obtain ⟨a, j, e, role, ha, hj, hkey, hcell, hindex⟩ := hf.mirrors _ _ _ hc
    obtain rfl := messageKey_handle hg ha hkey
    exact .inl ⟨j, e, role, hj, hkey, by rw [hmsg _ (messagePrefix_messageKey g j), hcell], hindex⟩
  · exact .inr ⟨hc, fun i hi => hown ⟨i, hi⟩⟩

/-- Work on `g` that leaves its record, its messages and the index alone. -/
theorem Fresh.beside (hf : Fresh C s) (hg : '/' ∉ g) (hk : Kept g s s') (he : Exact C s')
    (hmsg : ∀ k, messagePrefix g <+: k → s'[((.session, k) : Cell)]? = s[((.session, k) : Cell)]?)
    (hmeta : s'[((.session, metaKey g) : Cell)]? = s[((.session, metaKey g) : Cell)]?) :
    Fresh C s' := by
  apply hf.untouched hg hk he rfl hmsg
  rcases hf.settled g hg with ⟨l, hl, hlen⟩ | ⟨hm, hvac⟩
  · refine .inl ⟨l, ⟨hl.toLaid.congr hmsg, ?_⟩, hlen⟩
    rw [hmeta]
    exact hl.counted
  · exact .inr ⟨by rw [hmeta, hm], fun k hp => by rw [hmsg k hp, hvac k hp]⟩

/-- Without messages of `g` before, no document is one of its own. -/
theorem Fresh.none_of_vacant (hf : Fresh C s) (hg : '/' ∉ g) (hv : Vacant g s)
    {k text : Str} {weight : ℚ}
    (hc : (C .messages)[k]? = some (text, weight)) (i : Nat) : k ≠ messageKey g i := by
  rintro rfl
  obtain ⟨a, j, e, role, ha, -, hk, hcell, -⟩ := hf.mirrors _ _ _ hc
  obtain rfl := messageKey_handle hg ha hk
  rw [← hk, hv _ (messagePrefix_messageKey g i)] at hcell
  cases hcell

/-- A document of `g` from before is the message at its index. -/
theorem Fresh.message (hf : Fresh C s) (hg : '/' ∉ g) {l : List (HistoryEntry μ)} (hl : Filed g l s)
    {k text : Str} {weight : ℚ}
    (hc : (C .messages)[k]? = some (text, weight)) :
    (∃ i e role, k = messageKey g i ∧ l[i]? = some e ∧ e.indexable = some (text, role)) ∨
      ∀ i, k ≠ messageKey g i := by
  by_cases hk : ∃ i, k = messageKey g i
  · obtain ⟨i, rfl⟩ := hk
    obtain ⟨a, j, e, role, ha, -, hk, hcell, hindex⟩ := hf.mirrors _ _ _ hc
    obtain rfl := messageKey_handle hg ha hk
    obtain rfl := messageKey_inj hk
    rw [hl.entries] at hcell
    obtain ⟨e', he', heq⟩ := Option.map_eq_some_iff.mp hcell
    cases heq
    exact .inl ⟨i, e, role, rfl, he', hindex⟩
  · exact .inr fun i hi => hk ⟨i, hi⟩

end

/-! ## Each operation -/

theorem Settled.vacant (hs : Settled h s) (hm : s[((.session, metaKey h) : Cell)]? = none) :
    Vacant h s := by
  rcases hs with ⟨l, hl, -⟩ | ⟨-, hv⟩
  · obtain ⟨m, hm', -⟩ := hl.counted
    rw [hm] at hm'
    cases hm'
  · exact hv

theorem Settled.filed (hs : Settled h s) {m : SessionMeta}
    (hm : s[((.session, metaKey h) : Cell)]? = some (.sessionMeta m)) :
    ∃ l, Filed h l s ∧ l.length < 2 ^ 32 ∧ m.messageCount = l.length := by
  rcases hs with ⟨l, hl, hlen⟩ | ⟨hn, -⟩
  · obtain ⟨m', hm', hcount⟩ := hl.counted
    rw [hm] at hm'
    cases hm'
    exact ⟨l, hl, hlen, hcount⟩
  · rw [hm] at hn
    cases hn

theorem wp_appendEvents_cells (events : List EventLine) (idx : Nat) (s : Kv μ) :
    Prog.wp False memory (appendEvents g idx events)
      (fun _ s' => (∀ k, (∀ j, k ≠ eventKey g j) → s'[((.session, k) : Cell)]? =
        s[((.session, k) : Cell)]?) ∧
        ∀ k, s'[((.text, k) : Cell)]? = s[((.text, k) : Cell)]?)
      (fun _ _ => False) s := by
  induction events generalizing idx s with
  | nil => exact ⟨fun _ _ => rfl, fun _ => rfl⟩
  | cons event events ih =>
    unfold appendEvents
    rw [Prog.wp_bind, wp_put]
    refine ⟨(ih (idx + 1) _).mono ?_ fun _ _ he => he, False.elim⟩
    rintro _ s' ⟨hs, ht⟩
    refine ⟨fun k hk => ?_, fun k => ?_⟩
    · rw [hs k hk, find_insert, if_neg (by simp [(hk idx).symm])]
    · rw [ht, find_insert, if_neg (by simp)]

theorem wp_truncate_none (hm : s[((.session, metaKey g) : Cell)]? = none) (keep : Nat) :
    Prog.wp False memory (truncateSessionMessages g keep) (fun _ s' => s' = s)
    (fun _ _ => False) s := by
  unfold truncateSessionMessages sessionMeta
  rw [Prog.wp_bind, wp_getJson, hm]
  exact ⟨rfl, False.elim⟩

section
variable [TextStd] [Wire μ] [Chrono] {C : TextIndex → Corpus}

theorem fresh_create (hf : Fresh C s) (hg : '/' ∉ g)
    (hm : s[((.session, metaKey g) : Cell)]? = none) (agent : AgentId) (createdBy : Str)
    (root : Option Str) {now : Str} (hnow : Chrono.IsTimestamp now) :
    Prog.wp False memory (createSession g agent createdBy root now) (fun _ s' => ∃ C', Fresh C' s')
    (fun _ _ => False) s := by
  have hvac := (hf.settled g hg).vacant hm
  have hexact : Prog.wp False memory (createSession g agent createdBy root now) (fun _ => Exact C)
      (fun _ _ => False) s := by
    unfold createSession
    rw [Prog.wp_bind, wp_put]
    exact ⟨wp_put.mpr ⟨(hf.exact.put _ _).put _ _, False.elim⟩, False.elim⟩
  refine (((wp_create_filed hvac agent createdBy root now).and
    (keeps_createSession hf.typed.kept agent createdBy root hnow)).and hexact).mono
    ?_ fun _ _ he => he.2
  rintro _ s' ⟨⟨hfiled, hk⟩, he⟩
  exact ⟨C, hf.step hg hk he (.inl ⟨[], hfiled, by simp⟩) fun k text weight hc =>
    .inr ⟨hc, hf.none_of_vacant hg hvac hc⟩⟩

theorem fresh_append (hf : Fresh C s) (hg : '/' ∉ g) (es : List (HistoryEntry μ)) (now : Str)
    (hr : ∀ m, s[((.session, metaKey g) : Cell)]? = some (.sessionMeta m) →
      m.messageCount + es.length < 2 ^ 32) :
    Prog.wp False memory (appendSessionMessages g es now) (fun _ s' => ∃ C', Fresh C' s')
    (fun _ s' => ∃ C', Fresh C' s') s := by
  cases hv : s[((.session, metaKey g) : Cell)]? with
  | none =>
    unfold appendSessionMessages
    split
    · exact ⟨C, hf⟩
    · unfold sessionMeta
      rw [Prog.wp_bind, wp_getJson, hv]
      exact ⟨⟨C, hf⟩, False.elim⟩
  | some v =>
    obtain ⟨m, rfl⟩ := hf.typed.metas.metas g v hv
    obtain ⟨l, hl, hlen, hcount⟩ := (hf.settled g hg).filed hv
    have hbound := hr m hv
    refine (((wp_append_filed hf.typed.text hl es now).and (keeps_append hf.typed.kept es now)).and
      (wp_append_exact hf.exact hv es now)).mono
      ?_ fun _ _ he => he.2.elim
    rintro _ s' ⟨⟨hfiled, hk⟩, C', he, hC'⟩
    refine ⟨C', hf.step hg hk he (.inl ⟨_, hfiled, by simpa [← hcount] using hbound⟩)
      fun k text weight hc => ?_⟩
    rcases hC' k text weight hc with hold | ⟨j, e, role, hj, hk', hindex⟩
    · rcases hf.message hg hl hold with ⟨i, e, role, hk', hi, hindex⟩ | hne
      · have hlt : i < l.length := (List.getElem?_eq_some_iff.mp hi).1
        refine .inl ⟨i, e, role, by omega, hk', ?_, hindex⟩
        rw [hfiled.entries, List.getElem?_append_left hlt, hi]
        rfl
      · exact .inr ⟨hold, hne⟩
    · have hlt : j < es.length := (List.getElem?_eq_some_iff.mp hj).1
      refine .inl ⟨l.length + j, e.persist, role, by omega, by rw [hk', hcount], ?_,
        HistoryEntry.indexable_persist hindex⟩
      rw [hfiled.entries, List.getElem?_append_right (Nat.le_add_right _ _),
        Nat.add_sub_cancel_left, List.getElem?_map, hj]
      rfl

theorem fresh_events (hf : Fresh C s) (hg : '/' ∉ g) (lines : List EventLine) :
    Prog.wp False memory (appendSessionEvents g lines) (fun _ s' => ∃ C', Fresh C' s')
    (fun _ _ => False) s := by
  unfold appendSessionEvents
  rw [Prog.wp_bind, wp_scanKeys]
  refine ⟨?_, False.elim⟩
  refine ((wp_appendEvents_cells lines _ s).and (keeps_appendEvents lines _ s hf.typed.kept)).mono
    ?_ fun _ _ he => he.1
  rintro _ s' ⟨⟨hcells, htext⟩, hk⟩
  refine ⟨C, hf.beside hg hk (hf.exact.of_text htext) (fun k hp => ?_) ?_⟩
  · exact hcells k fun j he => messagePrefix_not_eventKey j (he ▸ hp)
  · exact hcells _ fun j he => eventKey_ne_metaKey g g j he.symm

theorem fresh_truncate (hf : Fresh C s) (hg : '/' ∉ g) (keep : Nat) :
    Prog.wp False memory (truncateSessionMessages g keep) (fun _ s' => ∃ C', Fresh C' s')
    (fun _ _ => False) s := by
  cases hv : s[((.session, metaKey g) : Cell)]? with
  | none =>
    refine (wp_truncate_none hv keep).mono ?_ fun _ _ he => he
    rintro _ _ rfl
    exact ⟨C, hf⟩
  | some v =>
    obtain ⟨m, rfl⟩ := hf.typed.metas.metas g v hv
    obtain ⟨l, hl, hlen, -⟩ := (hf.settled g hg).filed hv
    refine (((wp_truncate_filed hf.typed.text hl (by omega) keep).and
      (keeps_truncate hf.typed.kept keep)).and
      (wp_truncate_exact hf.exact hv keep)).mono ?_ fun _ _ he => he.2
    rintro _ s' ⟨⟨hfiled, hk⟩, C', he, hC'⟩
    have hshort : (l.take keep).length < 2 ^ 32 := by
      rw [List.length_take]
      omega
    refine ⟨C', hf.step hg hk he (.inl ⟨_, hfiled, hshort⟩) fun k text weight hc => ?_⟩
    obtain ⟨hold, hkept⟩ := hC' k text weight hc
    rcases hf.message hg hl hold with ⟨i, e, role, rfl, hi, hindex⟩ | hne
    · have hlt : i < l.length := (List.getElem?_eq_some_iff.mp hi).1
      have hkeep : i < keep := by
        by_contra hge
        apply hkept
        rw [hl.toLaid.scan (by omega), ← List.map_drop, List.mem_map]
        refine ⟨i, List.mem_iff_getElem.mpr ⟨i - keep, ?_, ?_⟩, rfl⟩
        · simp
          omega
        · simp
          omega
      refine .inl ⟨i, e, role, by omega, rfl, ?_, hindex⟩
      rw [hfiled.entries, List.getElem?_take, if_pos hkeep, hi]
      rfl
    · exact .inr ⟨hold, hne⟩

theorem fresh_compact (hf : Fresh C s) (hg : '/' ∉ g) (archive : Str) :
    Prog.wp False memory (appendSessionCompact g archive) (fun _ s' => ∃ C', Fresh C' s')
    (fun _ _ => False) s := by
  unfold appendSessionCompact
  rw [Prog.wp_bind]
  refine (fresh_truncate hf hg 0).mono ?_ fun _ _ he => he
  rintro _ s₁ ⟨C₁, h₁⟩
  rw [wp_put]
  refine ⟨⟨C₁, ?_⟩, False.elim⟩
  have hcell : ∀ k, k ≠ archiveKey g →
      (s₁.insert (.session, archiveKey g) (.text archive))[((.session, k) : Cell)]? =
      s₁[((.session, k) : Cell)]? := fun k hk => by
    rw [find_insert, if_neg fun he => hk (congrArg Prod.snd he).symm]
  refine h₁.beside hg (h₁.typed.kept.put (sessionPrefix_archiveKey g) (fits_archive g archive))
    (h₁.exact.put _ _) (fun k hp => ?_) ?_
  · exact hcell k fun he => messagePrefix_not_archiveKey (he ▸ hp)
  · exact hcell _ (archiveKey_ne_metaKey g g).symm

theorem fresh_update (hf : Fresh C s) (hg : '/' ∉ g) (m : SessionMeta)
    (hm : s[((.session, metaKey g) : Cell)]? = none → m.messageCount = 0) :
    Prog.wp False memory (updateSessionMeta g m) (fun _ s' => ∃ C', Fresh C' s')
    (fun _ _ => False) s := by
  have hsettled : Prog.wp False memory (updateSessionMeta g m)
      (fun _ s' => Settled g s' ∧ ∀ k, messagePrefix g <+: k →
        s'[((.session, k) : Cell)]? = s[((.session, k) : Cell)]?)
      (fun _ _ => False) s := by
    -- whatever record is put, it carries the count of the messages that are there
    have hput : ∀ (m' : SessionMeta) (l : List (HistoryEntry μ)), Laid g l s → l.length < 2 ^ 32 →
        m'.messageCount = l.length →
        Prog.wp False memory (indexMetaText g m')
          (fun _ s' => Settled g s' ∧ ∀ k, messagePrefix g <+: k →
            s'[((.session, k) : Cell)]? = s[((.session, k) : Cell)]?)
          (fun _ _ => False) (s.insert (.session, metaKey g) (.sessionMeta m')) := by
      intro m' l hl hlen hcount
      have hfiled := hl.putMeta hcount
      have ht := (hf.typed.kept.putMeta (g := g) m').text
      refine (wp_indexMetaText ht g m').mono (fun _ s₁ h₁ => ?_) fun _ _ he => he.1
      have hsame : ∀ k, s₁[((.session, k) : Cell)]? =
          (s.insert (.session, metaKey g) (.sessionMeta m'))[((.session, k) : Cell)]? :=
        fun k => h₁.2 _ (by simp)
      refine ⟨.inl ⟨l, hfiled.congr fun k _ => hsame k, hlen⟩, fun k hp => ?_⟩
      rw [hsame, find_insert, if_neg]
      intro he
      cases he
      exact messagePrefix_not_metaKey hp
    unfold updateSessionMeta sessionMeta
    rw [Prog.wp_bind, wp_getJson]
    refine ⟨?_, False.elim⟩
    cases hv : s[((.session, metaKey g) : Cell)]? with
    | none =>
      dsimp only
      rw [Prog.wp_bind, wp_put]
      exact ⟨hput m [] ((hf.settled g hg).vacant hv).laid (by simp) (hm hv), False.elim⟩
    | some v =>
      obtain ⟨stored, rfl⟩ := hf.typed.metas.metas g v hv
      obtain ⟨l, hl, hlen, hcount⟩ := (hf.settled g hg).filed hv
      simp only [Value.asMeta]
      rw [Prog.wp_bind, wp_put]
      exact ⟨hput _ l hl.toLaid hlen hcount, False.elim⟩
  refine ((hsettled.and (keeps_update hf.typed.kept m)).and
    (wp_update_exact hf.exact hf.typed.metas m)).mono ?_ fun _ _ he => he.2
  rintro _ s' ⟨⟨⟨hs, hmsg⟩, hk⟩, C', he, hC⟩
  exact ⟨C', hf.untouched hg hk he hC hmsg hs⟩

theorem fresh_delete (hf : Fresh C s) (hg : '/' ∉ g) :
    Prog.wp False memory (deleteSession g) (fun _ s' => ∃ C', Fresh C' s') (fun _ _ => False) s := by
  refine (((wp_deleteSession hf.typed.text hf.typed.metas).and
    (keeps_deleteSession hf.typed.kept)).and
    (wp_delete_exact hf.exact hf.typed.text hf.typed.metas)).mono ?_ fun _ _ he => he.2
  rintro _ s' ⟨⟨⟨hdel, -⟩, hk⟩, C', he, hC'⟩
  have hsettled : Settled g s' :=
    .inr ⟨hdel.keys _ (sessionPrefix_metaKey g),
      fun k hp => hdel.keys k ((sessionPrefix_messagePrefix g).trans hp)⟩
  refine ⟨C', hf.step hg hk he hsettled fun k text weight hc => ?_⟩
  obtain ⟨hold, hk⟩ := hC' k text weight hc
  refine .inr ⟨hold, ?_⟩
  rintro i rfl
  exact hk (sessionPrefix_messageKey g i)

end

end Crabtalk.Store

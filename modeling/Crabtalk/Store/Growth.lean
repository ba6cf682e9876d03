import Crabtalk.Store.Messages

/-! # What an append leaves in the store

An append writes its entries behind the counter of the record and moves the
counter. What a turn does behind it leaves the messages and the counter alone.
-/

open Basis

namespace Crabtalk.Store

variable {μ : Type}

/-- The messages of `h` have grown by `es`, and the counter of its record with them. -/
def Appended (h : Str) (es : List (HistoryEntry μ)) (s s' : Kv μ) : Prop :=
  ∃ m m' : SessionMeta, s[((.session, metaKey h) : Cell)]? = some (.sessionMeta m) ∧
    s'[((.session, metaKey h) : Cell)]? = some (.sessionMeta m') ∧
    m'.messageCount = m.messageCount + es.length ∧
    (∀ j (hj : j < es.length),
      s'[((.session, messageKey h (m.messageCount + j)) : Cell)]? = some (.entry es[j].persist)) ∧
    ∀ k, messagePrefix h <+: k → (∀ j < es.length, k ≠ messageKey h (m.messageCount + j)) →
      s'[((.session, k) : Cell)]? = s[((.session, k) : Cell)]?

/-- No message of `h` was written but those of `es`. -/
def WrittenOf (h : Str) (es : List (HistoryEntry μ)) (s s' : Kv μ) : Prop :=
  ∀ k, messagePrefix h <+: k → s'[((.session, k) : Cell)]? = s[((.session, k) : Cell)]? ∨
    ∃ e ∈ es, s'[((.session, k) : Cell)]? = some (.entry e.persist)

structure MessagesKept (h : Str) (s s' : Kv μ) : Prop where
  messages : ∀ k, messagePrefix h <+: k → s'[((.session, k) : Cell)]? = s[((.session, k) : Cell)]?
  counter : ∀ m, s[((.session, metaKey h) : Cell)]? = some (.sessionMeta m) →
    ∃ m', s'[((.session, metaKey h) : Cell)]? = some (.sessionMeta m') ∧
    m'.messageCount = m.messageCount

section
variable {h : Str} {es : List (HistoryEntry μ)} {s s' s'' : Kv μ}

theorem Appended.stored (ha : Appended h es s s') :
    ∃ m, s[((.session, metaKey h) : Cell)]? = some (.sessionMeta m) := by
  obtain ⟨m, -, hm, -⟩ := ha
  exact ⟨m, hm⟩

theorem Appended.length_eq {es' : List (HistoryEntry μ)} (h₁ : Appended h es s s')
    (h₂ : Appended h es' s s') :
    es.length = es'.length := by
  obtain ⟨m₁, m₁', hm₁, hm₁', hc₁, -⟩ := h₁
  obtain ⟨m₂, m₂', hm₂, hm₂', hc₂, -⟩ := h₂
  rw [hm₁] at hm₂
  rw [hm₁'] at hm₂'
  cases hm₂
  cases hm₂'
  omega

theorem MessagesKept.refl : MessagesKept h s s := ⟨fun _ _ => rfl, fun m hm => ⟨m, hm, rfl⟩⟩

theorem MessagesKept.trans (h₁ : MessagesKept h s s') (h₂ : MessagesKept h s' s'') :
    MessagesKept h s s'' where
  messages k hk := by rw [h₂.messages k hk, h₁.messages k hk]
  counter m hm := by
    obtain ⟨m', hm', hc'⟩ := h₁.counter m hm
    obtain ⟨m'', hm'', hc''⟩ := h₂.counter m' hm'
    exact ⟨m'', hm'', hc''.trans hc'⟩

theorem MessagesKept.of_text (hc : Changes (fun c => c.1 = .text) s s') : MessagesKept h s s' where
  messages k _ := hc _ (by simp)
  counter m hm := ⟨m, by rw [hc _ (by simp)]; exact hm, rfl⟩

theorem MessagesKept.insert {k : Str} (hp : ¬ messagePrefix h <+: k) (hk : k ≠ metaKey h)
    (v : Value μ) :
    MessagesKept h s (s.insert (.session, k) v) where
  messages k' hk' := by
    rw [find_insert, if_neg]
    intro he
    cases he
    exact hp hk'
  counter m hm := by
    refine ⟨m, ?_, rfl⟩
    rw [find_insert, if_neg fun he => hk (congrArg Prod.snd he)]
    exact hm

theorem Appended.kept (ha : Appended h es s s') (hk : MessagesKept h s' s'') :
    Appended h es s s'' := by
  obtain ⟨m, m', hm, hm', hc, hcells, hothers⟩ := ha
  obtain ⟨m'', hm'', hc'⟩ := hk.counter m' hm'
  refine ⟨m, m'', hm, hm'', hc'.trans hc, ?_, ?_⟩
  · intro j hj
    rw [hk.messages _ (messagePrefix_messageKey h _)]
    exact hcells j hj
  · intro k hp hj
    rw [hk.messages k hp]
    exact hothers k hp hj

theorem WrittenOf.kept (hw : WrittenOf h es s s') (hk : MessagesKept h s' s'') :
    WrittenOf h es s s'' := by
  intro k hp
  rw [hk.messages k hp]
  exact hw k hp

/-! ## The append -/

theorem Penned.writtenOf {idx k : Nat} (hp : Penned h idx es k s s') (hk : k ≤ es.length) :
    WrittenOf h es s s' := by
  intro key _
  by_cases hj : ∃ j < k, key = messageKey h (idx + j)
  · obtain ⟨j, hj, rfl⟩ := hj
    have hlt : j < es.length := by omega
    exact .inr ⟨es[j], List.getElem_mem _, hp.2 j hlt hj⟩
  · refine .inl (hp.1.2 _ ?_)
    rintro (hc | ⟨j, hjk, he⟩)
    · cases hc
    · exact hj ⟨j, hjk, congrArg Prod.snd he⟩

theorem WrittenOf.record (hw : WrittenOf h es s s') (v : Value μ) :
    WrittenOf h es s (s'.insert (.session, metaKey h) v) := by
  intro k hp
  rw [find_insert, if_neg]
  · exact hw k hp
  · intro he
    cases he
    exact messagePrefix_not_metaKey hp

theorem Penned.counted {m m' : SessionMeta} (hp : Penned h m.messageCount es es.length s s')
    (hm : s[((.session, metaKey h) : Cell)]? = some (.sessionMeta m))
    (hc : m'.messageCount = m.messageCount + es.length) :
    Appended h es s (s'.insert (.session, metaKey h) (.sessionMeta m')) := by
  have hcell : ∀ k, messagePrefix h <+: k →
      (s'.insert (.session, metaKey h) (.sessionMeta m'))[((.session, k) : Cell)]? =
      s'[((.session, k) : Cell)]? := by
    intro k hk
    rw [find_insert, if_neg]
    intro he
    cases he
    exact messagePrefix_not_metaKey hk
  refine ⟨m, m', hm, by rw [find_insert, if_pos rfl], hc, ?_, ?_⟩
  · intro j hj
    rw [hcell _ (messagePrefix_messageKey h _)]
    exact hp.2 j hj hj
  · intro k hk hj
    rw [hcell k hk]
    refine hp.1.2 _ ?_
    rintro (ht | ⟨j, hlt, he⟩)
    · cases ht
    · exact hj j hlt (congrArg Prod.snd he)

theorem TextTyped.session_put (ht : TextTyped s) (k : Str) (v : Value μ) :
    TextTyped (s.insert (.session, k) v) :=
  ht.changes (Changes.insert (P := fun c => c.1 = .session) rfl _) fun c hc => by rw [hc]; decide

variable [TextStd] [Wire μ] {F : Prop}

/-- With its record there an append fails only with one of its operations. -/
theorem wp_append_appended (ht : TextTyped s) (now : Str) :
    Prog.wp F memory (appendSessionMessages h es now)
      (fun _ s' => TextTyped s' ∧ WrittenOf h es s s' ∧
        ((∃ m, s[((.session, metaKey h) : Cell)]? = some (.sessionMeta m)) → Appended h es s s'))
      (fun _ s' => TextTyped s' ∧ WrittenOf h es s s' ∧
        ((∃ m, s[((.session, metaKey h) : Cell)]? = some (.sessionMeta m)) → F)) s := by
  have hsame : WrittenOf h es s s := fun _ _ => .inl rfl
  unfold appendSessionMessages
  split
  · rename_i he
    rw [List.isEmpty_iff] at he
    subst he
    refine ⟨ht, hsame, ?_⟩
    rintro ⟨m, hm⟩
    refine ⟨m, m, hm, hm, rfl, ?_, fun _ _ _ => rfl⟩
    exact fun _ hj => absurd hj (Nat.not_lt_zero _)
  rw [Prog.wp_bind, sessionMeta, wp_getJson]
  refine ⟨?_, fun hF _ => ⟨ht, hsame, fun _ => hF⟩⟩
  cases hv : s[((.session, metaKey h) : Cell)]? with
  | none =>
    refine ⟨ht, hsame, ?_⟩
    rintro ⟨m, ⟨⟩⟩
  | some v =>
    cases v with
    | sessionMeta m =>
      simp only [Value.asMeta]
      rw [Prog.wp_bind]
      refine (wp_appendEntries es m.messageCount s ht).mono (fun _ s₁ hp => ?_) fun _ s₁ he => ?_
      · rw [wp_put]
        refine ⟨⟨hp.1.1.session_put _ _, ?_, fun _ => hp.counted hv rfl⟩, fun hF _ => ?_⟩
        · exact (hp.writtenOf (Nat.le_refl _)).record _
        · exact ⟨hp.1.1, hp.writtenOf (Nat.le_refl _), fun _ => hF⟩
      · obtain ⟨hF, k, hk, hp⟩ := he
        exact ⟨hp.1.1, hp.writtenOf hk, fun _ => hF⟩
    | _ =>
      refine ⟨ht, hsame, ?_⟩
      rintro ⟨m, ⟨⟩⟩

/-! ## What a turn does behind it -/

omit [Wire μ] in
theorem wp_update_kept (ht : TextTyped s) (m : SessionMeta) :
    Prog.wp F memory (updateSessionMeta h m) (fun _ s' => TextTyped s' ∧ MessagesKept h s s')
      (fun _ s' => TextTyped s' ∧ MessagesKept h s s') s := by
  have hrest : ∀ m' : SessionMeta,
      (∀ stored, s[((.session, metaKey h) : Cell)]? = some (.sessionMeta stored) →
        m'.messageCount = stored.messageCount) →
      Prog.wp F memory (do
        put .session (metaKey h) (.sessionMeta m')
        indexMetaText h m') (fun _ s' => TextTyped s' ∧ MessagesKept h s s')
        (fun _ s' => TextTyped s' ∧ MessagesKept h s s') s := by
    intro m' hcount
    have hput : MessagesKept h s (s.insert (.session, metaKey h) (.sessionMeta m')) := by
      constructor
      · intro k hk
        rw [find_insert, if_neg]
        intro he
        cases he
        exact messagePrefix_not_metaKey hk
      · intro stored hs
        exact ⟨m', by rw [find_insert, if_pos rfl], hcount stored hs⟩
    rw [Prog.wp_bind, wp_put]
    refine ⟨?_, fun _ _ => ⟨ht, .refl⟩⟩
    refine (wp_indexMetaText (ht.session_put _ _) h m').mono (fun _ s₁ h₁ => ?_) fun _ s₁ h₁ => ?_
    · exact ⟨h₁.1, hput.trans (.of_text h₁.2)⟩
    · exact ⟨h₁.2.1, hput.trans (.of_text h₁.2.2)⟩
  rw [updateSessionMeta, Prog.wp_bind, sessionMeta, wp_getJson]
  refine ⟨?_, fun _ _ => ⟨ht, .refl⟩⟩
  cases hv : s[((.session, metaKey h) : Cell)]? with
  | none => exact hrest m fun stored hs => by rw [hv] at hs; cases hs
  | some v =>
    cases v with
    | sessionMeta stored =>
      refine hrest { m with messageCount := stored.messageCount } fun stored' hs => ?_
      rw [hv] at hs
      cases hs
      rfl
    | _ => exact ⟨ht, .refl⟩

omit [TextStd] [Wire μ] in
theorem wp_appendEvents_kept (events : List EventLine) (idx : Nat) (ht : TextTyped s) :
    Prog.wp F memory (appendEvents h idx events) (fun _ s' => TextTyped s' ∧ MessagesKept h s s')
      (fun _ s' => TextTyped s' ∧ MessagesKept h s s') s := by
  induction events generalizing idx s with
  | nil => exact ⟨ht, .refl⟩
  | cons event events ih =>
    rw [appendEvents, Prog.wp_bind, wp_put]
    refine ⟨?_, fun _ _ => ⟨ht, .refl⟩⟩
    have hput : MessagesKept h s (s.insert (.session, eventKey h idx) (.event event)) :=
      .insert (messagePrefix_not_eventKey idx) (eventKey_ne_metaKey h h idx) _
    exact (ih (idx + 1) (ht.session_put _ _)).mono (fun _ _ h₁ => ⟨h₁.1, hput.trans h₁.2⟩)
      fun _ _ h₁ => ⟨h₁.1, hput.trans h₁.2⟩

omit [TextStd] [Wire μ] in
theorem wp_events_kept (ht : TextTyped s) (events : List EventLine) :
    Prog.wp F memory (appendSessionEvents h events) (fun _ s' => TextTyped s' ∧ MessagesKept h s s')
      (fun _ s' => TextTyped s' ∧ MessagesKept h s s') s := by
  rw [appendSessionEvents, Prog.wp_bind, wp_scanKeys]
  exact ⟨wp_appendEvents_kept events _ ht, fun _ _ => ⟨ht, .refl⟩⟩

end

end Crabtalk.Store

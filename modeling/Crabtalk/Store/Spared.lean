import Crabtalk.Store.Beside
import Crabtalk.Store.Messages

/-! # The tail of a turn, and deleting, beside others

A turn has the messages of its session to itself as long as the record is
stored and nobody deletes it. A deletion is over when the record is gone, and
it stays gone unless somebody writes it where it is not.
-/

open Basis

namespace Crabtalk.Store

variable {μ : Type} {F : Prop} {h g : Str} {s s' s'' : Kv μ}

def Held (h : Str) (s : Kv μ) : Prop := s[((.session, metaKey h) : Cell)]? ≠ none

/-- The messages lie one behind the other, and are counted. -/
def Placed (h : Str) (b : List (HistoryEntry μ)) (s : Kv μ) : Prop :=
  ∃ m n, s[((.session, metaKey h) : Cell)]? = some (.sessionMeta m) ∧
    n + b.length ≤ m.messageCount ∧
    ∀ j (hj : j < b.length), s[((.session, messageKey h (n + j)) : Cell)]? =
    some (.entry b[j].persist)

structure Aside (h : Str) (s s' : Kv μ) : Prop where
  typed : WellTyped s → WellTyped s'
  own : Held h s → ∀ k, sessionPrefix h <+: k → s'[((.session, k) : Cell)]? =
    s[((.session, k) : Cell)]?

structure Guards (h : Str) (s s' : Kv μ) : Prop where
  typed : WellTyped s → WellTyped s'
  placed : ∀ b, Placed h b s → Placed h b s'

def Finds (h : Str) : KvOp μ → Kv μ → Prop
  | .get col k, s => col = .session → k = metaKey h → Held h s
  | .put col k _, s => col = .session → k = metaKey h → Held h s
  | _, _ => True

theorem Aside.held (ha : Aside h s s') (hs : Held h s) : Held h s' := by
  unfold Held
  rw [ha.own hs _ (sessionPrefix_metaKey h)]
  exact hs

instance : IsPreorder (Kv μ) (Aside h) where
  refl _ := ⟨id, fun _ _ _ => rfl⟩
  trans _ _ _ h₁ h₂ := ⟨fun ht => h₂.typed (h₁.typed ht),
    fun hs k hk => (h₂.own (h₁.held hs) k hk).trans (h₁.own hs k hk)⟩

theorem Guards.refl : Guards h s s := ⟨id, fun _ => id⟩

theorem Placed.held {b : List (HistoryEntry μ)} (hp : Placed h b s) : Held h s := by
  obtain ⟨m, n, hm, -⟩ := hp
  unfold Held
  rw [hm]
  simp

theorem Placed.congr {b : List (HistoryEntry μ)} (hp : Placed h b s)
    (hm : s'[((.session, metaKey h) : Cell)]? = s[((.session, metaKey h) : Cell)]?)
    (hc : ∀ i, s'[((.session, messageKey h i) : Cell)]? = s[((.session, messageKey h i) : Cell)]?) :
    Placed h b s' := by
  obtain ⟨m, n, hr, hn, hcell⟩ := hp
  refine ⟨m, n, hm.trans hr, hn, fun j hj => ?_⟩
  rw [hc]
  exact hcell j hj

theorem Placed.aside {b : List (HistoryEntry μ)} (ha : Aside h s s') (hp : Placed h b s) :
    Placed h b s' :=
  hp.congr (ha.own hp.held _ (sessionPrefix_metaKey h)) fun i =>
    ha.own hp.held _ (sessionPrefix_messageKey h i)

/-! ## Operations of a turn -/

structure Underway (h : Str) (m : SessionMeta) (done : List (HistoryEntry μ)) (s : Kv μ) : Prop where
  typed : WellTyped s
  record : s[((.session, metaKey h) : Cell)]? = some (.sessionMeta m)
  cells : ∀ j (hj : j < done.length), s[((.session, messageKey h (m.messageCount + j)) : Cell)]? =
    some (.entry done[j].persist)

section
variable {m : SessionMeta} {done : List (HistoryEntry μ)}

theorem held_of_record (hm : s[((.session, metaKey h) : Cell)]? = some (.sessionMeta m)) : Held h s := by
  unfold Held
  rw [hm]
  simp

theorem Underway.aside (ha : Aside h s s') (hu : Underway h m done s) : Underway h m done s' := by
  have hs := held_of_record hu.record
  refine ⟨ha.typed hu.typed, ?_, fun j hj => ?_⟩
  · rw [ha.own hs _ (sessionPrefix_metaKey h)]
    exact hu.record
  · rw [ha.own hs _ (sessionPrefix_messageKey h _)]
    exact hu.cells j hj

theorem Guards.index (ht : WellTyped s) (hi : Indexed (fun c => c.1 = .text) s s') :
    Guards h s s' :=
  ⟨fun _ => ⟨hi.1, ht.metas.congr fun k => hi.2 _ (by simp)⟩,
    fun _ hp => hp.congr (hi.2 _ (by simp)) fun _ => hi.2 _ (by simp)⟩

theorem Underway.index (hu : Underway h m done s) (hi : Indexed (fun c => c.1 = .text) s s') :
    Underway h m done s' := by
  refine ⟨⟨hi.1, hu.typed.metas.congr fun k => hi.2 _ (by simp)⟩, ?_, fun j hj => ?_⟩
  · rw [hi.2 _ (by simp)]
    exact hu.record
  · rw [hi.2 _ (by simp)]
    exact hu.cells j hj

theorem eventKey_ne_messageKey (i j : Nat) : eventKey h i ≠ messageKey h j := by
  intro he
  have hc := congrArg components he
  rw [components_eventKey, components_messageKey] at hc
  simp at hc

theorem EventOp.guards {o : KvOp μ} (ho : EventOp h o) (ht : WellTyped s) :
    Basis.wp (memory o) (fun _ s' => WellTyped s' ∧ Guards h s s') (fun _ s' => WellTyped s' ∧
      Guards h s s') s := by
  cases o with
  | put col k v =>
    obtain ⟨rfl, i, rfl⟩ := ho
    have ht' := ht.put (fits_event h i v)
    refine ⟨ht', fun _ => ht', fun b hp => hp.congr ?_ fun j => ?_⟩
    · rw [find_insert, if_neg]
      exact fun he => eventKey_ne_metaKey h h i (congrArg Prod.snd he)
    · rw [find_insert, if_neg]
      exact fun he => eventKey_ne_messageKey i j (congrArg Prod.snd he)
  | delete col k => exact ho.elim
  | _ => exact ⟨ht, .refl⟩

theorem Guards.message (hm : s[((.session, metaKey h) : Cell)]? = some (.sessionMeta m)) {i : Nat}
    (hi : m.messageCount ≤ i) (v : Value μ) :
    Guards h s (s.insert (.session, messageKey h i) v) := by
  refine ⟨fun ht => ht.put (fits_message h i v), fun b hp => ?_⟩
  obtain ⟨m', n, hr, hn, hcell⟩ := hp
  rw [hm] at hr
  cases hr
  refine ⟨m, n, ?_, hn, fun j hj => ?_⟩
  · rw [find_insert, if_neg fun he => messageKey_ne_metaKey h h i (congrArg Prod.snd he)]
    exact hm
  · rw [find_insert, if_neg]
    · exact hcell j hj
    · intro he
      have := messageKey_inj (congrArg Prod.snd he)
      omega

theorem Guards.record (hm : s[((.session, metaKey h) : Cell)]? = some (.sessionMeta m))
    {m' : SessionMeta}
    (hc : m.messageCount ≤ m'.messageCount) :
    Guards h s (s.insert (.session, metaKey h) (.sessionMeta m')) := by
  refine ⟨fun ht => ht.put (fits_meta h m'), fun b hp => ?_⟩
  obtain ⟨m₀, n, hr, hn, hcell⟩ := hp
  rw [hm] at hr
  cases hr
  refine ⟨m', n, by rw [find_insert, if_pos rfl], by omega, fun j hj => ?_⟩
  rw [find_insert, if_neg fun he => messageKey_ne_metaKey h h _ (congrArg Prod.snd he).symm]
  exact hcell j hj

theorem Underway.put (hu : Underway h m done s) (e : HistoryEntry μ) :
    Underway h m (done ++ [e]) (s.insert (.session, messageKey h (m.messageCount + done.length))
      (.entry e.persist)) := by
  refine ⟨hu.typed.put (fits_message h _ _), ?_, fun j hj => ?_⟩
  · rw [find_insert, if_neg fun he => messageKey_ne_metaKey h h _ (congrArg Prod.snd he)]
    exact hu.record
  · by_cases hlast : j = done.length
    · subst hlast
      rw [find_insert, if_pos rfl]
      simp
    · have hlt : j < done.length := by
        rw [List.length_append, List.length_singleton] at hj
        omega
      rw [find_insert, if_neg, hu.cells j hlt, List.getElem_append_left hlt]
      intro he
      have := messageKey_inj (congrArg Prod.snd he)
      omega

theorem Underway.counted (hu : Underway h m done s) {m' : SessionMeta}
    (hc : m'.messageCount = m.messageCount + done.length) :
    Placed h done (s.insert (.session, metaKey h) (.sessionMeta m')) := by
  refine ⟨m', m.messageCount, by rw [find_insert, if_pos rfl], by omega, fun j hj => ?_⟩
  rw [find_insert, if_neg fun he => messageKey_ne_metaKey h h _ (congrArg Prod.snd he).symm]
  exact hu.cells j hj

end

/-! ## The tail of a turn -/

abbrev Spared {α : Type} (F : Prop) (h : Str) (p : KvM μ α) (Q : α → Kv μ → Prop)
    (E : Error → Kv μ → Prop) (s : Kv μ) : Prop :=
  Prog.rely F memory (Aside h) (Guards h) (Finds h) p Q E s

theorem spared_sessionMeta {Q : Option SessionMeta → Kv μ → Prop} {E : Error → Kv μ → Prop}
    (hs : WellTyped s)
    (hQ : ∀ t m, WellTyped t → t[((.session, metaKey h) : Cell)]? = some (.sessionMeta m) →
      Q (some m) t) (hE : F → ∀ e t, E e t) :
    Spared F h (sessionMeta h) Q E s := by
  unfold sessionMeta getJson
  apply Prog.rely_bind
  refine Prog.rely_perform (fun s' ha hfinds => ?_) fun hF e t _ => hE hF e t
  obtain ⟨v, hv⟩ := Option.ne_none_iff_exists'.mp (hfinds rfl rfl)
  have ht := ha.typed hs
  obtain ⟨m, rfl⟩ := ht.metas.metas h v hv
  refine ⟨.refl, fun t ht' => ?_⟩
  rw [hv]
  intro t' ht''
  have haside : Aside h s' t' := trans_of (Aside h) ht' ht''
  refine hQ t' m (haside.typed ht) ?_
  rw [haside.own (held_of_record hv) _ (sessionPrefix_metaKey h)]
  exact hv

theorem Underway.texts {p : KvM μ Unit} {m : SessionMeta} {done : List (HistoryEntry μ)}
    (hp : Texts F p) (hu : Underway h m done s) :
    Spared F h p (fun _ => Underway h m done) (fun _ _ => F) s := by
  have hasks : Prog.Asks F memory (Underway h m done) IndexOp p :=
    Prog.Asks.mono hp (fun _ h₁ => h₁.typed.text) fun _ ho => ho
  refine (hasks.rely (fun o ho s₁ h₁ _ => ?_) (fun _ _ => Underway.aside) hu).mono
    (fun _ _ h₁ => h₁) fun _ _ he => he.1
  exact (ho.keeps h₁.typed.text).mono (fun _ _ hi => ⟨h₁.index hi, .index h₁.typed hi⟩)
    fun _ _ hi => ⟨h₁.index hi, .index h₁.typed hi⟩

theorem spared_texts {p : KvM μ Unit} (hp : Texts F p) (hs : WellTyped s) :
    Spared F h p (fun _ _ => True) (fun _ _ => True) s := by
  have hasks : Prog.Asks F memory WellTyped IndexOp p := Prog.Asks.mono hp (fun _ h₁ => h₁.text)
      fun _ ho => ho
  refine (hasks.rely (fun o ho s₁ h₁ _ => ?_) (fun _ _ ha => ha.typed) hs).mono
    (fun _ _ _ => trivial) fun _ _ _ => trivial
  have hkeeps : ∀ s₂, Indexed (fun c => c.1 = .text) s₁ s₂ → WellTyped s₂ ∧ Guards h s₁ s₂ := by
    intro s₂ hi
    have hg : Guards h s₁ s₂ := .index h₁ hi
    exact ⟨hg.typed h₁, hg⟩
  exact (ho.keeps h₁.text).mono (fun _ => hkeeps) fun _ => hkeeps

theorem spared_appendSessionEvents (events : List EventLine) (hs : WellTyped s) :
    Spared F h (appendSessionEvents h events) (fun _ _ => True) (fun _ _ => True) s :=
  ((asks_appendSessionEvents events).rely (fun _ ho _ h₁ _ => ho.guards h₁)
    (fun _ _ ha => ha.typed) hs).mono (fun _ _ _ => trivial)
    fun _ _ _ => trivial

section
variable [TextStd]

theorem spared_updateSessionMeta (m : SessionMeta) (hs : WellTyped s) :
    Spared F h (updateSessionMeta h m) (fun _ _ => True) (fun _ _ => True) s := by
  unfold updateSessionMeta
  apply Prog.rely_bind
  refine spared_sessionMeta hs (fun t m₀ ht hm => ?_) fun _ _ _ => trivial
  dsimp only
  apply Prog.rely_bind
  refine Prog.rely_perform (fun t' ha _ => ?_) fun _ _ _ _ => trivial
  have hm' : t'[((.session, metaKey h) : Cell)]? = some (.sessionMeta m₀) := by
    rw [ha.own (held_of_record hm) _ (sessionPrefix_metaKey h)]
    exact hm
  refine ⟨.record hm' (Nat.le_refl _), fun t₁ ha₁ => ?_⟩
  exact spared_texts (texts_indexMetaText _) (ha₁.typed ((ha.typed ht).put (fits_meta h _)))

variable [Wire μ]

theorem spared_appendEntries {m : SessionMeta} (es done : List (HistoryEntry μ)) (idx : Nat)
    (hidx : idx = m.messageCount + done.length)
    (hu : Underway h m done s) : Spared F h (appendEntries h idx es)
    (fun _ => Underway h m (done ++ es)) (fun _ _ => F) s := by
  induction es generalizing done idx s with
  | nil =>
    rw [List.append_nil]
    exact fun s' ha => hu.aside ha
  | cons e es ih =>
    have hrest : ∀ s₁, Underway h m (done ++ [e]) s₁ →
        Spared F h (appendEntries h (idx + 1) es) (fun _ => Underway h m (done ++ e :: es))
        (fun _ _ => F) s₁ := by
      intro s₁ h₁
      rw [List.append_cons]
      refine ih (done ++ [e]) (idx + 1) ?_ h₁
      rw [List.length_append, List.length_singleton]
      omega
    unfold appendEntries
    apply Prog.rely_bind
    refine Prog.rely_perform (fun s' ha _ => ?_) fun hF _ _ _ => hF
    have hu' := hu.aside ha
    subst hidx
    refine ⟨.message hu'.record (Nat.le_add_right _ _) _, fun t ht => ?_⟩
    have hput := (hu'.put e).aside ht
    cases e.indexable with
    | none => exact hrest t hput
    | some b =>
      apply Prog.rely_bind
      exact (hput.texts (texts_indexText _ _ _ _)).mono (fun _ => hrest) fun _ _ hF => hF

theorem spared_appendSessionMessages {es : List (HistoryEntry μ)} (hne : es ≠ []) (now : Str)
    (hs : WellTyped s) :
    Spared F h (appendSessionMessages h es now) (fun _ => Placed h es) (fun _ _ => F) s := by
  unfold appendSessionMessages
  rw [if_neg fun he => hne (List.isEmpty_iff.mp he)]
  apply Prog.rely_bind
  refine spared_sessionMeta hs (fun t m ht hm => ?_) fun hF _ _ => hF
  apply Prog.rely_bind
  have hstart : Underway h m [] t := ⟨ht, hm, fun j hj => absurd hj (Nat.not_lt_zero j)⟩
  refine (spared_appendEntries es [] m.messageCount rfl hstart).mono (fun _ t₁ h₁ => ?_)
    fun _ _ hF => hF
  refine Prog.rely_perform (fun t₂ ha _ => ?_) fun hF _ _ _ => hF
  have h₂ := h₁.aside ha
  refine ⟨.record h₂.record (Nat.le_add_right _ _), fun t₃ ha₃ => ?_⟩
  exact (h₂.counted rfl).aside ha₃

end

/-! ## Deleting -/

structure Stays (h : Str) (s s' : Kv μ) : Prop where
  typed : WellTyped s → WellTyped s'
  absent : ¬ Held h s → ¬ Held h s'

instance : IsPreorder (Kv μ) (Stays h) where
  refl _ := ⟨id, id⟩
  trans _ _ _ h₁ h₂ := ⟨fun ht => h₂.typed (h₁.typed ht), fun hs => h₂.absent (h₁.absent hs)⟩

theorem PurgeOp.stays {o : KvOp μ} (ho : PurgeOp o) :
    Basis.wp (memory o) (fun _ => Stays h s) (fun _ => Stays h s) s := by
  cases o with
  | put col k v =>
    refine ⟨fun hs => hs.text_put ho, fun hn hheld => hn ?_⟩
    unfold Held at hheld ⊢
    rw [find_insert, if_neg] at hheld
    · exact hheld
    · obtain ⟨rfl, -⟩ := ho
      simp
  | delete col k =>
    refine ⟨fun hs => hs.erase _, fun hn hheld => hn ?_⟩
    unfold Held at hheld ⊢
    rw [find_erase] at hheld
    split at hheld
    · exact absurd rfl hheld
    · exact hheld
  | _ => exact refl_of (Stays h) s

theorem TurnOp.stays {o : KvOp μ} (ho : TurnOp h o) (hf : Finds h o s) :
    Basis.wp (memory o) (fun _ => Stays h s) (fun _ => Stays h s) s := by
  cases o with
  | put col k v =>
    refine ⟨fun ht => TurnOp.wellTyped ho ht, fun hn hheld => hn ?_⟩
    by_cases hk : col = .session ∧ k = metaKey h
    · exact hf hk.1 hk.2
    · unfold Held at hheld ⊢
      rw [find_insert, if_neg] at hheld
      · exact hheld
      · intro he
        cases he
        exact hk ⟨rfl, rfl⟩
  | delete col k =>
    cases ho
    refine ⟨fun ht => ht.erase _, fun hn hheld => hn ?_⟩
    unfold Held at hheld ⊢
    rw [find_erase, if_neg (by simp)] at hheld
    exact hheld
  | _ => exact refl_of (Stays h) s

theorem TurnOp.held {o : KvOp μ} (ho : TurnOp h o) (hs : Held h s) :
    Basis.wp (memory o) (fun _ => Held h) (fun _ => Held h) s := by
  cases o with
  | put col k v =>
    show (s.insert (col, k) v)[((.session, metaKey h) : Cell)]? ≠ none
    rw [find_insert]
    split
    · simp
    · exact hs
  | delete col k =>
    cases ho
    show (s.erase (.text, k))[((.session, metaKey h) : Cell)]? ≠ none
    rw [find_erase, if_neg (by simp)]
    exact hs
  | _ => exact hs

theorem CreateOp.aside {o : KvOp μ} (ho : CreateOp h o)
    (hf : ∀ col k v, o = .put col k v → col = .session → k = metaKey h → ¬ Held h s) :
    Basis.wp (memory o) (fun _ => Aside h s) (fun _ => Aside h s) s := by
  cases o with
  | put col k v =>
    refine ⟨fun ht => CreateOp.wellTyped ho ht, fun hheld k' hk' => ?_⟩
    obtain ⟨rfl, ⟨rfl, -⟩ | ⟨m, rfl⟩⟩ := ho
    · exact absurd hheld (hf _ _ v rfl rfl rfl)
    · rw [find_insert, if_neg]
      intro he
      cases he
      exact indexPrefix_not_session hk' (indexPrefix_isPrefix m h)
  | delete col k => exact ho.elim
  | _ => exact refl_of (Aside h) s

abbrev Alone {α : Type} (h : Str) (p : KvM μ α) (Q : α → Kv μ → Prop) (s : Kv μ) : Prop :=
  Prog.rely True memory (Stays h) (Stays h) (fun _ _ => True) p Q (fun _ _ => True) s

theorem alone_asks {α : Type} {p : KvM μ α} (hp : Prog.Asks True memory WellTyped PurgeOp p)
    (hs : WellTyped s) :
    Alone h p (fun _ => WellTyped) s := by
  have hop : ∀ o, PurgeOp o → ∀ s₁ : Kv μ, WellTyped s₁ → True →
      Basis.wp (memory o) (fun _ s' => WellTyped s' ∧ Stays h s₁ s') (fun _ s' => WellTyped s' ∧
        Stays h s₁ s') s₁ := by
    intro o ho s₁ h₁ _
    exact ho.stays.mono (fun _ _ h₂ => ⟨h₂.typed h₁, h₂⟩) fun _ _ h₂ => ⟨h₂.typed h₁, h₂⟩
  exact (hp.rely hop (fun _ _ h₁ => h₁.typed) hs).mono (fun _ _ h₁ => h₁) fun _ _ _ => trivial

theorem alone_deleteKeys (keys : List Str) (existed : Bool) (hs : ¬ Held h s ∨ metaKey h ∈ keys) :
    Alone h (deleteKeys keys existed) (fun _ s => ¬ Held h s) s := by
  induction keys generalizing existed s with
  | nil =>
    intro s' h₁
    exact h₁.absent (hs.resolve_right List.not_mem_nil)
  | cons k keys ih =>
    unfold deleteKeys
    apply Prog.rely_bind
    refine Prog.rely_perform (fun s' h₁ _ => ?_) fun _ _ _ _ => trivial
    have hop : Stays h s' (s'.erase (.session, k)) :=
      PurgeOp.stays (o := .delete .session k) trivial
    refine ⟨hop, fun t h₂ => ih _ ?_⟩
    rcases hs with hn | hmem
    · exact .inl (h₂.absent (hop.absent (h₁.absent hn)))
    · rcases List.mem_cons.mp hmem with rfl | hmem
      · refine .inl (h₂.absent fun hheld => hheld ?_)
        rw [find_erase, if_pos rfl]
      · exact .inr hmem

theorem alone_deleteSession (hs : WellTyped s) :
    Alone h (deleteSession h) (fun _ s => ¬ Held h s) s := by
  have hscan : ∀ t : Kv μ, Alone h (do deleteKeys (← scanKeys .session (sessionPrefix h)) false)
      (fun _ s => ¬ Held h s) t := by
    intro t
    apply Prog.rely_bind
    refine Prog.rely_perform (fun t₁ _ _ => ?_) fun _ _ _ _ => trivial
    refine ⟨refl_of (Stays h) t₁, fun t₂ h₂ => alone_deleteKeys _ _ ?_⟩
    by_cases hheld : Held h t₁
    · obtain ⟨v, hv⟩ := Option.ne_none_iff_exists'.mp hheld
      exact .inr (List.mem_map.mpr ⟨_, ColMap.mem_under.mpr ⟨hv, rfl, sessionPrefix_metaKey h⟩, rfl⟩)
    · exact .inl (h₂.absent hheld)
  unfold deleteSession
  apply Prog.rely_bind
  refine (alone_asks (texts_dropTextPrefix _ _).purge hs).mono (fun _ t₁ h₁ => ?_)
    fun _ _ _ => trivial
  apply Prog.rely_bind
  refine (alone_asks (texts_dropTextPrefix _ _).purge h₁).mono (fun _ t₂ h₂ => ?_)
    fun _ _ _ => trivial
  apply Prog.rely_bind
  refine (alone_asks (asks_read Value.asMeta .session (metaKey h) trivial) h₂).mono
    (fun m t₃ h₃ => ?_) fun _ _ _ => trivial
  cases m with
  | none => exact hscan t₃
  | some m =>
    have hrow : Prog.Asks True memory WellTyped PurgeOp
        (delete .session (sessionIndexKey m h) : KvM μ Bool) :=
      ⟨trivial, fun _ _ => trivial, fun _ _ => trivial⟩
    apply Prog.rely_bind
    exact (alone_asks hrow h₃).mono (fun _ t₄ _ => hscan t₄) fun _ _ _ => trivial

theorem alone_deleteAll (handles : List Str) (n : Nat) (hs : WellTyped s)
    (hh : ¬ Held h s ∨ h ∈ handles) :
    Alone h (deleteAll handles n) (fun _ s => ¬ Held h s) s := by
  induction handles generalizing n s with
  | nil =>
    intro s' h₁
    exact h₁.absent (hh.resolve_right List.not_mem_nil)
  | cons g handles ih =>
    have hrest : ∀ (b : Bool) (t : Kv μ), WellTyped t → ¬ Held h t ∨ h ∈ handles →
        Alone h (if b then deleteAll handles (n + 1) else deleteAll handles n)
        (fun _ s => ¬ Held h s) t := by
      intro b t ht hor
      split
      · exact ih (n + 1) ht hor
      · exact ih n ht hor
    unfold deleteAll
    apply Prog.rely_bind
    have htyped : Alone h (deleteSession g) (fun _ => WellTyped) s :=
      alone_asks asks_deleteSession hs
    by_cases hn : ¬ Held h s
    · have hframe := htyped.frame (J := fun s => ¬ Held h s) (fun _ _ h₁ => h₁.absent)
          (fun _ _ h₁ => h₁.absent) hn
      exact hframe.mono (fun b t h₁ => hrest b t h₁.1 (.inl h₁.2)) fun _ _ _ => trivial
    · rcases List.mem_cons.mp (hh.resolve_left hn) with rfl | hmem
      · have hdeleted : Alone h (deleteSession h) (fun _ s => ¬ Held h s) s :=
          alone_deleteSession hs
        have hframe := hdeleted.frame (J := WellTyped) (fun _ _ h₁ => h₁.typed)
            (fun _ _ h₁ => h₁.typed) hs
        exact hframe.mono (fun b t h₁ => hrest b t h₁.2 (.inl h₁.1)) fun _ _ _ => trivial
      · exact htyped.mono (fun b t h₁ => hrest b t h₁ (.inr hmem)) fun _ _ _ => trivial

end Crabtalk.Store

import Crabtalk.Store.Deletion
import Crabtalk.Store.Indexing
import Crabtalk.Store.Views

/-! # The session index beside the meta records

A row of the index is written when a session is created and taken out when it
is deleted. In between only the record changes, and has to keep what the row
says of it.
-/

open Basis

namespace Crabtalk.Store

variable {μ : Type} {g h : Str} {s s' s'' : Kv μ}

/-! ## What the other operations write -/

/-- Beside the record of `g` its operations write messages, events and the archive pointer, and drop
messages. -/
def Work (g : Str) : KvOp μ → Prop
  | .put col k _ => col = .text ∨ col = .session ∧ ((∃ i, k = messageKey g i ∨ k = eventKey g i) ∨
    k = archiveKey g)
  | .delete col k => col = .text ∨ col = .session ∧ messagePrefix g <+: k
  | _ => True

abbrev Works {α : Type} (g : Str) (p : KvM μ α) : Prop := Prog.Footprint memory (Work g) p

theorem Indexing.work {o : KvOp μ} (ho : Indexing o) : Work g o := by
  cases o with
  | put col key v => exact .inl ho.1
  | delete col key => exact .inl ho
  | _ => trivial

theorem works_dropText (index : TextIndex) (k : Str) : Works g (dropText index k : KvM μ Unit) :=
  (within_dropText index k).footprint fun _ => Indexing.work

theorem works_indexText [TextStd] (index : TextIndex) (k text : Str) (weight : ℚ) :
    Works g (indexText index k text weight : KvM μ Unit) :=
  (within_indexText index k text weight).footprint fun _ => Indexing.work

theorem works_indexMetaText [TextStd] (m : SessionMeta) :
    Works g (indexMetaText g m : KvM μ Unit) :=
  (within_indexMetaText g m).footprint fun _ => Indexing.work

theorem works_appendEvents (events : List EventLine) (idx : Nat) :
    Works g (appendEvents g idx events : KvM μ Unit) := by
  induction events generalizing idx with
  | nil => trivial
  | cons event events ih =>
    unfold appendEvents
    exact Prog.Footprint.bind (.perform (.inr ⟨rfl, .inl ⟨idx, .inr rfl⟩⟩)) fun _ => ih (idx + 1)

theorem works_appendSessionEvents (events : List EventLine) :
    Works g (appendSessionEvents g events : KvM μ Unit) := by
  unfold appendSessionEvents
  exact Prog.Footprint.bind (.perform trivial) fun _ => works_appendEvents _ _

theorem works_appendEntries [TextStd] [Wire μ] (es : List (HistoryEntry μ)) (idx : Nat) :
    Works g (appendEntries g idx es) := by
  induction es generalizing idx with
  | nil => trivial
  | cons e es ih =>
    unfold appendEntries
    refine Prog.Footprint.bind (.perform (.inr ⟨rfl, .inl ⟨idx, .inl rfl⟩⟩)) fun _ => ?_
    cases e.indexable with
    | none => exact ih (idx + 1)
    | some b => exact (works_indexText _ _ _ _).bind fun _ => ih (idx + 1)

/-- The loop of a truncation, over keys that a scan of the messages found. -/
theorem works_dropMessages {keys : List Str} (hk : ∀ k ∈ keys, messagePrefix g <+: k) :
    Works g (forM keys fun key => do
      dropText .messages key
      let _ ← delete .session key : KvM μ Unit) :=
  .forM fun key hkey => (works_dropText _ _).bind fun _ =>
    Prog.Footprint.bind (.perform (.inr ⟨rfl, hk key hkey⟩)) fun _ => trivial

/-! ## What it leaves of records and rows -/

/-- What work on `g` in between leaves of the records and the rows: the record of `g` keeps `Q`, if
it is there. -/
structure Modest (g : Str) (Q : SessionMeta → Prop) (s s' : Kv μ) : Prop where
  others : ∀ h, h ≠ g → s'[((.session, metaKey h) : Cell)]? = s[((.session, metaKey h) : Cell)]? ∨
    s'[((.session, metaKey h) : Cell)]? = none ∧ messagePrefix g <+: metaKey h
  rows : ∀ k, indexPrefix none <+: k → s'[((.session, k) : Cell)]? = s[((.session, k) : Cell)]?
  absent : s[((.session, metaKey g) : Cell)]? = none → s'[((.session, metaKey g) : Cell)]? = none
  kept : ∀ m, s[((.session, metaKey g) : Cell)]? = some (.sessionMeta m) → Q m →
    ∃ m', s'[((.session, metaKey g) : Cell)]? = some (.sessionMeta m') ∧ Q m'

theorem messagePrefix_not_own : ¬ messagePrefix g <+: metaKey g := by
  intro hp
  obtain ⟨rest, -, hr⟩ := components_of_messagePrefix hp
  rw [components_metaKey] at hr
  simp only [List.cons.injEq, true_and, List.append_cancel_left_eq] at hr
  exact absurd hr.1 (by decide)

section
variable {Q : SessionMeta → Prop}

theorem Modest.refl : Modest g Q s s :=
  ⟨fun _ _ => .inl rfl, fun _ _ => rfl, id, fun m hm hq => ⟨m, hm, hq⟩⟩

theorem Modest.trans (h₁ : Modest g Q s s') (h₂ : Modest g Q s' s'') : Modest g Q s s'' where
  others a ha := by
    rcases h₂.others a ha with he | hn
    · rw [he]
      exact h₁.others a ha
    · exact .inr hn
  rows k hk := (h₂.rows k hk).trans (h₁.rows k hk)
  absent hn := h₂.absent (h₁.absent hn)
  kept m hm hq := by
    obtain ⟨m', hm', hq'⟩ := h₁.kept m hm hq
    exact h₂.kept m' hm' hq'

theorem Modest.of_cells (hm : ∀ a, s'[((.session, metaKey a) : Cell)]? =
    s[((.session, metaKey a) : Cell)]? ∨
      a ≠ g ∧ s'[((.session, metaKey a) : Cell)]? = none ∧ messagePrefix g <+: metaKey a)
    (hr : ∀ k, indexPrefix none <+: k → s'[((.session, k) : Cell)]? = s[((.session, k) : Cell)]?) :
    Modest g Q s s' := by
  have hown : s'[((.session, metaKey g) : Cell)]? = s[((.session, metaKey g) : Cell)]? := by
    rcases hm g with he | ⟨hne, -⟩
    · exact he
    · exact absurd rfl hne
  refine ⟨fun a _ => ?_, hr, fun hn => by rw [hown, hn], fun m h hq => ⟨m, by rw [hown, h], hq⟩⟩
  exact (hm a).imp_right And.right

theorem Modest.work {o : KvOp μ} (ho : Work g o) :
    Basis.wp (memory o) (fun _ => Modest g Q s) (fun _ => Modest g Q s) s := by
  cases o with
  | get col k => exact .refl
  | scanKeys col stem => exact .refl
  | scan col stem => exact .refl
  | put col k v =>
    refine .of_cells (fun a => .inl ?_) fun k' hk' => ?_
    · rw [find_insert, if_neg]
      intro he
      cases he
      rcases ho with hc | ⟨-, ⟨i, he | he⟩ | he⟩
      · cases hc
      · exact messageKey_ne_metaKey g a i he.symm
      · exact eventKey_ne_metaKey g a i he.symm
      · exact archiveKey_ne_metaKey g a he.symm
    · rw [find_insert, if_neg]
      intro he
      cases he
      rcases ho with hc | ⟨-, ⟨i, rfl | rfl⟩ | rfl⟩
      · cases hc
      · exact indexPrefix_not_session (sessionPrefix_messageKey g i) hk'
      · exact indexPrefix_not_session (sessionPrefix_eventKey g i) hk'
      · exact indexPrefix_not_session (sessionPrefix_archiveKey g) hk'
  | delete col k =>
    refine .of_cells (fun a => ?_) fun k' hk' => ?_
    · rw [find_erase]
      split
      · rename_i he
        cases he
        rcases ho with hc | ⟨-, hp⟩
        · cases hc
        · refine .inr ⟨?_, rfl, hp⟩
          rintro rfl
          exact messagePrefix_not_own hp
      · exact .inl rfl
    · rw [find_erase, if_neg]
      intro he
      cases he
      rcases ho with hc | ⟨-, hp⟩
      · cases hc
      · exact indexPrefix_not_session ((sessionPrefix_messagePrefix g).trans hp) hk'

theorem Modest.putMeta {m : SessionMeta} (hw : Modest g Q s s')
    (hs : s[((.session, metaKey g) : Cell)]? ≠ none)
    (hq : ∀ m₀, s[((.session, metaKey g) : Cell)]? = some (.sessionMeta m₀) → Q m₀ → Q m) :
    Modest g Q s (s'.insert (.session, metaKey g) (.sessionMeta m)) where
  others a ha := by
    rw [find_insert, if_neg fun he => ha (metaKey_inj (congrArg Prod.snd he)).symm]
    exact hw.others a ha
  rows k hk := by
    rw [find_insert, if_neg]
    · exact hw.rows k hk
    · intro he
      cases he
      exact indexPrefix_not_session (sessionPrefix_metaKey g) hk
  absent hn := absurd hn hs
  kept m₀ hm hq₀ := ⟨m, by rw [find_insert, if_pos rfl], hq m₀ hm hq₀⟩

variable {F : Prop} {α : Type}

theorem Works.modest {p : KvM μ α} (hp : Works g p) (hw : Modest g Q s s') :
    Prog.wp F memory p (fun _ => Modest g Q s) (fun _ => Modest g Q s) s' :=
  hp.wp (fun _ ho _ h₁ => (Modest.work ho).mono (fun _ _ h₂ => h₁.trans h₂) fun _ _ h₂ =>
    h₁.trans h₂) hw

theorem modest_truncate (hm : MetasTyped s)
    (hQ : ∀ m n t, Q m → Q { m with messageCount := n, updatedAt := t }) (keep : Nat) :
    Prog.wp F memory (truncateSessionMessages g keep) (fun _ => Modest g Q s)
    (fun _ => Modest g Q s) s := by
  unfold truncateSessionMessages sessionMeta
  rw [Prog.wp_bind, wp_getJson]
  refine ⟨?_, fun _ _ => .refl⟩
  cases hv : s[((.session, metaKey g) : Cell)]? with
  | none => exact .refl
  | some v =>
    obtain ⟨m, rfl⟩ := hm.metas g v hv
    simp only [Value.asMeta]
    rw [Prog.wp_bind, wp_scanKeys]
    refine ⟨?_, fun _ _ => .refl⟩
    have hkeys : ∀ k ∈ ((s.under .session (messagePrefix g)).map fun e => e.1.2).drop keep,
        messagePrefix g <+: k := by
      intro k hk
      obtain ⟨e, he, rfl⟩ := List.mem_map.mp (List.mem_of_mem_drop hk)
      exact (ColMap.mem_under.mp he).2.2
    rw [Prog.wp_bind]
    refine ((works_dropMessages hkeys).modest .refl).mono (fun _ s₁ h₁ => ?_) fun _ _ he => he
    rw [wp_put]
    refine ⟨h₁.putMeta (by simp [hv]) fun m₀ hm₀ hq => ?_, fun _ _ => h₁⟩
    rw [hv] at hm₀
    cases hm₀
    exact hQ _ _ _ hq

theorem modest_compact (hm : MetasTyped s)
    (hQ : ∀ m n t, Q m → Q { m with messageCount := n, updatedAt := t }) (archive : Str) :
    Prog.wp F memory (appendSessionCompact g archive) (fun _ => Modest g Q s)
    (fun _ => Modest g Q s) s := by
  unfold appendSessionCompact
  rw [Prog.wp_bind]
  refine (modest_truncate hm hQ 0).mono (fun _ _ h₁ => ?_) fun _ _ he => he
  exact Works.modest (.perform (.inr ⟨rfl, .inr rfl⟩)) h₁

section
variable [TextStd]

theorem modest_update {m m₀ : SessionMeta}
    (hm : s[((.session, metaKey g) : Cell)]? = some (.sessionMeta m₀))
    (hq : Q { m with messageCount := m₀.messageCount }) :
    Prog.wp F memory (updateSessionMeta g m) (fun _ => Modest g Q s) (fun _ => Modest g Q s) s := by
  unfold updateSessionMeta
  rw [Prog.wp_bind]
  unfold sessionMeta
  rw [wp_getJson, hm]
  refine ⟨?_, fun _ _ => .refl⟩
  simp only [Value.asMeta]
  rw [Prog.wp_bind, wp_put]
  refine ⟨?_, fun _ _ => .refl⟩
  exact (works_indexMetaText _).modest (Modest.refl.putMeta (by simp [hm]) fun _ _ _ => hq)

theorem modest_append [Wire μ] (hm : MetasTyped s)
    (hQ : ∀ m n t, Q m → Q { m with messageCount := n, updatedAt := t })
    (es : List (HistoryEntry μ)) (now : Str) :
    Prog.wp F memory (appendSessionMessages g es now) (fun _ => Modest g Q s)
    (fun _ => Modest g Q s) s := by
  unfold appendSessionMessages
  split
  · exact .refl
  · unfold sessionMeta
    rw [Prog.wp_bind, wp_getJson]
    refine ⟨?_, fun _ _ => .refl⟩
    cases hv : s[((.session, metaKey g) : Cell)]? with
    | none => exact .refl
    | some v =>
      obtain ⟨m, rfl⟩ := hm.metas g v hv
      simp only [Value.asMeta]
      rw [Prog.wp_bind]
      refine ((works_appendEntries es _).modest .refl).mono (fun _ s₁ h₁ => ?_) fun _ _ he => he
      rw [wp_put]
      refine ⟨h₁.putMeta (by simp [hv]) fun m₀ hm₀ hq => ?_, fun _ _ => h₁⟩
      rw [hv] at hm₀
      cases hm₀
      exact hQ _ _ _ hq

end

end

/-! ## Handles whose keys stay apart -/

section
variable [Chrono]

/-- `h` does not lie below `g`, nor end in a time and then `g`. -/
structure Clear (g h : Str) : Prop where
  below : ¬ components g <+: components h
  behind : ∀ t, Chrono.IsTimestamp t → ¬ (t :: components g) <:+ components h

def Family (H : Str → Prop) : Prop := ∀ g h, H g → H h → g ≠ h → Clear g h

variable {H : Str → Prop} {k : Str}

theorem Family.apart (hH : Family H) (hg : H g) (hh : H h) (hne : g ≠ h)
    (hk : sessionPrefix h <+: k) : ¬ sessionPrefix g <+: k := by
  intro hp
  obtain ⟨rest, -, hr⟩ := components_of_sessionPrefix hk
  obtain ⟨rest', -, hr'⟩ := components_of_sessionPrefix hp
  rw [hr] at hr'
  simp only [List.cons.injEq, true_and] at hr'
  have hpre : components g <+: components h ++ rest := hr' ▸ List.prefix_append _ _
  rcases List.prefix_or_prefix_of_prefix hpre (List.prefix_append _ _) with hb | hb
  · exact (hH g h hg hh hne).below hb
  · exact (hH h g hh hg (Ne.symm hne)).below hb

theorem Family.row_inj (hH : Family H) (hg : H g) (hh : H h) {m m' : SessionMeta}
    (ht : Chrono.IsTimestamp m.createdAt)
    (ht' : Chrono.IsTimestamp m'.createdAt) (he : sessionIndexKey m g = sessionIndexKey m' h) : g = h := by
  by_contra hne
  have hc := congrArg components he
  rw [components_sessionIndexKey, components_sessionIndexKey,
    components_of_notMem (Chrono.slash_notMem _ ht),
    components_of_notMem (Chrono.slash_notMem _ ht')] at hc
  simp only [List.cons.injEq, true_and, ← List.append_assoc] at hc
  -- the longer of the handles ends in the other, with a time before it
  rcases List.append_eq_append_iff.mp hc.2 with ⟨c, hc₁, hc₂⟩ | ⟨c, hc₁, hc₂⟩
  · rcases List.eq_nil_or_concat c with rfl | ⟨front, last, rfl⟩
    · exact hne (components_inj hc₂)
    · rw [List.concat_eq_append, ← List.append_assoc] at hc₁
      obtain rfl : m'.createdAt = last := by simpa using (List.append_inj' hc₁ rfl).2
      exact (hH h g hh hg (Ne.symm hne)).behind _ ht' ⟨front, by rw [hc₂]; simp⟩
  · rcases List.eq_nil_or_concat c with rfl | ⟨front, last, rfl⟩
    · exact hne (components_inj hc₂.symm)
    · rw [List.concat_eq_append, ← List.append_assoc] at hc₁
      obtain rfl : m.createdAt = last := by simpa using (List.append_inj' hc₁ rfl).2
      exact (hH g h hg hh hne).behind _ ht ⟨front, by rw [hc₂]; simp⟩

/-! ## One row for each record -/

def Keyed (a : AgentId) (m : SessionMeta) : Prop := m.agent = a ∧ Chrono.IsTimestamp m.createdAt

structure Rostered (H : Str → Prop) (s : Kv μ) : Prop where
  typed : Typed s
  own : ∀ h v, s[((.session, metaKey h) : Cell)]? = some v → H h
  timed : ∀ h m, s[((.session, metaKey h) : Cell)]? = some (.sessionMeta m) →
    Chrono.IsTimestamp m.createdAt
  row : ∀ h m, s[((.session, metaKey h) : Cell)]? = some (.sessionMeta m) → ∃ m', Keyed m.agent m' ∧
    ∀ k, indexPrefix none <+: k → (s[((.session, k) : Cell)]? = some (.raw h) ↔
      k = sessionIndexKey m' h)
  stored : ∀ k h, indexPrefix none <+: k → s[((.session, k) : Cell)]? = some (.raw h) →
    s[((.session, metaKey h) : Cell)]? ≠ none

theorem Rostered.empty : Rostered H (∅ : Kv μ) where
  typed := .empty
  own h v hv := by simp at hv
  timed h m hm := by simp at hm
  row h m hm := by simp at hm
  stored k h _ hk := by simp at hk

theorem Rostered.found (hr : Rostered H s) (hs : s[((.session, metaKey h) : Cell)]? ≠ none) :
    ∃ m, s[((.session, metaKey h) : Cell)]? = some (.sessionMeta m) := by
  obtain ⟨v, hv⟩ := Option.ne_none_iff_exists'.mp hs
  obtain ⟨m, rfl⟩ := hr.typed.metas.metas h v hv
  exact ⟨m, hv⟩

/-- The agent a stored record names, if there is one. -/
theorem Rostered.agent (hr : Rostered H s) (h : Str) :
    ∃ a, ∀ m, s[((.session, metaKey h) : Cell)]? = some (.sessionMeta m) → m.agent = a := by
  by_cases hs : s[((.session, metaKey h) : Cell)]? = none
  · exact ⟨⟨0⟩, fun m hm => by rw [hs] at hm; cases hm⟩
  · obtain ⟨m, hm⟩ := hr.found hs
    refine ⟨m.agent, fun m' hm' => ?_⟩
    rw [hm] at hm'
    cases hm'
    rfl

theorem Rostered.elsewhere (hr : Rostered H s)
    (hc : Changes (fun c => c.1 ≠ .session ∧ c.1 ≠ .text) s s') : Rostered H s' := by
  have hs : ∀ k, s'[((.session, k) : Cell)]? = s[((.session, k) : Cell)]? :=
    fun k => hc _ fun hp => hp.1 rfl
  refine ⟨hr.typed.of_session (hr.typed.text.of_eq fun k hk => hc k fun hp => hp.2 hk)
    (hc.mono fun c hp => hp.1), ?_, ?_, ?_, ?_⟩
  · intro h v hv
    rw [hs] at hv
    exact hr.own h v hv
  · intro h m hm
    rw [hs] at hm
    exact hr.timed h m hm
  · intro h m hm
    rw [hs] at hm
    simpa only [hs] using hr.row h m hm
  · intro k h hk hv
    rw [hs] at hv ⊢
    exact hr.stored k h hk hv

theorem Rostered.modest (hr : Rostered H s) (hH : Family H) (hg : H g) {a : AgentId}
    (ha : ∀ m, s[((.session, metaKey g) : Cell)]? = some (.sessionMeta m) → m.agent = a)
    (hm : Modest g (Keyed a) s s') (ht : Typed s') :
    Rostered H s' := by
  have hown : ∀ m', s'[((.session, metaKey g) : Cell)]? = some (.sessionMeta m') →
      Keyed a m' ∧ ∃ m, s[((.session, metaKey g) : Cell)]? = some (.sessionMeta m) ∧
      m.agent = a := by
    intro m' hm'
    obtain ⟨m, hs⟩ := hr.found (h := g) fun hn => by rw [hm.absent hn] at hm'; cases hm'
    obtain ⟨m'', hm'', hq⟩ := hm.kept m hs ⟨ha m hs, hr.timed g m hs⟩
    rw [hm'] at hm''
    cases hm''
    exact ⟨hq, m, hs, ha m hs⟩
  -- a record of another handle was there before, and is kept or gone
  have hother : ∀ h, h ≠ g → ∀ v, s'[((.session, metaKey h) : Cell)]? = some v →
      s[((.session, metaKey h) : Cell)]? = some v := by
    intro h hne v hv
    rcases hm.others h hne with he | ⟨hn, -⟩
    · rw [← he, hv]
    · rw [hn] at hv
      cases hv
  refine ⟨ht, fun h v hv => ?_, fun h m' hm' => ?_, fun h m' hm' => ?_, fun k h hk hv => ?_⟩
  · by_cases hne : h = g
    · rw [hne]
      exact hg
    · exact hr.own h v (hother h hne v hv)
  · by_cases hne : h = g
    · subst hne
      exact (hown m' hm').1.2
    · exact hr.timed h m' (hother h hne _ hm')
  · have hrows : ∀ m, m.agent = m'.agent → s[((.session, metaKey h) : Cell)]? =
        some (.sessionMeta m) → ∃ m₁, Keyed m'.agent m₁ ∧
        ∀ k, indexPrefix none <+: k → (s'[((.session, k) : Cell)]? = some (.raw h) ↔
          k = sessionIndexKey m₁ h) := by
      intro m hag hs
      obtain ⟨m₁, hk₁, hrow⟩ := hr.row h m hs
      exact ⟨m₁, by rw [← hag]; exact hk₁, fun k hk => by rw [hm.rows k hk]; exact hrow k hk⟩
    by_cases hne : h = g
    · subst hne
      obtain ⟨hq, m, hs, hag⟩ := hown m' hm'
      exact hrows m (hag.trans hq.1.symm) hs
    · exact hrows m' rfl (hother h hne _ hm')
  · rw [hm.rows k hk] at hv
    have hs := hr.stored k h hk hv
    by_cases hne : h = g
    · subst hne
      obtain ⟨m, hm₀⟩ := hr.found hs
      obtain ⟨m', hm', -⟩ := hm.kept m hm₀ ⟨ha m hm₀, hr.timed h m hm₀⟩
      rw [hm']
      simp
    · rcases hm.others h hne with he | ⟨-, hp⟩
      · rw [he]
        exact hs
      · obtain ⟨v, hv⟩ := Option.ne_none_iff_exists'.mp hs
        exact absurd ((sessionPrefix_messagePrefix g).trans hp)
          (hH.apart hg (hr.own h v hv) (Ne.symm hne) (sessionPrefix_metaKey h))

theorem rostered_create (hr : Rostered H s) (hH : Family H) (hg : H g)
    (hn : s[((.session, metaKey g) : Cell)]? = none) (agent : AgentId)
    (createdBy : Str) (root : Option Str) {now : Str} (hnow : Chrono.IsTimestamp now) :
    Prog.wp False memory (createSession g agent createdBy root now) (fun _ => Rostered H)
    (fun _ _ => False) s := by
  let m : SessionMeta :=
    { agent, createdBy, createdAt := now, title := [], updatedAt := now, messageCount := 0, summary := none, root }
  have htyped := (keeps_createSession (F := False) hr.typed.kept agent createdBy root hnow :
      Keeps False g s _ s)
  have hcells : Prog.wp False memory (createSession g agent createdBy root now)
      (fun _ s' => s' = (s.insert (.session, metaKey g) (.sessionMeta m)).insert
        (.session, sessionIndexKey m g) (.raw g))
      (fun _ _ => False) s := by
    unfold createSession
    rw [Prog.wp_bind, wp_put]
    exact ⟨wp_put.mpr ⟨rfl, False.elim⟩, False.elim⟩
  refine (htyped.and hcells).mono ?_ fun _ _ he => he.2
  rintro _ s' ⟨hk, rfl⟩
  -- two cells are written: the record and the row
  have hmeta : ∀ h, ((s.insert (.session, metaKey g) (.sessionMeta m)).insert
      (.session, sessionIndexKey m g) (.raw g))[((.session, metaKey h) : Cell)]? =
      if g = h then some (.sessionMeta m) else s[((.session, metaKey h) : Cell)]? := by
    intro h
    rw [find_insert, if_neg fun he => sessionIndexKey_ne_metaKey m g h (congrArg Prod.snd he), find_insert]
    by_cases hgh : g = h
    · rw [if_pos hgh, if_pos (by rw [hgh])]
    · rw [if_neg hgh, if_neg fun he => hgh (metaKey_inj (congrArg Prod.snd he))]
  have hrow : ∀ k, indexPrefix none <+: k →
      ((s.insert (.session, metaKey g) (.sessionMeta m)).insert (.session, sessionIndexKey m g)
      (.raw g))[((.session, k) : Cell)]? = if sessionIndexKey m g = k then some (.raw g)
        else s[((.session, k) : Cell)]? := by
    intro k hk
    rw [find_insert]
    by_cases hkey : sessionIndexKey m g = k
    · rw [if_pos hkey, if_pos (by rw [hkey])]
    · rw [if_neg hkey, if_neg fun he => hkey (congrArg Prod.snd he), find_insert, if_neg]
      intro he
      cases he
      exact indexPrefix_not_session (sessionPrefix_metaKey g) hk
  refine ⟨hk.typed, fun h v hv => ?_, fun h m' hm' => ?_, fun h m' hm' => ?_, fun k h hk hv => ?_⟩
  · rw [hmeta] at hv
    split at hv
    · rename_i hgh
      rw [← hgh]
      exact hg
    · exact hr.own h v hv
  · rw [hmeta] at hm'
    split at hm'
    · cases hm'
      exact hnow
    · exact hr.timed h m' hm'
  · rw [hmeta] at hm'
    split at hm'
    · rename_i hgh
      subst hgh
      cases hm'
      refine ⟨m, ⟨rfl, hnow⟩, fun k hk => ?_⟩
      rw [hrow k hk]
      split
      · rename_i hkey
        simp [hkey]
      · rename_i hkey
        -- no row bore the handle, for it had no record
        refine ⟨fun hv => absurd hn (hr.stored k g hk hv), fun he => absurd he.symm hkey⟩
    · rename_i hgh
      obtain ⟨m₁, hk₁, hrows⟩ := hr.row h m' hm'
      refine ⟨m₁, hk₁, fun k hk => ?_⟩
      rw [hrow k hk]
      split
      · rename_i hkey
        refine ⟨fun he => ?_, fun he => ?_⟩
        · cases he
          exact absurd rfl hgh
        -- the row of another handle has another key
        · exact absurd (hH.row_inj hg (hr.own h _ hm') hnow hk₁.2 (hkey.trans he)) hgh
      · exact hrows k hk
  · rw [hrow k hk] at hv
    rw [hmeta]
    split at hv
    · cases hv
      simp
    · split
      · simp
      · exact hr.stored k h hk hv

end

end Crabtalk.Store

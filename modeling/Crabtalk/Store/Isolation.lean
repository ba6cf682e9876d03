import Crabtalk.Store.Frame

/-! # What an operation on a session touches

Every operation stays inside the cells of its handle: the keys under the
session's prefix, the documents filed under those keys, and its rows in the
session index. It does so for any handle, also when it fails half way.
-/

open Basis

namespace Crabtalk.Store

variable {μ : Type}

def ownCells (g : Str) (k : Cell) : Prop :=
  (k.1 = .session ∧ sessionPrefix g <+: k.2) ∨ ∃ index key, sessionPrefix g <+: key ∧
    docCells index key k

def rowCells (g : Str) (k : Cell) : Prop := k.1 = .session ∧ ∃ m, k.2 = sessionIndexKey m g

def sessionCells (g : Str) (k : Cell) : Prop := ownCells g k ∨ rowCells g k

/-- Each row of the session index names the handle its key ends in, behind the
time that handle was created at. -/
def RowsTyped [Chrono] (s : Kv μ) : Prop :=
  ∀ k v, s[((.session, k) : Cell)]? = some v → indexPrefix none <+: k →
    ∃ m g, k = sessionIndexKey m g ∧ v = .raw g ∧ Chrono.IsTimestamp m.createdAt

structure MetasTyped (s : Kv μ) : Prop where
  metas : ∀ h v, s[((.session, metaKey h) : Cell)]? = some v → ∃ m, v = .sessionMeta m
  archives : ∀ h v, s[((.session, archiveKey h) : Cell)]? = some v → ∃ t, v = .text t

/-- A value that may stand under a key of the session column. -/
def Fits (k : Str) (v : Value μ) : Prop :=
  (∀ h, k = metaKey h → ∃ m, v = .sessionMeta m) ∧ ∀ h, k = archiveKey h → ∃ t, v = .text t

namespace MetasTyped

variable {s s' : Kv μ}

theorem congr (h : MetasTyped s)
    (hs : ∀ k, s'[((.session, k) : Cell)]? = s[((.session, k) : Cell)]?) : MetasTyped s' :=
  ⟨fun a v hv => h.metas a v (by rw [← hs]; exact hv),
    fun a v hv => h.archives a v (by rw [← hs]; exact hv)⟩

theorem insert (h : MetasTyped s) {k : Str} {v : Value μ} (hv : Fits k v) :
    MetasTyped (s.insert (.session, k) v) := by
  constructor
  · intro a w hw
    rw [find_insert] at hw
    split at hw
    · rename_i he
      cases hw
      exact hv.1 a (congrArg Prod.snd he)
    · exact h.metas a w hw
  · intro a w hw
    rw [find_insert] at hw
    split at hw
    · rename_i he
      cases hw
      exact hv.2 a (congrArg Prod.snd he)
    · exact h.archives a w hw

theorem erase (h : MetasTyped s) (c : Cell) : MetasTyped (s.erase c) := by
  constructor
  · intro a w hw
    rw [find_erase] at hw
    split at hw
    · cases hw
    · exact h.metas a w hw
  · intro a w hw
    rw [find_erase] at hw
    split at hw
    · cases hw
    · exact h.archives a w hw

end MetasTyped

theorem last_metaKey (h : Str) : (components (metaKey h)).getLast? = some "meta".toList := by
  rw [components_metaKey, ← List.cons_append, ← List.cons_append, List.getLast?_concat]

theorem archiveKey_ne_metaKey (g h : Str) : archiveKey g ≠ metaKey h := by
  intro he
  have hl := last_metaKey h
  rw [← he, components_archiveKey, ← List.cons_append, ← List.cons_append, List.getLast?_concat] at hl
  exact absurd hl (by decide)

theorem pad12_ne_meta (i : Nat) : pad12 i ≠ "meta".toList := fun h => by
  have : 'm' ∈ pad12 i := by rw [h]; decide
  exact absurd (pad12_digit this) (by decide)

theorem last_indexed (a b c d : Str) (l : List Str) : (a :: b :: (l ++ [c, d])).getLast? = some d := by
  have : a :: b :: (l ++ [c, d]) = (a :: b :: (l ++ [c])) ++ [d] := by simp
  rw [this, List.getLast?_concat]

theorem pad12_ne_archive (i : Nat) : pad12 i ≠ "archive".toList := fun h => by
  have : 'a' ∈ pad12 i := by rw [h]; decide
  exact absurd (pad12_digit this) (by decide)

theorem last_archiveKey (h : Str) : (components (archiveKey h)).getLast? = some "archive".toList := by
  rw [components_archiveKey, ← List.cons_append, ← List.cons_append, List.getLast?_concat]

theorem messageKey_ne_archiveKey (g h : Str) (i : Nat) : messageKey g i ≠ archiveKey h := by
  intro he
  have hl := last_archiveKey h
  rw [← he, components_messageKey, last_indexed] at hl
  exact pad12_ne_archive i (Option.some.inj hl)

theorem eventKey_ne_archiveKey (g h : Str) (i : Nat) : eventKey g i ≠ archiveKey h := by
  intro he
  have hl := last_archiveKey h
  rw [← he, components_eventKey, last_indexed] at hl
  exact pad12_ne_archive i (Option.some.inj hl)

theorem sessionIndexKey_ne_archiveKey (m : SessionMeta) (g h : Str) :
    sessionIndexKey m g ≠ archiveKey h := by
  intro he
  have hc := congrArg components he
  rw [components_sessionIndexKey, components_archiveKey] at hc
  simp at hc

theorem messageKey_ne_metaKey (g h : Str) (i : Nat) : messageKey g i ≠ metaKey h := by
  intro he
  have hl := last_metaKey h
  rw [← he, components_messageKey, last_indexed] at hl
  exact pad12_ne_meta i (Option.some.inj hl)

theorem eventKey_ne_metaKey (g h : Str) (i : Nat) : eventKey g i ≠ metaKey h := by
  intro he
  have hl := last_metaKey h
  rw [← he, components_eventKey, last_indexed] at hl
  exact pad12_ne_meta i (Option.some.inj hl)

theorem sessionIndexKey_ne_metaKey (m : SessionMeta) (g h : Str) :
    sessionIndexKey m g ≠ metaKey h := by
  intro he
  have hc := congrArg components he
  rw [components_sessionIndexKey, components_metaKey] at hc
  simp at hc

theorem indexPrefix_isPrefix (m : SessionMeta) (g : Str) :
    indexPrefix none <+: sessionIndexKey m g :=
  ⟨m.agent.toStr ++ '/' :: (m.createdBy ++ '/' :: (m.createdAt ++ '/' :: g)), by
    simp [indexPrefix, sessionIndexKey, keysUnder, key]⟩

theorem indexPrefix_not_session {g k : Str} (hk : sessionPrefix g <+: k) :
    ¬ indexPrefix none <+: k := by
  intro hi
  obtain ⟨r₁, -, h₁⟩ := components_of_sessionPrefix hk
  obtain ⟨r₂, -, h₂⟩ := components_of_indexPrefix hi
  rw [h₁] at h₂
  simp at h₂

/-- Handles without separators do not share a cell. -/
theorem sessionCells_apart {g h k : Str} (hg : '/' ∉ g) (hh : '/' ∉ h) (hne : g ≠ h)
    (hk : sessionPrefix h <+: k) :
    ¬ sessionCells g (.session, k) := by
  obtain ⟨r, -, hr⟩ := components_of_sessionPrefix hk
  rw [components_of_notMem hh] at hr
  rintro ((⟨-, hp⟩ | ⟨index, key, -, hc⟩) | ⟨-, m, hm⟩)
  · obtain ⟨r', -, hr'⟩ := components_of_sessionPrefix hp
    rw [hr, components_of_notMem hg] at hr'
    simp only [List.singleton_append, List.cons.injEq, true_and] at hr'
    exact hne hr'.1.symm
  · cases hc.1
  · simp only at hm
    rw [hm, components_sessionIndexKey] at hr
    simp at hr

theorem fits_meta (g : Str) (m : SessionMeta) : Fits (metaKey g) (.sessionMeta m : Value μ) :=
  ⟨fun _ _ => ⟨m, rfl⟩, fun a ha => absurd ha.symm (archiveKey_ne_metaKey a g)⟩

theorem fits_archive (g t : Str) : Fits (archiveKey g) (.text t : Value μ) :=
  ⟨fun a ha => absurd ha (archiveKey_ne_metaKey g a), fun _ _ => ⟨t, rfl⟩⟩

theorem fits_message (g : Str) (i : Nat) (v : Value μ) : Fits (messageKey g i) v :=
  ⟨fun a ha => absurd ha (messageKey_ne_metaKey g a i),
    fun a ha => absurd ha (messageKey_ne_archiveKey g a i)⟩

theorem fits_event (g : Str) (i : Nat) (v : Value μ) : Fits (eventKey g i) v :=
  ⟨fun a ha => absurd ha (eventKey_ne_metaKey g a i),
    fun a ha => absurd ha (eventKey_ne_archiveKey g a i)⟩

section
variable (g : Str)

theorem sessionPrefix_metaKey : sessionPrefix g <+: metaKey g :=
  ⟨"meta".toList, by simp [sessionPrefix, metaKey, keysUnder, key]⟩

theorem sessionPrefix_archiveKey : sessionPrefix g <+: archiveKey g :=
  ⟨"archive".toList, by simp [sessionPrefix, archiveKey, keysUnder, key]⟩

theorem sessionPrefix_messagePrefix : sessionPrefix g <+: messagePrefix g :=
  ⟨"msg/".toList, by simp [sessionPrefix, messagePrefix, keysUnder, key]⟩

theorem messagePrefix_messageKey (i : Nat) : messagePrefix g <+: messageKey g i :=
  ⟨pad12 i, by simp [messagePrefix, messageKey, keysUnder, key]⟩

theorem sessionPrefix_messageKey (i : Nat) : sessionPrefix g <+: messageKey g i :=
  (sessionPrefix_messagePrefix g).trans (messagePrefix_messageKey g i)

theorem sessionPrefix_eventKey (i : Nat) : sessionPrefix g <+: eventKey g i :=
  ⟨"evt/".toList ++ pad12 i, by simp [sessionPrefix, eventKey, keysUnder, key]⟩

theorem sessionPrefix_titleKey : sessionPrefix g <+: titleKey g :=
  ⟨"meta/title".toList, by simp [sessionPrefix, titleKey, keysUnder, key]⟩

theorem sessionPrefix_summaryKey : sessionPrefix g <+: summaryKey g :=
  ⟨"meta/summary".toList, by simp [sessionPrefix, summaryKey, keysUnder, key]⟩

end

variable [Chrono]

structure Kept (g : Str) (s s' : Kv μ) : Prop where
  text : TextTyped s'
  rows : RowsTyped s'
  metas : MetasTyped s'
  frame : Changes (sessionCells g) s s'

namespace Kept

variable {g : Str} {s s' s'' : Kv μ} {k : Str}

theorem refl (ht : TextTyped s) (hr : RowsTyped s) (hm : MetasTyped s) : Kept g s s :=
  ⟨ht, hr, hm, .refl⟩

theorem trans (h : Kept g s s') (h' : Kept g s' s'') : Kept g s s'' :=
  ⟨h'.text, h'.rows, h'.metas, h.frame.trans h'.frame⟩

theorem put (h : Kept g s s') (hk : sessionPrefix g <+: k) {v : Value μ} (hv : Fits k v) :
    Kept g s (s'.insert (.session, k) v) where
  text := h.text.changes (Changes.insert (P := fun c => c.1 = .session) rfl v) fun c hc => by
    rw [hc]; decide
  rows a w hw ha := by
    rw [find_insert] at hw
    split at hw
    · rename_i he
      cases he
      exact absurd ha (indexPrefix_not_session hk)
    · exact h.rows a w hw ha
  metas := h.metas.insert hv
  frame := h.frame.trans (.insert (.inl (.inl ⟨rfl, hk⟩)) v)

theorem putMeta (h : Kept g s s') (m : SessionMeta) :
    Kept g s (s'.insert (.session, metaKey g) (.sessionMeta m)) :=
  h.put (sessionPrefix_metaKey g) (fits_meta g m)

theorem putRow (h : Kept g s s') {m : SessionMeta} (hm : Chrono.IsTimestamp m.createdAt) :
    Kept g s (s'.insert (.session, sessionIndexKey m g) (.raw g)) where
  text := h.text.changes (Changes.insert (P := fun c => c.1 = .session) rfl _) fun c hc => by
    rw [hc]; decide
  rows a w hw ha := by
    rw [find_insert] at hw
    split at hw
    · rename_i he
      cases he
      cases hw
      exact ⟨m, g, rfl, rfl, hm⟩
    · exact h.rows a w hw ha
  metas := h.metas.insert ⟨fun a ha => absurd ha (sessionIndexKey_ne_metaKey m g a),
    fun a ha => absurd ha (sessionIndexKey_ne_archiveKey m g a)⟩
  frame := h.frame.trans (.insert (.inr ⟨rfl, m, rfl⟩) _)

theorem erase (h : Kept g s s') (hk : sessionCells g (.session, k)) :
    Kept g s (s'.erase (.session, k)) where
  text := h.text.erase _
  rows a w hw ha := by
    rw [find_erase] at hw
    split at hw
    · cases hw
    · exact h.rows a w hw ha
  metas := h.metas.erase _
  frame := h.frame.trans (.erase hk)

theorem index (h : Kept g s s') {P : Cell → Prop} (hi : Indexed P s' s'')
    (hP : ∀ c, P c → ∃ index key, sessionPrefix g <+: key ∧ docCells index key c) :
    Kept g s s'' where
  text := hi.1
  rows a w hw ha := by
    refine h.rows a w ?_ ha
    rw [← hi.2]
    · exact hw
    · intro hp
      obtain ⟨-, -, -, hcol, -⟩ := hP _ hp
      cases hcol
  metas := h.metas.congr fun k => hi.2 _ fun hp => by
    obtain ⟨-, -, -, hcol, -⟩ := hP _ hp
    cases hcol
  frame := h.frame.trans (hi.2.mono fun c hp => .inl (.inr (hP c hp)))

end Kept

/-! ## The operations -/

/-- `p`, started in `s`, stays inside the cells of `g` as seen from `s₀`. -/
def Keeps {α : Type} (F : Prop) (g : Str) (s₀ : Kv μ) (p : KvM μ α) (s : Kv μ) : Prop :=
  Prog.wp F memory p (fun _ => Kept g s₀) (fun _ => Kept g s₀) s

section
variable {F : Prop} {α β : Type} {g : Str} {s₀ s : Kv μ}

theorem Keeps.bind {p : KvM μ α} {f : α → KvM μ β} (hp : Keeps F g s₀ p s)
    (hf : ∀ a s', Kept g s₀ s' → Keeps F g s₀ (f a) s') : Keeps F g s₀ (p >>= f) s :=
  Prog.wp_bind.mpr (hp.mono hf fun _ _ he => he)

theorem Keeps.forM {f : α → KvM μ Unit} {l : List α} (h : Kept g s₀ s)
    (hf : ∀ a ∈ l, ∀ s', Kept g s₀ s' → Keeps F g s₀ (f a) s') : Keeps F g s₀ (forM l f) s :=
  Prog.wp_forM h hf

theorem Keeps.read {p : KvM μ α} (h : Kept g s₀ s)
    (hp : Prog.wp F memory p (fun _ s' => s' = s) (fun _ s' => s' = s) s) :
    Keeps F g s₀ p s :=
  hp.mono (fun _ _ he => he ▸ h) fun _ _ he => he ▸ h

theorem keeps_put {col : Column} {k : Str} {v : Value μ} (h : Kept g s₀ s)
    (h' : Kept g s₀ (s.insert (col, k) v)) :
    Keeps F g s₀ (put col k v) s :=
  wp_put.mpr ⟨h', fun _ _ => h⟩

theorem keeps_delete {k : Str} (h : Kept g s₀ s) (hk : sessionCells g (.session, k)) :
    Keeps F g s₀ (delete .session k) s :=
  wp_delete.mpr ⟨h.erase hk, fun _ _ => h⟩

theorem keeps_dropText {index : TextIndex} {key : Str} (h : Kept g s₀ s)
    (hk : sessionPrefix g <+: key) :
    Keeps F g s₀ (dropText index key) s :=
  (wp_dropText h.text).mono (fun _ _ hi => h.index hi fun _ hp => ⟨index, key, hk, hp⟩)
    fun _ _ ⟨_, hi⟩ => h.index hi fun _ hp => ⟨index, key, hk, hp⟩

theorem keeps_dropTextPrefix {index : TextIndex} (h : Kept g s₀ s) :
    Keeps F g s₀ (dropTextPrefix index (sessionPrefix g)) s := by
  have hP : ∀ c, stemCells index (sessionPrefix g) c → ∃ index key, sessionPrefix g <+: key ∧
      docCells index key c :=
    fun c ⟨key, hk, hp⟩ => ⟨index, key, hk, hp⟩
  exact (wp_dropTextPrefix h.text).mono (fun _ _ hi => h.index hi hP) fun _ _ ⟨_, hi⟩ => h.index hi hP

theorem keeps_indexText [TextStd] {index : TextIndex} {key text : Str} {weight : ℚ}
    (h : Kept g s₀ s)
    (hk : sessionPrefix g <+: key) : Keeps F g s₀ (indexText index key text weight) s :=
  (wp_indexText h.text).mono (fun _ _ hi => h.index hi fun _ hp => ⟨index, key, hk, hp⟩)
    fun _ _ ⟨_, hi⟩ => h.index hi fun _ hp => ⟨index, key, hk, hp⟩

theorem keeps_sessionMeta (h : Kept g s₀ s) (a : Str) : Keeps F g s₀ (sessionMeta a) s := by
  refine .read h ?_
  rw [sessionMeta, wp_getJson]
  refine ⟨?_, fun _ _ => rfl⟩
  split
  · rfl
  · split <;> rfl

theorem keeps_scanKeys (h : Kept g s₀ s) (col : Column) (stem : Str) :
    Keeps F g s₀ (scanKeys col stem) s :=
  .read h (wp_scanKeys.mpr ⟨rfl, fun _ _ => rfl⟩)

theorem keeps_createSession (h : Kept g s₀ s) (agent : AgentId) (createdBy : Str)
    (root : Option Str) {now : Str}
    (hnow : Chrono.IsTimestamp now) : Keeps F g s₀ (createSession g agent createdBy root now) s := by
  rw [createSession]
  exact (keeps_put h (h.putMeta _)).bind fun _ _ h₁ => keeps_put h₁ (h₁.putRow hnow)

theorem keeps_appendEvents : ∀ (events : List EventLine) (idx : Nat) (s : Kv μ), Kept g s₀ s →
    Keeps F g s₀ (appendEvents g idx events) s
  | [], _, _, h => h
  | event :: events, idx, s, h => by
    rw [appendEvents]
    refine (keeps_put h ?_).bind fun _ s₁ h₁ => keeps_appendEvents events (idx + 1) s₁ h₁
    exact h.put (sessionPrefix_eventKey g idx) (fits_event g idx _)

theorem keeps_truncate (h : Kept g s₀ s) (keep : Nat) :
    Keeps F g s₀ (truncateSessionMessages g keep) s := by
  rw [truncateSessionMessages]
  refine (keeps_sessionMeta h g).bind fun m s₁ h₁ => ?_
  cases m with
  | none => exact h₁
  | some m =>
    simp only
    rw [Keeps, Prog.wp_bind, wp_scanKeys]
    refine ⟨Keeps.bind (Keeps.forM h₁ fun k hk s₂ h₂ => ?_) fun _ s₂ h₂ =>
      keeps_put h₂ (h₂.putMeta _), fun _ _ => h₁⟩
    obtain ⟨⟨⟨col, k⟩, v⟩, he, rfl⟩ := List.mem_map.mp (List.mem_of_mem_drop hk)
    have hown : sessionPrefix g <+: k :=
      (sessionPrefix_messagePrefix g).trans (ColMap.mem_under.mp he).2.2
    exact (keeps_dropText h₂ hown).bind fun _ s₃ h₃ =>
      (keeps_delete h₃ (.inl (.inl ⟨rfl, hown⟩))).bind fun _ _ h₄ => h₄

theorem keeps_deleteKeys : ∀ (keys : List Str) (existed : Bool) (s : Kv μ), Kept g s₀ s →
    (∀ k ∈ keys, sessionPrefix g <+: k) → Keeps F g s₀ (deleteKeys keys existed) s
  | [], _, _, h, _ => h
  | k :: keys, existed, s, h, hk => by
    rw [deleteKeys]
    exact (keeps_delete h (.inl (.inl ⟨rfl, hk k List.mem_cons_self⟩))).bind fun _ s₁ h₁ =>
      keeps_deleteKeys keys _ s₁ h₁ fun a ha => hk a (List.mem_cons_of_mem _ ha)

theorem keeps_deleteSession (h : Kept g s₀ s) : Keeps F g s₀ (deleteSession g) s := by
  have finish : ∀ s₁, Kept g s₀ s₁ →
      Keeps F g s₀ (do deleteKeys (← scanKeys .session (sessionPrefix g)) false) s₁ := by
    intro s₁ h₁
    rw [Keeps, Prog.wp_bind, wp_scanKeys]
    refine ⟨keeps_deleteKeys _ _ _ h₁ fun k hk => ?_, fun _ _ => h₁⟩
    obtain ⟨⟨⟨col, k⟩, v⟩, he, rfl⟩ := List.mem_map.mp hk
    exact (ColMap.mem_under.mp he).2.2
  rw [deleteSession]
  refine (keeps_dropTextPrefix h).bind fun _ s₁ h₁ => (keeps_dropTextPrefix h₁).bind fun _ s₂ h₂ =>
    (keeps_sessionMeta h₂ g).bind fun m s₃ h₃ => ?_
  cases m with
  | none => exact finish s₃ h₃
  | some m => exact (keeps_delete h₃ (.inr ⟨rfl, m, rfl⟩)).bind fun _ => finish

section
variable [TextStd]

theorem keeps_indexMetaText (h : Kept g s₀ s) (m : SessionMeta) :
    Keeps F g s₀ (indexMetaText g m) s := by
  have htext : ∀ {key : Str} (text : Str) {s₁ : Kv μ}, sessionPrefix g <+: key → Kept g s₀ s₁ →
      Keeps F g s₀ (metaText key text) s₁ := by
    intro key text s₁ hkey h₁
    unfold metaText
    split
    · exact keeps_dropText h₁ hkey
    · exact keeps_indexText h₁ hkey
  rw [indexMetaText_eq]
  exact (htext _ (sessionPrefix_titleKey g) h).bind fun _ _ => htext _ (sessionPrefix_summaryKey g)

theorem keeps_update (h : Kept g s₀ s) (m : SessionMeta) : Keeps F g s₀ (updateSessionMeta g m) s := by
  rw [updateSessionMeta]
  exact (keeps_sessionMeta h g).bind fun stored s₁ h₁ =>
    (keeps_put h₁ (h₁.putMeta _)).bind fun _ s₂ h₂ => keeps_indexMetaText h₂ _

variable [Wire μ]

theorem keeps_appendEntries : ∀ (entries : List (HistoryEntry μ)) (idx : Nat) (s : Kv μ), Kept g s₀ s →
    Keeps F g s₀ (appendEntries g idx entries) s
  | [], _, _, h => h
  | entry :: entries, idx, s, h => by
    have hput := h.put (sessionPrefix_messageKey g idx) (fits_message g idx (.entry entry.persist))
    rw [appendEntries]
    refine (keeps_put h hput).bind fun _ s₁ h₁ => ?_
    cases entry.indexable with
    | none => exact keeps_appendEntries entries (idx + 1) s₁ h₁
    | some b =>
      exact (keeps_indexText h₁ (sessionPrefix_messageKey g idx)).bind fun _ s₂ h₂ =>
        keeps_appendEntries entries (idx + 1) s₂ h₂

theorem keeps_append (h : Kept g s₀ s) (entries : List (HistoryEntry μ)) (now : Str) :
    Keeps F g s₀ (appendSessionMessages g entries now) s := by
  rw [appendSessionMessages]
  split
  · exact h
  · refine (keeps_sessionMeta h g).bind fun m s₁ h₁ => ?_
    cases m with
    | none => exact h₁
    | some m => exact (keeps_appendEntries entries _ s₁
        h₁).bind fun _ s₂ h₂ => keeps_put h₂ (h₂.putMeta _)

end

end

/-! ## Any operation -/

inductive SessionOp (μ : Type)
  | create (agent : AgentId) (createdBy : Str) (root : Option Str) (now : Str)
  | append (entries : List (HistoryEntry μ)) (now : Str)
  | events (lines : List EventLine)
  | compact (archive : Str)
  | truncate (keep : Nat)
  | update (m : SessionMeta)
  | delete

section
variable [TextStd] [Wire μ]

def SessionOp.Timed : SessionOp μ → Prop
  | .create _ _ _ now => Chrono.IsTimestamp now
  | _ => True

def SessionOp.exec (g : Str) : SessionOp μ → KvM μ Unit
  | .create agent createdBy root now => createSession g agent createdBy root now
  | .append entries now => appendSessionMessages g entries now
  | .events lines => appendSessionEvents g lines
  | .compact archive => appendSessionCompact g archive
  | .truncate keep => truncateSessionMessages g keep
  | .update m => updateSessionMeta g m
  | .delete => do let _ ← deleteSession g

theorem keeps_exec {F : Prop} {g : Str} {s₀ s : Kv μ} {op : SessionOp μ} (hop : op.Timed)
    (h : Kept g s₀ s) :
    Keeps F g s₀ (op.exec g) s := by
  cases op with
  | create agent createdBy root now => exact keeps_createSession h agent createdBy root hop
  | append entries now => exact keeps_append h entries now
  | events lines =>
    exact (keeps_scanKeys h .session _).bind fun keys s₁ h₁ => keeps_appendEvents lines _ s₁ h₁
  | compact archive =>
    exact (keeps_truncate h 0).bind fun _ s₁ h₁ => keeps_put h₁
      (h₁.put (sessionPrefix_archiveKey g) (fits_archive g archive))
  | truncate keep => exact keeps_truncate h keep
  | update m => exact keeps_update h m
  | delete => exact (keeps_deleteSession h).bind fun _ _ h₁ => h₁

end

end Crabtalk.Store

import Crabtalk.Basis.Rely
import Crabtalk.Store.Views

/-! # What the session operations ask for

Others may be at the store between two operations, so what an operation reads
is all that is known of the rest. What stays is the type of what is stored.
-/

open Basis

namespace Crabtalk.Store

variable {μ : Type} {F : Prop} {h g : Str} {s s' : Kv μ}

structure WellTyped (s : Kv μ) : Prop where
  text : TextTyped s
  metas : MetasTyped s

theorem WellTyped.empty : WellTyped (∅ : Kv μ) :=
  ⟨.empty, ⟨fun a v hv => by simp at hv, fun a v hv => by simp at hv⟩⟩

theorem WellTyped.put (hs : WellTyped s) {k : Str} {v : Value μ} (hf : Fits k v) :
    WellTyped (s.insert (.session, k) v) := by
  refine ⟨hs.text.of_eq fun c hc => ?_, hs.metas.insert hf⟩
  rw [find_insert, if_neg]
  rintro rfl
  cases hc

theorem WellTyped.erase (hs : WellTyped s) (c : Cell) : WellTyped (s.erase c) :=
  ⟨hs.text.erase c, hs.metas.erase c⟩

/-! ## Text -/

def TextPut (col : Column) (k : Str) (v : Value μ) : Prop := col = .text ∧ ∀ s : Kv μ, TextTyped s →
    TextTyped (s.insert (.text, k) v)

def IndexOp : KvOp μ → Prop
  | .put col k v => TextPut col k v
  | .delete col _ => col = .text
  | _ => True

abbrev Texts {α : Type} (F : Prop) (p : KvM μ α) : Prop := Prog.Asks F memory TextTyped IndexOp p

def decoded {α : Type} (decode : Value μ → Option α) : Option (Value μ) → KvM μ (Option α)
  | none => pure none
  | some v =>
    match decode v with
    | some a => pure (some a)
    | none => .fail .decode

theorem decoded_some {α : Type} {decode : Value μ → Option α} {v : Value μ} {a : α}
    (ha : decode v = some a) :
    decoded decode (some v) = pure (some a) := by
  unfold decoded
  dsimp only
  rw [ha]

theorem decoded_fail {α : Type} {decode : Value μ → Option α} {v : Value μ} (ha : decode v = none) :
    decoded decode (some v) = .fail .decode := by
  unfold decoded
  dsimp only
  rw [ha]

/-- What is read under a key is decoded, or operations may fail. -/
theorem asks_getJson {α β : Type} {I : Kv μ → Prop} {P : KvOp μ → Prop}
    {decode : Value μ → Option α} {D : α → Prop} {col : Column} {k : Str}
    {f : Option α → KvM μ β} (hP : P (.get col k))
    (hI : ∀ s, I s → ∀ v, s[((col, k) : Cell)]? = some v → F ∨ ∃ a, decode v = some a)
    (hD : ∀ s, I s → ∀ v a, s[((col, k) : Cell)]? = some v → decode v = some a → D a)
    (hnone : Prog.Asks F memory I P (f none))
    (hsome : ∀ a, D a → Prog.Asks F memory I P (f (some a))) : Prog.Asks F memory I P
    (getJson decode col k >>= f) := by
  refine ⟨hP, fun s hs => ?_, fun hF _ => hF⟩
  show Prog.Asks F memory I P (decoded decode s[((col, k) : Cell)]? >>= f)
  cases hv : s[((col, k) : Cell)]? with
  | none => exact hnone
  | some v =>
    cases ha : decode v with
    | some a =>
      rw [decoded_some ha]
      exact hsome a (hD s hs v a hv ha)
    | none =>
      rw [decoded_fail ha]
      rcases hI s hs v hv with hF | ⟨a, ha'⟩
      · exact hF
      · rw [ha] at ha'
        cases ha'

theorem texts_stats (index : TextIndex) : Texts F (stats index : KvM μ Stats) := by
  unfold stats
  refine asks_getJson (D := fun _ => True) trivial (fun s hs v hv => .inr ?_)
    (fun _ _ _ _ _ _ => trivial) trivial fun _ _ => trivial
  obtain ⟨st, rfl⟩ := hs.totals index v hv
  exact ⟨st, rfl⟩

theorem texts_putStats (index : TextIndex) (st : Stats) :
    Texts F (put .text (statsKey index) (.stats st) : KvM μ Unit) :=
  ⟨⟨rfl, fun _ hs => hs.put_stats index st⟩, fun _ _ => trivial, fun hF _ => hF⟩

theorem texts_delete {α : Type} (k : Str) {p : KvM μ α} (hp : Texts F p) :
    Texts F (delete .text k >>= fun _ => p) :=
  .perform rfl fun _ _ => hp

theorem texts_dropText (index : TextIndex) (k : Str) : Texts F (dropText index k : KvM μ Unit) := by
  unfold dropText
  refine asks_getJson (D := fun _ => True) trivial (fun s hs v hv => .inr ?_)
    (fun _ _ _ _ _ _ => trivial) trivial fun doc _ => ?_
  · obtain ⟨d, rfl, -⟩ := hs.docs index k v hv
    exact ⟨d, rfl⟩
  · refine Prog.Asks.bind (.forM fun term _ => texts_delete _ trivial) fun _ => texts_delete _ ?_
    exact (texts_stats index).bind fun st => texts_putStats index _

theorem texts_dropTextPrefix (index : TextIndex) (stem : Str) :
    Texts F (dropTextPrefix index stem : KvM μ Unit) := by
  unfold dropTextPrefix
  exact .perform trivial fun _ _ => .forM fun k _ => texts_dropText index _

section
variable [TextStd]

theorem texts_indexText (index : TextIndex) (k text : Str) (weight : ℚ) :
    Texts F (indexText index k text weight : KvM μ Unit) := by
  have hterms : ∀ tf ∈ termFrequencies (tokenize text), '/' ∉ tf.1 := by
    intro tf htf
    obtain ⟨t, ht, rfl⟩ := List.mem_map.mp ((TextStd.hashOrder_perm _).mem_iff.mp htf)
    exact slash_notMem_tokenize (List.mem_dedup.mp ht)
  unfold indexText
  refine (texts_dropText index k).bind fun _ => ?_
  dsimp only
  split
  · trivial
  · refine Prog.Asks.bind (.forM fun tf _ => ?_) fun _ => ?_
    · exact ⟨⟨rfl, fun _ hs => hs.put_posting index _ _ _⟩, fun _ _ => trivial, fun hF _ => hF⟩
    · refine .perform ⟨rfl, fun _ hs => hs.put_doc index k fun t ht => ?_⟩ fun _ _ =>
        (texts_stats index).bind fun st => texts_putStats index _
      obtain ⟨tf, htf, rfl⟩ := List.mem_map.mp ((List.perm_insertionSort _ _).mem_iff.mp ht)
      exact hterms tf htf

theorem texts_indexMetaText (m : SessionMeta) : Texts F (indexMetaText h m : KvM μ Unit) := by
  have htext : ∀ key text : Str, Texts F (metaText key text : KvM μ Unit) := by
    intro key text
    unfold metaText
    split
    · exact texts_dropText _ _
    · exact texts_indexText _ _ _ _
  rw [indexMetaText_eq]
  exact (htext _ _).bind fun _ => htext _ _

end

/-- Text operations keep what is stored in the session column. -/
theorem IndexOp.keeps {o : KvOp μ} (ho : IndexOp o) (hs : TextTyped s) :
    Basis.wp (memory o) (fun _ => Indexed (fun c => c.1 = .text) s)
    (fun _ => Indexed (fun c => c.1 = .text) s) s := by
  cases o with
  | put col k v =>
    obtain ⟨rfl, hk⟩ := ho
    exact ⟨hk s hs, Changes.insert (P := fun c => c.1 = .text) rfl v⟩
  | delete col k =>
    cases ho
    exact ⟨hs.erase _, Changes.erase (P := fun c => c.1 = .text) rfl⟩
  | get col k => exact .refl hs
  | scanKeys col stem => exact .refl hs
  | scan col stem => exact .refl hs

/-! ## Session operations -/

/-- Beside text, a turn on `h` writes messages, events and the record of `h`. -/
def TurnOp (h : Str) : KvOp μ → Prop
  | .put col k v => TextPut col k v ∨
    col = .session ∧ ((∃ i, k = messageKey h i ∨ k = eventKey h i) ∨ k = metaKey h ∧
      ∃ m, v = .sessionMeta m)
  | .delete col _ => col = .text
  | _ => True

def EventOp (h : Str) : KvOp μ → Prop
  | .put col k _ => col = .session ∧ ∃ i, k = eventKey h i
  | .delete _ _ => False
  | _ => True

def PurgeOp : KvOp μ → Prop
  | .put col k v => TextPut col k v
  | _ => True

def CreateOp (h : Str) : KvOp μ → Prop
  | .put col k v => col = .session ∧ ((k = metaKey h ∧ ∃ m, v = .sessionMeta m) ∨
    ∃ m, k = sessionIndexKey m h)
  | .delete _ _ => False
  | _ => True

theorem IndexOp.turn {o : KvOp μ} (ho : IndexOp o) : TurnOp h o := by
  cases o with
  | put col k v => exact .inl ho
  | delete col k => exact ho
  | _ => trivial

theorem EventOp.turn {o : KvOp μ} (ho : EventOp h o) : TurnOp h o := by
  cases o with
  | put col k v =>
    obtain ⟨rfl, i, rfl⟩ := ho
    exact .inr ⟨rfl, .inl ⟨i, .inr rfl⟩⟩
  | delete col k => exact ho.elim
  | _ => trivial

theorem IndexOp.purge {o : KvOp μ} (ho : IndexOp o) : PurgeOp o := by
  cases o with
  | put col k v => exact ho
  | _ => trivial

theorem fits_index (m : SessionMeta) (v : Value μ) : Fits (sessionIndexKey m h) v := by
  constructor
  · intro g he
    exact absurd (indexPrefix_isPrefix m h)
      (by rw [he]; exact indexPrefix_not_session (sessionPrefix_metaKey g))
  · intro g he
    exact absurd (indexPrefix_isPrefix m h)
      (by rw [he]; exact indexPrefix_not_session (sessionPrefix_archiveKey g))

theorem WellTyped.text_put (hs : WellTyped s) {col : Column} {k : Str} {v : Value μ}
    (hp : TextPut col k v) : WellTyped (s.insert (col, k) v) := by
  obtain ⟨rfl, hk⟩ := hp
  refine ⟨hk s hs.text, hs.metas.congr fun k' => ?_⟩
  rw [find_insert, if_neg]
  intro he
  cases he

theorem TurnOp.wellTyped {o : KvOp μ} (ho : TurnOp h o) (hs : WellTyped s) :
    Basis.wp (memory o) (fun _ => WellTyped) (fun _ => WellTyped) s := by
  cases o with
  | put col k v =>
    rcases ho with ho | ⟨rfl, ⟨i, rfl | rfl⟩ | ⟨rfl, m, rfl⟩⟩
    · exact hs.text_put ho
    · exact hs.put (fits_message h i v)
    · exact hs.put (fits_event h i v)
    · exact hs.put (fits_meta h m)
  | delete col k => exact hs.erase _
  | _ => exact hs

theorem CreateOp.wellTyped {o : KvOp μ} (ho : CreateOp h o) (hs : WellTyped s) :
    Basis.wp (memory o) (fun _ => WellTyped) (fun _ => WellTyped) s := by
  cases o with
  | put col k v =>
    obtain ⟨rfl, ⟨rfl, m, rfl⟩ | ⟨m, rfl⟩⟩ := ho
    · exact hs.put (fits_meta h m)
    · exact hs.put (fits_index m v)
  | delete col k => exact ho.elim
  | _ => exact hs

theorem Texts.turn {α : Type} {p : KvM μ α} (hp : Texts F p) :
    Prog.Asks F memory WellTyped (TurnOp h) p :=
  Prog.Asks.mono hp (fun _ => WellTyped.text) fun _ => IndexOp.turn

theorem Texts.purge {α : Type} {p : KvM μ α} (hp : Texts F p) :
    Prog.Asks F memory WellTyped PurgeOp p :=
  Prog.Asks.mono hp (fun _ => WellTyped.text) fun _ => IndexOp.purge

/-- Where operations may fail, nothing is asked of what is read. -/
theorem asks_read {α : Type} {I : Kv μ → Prop} {P : KvOp μ → Prop} (decode : Value μ → Option α)
    (col : Column) (k : Str)
    (hP : P (.get col k)) : Prog.Asks True memory I P (getJson decode col k) := by
  refine ⟨hP, fun s _ => ?_, fun _ _ => trivial⟩
  show Prog.Asks True memory I P (decoded decode s[((col, k) : Cell)]? : KvM μ (Option α))
  cases hv : s[((col, k) : Cell)]? with
  | none => trivial
  | some v =>
    cases ha : decode v with
    | some a =>
      rw [decoded_some ha]
      trivial
    | none =>
      rw [decoded_fail ha]
      trivial

theorem asks_createSession (agent : AgentId) (createdBy : Str) (root : Option Str) (now : Str) :
    Prog.Asks True memory WellTyped (CreateOp h)
    (createSession h agent createdBy root now : KvM μ Unit) := by
  unfold createSession
  refine .perform ⟨rfl, .inl ⟨rfl, _, rfl⟩⟩ fun _ _ => ?_
  exact ⟨⟨rfl, .inr ⟨_, rfl⟩⟩, fun _ _ => trivial, fun _ _ => trivial⟩

theorem asks_deleteKeys (keys : List Str) (existed : Bool) :
    Prog.Asks True memory WellTyped PurgeOp (deleteKeys keys existed : KvM μ Bool) := by
  induction keys generalizing existed with
  | nil => trivial
  | cons k keys ih =>
    unfold deleteKeys
    exact .perform trivial fun _ _ => ih _

theorem asks_deleteSession : Prog.Asks True memory WellTyped PurgeOp
    (deleteSession g : KvM μ Bool) := by
  have hrest : Prog.Asks True memory WellTyped PurgeOp
      (do deleteKeys (← scanKeys .session (sessionPrefix g)) false : KvM μ Bool) :=
    .perform trivial fun _ _ => asks_deleteKeys _ _
  unfold deleteSession
  refine (texts_dropTextPrefix _ _).purge.bind fun _ =>
    (texts_dropTextPrefix _ _).purge.bind fun _ => ?_
  refine (asks_read Value.asMeta .session (metaKey g) trivial).bind fun m => ?_
  cases m with
  | none => exact hrest
  | some m => exact .perform trivial fun _ _ => hrest

theorem asks_deleteAll (handles : List Str) (n : Nat) :
    Prog.Asks True memory WellTyped PurgeOp (deleteAll handles n : KvM μ Nat) := by
  induction handles generalizing n with
  | nil => trivial
  | cons g handles ih =>
    unfold deleteAll
    refine asks_deleteSession.bind fun b => ?_
    cases b
    · exact ih n
    · exact ih (n + 1)

theorem asks_appendEvents (events : List EventLine) (idx : Nat) :
    Prog.Asks F memory WellTyped (EventOp h) (appendEvents h idx events : KvM μ Unit) := by
  induction events generalizing idx with
  | nil => trivial
  | cons event events ih =>
    unfold appendEvents
    exact .perform ⟨rfl, idx, rfl⟩ fun _ _ => ih (idx + 1)

theorem asks_appendSessionEvents (events : List EventLine) :
    Prog.Asks F memory WellTyped (EventOp h) (appendSessionEvents h events : KvM μ Unit) := by
  unfold appendSessionEvents
  exact .perform trivial fun _ _ => asks_appendEvents _ _

section
variable [TextStd]

theorem asks_updateSessionMeta (m : SessionMeta) :
    Prog.Asks True memory WellTyped (TurnOp h) (updateSessionMeta h m : KvM μ Unit) := by
  unfold updateSessionMeta
  refine (asks_read Value.asMeta .session (metaKey h) trivial).bind fun stored => ?_
  exact .perform (.inr ⟨rfl, .inr ⟨rfl, _, rfl⟩⟩) fun _ _ => (texts_indexMetaText _).turn

variable [Wire μ]

theorem asks_appendEntries (es : List (HistoryEntry μ)) (idx : Nat) :
    Prog.Asks True memory WellTyped (TurnOp h) (appendEntries h idx es) := by
  induction es generalizing idx with
  | nil => trivial
  | cons e es ih =>
    unfold appendEntries
    refine .perform (.inr ⟨rfl, .inl ⟨idx, .inl rfl⟩⟩) fun _ _ => ?_
    cases e.indexable with
    | none => exact ih (idx + 1)
    | some b => exact (texts_indexText _ _ _ _).turn.bind fun _ => ih (idx + 1)

theorem asks_appendSessionMessages (es : List (HistoryEntry μ)) (now : Str) :
    Prog.Asks True memory WellTyped (TurnOp h) (appendSessionMessages h es now) := by
  unfold appendSessionMessages
  split
  · trivial
  · refine (asks_read Value.asMeta .session (metaKey h) trivial).bind fun m => ?_
    cases m with
    | none => trivial
    | some m =>
      refine (asks_appendEntries _ _).bind fun _ => ?_
      exact ⟨.inr ⟨rfl, .inr ⟨rfl, _, rfl⟩⟩, fun _ _ => trivial, fun _ _ => trivial⟩

end

end Crabtalk.Store

import Crabtalk.Basis.Twin
import Crabtalk.Store.Written

/-! # What the index does not see

Two stores with the same keys, whose session columns differ only inside the
entries and event lines they hold. No operation of a session tells them apart
but by what it writes there, and no search at all.
-/

open Basis Prog

namespace Crabtalk.Store

variable {μ : Type}

/-- The same value, whatever an entry or an event line says. -/
def Value.Like : Value μ → Value μ → Prop
  | .entry _, .entry _ => True
  | .event _, .event _ => True
  | v, v' => v = v'

theorem Value.Like.refl (v : Value μ) : v.Like v := by
  cases v <;> trivial

structure Veiled (s s' : Kv μ) : Prop where
  elsewhere : ∀ c : Cell, c.1 ≠ .session → s'[c]? = s[c]?
  like : ∀ c : Cell, Option.Rel Value.Like s[c]? s'[c]?

theorem Veiled.refl (s : Kv μ) : Veiled s s := by
  refine ⟨fun _ _ => rfl, fun c => ?_⟩
  cases s[c]? with
  | none => exact .none
  | some v => exact .some (.refl v)

section
variable {F : Prop} {s s' : Kv μ}

theorem Veiled.insert (h : Veiled s s') {c : Cell} {v v' : Value μ} (hv : v.Like v')
    (hc : c.1 ≠ .session → v' = v) :
    Veiled (s.insert c v) (s'.insert c v') := by
  constructor
  · intro a ha
    rw [find_insert, find_insert]
    by_cases he : c = a
    · subst he
      rw [if_pos rfl, if_pos rfl, hc ha]
    · rw [if_neg he, if_neg he]
      exact h.elsewhere a ha
  · intro a
    rw [find_insert, find_insert]
    by_cases he : c = a
    · rw [if_pos he, if_pos he]
      exact .some hv
    · rw [if_neg he, if_neg he]
      exact h.like a

theorem Veiled.erase (h : Veiled s s') (c : Cell) : Veiled (s.erase c) (s'.erase c) := by
  constructor
  · intro a ha
    rw [find_erase, find_erase, h.elsewhere a ha]
  · intro a
    rw [find_erase, find_erase]
    by_cases he : c = a
    · rw [if_pos he, if_pos he]
      exact .none
    · rw [if_neg he, if_neg he]
      exact h.like a

theorem Veiled.isSome (h : Veiled s s') (c : Cell) : s[c]?.isSome = s'[c]?.isSome := by
  have hc := h.like c
  cases hv : s[c]? with
  | none =>
    rw [hv] at hc
    cases hv' : s'[c]? with
    | none => rfl
    | some v' =>
      rw [hv'] at hc
      cases hc
  | some v =>
    rw [hv] at hc
    cases hv' : s'[c]? with
    | none =>
      rw [hv'] at hc
      cases hc
    | some v' => rfl

theorem Veiled.under (h : Veiled s s') (col : Column) (stem : Str) :
    List.Forall₂ (fun e e' => e.1 = e'.1 ∧ Value.Like e.2 e'.2) (s.under col stem)
    (s'.under col stem) := by
  have hmap : s'.under col stem = (s.under col stem).map fun e => (e.1, s'[e.1]?.getD e.2) := by
    apply ColMap.under_eq
    · exact List.pairwise_map.mpr (ColMap.sorted_under s col stem)
    · intro k v
      rw [List.mem_map]
      have hk := h.like k
      constructor
      · intro ⟨⟨k', v'⟩, hmem, heq⟩
        cases heq
        obtain ⟨hv, hcol, hstem⟩ := ColMap.mem_under.mp hmem
        rw [hv] at hk
        cases hv' : s'[k']? with
        | none =>
          rw [hv'] at hk
          cases hk
        | some w => exact ⟨rfl, hcol, hstem⟩
      · intro ⟨hv, hcol, hstem⟩
        rw [hv] at hk
        cases hv' : s[k]? with
        | none =>
          rw [hv'] at hk
          cases hk
        | some w => exact ⟨(k, w), ColMap.mem_under.mpr ⟨hv', hcol, hstem⟩, by rw [hv]; rfl⟩
  rw [hmap, List.forall₂_map_right_iff, List.forall₂_same]
  intro ⟨k, v⟩ hmem
  have hk := h.like k
  rw [(ColMap.mem_under.mp hmem).1] at hk
  refine ⟨rfl, ?_⟩
  dsimp only
  cases hv' : s'[k]? with
  | none => exact .refl v
  | some w =>
    rw [hv'] at hk
    cases hk
    assumption

theorem Veiled.keys (h : Veiled s s') (col : Column) (stem : Str) :
    ((s.under col stem).map fun e => e.1.2) = (s'.under col stem).map fun e => e.1.2 := by
  have hu := h.under col stem
  generalize s.under col stem = l, s'.under col stem = l' at hu
  induction hu with
  | nil => rfl
  | cons he _ ih =>
    rw [List.map_cons, List.map_cons, ih, he.1]

/-! ## Operations that are blind -/

section
variable {α β : Type}

/-- The program takes one course from stores that differ behind the veil, and answers the same. -/
def Blind (F : Prop) (p : KvM μ α) : Prop := Twins F memory Veiled Eq p p

theorem Blind.pure (a : α) : Blind F (pure a : KvM μ α) := Twins.pure rfl

theorem Blind.bind {p : KvM μ α} {f : α → KvM μ β} (hp : Blind F p) (hf : ∀ a, Blind F (f a)) :
    Blind F (p >>= f) :=
  Twins.bind hp fun a _ ha => ha ▸ hf a

theorem Blind.attempt {p : KvM μ α} (hp : Blind F p) : Blind F p.attempt := by
  have halike : ∀ r r' : Except Error α, Alike Eq r r' → r = r' := by
    intro r r' h
    cases r <;> cases r' <;> cases h <;> rfl
  intro s s' hs
  exact (Twins.attempt hp s s' hs).mono halike

theorem Blind.forM {γ : Type} {f : γ → KvM μ PUnit} (hf : ∀ x, Blind F (f x)) (l : List γ) :
    Blind F (forM l f) :=
  Twins.forM (P := Eq) (fun x _ hx => hx ▸ hf x) (List.forall₂_same.mpr fun _ _ => rfl)

end

section
variable {α : Type}

theorem twins_op (o o' : KvOp μ) {Q : o.Reply → o'.Reply → Prop}
    (ho : ∀ s s', Veiled s s' → Answered (fun r r' t t' => Alike Q r r' ∧ Veiled t t') (memory o s)
      (memory o' s')) :
    Twins F memory Veiled Q (perform o : KvM μ _) (perform o') := Twins.perform o o' ho

theorem twins_get (col : Column) (k : Str) :
    Twins F memory Veiled (Option.Rel Value.Like) (get col k : KvM μ _) (get col k) :=
  twins_op (.get col k) (.get col k) fun _ _ h => ⟨h.like (col, k), h⟩

def Unseeing (decode : Value μ → Option α) : Prop := ∀ v v', Value.Like v v' → decode v = decode v'

theorem unseeing_of {decode : Value μ → Option α} (hentry : ∀ e, decode (.entry e) = none)
    (hevent : ∀ e, decode (.event e) = none) :
    Unseeing decode := by
  intro v v' hv
  cases v with
  | entry e =>
    cases v' with
    | entry e' => rw [hentry, hentry]
    | _ => cases hv
  | event e =>
    cases v' with
    | event e' => rw [hevent, hevent]
    | _ => cases hv
  | _ => exact congrArg decode hv

theorem blind_getJson {decode : Value μ → Option α} (hd : Unseeing decode) (col : Column)
    (k : Str) : Blind F (getJson decode col k) := by
  refine Twins.bind (twins_get col k) fun v v' hv => ?_
  cases hv with
  | none => exact Twins.pure rfl
  | some hv =>
    dsimp only
    rw [hd _ _ hv]
    split
    · exact Twins.pure rfl
    · exact Twins.fail _

theorem blind_put (col : Column) (k : Str) (v : Value μ) : Blind F (put col k v) :=
  twins_op (.put col k v) (.put col k v) fun _ _ h => ⟨rfl, h.insert (.refl v) fun _ => rfl⟩

theorem twins_put (k : Str) (v v' : Value μ) (hv : v.Like v') :
    Twins F memory Veiled Eq (put .session k v) (put .session k v') :=
  twins_op (.put .session k v) (.put .session k v') fun _ _ h =>
    ⟨rfl, h.insert hv fun hc => (hc rfl).elim⟩

theorem blind_delete (col : Column) (k : Str) : Blind F (delete col k : KvM μ Bool) :=
  twins_op (.delete col k) (.delete col k) fun _ _ h => ⟨h.isSome (col, k), h.erase (col, k)⟩

theorem blind_scanKeys (col : Column) (stem : Str) :
    Blind F (scanKeys col stem : KvM μ (List Str)) :=
  twins_op (.scanKeys col stem) (.scanKeys col stem) fun _ _ h => ⟨h.keys col stem, h⟩

/-- What an unseeing decoder makes of the rows of a scan. -/
theorem blind_rows {f : Str × Value μ → Option α}
    (hf : ∀ k v v', Value.Like v v' → f (k, v) = f (k, v')) (col : Column) (stem : Str) :
    Blind F (do return (← scan col stem).filterMap f) := by
  refine Twins.bind (Q := List.Forall₂ fun row row' => row.1 = row'.1 ∧ Value.Like row.2 row'.2) ?_
    fun rows rows' hrows => ?_
  · refine twins_op (.scan col stem) (.scan col stem) fun s s' h => ⟨?_, h⟩
    show List.Forall₂ _ ((s.under col stem).map _) ((s'.under col stem).map _)
    rw [List.forall₂_map_left_iff, List.forall₂_map_right_iff]
    exact (h.under col stem).imp fun e e' he => ⟨congrArg Prod.snd he.1, he.2⟩
  · refine Twins.pure ?_
    induction hrows with
    | nil => rfl
    | @cons row row' _ _ hrow _ ih =>
      obtain ⟨k, v⟩ := row
      obtain ⟨k', v'⟩ := row'
      obtain ⟨rfl, hv⟩ := hrow
      rw [List.filterMap_cons, List.filterMap_cons, hf k v v' hv, ih]

end

/-! ## The index -/

theorem blind_stats (index : TextIndex) : Blind F (stats index : KvM μ Stats) :=
  (blind_getJson (unseeing_of (fun _ => rfl) fun _ => rfl) _ _).bind fun _ => .pure _

theorem blind_dropText (index : TextIndex) (k : Str) : Blind F (dropText index k : KvM μ Unit) := by
  refine (blind_getJson (unseeing_of (fun _ => rfl) fun _ => rfl) _ _).bind fun doc => ?_
  cases doc with
  | none => exact .pure _
  | some doc =>
    refine (Blind.forM (fun term => (blind_delete _ _).bind fun _ => .pure _) _).bind fun _ => ?_
    exact (blind_delete _ _).bind fun _ => (blind_stats index).bind fun _ => blind_put _ _ _

theorem blind_dropTextPrefix (index : TextIndex) (stem : Str) :
    Blind F (dropTextPrefix index stem : KvM μ Unit) :=
  (blind_scanKeys _ _).bind fun _ => Blind.forM (fun _ => blind_dropText index _) _

theorem blind_indexText [TextStd] (index : TextIndex) (k text : Str) (weight : ℚ) :
    Blind F (indexText index k text weight : KvM μ Unit) := by
  refine (blind_dropText index k).bind fun _ => ?_
  dsimp only
  split
  · exact .pure _
  · refine (Blind.forM (fun tf => blind_put _ _ _) _).bind fun _ => ?_
    exact (blind_put _ _ _).bind fun _ => (blind_stats index).bind fun _ => blind_put _ _ _

/-! ## The operations of a session -/

theorem blind_sessionMeta (h : Str) : Blind F (sessionMeta h : KvM μ (Option SessionMeta)) :=
  blind_getJson (unseeing_of (fun _ => rfl) fun _ => rfl) _ _

theorem blind_createSession (h : Str) (agent : AgentId) (createdBy : Str) (root : Option Str) (now : Str) :
    Blind F (createSession h agent createdBy root now : KvM μ Unit) :=
    (blind_put _ _ _).bind fun _ => blind_put _ _ _

theorem blind_truncate (h : Str) (keep : Nat) :
    Blind F (truncateSessionMessages h keep : KvM μ Unit) := by
  refine (blind_sessionMeta h).bind fun m => ?_
  cases m with
  | none => exact .pure _
  | some m =>
    refine (blind_scanKeys _ _).bind fun keys => ?_
    refine (Blind.forM (fun k => (blind_dropText .messages k).bind fun _ => (blind_delete _ _).bind
      fun _ => .pure _) _).bind fun _ => ?_
    exact blind_put _ _ _

theorem blind_compact (h archive : Str) : Blind F (appendSessionCompact h archive : KvM μ Unit) :=
  (blind_truncate h 0).bind fun _ => blind_put _ _ _

theorem blind_deleteKeys : ∀ (keys : List Str) (existed : Bool), Blind F
    (deleteKeys keys existed : KvM μ Bool)
  | [], existed => .pure existed
  | _ :: keys, existed => (blind_delete _ _).bind fun was => blind_deleteKeys keys (existed || was)

theorem blind_deleteSession (h : Str) : Blind F (deleteSession h : KvM μ Bool) := by
  have hsweep :
      Blind F (do deleteKeys (← scanKeys .session (sessionPrefix h)) false : KvM μ Bool) :=
    (blind_scanKeys _ _).bind fun keys => blind_deleteKeys keys false
  refine (blind_dropTextPrefix _ _).bind fun _ => (blind_dropTextPrefix _ _).bind fun _ =>
    (blind_sessionMeta h).bind fun m => ?_
  cases m with
  | none => exact hsweep
  | some m => exact (blind_delete _ _).bind fun _ => hsweep

theorem blind_deleteSessionsOf (agent : AgentId) : Blind F (deleteSessionsOf agent : KvM μ Nat) := by
  have hall : ∀ (handles : List Str) (n : Nat), Blind F (deleteAll handles n : KvM μ Nat) := by
    intro handles
    induction handles with
    | nil => exact fun n => .pure n
    | cons h handles ih =>
      refine fun n => (blind_deleteSession h).bind fun existed => ?_
      cases existed
      · exact ih n
      · exact ih (n + 1)
  refine Blind.bind ?_ fun handles => hall handles 0
  refine blind_rows (f := fun row => row.2.asRaw) (fun k v v' hv => ?_) _ _
  exact unseeing_of (fun _ => rfl) (fun _ => rfl) v v' hv

theorem blind_updateSessionMeta [TextStd] (h : Str) (m : SessionMeta) :
    Blind F (updateSessionMeta h m : KvM μ Unit) := by
  have htext : ∀ key text : Str, Blind F (metaText key text : KvM μ Unit) := by
    intro key text
    unfold metaText
    split
    · exact blind_dropText _ _
    · exact blind_indexText _ _ _ _
  have hindex : ∀ m : SessionMeta, Blind F (indexMetaText h m : KvM μ Unit) := by
    intro m
    rw [indexMetaText_eq]
    exact (htext _ _).bind fun _ => htext _ _
  refine (blind_sessionMeta h).bind fun stored => ?_
  cases stored with
  | none => exact (blind_put _ _ _).bind fun _ => hindex _
  | some stored => exact (blind_put _ _ _).bind fun _ => hindex _

end

/-! ## Sequences that differ behind the veil -/

/-- What is known of messages that differ only in the arguments of their tool calls and the contents
of their tool results: where there is no tool result, the text accessor gives text blocks only. -/
structure Hides [Wire μ] (differ : μ → μ → Prop) : Prop where
  role : ∀ m m', differ m m' → Wire.role m = Wire.role m'
  text : ∀ m m', differ m m' → Wire.hasToolResult m = false → Wire.text m = Wire.text m'
  toolNames : ∀ m m', differ m m' → Wire.toolNames m = Wire.toolNames m'
  hasToolResult : ∀ m m', differ m m' → Wire.hasToolResult m = Wire.hasToolResult m'

/-- Entries that differ in hidden parts only. Nothing is asked of an injected one. -/
def Corresponds (differ : μ → μ → Prop) (e e' : HistoryEntry μ) : Prop :=
  e.autoInjected = e'.autoInjected ∧ (e.autoInjected = false → differ e.message e'.message)

inductive SessionAct (μ : Type)
  | on (handle : Str) (op : SessionOp μ)
  | deleteOf (agent : AgentId)

inductive ActsAlike (differ : μ → μ → Prop) : SessionAct μ → SessionAct μ → Prop
  | append (handle now : Str) {entries entries' : List (HistoryEntry μ)} :
  List.Forall₂ (Corresponds differ) entries entries' →
      ActsAlike differ (.on handle (.append entries now)) (.on handle (.append entries' now))
  | events (handle : Str) {lines lines' : List EventLine} : lines.length = lines'.length →
      ActsAlike differ (.on handle (.events lines)) (.on handle (.events lines'))
  | same (act : SessionAct μ) : ActsAlike differ act act

section
variable [TextStd] [Wire μ] {differ : μ → μ → Prop} {F : Prop}

def SessionAct.exec : SessionAct μ → KvM μ Unit
  | .on handle op => op.exec handle
  | .deleteOf agent => do let _ ← deleteSessionsOf agent

def playAll (acts : List (SessionAct μ)) : KvM μ Unit :=
  forM acts fun act => do let _ ← act.exec.attempt

/-- An act that fails does not stop the next one. -/
theorem playAll_run (acts : List (SessionAct μ)) (s : Kv μ) :
    ∃ s', Runs False memory (playAll acts) s (.ok ()) s' := by
  have hwp : wp False memory (playAll acts) (fun _ _ => True) (fun _ _ => False) s := by
    refine wp_forM trivial fun act _ s _ => ?_
    rw [Prog.wp_bind, wp_attempt]
    exact .trivial (fun _ _ => trivial) fun _ _ => trivial
  obtain ⟨_, s', hr, -⟩ := hwp.run False
  exact ⟨s', hr⟩

omit [TextStd] in
theorem Corresponds.indexable (hd : Hides differ) {e e' : HistoryEntry μ}
    (he : Corresponds differ e e') : e.indexable = e'.indexable := by
  unfold HistoryEntry.indexable
  rw [← he.1]
  by_cases hi : e.autoInjected = true
  · rw [if_pos hi, if_pos hi]
  · have hm := he.2 (Bool.eq_false_iff.mpr hi)
    have hrole : e.role = e'.role := by
      unfold HistoryEntry.role
      rw [hd.role _ _ hm]
    rw [if_neg hi, if_neg hi, hrole, hd.toolNames _ _ hm, ← hd.hasToolResult _ _ hm]
    cases hresult : Wire.hasToolResult e.message with
    | true => simp
    | false => rw [hd.text _ _ hm hresult]

theorem twins_appendEntries (h : Str) {entries entries' : List (HistoryEntry μ)}
    (he : List.Forall₂ (fun e e' => e.indexable = e'.indexable) entries entries') : ∀ idx : Nat,
    Twins F memory Veiled Eq (appendEntries h idx entries) (appendEntries h idx entries') := by
  induction he with
  | nil => exact fun _ => .pure rfl
  | @cons e e' _ _ hee _ ih =>
    intro idx
    unfold appendEntries
    refine Twins.bind (twins_put (messageKey h idx) (.entry e.persist) (.entry e'.persist) trivial)
      fun _ _ _ => ?_
    rw [hee]
    cases e'.indexable with
    | none => exact ih (idx + 1)
    | some found => exact Twins.bind (blind_indexText _ _ _ _) fun _ _ _ => ih (idx + 1)

theorem twins_append (h now : Str) {entries entries' : List (HistoryEntry μ)}
    (he : List.Forall₂ (fun e e' => e.indexable = e'.indexable) entries entries') :
    Twins F memory Veiled Eq (appendSessionMessages h entries now)
    (appendSessionMessages h entries' now) := by
  cases he with
  | nil => exact .pure rfl
  | cons hee hes =>
    refine Twins.bind (blind_sessionMeta h) fun m m' hm => ?_
    cases hm
    cases m with
    | none => exact .fail _
    | some m =>
      refine Twins.bind (twins_appendEntries h (.cons hee hes) _) fun _ _ _ => ?_
      rw [List.length_cons, List.length_cons, hes.length_eq]
      exact blind_put _ _ _

omit [TextStd] [Wire μ] in
theorem twins_appendEvents (h : Str) : ∀ (lines lines' : List EventLine), lines.length =
    lines'.length → ∀ idx : Nat,
    Twins F memory Veiled Eq (appendEvents h idx lines : KvM μ Unit) (appendEvents h idx lines')
  | [], [], _, _ => .pure rfl
  | line :: lines, line' :: lines', hlen, idx =>
    Twins.bind (twins_put (eventKey h idx) (.event line) (.event line') trivial) fun _ _ _ =>
      twins_appendEvents h lines lines' (Nat.succ.inj hlen) (idx + 1)

omit [TextStd] [Wire μ] in
theorem twins_events (h : Str) {lines lines' : List EventLine}
    (hlen : lines.length = lines'.length) :
    Twins F memory Veiled Eq (appendSessionEvents h lines : KvM μ Unit)
    (appendSessionEvents h lines') := by
  refine Twins.bind (blind_scanKeys _ _) fun keys keys' hkeys => ?_
  rw [hkeys]
  exact twins_appendEvents h lines lines' hlen _

theorem twins_act (hd : Hides differ) {act act' : SessionAct μ} (hact : ActsAlike differ act act') :
    Twins F memory Veiled Eq act.exec act'.exec := by
  cases hact with
  | append h now he => exact twins_append h now (he.imp fun e e' hee => hee.indexable hd)
  | events h hlen => exact twins_events h hlen
  | same =>
    cases act with
    | deleteOf agent => exact (blind_deleteSessionsOf agent).bind fun _ => .pure _
    | on h op =>
      cases op with
      | create agent createdBy root now => exact blind_createSession h agent createdBy root now
      | append entries now => exact twins_append h now (List.forall₂_same.mpr fun _ _ => rfl)
      | events lines => exact twins_events h rfl
      | compact archive => exact blind_compact h archive
      | truncate keep => exact blind_truncate h keep
      | update m => exact blind_updateSessionMeta h m
      | delete => exact (blind_deleteSession h).bind fun _ => .pure _

theorem twins_playAll (hd : Hides differ) {acts acts' : List (SessionAct μ)}
    (hacts : List.Forall₂ (ActsAlike differ) acts acts') :
    Twins F memory Veiled Eq (playAll acts) (playAll acts') := by
  refine Twins.forM (fun act act' hact => ?_) hacts
  exact Twins.bind (twins_act hd hact).attempt fun _ _ _ => .pure rfl

end

/-! ## Searches -/

section
variable [TextStd] [SearchStd μ] {F : Prop}

omit [TextStd] [SearchStd μ] in
theorem blind_postings (index : TextIndex) (term : Term) :
    Blind F (postings index term : KvM μ (List (Str × Nat))) := by
  refine blind_rows (fun k v v' hv => ?_) _ _
  have hraw : Unseeing (Value.asRaw : Value μ → Option Str) :=
    unseeing_of (fun _ => rfl) fun _ => rfl
  unfold readPosting
  rw [hraw v v' hv]

omit [TextStd] in
theorem blind_scoreDocs (index : TextIndex) (stats : Stats) (df : Nat) :
    ∀ (found : List (Str × Nat)) (acc : Scores × Lens),
    Blind F (scoreDocs index stats df found acc : KvM μ (Scores × Lens))
  | [], acc => .pure acc
  | (k, tf) :: rest, (scores, known) => by
    have hlens : Blind F (lens index k known : KvM μ ((Nat × ℚ) × Lens)) := by
      unfold lens
      cases known[k]? with
      | some l => exact .pure _
      | none => exact (blind_getJson (unseeing_of (fun _ => rfl) fun _ => rfl) _
          _).bind fun _ => .pure _
    exact hlens.bind fun _ => blind_scoreDocs index stats df rest _

omit [TextStd] in
theorem blind_scoreTerms (index : TextIndex) (stats : Stats) :
    ∀ (terms : List Term) (acc : Scores × Lens),
    Blind F (scoreTerms index stats terms acc : KvM μ (Scores × Lens))
  | [], acc => .pure acc
  | term :: rest, acc => by
    refine (blind_postings index term).bind fun found => ?_
    split
    · exact blind_scoreTerms index stats rest acc
    · exact (blind_scoreDocs index stats _ found acc).bind fun acc =>
        blind_scoreTerms index stats rest acc

theorem blind_searchText (index : TextIndex) (query : Str) (limit : Nat) :
    Blind F (searchText index query limit : KvM μ (List (Str × ℚ))) := by
  unfold searchText
  dsimp only
  split
  · exact .pure _
  · refine (blind_stats index).bind fun stats => ?_
    split
    · exact .pure _
    · exact (blind_scoreTerms index stats _ _).bind fun _ => .pure _

def SessionHit.seen (hit : SessionHit) : SessionHit := { hit with window := [] }

def SameHits (hits hits' : List SessionHit) : Prop :=
  hits.map SessionHit.seen = hits'.map SessionHit.seen

variable [Wire μ]

omit [TextStd] in
theorem twins_windowItems (h : Str) : ∀ (is : List Nat) (out out' : List WindowItem), out.length =
    out'.length →
    Twins F memory Veiled (fun _ _ => True) (windowItems h is out : KvM μ (List WindowItem))
    (windowItems h is out')
  | [], _, _, _ => .pure trivial
  | i :: rest, out, out', hlen => by
    unfold windowItems
    rw [hlen]
    split
    · exact .pure trivial
    · refine Twins.bind (Q := Option.Rel fun _ _ => True) ?_ fun e e' he => ?_
      · refine Twins.bind (twins_get _ _) fun v v' hv => ?_
        cases hv with
        | none => exact .pure .none
        | @some v v' hv =>
          cases v with
          | entry e =>
            cases v' with
            | entry e' => exact .pure (.some trivial)
            | _ => cases hv
          | event e =>
            cases v' with
            | event e' => exact .fail _
            | _ => cases hv
          | _ =>
            cases hv
            exact .fail _
      · cases he with
        | none => exact twins_windowItems h rest out out' hlen
        | some _ => exact twins_windowItems h rest _ _ (by simp [hlen])

omit [TextStd] in
theorem twins_sessionHits (opts : SearchOptions) (boosts : Scores) : ∀ found : List (Str × Nat × ℚ),
    Twins F memory Veiled SameHits (sessionHits opts boosts found : KvM μ (List SessionHit))
    (sessionHits opts boosts found)
  | [] => .pure rfl
  | (h, idx, score) :: rest => by
    unfold sessionHits
    refine Twins.bind (blind_sessionMeta h) fun m m' hm => ?_
    cases hm
    cases m with
    | none => exact twins_sessionHits opts boosts rest
    | some m =>
      dsimp only
      split
      · exact twins_sessionHits opts boosts rest
      · split
        · exact twins_sessionHits opts boosts rest
        · refine Twins.bind (Blind.attempt
            (blind_getJson (unseeing_of (fun _ => rfl) fun _ => rfl) _ _))
            fun config config' hconfig => ?_
          cases hconfig
          refine Twins.bind (twins_windowItems h _ [] [] rfl) fun items items' _ => ?_
          refine Twins.bind (twins_sessionHits opts boosts rest) fun hits hits' hhits => .pure ?_
          exact congrArg₂ List.cons rfl hhits

theorem twins_searchSessions (query : Str) (opts : SearchOptions) :
    Twins F memory Veiled SameHits (searchSessions query opts : KvM μ (List SessionHit))
    (searchSessions query opts) := by
  unfold searchSessions
  refine Twins.bind (blind_searchText _ _ _) fun found found' hfound => ?_
  cases hfound
  dsimp only
  split
  · exact .pure rfl
  · refine Twins.bind ((blind_searchText _ _ _).bind fun _ => .pure _) fun boosts boosts' hboosts => ?_
    cases hboosts
    refine Twins.bind (twins_sessionHits opts boosts _) fun hits hits' hhits => .pure ?_
    have hsort : ∀ hits : List SessionHit, (hits.insertionSort fun a b => b.score ≤ a.score).map
        SessionHit.seen =
        (hits.map SessionHit.seen).insertionSort fun a b => b.score ≤ a.score :=
      fun hits => List.map_insertionSort _ _ _ _ fun _ _ _ _ => Iff.rfl
    unfold SameHits at hhits ⊢
    rw [List.map_take, List.map_take, hsort, hsort, hhits]

/-- The text column and the answers to searches are the same. -/
def SeenAlike (s s' : Kv μ) : Prop :=
  (∀ k, s'[((.text, k) : Cell)]? = s[((.text, k) : Cell)]?) ∧
    ∀ query opts, Alike SameHits (answer (searchSessions query opts) s)
    (answer (searchSessions query opts) s')

theorem Veiled.seenAlike {s s' : Kv μ} (h : Veiled s s') : SeenAlike s s' := by
  refine ⟨fun k => h.elsewhere _ (by simp), fun query opts => ?_⟩
  have hruns : ∀ s : Kv μ, Runs False memory (searchSessions query opts) s
      (answer (searchSessions query opts) s)
      (match interp memory (searchSessions query opts) s with | .ok _ t => t | .error _ t => t) := by
    intro s
    have hi := runs_interp False memory (searchSessions query opts) s
    unfold Basis.wp at hi
    unfold answer
    cases hs : interp memory (searchSessions query opts) s with
    | ok a t =>
      rw [hs] at hi
      exact hi
    | error e t =>
      rw [hs] at hi
      exact hi
  obtain ⟨r', t', hr', hq, -⟩ := TwinAt.runs (hruns s) (twins_searchSessions query opts s s' h)
  obtain ⟨rfl, -⟩ := hr'.unique (hruns s')
  exact hq

/-- What two sequences of acts differ in behind the veil leaves no trace in the index and in no
search, whether the store is sound or fails in both at the same points. -/
theorem hidden_parts_unseen {differ : μ → μ → Prop} (hd : Hides differ)
    {acts acts' : List (SessionAct μ)}
    (hacts : List.Forall₂ (ActsAlike differ) acts acts') (s₀ : Kv μ) :
    (∀ r r' s s', Runs False memory (playAll acts) s₀ r s →
      Runs False memory (playAll acts') s₀ r' s' → SeenAlike s s') ∧
      ∀ r s, Runs True memory (playAll acts) s₀ r s →
      ∃ r' s', Runs True memory (playAll acts') s₀ r' s' ∧ SeenAlike s s' := by
  constructor
  · intro r r' s s' hr hr'
    obtain ⟨r'', s'', hr'', -, hs⟩ := TwinAt.runs hr (twins_playAll hd hacts s₀ s₀ (.refl s₀))
    obtain ⟨-, rfl⟩ := hr''.unique hr'
    exact hs.seenAlike
  · intro r s hr
    obtain ⟨r', s', hr', -, hs⟩ := TwinAt.runs hr (twins_playAll hd hacts s₀ s₀ (.refl s₀))
    exact ⟨r', s', hr', hs.seenAlike⟩

end

section
open Plain

inductive SameBlock : Block → Block → Prop
  | text (role content : Str) : SameBlock (.text role content) (.text role content)
  | toolUse (name arguments arguments' : Str) : SameBlock (.toolUse name arguments)
      (.toolUse name arguments')
  | toolResult (name content content' : Str) : SameBlock (.toolResult name content)
      (.toolResult name content')

theorem hides_sameBlock : Hides SameBlock where
  role _ _ h := by cases h <;> rfl
  text _ _ h hresult := by
    cases h with
    | text role content => rfl
    | toolUse name arguments arguments' => rfl
    | toolResult name content content' => cases hresult
  toolNames _ _ h := by cases h <;> rfl
  hasToolResult _ _ h := by cases h <;> rfl

instance : SearchStd Block where
  isWhitespace := SearchStd.isWhitespace Message
  charLowercase := SearchStd.charLowercase Message
  slash_charLowercase := SearchStd.slash_charLowercase (μ := Message)
  weigh := SearchStd.weigh Message
  plus := SearchStd.plus Message
  toolName
    | .text _ _ => none
    | .toolUse name _ => some name
    | .toolResult name _ => some name

/-- A session is asked, a tool is called and returns, and the last entry is taken back. -/
def lookedUp (line arguments content : Str) : List (SessionAct Block) :=
  [.on "chat".toList (.create ⟨0⟩ [] none []),
    .on "chat".toList (.append [.user "hello".toList, (HistoryEntry.system line).inject,
      .fromMessage (.toolUse "recall".toList arguments),
      .fromMessage (.toolResult "recall".toList content),
      .assistant "done".toList none] "t1+00:00".toList),
    .on "chat".toList (.truncate 4)]

theorem hidden_parts_unseen_instance : ∃ s s' : Kv Block,
    Runs False memory (playAll (lookedUp "be brief".toList "diet".toList "no nuts".toList)) ∅ (.ok ()) s ∧
    Runs False memory (playAll (lookedUp "take care".toList "keys".toList "top drawer".toList)) ∅
    (.ok ()) s' ∧
    SeenAlike s s' := by
  have hentries : List.Forall₂ (Corresponds SameBlock)
      [.user "hello".toList, (HistoryEntry.system "be brief".toList).inject,
        .fromMessage (.toolUse "recall".toList "diet".toList),
        .fromMessage (.toolResult "recall".toList "no nuts".toList), .assistant "done".toList none]
      [.user "hello".toList, (HistoryEntry.system "take care".toList).inject,
        .fromMessage (.toolUse "recall".toList "keys".toList),
        .fromMessage (.toolResult "recall".toList "top drawer".toList),
        .assistant "done".toList none] :=
    .cons ⟨rfl, fun _ => .text _ _⟩
      (.cons ⟨rfl, fun hi => by cases hi⟩ (.cons ⟨rfl, fun _ => .toolUse _ _ _⟩
      (.cons ⟨rfl, fun _ => .toolResult _ _ _⟩ (.cons ⟨rfl, fun _ => .text _ _⟩ .nil))))
  obtain ⟨s, hr⟩ := playAll_run (lookedUp "be brief".toList "diet".toList "no nuts".toList) ∅
  obtain ⟨s', hr'⟩ := playAll_run (lookedUp "take care".toList "keys".toList "top drawer".toList) ∅
  have hacts : List.Forall₂ (ActsAlike SameBlock)
      (lookedUp "be brief".toList "diet".toList "no nuts".toList)
      (lookedUp "take care".toList "keys".toList "top drawer".toList) :=
    .cons (.same _) (.cons (.append _ _ hentries) (.cons (.same _) .nil))
  exact ⟨s, s', hr, hr', (hidden_parts_unseen hides_sameBlock hacts ∅).1 _ _ _ _ hr hr'⟩

end

end Crabtalk.Store

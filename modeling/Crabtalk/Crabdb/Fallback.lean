import Crabtalk.Crabdb.Pieces

/-!
# Replaying the whole log

When the snapshot a header names cannot be decoded, `open` replays the file
from its header on. A replay knows records only: it runs into the snapshots
that lie between them, the damaged one and those an older header named, and
reads their bytes as if they were records.
-/

open Basis

namespace Crabtalk.Crabdb

/-! ## What a log of records says -/

def Rec.applyMap (r : Rec) (m : Contents) : Contents :=
  match r.op with
  | .put => m.insert r.key r.value
  | .delete => m.erase r.key

def logMap (rs : List Rec) : Contents := rs.foldl (fun m r => r.applyMap m) ∅

theorem logMap_snoc (rs : List Rec) (r : Rec) : logMap (rs ++ [r]) = r.applyMap (logMap rs) := by
  rw [logMap, List.foldl_append]
  rfl

/-- The index a replay builds points at the records of the map. -/
theorem logMap_points (rs : List Rec) :
    ∀ k : Key, Option.Rel (RecAt (encodeLog rs) k) (replayLog rs ∅ headerLen)[k]? (logMap rs)[k]? := by
  induction rs using List.reverseRecOn with
  | nil =>
    intro k
    simp only [replayLog, logMap, List.foldl_nil, Std.ExtTreeMap.getElem?_empty]
    exact .none
  | append_singleton rs r ih =>
    intro k
    have hold : Option.Rel (RecAt (encodeLog rs ++ r.bytes) k) (replayLog rs ∅ headerLen)[k]?
        (logMap rs)[k]? := by
      have := ih k
      cases hi : (replayLog rs ∅ headerLen)[k]? <;> cases hm : (logMap rs)[k]? <;> rw [hi, hm]
        at this <;> cases this
      · exact .none
      · rename_i hr
        exact .some (hr.append _)
    rw [replayLog_snoc, logMap_snoc, encodeLog_snoc, Rec.apply, Rec.applyMap]
    cases hop : r.op with
    | put =>
      simp only [find_insert]
      split
      · rename_i hk
        subst hk
        refine .some ?_
        rw [Rec.bytes, hop]
        exact RecAt.last _ r.key r.value
      · exact hold
    | delete =>
      simp only [find_erase]
      split
      · exact .none
      · exact hold

theorem logMap_fits (rs : List Rec) : ∀ (k : Key) (v : Bytes), (logMap rs)[k]? = some v →
    Fits k.2 v := by
  induction rs using List.reverseRecOn with
  | nil =>
    intro k v h
    simp [logMap] at h
  | append_singleton rs r ih =>
    intro k v h
    rw [logMap_snoc, Rec.applyMap] at h
    cases hop : r.op with
    | put =>
      simp only [hop, find_insert] at h
      split at h
      · rename_i hk
        cases h
        rw [← hk]
        exact r.fits
      · exact ih k v h
    | delete =>
      simp only [hop, find_erase] at h
      split at h
      · cases h
      · exact ih k v h

/-! ## Opening by replay -/

/-- Opening the file works, and every get then answers as `m` does. -/
def Rebuilt (m : Contents) (path : PathBuf) (options : Options) (w : World) : Prop :=
  ∃ i w', openWith path options w = .ok i w' ∧
    ∀ col key, ∃ s', exec (.get col key) ⟨i, w'⟩ = .ok (.value m[(col, key)]?) s'

section
variable {path : PathBuf} {w : World}

/-- A get answers what the record says that the index points at. -/
theorem get_answers {l : Layout} {m : Contents} {i : Inner} (hd : w.disk i.path = some l.bytes)
    (hpoints : ∀ k : Key, Option.Rel (RecAt l.body k) i.index[k]? m[k]?)
    (hfits : ∀ (k : Key) (v : Bytes), m[k]? = some v → Fits k.2 v) (col : UInt8) (key : Bytes) :
    exec (.get col key) ⟨i, w⟩ = .ok (.value m[(col, key)]?) ⟨i, w⟩ := by
  have hpoint := hpoints (col, key)
  have hspec : wp (exec (.get col key)) (fun a s' => a = .value m[(col, key)]? ∧ s' = ⟨i, w⟩)
      (fun _ _ => False) ⟨i, w⟩ := by
    rw [exec, wp_bind, getKey, wp_bind, wp_get]
    simp only
    cases hk : i.index[(col, key)]? with
    | none =>
      cases hm : m[(col, key)]? with
      | none => exact ⟨rfl, rfl⟩
      | some v =>
        rw [hk, hm] at hpoint
        cases hpoint
    | some off =>
      cases hm : m[(col, key)]? with
      | none =>
        rw [hk, hm] at hpoint
        cases hpoint
      | some v =>
        rw [hk, hm] at hpoint
        cases hpoint with
        | some hrec =>
          simp only
          rw [wp_io]
          exact wp_readValue hd hrec (hfits _ v hm) ⟨rfl, rfl⟩
  unfold wp at hspec
  cases hx : exec (.get col key) ⟨i, w⟩ with
  | ok a s' =>
    rw [hx] at hspec
    rw [hspec.1, hspec.2]
  | error e s' =>
    rw [hx] at hspec
    exact hspec.elim

theorem get_replayed {h : Header} {junk : Bytes} {rs : List Rec} {i : Inner}
    (hd : w.disk path = some (⟨h, encodeLog rs, junk⟩ : Layout).bytes) (hp : i.path = path)
    (hi : i.index = replayLog rs ∅ headerLen) (col : UInt8) (key : Bytes) :
    exec (.get col key) ⟨i, w⟩ = .ok (.value (logMap rs)[(col, key)]?) ⟨i, w⟩ := by
  refine get_answers (l := ⟨h, encodeLog rs, junk⟩) (by rw [hp]; exact hd) ?_
    (logMap_fits rs) col key
  rw [hi]
  exact logMap_points rs

/-- A device that never refuses, and a header whose snapshot is not read: opening is the replay of
the whole file. -/
theorem wp_openWith_replay {l : Layout} (options : Options) (hd : w.disk path = some l.bytes)
    (hb : w.budget = none)
    (ha : l.header.indexAt < 256 ^ 8) (hl : l.header.indexLen < 256 ^ 8)
    (hload : loadSnapshot w.memory l.bytes l.header = .ok (∅, headerLen)) :
    wp (openWith path options)
      (fun i w' => i.path = path ∧ w'.disk path = some l.bytes ∧
        ∃ d e, replay (l.bytes.drop headerLen).length ∅ 0 headerLen (l.bytes.drop headerLen) =
        .ok (i.index, d, e))
      (fun _ _ => ∃ e, replay (l.bytes.drop headerLen).length ∅ 0 headerLen
        (l.bytes.drop headerLen) = .error e) w := by
  refine wp_openWith_read options hd ha hl (fun b => ?_) fun hne => absurd hb hne
  rw [hload]
  dsimp only
  split
  · rename_i index d e hr
    exact ⟨rfl, World.store_self .., d, e, hr⟩
  · rename_i e hr
    exact ⟨e, hr⟩

/-- The replay gives back `m` exactly when what follows the records in front reads as records, and
then as one cut short, and these records take the map of the ones in front to `m`. -/
theorem rebuilt_iff {h : Header} {front : List Rec} {t : Bytes} (m : Contents) (options : Options)
    (hd : w.disk path = some (⟨h, encodeLog front ++ t, []⟩ : Layout).bytes) (hb : w.budget = none)
    (ha : h.indexAt < 256 ^ 8) (hl : h.indexLen < 256 ^ 8)
    (hload : loadSnapshot w.memory (⟨h, encodeLog front ++ t, []⟩ : Layout).bytes h =
      .ok (∅, headerLen)) :
    Rebuilt m path options w ↔
      ∃ log junk, t = encodeLog log ++ junk ∧ decodeRecord junk = .ok none ∧
      logMap (front ++ log) = m := by
  have hspec := wp_openWith_replay options hd hb ha hl hload
  have hdrop : (⟨h, encodeLog front ++ t, []⟩ : Layout).bytes.drop headerLen =
      encodeLog front ++ t := by
    rw [Layout.bytes, List.append_nil]
    exact List.drop_left' (Header.length_encode h)
  obtain ⟨fuel, hfuel, hreplay⟩ := replay_append front (encodeLog front ++ t).length ∅ 0 headerLen t
      (Nat.le_refl _)
  rw [hdrop, hreplay] at hspec
  -- The same file, with the records that were read as its body.
  have hfile : ∀ {log : List Rec} {junk : Bytes}, t = encodeLog log ++ junk →
      (⟨h, encodeLog front ++ t, []⟩ : Layout).bytes =
      (⟨h, encodeLog (front ++ log), junk⟩ : Layout).bytes := by
    intro log junk ht
    simp only [Layout.bytes, ht, encodeLog, List.flatMap_append, List.append_assoc, List.append_nil]
  unfold wp at hspec
  constructor
  · rintro ⟨i, w', hopen, hget⟩
    rw [hopen] at hspec
    obtain ⟨hp, hd', d, e, hr⟩ := hspec
    obtain ⟨log, junk, ht, hj, hix⟩ := replay_sound fuel hfuel hr
    refine ⟨log, junk, ht, hj, map_ext fun k => ?_⟩
    rw [← replayLog_append] at hix
    rw [hfile ht] at hd'
    obtain ⟨s', hs'⟩ := hget k.1 k.2
    rw [get_replayed hd' hp hix] at hs'
    simp only [EStateM.Result.ok.injEq, Answer.value.injEq] at hs'
    exact hs'.1
  · rintro ⟨log, junk, ht, hj, hm⟩
    have hr := replay_log hj log fuel (replayLog front ∅ headerLen) (0 + countLog front ∅ headerLen)
      (headerLen + (encodeLog front).length) (by rw [← ht]; exact hfuel)
    rw [← ht] at hr
    cases hopen : openWith path options w with
    | ok i w' =>
      rw [hopen] at hspec
      obtain ⟨hp, hd', d, e, hr'⟩ := hspec
      rw [hr] at hr'
      have hix : i.index = replayLog (front ++ log) ∅ headerLen := by
        rw [replayLog_append]
        simp only [Except.ok.injEq, Prod.mk.injEq] at hr'
        exact hr'.1.symm
      rw [hfile ht] at hd'
      refine ⟨i, w', hopen, fun col key => ⟨⟨i, w'⟩, ?_⟩⟩
      rw [get_replayed hd' hp hix, hm]
    | error e w' =>
      rw [hopen] at hspec
      obtain ⟨e', he'⟩ := hspec
      rw [hr] at he'
      cases he'

/-- Opening ends where the memory for a snapshot cannot be had. -/
theorem not_rebuilt_of_abort {l : Layout} (m : Contents) (options : Options)
    (hd : w.disk path = some l.bytes) (hb : w.budget = none)
    (ha : l.header.indexAt < 256 ^ 8) (hl : l.header.indexLen < 256 ^ 8)
    (hload : loadSnapshot w.memory l.bytes l.header = .error .abort) : ¬ Rebuilt m path options w := by
  rintro ⟨i, w', hopen, -⟩
  have hspec : wp (openWith path options) (fun _ _ => False) (fun _ _ => True) w := by
    refine wp_openWith_read options hd ha hl (fun b => ?_) fun hne => absurd hb hne
    rw [hload]
    trivial
  unfold wp at hspec
  rw [hopen] at hspec
  exact hspec

end

/-! ## A damaged snapshot -/

def front : List Piece → List Rec
  | .record r :: ps => r :: front ps
  | _ => []

theorem front_split (base : Index) (behind : List Piece) :
    ∀ ps : List Piece, ∃ rest, pieceBytes ps = encodeLog (front (ps ++ .snapshot base :: behind)) ++ rest
  | [] => ⟨[], rfl⟩
  | .snapshot index :: ps => ⟨pieceBytes (.snapshot index :: ps), rfl⟩
  | .record r :: ps => by
    obtain ⟨rest, hrest⟩ := front_split base behind ps
    refine ⟨rest, ?_⟩
    rw [pieceBytes_cons, hrest, List.cons_append, front]
    simp [encodeLog, Piece.bytes]

def damaged (s : Db) (x : Bytes) : Bytes :=
  (s.world.bytes s.inner.path).take s.header.indexAt ++
    (x ++ (s.world.bytes s.inner.path).drop (s.header.indexAt + s.header.indexLen))

/-- The header names a snapshot, and with `x` in its place it cannot be decoded. A piece shorter
than the snapshot is the end of its file. -/
structure Unreadable (s : Db) (x : Bytes) : Prop where
  named : 0 < s.header.indexLen
  length : x.length = s.header.indexLen ∨
    x.length < s.header.indexLen ∧ (s.world.bytes s.inner.path).length ≤ s.header.indexAt +
    s.header.indexLen
  undecoded : (readAt (damaged s x) s.header.indexAt s.header.indexLen).bind decodeIndex = none

instance (s : Db) (x : Bytes) : Decidable (Unreadable s x) :=
  decidable_of_iff (0 < s.header.indexLen ∧ (x.length = s.header.indexLen ∨
      x.length < s.header.indexLen ∧ (s.world.bytes s.inner.path).length ≤ s.header.indexAt +
      s.header.indexLen) ∧
      (readAt (damaged s x) s.header.indexAt s.header.indexLen).bind decodeIndex = none)
    ⟨fun ⟨hn, hl, hu⟩ => ⟨hn, hl, hu⟩, fun h => ⟨h.named, h.length, h.undecoded⟩⟩

/-- There is room for as many entries as the bytes in its place say there are. -/
def Reservable (s : Db) (x : Bytes) : Prop :=
  ∀ buf ∈ readAt (damaged s x) s.header.indexAt s.header.indexLen, reservation buf ≤
    s.world.memory.room buf.length

instance (s : Db) (x : Bytes) : Decidable (Reservable s x) := by
  unfold Reservable
  infer_instance

def Db.damage (s : Db) (x : Bytes) : World :=
  { s.world.store s.inner.path (some (damaged s x)) with budget := none }

def Image.firstSnapshot (I : Image) : Nat := headerLen + (encodeLog (front I.pieces)).length

section
variable {I : Image} {s : Db}

/-- The damage lies behind the records in front of the first snapshot. -/
theorem Shows.damaged_split (h : Shows I s) (hn : 0 < s.header.indexLen) (x : Bytes) :
    damaged s x = (⟨I.header, encodeLog (front I.pieces) ++ (damaged s x).drop I.firstSnapshot,
      []⟩ : Layout).bytes := by
  obtain ⟨inner, header, pieces, map⟩ := I
  have hw : Written pieces header inner.index := h.sound.written
  generalize inner.index = ix at hw
  have hhead := h.header
  have hbytes := h.bytes
  rw [hhead] at hn
  simp only at hn hhead
  cases hw with
  | whole rs => exact absurd hn (Nat.lt_irrefl 0)
  | snap ps base rs hcount hfit =>
    let hd : Header := ⟨headerLen + (pieceBytes ps).length, (encodeIndex base.toList).length⟩
    obtain ⟨rest, hrest⟩ := front_split base (rs.map .record) ps
    have hfile : s.world.bytes s.inner.path = (hd.encode ++ pieceBytes ps) ++
        (encodeIndex base.toList ++ encodeLog rs) := by
      rw [hbytes]
      simp only [Image.layout, Layout.bytes, pieceBytes_append, pieceBytes_cons,
        pieceBytes_records, Piece.bytes,
        List.append_assoc, List.append_nil, hd]
    have hat : (hd.encode ++ pieceBytes ps).length = headerLen + (pieceBytes ps).length := by
      rw [List.length_append, Header.length_encode]
    have hdamaged : damaged s x =
        (hd.encode ++ encodeLog (front (ps ++ .snapshot base :: rs.map .record))) ++
        (rest ++ (x ++ encodeLog rs)) := by
      rw [damaged, hhead, hfile]
      simp only
      rw [← hat, List.take_left, List.drop_length_add_append, List.drop_left, hrest]
      simp only [List.append_assoc]
    have hdrop : (damaged s x).drop
        (Image.firstSnapshot ⟨inner, hd, ps ++ .snapshot base :: rs.map .record, map⟩) =
        rest ++ (x ++ encodeLog rs) := by
      rw [hdamaged]
      exact List.drop_left' (by rw [List.length_append, Header.length_encode]; rfl)
    rw [hdrop, hdamaged]
    simp only [Layout.bytes, List.append_assoc, List.append_nil, hd]

/-- With a snapshot it cannot decode, opening starts at the header, unless it ends before it decodes. -/
theorem Unreadable.load {x : Bytes} (hx : Unreadable s x) :
    loadSnapshot s.world.memory (damaged s x) s.header =
    if Reservable s x then .ok (∅, headerLen) else .error .abort := by
  have hnone := hx.undecoded
  rw [loadSnapshot, if_pos hx.named]
  cases hread : readAt (damaged s x) s.header.indexAt s.header.indexLen with
  | none =>
    rw [if_pos]
    intro buf hbuf
    rw [hread] at hbuf
    cases hbuf
  | some buf =>
    rw [hread, Option.bind_some] at hnone
    have hiff : Reservable s x ↔ ¬ s.world.memory.room buf.length < reservation buf := by
      unfold Reservable
      rw [hread]
      simp
    simp only [hnone]
    by_cases hroom : s.world.memory.room buf.length < reservation buf
    · rw [if_pos hroom, if_neg fun h => hiff.mp h hroom]
    · rw [if_neg hroom, if_pos (hiff.mpr hroom)]

/-- The intact file opens to the map of its image. -/
theorem Shows.rebuilt (h : Shows I s) (options : Options) :
    Rebuilt I.map s.inner.path options { s.world with budget := none } := by
  obtain ⟨index, replayFrom, hload, hreplay⟩ := h.sound.written.load s.world.memory
  have hsmall := h.sound.stored.header_lt
  have hopen : wp (openWith s.inner.path options)
      (fun i w' => i.path = s.inner.path ∧ i.index = I.inner.index ∧
        w'.disk s.inner.path = some I.layout.bytes)
      (fun _ _ => False) { s.world with budget := none } := by
    refine wp_openWith_read (l := I.layout) options h.holds.disk hsmall.1 hsmall.2 (fun b => ?_)
      fun hne => hne rfl
    have hr : replay (I.layout.bytes.drop replayFrom).length index 0 replayFrom
        (I.layout.bytes.drop replayFrom) =
        .ok (I.inner.index, (Image.tally I.pieces).counted,
          headerLen + (pieceBytes I.pieces).length) := hreplay
    rw [show loadSnapshot s.world.memory I.layout.bytes I.layout.header =
      .ok (index, replayFrom) from hload]
    dsimp only
    rw [hr]
    exact ⟨rfl, rfl, World.store_self ..⟩
  unfold wp at hopen
  cases hx : openWith s.inner.path options { s.world with budget := none } with
  | ok i w' =>
    rw [hx] at hopen
    obtain ⟨hp, hi, hd⟩ := hopen
    refine ⟨i, w', hx, fun col key => ⟨⟨i, w'⟩, ?_⟩⟩
    rw [← hp] at hd
    refine get_answers hd ?_ h.sound.fitting col key
    rw [hi]
    exact h.sound.stored.points
  | error e w' =>
    rw [hx] at hopen
    exact hopen.elim

/-- A log that starts with bytes that are not a whole record is empty. -/
theorem encodeLog_eq_nil {log : List Rec} {junk t : Bytes} (ht : t = encodeLog log ++ junk)
    (h : ∀ r, decodeRecord t ≠ .ok (some r)) : log = [] := by
  cases log with
  | nil => rfl
  | cons r log =>
    have hcons : t = encodeRecord r.op r.key.1 r.key.2 r.value ++ (encodeLog log ++ junk) := by
      rw [ht]
      simp [encodeLog, Rec.bytes]
    rw [hcons] at h
    exact absurd (decodeRecord_encode r.op r.key.1 r.fits _) (h _)

end

/-- With its snapshot damaged a file opens to the map it stores exactly when there is room for the
entries the damaged snapshot says it holds, and the bytes of the file from its first snapshot on,
the damaged ones among them, read as records and then as one cut short, and these take the map of
the records in front to the stored one. Where they read as a record cut short at once, that is
when the records in front have the stored map; where they start with a byte that is no operation,
never. -/
theorem fallback_iff {path : PathBuf} {options : Options} {cs : List Call} {w : World} {s : Db}
    (hext : path.extension ≠ some "tmp") (hfresh : (w.bytes path).length < headerLen)
    (hf : FitsRun ∅ (cs.map .call)) (hr : reach path options cs w = some s) {x : Bytes}
    (hx : Unreadable s x)
    (options' : Options) :
    Rebuilt ((Image.fresh path options).run cs).map s.inner.path options'
    { s.world with budget := none } ∧
      (Rebuilt ((Image.fresh path options).run cs).map s.inner.path options' (s.damage x) ↔
        Reservable s x ∧ ∃ log junk, (damaged s x).drop
        ((Image.fresh path options).run cs).firstSnapshot = encodeLog log ++ junk ∧
          decodeRecord junk = .ok none ∧
          logMap (front ((Image.fresh path options).run cs).pieces ++ log) =
          ((Image.fresh path options).run cs).map) ∧
      (decodeRecord ((damaged s x).drop ((Image.fresh path options).run cs).firstSnapshot) = .ok none →
        (Rebuilt ((Image.fresh path options).run cs).map s.inner.path options' (s.damage x) ↔
          Reservable s x ∧ logMap (front ((Image.fresh path options).run cs).pieces) =
          ((Image.fresh path options).run cs).map)) ∧
      (∀ b, ((damaged s x).drop ((Image.fresh path options).run cs).firstSnapshot).head? = some b →
        Op.fromByte b = none →
        ¬ Rebuilt ((Image.fresh path options).run cs).map s.inner.path options' (s.damage x)) := by
  have h := reach_shows hext hfresh hf hr
  generalize (Image.fresh path options).run cs = I at h ⊢
  -- the damaged file is the log in front of the first snapshot, and bytes behind it
  have hsmall := h.sound.stored.header_lt
  have hsplit := h.damaged_split hx.named x
  have hd : (s.damage x).disk s.inner.path =
      some (⟨I.header, encodeLog (front I.pieces) ++ (damaged s x).drop I.firstSnapshot, []⟩ :
        Layout).bytes := by
    rw [← hsplit]
    exact World.store_self ..
  have hload : loadSnapshot s.world.memory
      (⟨I.header, encodeLog (front I.pieces) ++ (damaged s x).drop I.firstSnapshot, []⟩ :
        Layout).bytes I.header =
        if Reservable s x then .ok (∅, headerLen) else .error .abort := by
    rw [← hsplit, ← h.header]
    exact hx.load
  have hiff : Rebuilt I.map s.inner.path options' (s.damage x) ↔ Reservable s x ∧ ∃ log junk,
      (damaged s x).drop I.firstSnapshot = encodeLog log ++ junk ∧ decodeRecord junk = .ok none ∧
        logMap (front I.pieces ++ log) = I.map := by
    by_cases hroom : Reservable s x
    · rw [if_pos hroom] at hload
      rw [rebuilt_iff I.map options' hd rfl hsmall.1 hsmall.2 hload]
      exact (and_iff_right hroom).symm
    · rw [if_neg hroom] at hload
      constructor
      · exact fun hr => absurd hr (not_rebuilt_of_abort I.map options' hd rfl hsmall.1
          hsmall.2 hload)
      · exact fun hr => absurd hr.1 hroom
  refine ⟨h.rebuilt options', hiff, fun htorn => ?_, fun b hb hop => ?_⟩
  · rw [hiff]
    constructor
    · intro ⟨hroom, log, junk, ht, hj, hm⟩
      -- a record cut short leaves no log to read
      have hnil := encodeLog_eq_nil ht fun r hr => by
        rw [htorn] at hr
        cases hr
      rw [hnil, List.append_nil] at hm
      exact ⟨hroom, hm⟩
    · intro ⟨hroom, hm⟩
      exact ⟨hroom, [], _, rfl, htorn, by rw [List.append_nil]; exact hm⟩
  · rw [hiff]
    intro ⟨_, log, junk, ht, hj, hm⟩
    -- a byte that names no operation stops the replay at once
    have herr : decodeRecord ((damaged s x).drop I.firstSnapshot) =
        .error (.bail s!"crabdb: unknown record op {b}") := by
      rw [decodeRecord, hb]
      simp only [hop]
    have hnil := encodeLog_eq_nil ht fun r hr => by
      rw [herr] at hr
      cases hr
    rw [hnil] at ht
    have hjunk : (damaged s x).drop I.firstSnapshot = junk := ht
    rw [hjunk, hj] at herr
    cases herr

/-- A file of one key, and in its snapshot the key length damaged. -/
theorem fallback_instance :
    ∃ s, reach ⟨"/", "store", some "crmem"⟩ .default [.put 1 [7] [5], .checkpoint]
    ⟨fun _ => none, none, .plain⟩ = some s ∧
      Rebuilt ((Image.fresh ⟨"/", "store", some "crmem"⟩ .default).run
        [.put 1 [7] [5], .checkpoint]).map s.inner.path .default
        (s.damage [1, 0, 0, 0, 1, 255, 255, 255, 255, 7, 32, 0, 0, 0, 0, 0, 0, 0]) := by
  refine ⟨_, (Option.some_get (by decide +kernel)).symm, ?_⟩
  refine ((fallback_iff (by decide) (by decide) (by decide +kernel) (Option.some_get _).symm
    (by decide +kernel) .default).2.2.1 ?_).mpr ?_
  · decide +kernel
  · exact ⟨by decide +kernel, Std.ExtTreeMap.toList_inj.mp (by decide +kernel)⟩

/-- With two keys the replay takes the damaged snapshot for a record of an operation 2. With one it
takes it for a record cut short, and what was put behind the snapshot is lost; nor does it get past
the intact snapshot of an older header. A count of a thousand million entries ends the process
before any of them is read. -/
theorem fallback_fails :
    (reach ⟨"/", "store", some "crmem"⟩ .default [.put 1 [7] [5], .put 1 [8] [6], .checkpoint]
      ⟨fun _ => none, none, .plain⟩).map
        (fun s => (decide (Unreadable s (2 :: 0 :: 0 :: 0 :: List.replicate 28 255)),
          session s.inner.path .default [.call (.get 1 [7])]
          (s.damage (2 :: 0 :: 0 :: 0 :: List.replicate 28 255)))) =
        some (true, [.error (.bail "crabdb: unknown record op 2")]) ∧
      (reach ⟨"/", "store", some "crmem"⟩ .default [.put 1 [7] [5], .checkpoint, .put 1 [8] [6]]
        ⟨fun _ => none, none, .plain⟩).map
        (fun s => (decide (Unreadable s (1 :: 0 :: 0 :: 0 :: List.replicate 14 255)),
          session s.inner.path .default [.call (.get 1 [7]), .call (.get 1 [8])]
            (s.damage (1 :: 0 :: 0 :: 0 :: List.replicate 14 255)))) =
        some (true, [.ok .done, .ok (.value (some [5])), .ok (.value none)]) ∧
      (reach ⟨"/", "store", some "crmem"⟩ .default [.put 1 [7] [5], .put 1 [8] [6], .checkpoint,
        .delete 1 [8], .checkpoint]
        ⟨fun _ => none, none, .plain⟩).map
        (fun s => (decide (Unreadable s (1 :: 0 :: 0 :: 0 :: List.replicate 14 255)),
          session s.inner.path .default [.call (.get 1 [7])]
          (s.damage (1 :: 0 :: 0 :: 0 :: List.replicate 14 255)))) =
        some (true, [.error (.bail "crabdb: unknown record op 2")]) ∧
      (reach ⟨"/", "store", some "crmem"⟩ .default [.put 1 [7] [5], .checkpoint]
        ⟨fun _ => none, none, .plain⟩).map
        (fun s => (decide (Unreadable s [0, 202, 154, 59, 1, 1, 0, 0, 0, 7, 32, 0, 0, 0, 0, 0, 0, 0]),
          session s.inner.path .default [.call (.get 1 [7])]
            (s.damage [0, 202, 154, 59, 1, 1, 0, 0, 0, 7, 32, 0, 0, 0, 0, 0, 0, 0]))) =
        some (true, [.error .abort]) := by
  refine ⟨?_, ?_, ?_, ?_⟩
  · decide +kernel
  · decide +kernel
  · decide +kernel
  · decide +kernel

end Crabtalk.Crabdb

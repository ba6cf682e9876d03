import Crabtalk.Crabdb.Runs

/-!
# A file, piece by piece

An `Image` is a file as the list of what was written to it, records and
snapshots, next to what the store holds in memory. Each call has its step on
images, and a store that is never stopped shows the image of its calls, byte
for byte and counter for counter.
-/

open Basis

namespace Crabtalk.Crabdb

inductive Piece
  | record (r : Rec)
  | snapshot (index : Index)

namespace Piece

def bytes : Piece → Bytes
  | record r => r.bytes
  | snapshot index => encodeIndex index.toList

end Piece

def pieceBytes (ps : List Piece) : Bytes := ps.flatMap Piece.bytes

@[simp] theorem pieceBytes_append (ps qs : List Piece) :
    pieceBytes (ps ++ qs) = pieceBytes ps ++ pieceBytes qs := by
  simp [pieceBytes]

@[simp] theorem pieceBytes_cons (p : Piece) (ps : List Piece) :
    pieceBytes (p :: ps) = p.bytes ++ pieceBytes ps := by
  simp [pieceBytes]

theorem pieceBytes_snoc (ps : List Piece) (p : Piece) :
    pieceBytes (ps ++ [p]) = pieceBytes ps ++ p.bytes := by
  simp [pieceBytes]

theorem pieceBytes_records (rs : List Rec) : pieceBytes (rs.map .record) = encodeLog rs := by
  rw [pieceBytes, encodeLog, List.flatMap_map]
  rfl

def PieceAt (ps : List Piece) (p : Piece) (off : Nat) : Prop :=
  ∃ before behind, ps = before ++ p :: behind ∧ off = headerLen + (pieceBytes before).length

namespace PieceAt

variable {ps : List Piece} {p q : Piece} {off off' : Nat}

theorem append (h : PieceAt ps p off) (qs : List Piece) : PieceAt (ps ++ qs) p off := by
  obtain ⟨before, behind, rfl, hoff⟩ := h
  exact ⟨before, behind ++ qs, by simp, hoff⟩

theorem last (ps : List Piece) (p : Piece) :
    PieceAt (ps ++ [p]) p (headerLen + (pieceBytes ps).length) :=
  ⟨ps, [], rfl, rfl⟩

theorem within (h : PieceAt ps p off) : headerLen ≤ off ∧
    off + p.bytes.length ≤ headerLen + (pieceBytes ps).length := by
  obtain ⟨before, behind, rfl, rfl⟩ := h
  simp only [pieceBytes_append, pieceBytes_cons, List.length_append]
  omega

/-- Two pieces of a file are the same one, or one ends where or before the other starts. -/
theorem apart (hp : PieceAt ps p off) (hq : PieceAt ps q off') :
    p = q ∧ off = off' ∨ off + p.bytes.length ≤ off' ∨ off' + q.bytes.length ≤ off := by
  obtain ⟨a, b, rfl, rfl⟩ := hp
  obtain ⟨c, d, hcd, rfl⟩ := hq
  rcases List.append_eq_append_iff.mp hcd with ⟨e, hc, hb⟩ | ⟨e, ha, hd⟩
  · cases e with
    | nil =>
      simp only [List.nil_append, List.cons.injEq] at hb
      simp only [List.append_nil] at hc
      exact .inl ⟨hb.1, by rw [hc]⟩
    | cons x e =>
      simp only [List.cons_append, List.cons.injEq] at hb
      refine .inr (.inl ?_)
      rw [hc, hb.1, pieceBytes_append, pieceBytes_cons, List.length_append, List.length_append]
      omega
  · cases e with
    | nil =>
      simp only [List.nil_append, List.cons.injEq] at hd
      simp only [List.append_nil] at ha
      exact .inl ⟨hd.1.symm, by rw [ha]⟩
    | cons x e =>
      simp only [List.cons_append, List.cons.injEq] at hd
      refine .inr (.inr ?_)
      rw [ha, hd.1, pieceBytes_append, pieceBytes_cons, List.length_append, List.length_append]
      omega

theorem recAt {r : Rec} (hop : r.op = .put) (h : PieceAt ps (.record r) off) :
    RecAt (pieceBytes ps) r.key off r.value := by
  obtain ⟨before, behind, rfl, hoff⟩ := h
  refine ⟨pieceBytes before, pieceBytes behind, ?_, hoff⟩
  rw [pieceBytes_append, pieceBytes_cons, Piece.bytes, Rec.bytes, hop]

end PieceAt

/-- The header names the last snapshot of the file, and the index is that
snapshot with the records behind it. -/
inductive Written : List Piece → Header → Index → Prop
  | whole (rs : List Rec) : Written (rs.map .record) .default (replayLog rs ∅ headerLen)
  | snap (ps : List Piece) (base : Index) (rs : List Rec) (hn : base.toList.length < 256 ^ 4)
      (hfit : ∀ e ∈ base.toList, EntryFits e) :
      Written (ps ++ .snapshot base :: rs.map .record)
        ⟨headerLen + (pieceBytes ps).length, (encodeIndex base.toList).length⟩
        (replayLog rs base (headerLen + (pieceBytes ps).length + (encodeIndex base.toList).length))

namespace Written

variable {ps : List Piece} {h : Header} {ix : Index}

theorem record (hw : Written ps h ix) (r : Rec) :
    Written (ps ++ [.record r]) h (r.apply ix (headerLen + (pieceBytes ps).length)) := by
  cases hw with
  | whole rs =>
    have := Written.whole (rs ++ [r])
    rw [replayLog_snoc, List.map_append] at this
    rw [pieceBytes_records]
    exact this
  | snap ps base rs hn hfit =>
    have := Written.snap ps base (rs ++ [r]) hn hfit
    rw [replayLog_snoc, List.map_append] at this
    rw [pieceBytes_append, pieceBytes_cons, pieceBytes_records]
    simp only [List.append_assoc, List.cons_append, List.length_append, Piece.bytes, Nat.add_assoc] at this ⊢
    exact this

theorem snapshot (ps : List Piece) {ix : Index} (hn : ix.toList.length < 256 ^ 4)
    (hfit : ∀ e ∈ ix.toList, EntryFits e) :
    Written (ps ++ [.snapshot ix]) ⟨headerLen + (pieceBytes ps).length,
      (encodeIndex ix.toList).length⟩ ix :=
  .snap ps ix [] hn hfit

end Written

/-! ## Images -/

structure Image where
  inner : Inner
  header : Header
  pieces : List Piece
  map : Contents

namespace Image

def layout (I : Image) : Layout := ⟨I.header, pieceBytes I.pieces, []⟩

def liveLen (I : Image) (k : Key) : Nat :=
  match I.map[k]? with
  | some v => 10 + k.2.length + v.length
  | none => 0

def fresh (path : PathBuf) (options : Options) : Image :=
  ⟨{ path, index := ∅, endAt := headerLen, dead := 0, options }, .default, [], ∅⟩

def write (I : Image) (r : Rec) : Image where
  inner := { I.inner with
    index := r.apply I.inner.index I.inner.endAt
    endAt := I.inner.endAt + r.bytes.length
    dead := I.inner.dead + I.liveLen r.key }
  header := I.header
  pieces := I.pieces ++ [.record r]
  map := match r.op with
    | .put => I.map.insert r.key r.value
    | .delete => I.map.erase r.key

def put (I : Image) (k : Key) (v : Bytes) : Image :=
  if h : Fits k.2 v then I.write ⟨.put, k, v, h⟩ else I

def delete (I : Image) (k : Key) : Image :=
  if h : Fits k.2 [] then I.write ⟨.delete, k, [], h⟩ else I

def snapshot (I : Image) : Image :=
  if I.inner.options.snapshot then
    { I with
      inner := { I.inner with endAt := I.inner.endAt + (encodeIndex I.inner.index.toList).length }
      header := ⟨I.inner.endAt, (encodeIndex I.inner.index.toList).length⟩
      pieces := I.pieces ++ [.snapshot I.inner.index] }
  else I

def zero (I : Image) : Image := { I with inner := { I.inner with dead := 0 } }

def copied (I : Image) : Image :=
  I.map.toList.foldl (fun J e => J.put e.1 e.2) (fresh I.inner.path I.inner.options)

def compact (I : Image) : Image := I.copied.zero.snapshot

def settle (I : Image) : Image := if compactDue I.inner then I.compact else I

structure Tally where
  index : Index
  pos : Nat
  counted : Nat
  /-- The records that brought in a key. -/
  brought : Nat

/-- A snapshot of the file is where a replay would start: what lies in front of it is not looked
at. -/
def Tally.next (t : Tally) : Piece → Tally
  | .record r =>
    { index := r.apply t.index t.pos
      pos := t.pos + r.bytes.length
      counted := if t.index[r.key]?.isSome then t.counted + r.bytes.length else t.counted
      brought := if t.index[r.key]?.isSome then t.brought else t.brought + r.bytes.length }
  | .snapshot index => ⟨index, t.pos + (encodeIndex index.toList).length, 0, 0⟩

def tally (ps : List Piece) : Tally := ps.foldl Tally.next ⟨∅, headerLen, 0, 0⟩

def reopen (I : Image) (options : Options) : Image :=
  { I with inner := { I.inner with options, dead := (tally I.pieces).counted } }

def step (I : Image) : Call → Image
  | .put col key value => (I.put (col, key) value).settle
  | .delete col key => if I.map[(col, key)]?.isSome then (I.delete (col, key)).settle else I
  | .checkpoint => I.snapshot
  | .compact => I.compact
  | .reopen options => I.reopen options
  | .get _ _ | .scan _ _ | .scanKeys _ _ | .len => I

def run (I : Image) (cs : List Call) : Image := cs.foldl step I

/-! ## What an image keeps -/

structure Sound (I : Image) : Prop where
  stored : Stored I.map I.layout I.inner.index
  written : Written I.pieces I.header I.inner.index
  placed : ∀ (k : Key) (off : Nat), I.inner.index[k]? = some off →
    ∃ v h, I.map[k]? = some v ∧ PieceAt I.pieces (.record ⟨.put, k, v, h⟩) off
  endAt : I.inner.endAt = I.layout.endAt

namespace Sound

variable {I : Image}

theorem fresh (path : PathBuf) (options : Options) : (Image.fresh path options).Sound where
  stored := .empty
  written := .whole []
  placed k off h := by simp [Image.fresh] at h
  endAt := rfl

theorem put (h : I.Sound) {k : Key} {v : Bytes} (hf : Fits k.2 v)
    (hn : (I.map.insert k v).size < 256 ^ 4)
    (hroom : I.layout.endAt + (10 + k.2.length + v.length) ≤ maxOffset) :
    (I.write ⟨.put, k, v, hf⟩).Sound where
  stored := by
    have := h.stored.put (k := k) hf hn [] (by rw [length_encodeRecord]; exact hroom)
    simp only [write, layout, pieceBytes_snoc, Rec.apply, h.endAt] at this ⊢
    exact this
  written := by
    have := h.written.record ⟨.put, k, v, hf⟩
    simp only [write, h.endAt]
    exact this
  placed k' off hk := by
    simp only [write, Rec.apply, find_insert] at hk ⊢
    split at hk
    · rename_i he
      subst he
      cases hk
      refine ⟨v, hf, by rw [if_pos rfl], ?_⟩
      rw [h.endAt]
      exact .last I.pieces _
    · rename_i he
      obtain ⟨v', hf', hm, hp⟩ := h.placed k' off hk
      exact ⟨v', hf', by rw [if_neg he]; exact hm, hp.append _⟩
  endAt := by
    simp only [write, layout, Layout.endAt, pieceBytes_snoc, List.length_append, h.endAt,
      Piece.bytes, Nat.add_assoc]

theorem delete (h : I.Sound) {k : Key} (hk : I.map[k]?.isSome) (hf : Fits k.2 [])
    (hroom : I.layout.endAt + (10 + k.2.length) ≤ maxOffset) :
    (I.write ⟨.delete, k, [], hf⟩).Sound where
  stored := by
    have := h.stored.delete hk [] (by rw [length_encodeRecord]; exact hroom)
    simp only [write, layout, pieceBytes_snoc, Rec.apply] at this ⊢
    exact this
  written := by
    have := h.written.record ⟨.delete, k, [], hf⟩
    simp only [write, h.endAt]
    exact this
  placed k' off hk' := by
    simp only [write, Rec.apply, find_erase] at hk' ⊢
    split at hk'
    · cases hk'
    · rename_i he
      obtain ⟨v', hf', hm, hp⟩ := h.placed k' off hk'
      exact ⟨v', hf', by rw [if_neg he]; exact hm, hp.append _⟩
  endAt := by
    simp only [write, layout, Layout.endAt, pieceBytes_snoc, List.length_append, h.endAt,
      Piece.bytes, Nat.add_assoc]

theorem snapshot (h : I.Sound)
    (hroom : I.layout.endAt + (encodeIndex I.inner.index.toList).length ≤ maxOffset) :
    I.snapshot.Sound := by
  rw [Image.snapshot]
  split
  · exact {
      stored := by
        have := h.stored.snapshot [] hroom
        simp only [layout, pieceBytes_snoc, h.endAt] at this ⊢
        exact this
      written := by
        have hn : I.inner.index.toList.length < 256 ^ 4 := by
          rw [Std.ExtTreeMap.length_toList, h.stored.size_eq]
          exact h.stored.count
        simp only [h.endAt]
        exact .snapshot I.pieces hn h.stored.entryFits
      placed := fun k off hk => by
        obtain ⟨v, hf, hm, hp⟩ := h.placed k off hk
        exact ⟨v, hf, hm, hp.append _⟩
      endAt := by
        simp only [layout, Layout.endAt, pieceBytes_snoc, List.length_append, h.endAt, Piece.bytes,
          Nat.add_assoc] }
  · exact h

theorem zero (h : I.Sound) : I.zero.Sound := ⟨h.stored, h.written, h.placed, h.endAt⟩

theorem reopen (h : I.Sound) (options : Options) : (I.reopen options).Sound :=
  ⟨h.stored, h.written, h.placed, h.endAt⟩

end Sound

end Image

/-! ## A store shows an image -/

structure Shows (I : Image) (s : Db) : Prop where
  sound : I.Sound
  inner : s.inner = I.inner
  disk : s.world.disk I.inner.path = some I.layout.bytes
  ext : I.inner.path.extension ≠ some "tmp"

theorem Shows.holds {I : Image} {s : Db} (h : Shows I s) : Holds I.map I.layout s :=
  ⟨by rw [h.inner]; exact h.sound.stored, by rw [h.inner]; exact h.disk,
    by rw [h.inner]; exact h.sound.endAt,
    by rw [h.inner]; exact h.ext⟩

theorem recordLen_at {l : Layout} {k : Key} {off : Nat} {v : Bytes} (h : RecAt l.body k off v)
    (hf : Fits k.2 v) :
    recordLen l.bytes off = some (10 + k.2.length + v.length) := by
  obtain ⟨a, b, hoff, hl⟩ := h.split
  have h1 : readAt l.bytes off 6 = some (0 :: k.1 :: le 4 k.2.length) := by
    rw [hl, ← hoff]
    exact readAt_append _ _ _
  have h2 : readAt l.bytes (off + 6 + k.2.length) 4 = some (le 4 v.length) := by
    have := readAt_append (a ++ ((0 :: k.1 :: le 4 k.2.length) ++ k.2)) (le 4 v.length) (v ++ b)
    simp only [List.length_append, List.length_cons, length_le, List.append_assoc, hoff] at this
    rw [hl, Nat.add_assoc]
    exact this
  have hk : ofLe (List.drop 2 (0 :: k.1 :: le 4 k.2.length)) = k.2.length := ofLe_le_of_lt hf.1
  simp only [recordLen, Option.bind_eq_bind, h1, Option.bind_some, hk, h2, ofLe_le_of_lt hf.2, pure]

theorem wp_chargeDead_at {l : Layout} {k : Key} {off : Nat} {v : Bytes} {s : Db}
    {Q : Unit → Db → Prop}
    {E : Error → Db → Prop} (hd : s.world.disk s.inner.path = some l.bytes)
    (hr : RecAt l.body k off v) (hf : Fits k.2 v)
    (hQ :
      Q ()
      { s with inner := { s.inner with dead := s.inner.dead + (10 + k.2.length + v.length) } }) :
    wp (chargeDead off) Q E s := by
  have hb : s.world.bytes s.inner.path = l.bytes := by rw [World.bytes, hd]; rfl
  rw [chargeDead, wp_bind, wp_get, hb, recordLen_at hr hf]
  exact hQ

section
variable {I : Image} {s : Db}

theorem Image.layout_write (I : Image) (r : Rec) (n : Nat) :
    (⟨I.layout.header, I.layout.body ++ encodeRecord r.op r.key.1 r.key.2 r.value,
      I.layout.junk.drop n⟩ : Layout) =
      (I.write r).layout := by
  simp only [layout, write, pieceBytes_snoc, Piece.bytes, Rec.bytes, List.drop_nil]

theorem Image.put_eq (I : Image) {k : Key} {v : Bytes} (hf : Fits k.2 v) :
    I.put k v = I.write ⟨.put, k, v, hf⟩ := dif_pos hf

/-- The record a superseded or deleted key had is charged in full. -/
theorem wp_charge {J : Image} {k : Key} {off : Nat} {Q : Unit → Db → Prop} {E : Error → Db → Prop}
    (hs : I.Sound)
    (hk : I.inner.index[k]? = some off) (hp : ∃ ps, J.pieces = I.pieces ++ ps)
    (hd : s.world.disk s.inner.path = some J.layout.bytes)
    (hQ : Q () { s with inner := { s.inner with dead := s.inner.dead + I.liveLen k } }) :
    wp (chargeDead off) Q E s := by
  obtain ⟨v, hf, hm, hat⟩ := hs.placed k off hk
  obtain ⟨ps, hps⟩ := hp
  have hrec : RecAt J.layout.body k off v := by
    have := (hat.append ps).recAt rfl
    rw [← hps] at this
    exact this
  have hlen : I.liveLen k = 10 + k.2.length + v.length := by rw [Image.liveLen, hm]
  rw [hlen] at hQ
  exact wp_chargeDead_at hd hrec hf hQ

theorem wp_putRecord_image (h : Shows I s) {col : UInt8} {key value : Bytes} (hf : Fits key value)
    (hn : (I.map.insert (col, key) value).size < 256 ^ 4) :
    wp (putRecord col key value) (fun _ s' => Shows (I.put (col, key) value) s')
    (fun _ _ => True) s := by
  have hH := h.holds
  rw [putRecord, wp_bind]
  refine wp_append hH.disk hH.endAt (fun b _ hroom => ?_) hf fun _ _ _ _ _ => trivial
  have hsound := h.sound.put (k := (col, key)) hf hn hroom
  have hlayout := I.layout_write ⟨.put, (col, key), value, hf⟩ (10 + key.length + value.length)
  rw [I.put_eq (k := (col, key)) hf, hlayout, wp_bind, wp_get, wp_bind, inner, wp_modify]
  simp only [h.inner]
  have hend := h.sound.endAt
  split
  · rename_i off hoff
    refine wp_charge (J := I.write ⟨.put, (col, key), value, hf⟩) h.sound hoff ⟨_, rfl⟩
      (World.store_self ..) ?_
    refine ⟨hsound, ?_, World.store_self .., h.ext⟩
    simp only [Image.write, Rec.apply, Rec.bytes, length_encodeRecord, hend]
  · rename_i hnone
    have hm := h.sound.stored.none_iff.mp hnone
    refine ⟨hsound, ?_, World.store_self .., h.ext⟩
    simp only [Image.write, Rec.apply, Rec.bytes, length_encodeRecord, hend, Image.liveLen, hm, Nat.add_zero]

theorem wp_deleteRecord_image (h : Shows I s) {col : UInt8} {key : Bytes} {stale : Nat}
    (hk : I.inner.index[(col, key)]? = some stale) :
    wp (deleteRecord col key stale) (fun _ s' => Shows (I.delete (col, key)) s')
    (fun _ _ => True) s := by
  have hH := h.holds
  have hm : I.map[(col, key)]?.isSome := by rw [← h.sound.stored.isSome, hk]; rfl
  obtain ⟨v, hv⟩ := Option.isSome_iff_exists.mp hm
  have hf : Fits key [] := ⟨(h.sound.stored.fits _ v hv).1, by decide⟩
  have hdel : I.delete (col, key) = I.write ⟨.delete, (col, key), [], hf⟩ := dif_pos hf
  rw [deleteRecord, wp_bind, inner, wp_modify, wp_bind]
  refine wp_append (l := I.layout) hH.disk hH.endAt (fun b _ hroom => ?_) hf fun _ _ _ _ _ => trivial
  have hend := h.sound.endAt
  have hlayout := I.layout_write ⟨.delete, (col, key), [], hf⟩
      (10 + key.length + ([] : Bytes).length)
  rw [hdel, hlayout]
  simp only [h.inner]
  refine wp_charge (J := I.write ⟨.delete, (col, key), [], hf⟩) h.sound hk ⟨_, rfl⟩
    (World.store_self ..) ?_
  refine ⟨h.sound.delete (k := (col, key)) hm hf hroom, ?_, World.store_self .., h.ext⟩
  simp only [Image.write, Rec.apply, Rec.bytes, length_encodeRecord, hend]

theorem wp_snapshot_image (h : Shows I s) :
    wp snapshot (fun _ s' => Shows I.snapshot s') (fun _ _ => True) s := by
  rw [snapshot, wp_bind, wp_get, h.inner]
  refine wp_ite (fun hsnap => ?_) fun hsnap => ?_
  · rw [wp_bind, wp_io]
    refine wp_writeAll (fun b _ hroom => ?_) (fun _ _ _ => trivial) fun _ => trivial
    have hb : s.world.bytes I.inner.path = I.layout.bytes := by rw [World.bytes, h.disk]; rfl
    have hend := h.sound.endAt
    rw [hb, hend, I.layout.overlay_end, wp_bind, inner, wp_modify, wp_bind, wp_io]
    refine wp_spend (fun b' => ?_) trivial
    rw [wp_bind, wp_io]
    refine wp_rewriteHeader (fun b' => ?_) trivial
    rw [wp_io]
    refine wp_spend (fun b' => ?_) trivial
    have hsnapshot : I.snapshot = { I with
        inner := { I.inner with endAt := I.inner.endAt + (encodeIndex I.inner.index.toList).length }
        header := ⟨I.inner.endAt, (encodeIndex I.inner.index.toList).length⟩
        pieces := I.pieces ++ [.snapshot I.inner.index] } := if_pos hsnap
    refine ⟨h.sound.snapshot (by rw [← hend]; exact hroom), ?_, ?_, ?_⟩
    · rw [hsnapshot]
      simp only [h.inner, hend]
    · rw [hsnapshot]
      simp only [World.bytes, World.store_self, Option.getD_some, Image.layout, pieceBytes_snoc,
        Piece.bytes, hend,
        List.drop_nil]
      exact congrArg some (Layout.overlay_header _ _)
    · rw [hsnapshot]
      exact h.ext
  · rw [wp_io]
    have hsnapshot : I.snapshot = I := if_neg hsnap
    rw [hsnapshot]
    exact wp_spend (fun b => ⟨h.sound, h.inner, h.disk, h.ext⟩) trivial

/-- Copying does not touch what the map says, where the file is, or the options. -/
theorem Image.foldl_put : ∀ (es : List (Key × Bytes)) (J : Image), (∀ e ∈ es, Fits e.1.2 e.2) →
    (es.foldl (fun J e => J.put e.1 e.2) J).map = es.foldl (fun m e => m.insert e.1 e.2) J.map ∧
      (es.foldl (fun J e => J.put e.1 e.2) J).inner.path = J.inner.path ∧
      (es.foldl (fun J e => J.put e.1 e.2) J).inner.options = J.inner.options
  | [], _, _ => ⟨rfl, rfl, rfl⟩
  | e :: es, J, hf => by
    obtain ⟨hm, hp, ho⟩ := Image.foldl_put es (J.put e.1 e.2) fun x hx =>
        hf x (List.mem_cons_of_mem _ hx)
    rw [List.foldl_cons, List.foldl_cons, hm, hp, ho, J.put_eq (hf e List.mem_cons_self)]
    exact ⟨rfl, rfl, rfl⟩

theorem wp_copyLive_image {path tmp : PathBuf} (hne : tmp ≠ path) {l : Layout} :
    ∀ (live : List (Key × Nat)) (es : List (Key × Bytes)) (J : Image) (w : World),
      List.Forall₂ (fun e x => e.1 = x.1 ∧ RecAt l.body e.1 e.2 x.2) live es →
      (∀ e ∈ es, Fits e.1.2 e.2) →
      J.map.size + es.length < 256 ^ 4 → J.Sound → w.disk path = some l.bytes →
      w.disk tmp = some J.layout.bytes →
      wp (copyLive path tmp live J.inner.index J.inner.endAt)
        (fun r w' => r = ((es.foldl (fun J e => J.put e.1 e.2) J).inner.index,
            (es.foldl (fun J e => J.put e.1 e.2) J).inner.endAt) ∧
          (es.foldl (fun J e => J.put e.1 e.2) J).Sound ∧
          w'.disk tmp = some (es.foldl (fun J e => J.put e.1 e.2) J).layout.bytes)
          (fun _ _ => True) w := by
  intro live
  induction live with
  | nil =>
    intro es J w hlive _ _ hs _ ht
    cases hlive
    exact ⟨rfl, hs, ht⟩
  | cons e live ih =>
    intro es J w hlive hf hn hs hd ht
    obtain ⟨⟨col, key⟩, off⟩ := e
    obtain ⟨⟨k', v⟩, es, ⟨hk, hr⟩, hes, rfl⟩ := List.forall₂_cons_left_iff.mp hlive
    simp only at hk hr
    subst hk
    have hfit := hf _ List.mem_cons_self
    have hsize : (J.map.insert (col, key) v).size ≤ J.map.size + 1 := Std.ExtTreeMap.size_insert_le
    have hb : w.bytes tmp = J.layout.bytes := by rw [World.bytes, ht]; rfl
    have hlen := length_encodeRecord .put col key v
    rw [List.length_cons] at hn
    rw [copyLive, wp_bind]
    refine wp_readValue hd hr hfit ?_
    simp only
    rw [wp_bind]
    refine wp_writeAll (fun b _ hroom => ?_) (fun _ _ _ => trivial) fun _ => trivial
    rw [hlen, hs.endAt] at hroom
    have hsound := hs.put (k := (col, key)) hfit (Nat.lt_of_le_of_lt hsize (by omega)) hroom
    have hput := J.put_eq (k := (col, key)) hfit
    have hlayout := J.layout_write ⟨.put, (col, key), v, hfit⟩ (encodeRecord .put col key v).length
    rw [hb, hs.endAt, J.layout.overlay_end, hlayout, List.foldl_cons, ← hput]
    rw [← hput] at hsound
    -- the copied entry is one put of the image
    have ih := ih es (J.put (col, key) v)
      { w.store tmp (some (J.put (col, key) v).layout.bytes) with budget := b } hes
      (fun e he => hf e (List.mem_cons_of_mem _ he))
      (by rw [hput]; exact Nat.lt_of_le_of_lt (Nat.add_le_add_right hsize _) (by omega)) hsound
      ((World.store_other _ _ hne.symm).trans hd) (World.store_self ..)
    have hidx : (J.put (col, key) v).inner.index = J.inner.index.insert (col, key) J.layout.endAt := by
      rw [hput, ← hs.endAt]
      rfl
    have hend : (J.put (col, key) v).inner.endAt = J.layout.endAt +
        (encodeRecord .put col key v).length := by
      rw [hput, ← hs.endAt]
      rfl
    rw [hidx, hend] at ih
    exact ih

theorem wp_compact_image (h : Shows I s) :
    wp compact (fun _ s' => Shows I.compact s') (fun _ _ => True) s := by
  have hne : I.inner.path.withExtension "tmp" ≠ I.inner.path := fun he => h.ext (by rw [← he]; rfl)
  rw [compact, wp_bind, wp_get, h.inner]
  simp only
  rw [wp_bind, wp_io]
  refine wp_openFile (fun b₁ => ?_) trivial
  rw [wp_bind, wp_io]
  refine wp_writeAll (fun b₂ _ _ => ?_) (fun _ _ _ => trivial) fun _ => trivial
  have hfit : ∀ e ∈ I.map.toList, Fits e.1.2 e.2 := fun e he =>
    h.sound.stored.fits e.1 e.2 (Std.ExtTreeMap.mem_toList_iff_getElem?_eq_some.mp he)
  have hcount : (Image.fresh I.inner.path I.inner.options).map.size + I.map.toList.length < 256 ^ 4 := by
    rw [Std.ExtTreeMap.length_toList]
    show (∅ : Contents).size + I.map.size < 256 ^ 4
    rw [Std.ExtTreeMap.size_empty, Nat.zero_add]
    exact h.sound.stored.count
  have hkept := (Image.foldl_put I.map.toList (.fresh I.inner.path I.inner.options) hfit).2
  have hpath : I.copied.inner.path = I.inner.path := hkept.1
  have hoptions : I.copied.inner.options = I.inner.options := hkept.2
  rw [wp_bind, wp_io]
  refine (wp_copyLive_image hne I.inner.index.toList I.map.toList
    (.fresh I.inner.path I.inner.options) _
    h.sound.stored.toList hfit hcount (.fresh _ _) ?_ ?_).mono ?_ fun _ _ _ => trivial
  · exact (World.store_other _ _ hne.symm).trans ((World.store_other _ _ hne.symm).trans h.disk)
  · simp [Image.layout, Image.fresh, Layout.bytes, overlay, World.bytes, pieceBytes]
  · rintro _ w₃ ⟨hr, hsound, ht⟩
    rw [hr, wp_bind, wp_io]
    refine wp_spend (fun b₄ => ?_) trivial
    rw [wp_bind, wp_io]
    refine wp_rename (fun b₅ => ?_) trivial
    rw [wp_bind, inner, wp_modify]
    refine wp_snapshot_image (I := I.copied.zero) ⟨Image.Sound.zero hsound, ?_, ?_, ?_⟩
    · simp only [h.inner, Image.zero, hpath, hoptions]
      rfl
    · simp only [Image.zero, hpath]
      exact (World.store_self ..).trans ht
    · simp only [Image.zero, hpath]
      exact h.ext

theorem wp_settle_image (h : Shows I s) :
    wp maybeCompact (fun _ s' => Shows I.settle s') (fun _ _ => True) s := by
  rw [maybeCompact, wp_bind, wp_get, h.inner, Image.settle]
  split
  · exact wp_compact_image h
  · exact h

end

/-! ## Reading a file again -/

namespace Image

theorem foldl_pos : ∀ (ps : List Piece) (t : Tally), (ps.foldl Tally.next t).pos =
    t.pos + (pieceBytes ps).length
  | [], _ => rfl
  | p :: ps, t => by
    rw [List.foldl_cons, foldl_pos ps, pieceBytes_cons, List.length_append, ← Nat.add_assoc]
    cases p <;> rfl

theorem tally_pos (ps : List Piece) : (tally ps).pos = headerLen + (pieceBytes ps).length := foldl_pos ps _

/-- Over records a tally goes along with the replay. -/
theorem foldl_records : ∀ (rs : List Rec) (t : Tally),
    ((rs.map .record).foldl Tally.next t).index = replayLog rs t.index t.pos ∧
      ((rs.map .record).foldl Tally.next t).counted = t.counted + countLog rs t.index t.pos ∧
      ((rs.map .record).foldl Tally.next t).counted +
      ((rs.map .record).foldl Tally.next t).brought =
        t.counted + t.brought + (encodeLog rs).length
  | [], _ => ⟨rfl, rfl, rfl⟩
  | r :: rs, t => by
    obtain ⟨hi, hc, hb⟩ := foldl_records rs (t.next (.record r))
    rw [List.map_cons, List.foldl_cons, hi, hb]
    refine ⟨rfl, ?_, ?_⟩
    · rw [hc, countLog]
      simp only [Tally.next]
      split <;> omega
    · simp only [Tally.next, encodeLog, List.flatMap_cons, List.length_append]
      split <;> omega

end Image

/-- Loading the snapshot and replaying the records behind it finds the index again, with the tally's
count of dead bytes. -/
theorem Written.load (memory : Memory) {ps : List Piece} {h : Header} {ix : Index}
    (hw : Written ps h ix) :
    ∃ index replayFrom, loadSnapshot memory (⟨h, pieceBytes ps, []⟩ : Layout).bytes h =
    .ok (index, replayFrom) ∧
      replay ((⟨h, pieceBytes ps, []⟩ : Layout).bytes.drop replayFrom).length index 0 replayFrom
        ((⟨h, pieceBytes ps, []⟩ : Layout).bytes.drop replayFrom) =
        .ok (ix, (Image.tally ps).counted, headerLen + (pieceBytes ps).length) := by
  have hnil : decodeRecord [] = .ok none := rfl
  cases hw with
  | whole rs =>
    -- no snapshot: the replay starts behind the header
    have hr := replay_log hnil rs (encodeLog rs ++ []).length ∅ 0 headerLen (Nat.le_refl _)
    have hdrop : (⟨Header.default, pieceBytes (rs.map .record), []⟩ : Layout).bytes.drop headerLen =
        encodeLog rs ++ [] := by
      rw [pieceBytes_records]
      exact List.drop_left' (by simp)
    refine ⟨∅, headerLen, rfl, ?_⟩
    rw [hdrop, hr, pieceBytes_records, Image.tally, (Image.foldl_records rs _).2.1]
  | snap ps base rs hn hfit =>
    -- the replay starts behind the snapshot that the header names
    have hr := replay_log hnil rs (encodeLog rs ++ []).length base 0
      (headerLen + (pieceBytes ps).length + (encodeIndex base.toList).length) (Nat.le_refl _)
    let hd : Header := ⟨headerLen + (pieceBytes ps).length, (encodeIndex base.toList).length⟩
    have hfile : (⟨hd, pieceBytes (ps ++ .snapshot base :: rs.map .record), []⟩ : Layout).bytes =
        hd.encode ++ (pieceBytes ps ++ (encodeIndex base.toList ++ (encodeLog rs ++ []))) := by
      simp only [Layout.bytes, pieceBytes_append, pieceBytes_cons, pieceBytes_records, Piece.bytes,
        List.append_assoc]
    have hdrop :
        (hd.encode ++ (pieceBytes ps ++ (encodeIndex base.toList ++ (encodeLog rs ++ [])))).drop
        (headerLen + (pieceBytes ps).length + (encodeIndex base.toList).length) =
          encodeLog rs ++ [] := by
      rw [← List.append_assoc, ← List.append_assoc]
      exact List.drop_left' (by simp [Nat.add_assoc])
    refine ⟨base, headerLen + (pieceBytes ps).length + (encodeIndex base.toList).length, ?_, ?_⟩
    · show loadSnapshot memory (⟨hd, _, _⟩ : Layout).bytes hd = _
      rw [hfile]
      exact loadSnapshot_named memory _ _ hn hfit
    · show replay (List.drop _ (⟨hd, _, _⟩ : Layout).bytes).length _ _ _
          (List.drop _ (⟨hd, _, _⟩ : Layout).bytes) = _
      have hpos := Image.tally_pos ps
      rw [Image.tally] at hpos
      rw [hfile, hdrop, hr, Image.tally, List.foldl_append, List.foldl_cons,
        (Image.foldl_records rs _).2.1]
      simp only [Image.Tally.next, hpos, pieceBytes_append, pieceBytes_cons,
        pieceBytes_records, Piece.bytes,
        List.length_append, Nat.add_assoc]

section
variable {I : Image} {s : Db}

theorem wp_reopen_image (h : Shows I s) (options : Options) :
    wp (reopen options) (fun _ s' => Shows (I.reopen options) s') (fun _ _ => True) s := by
  obtain ⟨index, replayFrom, hload, hreplay⟩ := h.sound.written.load s.world.memory
  have hsmall := h.sound.stored.header_lt
  rw [reopen, wp_bind, wp_get, h.inner, wp_bind, wp_io]
  refine wp_openWith_read (l := I.layout) options h.disk hsmall.1 hsmall.2 (fun b => ?_)
    fun _ => trivial
  have hr : replay (I.layout.bytes.drop replayFrom).length index 0 replayFrom
      (I.layout.bytes.drop replayFrom) =
      .ok (I.inner.index, (Image.tally I.pieces).counted,
        headerLen + (pieceBytes I.pieces).length) := hreplay
  rw [show loadSnapshot s.world.memory I.layout.bytes I.layout.header =
    .ok (index, replayFrom) from hload]
  dsimp only
  rw [hr]
  refine ⟨h.sound.reopen options, ?_, World.store_self .., h.ext⟩
  have hend : I.inner.endAt = headerLen + (pieceBytes I.pieces).length := h.sound.endAt
  simp only [Image.reopen, hend]

/-- A call that is not stopped takes the image of the store one step. -/
theorem wp_exec_image (h : Shows I s) (c : Call) (hf : c.Fits I.map) :
    wp (exec c) (fun _ s' => Shows (I.step c) s') (fun _ _ => True) s := by
  cases c with
  | put col key value =>
    rw [exec, wp_bind, put, wp_bind]
    exact (wp_putRecord_image h hf.1 hf.2).mono (fun _ _ h₁ => wp_settle_image h₁)
      fun _ _ _ => trivial
  | delete col key =>
    rw [exec, wp_bind, delete, wp_bind, wp_get, h.inner, Image.step]
    cases hi : I.inner.index[(col, key)]? with
    | none =>
      have hm := h.sound.stored.none_iff.mp hi
      rw [hm]
      exact h
    | some stale =>
      have hm : I.map[(col, key)]?.isSome := by rw [← h.sound.stored.isSome, hi]; rfl
      rw [if_pos hm, wp_bind]
      refine (wp_deleteRecord_image h hi).mono (fun _ s₁ h₁ => ?_) fun _ _ _ => trivial
      rw [wp_bind]
      exact wp_settle_image h₁
  | get col key =>
    rw [exec, wp_bind, getKey, wp_bind, wp_get]
    cases hi : s.inner.index[(col, key)]? with
    | none => exact h
    | some off =>
      obtain ⟨v, hv, hrec⟩ := h.holds.stored.recAt hi
      rw [wp_io]
      exact wp_readValue h.holds.disk hrec (h.sound.stored.fits _ v hv) h
  | scan col stem =>
    rw [exec, wp_bind, scan, wp_bind, wp_get, wp_io, ColMap.range_eq_under]
    refine (wp_readFound h.holds.disk _ _ (h.holds.stored.under col stem) fun e he =>
      h.sound.stored.fits e.1 e.2 (ColMap.mem_under.mp he).1).mono ?_ fun _ _ h => h.elim
    rintro _ _ ⟨-, hw⟩
    rw [hw]
    exact h
  | scanKeys col stem => exact h
  | len => exact h
  | checkpoint =>
    rw [exec, wp_bind, checkpoint]
    exact wp_snapshot_image h
  | compact =>
    rw [exec, wp_bind]
    exact wp_compact_image h
  | reopen options =>
    rw [exec, wp_bind]
    exact wp_reopen_image h options

end

/-! ## What the file says -/

def Db.header (s : Db) : Header :=
  match Header.decode ((s.world.bytes s.inner.path).take headerLen) with
  | .ok h => h
  | .error _ => .default

section
variable {I : Image} {s : Db}

theorem Shows.bytes (h : Shows I s) : s.world.bytes s.inner.path = I.layout.bytes := h.holds.bytes

theorem Shows.header (h : Shows I s) : s.header = I.header := by
  have htake : I.layout.bytes.take headerLen = I.header.encode :=
    List.take_left' (Header.length_encode _)
  have hsmall := h.sound.stored.header_lt
  rw [Db.header, h.bytes, htake, Header.decode_encode I.header hsmall.1 hsmall.2]

theorem Shows.length (h : Shows I s) :
    (s.world.bytes s.inner.path).length = headerLen + (pieceBytes I.pieces).length := by
  rw [h.bytes, Layout.bytes, List.length_append, Header.length_encode]
  simp only [Image.layout, List.append_nil]

end

/-! ## Runs that are not stopped -/

def runTo : List Call → Db → Option Db
  | [], s => some s
  | c :: cs, s =>
    match exec c s with
    | .ok _ s' => runTo cs s'
    | .error _ _ => none

def reach (path : PathBuf) (options : Options) (cs : List Call) (w : World) : Option Db :=
  match openWith path options w with
  | .ok i w' => runTo cs ⟨i, w'⟩
  | .error _ _ => none

namespace Image

variable {I : Image}

theorem map_snapshot (I : Image) : I.snapshot.map = I.map := by
  rw [snapshot]
  split <;> rfl

def Fitting (I : Image) : Prop := ∀ (k : Key) (v : Bytes), I.map[k]? = some v → Fits k.2 v

theorem Sound.fitting (h : I.Sound) : I.Fitting := h.stored.fits

theorem Fitting.write_put (h : I.Fitting) {k : Key} {v : Bytes} (hf : Fits k.2 v) :
    (I.write ⟨.put, k, v, hf⟩).Fitting := by
  intro k' v' hk
  simp only [write, find_insert] at hk
  split at hk
  · rename_i he
    cases hk
    rw [← he]
    exact hf
  · exact h k' v' hk

theorem Fitting.write_delete (h : I.Fitting) {k : Key} (hf : Fits k.2 []) :
    (I.write ⟨.delete, k, [], hf⟩).Fitting := by
  intro k' v' hk
  simp only [write, find_erase] at hk
  split at hk
  · cases hk
  · exact h k' v' hk

theorem Fitting.toList (h : I.Fitting) : ∀ e ∈ I.map.toList, Fits e.1.2 e.2 := fun ⟨k, v⟩ he =>
  h k v (Std.ExtTreeMap.mem_toList_iff_getElem?_eq_some.mp he)

theorem map_compact (hf : I.Fitting) : I.compact.map = I.map := by
  have hcopy := (foldl_put I.map.toList (fresh I.inner.path I.inner.options) hf.toList).1
  rw [compact, map_snapshot]
  exact hcopy.trans (foldl_insert_toList _)

theorem map_settle (hf : I.Fitting) : I.settle.map = I.map := by
  rw [settle]
  split
  · exact map_compact hf
  · rfl

theorem delete_eq (h : I.Sound) {k : Key} (hk : I.map[k]?.isSome) :
    ∃ hf, I.delete k = I.write ⟨.delete, k, [], hf⟩ := by
  obtain ⟨v, hv⟩ := Option.isSome_iff_exists.mp hk
  have hf : Fits k.2 [] := ⟨(h.stored.fits _ v hv).1, by decide⟩
  exact ⟨hf, dif_pos hf⟩

/-- The map of an image goes along with the map of its calls. -/
theorem map_step (h : I.Sound) (c : Call) (hf : c.Fits I.map) : (I.step c).map = (I.map.step c).1 := by
  cases c with
  | put col key value =>
    rw [step, I.put_eq (k := (col, key)) hf.1, map_settle (h.fitting.write_put hf.1)]
    rfl
  | delete col key =>
    rw [step]
    split
    · rename_i hk
      obtain ⟨hfit, hdel⟩ := delete_eq h hk
      rw [hdel, map_settle (h.fitting.write_delete hfit)]
      rfl
    · rename_i hk
      rw [Option.not_isSome_iff_eq_none] at hk
      exact (erase_of_none hk).symm
  | checkpoint => exact I.map_snapshot
  | compact => exact map_compact h.fitting
  | reopen options => rfl
  | get col key => rfl
  | scan col stem => rfl
  | scanKeys col stem => rfl
  | len => rfl

end Image

/-- A store shows the image of the calls it answered. -/
theorem runTo_shows : ∀ (cs : List Call) {I : Image} {s s' : Db}, Shows I s →
    FitsRun I.map (cs.map .call) →
    runTo cs s = some s' → Shows (I.run cs) s'
  | [], I, s, s', h, _, hr => by
    rw [runTo] at hr
    cases hr
    exact h
  | c :: cs, I, s, s', h, hf, hr => by
    have hspec := wp_exec_image h c hf.1
    unfold wp at hspec
    rw [runTo] at hr
    cases hx : exec c s with
    | ok a s₁ =>
      rw [hx] at hr hspec
      have hmore : FitsRun (I.step c).map (cs.map .call) := by
        rw [Image.map_step h.sound c hf.1]
        exact hf.2
      exact runTo_shows cs hspec hmore hr
    | error e s₁ =>
      rw [hx] at hr
      cases hr

theorem reach_shows {path : PathBuf} {options : Options} {cs : List Call} {w : World} {s : Db}
    (hext : path.extension ≠ some "tmp") (hfresh : (w.bytes path).length < headerLen)
    (hf : FitsRun ∅ (cs.map .call)) (hr : reach path options cs w = some s) :
    Shows ((Image.fresh path options).run cs) s := by
  have hspec := wp_openWith_new options hfresh
  unfold wp at hspec
  unfold reach at hr
  cases hx : openWith path options w with
  | ok i w' =>
    rw [hx] at hr hspec
    exact runTo_shows cs (I := .fresh path options) ⟨.fresh path options, hspec.1,
      hspec.2, hext⟩ hf hr
  | error e w' =>
    rw [hx] at hr
    cases hr

end Crabtalk.Crabdb

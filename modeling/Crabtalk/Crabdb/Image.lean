import Crabtalk.Crabdb.Db

/-!
# What a store file holds

A file is a header, a body the store has written, and the junk behind its
append position. `Stored m l ix` says that the layout `l` holds the map `m`
under the index `ix`: reading the header's snapshot and replaying the records
behind it gives `ix`, and each entry of `ix` points at a whole record of `m`.
-/

open Basis

namespace Crabtalk.Crabdb

abbrev Contents := ColMap UInt8 UInt8 Bytes

/-! ## The log as records -/

structure Rec where
  op : Op
  key : Key
  value : Bytes
  fits : Fits key.2 value

namespace Rec

def bytes (r : Rec) : Bytes := encodeRecord r.op r.key.1 r.key.2 r.value

def apply (r : Rec) (index : Index) (pos : Nat) : Index :=
  match r.op with
  | .put => index.insert r.key pos
  | .delete => index.erase r.key

theorem bytes_pos (r : Rec) : 0 < r.bytes.length := by
  rw [bytes, length_encodeRecord]; omega

end Rec

def encodeLog (rs : List Rec) : Bytes := rs.flatMap Rec.bytes

theorem encodeLog_snoc (rs : List Rec) (r : Rec) :
    encodeLog (rs ++ [r]) = encodeLog rs ++ r.bytes := by
  simp [encodeLog]

def replayLog : List Rec → Index → Nat → Index
  | [], index, _ => index
  | r :: rs, index, pos => replayLog rs (r.apply index pos) (pos + r.bytes.length)

theorem replayLog_snoc : ∀ (rs : List Rec) (r : Rec) (index : Index) (pos : Nat),
    replayLog (rs ++ [r]) index pos = r.apply (replayLog rs index pos) (pos + (encodeLog rs).length)
  | [], _, _, _ => rfl
  | r' :: rs, r, index, pos => by
    rw [List.cons_append, replayLog, replayLog_snoc rs]
    simp only [replayLog, encodeLog, List.flatMap_cons, List.length_append, Nat.add_assoc]

theorem replayLog_append : ∀ (rs rs' : List Rec) (index : Index) (pos : Nat),
    replayLog (rs ++ rs') index pos = replayLog rs' (replayLog rs index pos)
    (pos + (encodeLog rs).length)
  | [], _, _, _ => rfl
  | r :: rs, rs', index, pos => by
    rw [List.cons_append, replayLog, replayLog, replayLog_append rs]
    simp only [encodeLog, List.flatMap_cons, List.length_append, Nat.add_assoc]

/-- What a replay counts as dead: the records that find their key in the index. -/
def countLog : List Rec → Index → Nat → Nat
  | [], _, _ => 0
  | r :: rs, index, pos =>
    (if index[r.key]?.isSome then r.bytes.length else 0) + countLog rs (r.apply index pos)
      (pos + r.bytes.length)

/-- Replaying an encoded log goes on with what follows it. -/
theorem replay_append :
    ∀ (rs : List Rec) (fuel : Nat) (index : Index) (dead pos : Nat) (rest : Bytes),
    (encodeLog rs ++ rest).length ≤ fuel → ∃ fuel', rest.length ≤ fuel' ∧
      replay fuel index dead pos (encodeLog rs ++ rest) =
        replay fuel' (replayLog rs index pos) (dead + countLog rs index pos)
        (pos + (encodeLog rs).length) rest
  | [], fuel, _, _, _, _, hf => ⟨fuel, hf, rfl⟩
  | r :: rs, fuel, index, dead, pos, rest, hf => by
    have hlog : encodeLog (r :: rs) ++ rest = r.bytes ++ (encodeLog rs ++ rest) := by
      simp [encodeLog]
    have hpos := r.bytes_pos
    rw [hlog, List.length_append] at hf
    obtain ⟨fuel, rfl⟩ : ∃ n, fuel = n + 1 := ⟨fuel - 1, by omega⟩
    have hdec := decodeRecord_encode r.op r.key.1 r.fits (encodeLog rs ++ rest)
    have hlen : 10 + r.key.2.length + r.value.length = r.bytes.length :=
      (length_encodeRecord ..).symm
    have hcount : (if index[r.key]?.isSome then dead + r.bytes.length else dead) =
        dead + (if index[r.key]?.isSome then r.bytes.length else 0) := by
      split <;> rfl
    obtain ⟨fuel', hfuel, ih⟩ := replay_append rs fuel (r.apply index pos)
      (if index[r.key]?.isSome then dead + r.bytes.length else dead) (pos + r.bytes.length)
        rest (by omega)
    refine ⟨fuel', hfuel, ?_⟩
    rw [hcount] at ih
    rw [hlog, replay]
    rw [Rec.bytes] at hlen hcount ih ⊢
    rw [hdec]
    simp only [hlen, List.drop_left, hcount]
    refine Eq.trans ih ?_
    simp only [replayLog, countLog, encodeLog, List.flatMap_cons, List.length_append, Rec.bytes,
      Nat.add_assoc]

theorem replay_stop {junk : Bytes} (hj : decodeRecord junk = .ok none) (fuel : Nat) (index : Index)
    (dead pos : Nat) :
    replay fuel index dead pos junk = .ok (index, dead, pos) := by
  cases fuel with
  | zero => rfl
  | succ fuel =>
    rw [replay, hj]

/-- Replaying an encoded log followed by bytes that are not a record gives the
index of its records and stops at its end. -/
theorem replay_log {junk : Bytes} (hj : decodeRecord junk = .ok none) (rs : List Rec) (fuel : Nat)
    (index : Index)
    (dead pos : Nat) (hf : (encodeLog rs ++ junk).length ≤ fuel) :
    replay fuel index dead pos (encodeLog rs ++ junk) =
      .ok (replayLog rs index pos, dead + countLog rs index pos, pos + (encodeLog rs).length) := by
  obtain ⟨fuel', -, h⟩ := replay_append rs fuel index dead pos junk hf
  rw [h, replay_stop hj]

/-- A replay that ends has read records, and then bytes that are not one. -/
theorem replay_sound : ∀ (fuel : Nat) {index ix : Index} {dead pos d e : Nat} {buf : Bytes},
    buf.length ≤ fuel →
    replay fuel index dead pos buf = .ok (ix, d, e) →
    ∃ log junk, buf = encodeLog log ++ junk ∧ decodeRecord junk = .ok none ∧
    ix = replayLog log index pos
  | 0, _, _, _, _, _, _, buf, hf, h => by
    cases h
    have hnil : buf = [] := List.eq_nil_of_length_eq_zero (Nat.le_zero.mp hf)
    exact ⟨[], buf, rfl, by rw [hnil]; rfl, rfl⟩
  | fuel + 1, index, ix, dead, pos, d, e, buf, hf, h => by
    rw [replay] at h
    split at h
    · cases h
    · rename_i hstop
      cases h
      exact ⟨[], buf, rfl, hstop, rfl⟩
    · rename_i record hrec
      obtain ⟨hfits, hlen, hbuf⟩ := decodeRecord_sound hrec
      let r : Rec := ⟨record.op, (record.col, record.key), record.value, hfits⟩
      have hrlen : record.len = r.bytes.length := hlen.trans (length_encodeRecord ..).symm
      have hpos := r.bytes_pos
      have hle : (buf.drop record.len).length ≤ fuel := by
        rw [List.length_drop]
        omega
      obtain ⟨log, junk, hrest, hj, hix⟩ := replay_sound fuel hle h
      refine ⟨r :: log, junk, ?_, hj, ?_⟩
      · rw [hbuf, hrest]
        simp [encodeLog, r, Rec.bytes]
      · rw [hix, hrlen]
        rfl

/-! ## Layouts -/

structure Layout where
  header : Header
  body : Bytes
  junk : Bytes

def Layout.bytes (l : Layout) : Bytes := l.header.encode ++ (l.body ++ l.junk)

def Layout.endAt (l : Layout) : Nat := headerLen + l.body.length

theorem Layout.drop_endAt (l : Layout) : l.bytes.drop l.endAt = l.junk := by
  rw [Layout.bytes, Layout.endAt, ← List.append_assoc]
  exact List.drop_left' (by simp)

theorem Layout.overlay_end (l : Layout) (bs : Bytes) :
    overlay l.bytes l.endAt bs = (⟨l.header, l.body ++ bs, l.junk.drop bs.length⟩ : Layout).bytes := by
  have := overlay_append (l.header.encode ++ l.body) l.junk bs
  rw [List.length_append, Header.length_encode] at this
  simp only [Layout.bytes, Layout.endAt, List.append_assoc] at this ⊢
  exact this

theorem Layout.overlay_cut (l : Layout) (bs : Bytes) (n : Nat) (hn : n ≤ bs.length) :
    overlay l.bytes l.endAt (bs.take n) =
    (⟨l.header, l.body, bs.take n ++ l.junk.drop n⟩ : Layout).bytes := by
  rw [Layout.overlay_end, List.length_take, Nat.min_eq_left hn]
  simp [Layout.bytes]

theorem Layout.overlay_header (l : Layout) (h : Header) :
    overlay l.bytes 0 h.encode = (⟨h, l.body, l.junk⟩ : Layout).bytes :=
  overlay_zero l.header.encode (l.body ++ l.junk) h.encode (by simp)

/-! ## The log behind the header -/

/-- Opening a file with this header and body rebuilds this index: either there
is no snapshot and the body is records, or the header names a snapshot inside
the body and records follow it. -/
inductive Log : Header → Bytes → Index → Prop
  | whole (rs : List Rec) : Log .default (encodeLog rs) (replayLog rs ∅ headerLen)
  | snap (a : Bytes) (base : Index) (rs : List Rec) (hn : base.toList.length < 256 ^ 4)
      (hfit : ∀ e ∈ base.toList, EntryFits e) :
      Log ⟨headerLen + a.length, (encodeIndex base.toList).length⟩
      (a ++ (encodeIndex base.toList ++ encodeLog rs))
        (replayLog rs base (headerLen + a.length + (encodeIndex base.toList).length))

theorem Log.append {h : Header} {body : Bytes} {ix : Index} (hl : Log h body ix) (r : Rec) :
    Log h (body ++ r.bytes) (r.apply ix (headerLen + body.length)) := by
  cases hl with
  | whole rs =>
    rw [← encodeLog_snoc, ← replayLog_snoc]
    exact .whole (rs ++ [r])
  | snap a base rs hn hfit =>
    have := Log.snap a base (rs ++ [r]) hn hfit
    rw [replayLog_snoc, encodeLog_snoc] at this
    simp only [List.length_append, List.append_assoc, Nat.add_assoc] at this ⊢
    exact this

/-- A header finds the snapshot it names, whatever follows it. -/
theorem loadSnapshot_named (memory : Memory) (a rest : Bytes) {base : Index}
    (hn : base.toList.length < 256 ^ 4)
    (hfit : ∀ e ∈ base.toList, EntryFits e) :
    loadSnapshot memory (Header.encode ⟨headerLen + a.length, (encodeIndex base.toList).length⟩ ++
        (a ++ (encodeIndex base.toList ++ rest))) ⟨headerLen + a.length,
        (encodeIndex base.toList).length⟩ =
      .ok (base, headerLen + a.length + (encodeIndex base.toList).length) := by
  have hread := readAt_append (Header.encode ⟨headerLen + a.length,
      (encodeIndex base.toList).length⟩ ++ a)
    (encodeIndex base.toList) rest
  rw [List.length_append, Header.length_encode, List.append_assoc] at hread
  have hdec := decodeIndex_encode hn hfit []
  rw [List.append_nil] at hdec
  have hroom : ¬ memory.room (encodeIndex base.toList).length < reservation
      (encodeIndex base.toList) := by
    rw [reservation_encode hn, Nat.not_lt]
    exact (length_le_encodeIndex _).trans (memory.le_room _)
  rw [loadSnapshot, if_pos (length_encodeIndex_pos _), hread]
  simp only [if_neg hroom, hdec, foldl_insert_toList]

/-- What `open` makes of a file whose junk is not a record. -/
theorem Log.load (memory : Memory) {l : Layout} {ix : Index} (hl : Log l.header l.body ix)
    (hj : decodeRecord l.junk = .ok none) :
    ∃ index from' dead, loadSnapshot memory l.bytes l.header = .ok (index, from') ∧
      replay (l.bytes.drop from').length index 0 from' (l.bytes.drop from') =
      .ok (ix, dead, l.endAt) := by
  obtain ⟨h, body, junk⟩ := l
  change Log h body ix at hl
  cases hl with
  | whole rs =>
    have hr := replay_log hj rs (encodeLog rs ++ junk).length ∅ 0 headerLen (Nat.le_refl _)
    refine ⟨∅, headerLen, 0 + countLog rs ∅ headerLen, rfl, ?_⟩
    have hdrop : (⟨Header.default, encodeLog rs, junk⟩ : Layout).bytes.drop headerLen =
        encodeLog rs ++ junk :=
      List.drop_left' (by simp)
    show replay (List.drop headerLen _).length ∅ 0 headerLen (List.drop headerLen _) = _
    rw [hdrop]
    exact hr
  | snap a base rs hn hfit =>
    let enc := encodeIndex base.toList
    let hd : Header := ⟨headerLen + a.length, enc.length⟩
    let file := (⟨hd, a ++ (enc ++ encodeLog rs), junk⟩ : Layout).bytes
    have hfile : file = (hd.encode ++ a) ++ (enc ++ (encodeLog rs ++ junk)) := by
      simp [file, Layout.bytes]
    have hlen : (hd.encode ++ a).length = headerLen + a.length := by simp
    have hdrop : file.drop (headerLen + a.length + enc.length) = encodeLog rs ++ junk := by
      rw [hfile, ← List.append_assoc]
      exact List.drop_left' (by rw [List.length_append, hlen])
    have hr := replay_log hj rs (encodeLog rs ++ junk).length base 0
        (headerLen + a.length + enc.length)
      (Nat.le_refl _)
    refine ⟨base, headerLen + a.length + enc.length,
      0 + countLog rs base (headerLen + a.length + enc.length), ?_, ?_⟩
    · show loadSnapshot memory file hd = _
      simp only [file, hd, enc, Layout.bytes, List.append_assoc]
      exact loadSnapshot_named memory a (encodeLog rs ++ junk) hn hfit
    · show replay (file.drop _).length base 0 _ (file.drop _) = _
      rw [hdrop, hr]
      congr 3
      simp only [Layout.endAt, List.length_append, enc]
      omega

end Crabtalk.Crabdb

import Crabtalk.Basis.Spans
import Crabtalk.Crabdb.Pieces

/-!
# Dead bytes

The bytes of a file behind its header are dead unless they belong to the
record of a live key or to the snapshot the header names. The store counts
them as it goes and counts again when it opens a file. What it does not count
are the delete records, the snapshots that a newer one replaced, and, at an
open, most of what lies in front of the snapshot.
-/

open Basis

namespace Crabtalk.Crabdb

def Db.spans (s : Db) : List (Nat × Nat) :=
  (s.header.indexAt, s.header.indexLen) ::
    s.inner.index.toList.map fun e => (e.2, (recordLen (s.world.bytes s.inner.path) e.2).getD 0)

/-- How many bytes behind the header are neither in a live record nor in the named snapshot. -/
def deadBytes (s : Db) : Nat :=
  (uncovered headerLen (s.world.bytes s.inner.path).length s.spans).card

def liveBytes (m : Contents) : Nat := (m.toList.map fun e => 10 + e.1.2.length + e.2.length).sum

/-! ## The bytes of an image -/

/-- The header names no snapshot, or the one that starts where it says. -/
theorem Written.named {ps : List Piece} {h : Header} {ix : Index} (hw : Written ps h ix) :
    h.indexLen = 0 ∨ ∃ base, PieceAt ps (.snapshot base) h.indexAt ∧
    h.indexLen = (encodeIndex base.toList).length := by
  cases hw with
  | whole rs => exact .inl rfl
  | snap ps base rs hn hfit => exact .inr ⟨base, ⟨ps, _, rfl, rfl⟩, rfl⟩

theorem liveBytes_insert (m : Contents) (k : Key) (v : Bytes) :
    liveBytes (m.insert k v) = 10 + k.2.length + v.length + liveBytes (m.erase k) := by
  have hk : (m.insert k v)[k]? = some v := by rw [find_insert, if_pos rfl]
  have herase : (m.insert k v).erase k = m.erase k := map_ext fun a => by
    rw [find_erase, find_erase, find_insert]
    split <;> rfl
  have hperm := ((toList_perm_erase hk).map fun e : Key × Bytes => 10 + e.1.2.length +
      e.2.length).sum_eq
  rw [herase, List.map_cons, List.sum_cons] at hperm
  exact hperm

namespace Image

variable {I : Image}

theorem liveBytes_erase (I : Image) (k : Key) : liveBytes (I.map.erase k) + I.liveLen k =
    liveBytes I.map := by
  rw [liveLen]
  cases hk : I.map[k]? with
  | none =>
    rw [erase_of_none hk]
    rfl
  | some v =>
    have hperm := ((toList_perm_erase hk).map fun e : Key × Bytes => 10 + e.1.2.length +
        e.2.length).sum_eq
    rw [List.map_cons, List.sum_cons] at hperm
    rw [liveBytes, liveBytes, hperm]
    exact Nat.add_comm _ _

def spans (I : Image) : List (Nat × Nat) :=
  (I.header.indexAt, I.header.indexLen) :: I.inner.index.toList.map fun e => (e.2, I.liveLen e.1)

theorem Sound.at_entry (h : I.Sound) {e : Key × Nat} (he : e ∈ I.inner.index.toList) :
    ∃ v hf, PieceAt I.pieces (.record ⟨.put, e.1, v, hf⟩) e.2 ∧ I.map[e.1]? = some v ∧
      I.liveLen e.1 = (Piece.record ⟨.put, e.1, v, hf⟩).bytes.length := by
  obtain ⟨v, hf, hm, hp⟩ := h.placed e.1 e.2 (Std.ExtTreeMap.mem_toList_iff_getElem?_eq_some.mp he)
  refine ⟨v, hf, hp, hm, ?_⟩
  rw [liveLen, hm, Piece.bytes, Rec.bytes, length_encodeRecord]

theorem Sound.spans_in (h : I.Sound) :
    ∀ s ∈ I.spans, s.2 = 0 ∨ headerLen ≤ s.1 ∧
    s.1 + s.2 ≤ headerLen + (pieceBytes I.pieces).length := by
  intro s hs
  rcases List.mem_cons.mp hs with hs | hs
  · rw [hs]
    rcases h.written.named with h0 | ⟨base, hat, hlen⟩
    · exact .inl h0
    · have := hat.within
      rw [Piece.bytes, ← hlen] at this
      exact .inr this
  · obtain ⟨e, he, hse⟩ := List.mem_map.mp hs
    obtain ⟨v, hf, hat, -, hlen⟩ := h.at_entry he
    have := hat.within
    rw [← hlen] at this
    rw [← hse]
    exact .inr this

/-- No two of them share a byte: they are different pieces of the file. -/
theorem Sound.spans_apart (h : I.Sound) : I.spans.Pairwise Apart := by
  refine List.pairwise_cons.mpr ⟨fun s hs => ?_, ?_⟩
  · obtain ⟨e, he, hse⟩ := List.mem_map.mp hs
    obtain ⟨v, hf, hat, -, hlen⟩ := h.at_entry he
    rw [← hse]
    rcases h.written.named with h0 | ⟨base, hbase, hbaseLen⟩
    · rw [h0]
      exact apart_empty _ _
    · rcases hbase.apart hat with ⟨hsame, -⟩ | hle
      · cases hsame
      · rw [← hlen, Piece.bytes, ← hbaseLen] at hle
        exact apart_of_le hle
  · rw [List.pairwise_map]
    refine Std.ExtTreeMap.distinct_keys_toList.imp_of_mem fun {e e'} he he' hne => ?_
    obtain ⟨v, hf, hat, -, hlen⟩ := h.at_entry he
    obtain ⟨v', hf', hat', -, hlen'⟩ := h.at_entry he'
    rcases hat.apart hat' with ⟨hsame, -⟩ | hle
    · simp only [Piece.record.injEq, Rec.mk.injEq] at hsame
      rw [hsame.2.1] at hne
      exact absurd Std.ReflCmp.compare_self hne
    · rw [← hlen, ← hlen'] at hle
      exact apart_of_le hle

theorem Sound.spans_sum (h : I.Sound) :
    (I.spans.map (·.2)).sum = I.header.indexLen + liveBytes I.map := by
  have hlens : I.inner.index.toList.map (fun e => I.liveLen e.1) =
      I.map.toList.map fun e => 10 + e.1.2.length + e.2.length := by
    rw [← List.forall₂_eq_eq_eq, List.forall₂_map_left_iff, List.forall₂_map_right_iff]
    refine (forall₂_toList (R := fun k _ v => I.liveLen k = 10 + k.2.length + v.length)
      fun k => ?_).imp
      fun e x ⟨hk, hlen⟩ => by rw [hlen, hk]
    have hrel := h.stored.points k
    rw [liveLen]
    cases hi : I.inner.index[k]? <;> cases hm : I.map[k]? <;> rw [hi, hm] at hrel <;> cases hrel
    · exact .none
    · exact .some rfl
  rw [spans, List.map_cons, List.sum_cons, List.map_map, liveBytes, ← hlens]
  rfl

end Image

section
variable {I : Image} {s : Db}

theorem Shows.spans (h : Shows I s) : s.spans = I.spans := by
  rw [Db.spans, Image.spans, h.header, h.inner]
  refine congrArg _ (List.map_congr_left fun e he => ?_)
  obtain ⟨v, hf, hat, hm, -⟩ := h.sound.at_entry he
  have hb : s.world.bytes I.inner.path = I.layout.bytes := by rw [World.bytes, h.disk]; rfl
  have hlen : I.liveLen e.1 = 10 + e.1.2.length + v.length := by rw [Image.liveLen, hm]
  rw [hb, recordLen_at (l := I.layout) (hat.recAt rfl) hf, hlen]
  rfl

/-- Every byte behind the header is dead, live, or the snapshot's. -/
theorem Shows.dead_length (h : Shows I s) :
    deadBytes s + (I.header.indexLen + liveBytes I.map) = (pieceBytes I.pieces).length := by
  have hcard := card_uncovered I.spans h.sound.spans_in h.sound.spans_apart
  rw [h.sound.spans_sum, Nat.add_sub_cancel_left] at hcard
  rw [deadBytes, h.length, h.spans]
  exact hcard

end

/-! ## The counter, step by step -/

namespace Image

variable {I : Image}

/-- The counter says how many bytes of the image are dead. -/
def Counted (I : Image) : Prop := I.inner.dead + (I.header.indexLen + liveBytes I.map) =
    (pieceBytes I.pieces).length

theorem Counted.write_put (h : I.Counted) {k : Key} {v : Bytes} (hf : Fits k.2 v) :
    (I.write ⟨.put, k, v, hf⟩).Counted := by
  have hbefore := I.liveBytes_erase k
  have hafter := liveBytes_insert I.map k v
  simp only [Counted] at h
  simp only [Counted, write, pieceBytes_snoc, List.length_append, Piece.bytes, Rec.bytes,
    length_encodeRecord]
  omega

/-- The record of a delete is dead from the start, and is not counted. -/
theorem Counted.write_delete (h : I.Counted) {k : Key} (hf : Fits k.2 []) :
    ¬ (I.write ⟨.delete, k, [], hf⟩).Counted := by
  have hbefore := I.liveBytes_erase k
  simp only [Counted] at h
  simp only [Counted, write, pieceBytes_snoc, List.length_append, Piece.bytes, Rec.bytes,
    length_encodeRecord]
  omega

/-- A snapshot is counted right when it is the first of its file. -/
theorem Counted.snapshot_iff (h : I.Counted) :
    I.snapshot.Counted ↔ (I.inner.options.snapshot = true → I.header.indexLen = 0) := by
  simp only [Counted] at h
  rw [Image.snapshot]
  split
  · rename_i hs
    simp only [Counted, pieceBytes_snoc, List.length_append, Piece.bytes, hs, true_implies]
    omega
  · rename_i hs
    exact ⟨fun _ hs' => absurd hs' hs, fun _ => h⟩

theorem foldl_put_counted : ∀ (es : List (Key × Bytes)) (J : Image), J.Counted → J.inner.dead = 0 →
    J.header.indexLen = 0 →
    (∀ e ∈ es, Fits e.1.2 e.2) → (es.Pairwise fun a b => a.1 ≠ b.1) →
    (∀ e ∈ es, J.map[e.1]? = none) →
    (es.foldl (fun J e => J.put e.1 e.2) J).Counted ∧
    (es.foldl (fun J e => J.put e.1 e.2) J).inner.dead = 0 ∧
      (es.foldl (fun J e => J.put e.1 e.2) J).header.indexLen = 0
  | [], _, hc, hd, hh, _, _, _ => ⟨hc, hd, hh⟩
  | e :: es, J, hc, hd, hh, hf, hne, hnew => by
    have hfe := hf e List.mem_cons_self
    rw [List.pairwise_cons] at hne
    have hput := J.put_eq hfe
    have hdead : (J.put e.1 e.2).inner.dead = 0 := by
      rw [hput]
      simp only [write, hd, liveLen, hnew e List.mem_cons_self]
    refine foldl_put_counted es (J.put e.1 e.2) (by rw [hput]; exact hc.write_put hfe) hdead
      (by rw [hput]; exact hh)
      (fun x hx => hf x (List.mem_cons_of_mem _ hx)) hne.2 fun x hx => ?_
    rw [hput]
    simp only [write, find_insert]
    rw [if_neg (hne.1 x hx)]
    exact hnew x (List.mem_cons_of_mem _ hx)

/-- A compacted file has no dead bytes, and counts none. -/
theorem Fitting.compact_counted (h : I.Fitting) : I.compact.Counted ∧ I.compact.inner.dead = 0 := by
  have hdistinct : I.map.toList.Pairwise fun a b => a.1 ≠ b.1 :=
    Std.ExtTreeMap.distinct_keys_toList.imp fun {a b} hab he =>
      hab (by rw [he]; exact Std.ReflCmp.compare_self)
  obtain ⟨hc, hd, hh⟩ := foldl_put_counted I.map.toList (Image.fresh I.inner.path I.inner.options)
      rfl rfl rfl h.toList hdistinct
    (fun e _ => Std.ExtTreeMap.getElem?_empty)
  have hzero : I.copied.zero.Counted := by
    simp only [Counted] at hc
    rw [hd] at hc
    exact hc
  refine ⟨hzero.snapshot_iff.mpr fun _ => hh, ?_⟩
  rw [Image.compact, Image.snapshot]
  split <;> rfl

/-- The whole file is what lies in front of the snapshot, the snapshot, and what the tally saw behind it. -/
theorem tally_length {ps : List Piece} {h : Header} {ix : Index} (hw : Written ps h ix) :
    h.indexAt - headerLen + h.indexLen + ((tally ps).counted + (tally ps).brought) =
    (pieceBytes ps).length := by
  cases hw with
  | whole rs =>
    have := (foldl_records rs ⟨∅, headerLen, 0, 0⟩).2.2
    rw [tally, this, pieceBytes_records]
    simp [Header.default]
  | snap ps base rs hn hfit =>
    rw [tally, List.foldl_append, List.foldl_cons, (foldl_records rs _).2.2, pieceBytes_append,
      pieceBytes_cons,
      pieceBytes_records]
    simp only [Tally.next, Piece.bytes, List.length_append]
    omega

/-- The calls that keep the counter right, of a file where it is right. A delete is one if it finds
nothing or has the file compacted, a checkpoint if it writes the first snapshot, and a reopen if
what it does not count is as long as what is live. -/
def Exact (I : Image) : Call → Prop
  | .delete col key => I.map[(col, key)]?.isSome → compactDue (I.delete (col, key)).inner = true
  | .checkpoint => I.inner.options.snapshot = true → I.header.indexLen = 0
  | .reopen _ => I.header.indexAt - headerLen + (tally I.pieces).brought = liveBytes I.map
  | .put .. | .get .. | .scan .. | .scanKeys .. | .len | .compact => True

theorem Counted.settle (h : I.Counted) (hf : I.Fitting) : I.settle.Counted := by
  rw [Image.settle]
  split
  · exact hf.compact_counted.1
  · exact h

theorem Sound.reopen_counted_iff (hs : I.Sound) (options : Options) :
    (I.reopen options).Counted ↔ I.header.indexAt - headerLen + (tally I.pieces).brought =
    liveBytes I.map := by
  have hlen := tally_length hs.written
  simp only [Counted, Image.reopen]
  omega

/-- From a counter that is right, a call makes one that is right exactly when it is one of those. -/
theorem Counted.step_iff (h : I.Counted) (hs : I.Sound) (c : Call) (hf : c.Fits I.map) :
    (I.step c).Counted ↔ I.Exact c := by
  cases c with
  | put col key value =>
    refine iff_of_true ?_ trivial
    rw [step, I.put_eq (k := (col, key)) hf.1]
    exact (h.write_put hf.1).settle (hs.fitting.write_put hf.1)
  | delete col key =>
    rw [step, Exact]
    split
    · rename_i hk
      obtain ⟨hfit, hdel⟩ := delete_eq hs hk
      rw [hdel, Image.settle]
      split
      · rename_i hdue
        exact iff_of_true (hs.fitting.write_delete hfit).compact_counted.1 fun _ => hdue
      · rename_i hdue
        exact iff_of_false (h.write_delete hfit) fun hall => hdue (hall hk)
    · rename_i hk
      exact iff_of_true h fun hk' => absurd hk' hk
  | checkpoint => exact h.snapshot_iff
  | compact => exact iff_of_true hs.fitting.compact_counted.1 trivial
  | reopen options => exact hs.reopen_counted_iff options
  | get col key => exact iff_of_true h trivial
  | scan col stem => exact iff_of_true h trivial
  | scanKeys col stem => exact iff_of_true h trivial
  | len => exact iff_of_true h trivial

/-! ## The share, step by step -/

/-- The share of the dead bytes is below the one the file is compacted at. -/
def Below (I : Image) : Prop := compactDue I.inner = false

theorem below_of_dead (hc : I.inner.options.compactAt.Positive) (h : I.inner.dead = 0) : I.Below := by
  have := Binary64.share_zero_ge hc (I.inner.endAt - headerLen)
  simp only [Below, compactDue, h]
  rw [Binary64.share] at this
  rw [this, Bool.and_false]

theorem options_settle (hf : I.Fitting) : I.compact.inner.options = I.inner.options ∧
    I.settle.inner.options = I.inner.options := by
  have hcopy : I.copied.inner.options = I.inner.options :=
    (foldl_put I.map.toList (Image.fresh I.inner.path I.inner.options) hf.toList).2.2
  have hcompact : I.compact.inner.options = I.inner.options := by
    rw [Image.compact, Image.snapshot]
    split <;> exact hcopy
  refine ⟨hcompact, ?_⟩
  rw [Image.settle]
  split
  · exact hcompact
  · rfl

theorem below_settle (hc : I.inner.options.compactAt.Positive) (hf : I.Fitting) :
    I.settle.Below := by
  rw [Image.settle]
  split
  · refine below_of_dead ?_ hf.compact_counted.2
    rw [(options_settle hf).1]
    exact hc
  · rename_i hdue
    exact Bool.eq_false_iff.mpr hdue

theorem Below.snapshot (h : I.Below) (hc : I.inner.options.compactAt.Positive) (hcount : I.Counted)
    (hs : I.Sound) :
    I.snapshot.Below := by
  rw [Image.snapshot]
  split
  · by_cases hlive : 0 < I.inner.endAt - headerLen
    · simp only [Below, compactDue, hlive, decide_true, Bool.true_and] at h ⊢
      rw [Bool.and_eq_false_iff]
      refine .inr (Bool.eq_false_iff.mpr fun hge => ?_)
      have := Binary64.share_ge_of_le hlive (by omega) hge
      rw [Binary64.share] at this
      rw [this] at h
      cases h
    · refine below_of_dead hc ?_
      have hend : I.inner.endAt = headerLen + (pieceBytes I.pieces).length := hs.endAt
      simp only [Counted] at hcount
      simp only
      omega
  · exact h

/-- A reopen keeps the share the file is compacted at. -/
def SameCut (cut : Binary64) : Call → Prop
  | .reopen options => options.compactAt = cut
  | _ => True

theorem Below.step (h : I.Below) (hc : I.inner.options.compactAt.Positive) (hcount : I.Counted)
    (hs : I.Sound) (c : Call)
    (hf : c.Fits I.map) (he : I.Exact c) (hcut : SameCut I.inner.options.compactAt c) :
    (I.step c).Below ∧ (I.step c).inner.options.compactAt = I.inner.options.compactAt := by
  cases c with
  | put col key value =>
    have hfit := hs.fitting.write_put (k := (col, key)) hf.1
    rw [Image.step, I.put_eq (k := (col, key)) hf.1]
    exact ⟨below_settle hc hfit, by rw [(options_settle hfit).2]; rfl⟩
  | delete col key =>
    rw [Image.step]
    split
    · rename_i hk
      obtain ⟨hfits, hdel⟩ := delete_eq hs hk
      have hfit := hs.fitting.write_delete hfits
      rw [hdel]
      exact ⟨below_settle hc hfit, by rw [(options_settle hfit).2]; rfl⟩
    · exact ⟨h, rfl⟩
  | checkpoint =>
    refine ⟨h.snapshot hc hcount hs, ?_⟩
    rw [Image.step, Image.snapshot]
    split <;> rfl
  | compact =>
    have hopts := (options_settle hs.fitting).1
    exact ⟨below_of_dead (I := I.compact) (by rw [hopts]; exact hc) hs.fitting.compact_counted.2,
      congrArg Options.compactAt hopts⟩
  | reopen options =>
    have hlen := tally_length hs.written
    have hsame : (tally I.pieces).counted = I.inner.dead := by
      simp only [Exact] at he
      simp only [Counted] at hcount
      omega
    have hopts : options.compactAt = I.inner.options.compactAt := hcut
    refine ⟨?_, hopts⟩
    simp only [Below, Image.step, Image.reopen, compactDue, hsame, hopts] at h ⊢
    exact h
  | get col key => exact ⟨h, rfl⟩
  | scan col stem => exact ⟨h, rfl⟩
  | scanKeys col stem => exact ⟨h, rfl⟩
  | len => exact ⟨h, rfl⟩

/-- Each call of a run meets `P` at the image it starts from. -/
def Along (P : Image → Call → Prop) : Image → List Call → Prop
  | _, [] => True
  | I, c :: cs => P I c ∧ Along P (I.step c) cs

theorem Along.take {P : Image → Call → Prop} : ∀ {I : Image} {cs : List Call}, Along P I cs →
    ∀ n, Along P I (cs.take n)
  | _, [], _, n => by
    rw [List.take_nil]
    trivial
  | _, _ :: _, _, 0 => trivial
  | _, _ :: _, h, n + 1 => ⟨h.1, h.2.take n⟩

/-- The counter is right all along a run exactly when each of its calls keeps it right. -/
theorem run_counted_iff : ∀ (cs : List Call) {I : Image}, I.Counted →
    (∀ n, (I.run (cs.take n)).Sound) →
    FitsRun I.map (cs.map .call) → ((∀ n, (I.run (cs.take n)).Counted) ↔ Along Exact I cs)
  | [], I, h, _, _ => by
    refine iff_of_true (fun n => ?_) trivial
    rw [List.take_nil]
    exact h
  | c :: cs, I, h, hs, hf => by
    have hsound : I.Sound := hs 0
    have hstep := h.step_iff hsound c hf.1
    have hmore : FitsRun (I.step c).map (cs.map .call) := by
      rw [map_step hsound c hf.1]
      exact hf.2
    constructor
    · intro hall
      have hnext : (I.step c).Counted := hall 1
      exact ⟨hstep.mp hnext, (run_counted_iff cs hnext (fun n => hs (n + 1)) hmore).mp fun n => hall (n + 1)⟩
    · intro ⟨hc, hcs⟩ n
      cases n with
      | zero => exact h
      | succ n =>
        exact (run_counted_iff cs (hstep.mpr hc) (fun n => hs (n + 1)) hmore).mpr hcs n

theorem run_below : ∀ (cs : List Call) {I : Image}, I.Below →
    I.inner.options.compactAt.Positive → I.Counted →
    (∀ n, (I.run (cs.take n)).Sound) → FitsRun I.map (cs.map .call) → Along Exact I cs →
    (∀ c ∈ cs, SameCut I.inner.options.compactAt c) →
    (I.run cs).Below ∧ (I.run cs).inner.options.compactAt = I.inner.options.compactAt
  | [], _, h, _, _, _, _, _, _ => ⟨h, rfl⟩
  | c :: cs, I, h, hc, hcount, hs, hf, he, hcut => by
    have hsound : I.Sound := hs 0
    have hmore : FitsRun (I.step c).map (cs.map .call) := by
      rw [map_step hsound c hf.1]
      exact hf.2
    obtain ⟨hnext, hopts⟩ := h.step hc hcount hsound c hf.1 he.1 (hcut c List.mem_cons_self)
    obtain ⟨hrun, hends⟩ := run_below cs hnext (by rw [hopts]; exact hc)
        ((hcount.step_iff hsound c hf.1).mpr he.1)
      (fun n => hs (n + 1)) hmore he.2 fun c' hc' => by
        rw [hopts]
        exact hcut c' (List.mem_cons_of_mem _ hc')
    exact ⟨hrun, hends.trans hopts⟩

end Image

/-! ## Runs -/

theorem runTo_append : ∀ (cs cs' : List Call) (s : Db), runTo (cs ++ cs') s =
    (runTo cs s).bind (runTo cs')
  | [], _, _ => rfl
  | c :: cs, cs', s => by
    rw [List.cons_append, runTo, runTo]
    cases exec c s with
    | ok a s' => exact runTo_append cs cs' s'
    | error e s' => rfl

/-- A run that was not stopped was not stopped before. -/
theorem reach_take {path : PathBuf} {options : Options} {cs : List Call} {w : World}
    (h : (reach path options cs w).isSome) (n : Nat) : ∃ s', reach path options (cs.take n) w = some s' := by
  obtain ⟨s, hs⟩ := Option.isSome_iff_exists.mp h
  unfold reach at hs ⊢
  split at hs
  · rw [← List.take_append_drop n cs, runTo_append, Option.bind_eq_some_iff] at hs
    obtain ⟨s', hs', -⟩ := hs
    exact ⟨s', hs'⟩
  · cases hs

theorem fitsRun_take : ∀ {m : Contents} {cs : List Call}, FitsRun m (cs.map .call) →
    ∀ n, FitsRun m ((cs.take n).map .call)
  | _, [], _, n => by
    rw [List.take_nil]
    trivial
  | _, _ :: _, _, 0 => trivial
  | _, _ :: _, h, n + 1 => ⟨h.1, fitsRun_take h.2 n⟩

theorem Shows.counted_iff {I : Image} {s : Db} (h : Shows I s) : I.Counted ↔
    s.inner.dead = deadBytes s := by
  have hdead := h.dead_length
  rw [Image.Counted, h.inner]
  omega

def bodyLen (s : Db) : Nat := (s.world.bytes s.inner.path).length - headerLen

/-- The dead share of the file is below `cut`: as the store computes shares, exactly so for a file
below `2 ^ 53` bytes, and at one half for every file. -/
def DeadBelow (cut : Binary64) (s : Db) : Prop :=
  0 < bodyLen s →
    (Binary64.share (deadBytes s) (bodyLen s)).ge cut = false ∧
    (∀ q, cut = .finite q → Binary64.round q = q → bodyLen s < 2 ^ 53 →
      (deadBytes s : ℚ) / bodyLen s < q) ∧
    (cut = .finite (1 / 2) → 2 * deadBytes s < bodyLen s)

theorem Shows.deadBelow {I : Image} {s : Db} (h : Shows I s) (hcount : I.Counted)
    (hbelow : I.Below) :
    DeadBelow I.inner.options.compactAt s := by
  intro hpos
  have hdead := h.counted_iff.mp hcount
  have hle := h.dead_length
  have hlen : bodyLen s = (pieceBytes I.pieces).length := by
    rw [bodyLen, h.length, Nat.add_sub_cancel_left]
  have hend : I.inner.endAt - headerLen = bodyLen s := by
    rw [hlen, h.sound.endAt]
    exact Nat.add_sub_cancel_left ..
  have hge : (Binary64.share (deadBytes s) (bodyLen s)).ge I.inner.options.compactAt = false := by
    simp only [Image.Below, compactDue, hend, hpos, decide_true, Bool.true_and] at hbelow
    rw [← hdead, h.inner]
    exact hbelow
  refine ⟨hge, fun q hq hround hsmall => ?_, fun hhalf => ?_⟩
  · rw [hq] at hge
    exact Binary64.share_lt (by omega) hsmall hround hge
  · by_contra hlarge
    rw [hhalf, Binary64.half_le_share hpos (by omega)] at hge
    cases hge

/-- Along a run that is not stopped, the counter is right in every state exactly when each call
keeps it right; and then, if every open compacts at one positive share, the dead share is below it
in every state. -/
theorem dead_counted_iff {path : PathBuf} {options : Options} {cs : List Call} {w : World}
    (hext : path.extension ≠ some "tmp") (hfresh : (w.bytes path).length < headerLen)
    (hf : FitsRun ∅ (cs.map .call)) (hr : (reach path options cs w).isSome) :
    ((∀ n s', reach path options (cs.take n) w = some s' → s'.inner.dead = deadBytes s') ↔
        Image.Along Image.Exact (.fresh path options) cs) ∧
      (Image.Along Image.Exact (.fresh path options) cs → options.compactAt.Positive →
        (∀ c ∈ cs, Image.SameCut options.compactAt c) →
        ∀ n s', reach path options (cs.take n) w = some s' → DeadBelow options.compactAt s') := by
  let I := Image.fresh path options
  have hshows : ∀ n s', reach path options (cs.take n) w = some s' → Shows (I.run (cs.take n)) s' :=
    fun n s' hs' =>
    reach_shows hext hfresh (fitsRun_take hf n) hs'
  have hsound : ∀ n, (I.run (cs.take n)).Sound := fun n => by
    obtain ⟨s', hs'⟩ := reach_take hr n
    exact (hshows n s' hs').sound
  have hcounted := Image.run_counted_iff cs (I := I) rfl hsound hf
  refine ⟨?_, fun hexact hpos hcut n s' hs' => ?_⟩
  · rw [← hcounted]
    constructor
    · intro hall n
      obtain ⟨s', hs'⟩ := reach_take hr n
      exact (hshows n s' hs').counted_iff.mpr (hall n s' hs')
    · intro hall n s' hs'
      exact (hshows n s' hs').counted_iff.mp (hall n)
  · have hprefix : ∀ k, (I.run ((cs.take n).take k)).Sound := fun k => by
      rw [List.take_take]
      exact hsound _
    obtain ⟨hbelow, hopts⟩ := Image.run_below (cs.take n) (I := I) (Image.below_of_dead hpos rfl)
        hpos rfl hprefix
      (fitsRun_take hf n) (hexact.take n) fun c hc => hcut c (List.mem_of_mem_take hc)
    have := (hshows n s' hs').deadBelow (hcounted.mpr hexact n) hbelow
    rw [hopts] at this
    exact this

theorem dead_counted_instance :
    ((∀ n s', reach ⟨"/", "store", some "crmem"⟩ .default
          (List.take n [.put 1 [7] [1, 2], .put 1 [7] [3, 4], .checkpoint, .put 1 [7] [5, 6],
            .delete 1 [7], .put 1 [8] []])
          ⟨fun _ => none, none, .plain⟩ = some s' → s'.inner.dead = deadBytes s') ↔
        Image.Along Image.Exact (.fresh ⟨"/", "store", some "crmem"⟩ .default)
          [.put 1 [7] [1, 2], .put 1 [7] [3, 4], .checkpoint, .put 1 [7] [5, 6], .delete 1 [7],
            .put 1 [8] []]) ∧
      (Image.Along Image.Exact (.fresh ⟨"/", "store", some "crmem"⟩ .default)
          [.put 1 [7] [1, 2], .put 1 [7] [3, 4], .checkpoint, .put 1 [7] [5, 6], .delete 1 [7],
            .put 1 [8] []] →
        Options.default.compactAt.Positive →
        (∀ c ∈ [Call.put 1 [7] [1, 2], .put 1 [7] [3, 4], .checkpoint, .put 1 [7] [5, 6],
          .delete 1 [7], .put 1 [8] []],
          Image.SameCut Options.default.compactAt c) →
        ∀ n s', reach ⟨"/", "store", some "crmem"⟩ .default
            (List.take n [.put 1 [7] [1, 2], .put 1 [7] [3, 4], .checkpoint, .put 1 [7] [5, 6],
              .delete 1 [7], .put 1 [8] []])
            ⟨fun _ => none, none, .plain⟩ = some s' → DeadBelow Options.default.compactAt s') :=
  dead_counted_iff (by decide) (by decide) (by decide +kernel) (by decide +kernel)

/-- The counter, the dead bytes and the bytes behind the header: after a delete, after a reopen, and
after checkpoints, where more than half of the file is dead behind a put. -/
theorem dead_uncounted :
    (reach ⟨"/", "store", some "crmem"⟩ .default [.put 1 [7] [], .put 1 [8] (List.replicate 20 9),
      .delete 1 [7]]
        ⟨fun _ => none, none, .plain⟩).map (fun s => (s.inner.dead, deadBytes s, bodyLen s)) =
        some (11, 22, 53) ∧
      (reach ⟨"/", "store", some "crmem"⟩ .default [.put 1 [7] [], .put 1 [7] (List.replicate 20 9),
        .reopen .default]
        ⟨fun _ => none, none, .plain⟩).map (fun s => (s.inner.dead, deadBytes s, bodyLen s)) =
        some (31, 11, 42) ∧
      (reach ⟨"/", "store", some "crmem"⟩ .default
        [.put 1 [7] [], .checkpoint, .checkpoint, .checkpoint, .checkpoint, .put 1 [8] []]
        ⟨fun _ => none, none, .plain⟩).map (fun s => (s.inner.dead, deadBytes s, bodyLen s)) =
        some (0, 54, 94) := by
  refine ⟨?_, ?_, ?_⟩
  · decide +kernel
  · decide +kernel
  · decide +kernel

end Crabtalk.Crabdb

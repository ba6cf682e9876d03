import Crabtalk.Crabdb.Image

/-!
# The map a file stores

`Stored m l ix`: reading the header's snapshot and replaying the records
behind it gives the index `ix`, and each entry of `ix` is where the newest
record of a key of `m` stands. Each write of the store takes one such
situation to another.
-/

open Basis

namespace Crabtalk.Crabdb

/-- The record that puts `v` at `k` stands at `off` of a file with this body. -/
def RecAt (body : Bytes) (k : Key) (off : Nat) (v : Bytes) : Prop :=
  ∃ a b, body = a ++ (encodeRecord .put k.1 k.2 v ++ b) ∧ off = headerLen + a.length

theorem RecAt.append {body : Bytes} {k : Key} {off : Nat} {v : Bytes} (h : RecAt body k off v) (bs : Bytes) :
    RecAt (body ++ bs) k off v := by
  obtain ⟨a, b, rfl, hoff⟩ := h
  exact ⟨a, b ++ bs, by simp only [List.append_assoc], hoff⟩

theorem RecAt.last (body : Bytes) (k : Key) (v : Bytes) :
    RecAt (body ++ encodeRecord .put k.1 k.2 v) k (headerLen + body.length) v :=
  ⟨body, [], by rw [List.append_nil], rfl⟩

structure Stored (m : Contents) (l : Layout) (ix : Index) : Prop where
  log : Log l.header l.body ix
  points : ∀ k : Key, Option.Rel (RecAt l.body k) ix[k]? m[k]?
  fits : ∀ (k : Key) (v : Bytes), m[k]? = some v → Fits k.2 v
  count : m.size < 256 ^ 4
  room : l.endAt ≤ maxOffset

namespace Stored

variable {m : Contents} {l : Layout} {ix : Index}

theorem junk (h : Stored m l ix) (j : Bytes) : Stored m { l with junk := j } ix :=
  ⟨h.log, h.points, h.fits, h.count, h.room⟩

theorem isSome (h : Stored m l ix) (k : Key) : ix[k]?.isSome = m[k]?.isSome := by
  cases hi : ix[k]? <;> cases hm : m[k]? <;> have := h.points k <;> rw [hi, hm] at this <;>
    cases this <;> rfl

theorem none_iff (h : Stored m l ix) {k : Key} : ix[k]? = none ↔ m[k]? = none := by
  rw [← Option.not_isSome_iff_eq_none, ← Option.not_isSome_iff_eq_none, h.isSome]

theorem size_eq (h : Stored m l ix) : ix.size = m.size := size_congr h.isSome

theorem recAt (h : Stored m l ix) {k : Key} {off : Nat} (hk : ix[k]? = some off) :
    ∃ v, m[k]? = some v ∧ RecAt l.body k off v := by
  have := h.points k
  rw [hk] at this
  cases hm : m[k]? with
  | none => rw [hm] at this; cases this
  | some v =>
    rw [hm] at this
    cases this with
    | some hr => exact ⟨v, rfl, hr⟩

/-- The index and the map list the same keys, and the index points at the values. -/
theorem toList (h : Stored m l ix) :
    List.Forall₂ (fun e x => e.1 = x.1 ∧ RecAt l.body e.1 e.2 x.2) ix.toList m.toList :=
  forall₂_toList h.points

theorem under (h : Stored m l ix) (col : UInt8) (stem : Bytes) :
    List.Forall₂ (fun e x => e.1 = x.1 ∧ RecAt l.body e.1 e.2 x.2) (ix.under col stem)
    (m.under col stem) :=
  List.rel_filter (fun {a b} hab => by simp only [hab.1]) h.toList

theorem under_keys (h : Stored m l ix) (col : UInt8) (stem : Bytes) :
    (ix.under col stem).map (fun e => e.1.2) = (m.under col stem).map fun e => e.1.2 := by
  have := (h.under col stem).imp (S := fun e x => e.1.2 = x.1.2) fun _ _ he => by rw [he.1]
  rwa [← List.forall₂_eq_eq_eq, List.forall₂_map_left_iff, List.forall₂_map_right_iff]

theorem empty : Stored ∅ ⟨.default, [], []⟩ ∅ where
  log := .whole []
  points _ := by simp only [Std.ExtTreeMap.getElem?_empty]; exact .none
  fits _ _ h := by simp at h
  count := by simp
  room := by simp [Layout.endAt, headerLen, maxOffset]

/-! ## Writes -/

theorem put (h : Stored m l ix) {k : Key} {v : Bytes} (hf : Fits k.2 v)
    (hn : (m.insert k v).size < 256 ^ 4)
    (j : Bytes) (hroom : l.endAt + (encodeRecord .put k.1 k.2 v).length ≤ maxOffset) :
    Stored (m.insert k v) ⟨l.header, l.body ++ encodeRecord .put k.1 k.2 v, j⟩
    (ix.insert k l.endAt) where
  log := h.log.append ⟨.put, k, v, hf⟩
  points k' := by
    rw [find_insert, find_insert]
    split
    · rename_i hk
      subst hk
      exact .some (RecAt.last l.body k v)
    · have := h.points k'
      cases hi : ix[k']? <;> cases hm : m[k']? <;> rw [hi, hm] at this <;> cases this
      · exact .none
      · rename_i hr
        exact .some (hr.append _)
  fits k' v' hk' := by
    rw [find_insert] at hk'
    split at hk'
    · rename_i hk
      cases hk'
      subst hk
      exact hf
    · exact h.fits k' v' hk'
  count := hn
  room := by
    simp only [Layout.endAt, List.length_append] at hroom ⊢
    omega

theorem delete (h : Stored m l ix) {k : Key} (hk : m[k]?.isSome) (j : Bytes)
    (hroom : l.endAt + (encodeRecord .delete k.1 k.2 []).length ≤ maxOffset) :
    Stored (m.erase k) ⟨l.header, l.body ++ encodeRecord .delete k.1 k.2 [], j⟩ (ix.erase k) where
  log := by
    obtain ⟨v, hv⟩ := Option.isSome_iff_exists.mp hk
    exact h.log.append ⟨.delete, k, [], (h.fits k v hv).1, by simp⟩
  points k' := by
    rw [find_erase, find_erase]
    split
    · exact .none
    · have := h.points k'
      cases hi : ix[k']? <;> cases hm : m[k']? <;> rw [hi, hm] at this <;> cases this
      · exact .none
      · rename_i hr
        exact .some (hr.append _)
  fits k' v' hk' := by
    rw [find_erase] at hk'
    split at hk'
    · cases hk'
    · exact h.fits k' v' hk'
  count := Nat.lt_of_le_of_lt Std.ExtTreeMap.size_erase_le h.count
  room := by
    simp only [Layout.endAt, List.length_append] at hroom ⊢
    omega

theorem entryFits (h : Stored m l ix) : ∀ e ∈ ix.toList, EntryFits e := by
  intro ⟨k, off⟩ he
  rw [Std.ExtTreeMap.mem_toList_iff_getElem?_eq_some] at he
  obtain ⟨v, hv, a, b, hbody, hoff⟩ := h.recAt he
  have hroom := h.room
  rw [Layout.endAt, hbody, List.length_append] at hroom
  refine ⟨(h.fits k v hv).1, ?_⟩
  simp only [hoff, maxOffset] at hroom ⊢
  omega

theorem snapshot (h : Stored m l ix) (j : Bytes)
    (hroom : l.endAt + (encodeIndex ix.toList).length ≤ maxOffset) :
    Stored m ⟨⟨l.endAt, (encodeIndex ix.toList).length⟩, l.body ++ encodeIndex ix.toList, j⟩ ix where
  log := by
    have hn : ix.toList.length < 256 ^ 4 := by
      rw [Std.ExtTreeMap.length_toList, h.size_eq]
      exact h.count
    have := Log.snap l.body ix [] hn h.entryFits
    simp only [encodeLog, List.flatMap_nil, List.append_nil, replayLog] at this
    exact this
  points k := by
    have := h.points k
    cases hi : ix[k]? <;> cases hm : m[k]? <;> rw [hi, hm] at this <;> cases this
    · exact .none
    · rename_i hr
      exact .some (hr.append _)
  fits := h.fits
  count := h.count
  room := by
    simp only [Layout.endAt, List.length_append] at hroom ⊢
    omega

theorem header_lt (h : Stored m l ix) : l.header.indexAt < 256 ^ 8 ∧ l.header.indexLen < 256 ^ 8 := by
  have hroom := h.room
  obtain ⟨header, body, j⟩ := l
  have hlog : Log header body ix := h.log
  simp only [Layout.endAt, maxOffset] at hroom ⊢
  cases hlog with
  | whole rs => exact ⟨by decide, by decide⟩
  | snap a base rs =>
    simp only [List.length_append] at hroom
    exact ⟨by simp only; omega, by simp only; omega⟩

end Stored

/-! ## Compaction -/

/-- The index of a file that holds these entries' records and nothing else,
from the record at `pos` on. -/
def pack : List (Key × Bytes) → Index → Nat → Index
  | [], moved, _ => moved
  | (k, v) :: live, moved, pos =>
    pack live (moved.insert k pos) (pos + (10 + k.2.length + v.length))

def packed (m : Contents) : Index := pack m.toList ∅ headerLen

end Crabtalk.Crabdb

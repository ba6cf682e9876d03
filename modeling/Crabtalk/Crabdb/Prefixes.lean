import Crabtalk.Crabdb.Format

/-!
# Encodings cut short

A record and an index read back from their encodings. What is cut off anywhere
is an incomplete record, and no index at all: the fields that are still there
say how long the whole is.
-/

open Basis

namespace Crabtalk.Crabdb

section
variable {p b buf : Bytes} {n pos : Nat} {es : List (Key × Nat)}

/-- The entries of a buffer do not change when bytes follow it, and end inside the buffer. -/
theorem decodeEntries_of_isPrefix (h : p <+: b) :
    ∀ {n pos : Nat} {es : List (Key × Nat)}, decodeEntries n p pos = some es →
    decodeEntries n b pos = some es ∧
    (pos ≤ p.length → pos + (es.flatMap encodeEntry).length ≤ p.length)
  | 0, pos, es, hes => by
    cases hes
    exact ⟨rfl, fun hpos => by simpa using hpos⟩
  | n + 1, pos, es, hes => by
    simp only [decodeEntries, Option.bind_eq_bind, Option.bind_eq_some_iff, Prod.exists] at hes
    obtain ⟨col, e0, keyLen, p1, e1, key, p2, e2, offset, p3, e3, rest, e4, hes⟩ := hes
    obtain ⟨ih, hend⟩ := decodeEntries_of_isPrefix h e4
    have l1 := takeU32_pos e1
    have l2 := take_pos e2
    have l3 := take_pos e3
    have hkey := (take_split e2).2
    have hcol : b[pos]? = some col := by
      obtain ⟨t, rfl⟩ := h
      have hlt := (List.getElem?_eq_some_iff.mp e0).1
      rw [List.getElem?_append_left hlt, e0]
    simp only [pure, Option.some.injEq] at hes
    subst hes
    simp only at l1 l2 l3 hkey hend
    refine ⟨?_, fun _ => ?_⟩
    · simp only [decodeEntries, hcol, takeU32_of_isPrefix h e1, take_of_isPrefix h e2,
        take_of_isPrefix h e3, ih, Option.bind_eq_bind,
        Option.bind_some, pure]
    · have hrest := hend (by omega)
      simp only [List.flatMap_cons, List.length_append, encodeEntry, List.length_cons, length_le]
      omega

theorem decodeIndex_of_isPrefix (hn : es.length < 256 ^ 4) (he : ∀ e ∈ es, EntryFits e)
    (h : p <+: encodeIndex es)
    (hlt : p.length < (encodeIndex es).length) : decodeIndex p = none := by
  by_contra hsome
  obtain ⟨es', hp⟩ := Option.ne_none_iff_exists'.mp hsome
  have hfull := decodeIndex_encode hn he []
  rw [List.append_nil] at hfull
  simp only [decodeIndex, Option.bind_eq_bind, Option.bind_eq_some_iff, Prod.exists] at hp
  obtain ⟨count, pos, e1, e2⟩ := hp
  obtain ⟨hentries, hend⟩ := decodeEntries_of_isPrefix h e2
  have hindex : decodeIndex (encodeIndex es) = some es' := by
    simp only [decodeIndex, takeU32_of_isPrefix h e1, Option.bind_eq_bind,
      Option.bind_some, hentries]
  have hes : es = es' := by
    rw [hfull] at hindex
    exact Option.some.inj hindex
  have hpos := takeU32_pos e1
  simp only at hpos
  have hlen := hend (by omega)
  rw [← hes] at hlen
  rw [encodeIndex, List.length_append, length_le] at hlt
  omega

theorem decodeRecord_of_strict {op : Op} {col : UInt8} {key value : Bytes} (hf : Fits key value)
    (h : p <+: encodeRecord op col key value)
    (hlt : p.length < (encodeRecord op col key value).length) : decodeRecord p = .ok none := by
  rw [List.prefix_iff_eq_take.mp h]
  exact decodeRecord_take hf hlt

end

/-- Both formats read back what they wrote, and nothing from less of it. -/
theorem decode_encoded (op : Op) (col : UInt8) {key value : Bytes} (hf : Fits key value)
    {es : List (Key × Nat)} (hn : es.length < 256 ^ 4)
    (he : ∀ e ∈ es, EntryFits e) :
    (∀ rest, decodeRecord (encodeRecord op col key value ++ rest) =
      .ok (some ⟨op, col, key, value, (encodeRecord op col key value).length⟩)) ∧
    (∀ p, p <+: encodeRecord op col key value → p ≠ encodeRecord op col key value →
      decodeRecord p = .ok none) ∧
    decodeIndex (encodeIndex es) = some es ∧
    ∀ p, p <+: encodeIndex es → p ≠ encodeIndex es → decodeIndex p = none := by
  have hstrict {p b : Bytes} (h : p <+: b) (hne : p ≠ b) : p.length < b.length :=
    h.length_le.lt_of_ne fun hlen => hne (h.eq_of_length hlen)
  refine ⟨fun rest => ?_, fun p h hne => decodeRecord_of_strict hf h (hstrict h hne), ?_,
    fun p h hne => decodeIndex_of_isPrefix hn he h (hstrict h hne)⟩
  · rw [decodeRecord_encode op col hf, length_encodeRecord]
  · have hfull := decodeIndex_encode hn he []
    rwa [List.append_nil] at hfull

theorem decode_encoded_one :
    decodeRecord (encodeRecord .put 1 [97] [98, 99] ++ [0]) =
    .ok (some ⟨.put, 1, [97], [98, 99], 13⟩) ∧
      decodeIndex ((encodeIndex [((1, [97]), 32)]).take 9) = none := by
  have hf : Fits [97] [98, 99] := by decide
  have he : ∀ e ∈ [((1, [97]), 32)], EntryFits e := fun e he => by
    rw [List.mem_singleton.mp he]
    exact ⟨by decide, by decide⟩
  obtain ⟨hrecord, -, -, hcut⟩ := decode_encoded .put 1 hf (by decide) he
  exact ⟨hrecord [0], hcut _ (List.take_prefix _ _) (by decide)⟩

end Crabtalk.Crabdb

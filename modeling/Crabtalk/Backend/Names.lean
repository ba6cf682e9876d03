import Crabtalk.Basis.FileTree
import Crabtalk.Basis.LittleEndian
import Crabtalk.Store.Kv

/-!
# Names as file names

A name arrives from a person or a model. What is not `[A-Za-z0-9._-]` of its
UTF-8 bytes is percent-encoded, so it stays one component of a path; what kind
of component is another matter.
-/

open Basis

namespace Crabtalk.Backend

open Store

abbrev FilePath := List (Component Str)

def utf8 (s : Str) : Bytes := s.flatMap String.utf8EncodeChar

def fromUtf8 (bytes : Bytes) : Option Str :=
  (ByteArray.utf8Decode? bytes.toByteArray).map Array.toList

theorem fromUtf8_utf8 (s : Str) : fromUtf8 (utf8 s) = some s := by
  have h : (utf8 s).toByteArray = s.utf8Encode := rfl
  rw [fromUtf8, h, List.utf8Decode?_utf8Encode]
  rfl

theorem utf8_inj {s s' : Str} (h : utf8 s = utf8 s') : s = s' := by
  have he := fromUtf8_utf8 s
  rw [h, fromUtf8_utf8] at he
  exact (Option.some.inj he).symm

theorem utf8_of_fromUtf8 {bytes : Bytes} {s : Str} (h : fromUtf8 bytes = some s) :
    bytes = utf8 s := by
  obtain ⟨chars, hdecode, rfl⟩ := Option.map_eq_some_iff.mp h
  obtain ⟨t, ht⟩ := ByteArray.isSome_utf8Decode?_iff.mp (by rw [hdecode]; rfl)
  rw [ht, List.utf8Decode?_utf8Encode, Option.some.injEq] at hdecode
  have hdata := congrArg ByteArray.data ht
  rw [← hdecode]
  simpa [List.utf8Encode, utf8] using hdata

instance : NameLimit Str where
  fits name := (utf8 name).length ≤ 255

@[simp] theorem utf8_append (s s' : Str) : utf8 (s ++ s') = utf8 s ++ utf8 s' := List.flatMap_append

/-! ## Encoding -/

def hexUpper : List Char := ['0', '1', '2', '3', '4', '5', '6', '7', '8', '9', 'A', 'B', 'C', 'D', 'E', 'F']

def isSafe (byte : UInt8) : Bool :=
  (65 ≤ byte && byte ≤ 90) || (97 ≤ byte && byte ≤ 122) || (48 ≤ byte && byte ≤ 57) || byte =
    46 || byte = 95 || byte = 45

def encodeByte (byte : UInt8) : Str :=
  if isSafe byte then [Char.ofNat byte.toNat]
  else ['%', hexUpper.getD (byte.toNat / 16) '0', hexUpper.getD (byte.toNat % 16) '0']

def encode (name : Str) : Str := (utf8 name).flatMap encodeByte

def hexValue (byte : UInt8) : Option UInt8 :=
  if 48 ≤ byte ∧ byte ≤ 57 then some (byte - 48)
  else if 65 ≤ byte ∧ byte ≤ 70 then some (byte - 55)
  else if 97 ≤ byte ∧ byte ≤ 102 then some (byte - 87)
  else none

/-- `u8::from_str_radix` on two bytes: a plus sign may stand before the digits. -/
def fromHex (hi lo : UInt8) : Option UInt8 :=
  if hi = 43 then hexValue lo
  else
    match hexValue hi, hexValue lo with
    | some a, some b => some (16 * a + b)
    | _, _ => none

def decodeBytes : Bytes → Bytes
  | 37 :: hi :: lo :: rest =>
    match fromHex hi lo with
    | some byte => byte :: decodeBytes rest
    | none => 37 :: decodeBytes (hi :: lo :: rest)
  | byte :: rest => byte :: decodeBytes rest
  | [] => []

def decode (name : Str) : Str := (fromUtf8 (decodeBytes (utf8 name))).getD name

theorem encodeByte_safe : ∀ n < 256, isSafe (UInt8.ofNat n) = true →
    utf8 (encodeByte (UInt8.ofNat n)) = [UInt8.ofNat n] ∧ UInt8.ofNat n ≠ 37 := by decide +kernel

theorem encodeByte_escaped : ∀ n < 256, isSafe (UInt8.ofNat n) = false → ∃ hi lo,
    utf8 (encodeByte (UInt8.ofNat n)) = [37, hi, lo] ∧ fromHex hi lo = some (UInt8.ofNat n) := by
  have h : ∀ n < 256, isSafe (UInt8.ofNat n) = false →
      utf8 (encodeByte (UInt8.ofNat n)) = [37, (utf8 (encodeByte (UInt8.ofNat n))).getD 1 0,
        (utf8 (encodeByte (UInt8.ofNat n))).getD 2 0] ∧
        fromHex ((utf8 (encodeByte (UInt8.ofNat n))).getD 1 0)
        ((utf8 (encodeByte (UInt8.ofNat n))).getD 2 0) = some (UInt8.ofNat n) := by
    decide +kernel
  exact fun n hn hs => ⟨_, _, h n hn hs⟩

theorem decodeBytes_cons {byte : UInt8} (h : byte ≠ 37) (rest : Bytes) :
    decodeBytes (byte :: rest) = byte :: decodeBytes rest := by
  rw [decodeBytes]
  intro hi lo r hb
  exact absurd hb h

theorem decodeBytes_encodeByte (byte : UInt8) (rest : Bytes) :
    decodeBytes (utf8 (encodeByte byte) ++ rest) = byte :: decodeBytes rest := by
  have hbyte : UInt8.ofNat byte.toNat = byte := UInt8.ofNat_toNat
  have hlt : byte.toNat < 256 := byte.toNat_lt
  cases hs : isSafe byte with
  | true =>
    obtain ⟨h, hne⟩ := encodeByte_safe byte.toNat hlt (by rw [hbyte, hs])
    rw [hbyte] at h hne
    rw [h, List.singleton_append, decodeBytes_cons hne]
  | false =>
    obtain ⟨hi, lo, h, hx⟩ := encodeByte_escaped byte.toNat hlt (by rw [hbyte, hs])
    rw [hbyte] at h hx
    rw [h, List.cons_append, List.cons_append, List.singleton_append, decodeBytes, hx]

theorem decodeBytes_encode (bytes : Bytes) :
    decodeBytes (utf8 (bytes.flatMap encodeByte)) = bytes := by
  induction bytes with
  | nil => rfl
  | cons byte bytes ih => rw [List.flatMap_cons, utf8_append, decodeBytes_encodeByte, ih]

theorem decode_encode (name : Str) : decode (encode name) = name := by
  rw [decode, encode, decodeBytes_encode, fromUtf8_utf8, Option.getD_some]

theorem length_encodeByte (byte : UInt8) : (utf8 (encodeByte byte)).length ≤ 3 := by
  have hbyte : UInt8.ofNat byte.toNat = byte := UInt8.ofNat_toNat
  have hlt : byte.toNat < 256 := byte.toNat_lt
  cases hs : isSafe byte with
  | true =>
    have h := (encodeByte_safe byte.toNat hlt (by rw [hbyte, hs])).1
    rw [hbyte] at h
    simp [h]
  | false =>
    obtain ⟨hi, lo, h, -⟩ := encodeByte_escaped byte.toNat hlt (by rw [hbyte, hs])
    rw [hbyte] at h
    simp [h]

theorem length_flatMap_encodeByte (bytes : Bytes) :
    (utf8 (bytes.flatMap encodeByte)).length ≤ 3 * bytes.length := by
  induction bytes with
  | nil => exact Nat.le_refl _
  | cons byte bytes ih =>
    have hbyte := length_encodeByte byte
    rw [List.flatMap_cons, utf8_append, List.length_append, List.length_cons]
    omega

theorem length_encode (name : Str) : (utf8 (encode name)).length ≤ 3 * (utf8 name).length :=
  length_flatMap_encodeByte _

theorem encode_inj {a b : Str} (h : encode a = encode b) : a = b := by
  rw [← decode_encode a, h, decode_encode]

def isFileNameChar (c : Char) : Bool := c.isAlphanum || c = '.' || c = '_' || c = '-' || c = '%'

theorem encodeByte_fileNameChar : ∀ n < 256, (encodeByte (UInt8.ofNat n)).all isFileNameChar =
    true := by decide +kernel

theorem encode_fileNameChar {name : Str} {c : Char} (h : c ∈ encode name) :
    isFileNameChar c = true := by
  obtain ⟨byte, -, hc⟩ := List.mem_flatMap.mp h
  have hsafe := encodeByte_fileNameChar byte.toNat byte.toNat_lt
  rw [UInt8.ofNat_toNat] at hsafe
  exact List.all_eq_true.mp hsafe c hc

theorem ascii_of_fileNameChar {c : Char} (h : isFileNameChar c = true) : c.toNat < 128 := by
  simp only [isFileNameChar] at h
  delta Char.isAlphanum Char.isAlpha Char.isUpper Char.isLower Char.isDigit at h
  simp only [Bool.or_eq_true, Bool.and_eq_true, decide_eq_true_eq, UInt32.le_iff_toNat_le,
    ge_iff_le] at h
  rcases h with ((((h | h) | rfl) | rfl) | rfl) | rfl
  · simp only [Char.reduceVal, UInt32.reduceToNat, Char.toNat_val] at h
    omega
  · simp only [Char.reduceVal, UInt32.reduceToNat, Char.toNat_val] at h
    omega
  all_goals decide

/-- An encoded name is safe in a file name and says which name it was. -/
theorem encode_reversible :
    (∀ name, ∀ c ∈ encode name, c.toNat < 128 ∧ isFileNameChar c = true) ∧
    (∀ name, decode (encode name) = name) ∧ Function.Injective encode := by
  refine ⟨fun name c hc => ?_, decode_encode, fun a b h => encode_inj h⟩
  have hsafe := encode_fileNameChar hc
  exact ⟨ascii_of_fileNameChar hsafe, hsafe⟩

/-! ## As components -/

def components : Str → FilePath
  | [] => []
  | ['.'] => [.curDir]
  | ['.', '.'] => [.parentDir]
  | name => [.normal name]

def Special (name : Str) : Prop := name = [] ∨ name = ['.'] ∨ name = ['.', '.']

instance (name : Str) : Decidable (Special name) := inferInstanceAs (Decidable (_ ∨ _))

theorem components_of_not_special {name : Str} (h : ¬ Special name) :
    components name = [.normal name] := by
  unfold components
  split
  · exact absurd (.inl rfl) h
  · exact absurd (.inr (.inl rfl)) h
  · exact absurd (.inr (.inr rfl)) h
  · rfl

def storable (name : Str) : Bool := NameLimit.fits (encode name)

theorem fits_components {name c : Str} (h : NameLimit.fits name = true)
    (hc : .normal c ∈ components name) :
    NameLimit.fits c = true := by
  by_cases hs : Special name
  · rcases hs with rfl | rfl | rfl
    · simp [components] at hc
    · simp [components] at hc
    · simp [components] at hc
  · rw [components_of_not_special hs, List.mem_singleton] at hc
    cases hc
    exact h

theorem special_encode {name : Str} (h : Special (encode name)) : Special name := by
  rcases h with h | h | h
  · exact .inl (encode_inj (h.trans rfl))
  · exact .inr (.inl (encode_inj (h.trans (by decide))))
  · exact .inr (.inr (encode_inj (h.trans (by decide))))

theorem storable_of_special {name : Str} (h : Special name) : storable name = true := by
  rcases h with rfl | rfl | rfl
  · decide
  · decide
  · decide

end Crabtalk.Backend

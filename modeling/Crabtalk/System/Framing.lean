import Crabtalk.System.Connection

/-!
# Reading back what is written

`write_message` and `read_message` with nobody else on the wire. The length is
cut to 32 bits before anything is compared, so that a message of four gigabytes
or more can pass for a short one.
-/

open Basis

namespace Crabtalk.System.Framing

open Store

inductive FrameError
  | unexpectedEof
  | tooLarge (size : Nat)
  | codec
  | connectionClosed
  deriving DecidableEq

variable {α : Type}

def writeMessage (codec : Codec α) (writer : Bytes) (m : α) : Except FrameError Unit × Bytes :=
  let data := codec.encode m
  let len := data.length % 2 ^ 32
  if maxFrameSize < len then (.error (.tooLarge len), writer)
  else (.ok (), writer ++ header len ++ data)

def readMessage (codec : Codec α) (reader : Bytes) : Except FrameError (α × Bytes) :=
  if reader.length < 4 then .error .connectionClosed
  else
    let len := ofHeader (reader.take 4)
    if maxFrameSize < len then .error (.tooLarge len)
    else if reader.length < 4 + len then .error .unexpectedEof
    else
      match codec.decode ((reader.drop 4).take len) with
      | some m => .ok (m, reader.drop (4 + len))
      | none => .error .codec

theorem readMessage_shorter {codec : Codec α} {reader rest : Bytes} {m : α}
    (h : readMessage codec reader = .ok (m, rest)) :
    rest.length < reader.length := by
  unfold readMessage at h
  dsimp only at h
  split at h
  · cases h
  · split at h
    · cases h
    · split at h
      · cases h
      · split at h
        · cases h
          rw [List.length_drop]
          omega
        · cases h

def readMessages (codec : Codec α) (reader : Bytes) : List α × FrameError :=
  match h : readMessage codec reader with
  | .error e => ([], e)
  | .ok (m, rest) =>
    have := readMessage_shorter h
    let (ms, e) := readMessages codec rest
    (m :: ms, e)
termination_by reader.length

def writeMessages (codec : Codec α) : Bytes → List α → List α × Bytes
  | writer, [] => ([], writer)
  | writer, m :: ms =>
    match writeMessage codec writer m with
    | (.ok (), writer) =>
      let (written, writer) := writeMessages codec writer ms
      (m :: written, writer)
    | (.error _, writer) => writeMessages codec writer ms

/-! ## What is promised -/

/-- Four bytes that say how many there are, and as many. -/
def Whole (data chunk : Bytes) : Prop := ∃ head, head.length = 4 ∧ ofHeader head = data.length ∧
    chunk = head ++ data

structure Framed (codec : Codec α) (ms : List α) : Prop where
  whole : ∀ m ∈ ms, ∀ writer, (∃ chunk, writeMessage codec writer m = (.ok (), writer ++ chunk) ∧
    Whole (codec.encode m) chunk) ∨
    ∃ e, writeMessage codec writer m = (.error e, writer)
  readBack : readMessages codec (writeMessages codec [] ms).2 =
    ((writeMessages codec [] ms).1, .connectionClosed)
  limited : ∀ m ∈ ms, maxFrameSize < (codec.encode m).length →
    ∀ writer, ∃ e, writeMessage codec writer m = (.error e, writer)

/-- The length is not mistaken for one that a frame may have. -/
def Measured (codec : Codec α) (m : α) : Prop := (codec.encode m).length < 2 ^ 32 ∨
    maxFrameSize < (codec.encode m).length % 2 ^ 32

instance (codec : Codec α) (m : α) : Decidable (Measured codec m) :=
  inferInstanceAs (Decidable (_ ∨ _))

section
variable {codec : Codec α} {m : α}

theorem writeMessage_ok (h : (codec.encode m).length % 2 ^ 32 ≤ maxFrameSize) (writer : Bytes) :
    writeMessage codec writer m =
    (.ok (), writer ++ header ((codec.encode m).length % 2 ^ 32) ++ codec.encode m) := by
  unfold writeMessage
  exact if_neg (Nat.not_lt.mpr h)

theorem writeMessage_error (h : maxFrameSize < (codec.encode m).length % 2 ^ 32) (writer : Bytes) :
    writeMessage codec writer m = (.error (.tooLarge ((codec.encode m).length % 2 ^ 32)), writer) := by
  unfold writeMessage
  exact if_pos h

/-- A frame whose length is whole gives its message back, whatever comes after it. -/
theorem readMessage_frame (h : (codec.encode m).length ≤ maxFrameSize) (rest : Bytes) :
    readMessage codec (header (codec.encode m).length ++ codec.encode m ++ rest) = .ok (m, rest) := by
  have h32 : (codec.encode m).length < 2 ^ 32 := h.trans_lt (by decide)
  have hhead : (header (codec.encode m).length ++ codec.encode m ++ rest).take 4 =
      header (codec.encode m).length := by
    rw [List.append_assoc, List.take_left' (length_header _)]
  have hbody : (header (codec.encode m).length ++ codec.encode m ++ rest).drop 4 =
      codec.encode m ++ rest := by
    rw [List.append_assoc, List.drop_left' (length_header _)]
  have hlen : (header (codec.encode m).length ++ codec.encode m).length =
      4 + (codec.encode m).length := by
    rw [List.length_append, length_header]
  unfold readMessage
  rw [hhead, ofHeader_header h32, hbody, List.length_append, hlen]
  dsimp only
  rw [if_neg (by omega), if_neg (by omega), if_neg (by omega), List.take_left, codec.roundtrip,
    List.drop_left' hlen]

theorem readMessages_cons {reader rest : Bytes} (h : readMessage codec reader = .ok (m, rest)) :
    readMessages codec reader = (m :: (readMessages codec rest).1, (readMessages codec rest).2) := by
  rw [readMessages]
  split
  · rename_i e he
    rw [h] at he
    cases he
  · rename_i m' rest' hok
    rw [h] at hok
    cases hok
    rfl

theorem readMessages_nil : readMessages codec [] = ([], .connectionClosed) := by
  rw [readMessages]
  split
  · rename_i e he
    cases he
    rfl
  · rename_i m' rest' hok
    cases hok

theorem writeMessages_append (writer : Bytes) (ms : List α) :
    writeMessages codec writer ms = ((writeMessages codec [] ms).1,
      writer ++ (writeMessages codec [] ms).2) := by
  induction ms generalizing writer with
  | nil => simp [writeMessages]
  | cons m ms ih =>
    by_cases hm : (codec.encode m).length % 2 ^ 32 ≤ maxFrameSize
    · rw [writeMessages, writeMessages, writeMessage_ok hm, writeMessage_ok hm]
      dsimp only
      rw [ih, ih ([] ++ _ ++ _)]
      simp
    · rw [writeMessages, writeMessages, writeMessage_error (Nat.lt_of_not_le hm),
        writeMessage_error (Nat.lt_of_not_le hm)]
      exact ih writer

/-- What is written of messages that are measured is read back, and then there is no more. -/
theorem readMessages_writeMessages {ms : List α} (h : ∀ m ∈ ms, Measured codec m) :
    readMessages codec (writeMessages codec [] ms).2 =
    ((writeMessages codec [] ms).1, .connectionClosed) := by
  induction ms with
  | nil => exact readMessages_nil
  | cons m ms ih =>
    have hrest := ih fun m' hm' => h m' (List.mem_cons_of_mem _ hm')
    by_cases hm : (codec.encode m).length % 2 ^ 32 ≤ maxFrameSize
    · have h32 : (codec.encode m).length < 2 ^ 32 :=
        (h m List.mem_cons_self).resolve_right (Nat.not_lt.mpr hm)
      rw [writeMessages, writeMessage_ok hm]
      dsimp only
      rw [writeMessages_append, Nat.mod_eq_of_lt h32, List.nil_append]
      rw [Nat.mod_eq_of_lt h32] at hm
      rw [readMessages_cons (readMessage_frame hm _), hrest]
    · rw [writeMessages, writeMessage_error (Nat.lt_of_not_le hm)]
      exact hrest

/-- What the frames promise they keep exactly where no message is taken for a shorter one. -/
theorem framed_iff (codec : Codec α) (ms : List α) : Framed codec ms ↔
    ∀ m ∈ ms, Measured codec m := by
  refine ⟨fun h m hm => ?_, fun h => ⟨fun m hm writer => ?_, readMessages_writeMessages h,
    fun m hm hlong writer => ?_⟩⟩
  · by_contra hbad
    obtain ⟨h32, hmax⟩ := not_or.mp hbad
    have hlong : maxFrameSize < (codec.encode m).length :=
      Nat.lt_of_lt_of_le (by decide) (Nat.not_lt.mp h32)
    obtain ⟨e, he⟩ := h.limited m hm hlong []
    rw [writeMessage_ok (Nat.not_lt.mp hmax)] at he
    cases he
  · by_cases hmax : (codec.encode m).length % 2 ^ 32 ≤ maxFrameSize
    · have h32 : (codec.encode m).length < 2 ^ 32 := (h m hm).resolve_right (Nat.not_lt.mpr hmax)
      left
      refine ⟨header (codec.encode m).length ++ codec.encode m, ?_, header _, length_header _,
        ofHeader_header h32, rfl⟩
      rw [writeMessage_ok hmax, Nat.mod_eq_of_lt h32, List.append_assoc]
    · exact .inr ⟨_, writeMessage_error (Nat.lt_of_not_le hmax) writer⟩
  · have hmax : maxFrameSize < (codec.encode m).length % 2 ^ 32 := by
      rcases h m hm with h32 | hmax
      · rwa [Nat.mod_eq_of_lt h32]
      · exact hmax
    exact ⟨_, writeMessage_error hmax writer⟩

end

/-! ## A message with one field of bytes -/

def varint : Nat → Nat → Bytes
  | 0, _ => []
  | w + 1, n =>
    if n < 128 then [UInt8.ofNat n] else UInt8.ofNat (128 + n % 128) :: varint w (n / 128)

def ofVarint : Bytes → Option (Nat × Bytes)
  | [] => none
  | b :: bs => if b.toNat < 128 then some (b.toNat, bs) else (ofVarint bs).map fun (n,
      rest) => (b.toNat - 128 + 128 * n, rest)

theorem ofVarint_varint (w : Nat) {n : Nat} (h : n < 128 ^ (w + 1)) (rest : Bytes) :
    ofVarint (varint (w + 1) n ++ rest) = some (n, rest) := by
  induction w generalizing n with
  | zero =>
    have hn : n < 128 := h
    simp [varint, ofVarint, hn, Nat.mod_eq_of_lt (show n < 256 by omega)]
  | succ w ih =>
    rw [varint]
    by_cases hn : n < 128
    · simp [ofVarint, hn, Nat.mod_eq_of_lt (show n < 256 by omega)]
    · have hrest := ih (n := n / 128) (by rw [Nat.pow_succ] at h; omega)
      have hbyte : (UInt8.ofNat (128 + n % 128)).toNat = 128 + n % 128 := by
        rw [UInt8.toNat_ofNat']
        omega
      rw [if_neg hn, List.cons_append, ofVarint, hbyte, if_neg (by omega), hrest]
      simp only [Option.map_some, Option.some.injEq, Prod.mk.injEq, and_true]
      omega

abbrev Blob := { data : Bytes // data.length < 2 ^ 64 }

def blob : Codec Blob where
  encode data := if data.1 = [] then [] else 0x0a :: (varint 10 data.1.length ++ data.1)
  decode bytes :=
    match bytes with
    | [] => some ⟨[], by decide⟩
    | tag :: bs =>
      match ofVarint bs with
      | some (n, rest) => if h : tag = 0x0a ∧ rest.length = n ∧ n < 2 ^ 64 then some ⟨rest,
          by omega⟩ else none
      | none => none
  roundtrip data := by
    obtain ⟨data, hdata⟩ := data
    by_cases hnil : data = []
    · subst hnil
      rfl
    · have hvarint := ofVarint_varint 9 (n := data.length) (hdata.trans (by decide)) data
      simpa [hnil, hvarint] using hdata

/-- An empty message between two short ones. -/
theorem framed_three : Framed blob [⟨[7, 8], by decide⟩, ⟨[], by decide⟩, ⟨[9], by decide⟩] :=
  (framed_iff _ _).mpr (by decide)

theorem length_blob {data : Blob} (h : 0 < data.1.length) :
    (blob.encode data).length = 1 + (varint 10 data.1.length).length + data.1.length := by
  have hne : data.1 ≠ [] := List.ne_nil_of_length_pos h
  simp only [blob, if_neg hne, List.length_cons, List.length_append]
  omega

/-- Four gigabytes and six bytes are written as a frame of six. -/
theorem not_framed_four_gigabytes :
    ¬ Framed blob [⟨List.replicate (2 ^ 32) 0, by rw [List.length_replicate]; decide⟩] := by
  intro h
  have hlen : (blob.encode ⟨List.replicate (2 ^ 32) 0,
      by rw [List.length_replicate]; decide⟩).length = 6 + 2 ^ 32 := by
    rw [length_blob (by rw [List.length_replicate]; decide), List.length_replicate]
    rfl
  obtain ⟨e, he⟩ := h.limited _ List.mem_cons_self (by rw [hlen]; decide) []
  rw [writeMessage_ok (by rw [hlen]; decide)] at he
  cases he

end Crabtalk.System.Framing

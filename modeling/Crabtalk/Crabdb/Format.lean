import Crabtalk.Basis.LittleEndian

/-!
# The CRMEM on-disk format

Little-endian integers and length-prefixed byte strings: a 32-byte header,
appended records, and a snapshot of the key index the header points at.
`decodeRecord` tells a record cut short (`none`) from one it does not know
(an error); everything the crash results say rests on that difference.
-/

open Basis

namespace Crabtalk.Crabdb

/-- Why an operation failed. `io` is the device: a write or a sync that did
not go through. `eof` is an exact read past the end of the file, `bail` the
store's own refusals. Memory that cannot be had ends the process with `abort`. -/
inductive Error
  | io
  | eof
  | abort
  | bail (text : String)
  deriving DecidableEq

abbrev Key := UInt8 × Bytes

def magic : Bytes := [67, 82, 77, 69, 77, 0]

def version : Nat := 1

def headerLen : Nat := 32

inductive Op
  | put
  | delete
  deriving DecidableEq

def Op.toByte : Op → UInt8
  | .put => 0
  | .delete => 1

def Op.fromByte (b : UInt8) : Option Op :=
  if b = 0 then some .put else if b = 1 then some .delete else none

theorem Op.fromByte_toByte (op : Op) : Op.fromByte op.toByte = some op := by cases op <;> rfl

/-! ## The header -/

structure Header where
  indexAt : Nat
  indexLen : Nat
  deriving DecidableEq

def Header.default : Header := ⟨0, 0⟩

def Header.encode (h : Header) : Bytes :=
  magic ++ (le 4 version ++ (List.replicate 6 0 ++ (le 8 h.indexAt ++ le 8 h.indexLen)))

@[simp] theorem Header.length_encode (h : Header) : h.encode.length = headerLen := by
  simp [Header.encode, magic, headerLen]

def hex06 (n : Nat) : String :=
  let digits := Nat.toDigits 16 n
  "0x" ++ String.ofList (List.replicate (4 - digits.length) '0' ++ digits)

def Header.decode (buf : Bytes) : Except Error Header :=
  if buf.length < headerLen then .error (.bail "crabdb: file shorter than its header")
  else if buf.take 6 ≠ magic then .error (.bail "crabdb: not a CRMEM file")
  else
    let ver := ofLe ((buf.drop 6).take 4)
    let flags := ofLe ((buf.drop 10).take 2)
    if ver ≠ version then .error (.bail s!"crabdb: unsupported format version {ver}")
    else if flags ≠ 0 then .error (.bail ("crabdb: unknown flags " ++ hex06 flags))
    else .ok ⟨ofLe ((buf.drop 16).take 8), ofLe ((buf.drop 24).take 8)⟩

theorem Header.decode_encode (h : Header) (ha : h.indexAt < 256 ^ 8) (hl : h.indexLen < 256 ^ 8) :
    Header.decode h.encode = .ok h := by
  have e6 : h.encode.take 6 = magic := rfl
  have ev : (h.encode.drop 6).take 4 = le 4 version := rfl
  have ef : (h.encode.drop 10).take 2 = List.replicate 2 0 := rfl
  have ea : (h.encode.drop 16).take 8 = le 8 h.indexAt := rfl
  have el : (h.encode.drop 24).take 8 = le 8 h.indexLen := rfl
  have hver : ofLe (le 4 version) = version := by decide
  have hflags : ofLe (List.replicate 2 0) = 0 := by decide
  unfold Header.decode
  rw [if_neg (by simp), if_neg (by simp [e6]), ev, ef, ea, el, hver, hflags, ofLe_le_of_lt ha,
    ofLe_le_of_lt hl]
  simp

/-! ## Records -/

/-- `op | col | key_len | key | val_len | value`. -/
def encodeRecord (op : Op) (col : UInt8) (key value : Bytes) : Bytes :=
  op.toByte :: col :: (le 4 key.length ++ (key ++ (le 4 value.length ++ value)))

structure Record where
  op : Op
  col : UInt8
  key : Bytes
  value : Bytes
  len : Nat
  deriving DecidableEq

def takeU32 (buf : Bytes) (pos : Nat) : Option (Nat × Nat) :=
  (take buf pos 4).map fun x => (ofLe x.1, x.2)

def decodeFields (op : Op) (buf : Bytes) : Option Record := do
  let (keyLen, pos) ← takeU32 buf 2
  let (key, pos) ← take buf pos keyLen
  let (valLen, pos) ← takeU32 buf pos
  let (value, pos) ← take buf pos valLen
  return { op, col := buf.tail.headD 0, key, value, len := pos }

/-- The record at the start of `buf`. `none` when the buffer ends mid-record. -/
def decodeRecord (buf : Bytes) : Except Error (Option Record) :=
  match buf.head? with
  | none => .ok none
  | some b =>
    match Op.fromByte b with
    | none => .error (.bail s!"crabdb: unknown record op {b}")
    | some op => .ok (decodeFields op buf)

theorem length_encodeRecord (op : Op) (col : UInt8) (key value : Bytes) :
    (encodeRecord op col key value).length = 10 + key.length + value.length := by
  simp [encodeRecord]; omega

def Fits (key value : Bytes) : Prop := key.length < 256 ^ 4 ∧ value.length < 256 ^ 4

instance (key value : Bytes) : Decidable (Fits key value) := inferInstanceAs (Decidable (_ ∧ _))

theorem takeU32_append {a c : Bytes} {n : Nat} (h : n < 256 ^ 4) :
    takeU32 (a ++ (le 4 n ++ c)) a.length = some (n, a.length + 4) := by
  have := take_append a (le 4 n) c
  rw [length_le] at this
  rw [takeU32, this, Option.map_some, ofLe_le_of_lt h]

/-- Decoding an encoding gives the record back, whatever follows it. -/
theorem decodeRecord_encode (op : Op) (col : UInt8) {key value : Bytes} (h : Fits key value)
    (rest : Bytes) :
    decodeRecord (encodeRecord op col key value ++ rest) =
      .ok (some ⟨op, col, key, value, 10 + key.length + value.length⟩) := by
  obtain ⟨hk, hv⟩ := h
  have h1 := takeU32_append (a := [op.toByte, col])
      (c := key ++ (le 4 value.length ++ (value ++ rest))) hk
  have h2 := take_append (op.toByte :: col :: le 4 key.length) key
      (le 4 value.length ++ (value ++ rest))
  have h3 := takeU32_append (a := op.toByte :: col :: (le 4 key.length ++ key))
      (c := value ++ rest) hv
  have h4 := take_append (op.toByte :: col :: (le 4 key.length ++ (key ++ le 4 value.length))) value rest
  simp only [List.length_cons, List.length_nil, List.length_append, length_le, List.cons_append,
    List.nil_append,
    List.append_assoc] at h1 h2 h3 h4
  simp only [encodeRecord, List.cons_append, List.append_assoc, decodeRecord, List.head?_cons,
    Op.fromByte_toByte,
    decodeFields]
  rw [h1]
  simp only [Option.bind_eq_bind, Option.bind_some]
  rw [show 0 + 1 + 1 + 4 = 4 + 1 + 1 from rfl, h2]
  simp only [Option.bind_some]
  rw [show 4 + 1 + 1 + key.length = 4 + key.length + 1 + 1 by omega, h3]
  simp only [Option.bind_some]
  rw [show 4 + key.length + 1 + 1 + 4 = 4 + (key.length + 4) + 1 + 1 by omega, h4]
  simp only [Option.bind_some, List.tail_cons, List.headD_cons]
  congr 3; omega

/-! ## Records cut short -/

theorem takeU32_of_isPrefix {p b : Bytes} (h : p <+: b) {pos : Nat} {x : Nat × Nat}
    (hx : takeU32 p pos = some x) :
    takeU32 b pos = some x := by
  unfold takeU32 at *
  obtain ⟨y, hy, rfl⟩ := Option.map_eq_some_iff.mp hx
  rw [take_of_isPrefix h hy]; rfl

theorem takeU32_pos {buf : Bytes} {pos : Nat} {x : Nat × Nat} (hx : takeU32 buf pos = some x) :
    x.2 = pos + 4 ∧ pos + 4 ≤ buf.length := by
  obtain ⟨y, hy, rfl⟩ := Option.map_eq_some_iff.mp hx
  exact take_pos hy

/-- What the fields of a buffer read as does not change when bytes follow it,
and the record ends inside the buffer. -/
theorem decodeFields_of_isPrefix {p b : Bytes} (h : p <+: b) {op : Op} {r : Record}
    (hr : decodeFields op p = some r) :
    decodeFields op b = some r ∧ 10 ≤ r.len ∧ r.len ≤ p.length := by
  simp only [decodeFields, Option.bind_eq_bind, Option.bind_eq_some_iff, Prod.exists] at hr
  obtain ⟨keyLen, p1, e1, key, p2, e2, valLen, p3, e3, value, p4, e4, hr⟩ := hr
  have l1 := takeU32_pos e1
  have l2 := take_pos e2
  have l3 := takeU32_pos e3
  have l4 := take_pos e4
  simp only [pure, Option.some.injEq] at hr
  subst hr
  have hcol : b.tail.headD 0 = p.tail.headD 0 := by
    obtain ⟨t, rfl⟩ := h
    match p, l1 with
    | _ :: _ :: _, _ => rfl
  simp only at l1 l2 l3 l4 ⊢
  refine ⟨?_, by omega, by omega⟩
  simp only [decodeFields, takeU32_of_isPrefix h e1, take_of_isPrefix h e2,
    takeU32_of_isPrefix h e3,
    take_of_isPrefix h e4, Option.bind_eq_bind, Option.bind_some, hcol, pure]

/-- A buffer that reads as a record cut short still does when more of it is cut. -/
theorem decodeRecord_of_isPrefix {p b : Bytes} (h : p <+: b) (hb : decodeRecord b = .ok none) :
    decodeRecord p = .ok none := by
  obtain ⟨t, rfl⟩ := h
  cases p with
  | nil => rfl
  | cons c p =>
    simp only [decodeRecord, List.cons_append, List.head?_cons] at hb ⊢
    cases hop : Op.fromByte c with
    | none => rw [hop] at hb; cases hb
    | some op =>
      rw [hop] at hb
      simp only [Except.ok.injEq] at hb ⊢
      cases hd : decodeFields op (c :: p) with
      | none => rfl
      | some r =>
        have := (decodeFields_of_isPrefix (List.prefix_append (c :: p) t) hd).1
        rw [List.cons_append, hb] at this
        cases this

/-- Every strict prefix of an encoded record is an incomplete record. -/
theorem decodeRecord_take {op : Op} {col : UInt8} {key value : Bytes} (h : Fits key value) {n : Nat}
    (hn : n < (encodeRecord op col key value).length) :
    decodeRecord ((encodeRecord op col key value).take n) = .ok none := by
  have hfull := decodeRecord_encode op col h []
  rw [List.append_nil] at hfull
  cases n with
  | zero => rfl
  | succ n =>
    have hp := List.take_prefix (n + 1) (encodeRecord op col key value)
    have hhead : ((encodeRecord op col key value).take (n + 1)).head? = some op.toByte := rfl
    have hhead' : (encodeRecord op col key value).head? = some op.toByte := rfl
    simp only [decodeRecord, hhead, hhead', Op.fromByte_toByte, Except.ok.injEq] at hfull ⊢
    cases hd : decodeFields op ((encodeRecord op col key value).take (n + 1)) with
    | none => rfl
    | some r =>
      have hr := decodeFields_of_isPrefix hp hd
      rw [hfull] at hr
      have := hr.2.2
      rw [List.length_take, ← Option.some.inj hr.1] at this
      rw [length_encodeRecord] at hn this
      simp only at this
      omega

/-! ## What reads as a record is one -/

theorem takeU32_split {buf : Bytes} {pos : Nat} {x : Nat × Nat} (hx : takeU32 buf pos = some x) :
    buf.drop pos = le 4 x.1 ++ buf.drop x.2 ∧ x.1 < 256 ^ 4 ∧ x.2 = pos + 4 := by
  obtain ⟨y, hy, rfl⟩ := Option.map_eq_some_iff.mp hx
  obtain ⟨hsplit, hlen⟩ := take_split hy
  have hle := le_ofLe y.1
  have hlt := ofLe_lt y.1
  rw [hlen] at hle hlt
  refine ⟨?_, hlt, (take_pos hy).1⟩
  rw [hle]
  exact hsplit

/-- A buffer with the fields of a record starts with its encoding. -/
theorem decodeFields_sound {op : Op} {buf : Bytes} {r : Record} (hop : buf.head? = some op.toByte)
    (hr : decodeFields op buf = some r) : Fits r.key r.value ∧
    r.len = 10 + r.key.length + r.value.length ∧
      buf = encodeRecord r.op r.col r.key r.value ++ buf.drop r.len := by
  simp only [decodeFields, Option.bind_eq_bind, Option.bind_eq_some_iff, Prod.exists] at hr
  obtain ⟨keyLen, p1, e1, key, p2, e2, valLen, p3, e3, value, p4, e4, hr⟩ := hr
  obtain ⟨s1, l1, q1⟩ := takeU32_split e1
  obtain ⟨s2, l2⟩ := take_split e2
  obtain ⟨s3, l3, q3⟩ := takeU32_split e3
  obtain ⟨s4, l4⟩ := take_split e4
  have q2 := (take_pos e2).1
  have q4 := (take_pos e4).1
  simp only [pure, Option.some.injEq] at hr
  subst hr
  simp only at l1 l2 l3 l4 q1 q2 q3 q4 s1 s2 s3 s4 ⊢
  refine ⟨⟨by rw [l2]; exact l1, by rw [l4]; exact l3⟩, by omega, ?_⟩
  match buf, hop, (takeU32_pos e1).2, s1, s2, s3, s4 with
  | b :: col :: buf, hop, _, s1, s2, s3, s4 =>
    have hb : b = op.toByte := by simpa using hop
    rw [List.drop_succ_cons, List.drop_succ_cons, List.drop_zero] at s1
    rw [s2, s3, s4] at s1
    subst hb
    rw [encodeRecord, l2, l4, List.tail_cons, List.headD_cons, List.cons_append, List.cons_append,
      List.append_assoc,
      List.append_assoc, List.append_assoc, ← s1]

theorem decodeRecord_sound {buf : Bytes} {r : Record} (hr : decodeRecord buf = .ok (some r)) :
    Fits r.key r.value ∧ r.len = 10 + r.key.length + r.value.length ∧
      buf = encodeRecord r.op r.col r.key r.value ++ buf.drop r.len := by
  unfold decodeRecord at hr
  split at hr
  · cases hr
  · rename_i b hb
    split at hr
    · cases hr
    · rename_i op hop
      have hbyte : b = op.toByte := by
        simp only [Op.fromByte] at hop
        split at hop
        · cases hop
          assumption
        · split at hop
          · cases hop
            assumption
          · cases hop
      rw [hbyte] at hb
      exact decodeFields_sound hb (Except.ok.inj hr)

/-! ## The index snapshot -/

def encodeEntry (e : Key × Nat) : Bytes :=
  e.1.1 :: (le 4 e.1.2.length ++ (e.1.2 ++ le 8 e.2))

/-- `count | repeated { col | key_len | key | offset }`. -/
def encodeIndex (entries : List (Key × Nat)) : Bytes :=
  le 4 entries.length ++ entries.flatMap encodeEntry

def decodeEntries : Nat → Bytes → Nat → Option (List (Key × Nat))
  | 0, _, _ => some []
  | n + 1, buf, pos => do
    let col ← buf[pos]?
    let (keyLen, pos) ← takeU32 buf (pos + 1)
    let (key, pos) ← take buf pos keyLen
    let (offset, pos) ← take buf pos 8
    let rest ← decodeEntries n buf pos
    return ((col, key), ofLe offset) :: rest

/-- The entries `decode_index` reserves memory for before it reads one: as many as the buffer says
it holds. -/
def reservation (buf : Bytes) : Nat := ((takeU32 buf 0).map (·.1)).getD 0

/-- A truncated snapshot yields `none`. -/
def decodeIndex (buf : Bytes) : Option (List (Key × Nat)) := do
  let (count, pos) ← takeU32 buf 0
  decodeEntries count buf pos

def EntryFits (e : Key × Nat) : Prop := e.1.2.length < 256 ^ 4 ∧ e.2 < 256 ^ 8

theorem decodeEntries_encode : ∀ (es : List (Key × Nat)) (a rest : Bytes), (∀ e ∈ es, EntryFits e) →
    decodeEntries es.length (a ++ (es.flatMap encodeEntry ++ rest)) a.length = some es
  | [], _, _, _ => rfl
  | ((col, key), off) :: es, a, rest, h => by
    obtain ⟨hk, ho⟩ := h _ List.mem_cons_self
    let more := es.flatMap encodeEntry ++ rest
    have h0 : (a ++ (col :: (le 4 key.length ++ (key ++ (le 8 off ++ more)))))[a.length]? =
        some col := by simp
    have h1 := takeU32_append (a := a ++ [col]) (c := key ++ (le 8 off ++ more)) hk
    have h2 := take_append (a ++ (col :: le 4 key.length)) key (le 8 off ++ more)
    have h3 := take_append (a ++ (col :: (le 4 key.length ++ key))) (le 8 off) more
    have ih := decodeEntries_encode es (a ++ (col :: (le 4 key.length ++ (key ++ le 8 off)))) rest
      fun e he => h e (List.mem_cons_of_mem _ he)
    simp only [List.length_cons, List.length_nil, List.length_append, length_le, List.cons_append,
      List.nil_append,
      List.append_assoc] at h1 h2 h3 ih
    simp only [List.length_cons, List.flatMap_cons, encodeEntry, List.cons_append,
      List.append_assoc, decodeEntries]
    rw [h0]
    simp only [Option.bind_eq_bind, Option.bind_some]
    rw [h1]
    simp only [Option.bind_some]
    rw [show a.length + (0 + 1) + 4 = a.length + (4 + 1) by omega, h2]
    simp only [Option.bind_some]
    rw [show a.length + (4 + 1) + key.length = a.length + (4 + key.length + 1) by omega, h3]
    simp only [Option.bind_some]
    rw [show a.length + (4 + key.length + 1) + 8 = a.length + (4 + (key.length + 8) + 1) by omega, ih,
      ofLe_le_of_lt ho]
    rfl

theorem decodeIndex_encode {es : List (Key × Nat)} (hn : es.length < 256 ^ 4)
    (h : ∀ e ∈ es, EntryFits e)
    (rest : Bytes) : decodeIndex (encodeIndex es ++ rest) = some es := by
  have h1 := takeU32_append (a := []) (c := es.flatMap encodeEntry ++ rest) hn
  have h2 := decodeEntries_encode es (le 4 es.length) rest h
  simp only [List.nil_append, List.length_nil, length_le, Nat.zero_add] at h1 h2
  simp only [decodeIndex, encodeIndex, List.append_assoc, h1, Option.bind_eq_bind, Option.bind_some]
  exact h2

theorem reservation_encode {es : List (Key × Nat)} (hn : es.length < 256 ^ 4) :
    reservation (encodeIndex es) = es.length := by
  have h1 := takeU32_append (a := []) (c := es.flatMap encodeEntry) hn
  simp only [List.nil_append, List.length_nil, Nat.zero_add] at h1
  simp only [reservation, encodeIndex, h1, Option.map_some, Option.getD_some]

theorem length_le_encodeIndex (es : List (Key × Nat)) : es.length ≤ (encodeIndex es).length := by
  have hentries : es.length ≤ (es.flatMap encodeEntry).length := by
    induction es with
    | nil => exact Nat.le_refl 0
    | cons e es ih =>
      rw [List.flatMap_cons, List.length_append, List.length_cons]
      simp only [encodeEntry, List.length_cons]
      omega
  rw [encodeIndex, List.length_append]
  omega

theorem length_encodeIndex_pos (es : List (Key × Nat)) : 0 < (encodeIndex es).length := by
  simp [encodeIndex]

end Crabtalk.Crabdb

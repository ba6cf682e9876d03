import Crabtalk.Basis.Binary64
import Crabtalk.Basis.ColumnMap
import Crabtalk.Crabdb.File

/-!
# The store: one file, and the key index over it

Records are appended and never edited; the index maps each live key to the
offset of its newest record. `openWith` rebuilds the index from the snapshot
the header names and the records behind it.
-/

open Basis

namespace Crabtalk.Crabdb

structure Options where
  compactAt : Binary64
  snapshot : Bool
  deriving DecidableEq

def Options.default : Options := ⟨.finite (1 / 2), true⟩

abbrev Index := ColMap UInt8 UInt8 Nat

structure Inner where
  path : PathBuf
  index : Index
  endAt : Nat
  dead : Nat
  options : Options

/-- A store and the world its file is in. Operations serialize on one mutex. -/
structure Db where
  inner : Inner
  world : World

abbrev M := EStateM Error Db

def io {α : Type} (m : Io α) : M α := zoom Db.world (fun w s => { s with world := w }) m

def inner (f : Inner → Inner) : M Unit := modify fun s => { s with inner := f s.inner }

/-! ## Opening -/

/-- The replay loop of `open`: `tail` is what is left of the file at `pos`. It
ends at the first record cut short. Each record takes a byte at least, so
`fuel` never runs out when it starts at the length of the tail. -/
def replay : Nat → Index → Nat → Nat → Bytes → Except Error (Index × Nat × Nat)
  | 0, index, dead, pos, _ => .ok (index, dead, pos)
  | fuel + 1, index, dead, pos, tail =>
    match decodeRecord tail with
    | .error e => .error e
    | .ok none => .ok (index, dead, pos)
    | .ok (some record) =>
      let key := (record.col, record.key)
      let previous := index[key]?
      let index := match record.op with
        | .put => index.insert key pos
        | .delete => index.erase key
      let dead := if previous.isSome then dead + record.len else dead
      replay fuel index dead (pos + record.len) (tail.drop record.len)

/-- The snapshot a header names, and where the replay starts: the whole log
when there is none or it cannot be read. -/
def loadSnapshot (memory : Memory) (file : Bytes) (header : Header) : Except Error (Index × Nat) :=
  if 0 < header.indexLen then
    match readAt file header.indexAt header.indexLen with
    | none => .ok (∅, headerLen)
    | some buf =>
      if memory.room buf.length < reservation buf then .error .abort
      else
        match decodeIndex buf with
        | some entries => .ok (entries.foldl (fun m e => m.insert e.1 e.2) ∅,
            header.indexAt + header.indexLen)
        | none => .ok (∅, headerLen)
  else .ok (∅, headerLen)

def openWith (path : PathBuf) (options : Options) : Io Inner := do
  openFile path false
  let size := ((← get).bytes path).length
  if size < headerLen then
    setLen0 path
    writeAll path 0 Header.default.encode
    syncAll
    return { path, index := ∅, endAt := headerLen, dead := 0, options }
  else
    let head ← readExact path 0 headerLen
    match Header.decode head with
    | .error e => throw e
    | .ok header =>
      match loadSnapshot (← get).memory ((← get).bytes path) header with
      | .error e => throw e
      | .ok (index, replayFrom) =>
        let tail ← readToEnd path replayFrom
        match replay tail.length index 0 replayFrom tail with
        | .error e => throw e
        | .ok (index, dead, endAt) => return { path, index, endAt, dead, options }

/-! ## Inside the lock -/

def readValue (path : PathBuf) (offset : Nat) : Io (Option Bytes) := do
  let head ← readExact path offset 6
  let keyLen := ofLe (head.drop 2)
  let len ← readExact path (offset + 6 + keyLen) 4
  let value ← readExact path (offset + 6 + keyLen + 4) (ofLe len)
  return some value

def append (op : Op) (col : UInt8) (key value : Bytes) : M Nat := do
  let s ← get
  let bytes := encodeRecord op col key value
  io (writeAll s.inner.path s.inner.endAt bytes)
  let offset := s.inner.endAt
  inner fun i => { i with endAt := i.endAt + bytes.length }
  return offset

/-- How many bytes the record at `offset` holds, when its lengths can be read. -/
def recordLen (file : Bytes) (offset : Nat) : Option Nat := do
  let head ← readAt file offset 6
  let keyLen := ofLe (head.drop 2)
  let len ← readAt file (offset + 6 + keyLen) 4
  return 10 + keyLen + ofLe len

def chargeDead (offset : Nat) : M Unit := do
  let s ← get
  match recordLen (s.world.bytes s.inner.path) offset with
  | some n => inner fun i => { i with dead := i.dead + n }
  | none => pure ()

def snapshot : M Unit := do
  let s ← get
  if s.inner.options.snapshot then
    let bytes := encodeIndex s.inner.index.toList
    let pos := s.inner.endAt
    io (writeAll s.inner.path pos bytes)
    -- Appends resume after the snapshot.
    inner fun i => { i with endAt := pos + bytes.length }
    -- The snapshot is on disk before anything points at it.
    io syncAll
    io (rewriteHeader s.inner.path (Header.mk pos bytes.length).encode)
    io syncAll
  else io syncAll

/-- The copying loop of `compact`: each live value is read from the old file
and appended to the new one. -/
def copyLive (path tmp : PathBuf) : List (Key × Nat) → Index → Nat → Io (Index × Nat)
  | [], moved, endAt => return (moved, endAt)
  | ((col, key), offset) :: live, moved, endAt => do
    match ← readValue path offset with
    | none => copyLive path tmp live moved endAt
    | some value =>
      let bytes := encodeRecord .put col key value
      writeAll tmp endAt bytes
      copyLive path tmp live (moved.insert (col, key) endAt) (endAt + bytes.length)

/-- Rewrite the file with only live records, then snapshot. The rename comes
last: until it lands, the original file is the whole truth. -/
def compact : M Unit := do
  let s ← get
  let path := s.inner.path
  let tmp := path.withExtension "tmp"
  io (openFile tmp true)
  io (writeAll tmp 0 Header.default.encode)
  let (moved, endAt) ← io (copyLive path tmp s.inner.index.toList ∅ headerLen)
  io syncAll
  io (rename tmp path)
  inner fun i => { i with index := moved, endAt, dead := 0 }
  snapshot

def compactDue (i : Inner) : Bool :=
  let live := i.endAt - headerLen
  decide (0 < live) && ((Binary64.ofNat i.dead).div (Binary64.ofNat live)).ge i.options.compactAt

def maybeCompact : M Unit := do
  if compactDue (← get).inner then compact else pure ()

/-! ## Operations -/

/-- `put` up to the point where it may compact. -/
def putRecord (col : UInt8) (key value : Bytes) : M Unit := do
  let offset ← append .put col key value
  let stale := (← get).inner.index[(col, key)]?
  inner fun i => { i with index := i.index.insert (col, key) offset }
  match stale with
  | some stale => chargeDead stale
  | none => pure ()

def put (col : UInt8) (key value : Bytes) : M Unit := do
  putRecord col key value
  maybeCompact

/-- `delete` of a key that is there, up to the point where it may compact. -/
def deleteRecord (col : UInt8) (key : Bytes) (stale : Nat) : M Unit := do
  inner fun i => { i with index := i.index.erase (col, key) }
  let _ ← append .delete col key []
  chargeDead stale

def delete (col : UInt8) (key : Bytes) : M Bool := do
  match (← get).inner.index[(col, key)]? with
  | none => return false
  | some stale =>
    deleteRecord col key stale
    maybeCompact
    return true

def getKey (col : UInt8) (key : Bytes) : M (Option Bytes) := do
  let s ← get
  match s.inner.index[(col, key)]? with
  | none => return none
  | some offset => io (readValue s.inner.path offset)

def scanKeys (col : UInt8) (stem : Bytes) : M (List Bytes) := do
  return ((← get).inner.index.range col stem).map fun e => e.1.2

/-- The reading loop of `scan`. -/
def readFound (path : PathBuf) : List (Key × Nat) → Io (List (Bytes × Bytes))
  | [] => return []
  | (key, offset) :: found => do
    match ← readValue path offset with
    | some value => return (key.2, value) :: (← readFound path found)
    | none => readFound path found

def scan (col : UInt8) (stem : Bytes) : M (List (Bytes × Bytes)) := do
  let s ← get
  io (readFound s.inner.path (s.inner.index.range col stem))

def len : M Nat := return (← get).inner.index.size

def checkpoint : M Unit := snapshot

def reopen (options : Options) : M Unit := do
  let i ← io (openWith (← get).inner.path options)
  inner fun _ => i

/-! ## Calls -/

inductive Call
  | put (col : UInt8) (key value : Bytes)
  | delete (col : UInt8) (key : Bytes)
  | get (col : UInt8) (key : Bytes)
  | scan (col : UInt8) (stem : Bytes)
  | scanKeys (col : UInt8) (stem : Bytes)
  | len
  | checkpoint
  | compact
  | reopen (options : Options)
  deriving DecidableEq

inductive Answer
  | done
  | present (b : Bool)
  | value (v : Option Bytes)
  | entries (es : List (Bytes × Bytes))
  | keys (ks : List Bytes)
  | count (n : Nat)
  deriving DecidableEq

def exec : Call → M Answer
  | .put col key value => do put col key value; return .done
  | .delete col key => return .present (← delete col key)
  | .get col key => return .value (← getKey col key)
  | .scan col stem => return .entries (← scan col stem)
  | .scanKeys col stem => return .keys (← scanKeys col stem)
  | .len => return .count (← len)
  | .checkpoint => do checkpoint; return .done
  | .compact => do compact; return .done
  | .reopen options => do reopen options; return .done

end Crabtalk.Crabdb

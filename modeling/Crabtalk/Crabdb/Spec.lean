import Crabtalk.Crabdb.Stored

/-!
# What a store answers

The specification is the plain map: `Contents.step` is what each call does to
it and answers. An `Event` is a call, or a call the process dies in the middle
of, after which the file is opened again. `run` is the store over a sequence
of events, `Contents.run` the map over the same sequence.
-/

open Basis

namespace Crabtalk.Crabdb

/-! ## The map -/

namespace Contents

def step (m : Contents) : Call → Contents × Answer
  | .put col key value => (m.insert (col, key) value, .done)
  | .delete col key => (m.erase (col, key), .present m[(col, key)]?.isSome)
  | .get col key => (m, .value m[(col, key)]?)
  | .scan col stem => (m, .entries ((m.under col stem).map fun e => (e.1.2, e.2)))
  | .scanKeys col stem => (m, .keys ((m.under col stem).map fun e => e.1.2))
  | .len => (m, .count m.size)
  | .checkpoint => (m, .done)
  | .compact => (m, .done)
  | .reopen _ => (m, .done)

end Contents

def Call.recordLen (m : Contents) : Call → Nat
  | .put _ key value => 10 + key.length + value.length
  | .delete col key => if m[(col, key)]?.isSome then 10 + key.length else 0
  | _ => 0

/-- The lengths and the number of entries fit 32 bits. -/
def Call.Fits (m : Contents) : Call → Prop
  | .put col key value => Crabdb.Fits key value ∧ (m.insert (col, key) value).size < 256 ^ 4
  | _ => True

instance (m : Contents) : ∀ c : Call, Decidable (c.Fits m)
  | .put _ _ _ => inferInstanceAs (Decidable (_ ∧ _))
  | .delete _ _ | .get _ _ | .scan _ _ | .scanKeys _ _ | .len | .checkpoint | .compact | .reopen _ =>
    inferInstanceAs (Decidable True)

/-! ## Crashes -/

inductive Event
  | call (c : Call)
  /-- The process dies `n` effects into `c`, and the file is opened again. -/
  | crash (c : Call) (n : Nat) (options : Options)
  deriving DecidableEq

def Event.Fits (m : Contents) : Event → Prop
  | .call c => c.Fits m
  | .crash c _ _ => c.Fits m

instance (m : Contents) : ∀ e : Event, Decidable (e.Fits m)
  | .call c | .crash c _ _ => inferInstanceAs (Decidable (c.Fits m))

def Db.limit (s : Db) (budget : Option Nat) : Db := { s with world := { s.world with budget } }

def crashed (c : Call) (n : Nat) (s : Db) : Db :=
  match exec c (s.limit (some n)) with
  | .ok _ s' => s'.limit none
  | .error _ s' => s'.limit none

def Event.exec : Event → M Answer
  | .call c => Crabdb.exec c
  | .crash c n options => do
    modify (crashed c n)
    Crabdb.exec (.reopen options)

def Contents.event (m : Contents) : Event → Contents × Answer
  | .call c => m.step c
  | .crash c n _ => (if n < c.recordLen m then m else (m.step c).1, .done)

/-! ## Runs -/

def run : List Event → Db → List (Except Error Answer)
  | [], _ => []
  | e :: es, s =>
    match e.exec s with
    | .ok a s' => .ok a :: run es s'
    | .error e _ => [.error e]

def session (path : PathBuf) (options : Options) (es : List Event) (w : World) :
    List (Except Error Answer) :=
  match openWith path options w with
  | .ok i w' => .ok .done :: run es ⟨i, w'⟩
  | .error e _ => [.error e]

def Contents.run : Contents → List Event → List Answer
  | _, [] => []
  | m, e :: es => (m.event e).2 :: Contents.run (m.event e).1 es

/-- The sequence stays within the sizes the format carries. -/
def FitsRun : Contents → List Event → Prop
  | _, [] => True
  | m, e :: es => e.Fits m ∧ FitsRun (m.event e).1 es

instance : ∀ (m : Contents) (es : List Event), Decidable (FitsRun m es)
  | _, [] => inferInstanceAs (Decidable True)
  | m, e :: es =>
    have := instDecidableFitsRun (m.event e).1 es
    inferInstanceAs (Decidable (_ ∧ _))

/-- Each step of a run, at the store it starts from and the map that store
stands for, meets `P`. -/
def Along (P : Contents → Db → Event → Prop) : Contents → List Event → Db → Prop
  | _, [], _ => True
  | m, e :: es, s => P m s e ∧
    match e.exec s with
    | .ok _ s' => Along P (m.event e).1 es s'
    | .error _ _ => True

def AlongSession (P : Contents → Db → Event → Prop) (path : PathBuf) (options : Options)
    (es : List Event)
    (w : World) : Prop :=
  match openWith path options w with
  | .ok i w' => Along P ∅ es ⟨i, w'⟩
  | .error _ _ => True

/-! ## When a file can be read again -/

/-- The bytes past the append position read as a record cut short, which is
where a replay stops. -/
def Skippable (s : Db) : Prop :=
  decodeRecord ((s.world.bytes s.inner.path).drop s.inner.endAt) = .ok none

def Clean (s : Db) : Prop := (s.world.bytes s.inner.path).length ≤ s.inner.endAt

def Readable (s : Db) : Call → Prop
  | .reopen _ => Skippable s
  | _ => True

/-- The index snapshot, where `snapshot` puts it, reads as a record cut short. -/
def SnapshotQuiet (s : Db) : Prop :=
  s.inner.options.snapshot = true →
    decodeRecord (encodeIndex s.inner.index.toList ++
      (s.world.bytes s.inner.path).drop
      (s.inner.endAt + (encodeIndex s.inner.index.toList).length)) = .ok none

def PackQuiet (m : Contents) (options : Options) : Prop :=
  options.snapshot = true → decodeRecord (encodeIndex (packed m).toList) = .ok none

def dueAfter : EStateM.Result Error Db Unit → Bool
  | .ok _ s => compactDue s.inner
  | .error _ _ => false

def compacts (s : Db) : Call → Bool
  | .put col key value => dueAfter (putRecord col key value s)
  | .delete col key =>
    match s.inner.index[(col, key)]? with
    | some stale => dueAfter (deleteRecord col key stale s)
    | none => false
  | .compact => true
  | _ => false

def Quiet (m : Contents) (s : Db) (c : Call) : Prop :=
  (c = .checkpoint → SnapshotQuiet s) ∧
    (compacts s c = true → PackQuiet (m.step c).1 s.inner.options)

end Crabtalk.Crabdb

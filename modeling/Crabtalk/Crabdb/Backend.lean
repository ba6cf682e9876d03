import Crabtalk.Backend.Names
import Crabtalk.Basis.Codes
import Crabtalk.Basis.Simulation
import Crabtalk.Crabdb.Runs

/-!
# The keyspace in a database file

The backend of a general install answers the five methods of the keyspace from
one file. Keys go into it as their UTF-8 bytes and values as what they are
serialized to. As long as values read back as they were put, a program cannot
tell the file from the map of the keyspace, however often the file is opened
again; a process that dies leaves the map after some of its operations.
-/

open Basis

namespace Crabtalk.Crabdb.Backend

open Store (Str Column Value Kv KvM KvOp)
open Crabtalk.Backend (utf8 fromUtf8 fromUtf8_utf8)

variable {μ : Type}

structure Codec (μ : Type) where
  bytes : Value μ → Bytes
  value : Column → Str → Bytes → Value μ

def byte (col : Column) : UInt8 := UInt8.ofNat col.toNat

def failure : Error → Store.Error
  | .io => .io
  | .eof => .io
  | .abort => .panic
  | .bail text => .bail text.toList

def keyOf (bytes : Bytes) : Str := (fromUtf8 bytes).getD []

def blocking {α : Type} (m : M α) : EStateM Store.Error Db α := fun s =>
  match m s with
  | .ok a s' => .ok a s'
  | .error e s' => .error (failure e) s'

variable (codec : Codec μ)

def backend : (o : KvOp μ) → EStateM Store.Error Db o.Reply
  | .get col key => blocking do return (← getKey (byte col) (utf8 key)).map (codec.value col key)
  | .put col key value => blocking (put (byte col) (utf8 key) (codec.bytes value))
  | .delete col key => blocking (delete (byte col) (utf8 key))
  | .scanKeys col stem => blocking do return (← scanKeys (byte col) (utf8 stem)).map keyOf
  | .scan col stem => blocking do
    return (← scan (byte col) (utf8 stem)).map fun e => (keyOf e.1, codec.value col (keyOf e.1) e.2)

def call : KvOp μ → Call
  | .get col key => .get (byte col) (utf8 key)
  | .put col key value => .put (byte col) (utf8 key) (codec.bytes value)
  | .delete col key => .delete (byte col) (utf8 key)
  | .scanKeys col stem => .scanKeys (byte col) (utf8 stem)
  | .scan col stem => .scan (byte col) (utf8 stem)

/-- A put fits the format and reads back as it was put. -/
def Fit (s : Kv μ) : KvOp μ → Prop
  | .put col key value =>
    Fits (utf8 key) (codec.bytes value) ∧ (s.insert (col, key) value).size < 256 ^ 4 ∧
      codec.value col key (codec.bytes value) = value
  | _ => True

/-! ## Keys -/

def place (k : Column × Str) : Key := (byte k.1, utf8 k.2)

theorem compare_byte (a b : Column) : compare (byte a) (byte b) = compare a b := by
  cases a <;> cases b <;> rfl

theorem compare_utf8 (a b : Str) : compare (utf8 a) (utf8 b) = compare a b :=
  keeps_utf8EncodeChar.compare_flatMap a b

theorem colCmp_place (a b : Column × Str) : colCmp (place a) (place b) = colCmp a b := by
  rw [colCmp_eq, colCmp_eq, place, place, compare_byte, compare_utf8]

theorem place_injective : Function.Injective place := by
  intro a b hab
  have hc := colCmp_place a b
  have hself : colCmp (place b) (place b) = .eq := Std.ReflCmp.compare_self
  rw [hab, hself] at hc
  exact Std.LawfulEqCmp.eq_of_compare hc.symm

theorem byte_inj {a b : Column} (h : byte a = byte b) : a = b := by
  have := @place_injective (a, []) (b, []) (by rw [place, place, h])
  exact congrArg Prod.fst this

@[simp] theorem keyOf_utf8 (key : Str) : keyOf (utf8 key) = key :=
  by rw [keyOf, fromUtf8_utf8, Option.getD_some]

theorem isUnder_place (col : Column) (stem : Str) (k : Column × Str) :
    isUnder (byte col) (utf8 stem) (place k) = isUnder col stem k := by
  rw [Bool.eq_iff_iff, isUnder_iff, isUnder_iff]
  refine and_congr ?_ (keeps_utf8EncodeChar.isPrefix_flatMap stem k.2)
  constructor
  · exact fun h => byte_inj h
  · rintro rfl
    rfl

/-! ## What the file holds -/

def Holding (s : Db) (kv : Kv μ) : Prop :=
  ∃ m l, Holds m l s ∧ Encodes place (fun k => codec.value k.1 k.2) m kv

variable {codec} {s : Db} {kv : Kv μ}

theorem wp_blocking {α : Type} {m : M α} {Q : α → Db → Prop} {E : Store.Error → Db → Prop} :
    wp (blocking m) Q E s ↔ wp m Q (fun e => E (failure e)) s := by
  unfold wp blocking
  cases m s <;> rfl

/-- Scans over the file list what scans over the keyspace list. -/
theorem under_place {m : Contents} (h : Encodes place (fun k => codec.value k.1 k.2) m kv)
    (col : Column) (stem : Str) :
    List.Forall₂ (fun e' e => e'.1 = place e.1 ∧ codec.value e.1.1 e.1.2 e'.2 = e.2)
    (m.under (byte col) (utf8 stem)) (kv.under col stem) := by
  refine List.rel_filter (fun {a b} hab => ?_) (h.toList colCmp_place)
  show isUnder (byte col) (utf8 stem) a.1 = true ↔ isUnder col stem b.1 = true
  rw [hab.1, isUnder_place]

theorem keys_under {m : Contents} (h : Encodes place (fun k => codec.value k.1 k.2) m kv)
    (col : Column) (stem : Str) :
    (m.under (byte col) (utf8 stem)).map (fun e => keyOf e.1.2) = (kv.under col stem).map
    fun e => e.1.2 := by
  rw [← List.forall₂_eq_eq_eq, List.forall₂_map_left_iff, List.forall₂_map_right_iff]
  refine (under_place h col stem).imp fun a b hab => ?_
  rw [hab.1, place, keyOf_utf8]

theorem entries_under {m : Contents} (h : Encodes place (fun k => codec.value k.1 k.2) m kv)
    (col : Column) (stem : Str) :
    (m.under (byte col) (utf8 stem)).map
    (fun e => (keyOf e.1.2, codec.value col (keyOf e.1.2) e.2)) =
      (kv.under col stem).map fun e => (e.1.2, e.2) := by
  have hcol : ∀ e ∈ m.under (byte col) (utf8 stem), e.1.1 = byte col :=
    fun e he => (ColMap.mem_under.mp he).2.1
  rw [← List.forall₂_eq_eq_eq, List.forall₂_map_left_iff, List.forall₂_map_right_iff]
  refine ((List.forall₂_and_left _ _).mpr ⟨hcol, under_place h col stem⟩).imp fun a b hab => ?_
  obtain ⟨hcol, hk, hv⟩ := hab
  rw [hk, place] at hcol
  rw [hk, place, keyOf_utf8, ← hv, byte_inj hcol]

/-- Each operation does to the keyspace the file holds what it says. -/
theorem wp_backend (h : Holding codec s kv) (o : KvOp μ) (ho : Fit codec kv o) :
    wp (backend codec o) (fun a s' => ∃ kv', Store.memory o kv = .ok a kv' ∧ Holding codec s' kv')
    (fun _ _ => True) s := by
  obtain ⟨m, l, hH, hE⟩ := h
  -- Each operation is one call of the engine, read back through the codec.
  cases o with
  | get col key =>
    have hx := wp_exec hH (call codec (.get col key)) trivial trivial
    rw [call, exec, wp_bind] at hx
    refine (wp_blocking (E := fun _ _ => True)).mpr (wp_bind.mpr (hx.mono ?_ fun _ _ _ => trivial))
    rintro a s' ⟨ha, -, l', hl', -⟩
    cases ha
    refine ⟨kv, ?_, m, l', hl', hE⟩
    have hcell := hE.cell (col, key)
    show EStateM.Result.ok kv[(col, key)]? kv = _
    rw [hcell]
    rfl
  | put col key value =>
    obtain ⟨hfits, hsize, hread⟩ := ho
    have hE' := hE.insert place_injective (k := (col, key)) hread
    have hcount : (m.insert (byte col, utf8 key) (codec.bytes value)).size < 256 ^ 4 := by
      rw [show (byte col, utf8 key) = place (col, key) from rfl, hE'.size colCmp_place]
      exact hsize
    have hx := wp_exec hH (call codec (.put col key value)) ⟨hfits, hcount⟩ trivial
    rw [call, exec, wp_bind] at hx
    refine (wp_blocking (E := fun _ _ => True)).mpr (hx.mono ?_ fun _ _ _ => trivial)
    rintro a s' ⟨-, -, l', hl', -⟩
    exact ⟨_, rfl, _, l', hl', hE'⟩
  | delete col key =>
    have hx := wp_exec hH (call codec (.delete col key)) trivial trivial
    rw [call, exec, wp_bind] at hx
    refine (wp_blocking (E := fun _ _ => True)).mpr (hx.mono ?_ fun _ _ _ => trivial)
    rintro a s' ⟨ha, -, l', hl', -⟩
    cases ha
    refine ⟨_, ?_, _, l', hl', hE.erase place_injective (col, key)⟩
    have hcell := hE.cell (col, key)
    show EStateM.Result.ok kv[(col, key)]?.isSome _ = _
    rw [hcell, Option.isSome_map]
    rfl
  | scanKeys col stem =>
    have hx := wp_exec hH (call codec (.scanKeys col stem)) trivial trivial
    rw [call, exec, wp_bind] at hx
    show wp (blocking (scanKeys (byte col) (utf8 stem) >>= fun keys => pure (keys.map keyOf))) _ _ s
    refine (wp_blocking (E := fun _ _ => True)).mpr (wp_bind.mpr (hx.mono ?_ fun _ _ _ => trivial))
    rintro a s' ⟨ha, -, l', hl', -⟩
    cases ha
    refine ⟨kv, ?_, m, l', hl', hE⟩
    show EStateM.Result.ok _ kv = _
    rw [← keys_under hE, List.map_map]
    rfl
  | scan col stem =>
    have hx := wp_exec hH (call codec (.scan col stem)) trivial trivial
    rw [call, exec, wp_bind] at hx
    refine (wp_blocking (E := fun _ _ => True)).mpr (wp_bind.mpr (hx.mono ?_ fun _ _ _ => trivial))
    rintro a s' ⟨ha, -, l', hl', -⟩
    cases ha
    refine ⟨kv, ?_, m, l', hl', hE⟩
    show EStateM.Result.ok _ kv = _
    rw [← entries_under hE, List.map_map]
    rfl

theorem mimics_backend : Prog.Mimics (backend codec) Store.memory (Fit codec) (Holding codec) where
  ok {o s s' t a} h ho hr := by
    have hx := wp_backend h o ho
    rw [wp, hr] at hx
    exact hx

/-! ## A backend that is opened again, and one that dies -/

/-- What a backend goes through: it serves a request, it dies in the middle of one and is started
again, or its file is checkpointed or opened again in good order. -/
inductive Event (μ : Type) : Type 1
  | served {α : Type} (p : KvM μ α) (r : Except Store.Error α)
  | died {α : Type} (p : KvM μ α)
  | tended

variable (codec) in
/-- What the file goes through. A file that is read again ends in bytes a replay skips. -/
inductive Lives : Db → Event μ → Db → Prop
  | served {α : Type} {p : KvM μ α} {r : Except Store.Error α} {s s' : Db} :
      Prog.Flawless (backend codec) p s r s' → Lives s (.served p r) s'
  | died {α : Type} {p : KvM μ α} {n k : Nat} {o : KvOp μ} {s s₁ s' : Db} {options : Options} {a : Answer} :
      Prog.Pauses (backend codec) n p s o s₁ →
      (∀ m l, Holds m l s₁ → Mendable m s₁ (call codec o) k) →
      (Crabdb.Event.crash (call codec o) k options).exec s₁ = .ok a s' → Lives s (.died p) s'
  | checkpoint {s s' : Db} {a : Answer} : exec .checkpoint s = .ok a s' → Lives s .tended s'
  | reopen {s s' : Db} {options : Options} {a : Answer} :
      Skippable s → exec (.reopen options) s = .ok a s' → Lives s .tended s'

/-- What becomes of the keyspace: a request that was cut short has done some number of its operations. -/
inductive Stands : Kv μ → Event μ → Kv μ → Prop
  | served {α : Type} {p : KvM μ α} {r : Except Store.Error α} {kv kv' : Kv μ} :
      Prog.interp Store.memory p kv = Prog.outcome r kv' → Stands kv (.served p r) kv'
  | died {α : Type} {p : KvM μ α} {kv : Kv μ} (n : Nat) :
      Stands kv (.died p) (Prog.after Store.memory n p kv)
  | tended {kv : Kv μ} : Stands kv .tended kv

variable (codec) in
def Event.Fit (kv : Kv μ) : Event μ → Prop
  | .served p _ => Prog.Allowed Store.memory (Backend.Fit codec) p kv
  | .died p => Prog.Allowed Store.memory (Backend.Fit codec) p kv
  | .tended => True

theorem fits_call {m : Contents} {o : KvOp μ}
    (hE : Encodes place (fun k => codec.value k.1 k.2) m kv) (ho : Fit codec kv o) :
    (call codec o).Fits m := by
  cases o with
  | put col key value =>
    obtain ⟨hfits, hsize, hread⟩ := ho
    have hE' := hE.insert place_injective (k := (col, key)) hread
    refine ⟨hfits, ?_⟩
    rw [show (byte col, utf8 key) = place (col, key) from rfl, hE'.size colCmp_place]
    exact hsize
  | _ => trivial

theorem step_call {m : Contents} {o : KvOp μ}
    (hE : Encodes place (fun k => codec.value k.1 k.2) m kv) (ho : Fit codec kv o) :
    ∃ a kv', Store.memory o kv = .ok a kv' ∧
    Encodes place (fun k => codec.value k.1 k.2) (m.step (call codec o)).1 kv' := by
  cases o with
  | put col key value => exact ⟨_, _, rfl, hE.insert place_injective (k := (col, key)) ho.2.2⟩
  | delete col key => exact ⟨_, _, rfl, hE.erase place_injective (col, key)⟩
  | get col key => exact ⟨_, kv, rfl, hE⟩
  | scanKeys col stem => exact ⟨_, kv, rfl, hE⟩
  | scan col stem => exact ⟨_, kv, rfl, hE⟩

theorem Lives.stands {e : Event μ} {s' : Db} (hl : Lives codec s e s') (h : Holding codec s kv)
    (he : e.Fit codec kv) :
    ∃ kv', Stands kv e kv' ∧ Holding codec s' kv' := by
  cases hl with
  | served hr =>
    obtain ⟨kv', hi, h'⟩ := mimics_backend.flawless hr h he
    exact ⟨kv', .served hi, h'⟩
  | @died α p n k o _ s₁ _ options a hp hm hx =>
    obtain ⟨⟨m, l, hH, hE⟩, ho, hnext⟩ := mimics_backend.pauses hp h he
    have hev := wp_event hH (.crash (call codec o) k options) (fits_call hE ho) (hm m l hH)
    rw [wp, hx] at hev
    obtain ⟨-, l', hl'⟩ := hev
    rw [Contents.event] at hl'
    by_cases hk : k < (call codec o).recordLen m
    · rw [if_pos hk] at hl'
      exact ⟨_, .died n, m, l', hl', hE⟩
    · rw [if_neg hk] at hl'
      obtain ⟨b, kv', hb, hE'⟩ := step_call hE ho
      rw [← hnext b kv' hb] at hE'
      exact ⟨_, .died (n + 1), _, l', hl', hE'⟩
  | checkpoint hx =>
    obtain ⟨m, l, hH, hE⟩ := h
    have hc := wp_exec hH .checkpoint trivial trivial
    rw [wp, hx] at hc
    obtain ⟨-, -, l', hl', -⟩ := hc
    exact ⟨kv, .tended, m, l', hl', hE⟩
  | @reopen _ _ options a hs hx =>
    obtain ⟨m, l, hH, hE⟩ := h
    have hc := wp_exec hH (.reopen options) trivial hs
    rw [wp, hx] at hc
    obtain ⟨-, -, l', hl', -⟩ := hc
    exact ⟨kv, .tended, m, l', hl', hE⟩

/-- Whatever a backend goes through from a new file on, its answers are the keyspace's, and the file
holds the keyspace. -/
theorem backend_stands {path : PathBuf} {options : Options} {w w' : World} {i : Inner}
    {es : List (Event μ)} {s' : Db}
    (hext : path.extension ≠ some "tmp") (hfresh : (w.bytes path).length < headerLen)
    (hopen : openWith path options w = .ok i w')
    (hrun : Course (Lives codec) ⟨i, w'⟩ es s') (hfit : Admits Stands (Event.Fit codec) ∅ es) :
    ∃ kv : Kv μ, Course Stands ∅ es kv ∧ Holding codec s' kv := by
  have hnew := wp_openWith_fresh options hfresh hext
  rw [wp, hopen] at hnew
  exact hrun.simulated (fun _ _ _ _ h he hl => hl.stands h he) ⟨∅, _, hnew, .empty⟩ hfit

/-! ### One life of a backend -/

def handles : Codec Unit := ⟨fun v => (v.asRaw.map utf8).getD [],
    fun _ _ bytes => .raw (keyOf bytes)⟩

def store : PathBuf := ⟨"/", "store", some "crmem"⟩

def fileHandle (handle : Str) : KvM Unit Unit :=
  Store.put .session (Store.key ["idx".toList, handle]) (.raw handle)

def findHandle (handle : Str) : KvM Unit (Option (Value Unit)) :=
  Store.get .session (Store.key ["idx".toList, handle])

def begun : World := ⟨fun _ => none, none, .plain⟩

def ended {α : Type} : EStateM.Result Error Db α → Option Db
  | .ok _ s => some s
  | .error _ _ => none

def opened : Option Db :=
  match openWith store .default begun with
  | .ok i w => some ⟨i, w⟩
  | .error _ _ => none

def filing (handle : Str) : KvOp Unit :=
  .put .session (Store.key ["idx".toList, handle]) (.raw handle)

def cutPut (s : Db) : EStateM.Result Error Db Answer :=
  (Crabdb.Event.crash (call handles (filing "g".toList)) 8 .default).exec s

def oneLife : List (Event Unit) :=
  [.served (fileHandle "h".toList) (.ok ()), .died (fileHandle "g".toList),
    .served (findHandle "h".toList) (.ok (some (.raw "h".toList)))]

theorem exists_oneLife : ∃ i w' s', openWith store .default begun = .ok i w' ∧
    Course (Lives handles) ⟨i, w'⟩ oneLife s' := by
  have h : (opened.any fun s => (Prog.unfailing (backend handles) (fileHandle "h".toList) s).any fun x =>
      x.1 = .ok () ∧ (x.2.world.bytes x.2.inner.path).length ≤ x.2.inner.endAt ∧
        (ended (cutPut x.2)).any fun s₂ =>
        (Prog.unfailing (backend handles) (findHandle "h".toList) s₂).any fun y =>
          y.1 = .ok (some (.raw "h".toList))) = true := by
    decide +kernel
  obtain ⟨s, hs, h⟩ := (Option.any_eq_true _ _).mp h
  obtain ⟨x, hx, h⟩ := (Option.any_eq_true _ _).mp h
  obtain ⟨hok, hclean, h⟩ := of_decide_eq_true h
  obtain ⟨s₂, hs₂, h⟩ := (Option.any_eq_true _ _).mp h
  obtain ⟨y, hy, h⟩ := (Option.any_eq_true _ _).mp h
  have hread := of_decide_eq_true h
  obtain ⟨r, s₁⟩ := x
  obtain ⟨r', s₃⟩ := y
  cases hok
  cases hread
  unfold opened at hs
  split at hs
  · rename_i i w' hopen
    cases hs
    refine ⟨i, w', s₃, hopen, .cons (.served (Prog.flawless_of_unfailing hx))
      (.cons ?_ (.cons (.served (Prog.flawless_of_unfailing hy)) (.nil _)))⟩
    unfold ended at hs₂
    split at hs₂
    · rename_i a s' hcrash
      cases hs₂
      refine .died (.here _ _ _) (fun m l _ => ⟨trivial, .inl hclean, .inl ?_⟩) hcrash
      show 8 < 10 + _ + _
      omega
    · cases hs₂
  · cases hs

theorem fit_filing {kv : Kv Unit} {handle : Str} (hkv : kv.size < 2)
    (hfits : Fits (utf8 (Store.key ["idx".toList, handle])) (utf8 handle)) :
    Fit handles kv (filing handle) := by
  have hsize : (kv.insert (Column.session, Store.key ["idx".toList, handle]) (.raw handle)).size ≤
      kv.size + 1 :=
    Std.ExtTreeMap.size_insert_le
  exact ⟨hfits, by omega, congrArg Value.raw (keyOf_utf8 handle)⟩

theorem admits_oneLife : Admits Stands (Event.Fit handles) ∅ oneLife := by
  refine ⟨⟨fit_filing (by decide) (by decide), trivial⟩, ?_⟩
  rintro kv ⟨hi⟩
  cases hi
  exact ⟨⟨fit_filing (by decide) (by decide), trivial⟩,
    fun _ _ => ⟨⟨trivial, trivial⟩, fun _ _ => trivial⟩⟩

theorem backend_stands_oneLife : ∃ kv s' , Course Stands ∅ oneLife kv ∧ Holding handles s' kv := by
  obtain ⟨i, w', s', hopen, hrun⟩ := exists_oneLife
  obtain ⟨kv, h⟩ := backend_stands (by decide) (by decide) hopen hrun admits_oneLife
  exact ⟨kv, s', h⟩

end Crabtalk.Crabdb.Backend

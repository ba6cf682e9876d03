import Crabtalk.Crabdb.Crashes

/-!
# Writes that fail

A device may refuse the record of a put or a delete and take the next one.
The process goes on with the store it has in memory, over a file that ends in
a piece of the record. A put has changed nothing in memory by then; a delete
has taken the key out of the index.
-/

open Basis

namespace Crabtalk.Crabdb

inductive Attempt
  | call (c : Call)
  /-- `n` effects into `c` the device refuses the next one. -/
  | cut (c : Call) (n : Nat)
  deriving DecidableEq

/-- What a call answers that the device refuses after `n` effects; `crashed` is the store it
leaves. -/
def refused (c : Call) (n : Nat) (s : Db) : Except Error Answer :=
  match exec c (s.limit (some n)) with
  | .ok a _ => .ok a
  | .error e _ => .error e

def attempts : List Attempt → Db → List (Except Error Answer)
  | [], _ => []
  | .call c :: ts, s =>
    match exec c s with
    | .ok a s' => .ok a :: attempts ts s'
    | .error e _ => [.error e]
  | .cut c n :: ts, s => refused c n s :: attempts ts (crashed c n s)

def attemptSession (path : PathBuf) (options : Options) (ts : List Attempt) (w : World) :
    List (Except Error Answer) :=
  match openWith path options w with
  | .ok i w' => .ok .done :: attempts ts ⟨i, w'⟩
  | .error e _ => [.error e]

/-! ## The map -/

namespace Contents

def attempt (m : Contents) : Attempt → Contents × Except Error Answer
  | .call c => ((m.step c).1, .ok (m.step c).2)
  | .cut _ _ => (m, .error .io)

def attempts : Contents → List Attempt → List (Except Error Answer)
  | _, [] => []
  | m, t :: ts => (m.attempt t).2 :: attempts (m.attempt t).1 ts

def afterAttempts : Contents → List Attempt → Contents
  | m, [] => m
  | m, t :: ts => afterAttempts (m.attempt t).1 ts

end Contents

/-! ## Runs in which only puts are cut -/

def Call.isPut : Call → Bool
  | .put _ _ _ => true
  | _ => false

/-- Only records of puts are cut, the device refuses no other call, and each file that is read again
ends in bytes a replay skips. -/
def PutsCut : Contents → List Attempt → Db → Prop
  | _, [], _ => True
  | m, .call c :: ts, s => c.Fits m ∧ Readable s c ∧
    match exec c s with
    | .ok _ s' => PutsCut (m.step c).1 ts s'
    | .error e _ => e ≠ .io
  | m, .cut c n :: ts, s =>
    c.isPut = true ∧ c.Fits m ∧ n < c.recordLen m ∧ PutsCut m ts (crashed c n s)

def PutsCutSession (path : PathBuf) (options : Options) (ts : List Attempt) (w : World) : Prop :=
  match openWith path options w with
  | .ok i w' => PutsCut ∅ ts ⟨i, w'⟩
  | .error e _ => e ≠ .io

instance instDecidablePutsCut : ∀ m ts s, Decidable (PutsCut m ts s)
  | _, [], _ => inferInstanceAs (Decidable True)
  | m, .call c :: ts, s => by
    unfold PutsCut
    have := instDecidablePutsCut (m.step c).1 ts
    cases exec c s <;> infer_instance
  | m, .cut c n :: ts, s => by
    unfold PutsCut
    have := instDecidablePutsCut m ts (crashed c n s)
    infer_instance

theorem putsCutSession_ok {path : PathBuf} {options : Options} {ts : List Attempt}
    {w w' : World} {i : Inner}
    (h : openWith path options w = .ok i w') : PutsCut ∅ ts ⟨i, w'⟩ ↔
    PutsCutSession path options ts w := by
  unfold PutsCutSession
  rw [h]

theorem putsCutSession_error {path : PathBuf} {options : Options} {ts : List Attempt}
    {w w' : World} {e : Error}
    (h : openWith path options w = .error e w') : e ≠ .io ↔ PutsCutSession path options ts w := by
  unfold PutsCutSession
  rw [h]

instance (path : PathBuf) (options : Options) (ts : List Attempt) (w : World) :
    Decidable (PutsCutSession path options ts w) :=
  match h : openWith path options w with
  | .ok _ _ => decidable_of_iff _ (putsCutSession_ok h)
  | .error _ _ => decidable_of_iff _ (putsCutSession_error h)

section
variable {m : Contents} {l : Layout} {s : Db} {col : UInt8} {key value : Bytes}

/-- A put whose record is cut leaves the store as it was, over a file with other junk. -/
theorem wp_putRecord_cut (h : Holds m l s) (hf : Fits key value)
    (hcut : ¬ s.world.covers (10 + key.length + value.length)) :
    wp (putRecord col key value) (fun _ _ => False) (fun e s' => e = .io ∧
      ∃ j, Holds m { l with junk := j } s') s := by
  rw [putRecord, wp_bind]
  exact wp_append h.disk h.endAt (fun _ hc _ => absurd hc hcut) hf fun j _ _ w hw =>
    ⟨rfl, j, h.stored.junk j, hw, h.endAt, h.ext⟩

theorem wp_deleteRecord_cut (h : Holds m l s) {stale : Nat}
    (hk : s.inner.index[(col, key)]? = some stale)
    (hcut : ¬ s.world.covers (10 + key.length)) :
    wp (deleteRecord col key stale) (fun _ _ => False)
      (fun e s' => e = .io ∧ s'.inner = { s.inner with index := s.inner.index.erase (col, key) }) s := by
  have hm : m[(col, key)]?.isSome := by rw [← h.stored.isSome, hk]; rfl
  obtain ⟨v, hv⟩ := Option.isSome_iff_exists.mp hm
  have hf : Fits key [] := ⟨(h.stored.fits _ v hv).1, by decide⟩
  rw [deleteRecord, wp_bind, inner, wp_modify, wp_bind]
  exact wp_append h.disk h.endAt (fun _ hc _ => absurd hc hcut) hf fun _ _ _ _ _ => ⟨rfl, rfl⟩

theorem refused_of_wp {c : Call} {n : Nat} {P : Db → Prop}
    (hw : wp (exec c) (fun _ _ => False) (fun e s' => e = .io ∧ P (s'.limit none))
      (s.limit (some n))) :
    refused c n s = .error .io ∧ P (crashed c n s) := by
  unfold wp at hw
  unfold refused crashed
  cases hx : exec c (s.limit (some n)) with
  | ok a s' =>
    rw [hx] at hw
    exact hw.elim
  | error e s' =>
    rw [hx] at hw
    obtain ⟨rfl, hp⟩ := hw
    exact ⟨rfl, hp⟩

theorem not_covers {n r : Nat} (hn : n < r) : ¬ (s.limit (some n)).world.covers r :=
  fun hc => absurd (hc n rfl) (Nat.not_le_of_lt hn)

theorem refused_put (h : Holds m l s) (hf : (Call.put col key value).Fits m) {n : Nat}
    (hn : n < 10 + key.length + value.length) :
    refused (.put col key value) n s = .error .io ∧
    ∃ l', Holds m l' (crashed (.put col key value) n s) := by
  refine refused_of_wp (P := fun s' => ∃ l', Holds m l' s') ?_
  rw [exec, wp_bind, put, wp_bind]
  refine (wp_putRecord_cut (h.limit (some n)) hf.1 (not_covers hn)).mono (fun _ _ hx => hx.elim) ?_
  rintro e s' ⟨he, j, hj⟩
  exact ⟨he, _, hj.limit none⟩

theorem refused_delete (h : Holds m l s) (hk : m[(col, key)]?.isSome) {n : Nat}
    (hn : n < 10 + key.length) :
    refused (.delete col key) n s = .error .io ∧
      (crashed (.delete col key) n s).inner =
      { s.inner with index := s.inner.index.erase (col, key) } := by
  rw [← h.stored.isSome] at hk
  obtain ⟨stale, hstale⟩ := Option.isSome_iff_exists.mp hk
  refine refused_of_wp (P := fun s' => s'.inner =
    { s.inner with index := s.inner.index.erase (col, key) }) ?_
  rw [exec, wp_bind, delete, wp_bind, wp_get]
  have hstale' : (s.limit (some n)).inner.index[(col, key)]? = some stale := hstale
  rw [hstale']
  dsimp only
  rw [wp_bind]
  exact (wp_deleteRecord_cut (h.limit (some n)) hstale' (not_covers hn)).mono
    (fun _ _ hx => hx.elim) fun _ _ he => he

/-- The run goes on from a store that holds what the calls that went through made of the map. -/
theorem attempts_append {ts : List Attempt} (h : Holds m l s) (hp : PutsCut m ts s) :
    ∃ l' s', Holds (m.afterAttempts ts) l' s' ∧ ∀ more, attempts (ts ++ more) s =
    m.attempts ts ++ attempts more s' := by
  induction ts generalizing m l s with
  | nil => exact ⟨l, s, h, fun _ => rfl⟩
  | cons t ts ih =>
    cases t with
    | call c =>
      obtain ⟨hf, hr, hrest⟩ := hp
      have hspec := wp_exec h c hf hr
      unfold wp at hspec
      cases hx : exec c s with
      | ok a s₁ =>
        rw [hx] at hspec hrest
        obtain ⟨rfl, -, l₁, hl₁, -⟩ := hspec
        obtain ⟨l', s', hl', hmore⟩ := ih hl₁ hrest
        refine ⟨l', s', hl', fun more => ?_⟩
        rw [List.cons_append, attempts, hx]
        dsimp only
        rw [hmore]
        rfl
      | error e s₁ =>
        rw [hx] at hspec hrest
        exact absurd hspec.1 hrest
    | cut c n =>
      obtain ⟨hput, hf, hn, hrest⟩ := hp
      cases c with
      | put col key value =>
        obtain ⟨hans, l₁, hl₁⟩ := refused_put h hf hn
        obtain ⟨l', s', hl', hmore⟩ := ih hl₁ hrest
        refine ⟨l', s', hl', fun more => ?_⟩
        rw [List.cons_append, attempts, hans, hmore]
        rfl
      | _ => cases hput

theorem exec_of_wp {c : Call} {a : Answer}
    (hw : wp (exec c) (fun b s' => b = a ∧ s' = s) (fun _ _ => False) s) : exec c s = .ok a s := by
  unfold wp at hw
  cases hx : exec c s with
  | ok b s' =>
    rw [hx] at hw
    rw [hw.1, hw.2]
  | error e s' =>
    rw [hx] at hw
    exact hw.elim

theorem exec_absent (hk : s.inner.index[(col, key)]? = none) :
    exec (.get col key) s = .ok (.value none) s ∧
    exec (.delete col key) s = .ok (.present false) s := by
  constructor
  · apply exec_of_wp
    rw [exec, wp_bind, getKey, wp_bind, wp_get, hk]
    exact ⟨rfl, rfl⟩
  · apply exec_of_wp
    rw [exec, wp_bind, delete, wp_bind, wp_get, hk]
    exact ⟨rfl, rfl⟩

/-- After a delete that is cut the key is gone from memory: it cannot be read, nor deleted again. -/
theorem attempts_cut_delete (h : Holds m l s) (hk : m[(col, key)]?.isSome) {n : Nat}
    (hn : n < 10 + key.length) :
    attempts [.cut (.delete col key) n, .call (.get col key), .call (.delete col key),
      .call .len] s =
      [.error .io, .ok (.value none), .ok (.present false), .ok (.count (m.size - 1))] := by
  obtain ⟨hans, hinner⟩ := refused_delete h hk hn
  have hnone : (crashed (.delete col key) n s).inner.index[(col, key)]? = none := by
    rw [hinner, find_erase, if_pos rfl]
  obtain ⟨hget, hdelete⟩ := exec_absent hnone
  have hsize : (crashed (.delete col key) n s).inner.index.size = m.size - 1 := by
    rw [hinner, ← h.stored.size_eq, Std.ExtTreeMap.size_erase, if_pos]
    rw [← Std.ExtTreeMap.mem_iff_contains, Std.ExtTreeMap.mem_iff_isSome_getElem?, h.stored.isSome]
    exact hk
  have hlen : exec .len (crashed (.delete col key) n s) = .ok (.count (m.size - 1))
      (crashed (.delete col key) n s) :=
    exec_of_wp ⟨congrArg Answer.count hsize, rfl⟩
  simp only [attempts, hans, hget, hdelete, hlen]

end

/-! ## Whole runs -/

/-- While only puts are cut, every cut call answers an error and all the others answer as if it had
not been made. A delete of a key that is there, cut at its record, takes the key out of memory. -/
theorem cut_puts_unseen {path : PathBuf} {options : Options} {ts : List Attempt} {w : World}
    (hext : path.extension ≠ some "tmp")
    (hfresh : (w.bytes path).length < headerLen) (hp : PutsCutSession path options ts w) :
    attemptSession path options ts w = .ok .done :: Contents.attempts ∅ ts ∧
      ∀ col key n, (Contents.afterAttempts ∅ ts)[(col, key)]?.isSome → n < 10 + key.length →
        attemptSession path options (ts ++ [.cut (.delete col key) n, .call (.get col key),
          .call (.delete col key), .call .len]) w =
          .ok .done :: (Contents.attempts ∅ ts ++
            [.error .io, .ok (.value none), .ok (.present false),
              .ok (.count ((Contents.afterAttempts ∅ ts).size - 1))]) := by
  have hspec := wp_openWith_fresh options hfresh hext
  unfold wp at hspec
  unfold PutsCutSession at hp
  unfold attemptSession
  cases hx : openWith path options w with
  | ok i w' =>
    rw [hx] at hspec hp
    obtain ⟨l', s', hl', hmore⟩ := attempts_append hspec hp
    dsimp only
    refine ⟨?_, fun col key n hk hn => ?_⟩
    · have := hmore []
      rw [List.append_nil] at this
      rw [this, attempts, List.append_nil]
    · rw [hmore, attempts_cut_delete hl' hk hn]
  | error e w' =>
    rw [hx] at hspec hp
    exact absurd hspec hp

theorem cut_put_instance :
    attemptSession ⟨"/", "store", some "crmem"⟩ .default
      [.call (.put 1 [7] [1, 2]), .cut (.put 1 [8] [5, 5, 5, 5]) 12, .call (.get 1 [8]),
        .call (.reopen .default), .call (.scan 1 [])]
      ⟨fun _ => none, none, .plain⟩ =
    .ok .done :: Contents.attempts ∅
      [.call (.put 1 [7] [1, 2]), .cut (.put 1 [8] [5, 5, 5, 5]) 12, .call (.get 1 [8]),
        .call (.reopen .default), .call (.scan 1 [])] :=
  (cut_puts_unseen (by decide) (by decide) (by decide +kernel)).1

/-- The key goes with a delete that failed, and is back after a reopen. A put that failed late and a
shorter one over its piece leave a file that no longer opens. -/
theorem cut_delete_seen :
    (attemptSession ⟨"/", "store", some "crmem"⟩ .default
      [.call (.put 1 [7] [1, 2]), .cut (.delete 1 [7]) 4, .call (.get 1 [7]), .call (.delete 1 [7]),
        .call (.reopen .default),
        .call (.get 1 [7])] ⟨fun _ => none, none, .plain⟩ =
      [.ok .done, .ok .done, .error .io, .ok (.value none), .ok (.present false), .ok .done,
        .ok (.value (some [1, 2]))] ∧
    .ok .done :: Contents.attempts ∅
      [.call (.put 1 [7] [1, 2]), .cut (.delete 1 [7]) 4, .call (.get 1 [7]), .call (.delete 1 [7]),
        .call (.reopen .default),
        .call (.get 1 [7])] =
      [.ok .done, .ok .done, .error .io, .ok (.value (some [1, 2])), .ok (.present true), .ok .done,
        .ok (.value none)]) ∧
    attemptSession ⟨"/", "store", some "crmem"⟩ .default
      [.cut (.put 1 [1] (List.replicate 20 9)) 25, .call (.put 1 [2] []), .call (.reopen .default)]
      ⟨fun _ => none, none, .plain⟩ =
      [.ok .done, .error .io, .ok .done, .error (.bail "crabdb: unknown record op 9")] := by
  refine ⟨⟨?_, ?_⟩, ?_⟩
  · decide +kernel
  · decide +kernel
  · decide +kernel

end Crabtalk.Crabdb

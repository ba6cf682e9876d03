import Crabtalk.Basis.Mirror
import Crabtalk.Basis.Reachable
import Crabtalk.Store.Kv

/-! # Live sessions

The registry, as the operations leave it that take its lock. A session is a
cell others may hold and lock; the registry knows it by its address.
-/

open Basis Std
open Crabtalk.Store

namespace Crabtalk.Runtime

/-! ## The registry -/

structure Live where
  handle : Str
  session : Nat
  cancel : Option Nat
  touched : Nat
  bytes : Nat
  deriving DecidableEq

structure Registry where
  byId : ExtTreeMap Nat Live
  byHandle : ExtTreeMap Str Nat

namespace Registry

def insert (r : Registry) (id : Nat) (live : Live) : Registry :=
  let byId := match r.byHandle[live.handle]? with
    | some displaced => r.byId.erase displaced
    | none => r.byId
  ⟨byId.insert id live, r.byHandle.insert live.handle id⟩

def remove (r : Registry) (id : Nat) : Option Live × Registry :=
  match r.byId[id]? with
  | some live => (some live, ⟨r.byId.erase id, r.byHandle.erase live.handle⟩)
  | none => (none, r)

def resident (r : Registry) : Nat := (r.byId.values.map (·.bytes)).sum

end Registry

/-- What the rest of the process does with the cells: how many references there are to each, and
what the session in it measures where the lock is free. -/
structure Cells where
  strongCount : Nat → Nat
  tryLock : Nat → Option Nat

def Live.measure (cells : Cells) (live : Live) : Live :=
  match cells.tryLock live.session with
  | some bytes => { live with bytes }
  | none => live

structure Sessions where
  registry : Registry
  tick : Nat
  maxBytes : Option Nat

namespace Sessions

def new (maxBytes : Option Nat) : Sessions := ⟨⟨∅, ∅⟩, 0, maxBytes⟩

/-! ## Looking up -/

def touch (s : Sessions) (id : Nat) : Sessions :=
  { s with registry.byId := s.registry.byId.modify id fun live => { live with touched := s.tick }, tick := s.tick + 1 }

def get (s : Sessions) (id : Nat) : Option Nat × Sessions :=
  match s.registry.byId[id]? with
  | some live => (some live.session, s.touch id)
  | none => (none, s)

def findByHandle (s : Sessions) (handle : Str) : Option (Nat × Nat) × Sessions :=
  match s.registry.byHandle[handle]? with
  | none => (none, s)
  | some id =>
    match s.registry.byId[id]? with
    | none => (none, s)
    | some live => (some (id, live.session), s.touch id)

/-! ## Evicting -/

def victim (cells : Cells) (r : Registry) : Option Nat :=
  ((r.byId.toList.filter fun e => e.2.cancel.isNone && cells.strongCount e.2.session == 1).minOn?
    (·.2.touched)).map (·.1)

/-- At most `n` rounds of the loop. -/
def sweep (cells : Cells) (max : Nat) : Nat → Registry → Registry
  | 0, r => r
  | n + 1, r =>
    if r.resident ≤ max then r
    else
      match victim cells r with
      | some id => sweep cells max n (r.remove id).2
      | none => r

/-- Every round takes an entry away, so that there are at most as many as there are entries. -/
def evict (cells : Cells) (s : Sessions) : Sessions :=
  match s.maxBytes with
  | none => s
  | some max =>
    let measured := s.registry.byId.map fun _ live => live.measure cells
    { s with registry := sweep cells max measured.size { s.registry with byId := measured } }

/-- The part of `reprice` under the read lock. -/
def measure (cells : Cells) (s : Sessions) (id : Nat) : Sessions :=
  { s with registry.byId := s.registry.byId.modify id fun live => live.measure cells }

/-- `reprice`, which goes on to `evict` where the history passes the bound. -/
def reprice (cells : Cells) (s : Sessions) (id : Nat) : Sessions :=
  match s.registry.byId[id]?.bind fun live => cells.tryLock live.session with
  | none => s
  | some _ =>
    match s.maxBytes with
    | none => s.measure cells id
    | some max =>
      if (s.measure cells id).registry.resident ≤ max then s.measure cells id
        else evict cells (s.measure cells id)

/-! ## Opening, closing, cancelling -/

def insert (cells : Cells) (s : Sessions) (id : Nat) (handle : Str) (session bytes : Nat) : Sessions :=
  evict cells
    { s with registry := s.registry.insert id ⟨handle, session, none, s.tick, bytes⟩, tick := s.tick + 1 }

def close (s : Sessions) (id : Nat) : Bool × Sessions :=
  ((s.registry.remove id).1.isSome, { s with registry := (s.registry.remove id).2 })

def beginCancel (s : Sessions) (id token : Nat) : Option Nat × Sessions :=
  match s.registry.byId[id]? with
  | some _ => (some token,
      { s with registry.byId := s.registry.byId.modify id fun live => { live with cancel := some token } })
  | none => (none, s)

def endCancel (s : Sessions) (id : Nat) : Sessions :=
  { s with registry.byId := s.registry.byId.modify id fun live => { live with cancel := none } }

def cancel (s : Sessions) (id : Nat) : Except Str Nat :=
  match s.registry.byId[id]?.bind (·.cancel) with
  | some token => .ok token
  | none => .error ("no cancellable operation for session ".toList ++ (toString id).toList)

end Sessions

/-! ## The two indexes -/

def Registry.Agrees (r : Registry) : Prop := Mirror Live.handle r.byId r.byHandle

@[simp] theorem Live.measure_handle (cells : Cells) (live : Live) :
    (live.measure cells).handle = live.handle := by
  unfold Live.measure
  split <;> rfl

namespace Registry

variable {r : Registry}

theorem Agrees.insert (h : r.Agrees) {id : Nat} {live : Live} (hid : r.byId[id]? = none) :
    (r.insert id live).Agrees := by
  unfold Registry.insert Registry.Agrees
  cases hd : r.byHandle[live.handle]? with
  | none => exact Mirror.insert h hid hd
  | some displaced => exact Mirror.displace h hid hd

theorem Agrees.remove (h : r.Agrees) (id : Nat) : (r.remove id).2.Agrees := by
  unfold Registry.remove
  cases hid : r.byId[id]? with
  | none => exact h
  | some live => exact Mirror.remove h hid

theorem Agrees.modify (h : r.Agrees) (id : Nat) {f : Live → Live}
    (hf : ∀ live, (f live).handle = live.handle) :
    Registry.Agrees { r with byId := r.byId.modify id f } := by
  apply Mirror.congr h
  intro i
  rw [ExtTreeMap.getElem?_modify]
  split
  · rename_i hi
    rw [← LawfulEqCmp.compare_eq_iff_eq.mp hi]
    cases r.byId[id]? with
    | none => rfl
    | some live => exact congrArg some (hf live)
  · rfl

theorem Agrees.map (h : r.Agrees) {f : Nat → Live → Live}
    (hf : ∀ id live, (f id live).handle = live.handle) :
    Registry.Agrees { r with byId := r.byId.map f } := by
  apply Mirror.congr h
  intro i
  rw [ExtTreeMap.getElem?_map]
  cases r.byId[i]? with
  | none => rfl
  | some live => exact congrArg some (hf i live)

end Registry

namespace Sessions

variable {s : Sessions} {cells : Cells}

theorem agrees_sweep {max : Nat} (n : Nat) {r : Registry} (h : r.Agrees) :
    (sweep cells max n r).Agrees := by
  induction n generalizing r with
  | zero => exact h
  | succ n ih =>
    unfold sweep
    split
    · exact h
    · split
      · exact ih (h.remove _)
      · exact h

theorem agrees_evict (h : s.registry.Agrees) : (s.evict cells).registry.Agrees := by
  unfold evict
  split
  · exact h
  · apply agrees_sweep
    exact h.map fun _ live => live.measure_handle cells

theorem agrees_touch (h : s.registry.Agrees) (id : Nat) : (s.touch id).registry.Agrees :=
  h.modify id fun _ => rfl

theorem agrees_get (h : s.registry.Agrees) (id : Nat) : (s.get id).2.registry.Agrees := by
  unfold get
  split
  · exact agrees_touch h id
  · exact h

theorem agrees_findByHandle (h : s.registry.Agrees) (handle : Str) :
    (s.findByHandle handle).2.registry.Agrees := by
  unfold findByHandle
  split
  · exact h
  · split
    · exact h
    · exact agrees_touch h _

theorem agrees_beginCancel (h : s.registry.Agrees) (id token : Nat) :
    (s.beginCancel id token).2.registry.Agrees := by
  unfold beginCancel
  split
  · exact h.modify id fun _ => rfl
  · exact h

end Sessions

/-! ## Who is left -/

namespace Registry

variable {r r' r'' : Registry}

def Registered (r : Registry) (handle : Str) (session : Nat) : Prop :=
  ∃ (id : Nat) (live : Live), r.byId[id]? = some live ∧ live.handle = handle ∧
    live.session = session

def Narrows (r r' : Registry) : Prop :=
  ∀ (id : Nat) (live' : Live), r'.byId[id]? = some live' →
    ∃ live, r.byId[id]? = some live ∧ live'.handle = live.handle ∧ live'.session = live.session

theorem Narrows.refl : Narrows r r := fun _ live h => ⟨live, h, rfl, rfl⟩

theorem Narrows.trans (h₁ : Narrows r r') (h₂ : Narrows r' r'') : Narrows r r'' := by
  intro id live'' h
  obtain ⟨live', h', hh', hs'⟩ := h₂ id live'' h
  obtain ⟨live, h, hh, hs⟩ := h₁ id live' h'
  exact ⟨live, h, hh'.trans hh, hs'.trans hs⟩

theorem Narrows.remove (id : Nat) : Narrows r (r.remove id).2 := by
  unfold Registry.remove
  split
  · intro i live' h
    rw [ExtTreeMap.getElem?_erase] at h
    split at h
    · cases h
    · exact ⟨live', h, rfl, rfl⟩
  · exact .refl

theorem Narrows.modify (id : Nat) {f : Live → Live}
    (hf : ∀ live, (f live).handle = live.handle ∧ (f live).session = live.session) :
    Narrows r { r with byId := r.byId.modify id f } := by
  intro i live' h
  rw [ExtTreeMap.getElem?_modify] at h
  split at h
  · rename_i hi
    rw [LawfulEqCmp.compare_eq_iff_eq.mp hi] at h
    obtain ⟨live, hlive, rfl⟩ := Option.map_eq_some_iff.mp h
    exact ⟨live, hlive, hf live⟩
  · exact ⟨live', h, rfl, rfl⟩

theorem Narrows.map {f : Nat → Live → Live}
    (hf : ∀ id live, (f id live).handle = live.handle ∧ (f id live).session = live.session) :
    Narrows r { r with byId := r.byId.map f } := by
  intro i live' h
  rw [ExtTreeMap.getElem?_map] at h
  obtain ⟨live, hlive, rfl⟩ := Option.map_eq_some_iff.mp h
  exact ⟨live, hlive, hf i live⟩

theorem Narrows.absent (h : Narrows r r') {id : Nat} (hr : r.byId[id]? = none) :
    r'.byId[id]? = none := by
  cases hid : r'.byId[id]? with
  | none => rfl
  | some live' =>
    obtain ⟨live, hlive, -⟩ := h id live' hid
    rw [hr] at hlive
    cases hlive

theorem Narrows.registered (h : Narrows r r') {handle : Str} {session : Nat}
    (hr : r'.Registered handle session) :
    r.Registered handle session := by
  obtain ⟨id, live', hlive', hh, hs⟩ := hr
  obtain ⟨live, hlive, hh', hs'⟩ := h id live' hlive'
  exact ⟨id, live, hlive, hh'.symm.trans hh, hs'.symm.trans hs⟩

theorem find_insert {id i : Nat} {live live' : Live}
    (h : (r.insert id live).byId[i]? = some live') :
    i = id ∧ live' = live ∨ r.byId[i]? = some live' := by
  unfold Registry.insert at h
  dsimp only at h
  rw [ExtTreeMap.getElem?_insert] at h
  split at h
  · rename_i hi
    exact .inl ⟨(LawfulEqCmp.compare_eq_iff_eq.mp hi).symm, (Option.some.inj h).symm⟩
  · right
    split at h
    · rw [ExtTreeMap.getElem?_erase] at h
      split at h
      · cases h
      · exact h
    · exact h

theorem Agrees.unique (ha : r.Agrees) {handle : Str} {a b : Nat} (h₁ : r.Registered handle a)
    (h₂ : r.Registered handle b) : a = b := by
  obtain ⟨i, live, hi, hh, rfl⟩ := h₁
  obtain ⟨j, live', hj, hh', rfl⟩ := h₂
  have hi' := (ha i handle).mp ⟨live, hi, hh⟩
  have hj' := (ha j handle).mp ⟨live', hj, hh'⟩
  rw [hi'] at hj'
  cases hj'
  rw [hi] at hj
  cases hj
  rfl

end Registry

namespace Sessions

variable {s : Sessions} {cells : Cells}

theorem measure_same (live : Live) : (live.measure cells).handle = live.handle ∧
    (live.measure cells).session = live.session := by
  unfold Live.measure
  split <;> exact ⟨rfl, rfl⟩

theorem narrows_sweep {max : Nat} (n : Nat) {r : Registry} : r.Narrows (sweep cells max n r) := by
  induction n generalizing r with
  | zero => exact .refl
  | succ n ih =>
    unfold sweep
    split
    · exact .refl
    · split
      · exact (Registry.Narrows.remove _).trans ih
      · exact .refl

theorem narrows_evict : s.registry.Narrows (s.evict cells).registry := by
  unfold evict
  split
  · exact .refl
  · exact (Registry.Narrows.map fun _ live => measure_same live).trans (narrows_sweep _)

theorem narrows_touch (id : Nat) : s.registry.Narrows (s.touch id).registry :=
  .modify id fun _ => ⟨rfl, rfl⟩

theorem narrows_get (id : Nat) : s.registry.Narrows (s.get id).2.registry := by
  unfold get
  split
  · exact narrows_touch id
  · exact .refl

theorem narrows_findByHandle (handle : Str) :
    s.registry.Narrows (s.findByHandle handle).2.registry := by
  unfold findByHandle
  split
  · exact .refl
  · split
    · exact .refl
    · exact narrows_touch _

theorem narrows_measure (id : Nat) : s.registry.Narrows (s.measure cells id).registry :=
  .modify id measure_same

theorem narrows_reprice (id : Nat) : s.registry.Narrows (s.reprice cells id).registry := by
  unfold reprice
  split
  · exact .refl
  · split
    · exact narrows_measure id
    · split
      · exact narrows_measure id
      · exact (narrows_measure id).trans narrows_evict

theorem narrows_beginCancel (id token : Nat) :
    s.registry.Narrows (s.beginCancel id token).2.registry := by
  unfold beginCancel
  split
  · exact .modify id fun _ => ⟨rfl, rfl⟩
  · exact .refl

theorem narrows_insert (id : Nat) (handle : Str) (session bytes : Nat) :
    (s.registry.insert id ⟨handle, session, none, s.tick, bytes⟩).Narrows
    (s.insert cells id handle session bytes).registry :=
  narrows_evict (s := { s with registry := s.registry.insert id _, tick := s.tick + 1 })

theorem insert_registered {id session bytes a : Nat} {handle handle' : Str}
    (hr : (s.insert cells id handle session bytes).registry.Registered handle' a) :
    handle' = handle ∧ a = session ∨ s.registry.Registered handle' a := by
  obtain ⟨j, live, hlive, hh, hs⟩ := (narrows_insert id handle session bytes).registered hr
  rcases Registry.find_insert hlive with ⟨-, rfl⟩ | hlive
  · exact .inl ⟨hh.symm, hs.symm⟩
  · exact .inr ⟨j, live, hlive, hh, hs⟩

theorem insert_absent {id session bytes j : Nat} {handle : Str} (hj : j ≠ id)
    (hnone : s.registry.byId[j]? = none) :
    (s.insert cells id handle session bytes).registry.byId[j]? = none := by
  apply (narrows_insert id handle session bytes).absent
  cases hfind : (s.registry.insert id ⟨handle, session, none, s.tick, bytes⟩).byId[j]? with
  | none => rfl
  | some live =>
    rcases Registry.find_insert hfind with ⟨rfl, -⟩ | hlive
    · exact absurd rfl hj
    · rw [hnone] at hlive
      cases hlive

theorem agrees_reprice (h : s.registry.Agrees) (id : Nat) : (s.reprice cells id).registry.Agrees := by
  have hmeasure : (s.measure cells id).registry.Agrees := h.modify id fun live =>
      live.measure_handle cells
  unfold reprice
  split
  · exact h
  · split
    · exact hmeasure
    · split
      · exact hmeasure
      · exact agrees_evict hmeasure

/-- Whoever is found by the handle is registered under it; where nobody is found, nobody is. -/
theorem findByHandle_registered (h : s.registry.Agrees) (handle : Str) :
    (∀ id session, (s.findByHandle handle).1 = some (id, session) →
      s.registry.Registered handle session) ∧
      ((s.findByHandle handle).1 = none → ∀ session, ¬ s.registry.Registered handle session) := by
  unfold findByHandle
  cases hn : s.registry.byHandle[handle]? with
  | none =>
    refine ⟨fun _ _ he => (by cases he), fun _ session hr => ?_⟩
    obtain ⟨id, live, hlive, hh, -⟩ := hr
    rw [(h id handle).mp ⟨live, hlive, hh⟩] at hn
    cases hn
  | some id =>
    obtain ⟨live, hlive, hh⟩ := (h id handle).mpr hn
    dsimp only
    rw [hlive]
    refine ⟨fun i session he => ?_, fun he => (by cases he)⟩
    cases he
    exact ⟨id, live, hlive, hh, rfl⟩

/-! ## Every order of operations -/

inductive Op
  | insert (id : Nat) (handle : Str) (session bytes : Nat)
  | get (id : Nat)
  | findByHandle (handle : Str)
  | measure (id : Nat)
  | evict
  | close (id : Nat)
  | beginCancel (id token : Nat)
  | endCancel (id : Nat)
  | cancel (id : Nat)

def Op.perform (cells : Cells) (s : Sessions) : Op → Sessions
  | .insert id handle session bytes => s.insert cells id handle session bytes
  | .get id => (s.get id).2
  | .findByHandle handle => (s.findByHandle handle).2
  | .measure id => s.measure cells id
  | .evict => s.evict cells
  | .close id => (s.close id).2
  | .beginCancel id token => (s.beginCancel id token).2
  | .endCancel id => s.endCancel id
  | .cancel _ => s

def Op.Fresh (s : Sessions) : Op → Prop
  | .insert id _ _ _ => s.registry.byId[id]? = none
  | _ => True

instance (s : Sessions) : (op : Op) → Decidable (op.Fresh s)
  | .insert id _ _ _ => inferInstanceAs (Decidable (s.registry.byId[id]? = none))
  | .get _ | .findByHandle _ | .measure _ | .evict | .close _ | .beginCancel _ _ | .endCancel
      _ | .cancel _ => instDecidableTrue

def Stepped (s : Sessions) (act : Cells × Op) (t : Sessions) : Prop := act.2.Fresh s ∧
    t = act.2.perform act.1 s

theorem agrees_perform (h : s.registry.Agrees) {op : Op} (hop : op.Fresh s) :
    (op.perform cells s).registry.Agrees := by
  cases op with
  | insert id handle session bytes =>
    apply agrees_evict
    exact h.insert hop
  | get id => exact agrees_get h id
  | findByHandle handle => exact agrees_findByHandle h handle
  | measure id => exact h.modify id fun live => live.measure_handle cells
  | evict => exact agrees_evict h
  | close id => exact h.remove id
  | beginCancel id token => exact agrees_beginCancel h id token
  | endCancel id => exact h.modify id fun _ => rfl
  | cancel id => exact h

theorem narrows_perform {op : Op}
    (hop : ∀ id handle session bytes, op ≠ .insert id handle session bytes) :
    s.registry.Narrows (op.perform cells s).registry := by
  cases op with
  | insert id handle session bytes => exact absurd rfl (hop id handle session bytes)
  | get id => exact narrows_get id
  | findByHandle handle => exact narrows_findByHandle handle
  | measure id => exact narrows_measure id
  | evict => exact narrows_evict
  | close id => exact .remove id
  | beginCancel id token => exact narrows_beginCancel id token
  | endCancel id => exact .modify id fun _ => ⟨rfl, rfl⟩
  | cancel id => exact .refl

theorem reachable_perform {maxBytes : Option Nat} (h : Reachable (· = new maxBytes) Stepped s)
    {op : Op} (hop : op.Fresh s) :
    Reachable (· = new maxBytes) Stepped (op.perform cells s) :=
  h.next (a := (cells, op)) ⟨hop, rfl⟩

theorem agrees_reachable {maxBytes : Option Nat} (h : Reachable (· = new maxBytes) Stepped s) :
    s.registry.Agrees := by
  refine h.invariant (I := fun s => s.registry.Agrees) (fun s hs => ?_) fun s act t hi hs => ?_
  · rw [hs]
    exact Mirror.empty
  · obtain ⟨hop, rfl⟩ := hs
    exact agrees_perform hi hop

/-- Both indexes lead to the same sessions, in whatever order sessions come and go. -/
theorem lookups_agree {maxBytes : Option Nat} (h : Reachable (· = new maxBytes) Stepped s)
    (id : Nat) (handle : Str) :
    ((∃ live, s.registry.byId[id]? = some live ∧ live.handle = handle) ↔
      s.registry.byHandle[handle]? = some id) ∧
      ∀ session, (s.findByHandle handle).1 = some (id, session) ↔
        (s.get id).1 = some session ∧ s.registry.byId[id]?.map (·.handle) = some handle := by
  have hi := agrees_reachable h
  refine ⟨hi id handle, fun session => ?_⟩
  unfold findByHandle get
  cases hn : s.registry.byHandle[handle]? with
  | none =>
    have hnone : s.registry.byId[id]?.map (·.handle) ≠ some handle := by
      intro hsome
      rw [Option.map_eq_some_iff] at hsome
      rw [(hi id handle).mp hsome] at hn
      cases hn
    simp [hnone]
  | some i =>
    obtain ⟨live, hlive, hhandle⟩ := (hi i handle).mpr hn
    by_cases hid : i = id
    · subst hid
      simp [hlive, hhandle]
    · have hother : s.registry.byId[id]?.map (·.handle) ≠ some handle := by
        intro hsome
        rw [Option.map_eq_some_iff] at hsome
        rw [(hi id handle).mp hsome, Option.some.injEq] at hn
        exact hid hn.symm
      simp [hlive, hid, hother]

/-- A second session under the same handle, the bound passed, and the first closed late. -/
theorem lookups_agree_instance :
    let cells : Cells := ⟨fun session => session, fun _ => none⟩
    let s₁ := Op.perform cells (new (some 10)) (.insert 1 ['a'] 1 5)
    let s₂ := Op.perform cells s₁ (.beginCancel 1 0)
    let s₃ := Op.perform cells s₂ (.insert 2 ['a'] 2 7)
    let s₄ := Op.perform cells s₃ (.insert 3 ['b'] 1 9)
    let s₅ := Op.perform cells s₄ (.close 1)
    (s₅.findByHandle ['a']).1 = some (2, 2) ∧ (s₅.get 2).1 = some 2 ∧
      s₅.registry.byId[2]?.map (·.handle) = some ['a'] := by
  intro cells s₁ s₂ s₃ s₄ s₅
  have h₀ : Reachable (· = new (some 10)) Stepped (new (some 10)) := .first rfl
  have h₂ : Reachable (· = new (some 10)) Stepped s₂ :=
    reachable_perform (reachable_perform h₀ (by decide +kernel)) trivial
  have h₄ : Reachable (· = new (some 10)) Stepped s₄ :=
    reachable_perform (reachable_perform h₂ (by decide +kernel)) (by decide +kernel)
  have h₅ : Reachable (· = new (some 10)) Stepped s₅ := reachable_perform h₄ trivial
  have hfound : (s₅.findByHandle ['a']).1 = some (2, 2) := by decide +kernel
  exact ⟨hfound, ((lookups_agree h₅ 2 ['a']).2 2).mp hfound⟩

end Sessions

end Crabtalk.Runtime

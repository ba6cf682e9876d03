import Crabtalk.Basis.Reachable
import Crabtalk.Basis.WriteBehind
import Crabtalk.Store.Kv

/-! # The event bus and its store

Subscriptions are answered from memory. Each change is written to the store by
a task of its own, and the tasks run in any order.
-/

open Basis Std

namespace Crabtalk.System

open Store

/-! ## Stored subscriptions -/

structure EventSubscription where
  id : Nat
  source : Str
  targetAgent : AgentId
  once : Bool
  sessionHandle : Str
  deriving DecidableEq

def subscriptionKey (id : Nat) : Str := key ["subscription".toList, Nat.toDigits 10 id]

abbrev EventStore := ColMap Column Char EventSubscription

namespace EventStore

def subscriptions (stored : EventStore) : List EventSubscription :=
  (ColMap.under stored .event (keysUnder ["subscription".toList])).map (·.2)

def putSubscription (stored : EventStore) (sub : EventSubscription) : EventStore :=
  stored.insert (.event, subscriptionKey sub.id) sub

def removeSubscription (stored : EventStore) (id : Nat) : EventStore :=
  stored.erase (.event, subscriptionKey id)

end EventStore

/-! ## The bus -/

structure MirrorTask where
  sub : Option EventSubscription
  id : Nat
  deriving DecidableEq

def MirrorTask.execute (stored : EventStore) (t : MirrorTask) : EventStore :=
  match t.sub with
  | some sub => stored.putSubscription sub
  | none => stored.removeSubscription t.id

/-- The bus, with the tasks in the order they were spawned and what was fired. Ids are 64 bits. -/
structure EventBus where
  subscriptions : ExtTreeMap Nat EventSubscription
  nextId : Nat
  storage : EventStore
  tasks : List MirrorTask
  fired : List (EventSubscription × Str)

namespace EventBus

def load (storage : EventStore) (tasks : List MirrorTask) (fired : List (EventSubscription × Str)) :
    EventBus :=
  let subscriptions := storage.subscriptions.foldl (fun m sub => m.insert sub.id sub)
      (∅ : ExtTreeMap Nat EventSubscription)
  ⟨subscriptions, (subscriptions.keys.max?.getD 0 + 1) % 2 ^ 64, storage, tasks, fired⟩

def mirror (b : EventBus) (sub : Option EventSubscription) (id : Nat) : EventBus :=
  { b with tasks := b.tasks ++ [⟨sub, id⟩] }

def subscribe (b : EventBus) (sub : EventSubscription) : EventSubscription × EventBus :=
  let sub := { sub with id := b.nextId }
  (sub, mirror
    { b with nextId := (b.nextId + 1) % 2 ^ 64, subscriptions := b.subscriptions.insert sub.id sub }
    (some sub) sub.id)

def unsubscribe (b : EventBus) (id : Nat) : Bool × EventBus :=
  match b.subscriptions[id]? with
  | none => (false, b)
  | some _ => (true, mirror { b with subscriptions := b.subscriptions.erase id } none id)

def publish (b : EventBus) (walk : List (Nat × EventSubscription)) (source payload : Str) : EventBus :=
  let matching := walk.filter fun e => e.2.source = source
  let toRemove := (matching.filter (·.2.once)).map (·.1)
  toRemove.foldl (fun b id => mirror { b with subscriptions := b.subscriptions.erase id } none id)
    { b with fired := b.fired ++ matching.map fun e => (e.2, payload) }

def new : EventBus := load ∅ [] []

inductive Act
  | subscribe (sub : EventSubscription)
  | unsubscribe (id : Nat)
  | publish (walk : List (Nat × EventSubscription)) (source payload : Str)
  | restart
  | run (i : Nat)

def perform (b : EventBus) : Act → Option EventBus
  | .subscribe sub => some (b.subscribe sub).2
  | .unsubscribe id => some (b.unsubscribe id).2
  | .publish walk source payload =>
    if walk.Perm b.subscriptions.toList then some (b.publish walk source payload) else none
  | .restart => some (load b.storage b.tasks b.fired)
  | .run i =>
    b.tasks[i]?.map fun t => { b with storage := t.execute b.storage, tasks := b.tasks.eraseIdx i }

/-- The tasks of one subscription run as they were spawned, a restart finds no task that would still
change the store, and the ids do not come round. -/
def Ordered (b : EventBus) : Act → Prop
  | .subscribe _ => b.nextId + 1 < 2 ^ 64
  | .restart => b.tasks.foldl MirrorTask.execute b.storage = b.storage
  | .run i => ∀ t, b.tasks[i]? = some t → ∀ u ∈ b.tasks.take i, u.id ≠ t.id
  | _ => True

/-! ## Memory and store -/

variable {b b' : EventBus} {a : Act} {id : Nat} {sub : EventSubscription} {t : MirrorTask}

theorem subscriptionKey_inj {i j : Nat} (h : subscriptionKey i = subscriptionKey j) : i = j := by
  unfold subscriptionKey key at h
  simp only [List.flatMap_cons, List.flatMap_nil, List.append_nil, List.append_cancel_left_eq,
    List.cons.injEq, true_and] at h
  have hi := congrArg (fun d => Nat.ofDigitChars 10 d 0) h
  simpa using hi

theorem subscriptionKey_under (id : Nat) :
    keysUnder ["subscription".toList] <+: subscriptionKey id :=
  ⟨Nat.toDigits 10 id, by simp [subscriptionKey, keysUnder, key]⟩

def cells (stored : EventStore) (id : Nat) : Option EventSubscription :=
  stored[((.event, subscriptionKey id) : Column × Str)]?

theorem cells_put (stored : EventStore) (sub : EventSubscription) :
    cells (stored.putSubscription sub) = Function.update (cells stored) sub.id (some sub) := by
  funext id
  unfold cells EventStore.putSubscription
  rw [find_insert]
  by_cases hid : id = sub.id
  · subst hid
    simp
  · rw [Function.update_of_ne hid, if_neg]
    intro hk
    exact hid (subscriptionKey_inj (Prod.ext_iff.mp hk).2).symm

theorem cells_remove (stored : EventStore) (i : Nat) :
    cells (stored.removeSubscription i) = Function.update (cells stored) i none := by
  funext id
  unfold cells EventStore.removeSubscription
  rw [find_erase]
  by_cases hid : id = i
  · subst hid
    simp
  · rw [Function.update_of_ne hid, if_neg]
    intro hk
    exact hid (subscriptionKey_inj (Prod.ext_iff.mp hk).2).symm

def Filed (stored : EventStore) : Prop :=
  ∀ (k : Column × Str) (sub : EventSubscription), stored[k]? = some sub →
    k = (.event, subscriptionKey sub.id)

theorem mem_subscriptions {stored : EventStore} (h : Filed stored) : sub ∈ stored.subscriptions ↔
    cells stored sub.id = some sub := by
  unfold EventStore.subscriptions cells
  rw [List.mem_map]
  constructor
  · intro ⟨⟨k, v⟩, hm, hv⟩
    subst hv
    obtain ⟨hk, -⟩ := ColMap.mem_under.mp hm
    rw [← h _ _ hk]
    exact hk
  · intro hs
    exact ⟨(_, sub), ColMap.mem_under.mpr ⟨hs, rfl, subscriptionKey_under sub.id⟩, rfl⟩

theorem Filed.id_of_cell {stored : EventStore} (h : Filed stored)
    (hc : cells stored id = some sub) : sub.id = id :=
  (subscriptionKey_inj (Prod.ext_iff.mp (h _ _ hc)).2).symm

theorem nodup_subscriptions {stored : EventStore} (h : Filed stored) :
    (stored.subscriptions.map (·.id)).Nodup := by
  unfold EventStore.subscriptions
  rw [List.map_map, List.Nodup, List.pairwise_map]
  refine (ColMap.sorted_under stored .event _).imp_of_mem fun {x y} hx hy hlt heq => ?_
  have hkx := h _ _ (ColMap.mem_under.mp hx).1
  have hky := h _ _ (ColMap.mem_under.mp hy).1
  have hkey : x.1 = y.1 := by
    rw [hkx, hky]
    exact congrArg (fun i => (Column.event, subscriptionKey i)) heq
  rw [hkey] at hlt
  exact lt_irrefl_cmp _ hlt

structure Mirrored (b : EventBus) : Prop where
  filed : Filed b.storage
  ids : ∀ (id : Nat) sub, b.subscriptions[id]? = some sub → sub.id = id ∧ id < b.nextId
  made : ∀ t ∈ b.tasks, ∀ sub, t.sub = some sub → sub.id = t.id
  behind : Behind MirrorTask.id MirrorTask.sub (cells b.storage)
    (fun id => b.subscriptions[id]?) b.tasks
  bound : b.nextId < 2 ^ 64

theorem find_erase_update (m : ExtTreeMap Nat EventSubscription) (i : Nat) :
    (fun id => (m.erase i)[id]?) = Function.update (fun id => m[id]?) i none := by
  funext id
  rw [find_erase]
  by_cases hid : id = i
  · subst hid
    simp
  · rw [Function.update_of_ne hid, if_neg (Ne.symm hid)]

theorem find_insert_update (m : ExtTreeMap Nat EventSubscription) (i : Nat)
    (sub : EventSubscription) :
    (fun id => (m.insert i sub)[id]?) = Function.update (fun id => m[id]?) i (some sub) := by
  funext id
  rw [find_insert]
  by_cases hid : id = i
  · subst hid
    simp
  · rw [Function.update_of_ne hid, if_neg (Ne.symm hid)]

theorem Mirrored.made_snoc (h : Mirrored b) {ts : List MirrorTask} (hts : ts = b.tasks ++ [t])
    (ht : ∀ sub, t.sub = some sub → sub.id = t.id) :
    ∀ t ∈ ts, ∀ sub, t.sub = some sub → sub.id = t.id := by
  subst hts
  intro u hu
  rcases List.mem_append.mp hu with hu | hu
  · exact h.made u hu
  · rw [List.mem_singleton.mp hu]
    exact ht

theorem Mirrored.subscribe (h : Mirrored b) (hnext : b.nextId + 1 < 2 ^ 64) :
    Mirrored (b.subscribe sub).2 := by
  have hfresh : b.subscriptions[b.nextId]? = none := by
    cases hf : b.subscriptions[b.nextId]? with
    | none => rfl
    | some sub => exact absurd (h.ids _ _ hf).2 (Nat.lt_irrefl _)
  have hmod : (b.nextId + 1) % 2 ^ 64 = b.nextId + 1 := Nat.mod_eq_of_lt hnext
  refine ⟨h.filed, ?_, h.made_snoc rfl fun _ hs => (by cases hs; rfl), ?_, Nat.mod_lt _ (by decide)⟩
  · intro id s hs
    show s.id = id ∧ id < (b.nextId + 1) % 2 ^ 64
    have hs : (b.subscriptions.insert b.nextId { sub with id := b.nextId })[id]? = some s := hs
    rw [find_insert] at hs
    rw [hmod]
    split at hs
    · rename_i hid
      cases hs
      exact ⟨hid, by omega⟩
    · obtain ⟨hid, hlt⟩ := h.ids id s hs
      exact ⟨hid, by omega⟩
  · show Behind _ _ (cells b.storage)
        (fun id => (b.subscriptions.insert b.nextId { sub with id := b.nextId })[id]?) _
    rw [find_insert_update]
    exact h.behind.issue (t := ⟨some { sub with id := b.nextId }, b.nextId⟩) (by simp [hfresh])

theorem Mirrored.remove (h : Mirrored b) (hs : b.subscriptions[id]? = some sub) :
    Mirrored (mirror { b with subscriptions := b.subscriptions.erase id } none id) := by
  refine ⟨h.filed, ?_, h.made_snoc rfl fun _ hs => (by cases hs), ?_, h.bound⟩
  · intro i s hi
    have hi : (b.subscriptions.erase id)[i]? = some s := hi
    rw [find_erase] at hi
    split at hi
    · cases hi
    · exact h.ids i s hi
  · show Behind _ _ (cells b.storage) (fun i => (b.subscriptions.erase id)[i]?) _
    rw [find_erase_update]
    exact h.behind.issue (t := ⟨none, id⟩) (by simp [hs])

theorem Mirrored.unsubscribe (h : Mirrored b) : Mirrored (b.unsubscribe id).2 := by
  unfold EventBus.unsubscribe
  split
  · exact h
  · rename_i sub hs
    exact h.remove hs

theorem Mirrored.removeAll {ids : List Nat} (h : Mirrored b) (hnodup : ids.Nodup)
    (hids : ∀ id ∈ ids, ∃ sub, b.subscriptions[id]? = some sub) :
    Mirrored (ids.foldl (fun b id => mirror { b with subscriptions := b.subscriptions.erase id }
      none id) b) := by
  induction ids generalizing b with
  | nil => exact h
  | cons id ids ih =>
    rw [List.nodup_cons] at hnodup
    obtain ⟨sub, hs⟩ := hids id List.mem_cons_self
    apply ih (h.remove hs) hnodup.2
    intro i hi
    obtain ⟨s, hs⟩ := hids i (List.mem_cons_of_mem _ hi)
    refine ⟨s, ?_⟩
    show (b.subscriptions.erase id)[i]? = some s
    rw [find_erase, if_neg, hs]
    intro he
    exact hnodup.1 (he ▸ hi)

theorem Mirrored.publish (h : Mirrored b) {walk : List (Nat × EventSubscription)}
    (hw : walk.Perm b.subscriptions.toList) (source payload : Str) :
    Mirrored (b.publish walk source payload) := by
  have hfired (fired) : Mirrored { b with fired := fired } :=
    ⟨h.filed, h.ids, h.made, h.behind, h.bound⟩
  unfold EventBus.publish
  apply (hfired _).removeAll
  · have hkeys : (walk.map (·.1)).Nodup := by
      rw [(hw.map _).nodup_iff, List.Nodup, List.pairwise_map]
      refine ExtTreeMap.ordered_keys_toList.imp fun {x y} hlt heq => ?_
      rw [heq] at hlt
      exact lt_irrefl_cmp _ hlt
    exact hkeys.sublist ((List.filter_sublist.trans List.filter_sublist).map _)
  · intro id hid
    obtain ⟨e, he, rfl⟩ := List.mem_map.mp hid
    have hmem := hw.mem_iff.mp (List.mem_of_mem_filter (List.mem_of_mem_filter he))
    exact ⟨e.2, ExtTreeMap.mem_toList_iff_getElem?_eq_some.mp hmem⟩

theorem filed_execute {stored : EventStore} (h : Filed stored) (t : MirrorTask) :
    Filed (t.execute stored) := by
  intro k s hk
  unfold MirrorTask.execute at hk
  split at hk
  · unfold EventStore.putSubscription at hk
    rw [find_insert] at hk
    split at hk
    · rename_i heq
      cases hk
      exact heq.symm
    · exact h k s hk
  · unfold EventStore.removeSubscription at hk
    rw [find_erase] at hk
    split at hk
    · cases hk
    · exact h k s hk

theorem cells_execute {stored : EventStore} (ht : ∀ sub, t.sub = some sub → sub.id = t.id) :
    cells (t.execute stored) = Function.update (cells stored) t.id t.sub := by
  unfold MirrorTask.execute
  cases hs : t.sub with
  | none => exact cells_remove _ _
  | some sub =>
    rw [← ht sub hs]
    exact cells_put _ _

theorem Mirrored.run (h : Mirrored b) {i : Nat} (ht : b.tasks[i]? = some t)
    (ho : ∀ u ∈ b.tasks.take i, u.id ≠ t.id) :
    Mirrored { b with storage := t.execute b.storage, tasks := b.tasks.eraseIdx i } := by
  refine ⟨filed_execute h.filed t, h.ids, fun u hu => h.made u (List.mem_of_mem_eraseIdx hu), ?_, h.bound⟩
  dsimp only
  rw [cells_execute (h.made t (List.mem_of_getElem? ht))]
  exact h.behind.perform ht ho

theorem cells_replay {ts : List MirrorTask} {stored : EventStore}
    (h : ∀ t ∈ ts, ∀ sub, t.sub = some sub → sub.id = t.id) :
    cells (ts.foldl MirrorTask.execute stored) = ts.foldl (fun s t => Function.update s t.id t.sub)
    (cells stored) := by
  induction ts generalizing stored with
  | nil => rfl
  | cons t ts ih =>
    rw [List.foldl_cons, List.foldl_cons, ih fun u hu => h u (List.mem_cons_of_mem _ hu),
      cells_execute (h t List.mem_cons_self)]

theorem load_subscriptions {stored : EventStore} {ts : List MirrorTask}
    {fired : List (EventSubscription × Str)} (h : Filed stored) (id : Nat) :
    (load stored ts fired).subscriptions[id]? = cells stored id := by
  show (stored.subscriptions.foldl (fun m sub => m.insert sub.id sub)
      (∅ : ExtTreeMap Nat EventSubscription))[id]? = _
  cases hc : cells stored id with
  | none =>
    rw [find_foldl_insert_of_notMem]
    · exact ExtTreeMap.getElem?_empty
    · intro sub hsub hid
      rw [mem_subscriptions h, hid, hc] at hsub
      cases hsub
  | some sub =>
    have hid := h.id_of_cell hc
    apply find_foldl_insert_of_mem
    · exact ⟨sub, (mem_subscriptions h).mpr (hid ▸ hc), hid⟩
    · intro s hs hsid
      rw [mem_subscriptions h, hsid, hc] at hs
      exact (Option.some.inj hs).symm

/-- A bus loaded from what memory holds goes on as the old one would. -/
theorem Mirrored.restart (h : Mirrored b)
    (ho : b.tasks.foldl MirrorTask.execute b.storage = b.storage) :
    Mirrored (load b.storage b.tasks b.fired) := by
  have hreplay : cells b.storage = fun id => b.subscriptions[id]? := by
    rw [← h.behind.replay, ← cells_replay h.made, ho]
  have hsame : ∀ id : Nat, (load b.storage b.tasks b.fired).subscriptions[id]? =
      b.subscriptions[id]? :=
    fun id => (load_subscriptions h.filed id).trans (congrFun hreplay id)
  have hmap : (load b.storage b.tasks b.fired).subscriptions = b.subscriptions := map_ext hsame
  have hnext : (load b.storage b.tasks b.fired).nextId =
      (b.subscriptions.keys.max?.getD 0 + 1) % 2 ^ 64 := by
    rw [← hmap]
    rfl
  have hkey : ∀ {i : Nat}, i ∈ b.subscriptions.keys ↔ ∃ sub, b.subscriptions[i]? = some sub := by
    intro i
    rw [ExtTreeMap.mem_keys, ← ExtTreeMap.isSome_getElem?_iff_mem, Option.isSome_iff_exists]
  have hmax : b.subscriptions.keys.max?.getD 0 + 1 < 2 ^ 64 := by
    have hbound := h.bound
    cases hm : b.subscriptions.keys.max? with
    | none => decide
    | some m =>
      obtain ⟨sub, hs⟩ := hkey.mp (List.max?_eq_some_iff.mp hm).1
      have hlt := (h.ids m sub hs).2
      simp only [Option.getD_some]
      omega
  refine ⟨h.filed, ?_, h.made, ?_, Nat.mod_lt _ (by decide)⟩
  · intro id s hs
    rw [hsame] at hs
    refine ⟨(h.ids id s hs).1, ?_⟩
    rw [hnext, Nat.mod_eq_of_lt hmax]
    have hmem := hkey.mpr ⟨s, hs⟩
    cases hm : b.subscriptions.keys.max? with
    | none =>
      rw [List.max?_eq_none_iff.mp hm] at hmem
      cases hmem
    | some m =>
      have hle := (List.max?_eq_some_iff.mp hm).2 id hmem
      simp only [Option.getD_some]
      omega
  · rw [hmap]
    exact h.behind

theorem Mirrored.perform (h : Mirrored b) (hp : b.perform a = some b') (ho : b.Ordered a) :
    Mirrored b' := by
  cases a with
  | subscribe sub =>
    cases hp
    exact h.subscribe ho
  | unsubscribe id =>
    cases hp
    exact h.unsubscribe
  | publish walk source payload =>
    dsimp only [EventBus.perform] at hp
    split at hp
    · rename_i hw
      cases hp
      exact h.publish hw source payload
    · cases hp
  | restart =>
    cases hp
    exact h.restart ho
  | run i =>
    obtain ⟨t, ht, rfl⟩ := Option.map_eq_some_iff.mp hp
    exact h.run ht (ho t ht)

theorem mirrored_new : Mirrored new := by
  have hfiled : Filed (∅ : EventStore) := by
    intro k s hk
    rw [ExtTreeMap.getElem?_empty] at hk
    cases hk
  have hcells : cells ∅ = fun _ => none := funext fun _ => ExtTreeMap.getElem?_empty
  have hmemory : ∀ id : Nat, new.subscriptions[id]? = none :=
    fun id => (load_subscriptions hfiled id).trans (congrFun hcells id)
  refine ⟨hfiled, fun id s hs => ?_, fun t ht => (by cases ht), fun id => ?_,
    Nat.mod_lt _ (by decide)⟩
  · rw [hmemory] at hs
    cases hs
  · show Alternates (cells ∅ id) [] new.subscriptions[id]?
    rw [hmemory, hcells]
    rfl

/-- The store catches up with memory, the ids in it are unique, and no subscription is written over
another. -/
theorem mirrored (hr : Reachable (· = new) (fun b a b' => b.perform a = some b' ∧ b.Ordered a) b) :
    (b.tasks = [] → ∀ (id : Nat) sub, b.subscriptions[id]? = some sub ↔
      sub ∈ b.storage.subscriptions ∧ sub.id = id) ∧
      (b.storage.subscriptions.map (·.id)).Nodup ∧
      ∀ i sub id, b.tasks[i]? = some ⟨some sub, id⟩ → b.Ordered (.run i) →
      ∀ s ∈ b.storage.subscriptions, s.id ≠ sub.id := by
  have h : Mirrored b := by
    refine hr.invariant (fun b hb => ?_) fun b a b' h hs => h.perform hs.1 hs.2
    rw [hb]
    exact mirrored_new
  refine ⟨fun hdone id sub => ?_, nodup_subscriptions h.filed, fun i sub id ht ho s hs heq => ?_⟩
  · have hbehind := h.behind
    rw [hdone] at hbehind
    have hcell : cells b.storage id = b.subscriptions[id]? := congrFun hbehind.settled id
    rw [← hcell, mem_subscriptions h.filed]
    constructor
    · intro hc
      have hid := h.filed.id_of_cell hc
      exact ⟨hid.symm ▸ hc, hid⟩
    · intro ⟨hc, hid⟩
      exact hid ▸ hc
  · have hempty := h.behind.oldest ht (ho _ ht)
    have hid : sub.id = id := h.made _ (List.mem_of_getElem? ht) sub rfl
    have hcell := (mem_subscriptions h.filed).mp hs
    rw [heq, hid] at hcell
    rw [hcell] at hempty
    exact hempty rfl

/-! ## Two orders -/

theorem ordered_oldest (b : EventBus) : b.Ordered (.run 0) := by
  intro t ht u hu
  cases hu

def standing : EventSubscription := ⟨1, "build".toList, ⟨7⟩, false, "h".toList⟩

/-- A subscription is stored and the daemon starts again. -/
theorem mirrored_instance : ∃ b : EventBus, b.tasks = [] ∧ b.subscriptions[1]? = some standing ∧
    standing ∈ b.storage.subscriptions ∧ standing.id = 1 := by
  let subscribed := (new.subscribe standing).2
  let stored : EventBus :=
    { subscribed with storage := EventStore.putSubscription ∅ standing, tasks := [] }
  let restarted := load stored.storage [] []
  have hid : ({ standing with id := new.nextId } : EventSubscription) = standing := by decide +kernel
  have h₀ : Reachable (· = new) (fun b a b' => b.perform a = some b' ∧ b.Ordered a) new := .first rfl
  have h₁ : Reachable (· = new) (fun b a b' => b.perform a = some b' ∧ b.Ordered a) subscribed :=
    h₀.next (a := .subscribe standing) ⟨rfl, (by decide +kernel : new.nextId + 1 < 2 ^ 64)⟩
  have h₂ : Reachable (· = new) (fun b a b' => b.perform a = some b' ∧ b.Ordered a) stored := by
    refine h₁.next (a := .run 0) ⟨?_, ordered_oldest _⟩
    show some
        { subscribed with
          storage := EventStore.putSubscription ∅ { standing with id := new.nextId }, tasks := [] } =
      some stored
    rw [hid]
  have h₃ : Reachable (· = new) (fun b a b' => b.perform a = some b' ∧ b.Ordered a) restarted :=
    h₂.next (a := .restart) ⟨rfl, rfl⟩
  have hs : restarted.subscriptions[1]? = some standing := by decide +kernel
  exact ⟨restarted, rfl, hs, ((mirrored h₃).1 rfl 1 standing).mp hs⟩

/-- The subscription is taken back before it is stored, and it is stored for good. -/
theorem comes_back : ∃ b : EventBus, Reachable (· = new) (fun b a b' => b.perform a = some b') b ∧
    b.tasks = [] ∧
    b.subscriptions[1]? = none ∧ standing ∈ b.storage.subscriptions := by
  let acts : List Act := [.subscribe standing, .unsubscribe 1, .run 1, .run 0]
  have h₀ : Reachable (· = new) (fun b a b' => b.perform a = some b') new := .first rfl
  exact h₀.exists_run (l := acts) (f := perform) (fun _ _ _ hp => hp) (by decide +kernel)

end EventBus

end Crabtalk.System

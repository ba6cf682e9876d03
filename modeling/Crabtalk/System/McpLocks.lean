import Crabtalk.Basis.Locks

/-! # The two locks of the server declarations

What each method of the handler does with the locks of `peers` and `by_owner`,
on every path through its body.
-/

open Basis

namespace Crabtalk.System

inductive McpLock
  | peers
  | byOwner
  deriving DecidableEq

namespace McpLock

def guarded (l : McpLock) (m : Access) : List (LockAct McpLock) := [.acquire l m, .release l]

def nested (outer inner : McpLock) (m : Access) : List (LockAct McpLock) :=
  [.acquire outer m, .acquire inner m, .release inner, .release outer]

end McpLock

open McpLock

/-- How far `connect_peer` comes: the peer is not tracked, or gone or settled by the time the gate
is entered, or it is connected. -/
inductive Connect
  | untracked
  | settled
  | connected

def Connect.sections : Connect → List Access
  | untracked => [.read]
  | settled => [.read, .write]
  | connected => [.read, .write, .write]

/-- A method of the handler and the path through its body. The connects of `ensure_connected` run
side by side: `sections` are theirs in the order they come. -/
inductive McpCall
  | register
  | unregister (owned : Bool)
  | ensureConnected (sections : List Access)
  | reconnect (found : Option (Option Connect))
  | reapIdle
  | markFailed
  | call (failed : Bool)
  | allowed
  | states

namespace McpCall

def body : McpCall → List (LockAct McpLock)
  | register => nested .peers .byOwner .write
  | unregister true => nested .byOwner .peers .write
  | unregister false => guarded .byOwner .write
  | ensureConnected sections => nested .byOwner .peers .read ++ sections.flatMap (guarded .peers)
  | reconnect none => guarded .byOwner .read
  | reconnect (some none) => guarded .byOwner .read ++ guarded .peers .write
  | reconnect (some (some c)) =>
    guarded .byOwner .read ++ guarded .peers .write ++ c.sections.flatMap (guarded .peers)
  | reapIdle => guarded .peers .write
  | markFailed => guarded .peers .write
  | call false => guarded .peers .write
  | call true => guarded .peers .write ++ guarded .peers .write
  | allowed => nested .byOwner .peers .read
  | states => nested .byOwner .peers .read

/-- The calls that lock `by_owner` while they hold `peers`. -/
def PeersFirst : McpCall → Prop
  | register => True
  | _ => False

/-- The calls that lock `peers` while they hold `by_owner`. -/
def ByOwnerFirst : McpCall → Prop
  | unregister true | ensureConnected _ | allowed | states => True
  | _ => False

end McpCall

/-! ## Where a call waits -/

/-- A call waits with no lock, or between its two locks. -/
def Waiting (c : McpCall) (held : List (McpLock × Access)) (l : McpLock) (m : Access) : Prop :=
  held = [] ∨ (c.PeersFirst ∧ held = [(.peers, .write)] ∧ l = .byOwner ∧ m = .write) ∨
    (c.ByOwnerFirst ∧ held = [(.byOwner, m)] ∧ l = .peers)

variable {ι : Type} [DecidableEq ι] {pool : ι → McpCall} {s : ι → Thread McpLock}

theorem along_guarded {c : McpCall} {l : McpLock} {m : Access} (rest : List (LockAct McpLock))
    (h : Thread.Along (Waiting c) [] rest) :
    Thread.Along (Waiting c) [] (guarded l m ++ rest) := by
  refine ⟨.inl rfl, ?_⟩
  show Thread.Along (Waiting c) ([(l, m)].filter fun e => e.1 ≠ l) rest
  rw [List.filter_cons_of_neg (by simp), List.filter_nil]
  exact h

theorem along_sections {c : McpCall} {l : McpLock} :
    ∀ sections : List Access, Thread.Along (Waiting c) [] (sections.flatMap (guarded l))
  | [] => trivial
  | _ :: sections => along_guarded _ (along_sections sections)

theorem along_nested {c : McpCall} {m : Access} (rest : List (LockAct McpLock))
    (hc : c.ByOwnerFirst)
    (h : Thread.Along (Waiting c) [] rest) : Thread.Along (Waiting c) []
    (nested .byOwner .peers m ++ rest) :=
  ⟨.inl rfl, .inr (.inr ⟨hc, rfl, rfl⟩), h⟩

theorem along_body (c : McpCall) : Thread.Along (Waiting c) [] c.body := by
  have hone : ∀ l m, Thread.Along (Waiting c) [] (guarded l m) :=
    fun l m => along_guarded [] trivial
  have hboth : ∀ m, c.ByOwnerFirst → Thread.Along (Waiting c) [] (nested .byOwner .peers m) :=
    fun m hc => along_nested [] hc trivial
  cases c with
  | register => exact ⟨.inl rfl, .inr (.inl ⟨trivial, rfl, rfl, rfl⟩), trivial⟩
  | unregister owned =>
    cases owned with
    | true => exact hboth _ trivial
    | false => exact hone _ _
  | ensureConnected sections => exact along_nested _ trivial (along_sections sections)
  | reconnect found =>
    match found with
    | none => exact hone _ _
    | some none => exact along_guarded _ (hone _ _)
    | some (some c) =>
      dsimp only [McpCall.body]
      rw [List.append_assoc]
      exact along_guarded _ (along_guarded _ (along_sections c.sections))
  | reapIdle | markFailed => exact hone _ _
  | call failed =>
    cases failed with
    | true => exact along_guarded _ (hone _ _)
    | false => exact hone _ _
  | allowed | states => exact hboth _ trivial

/-- The call holds `peers` and waits for `by_owner`. -/
def BetweenPeers (t : Thread McpLock) : Prop := t.Holds .peers .write ∧ t.Wants .byOwner .write

/-- The call holds `by_owner` and waits for `peers`. -/
def BetweenOwners (t : Thread McpLock) : Prop := ∃ m, t.Holds .byOwner m ∧ t.Wants .peers m

theorem deadlocked_of_between {i j : ι} (hi : BetweenPeers (s i)) (hj : BetweenOwners (s j)) :
    Deadlocked s := by
  obtain ⟨m, hheld, hwant⟩ := hj
  refine ⟨{i, j}, ⟨i, Finset.mem_insert_self i {j}⟩, fun k hk => ?_⟩
  rcases Finset.mem_insert.mp hk with rfl | hk
  · exact ⟨j, Finset.mem_insert_of_mem (Finset.mem_singleton_self j), .byOwner, .write, hi.2,
      .inl ⟨m, hheld, m.write_conflicts⟩⟩
  · rw [Finset.mem_singleton.mp hk]
    exact ⟨i, Finset.mem_insert_self i {j}, .peers, m, hwant,
      .inl ⟨.write, hi.1, m.conflicts_write⟩⟩

/-- Calls are deadlocked exactly while one that locks `peers` first and one that locks `by_owner`
first are each between their locks. -/
theorem deadlocked_iff_between (h : Running (fun i => (pool i).body) s) :
    Deadlocked s ↔ (∃ i, (pool i).PeersFirst ∧ BetweenPeers (s i)) ∧ ∃ j, (pool j).ByOwnerFirst ∧
    BetweenOwners (s j) := by
  have hwaiting : ∀ i l m, (s i).Wants l m → Waiting (pool i) (s i).held l m :=
    fun i l m => (h.along (fun i => along_body (pool i)) i).wants
  constructor
  · intro hd
    by_contra hn
    rcases not_and_or.mp hn with hn | hn
    -- whoever waits with a lock has `by_owner` and waits for `peers`
    · refine not_deadlocked (fun | .byOwner => 0 | .peers => 1) (fun i l m hw e he => ?_) hd
      rcases hwaiting i l m hw with hnil | ⟨hc, hheld, rfl, rfl⟩ | ⟨-, hheld, rfl⟩
      · rw [hnil] at he
        cases he
      · exact absurd ⟨i, hc, by rw [Thread.Holds, hheld]; exact List.mem_singleton_self _, hw⟩ hn
      · rw [hheld, List.mem_singleton] at he
        rw [he]
        exact Nat.zero_lt_one
    · refine not_deadlocked (fun | .peers => 0 | .byOwner => 1) (fun i l m hw e he => ?_) hd
      rcases hwaiting i l m hw with hnil | ⟨-, hheld, rfl, rfl⟩ | ⟨hc, hheld, rfl⟩
      · rw [hnil] at he
        cases he
      · rw [hheld, List.mem_singleton] at he
        rw [he]
        exact Nat.zero_lt_one
      · exact absurd ⟨i, hc, m, by rw [Thread.Holds, hheld]; exact List.mem_singleton_self _, hw⟩ hn
  · intro ⟨⟨i, _, hi⟩, j, _, hj⟩
    exact deadlocked_of_between hi hj

/-! ## Which calls may run together -/

theorem McpCall.ByOwnerFirst.body {c : McpCall} (hc : c.ByOwnerFirst) :
    ∃ m rest, c.body = .acquire .byOwner m :: .acquire .peers m :: rest := by
  match c with
  | unregister true | ensureConnected _ | allowed | states => exact ⟨_, _, rfl⟩
  | register | unregister false | reconnect _ | reapIdle | markFailed | call _ => exact hc.elim

theorem reaches_deadlock (pool : ι → McpCall) {i j : ι} (hi : (pool i).PeersFirst)
    (hj : (pool j).ByOwnerFirst) :
    ∃ s, Running (fun i => (pool i).body) s ∧ Deadlocked s := by
  have hregister : pool i = .register := by
    cases hp : pool i with
    | register => rfl
    | _ =>
      rw [hp] at hi
      exact hi.elim
  have hij : j ≠ i := by
    intro heq
    rw [heq, hregister] at hj
    exact hj
  obtain ⟨m, rest, hbody⟩ := hj.body
  -- each takes its first lock, and then waits for the other's
  let s₀ : ι → Thread McpLock := fun i => ⟨[], (pool i).body⟩
  let s₁ := Function.update s₀ i ⟨[(.peers, .write)],
      [.acquire .byOwner .write, .release .byOwner, .release .peers]⟩
  let s₂ := Function.update s₁ j ⟨[(.byOwner, m)], .acquire .peers m :: rest⟩
  have h₀ : Running (fun i => (pool i).body) s₀ := .first rfl
  have hi₀ : s₀ i = ⟨[], .acquire .peers .write :: [.acquire .byOwner .write, .release .byOwner,
      .release .peers]⟩ := by
    show Thread.mk [] (pool i).body = _
    rw [hregister]
    rfl
  have h₁ : Running (fun i => (pool i).body) s₁ :=
    .next h₀ (.acquire hi₀ fun k m' _ hheld => (by cases hheld))
  have hj₁ : s₁ j = ⟨[], .acquire .byOwner m :: .acquire .peers m :: rest⟩ := by
    show Function.update s₀ i _ j = _
    rw [Function.update_of_ne hij]
    show Thread.mk [] (pool j).body = _
    rw [hbody]
  have h₂ : Running (fun i => (pool i).body) s₂ := by
    refine .next h₁ (.acquire hj₁ fun k m' hkj hheld => ?_)
    by_cases hki : k = i
    · rw [hki] at hheld
      simp [s₁, Thread.Holds] at hheld
    · simp [s₁, s₀, Thread.Holds, hki] at hheld
  have hi₂ : s₂ i = ⟨[(.peers, .write)],
      [.acquire .byOwner .write, .release .byOwner, .release .peers]⟩ := by
    show Function.update s₁ j _ i = _
    rw [Function.update_of_ne hij.symm]
    exact Function.update_self _ _ _
  have hj₂ : s₂ j = ⟨[(.byOwner, m)], .acquire .peers m :: rest⟩ := Function.update_self _ _ _
  refine ⟨s₂, h₂, deadlocked_of_between (i := i) (j := j) ?_ ?_⟩
  · rw [hi₂]
    exact ⟨List.mem_singleton_self _, _, rfl⟩
  · rw [hj₂]
    exact ⟨m, List.mem_singleton_self _, _, rfl⟩

/-- No interleaving of the calls deadlocks exactly if no registration is among them, or nobody who
locks `by_owner` first. -/
theorem never_deadlocked_iff (pool : ι → McpCall) :
    (∀ s, Running (fun i => (pool i).body) s → ¬ Deadlocked s) ↔
    ¬ ((∃ i, (pool i).PeersFirst) ∧ ∃ j, (pool j).ByOwnerFirst) := by
  constructor
  · intro h ⟨⟨i, hi⟩, j, hj⟩
    obtain ⟨s, hs, hd⟩ := reaches_deadlock pool hi hj
    exact h s hs hd
  · intro hn s hs hd
    obtain ⟨⟨i, hi, -⟩, j, hj, -⟩ := (deadlocked_iff_between hs).mp hd
    exact hn ⟨⟨i, hi⟩, j, hj⟩

/-- A server is registered while the states are listed. -/
theorem register_deadlocks : ∃ s, Running
    (fun i : Bool => (if i then McpCall.register else McpCall.states).body) s ∧ Deadlocked s :=
  @reaches_deadlock Bool _ (fun i => if i then McpCall.register else McpCall.states) true false
    trivial trivial

end Crabtalk.System

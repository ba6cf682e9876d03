import Crabtalk.Runtime.Batch
import Crabtalk.Store.Views

/-! # Turns that end early

The history of a live session is a cache of what the store holds. A turn writes
to the cache as it goes and to the store when its run is over, so one that ends
before leaves the two apart.
-/

open Basis
open Crabtalk.Store

namespace Crabtalk.Runtime

variable {μ : Type}

def archived (c : SessionSnapshot μ) : Nat := if c.archive.isSome then 1 else 0

/-- Behind the archive prefix, and without framing, the live history is what is stored for the session. -/
def Synced (s : Session μ) (kv : Kv μ) : Prop :=
  ∃ h c front rest, s.handle = some h ∧ sessionView h kv = .ok (some c) ∧
    stripped s.history = front ++ rest ∧
    front.length = archived c ∧ rest.map HistoryEntry.persist = c.history

inductive Asked (μ : Type)
  | own (content sender : Str) (run : OwnRun μ)
  | guest (content sender : Str) (id : AgentId) (run : GuestRun)

namespace Asked

def exec [TextStd] [Wire μ] (preprocess : AgentId → Str → Option Str) (s : Session μ)
    (now later : Str) :
    Asked μ → KvM μ (Session μ × Ended)
  | own content sender run => ownTurn preprocess s content sender run now later
  | guest content sender id run => guestTurn preprocess s content sender id run now later

def Early : Asked μ → Prop
  | own _ _ (.done _ _) => False
  | guest _ _ _ (.done ..) => False
  | _ => True

def Refused : Asked μ → Prop
  | guest _ _ _ .unresolved => True
  | _ => False

def after [Wire μ] (preprocess : AgentId → Str → Option Str) (s : Session μ) : Asked μ → Session μ
  | own content sender run => ownAfter preprocess s content sender run
  | guest content sender _ run => guestAfter preprocess s content sender run

def adds [Wire μ] (preprocess : AgentId → Str → Option Str) (s : Session μ) :
    Asked μ → List (HistoryEntry μ)
  | own content sender .unresolved => [userEntry preprocess s.agent content sender]
  | own content sender (.dropped pushed) | own content sender (.done pushed _) =>
    userEntry preprocess s.agent content sender :: pushed.map .fromMessage
  | guest _ _ _ .unresolved => []
  | guest content sender _ .early | guest content sender _ (.broken _) =>
    [userEntry preprocess s.agent content sender]
  | guest content sender _ (.done _ name text reasoning) =>
    [userEntry preprocess s.agent content sender, guestReply name text reasoning]

end Asked

theorem Synced.length {s : Session μ} {kv : Kv μ} (hs : Synced s kv) : ∃ h c, s.handle = some h ∧
    sessionView h kv = .ok (some c) ∧
    (stripped s.history).length = archived c + c.history.length := by
  obtain ⟨h, c, front, rest, hh, hc, hhist, hfront, hrest⟩ := hs
  exact ⟨h, c, hh, hc, by rw [hhist, List.length_append, hfront, ← hrest, List.length_map]⟩

section
variable [TextStd] [Wire μ] {preprocess : AgentId → Str → Option Str} {s : Session μ}
  {kv kv' : Kv μ} {t : Asked μ}

/-- A turn that ends early has not been at the store. -/
theorem runs_early (ht : t.Early) {now later : Str} {r : Session μ × Ended}
    (hr : Prog.Runs True memory (t.exec preprocess s now later) kv (.ok r) kv') : r.1 =
    t.after preprocess s ∧ kv' = kv := by
  cases t with
  | own content sender run =>
    cases run with
    | unresolved =>
      cases hr
      exact ⟨rfl, rfl⟩
    | dropped pushed =>
      cases hr
      exact ⟨rfl, rfl⟩
    | done pushed trace => exact ht.elim
  | guest content sender id run =>
    cases run with
    | unresolved =>
      cases hr
      exact ⟨rfl, rfl⟩
    | early =>
      cases hr
      exact ⟨rfl, rfl⟩
    | broken primary =>
      cases hr
      exact ⟨rfl, rfl⟩
    | done primary name text reasoning => exact ht.elim

omit [TextStd] in
theorem handle_after : (t.after preprocess s).handle = s.handle := by
  cases t with
  | own content sender run => cases run <;> rfl
  | guest content sender id run => cases run <;> rfl

omit [TextStd] in
theorem stripped_after (t : Asked μ) : stripped (t.after preprocess s).history =
    stripped s.history ++ t.adds preprocess s := by
  have hu : ∀ content sender, (userEntry preprocess s.agent content sender :
      HistoryEntry μ).autoInjected = false :=
    autoInjected_userEntry s.agent
  have hstripped : stripped (stripped s.history) = stripped s.history := by simp [stripped]
  have hprepare : ∀ content sender,
      stripped (prepareHistory preprocess s content sender) = stripped s.history ++
      [userEntry preprocess s.agent content sender] := by
    intro content sender
    by_cases hc : Consulted s
    · rw [prepareHistory_of_consulted hc, stripped_append, hstripped]
      simp [stripped, HistoryEntry.inject, hu]
    · rw [prepareHistory_of_not hc, stripped_append, hstripped]
      simp [stripped, hu]
  have hguest : ∀ content sender primary,
      stripped (guestHistory preprocess s content sender primary) = stripped s.history ++
      [userEntry preprocess s.agent content sender] := by
    intro content sender primary
    rw [guestHistory_eq, stripped_append, hstripped]
    simp [stripped, HistoryEntry.inject, hu]
  have hpushed : ∀ pushed : List μ, stripped (pushed.map HistoryEntry.fromMessage) =
      pushed.map HistoryEntry.fromMessage :=
    fun pushed => stripped_eq_self (framings_eq_zero.mp (framings_pushed pushed))
  -- What a turn adds, framing apart, is the user message and what was pushed.
  cases t with
  | own content sender run =>
    cases run with
    | unresolved => exact hprepare content sender
    | dropped pushed | done pushed trace =>
      simp only [Asked.after, ownAfter, Asked.adds]
      rw [stripped_append, hprepare, hpushed, List.append_assoc]
      rfl
  | guest content sender id run =>
    cases run with
    | unresolved => exact (List.append_nil _).symm
    | early =>
      simp only [Asked.after, guestAfter, Asked.adds]
      rw [joinHistory_eq, stripped_append, hstripped]
      simp [stripped, hu]
    | broken primary => exact hguest content sender primary
    | done primary name text reasoning =>
      simp only [Asked.after, guestAfter, Asked.adds]
      rw [stripped_append, hguest, List.append_assoc]
      rfl

omit [TextStd] in
theorem adds_pos (hn : ¬ t.Refused) : 0 < (t.adds preprocess s).length := by
  cases t with
  | own content sender run => cases run <;> exact Nat.succ_pos _
  | guest content sender id run =>
    cases run with
    | unresolved => exact absurd trivial hn
    | _ => exact Nat.succ_pos _

/-- After a turn that ended early the live history is what is stored exactly if the guest it asked
did not resolve. -/
theorem early_synced (hs : Synced s kv) (ht : t.Early) {now later : Str} {r : Session μ × Ended}
    (hr : Prog.Runs True memory (t.exec preprocess s now later) kv (.ok r) kv') : Synced r.1 kv' ↔
    t.Refused := by
  obtain ⟨hafter, hkv⟩ := runs_early ht hr
  rw [hafter, hkv]
  constructor
  · intro h
    by_contra hn
    have hstripped : (stripped (t.after preprocess s).history).length =
        (stripped s.history).length + (t.adds preprocess s).length := by
      rw [stripped_after, List.length_append]
    have hadds : 0 < (t.adds preprocess s).length := adds_pos hn
    obtain ⟨h₁, c₁, hh₁, hc₁, hlen₁⟩ := hs.length
    obtain ⟨h₂, c₂, hh₂, hc₂, hlen₂⟩ := h.length
    rw [handle_after, hh₁] at hh₂
    cases hh₂
    rw [hc₁] at hc₂
    cases hc₂
    omega
  · intro hn
    cases t with
    | own content sender run => exact hn.elim
    | guest content sender id run =>
      cases run with
      | unresolved => exact hs
      | _ => exact hn.elim

end

/-! ## A stream nobody reads -/

section
open Plain

def meets {α : Type} : Except Error (Option α) → (α → Bool) → Bool
  | .ok (some a), p => p a
  | .ok none, _ => false
  | .error _, _ => false

theorem exists_of_meets {α : Type} {answer : Except Error (Option α)} {p : α → Bool}
    (h : meets answer p = true) :
    ∃ a, answer = .ok (some a) ∧ p a = true := by
  cases answer with
  | error e => cases h
  | ok found =>
    cases found with
    | none => cases h
    | some a => exact ⟨a, rfl, h⟩

@[irreducible] def settle {α : Type} (p : KvM Message α) (kv : Kv Message) : Kv Message :=
  match Prog.interp memory p kv with
  | .ok _ kv' => kv'
  | .error _ kv' => kv'

theorem runs_settle {α : Type} (faults : Prop) (p : KvM Message α) (kv : Kv Message) :
    ∃ r, Prog.Runs faults memory p kv r (settle p kv) := by
  have hr := Prog.runs_interp faults memory p kv
  unfold settle
  unfold Basis.wp at hr
  split <;> rename_i he <;> rw [he] at hr <;> exact ⟨_, hr⟩

theorem runs_settle_ok {α : Type} {p : KvM Message α} {kv : Kv Message} {a : α}
    (ha : answer p kv = .ok a) :
    Prog.Runs False memory p kv (.ok a) (settle p kv) := by
  unfold answer at ha
  unfold settle
  split at ha
  · rename_i r kv' hi
    cases ha
    rw [hi]
    exact Prog.runs_of_interp False hi
  · cases ha

def freshStore : Kv Message :=
  match Prog.interp memory (createSession "chat".toList ⟨0⟩ "user".toList none
    "t0+00:00".toList) (∅ : Kv Message) with
  | .ok _ kv => kv
  | .error _ kv => kv

theorem fresh_synced : Synced fresh freshStore := by
  have hview : meets (sessionView "chat".toList freshStore)
      (fun c => decide (c.history = [] ∧ c.archive = none)) = true := by
    decide +kernel
  obtain ⟨c, hc, hmeets⟩ := exists_of_meets hview
  obtain ⟨hhist, harc⟩ := of_decide_eq_true hmeets
  exact ⟨"chat".toList, c, [], [], rfl, hc, rfl, by simp [archived, harc], by simp [hhist]⟩

def talked : Session Message :=
  { fresh with history := [.user "hello".toList, .fromMessage ⟨"assistant".toList, "hi".toList⟩] }

def talkedStore : Kv Message :=
  settle (appendSessionMessages "chat".toList talked.history "t2+00:00".toList) freshStore

theorem talked_view : ∃ c, sessionView "chat".toList talkedStore = .ok (some c) ∧
    c.history = talked.history ∧
    c.archive = none := by
  have hview : meets (sessionView "chat".toList talkedStore)
      (fun c => decide (c.history = talked.history ∧ c.archive = none)) = true := by
    decide +kernel
  obtain ⟨c, hc, hmeets⟩ := exists_of_meets hview
  exact ⟨c, hc, of_decide_eq_true hmeets⟩

theorem talked_synced : Synced talked talkedStore := by
  obtain ⟨c, hc, hhist, harc⟩ := talked_view
  refine ⟨"chat".toList, c, [], talked.history, rfl, hc, rfl, by simp [archived, harc], ?_⟩
  rw [hhist]
  rfl

def refusal : Asked Message := .guest "ask".toList [] ⟨1⟩ .unresolved

theorem early_synced_instance : ∃ r : Session Message × Ended, Synced talked talkedStore ∧
    refusal.Early ∧
    Prog.Runs True memory (refusal.exec noHook talked [] []) talkedStore (.ok r) talkedStore ∧
    (Synced r.1 talkedStore ↔ refusal.Refused) := by
  have hr : Prog.Runs True memory (refusal.exec noHook talked [] []) talkedStore
      (.ok (talked, .refused (.bail ("guest ".toList ++ notRegistered ⟨1⟩)))) talkedStore := .done _ _
  have he : refusal.Early := trivial
  exact ⟨_, talked_synced, he, hr, early_synced talked_synced he hr⟩

/-- The reader of the stream goes away: the question stays in the live history and is nowhere in the store. -/
theorem dropped_not_synced : ∃ r : Session Message × Ended, Synced fresh freshStore ∧
    Prog.Runs True memory ((Asked.own "hello".toList [] (.dropped []) : Asked Message).exec noHook
      fresh [] []) freshStore (.ok r) freshStore ∧
    ¬ Synced r.1 freshStore := by
  have hr : Prog.Runs True memory
      ((Asked.own "hello".toList [] (.dropped []) : Asked Message).exec noHook fresh [] []) freshStore
      (.ok (ownAfter noHook fresh "hello".toList [] (.dropped []), .dropped)) freshStore := .done _ _
  refine ⟨_, fresh_synced, hr, fun h => ?_⟩
  obtain ⟨h₁, c₁, hh₁, hc₁, hlen₁⟩ := fresh_synced.length
  obtain ⟨h₂, c₂, hh₂, hc₂, hlen₂⟩ := h.length
  cases hh₁
  cases hh₂
  rw [hc₁] at hc₂
  cases hc₂
  rw [← hlen₁] at hlen₂
  exact absurd hlen₂ (by decide)

end

end Crabtalk.Runtime

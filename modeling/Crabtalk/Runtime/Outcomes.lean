import Crabtalk.Runtime.Session
import Crabtalk.Store.Plain

/-! # What turns make of a live session

Storage failures are swallowed or reported, never undone: what a turn leaves in
memory does not depend on the store.
-/

open Basis
open Crabtalk.Store

namespace Crabtalk.Runtime

variable {μ : Type}

/-- What is read back from the store is no framing. -/
theorem wp_loadHistory_plain {F : Prop} : ∀ (keys : List Str) (kv : Kv μ),
    Prog.wp F memory (loadHistory keys) (fun l _ => ∀ e ∈ l, e.autoInjected = false)
    (fun _ _ => F) kv
  | [], _ => fun _ he => by cases he
  | key :: keys, kv => by
    rw [loadHistory, Prog.wp_bind, Prog.wp_attempt, wp_getJson]
    have rest := wp_loadHistory_plain (F := F) keys kv
    refine ⟨?_, fun _ _ => rest⟩
    split
    · exact rest
    · split
      · rename_i v _ _ e he
        rw [Prog.wp_bind]
        refine rest.mono (fun l _ hl x hx => ?_) fun _ _ he => he
        rcases List.mem_cons.mp hx with rfl | hx
        · cases v with
          | entry e' => cases he; rfl
          | _ => cases he
        · exact hl x hx
      · exact rest

section
variable [Wire μ] {preprocess : AgentId → Str → Option Str}

def ownAfter (preprocess : AgentId → Str → Option Str) (s : Session μ) (content sender : Str) :
    OwnRun μ → Session μ
  | .unresolved => { s with history := prepareHistory preprocess s content sender }
  | .dropped pushed | .done pushed _ =>
    { s with history := prepareHistory preprocess s content sender ++ pushed.map .fromMessage }

def guestAfter (preprocess : AgentId → Str → Option Str) (s : Session μ) (content sender : Str) :
    GuestRun → Session μ
  | .unresolved => s
  | .early => { s with history := joinHistory preprocess s content sender }
  | .broken primary => { s with history := guestHistory preprocess s content sender primary }
  | .done primary name text reasoning =>
    { s with history := guestHistory preprocess s content sender primary ++ [guestReply name text reasoning] }

section
variable {F : Prop} {kv : Kv μ}

theorem wp_truncate (s : Session μ) (turns : Nat) :
    Prog.wp F memory (truncate s turns)
    (fun r _ => ∃ n, r.1 = { s with history := s.history.take n }) (fun _ _ => False) kv := by
  rw [truncate]
  split
  · exact ⟨s.history.length, by rw [List.take_length]⟩
  · rename_i b _
    split
    · exact ⟨b, rfl⟩
    · simp only
      by_cases ho : (s.history.take b).length < if s.summary.isSome then 1 else 0
      · rw [if_pos ho]
        exact ⟨b, rfl⟩
      · rw [if_neg ho, Prog.wp_bind, Prog.wp_attempt]
        exact .trivial (fun _ _ => ⟨b, rfl⟩) fun _ _ => ⟨b, rfl⟩

theorem wp_load_plain (archives : Str → Option Str) (known : AgentId → Bool) (handle : Str)
    (id : Nat) (now : Str) :
    Prog.wp F memory (load archives known handle id now)
      (fun r _ => ∀ s, r = some s → ∀ e ∈ s.history, e.autoInjected = false) (fun _ _ => True) kv := by
  have hsnap : Prog.wp F memory (loadSession handle)
      (fun r _ => ∀ c : SessionSnapshot μ, r = some c → ∀ e ∈ c.history, e.autoInjected = false)
        (fun _ _ => True) kv := by
    rw [loadSession, Prog.wp_bind]
    refine .trivial (fun m kv₁ => ?_) fun _ _ => trivial
    cases m with
    | none => exact fun _ h => by cases h
    | some m =>
      simp only
      rw [Prog.wp_bind]
      refine .trivial (fun a kv₂ => ?_) fun _ _ => trivial
      rw [Prog.wp_bind]
      refine .trivial (fun keys kv₃ => ?_) fun _ _ => trivial
      rw [Prog.wp_bind]
      refine (wp_loadHistory_plain keys kv₃).mono (fun l _ hl c hc => ?_) fun _ _ _ => trivial
      cases hc
      exact hl
  rw [load, Prog.wp_bind]
  refine hsnap.mono (fun r kv₁ hr => ?_) fun _ _ _ => trivial
  cases r with
  | none => exact fun _ h => by cases h
  | some c =>
    simp only
    split
    · intro s hs e he
      cases hs
      simp only [resumedHistory] at he
      split at he
      · exact hr c rfl e he
      · rcases List.mem_cons.mp he with rfl | he
        · rfl
        · exact hr c rfl e he
    · exact trivial

theorem wp_open_plain (archives : Str → Option Str) (known : AgentId → Bool) (handle : Str)
    (id : Nat) (agent : AgentId)
    (createdBy : Str) (root : Option Str) (now later : Str) :
    Prog.wp F memory (openSession archives known handle id agent createdBy root now later)
      (fun s _ => ∀ e ∈ s.history, e.autoInjected = false) (fun _ _ => True) kv := by
  rw [openSession, Prog.wp_bind]
  refine (wp_load_plain archives known handle id later).mono (fun r kv₁ hr => ?_)
    fun _ _ _ => trivial
  cases r with
  | some s => exact hr s rfl
  | none =>
    simp only
    split
    · rw [Prog.wp_bind]
      exact .trivial (fun _ _ e he => by cases he) fun _ _ => trivial
    · exact trivial

theorem wp_open_absent (archives : Str → Option Str) (known : AgentId → Bool) (handle : Str)
    (id : Nat) (agent : AgentId)
    (createdBy : Str) (root : Option Str) (now later : Str)
    (hm : kv[(Column.session, metaKey handle)]? = none)
    (ha : known agent = true) :
    Prog.wp F memory (openSession archives known handle id agent createdBy root now later)
      (fun s _ => s =
        { (Session.new id agent createdBy later : Session μ) with handle := some handle, root })
      (fun _ _ => F) kv := by
  rw [openSession, Prog.wp_bind, load, Prog.wp_bind, loadSession, Prog.wp_bind, sessionMeta,
    wp_getJson, hm]
  refine ⟨?_, fun hF _ => hF⟩
  show Prog.wp F memory (if known agent = true then _ else _) _ _ kv
  rw [if_pos ha, Prog.wp_bind, createSession, Prog.wp_bind, wp_put, wp_put]
  exact ⟨⟨rfl, fun hF _ => hF⟩, fun hF _ => hF⟩

variable [TextStd]

/-- Whatever the store does, the turn leaves the session `ownAfter` says. -/
theorem wp_ownTurn (s : Session μ) (content sender : Str) (run : OwnRun μ) (now later : Str) :
    Prog.wp F memory (ownTurn preprocess s content sender run now later)
      (fun r _ => r.1 = ownAfter preprocess s content sender run) (fun _ _ => False) kv := by
  cases run with
  | unresolved => exact rfl
  | dropped pushed => exact rfl
  | done pushed trace =>
    rw [ownTurn, Prog.wp_bind, Prog.wp_attempt]
    exact .trivial (fun _ _ => rfl) fun _ _ => rfl

theorem wp_guestTurn (s : Session μ) (content sender : Str) (guest : AgentId) (run : GuestRun)
    (now later : Str) :
    Prog.wp F memory (guestTurn preprocess s content sender guest run now later)
      (fun r _ => r.1 = guestAfter preprocess s content sender run) (fun _ _ => False) kv := by
  cases run with
  | unresolved => exact rfl
  | early => exact rfl
  | broken primary => exact rfl
  | done primary name text reasoning =>
    rw [guestTurn, Prog.wp_bind, Prog.wp_attempt]
    exact .trivial (fun _ _ => rfl) fun _ _ => rfl

theorem wp_compact (s : Session μ) (prompt : Str)
    (summarize : List (HistoryEntry μ) → Str → Option Str) (archive : Option Str) (now : Str) :
    Prog.wp F memory (compact s prompt summarize archive now)
      (fun r _ => r.1 = s ∨ ∃ summary, r.1 =
        { s with history := [.user summary], summary := some summary }) (fun _ _ => False) kv := by
  unfold compact
  by_cases hp : prompt = []
  · rw [if_pos hp]
    exact .inl rfl
  · rw [if_neg hp]
    by_cases hh : s.history.isEmpty
    · rw [if_pos hh]
      exact .inl rfl
    · rw [if_neg hh]
      cases summarize s.history prompt with
      | none => exact .inl rfl
      | some summary =>
        cases s.handle with
        | none => exact .inl rfl
        | some handle =>
          cases archive with
          | none => exact .inl rfl
          | some name =>
            show Prog.wp F memory ((appendSessionCompact handle name).attempt >>= _) _ _ kv
            rw [Prog.wp_bind, Prog.wp_attempt]
            refine .trivial (fun _ kv₁ => ?_) fun _ _ => .inl rfl
            rw [Prog.wp_bind, Prog.wp_attempt]
            exact .trivial (fun _ _ => .inr ⟨summary, rfl⟩) fun _ _ => .inr ⟨summary, rfl⟩

/-- Live sessions, however their store behaves in between: opened, then any turns,
compactions and rewinds, each answered, refused or dropped. -/
inductive Lived (preprocess : AgentId → Str → Option Str) : Session μ → Prop
  | opened {s : Session μ} {kv kv' : Kv μ} (archives : Str → Option Str) (known : AgentId → Bool)
  (handle : Str) (id : Nat)
      (agent : AgentId) (createdBy : Str) (root : Option Str) (now later : Str) :
      Prog.Runs True memory (openSession archives known handle id agent createdBy root now later) kv
      (.ok s) kv' →
      Lived preprocess s
  | own {s : Session μ} {kv kv' : Kv μ} {r : Session μ × Ended} (content sender : Str)
      (run : OwnRun μ) (now later : Str) :
      Lived preprocess s → Prog.Runs True memory (ownTurn preprocess s content sender run now later)
      kv (.ok r) kv' →
      Lived preprocess r.1
  | guest {s : Session μ} {kv kv' : Kv μ} {r : Session μ × Ended} (content sender : Str)
      (guest : AgentId) (run : GuestRun)
      (now later : Str) : Lived preprocess s →
      Prog.Runs True memory (guestTurn preprocess s content sender guest run now later) kv
      (.ok r) kv' → Lived preprocess r.1
  | compacted {s : Session μ} {kv kv' : Kv μ} {r : Session μ × Option Str} (prompt : Str)
      (summarize : List (HistoryEntry μ) → Str → Option Str) (archive : Option Str) (now : Str) :
        Lived preprocess s →
      Prog.Runs True memory (compact s prompt summarize archive now) kv (.ok r) kv' →
        Lived preprocess r.1
  | truncated {s : Session μ} {kv kv' : Kv μ} {r : Session μ × Except Error Nat} (turns : Nat) :
      Lived preprocess s →
      Prog.Runs True memory (truncate s turns) kv (.ok r) kv' → Lived preprocess r.1

end

end

end Crabtalk.Runtime

import Crabtalk.Runtime.Deleted
import Crabtalk.Runtime.Live
import Crabtalk.Store.Opening

/-! # One handle and its live sessions

Requests for one session open it, wait for its lock, run a turn and store it,
while the session is killed or evicted under them and opened anew. The registry
leads to one session at a time; a request keeps the one it was given.
-/

open Basis Std
open Crabtalk.Store

namespace Crabtalk.Runtime

variable {μ : Type}

/-! ## Requests for the session -/

/-- How far a request has come: it opens the session, has it, runs a turn on it under its lock, and
stores the turn. -/
inductive Client (μ : Type)
  | opening (id : Nat) (rest : KvM μ (Session μ))
  | holding (session : Nat)
  | running (session : Nat)
  | appending (session : Nat) (batch : List (HistoryEntry μ)) (append tail : KvM μ Unit)
  | ending (session : Nat) (batch : List (HistoryEntry μ)) (tail : KvM μ Unit)
  | gone

namespace Client

def session : Client μ → Option Nat
  | holding a | running a | appending a _ _ _ | ending a _ _ => some a
  | opening _ _ | gone => none

def reserved : Client μ → Option Nat
  | opening id _ => some id
  | _ => none

def InRun : Client μ → Prop
  | running _ | appending .. | ending .. => True
  | _ => False

def Gone : Client μ → Prop
  | gone => True
  | _ => False

def ReadsMessage (h : Str) : Client μ → Prop
  | opening _ (.call o _) => Store.ReadsMessage h o
  | _ => False

def Refused : Client μ → Prop
  | appending _ _ (.fail _) _ => True
  | _ => False

instance : (c : Client μ) → Decidable c.InRun
  | running _ | appending .. | ending .. => instDecidableTrue
  | opening _ _ | holding _ | gone => instDecidableFalse

instance : (c : Client μ) → Decidable c.Gone
  | gone => instDecidableTrue
  | opening _ _ | holding _ | running _ | appending .. | ending .. => instDecidableFalse

instance (h : Str) : (c : Client μ) → Decidable (c.ReadsMessage h)
  | opening _ (.call o _) => inferInstanceAs (Decidable (Store.ReadsMessage h o))
  | opening _ (.done _) | opening _ (.fail _) | holding _ | running _ | appending .. | ending
      .. | gone => instDecidableFalse

instance : (c : Client μ) → Decidable c.Refused
  | appending _ _ (.fail _) _ => instDecidableTrue
  | appending _ _ (.done _) _ | appending _ _ (.call _ _) _ => instDecidableFalse
  | opening _ _ | holding _ | running _ | ending .. | gone => instDecidableFalse

def work (f : (α : Type) → KvM μ α → Option (KvM μ α × Kv μ)) : Client μ → Option (Client μ × Kv μ)
  | opening id p => (f _ p).map fun r => (opening id r.1, r.2)
  | appending a batch p tail => (f _ p).map fun r => (appending a batch r.1 tail, r.2)
  | ending a batch p => (f _ p).map fun r => (ending a batch r.1, r.2)
  | holding _ | running _ | gone => none

end Client

/-- The live sessions, the requests for the session of one handle, and the turns of it that
completed. The heap has the sessions by address, as far as they are that handle's. -/
structure Service (μ : Type) where
  sessions : Sessions
  nextId : Nat
  heap : List (Option (Session μ))
  kv : Kv μ
  clients : List (Client μ)
  completed : List (List (HistoryEntry μ))

namespace Service

def start (maxBytes : Option Nat) (kv : Kv μ) : Service μ := ⟨.new maxBytes, 1, [], kv, [], []⟩

def Idle (w : Service μ) : Prop := ∃ maxBytes kv, WellTyped kv ∧ w = start maxBytes kv

/-- What requests and others do. `others` says how many references others have to a session, and
which locks they leave free. -/
inductive Act (μ : Type)
  | open (agent : AgentId) (createdBy : Str) (root : Option Str) (now later : Str)
  (archives : Str → Option Str) (known : AgentId → Bool)
      (others : Cells)
  | store (i : Nat) (fault : Option Error)
  | opened (i : Nat) (others : Cells)
  | lock (i : Nat)
  | turn (i : Nat) (t : Asked μ) (now later : Str)
  | appended (i : Nat)
  | answered (i : Nat)
  | drop (i : Nat)
  | kill
  | registry (op : Sessions.Op) (others : Cells)
  | reserve
  | arrive (id : Nat) (handle : Str) (bytes : Nat) (others : Cells)

def at? (w : Service μ) (a : Nat) : Option (Session μ) := w.heap[a]?.join

def Locked (w : Service μ) (a : Nat) : Prop := ∃ c ∈ w.clients, c.InRun ∧ c.session = some a

instance (w : Service μ) (a : Nat) : Decidable (w.Locked a) :=
  inferInstanceAs (Decidable (∃ c ∈ w.clients, c.InRun ∧ c.session = some a))

def put (w : Service μ) (i : Nat) (c : Client μ) : Service μ :=
  { w with clients := w.clients.set i c }

section
variable (entryBytes : HistoryEntry μ → Nat)

def bytes (s : Session μ) : Nat := (s.history.map entryBytes).sum

def cells (w : Service μ) (others : Cells) : Cells where
  strongCount a := 1 + (w.clients.countP fun c => c.session = some a) + others.strongCount a
  tryLock a :=
    match w.at? a with
    | some s => if w.Locked a then none else (others.tryLock a).map fun _ => bytes entryBytes s
    | none => others.tryLock a

variable [TextStd] [Wire μ] (preprocess : AgentId → Str → Option Str)

/-- Where the turn leaves its request. Past the end of the history it panics. -/
def turned (a : Nat) (s : Session μ) (t : Asked μ) (now later : Str) : Client μ :=
  match t.turn with
  | none => .gone
  | some u =>
    match (t.after preprocess s).handle with
    | none => .ending a (t.batch preprocess s) (pure ())
    | some handle =>
      match newEntries (t.after preprocess s).history s.history.length with
      | none => .gone
      | some entries =>
        .appending a (t.batch preprocess s) (appendSessionMessages handle entries now)
          (finalizeTail (t.after preprocess s) handle u.trace later)

/-- One act, for the session of the handle `h`. Sessions of other handles arrive. -/
def perform (h : Str) (w : Service μ) : Act μ → Option (Service μ)
  | .open agent createdBy root now later archives known others =>
    match w.sessions.findByHandle h with
    | (some (id, a), sessions) =>
      let w' : Service μ := { w with sessions, clients := w.clients ++ [.holding a] }
      some { w' with sessions := sessions.reprice (w'.cells entryBytes others) id }
    | (none, sessions) =>
      some { w with
        sessions
        nextId := w.nextId + 1
        clients := w.clients ++ [.opening w.nextId
          (openSession archives known h w.nextId agent createdBy root now later)] }
  | .store i fault =>
    (w.clients[i]?.bind fun c => c.work fun _ p => p.advance memory fault w.kv).map fun r =>
      { w with kv := r.2, clients := w.clients.set i r.1 }
  | .opened i others =>
    match w.clients[i]? with
    | some (.opening _ (.done s)) =>
      s.handle.map fun handle =>
        let w' : Service μ :=
          { w with heap := w.heap ++ [some s], clients := w.clients.set i (.holding w.heap.length) }
        { w' with
          sessions := w.sessions.insert (w'.cells entryBytes others) s.id handle w.heap.length
            (bytes entryBytes s) }
    | some (.opening _ (.fail _)) => some (w.put i .gone)
    | _ => none
  | .lock i =>
    match w.clients[i]? with
    | some (.holding a) => if w.Locked a then none else some (w.put i (.running a))
    | _ => none
  | .turn i t now later =>
    match w.clients[i]? with
    | some (.running a) =>
      (w.at? a).map fun s =>
        { w with
          heap := w.heap.set a (some (t.after preprocess s))
          clients := w.clients.set i (turned preprocess a s t now later) }
    | _ => none
  | .appended i =>
    match w.clients[i]? with
    | some (.appending a batch (.done _) tail) | some (.appending a batch (.fail _) tail) =>
      some (w.put i (.ending a batch tail))
    | _ => none
  | .answered i =>
    match w.clients[i]? with
    | some (.ending _ batch (.done _)) =>
      some { w.put i .gone with completed := batch :: w.completed }
    | _ => none
  | .drop i => some (w.put i .gone)
  | .kill =>
    match w.sessions.findByHandle h with
    | (some (id, _), sessions) => some { w with sessions := (sessions.close id).2 }
    | (none, sessions) => some { w with sessions }
  | .registry (.insert ..) _ => none
  | .registry op others =>
    some { w with sessions := op.perform (w.cells entryBytes others) w.sessions }
  | .reserve => some { w with nextId := w.nextId + 1 }
  | .arrive id handle n others =>
    if handle ≠ h ∧ id < w.nextId ∧ w.sessions.registry.byId[id]? = none ∧
      ∀ c ∈ w.clients, c.reserved ≠ some id then
      let w' : Service μ := { w with heap := w.heap ++ [none] }
      some
        { w' with sessions := w.sessions.insert (w'.cells entryBytes others) id handle w.heap.length n }
    else none

end

/-- Nobody opens the session anew while a request for it is under way; nothing that loading reads of
the messages fails; a turn does not skip its user message, and its append is not refused. -/
def Careful (h : Str) (w : Service μ) : Act μ → Prop
  | .open .. => (w.sessions.findByHandle h).1 = none → ∀ c ∈ w.clients, c.Gone
  | .store i fault => fault ≠ none → ∀ c ∈ w.clients[i]?, ¬ c.ReadsMessage h
  | .turn i t _ _ => ∀ c ∈ w.clients[i]?, ∀ a ∈ c.session, ∀ s ∈ w.at? a, ∀ u ∈ t.turn, ¬ u.Skips s
  | .appended i => ∀ c ∈ w.clients[i]?, ¬ c.Refused
  | _ => True

instance (h : Str) (w : Service μ) : (act : Act μ) → Decidable (w.Careful h act)
  | .open .. =>
    inferInstanceAs (Decidable ((w.sessions.findByHandle h).1 = none → ∀ c ∈ w.clients, c.Gone))
  | .store i fault =>
    inferInstanceAs (Decidable (fault ≠ none → ∀ c ∈ w.clients[i]?, ¬ c.ReadsMessage h))
  | .turn i t _ _ =>
    inferInstanceAs (Decidable (∀ c ∈ w.clients[i]?, ∀ a ∈ c.session, ∀ s ∈ w.at? a, ∀ u ∈ t.turn,
      ¬ u.Skips s))
  | .appended i => inferInstanceAs (Decidable (∀ c ∈ w.clients[i]?, ¬ c.Refused))
  | .opened .. | .lock _ | .answered _ | .drop _ | .kill | .registry .. | .reserve | .arrive .. =>
    instDecidableTrue

/-- An act, or somebody's work at the store for another session. -/
def Stepped [TextStd] [Wire μ] (entryBytes : HistoryEntry μ → Nat)
    (preprocess : AgentId → Str → Option Str) (h : Str)
    (cond : Service μ → Act μ → Prop) (w : Service μ) (act : Option (Act μ)) (w' : Service μ) : Prop :=
  match act with
  | some act => perform entryBytes preprocess h w act = some w' ∧ cond w act
  | none => Elsewhere h w.kv w'.kv ∧ w' = { w with kv := w'.kv }

end Service

/-! ## What a live session remembers -/

/-- The entries of the turn are in the history, as they are stored. -/
def Remembers (s : Session μ) (b : List (HistoryEntry μ)) : Prop :=
  ∀ e ∈ b, e.persist ∈ (stripped s.history).map HistoryEntry.persist

section
variable [Wire μ] {preprocess : AgentId → Str → Option Str} {s : Session μ}
  {b : List (HistoryEntry μ)} {h : Str} {kv : Kv μ}

theorem Remembers.after (hb : Remembers s b) (t : Asked μ) : Remembers (t.after preprocess s) b := by
  intro e he
  rw [stripped_after, List.map_append]
  exact List.mem_append_left _ (hb e he)

theorem remembers_batch (t : Asked μ) : Remembers (t.after preprocess s) (t.batch preprocess s) := by
  have hadds : ∀ e ∈ t.batch preprocess s, e ∈ t.adds preprocess s := by
    intro e he
    unfold Asked.batch at he
    split at he
    · rename_i u hu
      cases t with
      | own content sender run =>
        cases run with
        | done pushed trace =>
          cases hu
          rcases List.mem_cons.mp he with rfl | he
          · exact List.mem_cons_self
          · exact List.mem_cons_of_mem _ (List.mem_of_mem_filter he)
        | _ => cases hu
      | guest content sender id run =>
        cases run with
        | done primary name text reasoning =>
          cases hu
          rcases List.mem_cons.mp he with rfl | he
          · exact List.mem_cons_self
          · exact List.mem_cons_of_mem _ (List.mem_of_mem_filter he)
        | _ => cases hu
    · cases he
  intro e he
  rw [stripped_after, List.map_append]
  exact List.mem_append_right _ (List.mem_map_of_mem (hadds e he))

theorem after_turn {t : Asked μ} {u : Turn μ} (hu : t.turn = some u) :
    t.after preprocess s = u.after preprocess s := by
  cases t with
  | own content sender run =>
    cases run with
    | done pushed trace =>
      cases hu
      rfl
    | _ => cases hu
  | guest content sender id run =>
    cases run with
    | done primary name text reasoning =>
      cases hu
      rfl
    | _ => cases hu

theorem framings_after (hk : framings s.history ≤ 1) (t : Asked μ) :
    framings (t.after preprocess s).history ≤ 1 := by
  cases t with
  | own content sender run =>
    cases run with
    | unresolved => exact framings_prepare s content sender
    | dropped pushed | done pushed trace =>
      simp only [Asked.after, ownAfter, framings_append, framings_pushed]
      exact framings_prepare s content sender
  | guest content sender id run =>
    cases run with
    | unresolved => exact hk
    | early => exact (framings_stripped _).trans_le (Nat.zero_le 1)
    | broken primary => exact Nat.le_of_eq (framings_guest s content sender primary)
    | done primary name text reasoning =>
      simp only [Asked.after, guestAfter, framings_append, framings_guest]
      exact Nat.le_refl 1

/-- What opening brings: a session of the handle that remembers what was placed. -/
structure Opened (h : Str) (id : Nat) (kv : Kv μ) (s : Session μ) (kv' : Kv μ) : Prop where
  id : s.id = id
  handle : s.handle = some h
  framings : framings s.history = 0
  placed : Placed h [] kv'
  remembers : ∀ b, Placed h b kv → Remembers s b

theorem resumed_plain (archives : Str → Option Str) (archive : Option Str)
    {history : List (HistoryEntry μ)}
    (hplain : ∀ e ∈ history, e.autoInjected = false) :
    ∀ e ∈ resumedHistory archives archive history, e.autoInjected = false := by
  unfold resumedHistory
  split
  · exact hplain
  · intro e he
    rcases List.mem_cons.mp he with rfl | he
    · rfl
    · exact hplain e he

theorem subset_resumed (archives : Str → Option Str) (archive : Option Str)
    (history : List (HistoryEntry μ)) :
    history ⊆ resumedHistory archives archive history := by
  unfold resumedHistory
  split
  · exact List.Subset.refl _
  · exact List.subset_cons_self _ _

theorem opening_openSession (ht : WellTyped kv) (archives : Str → Option Str)
    (known : AgentId → Bool) (id : Nat) (agent : AgentId)
    (createdBy : Str) (root : Option Str) (now later : Str) :
    Opening h (openSession archives known h id agent createdBy root now later) (Opened h id kv)
    (fun _ _ => True) kv := by
  have hload : Opening h (load archives known h id later)
      (fun r t => Elsewhere h kv t ∧ (r = none → ¬ Held h kv) ∧ ∀ s, r = some s →
        Opened h id kv s kv) (fun _ _ => True) kv := by
    unfold load
    apply Prog.relyOn_bind
    refine (opening_loadSession ht).mono (fun r t hr => ?_) fun _ _ _ => trivial
    obtain ⟨he, hnone, hsome⟩ := hr
    cases r with
    | none => exact fun u hu => ⟨trans_of (Elsewhere h) he hu, fun _ => hnone rfl,
        fun s hs => by cases hs⟩
    | some c =>
      obtain ⟨hplaced, hbrings, hplain⟩ := hsome c rfl
      dsimp only
      split
      · refine fun u hu => ⟨trans_of (Elsewhere h) he hu, fun hn => (by cases hn), fun s hs => ?_⟩
        cases hs
        have hresumed := resumed_plain archives c.archive fun e he => (hplain e he).1
        refine ⟨rfl, rfl, framings_eq_zero.mpr hresumed, hplaced, fun b hb e he => ?_⟩
        rw [stripped_eq_self hresumed]
        have hmem := hbrings b hb e he
        exact List.mem_map.mpr ⟨e.persist, subset_resumed archives c.archive _ hmem,
          (hplain _ hmem).2⟩
      · exact fun _ _ => trivial
  unfold openSession
  apply Prog.relyOn_bind
  refine hload.mono (fun r t hr => ?_) fun _ _ _ => trivial
  obtain ⟨he, hnone, hsome⟩ := hr
  -- a stored session is resumed, another one is created
  cases r with
  | some s =>
    intro u hu
    obtain ⟨hid, hh, hk, hplaced, hrem⟩ := hsome s rfl
    exact ⟨hid, hh, hk, hplaced.aside (trans_of (Elsewhere h) he hu).aside, hrem⟩
  | none =>
    have hn := hnone rfl
    dsimp only
    split
    · apply Prog.relyOn_bind
      refine (opening_createSession (he.absent hn) agent createdBy root now).mono
        (fun _ t₁ h₁ => ?_) fun _ _ _ => trivial
      exact fun t₂ h₂ => ⟨rfl, rfl, rfl, h₁.aside h₂.aside, fun b hb => absurd hb.held hn⟩
    · exact fun _ _ => trivial

end

theorem spared_finalizeTail [TextStd] {h : Str} {kv : Kv μ} (ht : WellTyped kv) (s : Session μ)
    (trace : List EventLine) (later : Str) :
    Spared True h (finalizeTail s h trace later) (fun _ _ => True) (fun _ _ => True) kv := by
  have hupdate : ∀ kv₁ : Kv μ, WellTyped kv₁ → Spared True h (do
      let _ ← (updateSessionMeta h (s.sessionMeta later)).attempt : KvM μ Unit) (fun _ _ => True)
          (fun _ _ => True) kv₁ := by
    intro kv₁ h₁
    apply Prog.rely_bind
    apply Prog.rely_attempt
    exact (spared_updateSessionMeta _ h₁).mono (fun _ _ _ _ _ => trivial) fun _ _ _ _ _ => trivial
  have hevents : Spared True h (appendSessionEvents h trace) (fun _ => WellTyped)
      (fun _ => WellTyped) kv :=
    ((spared_appendSessionEvents trace ht).frame (fun _ _ ha => ha.typed)
      (fun _ _ hg => hg.typed) ht).mono (fun _ _ h₁ => h₁.2)
      fun _ _ h₁ => h₁.2
  unfold finalizeTail
  dsimp only
  split
  · exact hupdate kv ht
  · apply Prog.rely_bind
    apply Prog.rely_attempt
    exact hevents.mono (fun _ => hupdate) fun _ => hupdate

theorem finds_of_held {h : Str} {kv : Kv μ} (hh : Held h kv) (o : KvOp μ) : Finds h o kv := by
  cases o with
  | get col k | put col k v => exact fun _ _ => hh
  | _ => trivial

/-! ## What requests keep -/

namespace Service

/-- The session at `a` is the handle's, and remembers the turns that completed. -/
def Good (h : Str) (w : Service μ) (a : Nat) : Prop :=
  Placed h [] w.kv ∧ ∃ s, w.at? a = some s ∧ s.handle = some h ∧ framings s.history ≤ 1 ∧
    ∀ b ∈ w.completed, Remembers s b

def Hosts (h : Str) (w : Service μ) (a : Nat) : Prop := Good h w a ∧
    ∀ b, w.sessions.registry.Registered h b → b = a

end Service

namespace Client

def Sound (h : Str) (w : Service μ) : Client μ → Prop
  | opening id p =>
    id < w.nextId ∧ w.sessions.registry.byId[id]? = none ∧
      (∀ a, ¬ w.sessions.registry.Registered h a) ∧
    Opening h p (fun s kv => s.id = id ∧ s.handle = some h ∧ framings s.history = 0 ∧
      Placed h [] kv ∧ ∀ b ∈ w.completed, Remembers s b)
      (fun _ _ => True) w.kv
  | holding a | running a => w.Hosts h a
  | appending a batch p tail => w.Hosts h a ∧ (∀ s, w.at? a = some s → Remembers s batch) ∧
    Spared True h p (fun _ => Placed h batch) (fun _ _ => True) w.kv ∧
    ∀ kv, WellTyped kv → Spared True h tail (fun _ _ => True) (fun _ _ => True) kv
  | ending a batch tail => w.Hosts h a ∧ (∀ s, w.at? a = some s →
      Remembers s batch) ∧ Placed h batch w.kv ∧
    Spared True h tail (fun _ _ => True) (fun _ _ => True) w.kv
  | gone => True

/-- Two requests that are under way have one session, and not both its lock. -/
def Beside (c d : Client μ) : Prop := c.Gone ∨ d.Gone ∨
    (∃ a, c.session = some a ∧ d.session = some a) ∧ ¬ (c.InRun ∧ d.InRun)

theorem Beside.symm {c d : Client μ} (hb : c.Beside d) : d.Beside c := by
  rcases hb with hc | hd | ⟨⟨a, hc, hd⟩, hrun⟩
  · exact .inr (.inl hc)
  · exact .inl hd
  · exact .inr (.inr ⟨⟨a, hd, hc⟩, fun h => hrun ⟨h.2, h.1⟩⟩)

/-- Beside a run there is at most somebody who waits for the lock. -/
theorem Beside.run {c d : Client μ} {a : Nat} (hb : c.Beside d) (hrun : c.InRun)
    (ha : c.session = some a) : d.Gone ∨ d = .holding a := by
  rcases hb with hc | hd | ⟨⟨b, hc, hd⟩, hnot⟩
  · cases c <;> first | exact hrun.elim | exact hc.elim
  · exact .inl hd
  · rw [ha] at hc
    cases hc
    have hd' : ¬ d.InRun := fun hd' => hnot ⟨hrun, hd'⟩
    cases d with
    | holding b =>
      cases hd
      exact .inr rfl
    | running b | appending b batch p tail | ending b batch p => exact absurd trivial hd'
    | opening id p | gone => cases hd

theorem Beside.opening {id : Nat} {p : KvM μ (Session μ)} {d : Client μ}
    (hb : (opening id p).Beside d) : d.Gone := by
  rcases hb with hc | hd | ⟨⟨b, hc, -⟩, -⟩
  · exact hc.elim
  · exact hd
  · cases hc

end Client

namespace Service

structure Kept (h : Str) (w : Service μ) : Prop where
  typed : WellTyped w.kv
  agrees : w.sessions.registry.Agrees
  ids : ∀ id : Nat, w.sessions.registry.byId[id]? ≠ none → id < w.nextId
  saved : ∀ b ∈ w.completed, Placed h b w.kv
  registered : ∀ a, w.sessions.registry.Registered h a → w.Good h a
  beside : ∀ (i j : Nat) (c d : Client μ), i ≠ j → w.clients[i]? = some c →
    w.clients[j]? = some d → c.Beside d
  sound : ∀ (i : Nat) (c : Client μ), w.clients[i]? = some c → c.Sound h w

section
variable {h : Str} {w : Service μ} {i a : Nat} {c : Client μ}

theorem Idle.kept (hw : w.Idle) : w.Kept h := by
  obtain ⟨maxBytes, kv, ht, rfl⟩ := hw
  refine ⟨ht, Mirror.empty, fun id hid => absurd ?_ hid, fun b hb => absurd hb List.not_mem_nil,
    fun a ha => ?_, fun i j c d _ hc => ?_,
    fun i c hc => ?_⟩
  · exact ExtTreeMap.getElem?_empty
  · obtain ⟨id, live, hlive, -⟩ := ha
    cases ExtTreeMap.getElem?_empty.symm.trans hlive
  · cases hc
  · cases hc

theorem find_put {j : Nat} {d : Client μ} (hd : (w.put i c).clients[j]? = some d) : j = i ∧ d = c ∨
    j ≠ i ∧ w.clients[j]? = some d := by
  unfold put at hd
  dsimp only at hd
  rw [List.getElem?_set] at hd
  split at hd
  · rename_i hij
    split at hd
    · exact .inl ⟨hij.symm, (Option.some.inj hd).symm⟩
    · cases hd
  · rename_i hij
    exact .inr ⟨Ne.symm hij, hd⟩

theorem Kept.put (hw : w.Kept h) (hbeside : ∀ (j : Nat) (d : Client μ), j ≠ i →
    w.clients[j]? = some d → c.Beside d) (hs : c.Sound h w) : (w.put i c).Kept h := by
  refine ⟨hw.typed, hw.agrees, hw.ids, hw.saved, hw.registered, fun j k d e hjk hd he => ?_,
    fun j d hd => ?_⟩
  · rcases find_put hd with ⟨rfl, rfl⟩ | ⟨hj, hd'⟩
    · rcases find_put he with ⟨rfl, -⟩ | ⟨hk, he'⟩
      · exact absurd rfl hjk
      · exact hbeside k e hk he'
    · rcases find_put he with ⟨rfl, rfl⟩ | ⟨-, he'⟩
      · exact (hbeside j d hj hd').symm
      · exact hw.beside j k d e hjk hd' he'
  · rcases find_put hd with ⟨-, rfl⟩ | ⟨-, hd⟩
    · exact hs
    · exact hw.sound j d hd

theorem Kept.drop (hw : w.Kept h) (i : Nat) : (w.put i .gone).Kept h :=
  hw.put (fun _ _ _ _ => .inl trivial) trivial

theorem Kept.push (hw : w.Kept h) (hbeside : ∀ (j : Nat) (d : Client μ), w.clients[j]? = some d →
    c.Beside d) (hs : c.Sound h w) :
    Kept h { w with clients := w.clients ++ [c] } := by
  have hfind : ∀ (j : Nat) (d : Client μ), (w.clients ++ [c])[j]? = some d → j = w.clients.length ∧
      d = c ∨ w.clients[j]? = some d := by
    intro j d hd
    rw [List.getElem?_append] at hd
    split at hd
    · exact .inr hd
    · obtain ⟨hlt, hd⟩ := List.getElem?_eq_some_iff.mp hd
      have hj : j = w.clients.length := by
        rw [List.length_singleton] at hlt
        omega
      subst hj
      simp at hd
      exact .inl ⟨rfl, hd.symm⟩
  refine ⟨hw.typed, hw.agrees, hw.ids, hw.saved, hw.registered, fun j k d e hjk hd he => ?_,
    fun j d hd => ?_⟩
  · rcases hfind j d hd with ⟨rfl, rfl⟩ | hd'
    · rcases hfind k e he with ⟨rfl, -⟩ | he'
      · exact absurd rfl hjk
      · exact hbeside k e he'
    · rcases hfind k e he with ⟨rfl, rfl⟩ | he'
      · exact (hbeside j d hd').symm
      · exact hw.beside j k d e hjk hd' he'
  · rcases hfind j d hd with ⟨-, rfl⟩ | hd
    · exact hs
    · exact hw.sound j d hd

theorem Kept.quiet (ht : WellTyped w.kv) (hagrees : w.sessions.registry.Agrees)
    (hids : ∀ id : Nat, w.sessions.registry.byId[id]? ≠ none → id < w.nextId)
    (hsaved : ∀ b ∈ w.completed, Placed h b w.kv)
    (hreg : ∀ b, w.sessions.registry.Registered h b → w.Good h b)
    (hq : ∀ (j : Nat) (d : Client μ), w.clients[j]? = some d → d.Gone ∨ d = .holding a ∧
      w.Hosts h a) : w.Kept h := by
  refine ⟨ht, hagrees, hids, hsaved, hreg, fun j k d e _ hd he => ?_, fun j d hd => ?_⟩
  · rcases hq j d hd with hd | ⟨rfl, -⟩
    · exact .inl hd
    · rcases hq k e he with he | ⟨rfl, -⟩
      · exact .inr (.inl he)
      · exact .inr (.inr ⟨⟨a, rfl, rfl⟩, fun hrun => hrun.1⟩)
  · rcases hq j d hd with hd | ⟨rfl, hhosts⟩
    · cases d with
      | gone => trivial
      | _ => exact hd.elim
    · exact hhosts

theorem Good.of_eq {w' : Service μ} (hg : w.Good h a) (hkv : w'.kv = w.kv)
    (hat : w'.at? a = w.at? a) (hdone : w'.completed = w.completed) :
    w'.Good h a := by
  unfold Good
  rw [hkv, hat, hdone]
  exact hg

theorem Kept.registry (hw : w.Kept h) {sessions : Sessions} {nextId : Nat}
    {heap : List (Option (Session μ))}
    (hagrees : sessions.registry.Agrees) (hids : ∀ id : Nat, sessions.registry.byId[id]? ≠ none →
      id < nextId) (hnext : w.nextId ≤ nextId)
    (hat : ∀ a : Nat, heap[a]?.join = w.at? a) (hreg : ∀ a, sessions.registry.Registered h a →
      w.sessions.registry.Registered h a)
    (hfree : ∀ (i : Nat) (c : Client μ) (id : Nat), w.clients[i]? = some c → c.reserved = some id →
      sessions.registry.byId[id]? = none) :
    Kept h { w with sessions, nextId, heap } := by
  have hgood : ∀ a, w.Good h a → Good h { w with sessions, nextId, heap } a :=
    fun a hg => hg.of_eq rfl (hat a) rfl
  have hhosts : ∀ a, w.Hosts h a → Hosts h { w with sessions, nextId, heap } a :=
    fun a hg => ⟨hgood a hg.1, fun b hb => hg.2 b (hreg b hb)⟩
  refine ⟨hw.typed, hagrees, hids, hw.saved, fun a ha => hgood a (hw.registered a (hreg a ha)),
    hw.beside, fun i c hc => ?_⟩
  have hs := hw.sound i c hc
  cases c with
  | opening id p =>
    obtain ⟨hid, -, hnone, hp⟩ := hs
    exact ⟨Nat.lt_of_lt_of_le hid hnext, hfree i _ id hc rfl, fun a ha => hnone a (hreg a ha), hp⟩
  | holding a | running a => exact hhosts a hs
  | appending a batch p tail =>
    refine ⟨hhosts a hs.1, fun s hsa => hs.2.1 s ?_, hs.2.2⟩
    rw [← hat a]
    exact hsa
  | ending a batch p =>
    refine ⟨hhosts a hs.1, fun s hsa => hs.2.1 s ?_, hs.2.2⟩
    rw [← hat a]
    exact hsa
  | gone => trivial

theorem Kept.reserved (hw : w.Kept h) {id : Nat} (hc : w.clients[i]? = some c)
    (hid : c.reserved = some id) :
    w.sessions.registry.byId[id]? = none := by
  have hs := hw.sound i c hc
  cases c with
  | opening id' p =>
    cases hid
    exact hs.2.1
  | _ => cases hid

theorem Kept.narrows (hw : w.Kept h) {sessions : Sessions} (hagrees : sessions.registry.Agrees)
    (hn : w.sessions.registry.Narrows sessions.registry) : Kept h { w with sessions } := by
  refine hw.registry hagrees (fun id hid => hw.ids id fun hnone => hid (hn.absent hnone))
    (Nat.le_refl _) (fun _ => rfl)
    (fun _ => hn.registered) fun i c id hc hid => ?_
  exact hn.absent (hw.reserved hc hid)

theorem Kept.elsewhere (hw : w.Kept h) {kv : Kv μ} (he : Elsewhere h w.kv kv) :
    Kept h { w with kv } := by
  have hgood : ∀ a, w.Good h a → Good h { w with kv } a := fun a hg => ⟨hg.1.aside he.aside, hg.2⟩
  have hhosts : ∀ a, w.Hosts h a → Hosts h { w with kv } a := fun a hg => ⟨hgood a hg.1, hg.2⟩
  refine ⟨he.typed hw.typed, hw.agrees, hw.ids, fun b hb => (hw.saved b hb).aside he.aside,
    fun a ha => hgood a (hw.registered a ha), hw.beside,
    fun i c hc => ?_⟩
  have hs := hw.sound i c hc
  cases c with
  | opening id p => exact ⟨hs.1, hs.2.1, hs.2.2.1, hs.2.2.2.stable he⟩
  | holding a | running a => exact hhosts a hs
  | appending a batch p tail => exact ⟨hhosts a hs.1, hs.2.1, hs.2.2.1.stable he.aside, hs.2.2.2⟩
  | ending a batch p => exact ⟨hhosts a hs.1, hs.2.1, hs.2.2.1.aside he.aside,
      hs.2.2.2.stable he.aside⟩
  | gone => trivial

/-- Who is beside a request at the store, or in a run. -/
theorem Kept.others (hw : w.Kept h) (hc : w.clients[i]? = some c) (hrun : c.InRun)
    (ha : c.session = some a) {j : Nat} {d : Client μ}
    (hj : j ≠ i) (hd : w.clients[j]? = some d) : d.Gone ∨ d = .holding a :=
    (hw.beside i j c d hj.symm hc hd).run hrun ha

theorem put_put (d : Client μ) : (w.put i c).put i d = w.put i d := by simp [put]

theorem hosts_of_sound (hs : c.Sound h w) (ha : c.session = some a) : w.Hosts h a := by
  cases c with
  | opening id p | gone => cases ha
  | holding b | running b =>
    cases ha
    exact hs
  | appending b batch p tail | ending b batch p =>
    cases ha
    exact hs.1

theorem Kept.ran (hw : w.Kept h) (hc : w.clients[i]? = some c) (hrun : c.InRun)
    (ha : c.session = some a) {v : Service μ} {c' : Client μ}
    (hsessions : v.sessions = w.sessions) (hnext : v.nextId = w.nextId)
    (hclients : v.clients = w.clients) (ht : WellTyped v.kv)
    (hsaved : ∀ b ∈ v.completed, Placed h b v.kv) (hgood : v.Good h a)
    (hc' : c'.Gone ∨ c'.session = some a) (hs : c'.Sound h v) :
    (v.put i c').Kept h := by
  have hhosts := hosts_of_sound (hw.sound i c hc) ha
  have hhostsv : v.Hosts h a := ⟨hgood, fun b hb => hhosts.2 b (by rw [← hsessions]; exact hb)⟩
  have hothers : ∀ (j : Nat) (d : Client μ), j ≠ i → v.clients[j]? = some d → d.Gone ∨
      d = .holding a := by
    intro j d hj hd
    rw [hclients] at hd
    exact hw.others hc hrun ha hj hd
  have hquiet : (v.put i .gone).Kept h := by
    refine Kept.quiet (a := a) ht ?_ ?_ hsaved (fun b hb => ?_) fun j d hd => ?_
    · unfold Service.put
      rw [hsessions]
      exact hw.agrees
    · unfold Service.put
      rw [hsessions, hnext]
      exact hw.ids
    · rw [hhostsv.2 b hb]
      exact hgood
    · rcases find_put hd with ⟨-, rfl⟩ | ⟨hj, hd⟩
      · exact .inl trivial
      · exact (hothers j d hj hd).imp_right fun hd => ⟨hd, hhostsv⟩
  have hput : ((v.put i .gone).put i c').Kept h := by
    refine hquiet.put (fun j d hj hd => ?_) hs
    rcases find_put hd with ⟨rfl, -⟩ | ⟨-, hd⟩
    · exact absurd rfl hj
    · rcases hothers j d hj hd with hd | rfl
      · exact .inr (.inl hd)
      · exact hc'.imp_right fun hc' => .inr ⟨⟨a, hc', rfl⟩, fun hboth => hboth.2⟩
  rw [put_put] at hput
  exact hput

theorem Kept.opening (hw : w.Kept h) {id : Nat} {p : KvM μ (Session μ)}
    (hc : w.clients[i]? = some (.opening id p)) {v : Service μ}
    {c' : Client μ} (hclients : v.clients = w.clients) (ht : WellTyped v.kv)
    (hagrees : v.sessions.registry.Agrees)
    (hids : ∀ id : Nat, v.sessions.registry.byId[id]? ≠ none → id < v.nextId)
    (hsaved : ∀ b ∈ v.completed, Placed h b v.kv)
    (hreg : ∀ b, v.sessions.registry.Registered h b → v.Good h b) (hs : c'.Sound h v) :
    (v.put i c').Kept h := by
  have hgone : ∀ (j : Nat) (d : Client μ), j ≠ i → v.clients[j]? = some d → d.Gone := by
    intro j d hj hd
    rw [hclients] at hd
    exact (hw.beside i j _ d hj.symm hc hd).opening
  have hquiet : (v.put i .gone).Kept h := by
    refine Kept.quiet (a := 0) ht hagrees hids hsaved hreg fun j d hd => ?_
    rcases find_put hd with ⟨-, rfl⟩ | ⟨hj, hd⟩
    · exact .inl trivial
    · exact .inl (hgone j d hj hd)
  have hput : ((v.put i .gone).put i c').Kept h := by
    refine hquiet.put (fun j d hj hd => ?_) hs
    rcases find_put hd with ⟨rfl, -⟩ | ⟨-, hd⟩
    · exact absurd rfl hj
    · exact .inr (.inl (hgone j d hj hd))
  rw [put_put] at hput
  exact hput

end

/-! ## Every act -/

section
variable [TextStd] [Wire μ] {entryBytes : HistoryEntry μ → Nat}
  {preprocess : AgentId → Str → Option Str} {h : Str} {w w' : Service μ} {i : Nat}
  {others : Cells}

theorem Kept.open (hw : w.Kept h) {agent : AgentId} {createdBy now later : Str} {root : Option Str}
    {archives : Str → Option Str}
    {known : AgentId → Bool} (hc :
      w.Careful h (.open agent createdBy root now later archives known others))
    (hp : perform entryBytes preprocess h w
      (.open agent createdBy root now later archives known others) = some w') : w'.Kept h := by
  have hc' : (w.sessions.findByHandle h).1 = none → ∀ c ∈ w.clients, c.Gone := hc
  obtain ⟨hfound, hmissed⟩ := Sessions.findByHandle_registered hw.agrees h
  have hnarrows : w.sessions.registry.Narrows (w.sessions.findByHandle h).2.registry :=
    Sessions.narrows_findByHandle h
  have hagrees : (w.sessions.findByHandle h).2.registry.Agrees :=
    Sessions.agrees_findByHandle hw.agrees h
  unfold perform at hp
  generalize w.sessions.findByHandle h = found at hp hc' hfound hmissed hnarrows hagrees
  obtain ⟨_ | ⟨id, a⟩, sessions⟩ := found
  -- nothing is registered under the handle, so the session is opened from the store
  · cases hp
    have hnone := hmissed rfl
    have hgone := hc' rfl
    have hnext : Kept h { w with sessions, nextId := w.nextId + 1 } := by
      refine hw.registry hagrees (fun id hid => ?_) (Nat.le_succ _) (fun _ => rfl)
        (fun _ => hnarrows.registered) fun i c id hc hid => ?_
      · exact Nat.lt_succ_of_lt (hw.ids id fun habsent => hid (hnarrows.absent habsent))
      · exact hnarrows.absent (hw.reserved hc hid)
    refine hnext.push (fun j d hd => .inr (.inl (hgone d (List.mem_of_getElem? hd))))
      ⟨Nat.lt_succ_self _, ?_, ?_, ?_⟩
    · apply hnarrows.absent
      by_contra hid
      exact Nat.lt_irrefl _ (hw.ids _ hid)
    · exact fun a ha => hnone a (hnarrows.registered ha)
    · refine (opening_openSession hw.typed archives known w.nextId agent createdBy root now
        later).mono (fun s kv hs => ?_) fun _ _ _ => trivial
      exact ⟨hs.id, hs.handle, hs.framings, hs.placed, fun b hb => hs.remembers b (hw.saved b hb)⟩
  · cases hp
    -- the registered session is handed out, and no other may be
    have ha := hfound id a rfl
    have hgood := hw.registered a ha
    have hunique : ∀ b, w.sessions.registry.Registered h b → b = a :=
      fun b hb => hw.agrees.unique hb ha
    have hpushed : Kept h { w with sessions, clients := w.clients ++ [.holding a] } := by
      refine (hw.narrows hagrees hnarrows).push (fun j d hd => ?_)
        ⟨hgood, fun b hb => hunique b (hnarrows.registered hb)⟩
      have hs := hw.sound j d hd
      cases d with
      | opening id p => exact absurd ha (hs.2.2.1 a)
      | gone => exact .inr (.inl trivial)
      | holding b | running b | appending b batch p tail | ending b batch p =>
        obtain rfl := (hosts_of_sound hs rfl).2 a ha
        exact .inr (.inr ⟨⟨_, rfl, rfl⟩, fun hboth => hboth.1⟩)
    exact hpushed.narrows (Sessions.agrees_reprice hagrees id) (Sessions.narrows_reprice id)

theorem Kept.store (hw : w.Kept h) {fault : Option Error} (hc : w.Careful h (.store i fault))
    (hp : perform entryBytes preprocess h w (.store i fault) = some w') : w'.Kept h := by
  have hc' : fault ≠ none → ∀ c ∈ w.clients[i]?, ¬ c.ReadsMessage h := hc
  obtain ⟨r, hr, rfl⟩ := Option.map_eq_some_iff.mp hp
  obtain ⟨c, hci, hwork⟩ := Option.bind_eq_some_iff.mp hr
  have hs := hw.sound i c hci
  cases c with
  | opening id p =>
    obtain ⟨⟨p', kv'⟩, hadv, rfl⟩ := Option.map_eq_some_iff.mp hwork
    obtain ⟨hid, hfree, hnone, hprog⟩ := hs
    have hfault : fault.isSome → ∀ o k, p = .call o k → ¬ ReadsMessage h o := by
      rintro hf o k rfl
      exact hc' (Option.isSome_iff_ne_none.mp hf) _ hci
    obtain ⟨hguards, hrest⟩ := hprog.advance hfault .refl hadv
    exact hw.opening (v := { w with kv := kv' }) hci rfl (hguards.typed hw.typed) hw.agrees hw.ids
      (fun b hb => hguards.placed b (hw.saved b hb)) (fun b hb => absurd hb (hnone b))
        ⟨hid, hfree, hnone, hrest⟩
  | appending a batch p tail =>
    obtain ⟨⟨p', kv'⟩, hadv, rfl⟩ := Option.map_eq_some_iff.mp hwork
    obtain ⟨hhosts, hrem, hprog, htail⟩ := hs
    obtain ⟨hguards, hrest⟩ := hprog.advance (fun o k _ => finds_of_held hhosts.1.1.held o)
        (fun _ => trivial) .refl hadv
    have hgood : Good h { w with kv := kv' } a := ⟨hguards.placed [] hhosts.1.1, hhosts.1.2⟩
    exact hw.ran (v := { w with kv := kv' }) hci trivial rfl rfl rfl rfl (hguards.typed hw.typed)
      (fun b hb => hguards.placed b (hw.saved b hb)) hgood (.inr rfl)
        ⟨⟨hgood, hhosts.2⟩, hrem, hrest, htail⟩
  | ending a batch p =>
    obtain ⟨⟨p', kv'⟩, hadv, rfl⟩ := Option.map_eq_some_iff.mp hwork
    obtain ⟨hhosts, hrem, hplaced, hprog⟩ := hs
    obtain ⟨hguards, hrest⟩ := hprog.advance (fun o k _ => finds_of_held hhosts.1.1.held o)
        (fun _ => trivial) .refl hadv
    have hgood : Good h { w with kv := kv' } a := ⟨hguards.placed [] hhosts.1.1, hhosts.1.2⟩
    exact hw.ran (v := { w with kv := kv' }) hci trivial rfl rfl rfl rfl (hguards.typed hw.typed)
      (fun b hb => hguards.placed b (hw.saved b hb)) hgood (.inr rfl)
        ⟨⟨hgood, hhosts.2⟩, hrem, hguards.placed batch hplaced, hrest⟩
  | holding a | running a | gone => cases hwork

theorem Kept.opened (hw : w.Kept h)
    (hp : perform entryBytes preprocess h w (.opened i others) = some w') : w'.Kept h := by
  unfold perform at hp
  dsimp only at hp
  split at hp
  · rename_i id s hci
    obtain ⟨handle, hhandle, hw'⟩ := Option.map_eq_some_iff.mp hp
    obtain ⟨hid, hfree, hnone, hprog⟩ := hw.sound i _ hci
    obtain ⟨hsid, hh, hk, hplaced, hrem⟩ := hprog.answered
    rw [hh] at hhandle
    cases hhandle
    rw [hsid] at hw'
    generalize cells entryBytes
      { w with heap := w.heap ++ [some s], clients := w.clients.set i (.holding w.heap.length) } others = seen
      at hw'
    have honly : ∀ b, (w.sessions.insert seen id h w.heap.length
        (bytes entryBytes s)).registry.Registered h b → b = w.heap.length :=
      fun b hb => (Sessions.insert_registered hb).elim (·.2) fun hb => absurd hb (hnone b)
    have hgood : Good h { w with
        heap := w.heap ++ [some s], sessions :=
          w.sessions.insert seen id h w.heap.length (bytes entryBytes s) } w.heap.length := by
      refine ⟨hplaced, s, ?_, hh, by omega, hrem⟩
      unfold at?
      simp
    subst hw'
    refine hw.opening (v := { w with
      heap := w.heap ++ [some s], sessions :=
        w.sessions.insert seen id h w.heap.length (bytes entryBytes s) }) hci rfl hw.typed
      (Sessions.agrees_evict (hw.agrees.insert hfree)) (fun j hj => ?_) hw.saved (fun b hb => ?_)
        ⟨hgood, honly⟩
    · by_cases hjid : j = id
      · rw [hjid]
        exact hid
      · exact hw.ids j fun hnone => hj (Sessions.insert_absent hjid hnone)
    · rw [honly b hb]
      exact hgood
  · cases hp
    exact hw.drop i
  · cases hp

theorem Kept.lock (hw : w.Kept h) (hp : perform entryBytes preprocess h w (.lock i) = some w') :
    w'.Kept h := by
  unfold perform at hp
  dsimp only at hp
  split at hp
  · rename_i a hci
    split at hp
    · cases hp
    · rename_i hfree
      cases hp
      have hhosts : w.Hosts h a := hw.sound i _ hci
      refine hw.put (fun j d hj hd => ?_) hhosts
      rcases hw.beside i j _ d hj.symm hci hd with hc | hd' | ⟨⟨b, hb, hdb⟩, -⟩
      · exact hc.elim
      · exact .inr (.inl hd')
      · cases hb
        exact .inr (.inr ⟨⟨a, rfl, hdb⟩,
          fun hboth => hfree ⟨d, List.mem_of_getElem? hd, hboth.2, hdb⟩⟩)
  · cases hp

theorem Kept.turn (hw : w.Kept h) {t : Asked μ} {now later : Str}
    (hc : w.Careful h (.turn i t now later))
    (hp : perform entryBytes preprocess h w (.turn i t now later) = some w') : w'.Kept h := by
  have hc' : ∀ c ∈ w.clients[i]?, ∀ a ∈ c.session, ∀ s ∈ w.at? a, ∀ u ∈ t.turn, ¬ u.Skips s := hc
  unfold perform at hp
  dsimp only at hp
  split at hp
  · rename_i a hci
    obtain ⟨s, hsa, rfl⟩ := Option.map_eq_some_iff.mp hp
    obtain ⟨⟨hplaced, s', hsa', hh, hk, hrem⟩, honly⟩ := hw.sound i _ hci
    rw [hsa] at hsa'
    cases hsa'
    have hlt : a < w.heap.length := by
      by_contra hge
      unfold at? at hsa
      rw [List.getElem?_eq_none (by omega)] at hsa
      cases hsa
    have hat : at? { w with heap := w.heap.set a (some (t.after preprocess s)) } a =
        some (t.after preprocess s) := by
      unfold at?
      rw [List.getElem?_set_self hlt]
      rfl
    have hh' : (t.after preprocess s).handle = some h := handle_after.trans hh
    -- the session that is left in place is as good as it was
    have hgood : Good h { w with heap := w.heap.set a (some (t.after preprocess s)) } a :=
      ⟨hplaced, _, hat, hh', framings_after hk t, fun b hb => (hrem b hb).after t⟩
    have hsound : (turned preprocess a s t now later).Sound h
        { w with heap := w.heap.set a (some (t.after preprocess s)) } ∧
        ((turned preprocess a s t now later).Gone ∨ (turned preprocess a s t now later).session =
          some a) := by
      unfold turned
      split
      · exact ⟨trivial, .inl trivial⟩
      · rename_i u hu
        rw [hh']
        dsimp only
        -- what the turn appends is its batch, for it skips nothing
        have hbatch : t.batch preprocess s = u.entry preprocess s :: u.pushed.filter fun e =>
            !e.autoInjected := by
          unfold Asked.batch
          rw [hu]
        have hafter : t.after preprocess s = u.after preprocess s := after_turn hu
        have hn : newEntries (t.after preprocess s).history s.history.length =
            some (t.batch preprocess s) := by
          rw [hbatch, hafter]
          exact newEntries_after hk u (hc' _ hci a rfl s hsa u hu)
        rw [hn]
        refine ⟨⟨⟨hgood, honly⟩, fun s₁ hs₁ => ?_, ?_,
          fun kv ht => spared_finalizeTail ht _ _ later⟩, .inr rfl⟩
        · rw [hat] at hs₁
          cases hs₁
          exact remembers_batch t
        · refine (spared_appendSessionMessages ?_ now hw.typed).mono (fun _ _ h₁ => h₁)
            fun _ _ _ => trivial
          rw [hbatch]
          exact List.cons_ne_nil _ _
    exact hw.ran (v := { w with heap := w.heap.set a (some (t.after preprocess s)) }) hci trivial
      rfl rfl rfl rfl hw.typed hw.saved hgood
      hsound.2 hsound.1
  · cases hp

theorem Kept.appended (hw : w.Kept h) (hc : w.Careful h (.appended i))
    (hp : perform entryBytes preprocess h w (.appended i) = some w') : w'.Kept h := by
  have hc' : ∀ c ∈ w.clients[i]?, ¬ c.Refused := hc
  unfold perform at hp
  dsimp only at hp
  split at hp
  · rename_i a batch u tail hci
    cases hp
    obtain ⟨hhosts, hrem, hprog, htail⟩ := hw.sound i _ hci
    exact hw.ran hci trivial rfl rfl rfl rfl hw.typed hw.saved hhosts.1 (.inr rfl)
      ⟨hhosts, hrem, hprog.answered, htail w.kv hw.typed⟩
  · rename_i hci
    exact absurd trivial (hc' _ hci)
  · cases hp

theorem Kept.answered (hw : w.Kept h)
    (hp : perform entryBytes preprocess h w (.answered i) = some w') : w'.Kept h := by
  unfold perform at hp
  dsimp only at hp
  split at hp
  · rename_i a batch u hci
    cases hp
    obtain ⟨⟨⟨hplaced, s, hsa, hh, hk, hrem⟩, honly⟩, hbatch, hsaved, -⟩ := hw.sound i _ hci
    refine hw.ran (v := { w with completed := batch :: w.completed }) hci trivial rfl rfl rfl rfl
      hw.typed (fun b hb => ?_)
      ⟨hplaced, s, hsa, hh, hk, fun b hb => ?_⟩ (.inl trivial) trivial
    · rcases List.mem_cons.mp hb with rfl | hb
      · exact hsaved
      · exact hw.saved b hb
    · rcases List.mem_cons.mp hb with rfl | hb
      · exact hbatch s hsa
      · exact hrem b hb
  · cases hp

theorem Kept.kill (hw : w.Kept h) (hp : perform entryBytes preprocess h w .kill = some w') :
    w'.Kept h := by
  have hnarrows : w.sessions.registry.Narrows (w.sessions.findByHandle h).2.registry :=
    Sessions.narrows_findByHandle h
  have hagrees : (w.sessions.findByHandle h).2.registry.Agrees :=
    Sessions.agrees_findByHandle hw.agrees h
  unfold perform at hp
  generalize w.sessions.findByHandle h = found at hp hnarrows hagrees
  obtain ⟨_ | ⟨id, a⟩, sessions⟩ := found
  · cases hp
    exact hw.narrows hagrees hnarrows
  · cases hp
    exact hw.narrows (hagrees.remove id) (hnarrows.trans (.remove id))

theorem Kept.arrive (hw : w.Kept h) {id n : Nat} {handle : Str}
    (hp : perform entryBytes preprocess h w (.arrive id handle n others) = some w') : w'.Kept h := by
  unfold perform at hp
  dsimp only at hp
  split at hp
  · rename_i hfresh
    obtain ⟨hhandle, hid, hfree, hreserved⟩ := hfresh
    cases hp
    generalize cells entryBytes { w with heap := w.heap ++ [none] } others = seen
    refine hw.registry (Sessions.agrees_evict (hw.agrees.insert hfree)) (fun j hj => ?_)
      (Nat.le_refl _) (fun a => ?_) (fun a ha => ?_)
      fun i c j hc hj => ?_
    · by_cases hjid : j = id
      · rw [hjid]
        exact hid
      · exact hw.ids j fun hnone => hj (Sessions.insert_absent hjid hnone)
    · by_cases hlt : a < w.heap.length
      · rw [List.getElem?_append_left hlt]
        rfl
      · have hout : w.at? a = none := by
          unfold at?
          rw [List.getElem?_eq_none (Nat.le_of_not_lt hlt)]
          rfl
        rw [List.getElem?_append_right (Nat.le_of_not_lt hlt), hout]
        cases a - w.heap.length <;> rfl
    · exact (Sessions.insert_registered ha).resolve_left fun hh => hhandle hh.1.symm
    · refine Sessions.insert_absent (fun he => ?_) (hw.reserved hc hj)
      subst he
      exact hreserved c (List.mem_of_getElem? hc) hj
  · cases hp

theorem Kept.perform (hw : w.Kept h) {act : Act μ} (hc : w.Careful h act)
    (hp : perform entryBytes preprocess h w act = some w') :
    w'.Kept h := by
  cases act with
  | «open» agent createdBy root now later archives known others => exact hw.open hc hp
  | store i fault => exact hw.store hc hp
  | opened i others => exact hw.opened hp
  | lock i => exact hw.lock hp
  | turn i t now later => exact hw.turn hc hp
  | appended i => exact hw.appended hc hp
  | answered i => exact hw.answered hp
  | drop i =>
    cases hp
    exact hw.drop i
  | kill => exact hw.kill hp
  | registry op others =>
    cases op with
    | insert id handle session bytes => cases hp
    | _ =>
      cases hp
      exact hw.narrows (Sessions.agrees_perform hw.agrees trivial)
        (Sessions.narrows_perform (by simp))
  | reserve =>
    cases hp
    refine hw.registry hw.agrees (fun id hid => Nat.lt_succ_of_lt (hw.ids id hid)) (Nat.le_succ _)
      (fun _ => rfl) (fun _ ha => ha) ?_
    exact fun i c id hc hid => hw.reserved hc hid
  | arrive id handle n others => exact hw.arrive hp

theorem kept_reachable (hr : Reachable Idle (Stepped entryBytes preprocess h (Careful h)) w) : w.Kept h := by
  refine hr.invariant (I := fun w => w.Kept h) (fun w hw => hw.kept) fun w act w' hw hs => ?_
  cases act with
  | none =>
    obtain ⟨he, hw'⟩ := hs
    rw [hw']
    exact hw.elsewhere he
  | some act => exact hw.perform hs.2 hs.1

/-- While the session is not opened anew under a request that is on its way, one request at most has
a run in progress, and each turn that completed is in storage and in the history of whoever runs a
turn. -/
theorem one_copy (hr : Reachable Idle (Stepped entryBytes preprocess h (Careful h)) w) :
    (∀ (i j : Nat) (c d : Client μ), w.clients[i]? = some c → w.clients[j]? = some d → c.InRun →
      d.InRun → i = j) ∧
      ∀ b ∈ w.completed, Retrievable h b w.kv ∧
        ∀ (i : Nat) (c : Client μ), w.clients[i]? = some c → c.InRun → ∃ a s, c.session = some a ∧
        w.at? a = some s ∧ Remembers s b := by
  have hkept := kept_reachable hr
  refine ⟨fun i j c d hc hd hcr hdr => ?_,
    fun b hb => ⟨retrievable_of_placed hkept.typed (hkept.saved b hb), fun i c hc hcr => ?_⟩⟩
  · by_contra hne
    rcases hkept.beside i j c d hne hc hd with hgone | hgone | ⟨-, hnot⟩
    · cases c <;> first | exact hcr.elim | exact hgone.elim
    · cases d <;> first | exact hdr.elim | exact hgone.elim
    · exact hnot ⟨hcr, hdr⟩
  · obtain ⟨a, ha⟩ : ∃ a, c.session = some a := by
      cases c <;> first | exact hcr.elim | exact ⟨_, rfl⟩
    obtain ⟨⟨-, s, hs, -, -, hrem⟩, -⟩ := hosts_of_sound (hkept.sound i c hc) ha
    exact ⟨a, s, ha, hs, hrem b hb⟩

end

/-! ## Two copies -/

section
open Plain

def unshared : Cells := ⟨fun _ => 0, fun _ => some 0⟩

def opens : Act Message :=
  .open ⟨0⟩ "user".toList none "t0+00:00".toList "t1+00:00".toList (fun _ => none)
    (fun _ => true) unshared

/-- A session is created and its turn stored; it is killed, and opened again for another turn. -/
theorem one_copy_instance :
    ∃ (w : Service Message) (b : List (HistoryEntry Message)) (a : Nat) (s : Session Message),
    w.completed = [b] ∧ Retrievable "chat".toList b w.kv ∧ w.at? a = some s ∧ Remembers s b := by
  let acts : List (Option (Act Message)) := (List.flatten
    [[opens], List.replicate 3 (.store 0 none),
      [.opened 0 unshared, .lock 0, .turn 0 hello "t2+00:00".toList "t3+00:00".toList],
      List.replicate 14 (.store 0 none), [.appended 0], List.replicate 4 (.store 0 none),
      [.answered 0, .kill, opens],
      List.replicate 5 (.store 1 none), [.opened 1 unshared, .lock 1]]).map some
  have h₀ : Reachable Idle (Stepped (fun _ => 1) noHook "chat".toList (Careful "chat".toList))
      (start none (∅ : Kv Message)) :=
    .first ⟨none, ∅, .empty, rfl⟩
  obtain ⟨w, hr, hdone, hrun⟩ :=
    h₀.exists_careful_run (l := acts) (C := fun w act => ∀ a ∈ act, w.Careful "chat".toList a)
    (P := fun w => w.completed.length = 1 ∧ (w.clients[1]?.any fun c => c.InRun) = true)
    (f := fun (w : Service Message) act => act.bind fun a =>
      perform (fun _ => 1) noHook "chat".toList w a) (fun w act w' hp hc => by
      obtain ⟨a, rfl, hp⟩ := Option.bind_eq_some_iff.mp hp
      exact ⟨hp, hc a rfl⟩) (by decide +kernel)
  obtain ⟨b, hb⟩ := List.length_eq_one_iff.mp hdone
  obtain ⟨c, hc, hcr⟩ := (Option.any_eq_true _ _).mp hrun
  obtain ⟨hstored, hlive⟩ := (one_copy hr).2 b (by rw [hb]; exact List.mem_singleton_self b)
  obtain ⟨a, s, -, hs, hrem⟩ := hlive 1 c hc (of_decide_eq_true hcr)
  exact ⟨w, b, a, s, hb, hstored, hs, hrem⟩

/-- The session is killed while a turn is running, and opened again. -/
theorem two_copies : ∃ w : Service Message,
    Reachable Idle (Stepped (fun _ => 1) noHook "chat".toList fun _ _ => True) w ∧
      w.clients.map (fun c => (c.session, decide c.InRun)) = [(some 0, true), (some 1, true)] := by
  let acts : List (Option (Act Message)) := (List.flatten
    [[opens], List.replicate 3 (.store 0 none), [.opened 0 unshared, .lock 0, .kill, opens],
      List.replicate 3 (.store 1 none),
      [.opened 1 unshared, .lock 1]]).map some
  have h₀ : Reachable Idle (Stepped (fun _ => 1) noHook "chat".toList fun _ _ => True)
      (start none (∅ : Kv Message)) :=
    .first ⟨none, ∅, .empty, rfl⟩
  exact h₀.exists_run (l := acts) (f := fun (w : Service Message) act => act.bind fun a =>
    perform (fun _ => 1) noHook "chat".toList w a) (fun w act w' hp => by
    obtain ⟨a, rfl, hp⟩ := Option.bind_eq_some_iff.mp hp
    exact ⟨hp, trivial⟩) (by decide +kernel)

end

end Service

end Crabtalk.Runtime

import Crabtalk.Store.Sessions

/-! # Live sessions and the turns run on them

A live session is passed through the programs that hold its lock. What comes
from outside the store (whether an agent resolves, what its run pushes, where
a stream is dropped, what the clock reads) is an argument.
-/

open Basis
open Crabtalk.Store

namespace Crabtalk.Runtime

variable {μ : Type}

structure Session (μ : Type) where
  id : Nat
  agent : AgentId
  createdBy : Str
  history : List (HistoryEntry μ)
  title : Str
  createdAtIso : Str
  summary : Option Str
  handle : Option Str
  root : Option Str
  deriving DecidableEq

namespace Session

def new (id : Nat) (agent : AgentId) (createdBy now : Str) : Session μ :=
  { id, agent, createdBy, history := [], title := [], createdAtIso := now, summary := none,
    handle := none, root := none }

/-- `Session::meta`. The count is the live length; the store keeps its own. -/
def sessionMeta (s : Session μ) (now : Str) : SessionMeta :=
  { agent := s.agent, createdBy := s.createdBy, createdAt := s.createdAtIso, title := s.title, updatedAt := now,
    messageCount := s.history.length, summary := s.summary, root := s.root }

end Session

/-! ## Framing -/

def stripped (history : List (HistoryEntry μ)) : List (HistoryEntry μ) :=
  history.filter fun e => !e.autoInjected

def insertBeforeLast (history : List (HistoryEntry μ)) (e : HistoryEntry μ) :
    List (HistoryEntry μ) :=
  history.insertIdx (history.length - 1) e

def guestsText : Str :=
  "Messages wrapped in <from agent=\"...\"> tags are from guest agents who were consulted in this session. Continue responding as yourself.".toList

def guestText (primary : Str) : Str :=
  "You are joining a session as a guest. The primary agent is '".toList ++ primary ++
    "'. Messages wrapped in <from agent=\"...\"> tags are from other agents. Respond as yourself to the user's latest message.".toList

section
variable [Wire μ]

def userEntry (preprocess : AgentId → Str → Option Str) (agent : AgentId) (content sender : Str) :
    HistoryEntry μ :=
  let content := (preprocess agent content).getD content
  if sender = [] then .user content else .userWithSender content sender

def prepareHistory (preprocess : AgentId → Str → Option Str) (s : Session μ)
    (content sender : Str) : List (HistoryEntry μ) :=
  let history := stripped (s.history ++ [userEntry preprocess s.agent content sender])
  if history.any fun e => e.agent ≠ [] then insertBeforeLast history
    (HistoryEntry.user guestsText).inject
  else history

/-- The same for a guest turn, up to the point where the framing needs the primary agent's name. -/
def joinHistory (preprocess : AgentId → Str → Option Str) (s : Session μ) (content sender : Str) :
    List (HistoryEntry μ) :=
  stripped (s.history ++ [userEntry preprocess s.agent content sender])

def guestHistory (preprocess : AgentId → Str → Option Str) (s : Session μ)
    (content sender primary : Str) :
    List (HistoryEntry μ) :=
  insertBeforeLast (joinHistory preprocess s content sender)
    (HistoryEntry.system (guestText primary)).inject

def guestReply (name text : Str) (reasoning : Option Str) : HistoryEntry μ :=
  { HistoryEntry.assistant text reasoning with agent := name }

end

/-! ## The tail of a run -/

/-- The slice a run hands to storage; past the end it panics. -/
def newEntries (history : List (HistoryEntry μ)) (preRunLen : Nat) :
    Option (List (HistoryEntry μ)) :=
  if preRunLen ≤ history.length then some ((history.drop preRunLen).filter fun e => !e.autoInjected) else none

section
variable [TextStd] [Wire μ]

/-- `finalize_run`. The store reads the clock for the append, the session for its meta record. -/
def finalizeRun (s : Session μ) (preRunLen : Nat) (eventTrace : List EventLine) (now later : Str) :
    KvM μ Unit :=
  match s.handle with
  | none => pure ()
  | some handle =>
    match newEntries s.history preRunLen with
    | none => .fail .panic
    | some entries => do
      let _ ← (appendSessionMessages handle entries now).attempt
      if eventTrace.isEmpty then pure ()
      else let _ ← (appendSessionEvents handle eventTrace).attempt
      let _ ← (updateSessionMeta handle (s.sessionMeta later)).attempt

/-! ## Turns -/

inductive Ended
  | answered
  | refused (e : Error)
  | dropped
  deriving DecidableEq

/-- What becomes of the run of the session's own agent: it does not resolve, its
caller goes away after some entries were pushed, or it comes to its end. -/
inductive OwnRun (μ : Type)
  | unresolved
  | dropped (pushed : List μ)
  | done (pushed : List μ) (trace : List EventLine)

def notRegistered (agent : AgentId) : Str :=
  "agent '".toList ++ agent.toStr ++ "' not registered".toList

/-- `send_to` and `stream_to`, which treat the session and the store alike. -/
def ownTurn (preprocess : AgentId → Str → Option Str) (s : Session μ) (content sender : Str)
    (run : OwnRun μ) (now later : Str) :
    KvM μ (Session μ × Ended) :=
  let preRunLen := s.history.length
  let history := prepareHistory preprocess s content sender
  match run with
  | .unresolved => return ({ s with history }, .refused (.bail (notRegistered s.agent)))
  | .dropped pushed => return ({ s with history := history ++ pushed.map .fromMessage }, .dropped)
  | .done pushed trace => do
    let s' := { s with history := history ++ pushed.map .fromMessage }
    match ← (finalizeRun s' preRunLen trace now later).attempt with
    | .ok _ => return (s', .answered)
    | .error e => return (s', .refused e)

/-- What becomes of a guest's run: the guest does not resolve, its caller goes away
before the framing is in, its stream fails or is dropped, or it answers. -/
inductive GuestRun
  | unresolved
  | early
  | broken (primary : Str)
  | done (primary name text : Str) (reasoning : Option Str)

def guestTurn (preprocess : AgentId → Str → Option Str) (s : Session μ) (content sender : Str)
    (guest : AgentId) (run : GuestRun)
    (now later : Str) : KvM μ (Session μ × Ended) :=
  let preRunLen := s.history.length
  match run with
  | .unresolved => return (s, .refused (.bail ("guest ".toList ++ notRegistered guest)))
  | .early => return ({ s with history := joinHistory preprocess s content sender }, .dropped)
  | .broken primary =>
    return ({ s with history := guestHistory preprocess s content sender primary }, .dropped)
  | .done primary name text reasoning => do
    let s' :=
      { s with history := guestHistory preprocess s content sender primary ++ [guestReply name text reasoning] }
    match ← (finalizeRun s' preRunLen [] now later).attempt with
    | .ok _ => return (s', .answered)
    | .error e => return (s', .refused e)

/-! ## Compacting and rewinding -/

/-- `compact`, given what the agent's summary comes to and the name its archive was filed under. -/
def compact (s : Session μ) (prompt : Str) (summarize : List (HistoryEntry μ) → Str → Option Str)
    (archive : Option Str)
    (now : Str) : KvM μ (Session μ × Option Str) :=
  if prompt = [] then return (s, none)
  else if s.history.isEmpty then return (s, none)
  else
    match summarize s.history prompt, s.handle, archive with
    | some summary, some handle, some name => do
      match ← (appendSessionCompact handle name).attempt with
      | .error _ => return (s, none)
      | .ok _ =>
        let s' := { s with history := [.user summary], summary := some summary }
        let _ ← (updateSessionMeta handle (s'.sessionMeta now)).attempt
        return (s', some summary)
    | _, _, _ => return (s, none)

end

section
variable [Wire μ]

/-- The scan of `truncate` from the end: the position of the `turns`-th user entry. -/
def boundaryFrom (turns : Nat) : List (HistoryEntry μ × Nat) → Nat → Option Nat
  | [], _ => none
  | (entry, i) :: rest, seen =>
    if entry.role = .user ∧ entry.autoInjected = false then
      if seen + 1 = turns then some i else boundaryFrom turns rest (seen + 1)
    else boundaryFrom turns rest seen

def boundary (history : List (HistoryEntry μ)) (turns : Nat) : Option Nat :=
  boundaryFrom turns history.zipIdx.reverse 0

/-- `truncate`. The session keeps its shorter history also when the store refuses. -/
def truncate (s : Session μ) (turns : Nat) : KvM μ (Session μ × Except Error Nat) :=
  match boundary s.history turns with
  | none => return (s, .ok s.history.length)
  | some b =>
    let s' := { s with history := s.history.take b }
    match s.handle with
    | none => return (s', .ok s'.history.length)
    | some handle => do
      let archiveOffset := if s.summary.isSome then 1 else 0
      if s'.history.length < archiveOffset then return (s', .error .panic)
      else
        let keep := ((s'.history.drop archiveOffset).filter fun e => !e.autoInjected).length
        match ← (truncateSessionMessages handle keep).attempt with
        | .ok _ => return (s', .ok s'.history.length)
        | .error e => return (s', .error e)

/-! ## Opening -/

/-- `resumed_history`, given the contents of the archives by name. -/
def resumedHistory (archives : Str → Option Str) (archive : Option Str)
    (history : List (HistoryEntry μ)) :
    List (HistoryEntry μ) :=
  match archive with
  | none => history
  | some name =>
    .user ((archives name).getD ("[archived context unavailable: ".toList ++ name ++ "]".toList)) :: history

def load (archives : Str → Option Str) (known : AgentId → Bool) (handle : Str) (id : Nat) (now : Str) :
    KvM μ (Option (Session μ)) := do
  match ← loadSession handle with
  | none => return none
  | some snapshot =>
    if known snapshot.sessionMeta.agent then
      return some
        { (Session.new id snapshot.sessionMeta.agent snapshot.sessionMeta.createdBy now : Session μ) with
          history := resumedHistory archives snapshot.archive snapshot.history
          title := snapshot.sessionMeta.title
          createdAtIso := if snapshot.sessionMeta.createdAt = [] then now
            else snapshot.sessionMeta.createdAt
          summary := snapshot.sessionMeta.summary
          root := snapshot.sessionMeta.root
          handle := some handle }
    else .fail (.bail ("agent '".toList ++ snapshot.sessionMeta.agent.toStr ++
      "' not found".toList))

/-- `Sessions::open` on a handle that is not live: load it, or create it. The store
and the session read the clock one after the other. -/
def openSession (archives : Str → Option Str) (known : AgentId → Bool) (handle : Str) (id : Nat)
    (agent : AgentId)
    (createdBy : Str) (root : Option Str) (now later : Str) : KvM μ (Session μ) := do
  match ← load archives known handle id later with
  | some session => return session
  | none =>
    if known agent then
      createSession handle agent createdBy root now
      return { (Session.new id agent createdBy later : Session μ) with handle := some handle, root }
    else .fail (.bail (notRegistered agent))

end

end Crabtalk.Runtime

import Crabtalk.Runtime.Sender
import Crabtalk.Store.Views

/-! # The history a person is shown

A client reads a stored session twice: as the context an opened session replays
to the model, and as the conversation it shows. The two are put together from
the same records, each in its own way.
-/

open Basis
open Crabtalk.Store

namespace Crabtalk.Runtime

variable {μ : Type}

structure ConversationMessage where
  role : Role
  content : Str
  deriving DecidableEq

structure ConversationHistory where
  title : Str
  agentId : Str
  agentName : Str
  messages : List ConversationMessage
  deriving DecidableEq

section
variable [Wire μ]

/-- Everything but the system messages. The filter of the source names tool messages too, a role no
entry has. -/
def spoken (history : List (HistoryEntry μ)) : List (HistoryEntry μ) :=
  history.filter fun e => e.role ≠ .system

def shown (e : HistoryEntry μ) : ConversationMessage := ⟨e.role, Wire.text e.message⟩

def prependArchive (archives : Str → Except Error (Option Str)) (archive : Option Str)
    (history : List (HistoryEntry μ)) :
    Except Error (List (HistoryEntry μ)) :=
  match archive with
  | none => .ok history
  | some name =>
    match archives name with
    | .error e => .error e
    | .ok none => .ok history
    | .ok (some summary) => .ok (.user summary :: history)

/-- `load_conversation_history`, given what memory answers for the name of an archive and the names
of the agents. -/
def loadConversationHistory (archives : Str → Except Error (Option Str))
    (agentNames : AgentId → Option Str) (slug : Str) :
    KvM μ ConversationHistory := do
  match ← loadSession slug with
  | none => .fail (.bail ("session not found: ".toList ++ slug))
  | some snapshot =>
    match prependArchive archives snapshot.archive snapshot.history with
    | .error e => .fail e
    | .ok messages =>
      return {
        title := snapshot.sessionMeta.title
        agentId := snapshot.sessionMeta.agent.toStr
        agentName := (agentNames snapshot.sessionMeta.agent).getD []
        messages := (spoken messages).map shown }

def archiveContents (archives : Str → Except Error (Option Str)) (name : Str) : Option Str :=
  match archives name with
  | .ok content => content
  | .error _ => none

def conversation (history : List (HistoryEntry μ)) : List ConversationMessage :=
  (history.filter fun e => e.role ≠ .system ∧ Wire.hasToolResult e.message = false).map shown

def ArchiveReads (archives : Str → Except Error (Option Str)) : Option Str → Prop
  | none => True
  | some name => ∃ content, archives name = .ok (some content)

/-- The one tool result among the entries is taken for `m`, and so is everything in front of it. -/
def StandsIn (m : ConversationMessage) : List (HistoryEntry μ) → Prop
  | [] => False
  | e :: rest =>
    shown e = m ∧ if Wire.hasToolResult e.message then ∀ e ∈ rest, Wire.hasToolResult e.message =
      false else StandsIn m rest

def unavailable (name : Str) : HistoryEntry μ :=
  .user ("[archived context unavailable: ".toList ++ name ++ "]".toList)

/-- The archive is read and no tool result is stored; or it is not there, and a tool result is shown
in the place of its placeholder. -/
def ShowsReplayed (archives : Str → Except Error (Option Str)) (c : SessionSnapshot μ) : Prop :=
  (ArchiveReads archives c.archive ∧ ∀ e ∈ spoken c.history, Wire.hasToolResult e.message = false) ∨
    ∃ name, c.archive = some name ∧ archives name = .ok none ∧
    StandsIn (shown (unavailable name : HistoryEntry μ)) (spoken c.history)

/-! ## The two readings -/

theorem conversation_spoken (history : List (HistoryEntry μ)) :
    conversation history = ((spoken history).filter fun e => !Wire.hasToolResult e.message).map shown := by
  unfold conversation spoken
  rw [List.filter_filter]
  congr 1
  refine List.filter_congr fun e _ => ?_
  simp [Bool.and_comm]

theorem shown_filter_iff {l : List (HistoryEntry μ)} :
    l.map shown = (l.filter fun e => !Wire.hasToolResult e.message).map shown ↔
    ∀ e ∈ l, Wire.hasToolResult e.message = false := by
  constructor
  · intro he e hmem
    have hlen := congrArg List.length he
    rw [List.length_map, List.length_map] at hlen
    have hall := List.length_filter_eq_length_iff.mp hlen.symm e hmem
    simpa using hall
  · intro hall
    rw [List.filter_eq_self.mpr fun e he => by simp [hall e he]]

theorem standsIn_iff {m : ConversationMessage} {l : List (HistoryEntry μ)} :
    l.map shown = m :: (l.filter fun e => !Wire.hasToolResult e.message).map shown ↔
    StandsIn m l := by
  induction l with
  | nil => simp [StandsIn]
  | cons e rest ih =>
    rw [StandsIn, List.map_cons]
    by_cases ht : Wire.hasToolResult e.message = true
    · rw [if_pos ht, List.filter_cons_of_neg (by simp [ht]), List.cons.injEq, shown_filter_iff]
    · rw [if_neg ht, List.filter_cons_of_pos (by simp [ht]), List.cons.injEq, List.map_cons]
      refine and_congr_right fun he => ?_
      rw [he]
      exact ih

section
variable {kv : Kv μ} {h : Str} {archives : Str → Except Error (Option Str)}

omit [Wire μ] in
theorem answer_bind {α β : Type} {p : KvM μ α} {f : α → KvM μ β} {r : Except Error α}
    (hp : Reads p kv r) :
    answer (p >>= f) kv = r >>= fun a => answer (f a) kv := by
  unfold Reads at hp
  unfold answer
  rw [Prog.interp_bind, hp]
  cases r <;> rfl

theorem load_some {known : AgentId → Bool} {prefixes : Str → Option Str} {id : Nat} {now : Str}
    {s : Session μ}
    (hs : answer (load prefixes known h id now) kv = .ok (some s)) :
    ∃ c, sessionView h kv = .ok (some c) ∧
    s.history = resumedHistory prefixes c.archive c.history := by
  unfold load at hs
  rw [answer_bind reads_loadSession] at hs
  cases hv : sessionView h kv with
  | error e =>
    rw [hv] at hs
    cases hs
  | ok c =>
    rw [hv] at hs
    cases c with
    | none => cases hs
    | some c =>
      refine ⟨c, rfl, ?_⟩
      change answer (if known c.sessionMeta.agent then _ else _) kv = _ at hs
      split at hs
      · cases hs
        rfl
      · cases hs

theorem shown_history {agentNames : AgentId → Option Str} {c : SessionSnapshot μ}
    (hv : sessionView h kv = .ok (some c))
    (messages : List ConversationMessage) :
    (∃ ch, answer (loadConversationHistory archives agentNames h) kv = .ok ch ∧
      ch.messages = messages) ↔
      ∃ history, prependArchive archives c.archive c.history = .ok history ∧
        (spoken history).map shown = messages := by
  unfold loadConversationHistory
  rw [answer_bind reads_loadSession, hv]
  change (∃ ch, answer
    (match prependArchive archives c.archive c.history with | .error e => _ | .ok messages => _)
    kv = _ ∧ _) ↔ _
  cases prependArchive archives c.archive c.history with
  | error e => exact iff_of_false (fun ⟨_, hch, _⟩ => by cases hch) fun ⟨_, hc, _⟩ => by cases hc
  | ok history =>
    constructor
    · intro ⟨ch, hch, hm⟩
      cases hch
      exact ⟨history, rfl, hm⟩
    · intro ⟨history', hc, hm⟩
      cases hc
      exact ⟨_, rfl, hm⟩

/-- What a person is shown of a stored session is the conversation that opening it replays
exactly if its archive is read and it has no tool result, or one tool result is taken for
the placeholder. -/
theorem shown_is_replayed (hplain : ∀ text, Wire.hasToolResult (Wire.user text : μ) = false)
    {agentNames : AgentId → Option Str}
    {known : AgentId → Bool} {id : Nat} {now : Str} {s : Session μ}
    (hs : answer (load (archiveContents archives) known h id now) kv = .ok (some s)) :
    (∃ ch, answer (loadConversationHistory archives agentNames h) kv = .ok ch ∧
      ch.messages = conversation s.history) ↔
      ∃ c, sessionView h kv = .ok (some c) ∧ ShowsReplayed archives c := by
  obtain ⟨c, hv, hhist⟩ := load_some hs
  have huser : ∀ text, (HistoryEntry.user text : HistoryEntry μ).role = .user := by
    intro text
    simp [HistoryEntry.role, HistoryEntry.user, HistoryEntry.fromMessage, Wire.role_user]
  have hopening : ∀ text, conversation (HistoryEntry.user text :: c.history) =
      shown (HistoryEntry.user text : HistoryEntry μ) :: conversation c.history := by
    intro text
    unfold conversation
    rw [List.filter_cons_of_pos, List.map_cons]
    exact decide_eq_true ⟨by rw [huser]; exact Role.noConfusion, hplain text⟩
  have hplainly : (spoken c.history).map shown = conversation c.history ↔
      ∀ e ∈ spoken c.history, Wire.hasToolResult e.message = false := by
    rw [conversation_spoken]
    exact shown_filter_iff
  have hview : (∃ c', sessionView h kv = .ok (some c') ∧ ShowsReplayed archives c') ↔
      ShowsReplayed archives c := by
    rw [hv]
    simp
  rw [shown_history hv, hhist, hview]
  unfold ShowsReplayed resumedHistory prependArchive
  -- Where an archive is recorded, it is read, is not there, or cannot be read.
  cases ha : c.archive with
  | none => simpa [ArchiveReads] using hplainly
  | some name =>
    simp only
    rw [hopening]
    cases hc : archives name with
    | error e => simp [ArchiveReads, hc]
    | ok content =>
      cases content with
      | none =>
        have hstands : (spoken c.history).map shown = shown (unavailable name : HistoryEntry μ) ::
            conversation c.history ↔
            StandsIn (shown (unavailable name : HistoryEntry μ)) (spoken c.history) := by
          rw [conversation_spoken]
          exact standsIn_iff
        have hlost : archiveContents archives name = none := by simp [archiveContents, hc]
        rw [hlost]
        constructor
        · rintro ⟨history, hh, hm⟩
          cases hh
          exact .inr ⟨name, rfl, hc, hstands.mp hm⟩
        · intro hr
          rcases hr with ⟨⟨content, hcontent⟩, -⟩ | ⟨name', hn, -, hm⟩
          · rw [hc] at hcontent
            cases hcontent
          · cases hn
            exact ⟨_, rfl, hstands.mpr hm⟩
      | some summary =>
        have hfound : archiveContents archives name = some summary := by simp [archiveContents, hc]
        have hspoken : spoken (HistoryEntry.user summary :: c.history) = .user summary ::
            spoken c.history :=
          List.filter_cons_of_pos (by simp [huser])
        rw [hfound]
        simpa [ArchiveReads, hc, hspoken] using hplainly

end

/-! ## A tool result and a lost archive -/

section
open Plain

def lookedUp : KvM Talk Unit := do
  createSession "chat".toList ⟨0⟩ "user".toList none "t0+00:00".toList
  appendSessionMessages "chat".toList
    [.user "look".toList, .fromMessage (.asked [⟨"1".toList, "ls".toList, []⟩]),
      .fromMessage (.answered "1".toList "ls".toList "notes".toList),
      .assistant "done".toList none] "t1+00:00".toList

def lookedUpLongAgo : KvM Talk Unit := do
  lookedUp
  appendSessionCompact "chat".toList "chat-1".toList

/-- A question is answered at once, and the session compacted; another one follows. -/
def askedAgain : KvM Talk Unit := do
  createSession "chat".toList ⟨0⟩ "user".toList none "t0+00:00".toList
  appendSessionMessages "chat".toList [.user "hi".toList, .assistant "hello".toList none]
    "t1+00:00".toList
  appendSessionCompact "chat".toList "chat-1".toList
  appendSessionMessages "chat".toList [.user "and you?".toList, .assistant "fine".toList none]
    "t2+00:00".toList

def nothingKept (_ : Str) : Except Error (Option Str) := .ok none

def greetingKept (_ : Str) : Except Error (Option Str) := .ok (some "they greet each other".toList)

def showsChat (archives : Str → Except Error (Option Str)) (kv : Kv Talk) : Option Bool :=
  match answer (load (archiveContents archives) (fun _ => true) "chat".toList 1
    "t3+00:00".toList) kv,
    answer (loadConversationHistory archives (fun _ => none) "chat".toList) kv with
  | .ok (some s), .ok ch => some (decide (ch.messages = conversation s.history))
  | _, _ => none

section
variable {archives : Str → Except Error (Option Str)} {kv : Kv Talk} {p : KvM Talk Unit} {b : Bool}

theorem showsChat_some (hb : showsChat archives kv = some b) : ∃ s ch,
    answer (load (archiveContents archives) (fun _ => true) "chat".toList 1 "t3+00:00".toList) kv =
    .ok (some s) ∧
      answer (loadConversationHistory archives (fun _ => none) "chat".toList) kv = .ok ch ∧
      decide (ch.messages = conversation s.history) = b := by
  unfold showsChat at hb
  split at hb
  · rename_i s ch hs hch
    exact ⟨s, ch, hs, hch, Option.some.inj hb⟩
  · cases hb

theorem runs_showsChat (hp : (match Prog.interp memory p (∅ : Kv Talk) with
      | .ok _ kv => decide (showsChat archives kv = some b)
      | .error _ _ => false) = true) :
    ∃ kv, Prog.Runs False memory p (∅ : Kv Talk) (.ok ()) kv ∧ showsChat archives kv = some b := by
  cases hi : Prog.interp memory p (∅ : Kv Talk) with
  | error e kv =>
    rw [hi] at hp
    cases hp
  | ok u kv =>
    rw [hi] at hp
    exact ⟨kv, Prog.runs_of_interp False hi, of_decide_eq_true hp⟩

end

/-- Behind its archive, a session without tools is shown as it is replayed. -/
theorem shown_is_replayed_instance : ∃ (kv : Kv Talk) (s : Session Talk) (ch : ConversationHistory),
    answer (load (archiveContents greetingKept) (fun _ => true) "chat".toList 1 "t3+00:00".toList)
    kv = .ok (some s) ∧
    answer (loadConversationHistory greetingKept (fun _ => none) "chat".toList) kv = .ok ch ∧
    ch.messages = conversation s.history ∧
    ∃ c, sessionView "chat".toList kv = .ok (some c) ∧ ShowsReplayed greetingKept c := by
  obtain ⟨kv, -, hb⟩ : ∃ kv, Prog.Runs False memory askedAgain (∅ : Kv Talk) (.ok ()) kv ∧
      showsChat greetingKept kv = some true :=
    runs_showsChat (by decide +kernel)
  obtain ⟨s, ch, hs, hch, hsame⟩ := showsChat_some hb
  have hmessages := of_decide_eq_true hsame
  exact ⟨kv, s, ch, hs, hch, hmessages,
    (shown_is_replayed (fun _ => rfl) hs).mp ⟨ch, hch, hmessages⟩⟩

/-- What is shown after the program, of a session whose archive is lost, is not what is replayed. -/
def ShownOtherwise (p : KvM Talk Unit) : Prop :=
  ∃ (kv : Kv Talk) (s : Session Talk) (ch : ConversationHistory), Prog.Runs False memory p
    (∅ : Kv Talk) (.ok ()) kv ∧
    answer (load (archiveContents nothingKept) (fun _ => true) "chat".toList 1 "t3+00:00".toList)
    kv = .ok (some s) ∧
    answer (loadConversationHistory nothingKept (fun _ => none) "chat".toList) kv = .ok ch ∧
    ch.messages ≠ conversation s.history

theorem shownOtherwise_of {p : KvM Talk Unit} (hp : (match Prog.interp memory p (∅ : Kv Talk) with
      | .ok _ kv => decide (showsChat nothingKept kv = some false)
      | .error _ _ => false) = true) : ShownOtherwise p := by
  obtain ⟨kv, hr, hb⟩ := runs_showsChat hp
  obtain ⟨s, ch, hs, hch, hne⟩ := showsChat_some hb
  exact ⟨kv, s, ch, hr, hs, hch, of_decide_eq_false hne⟩

/-- The result of a tool is shown as a message of the user, and where the model reads that its
archive is gone nothing is shown. -/
theorem shown_otherwise : ShownOtherwise lookedUp ∧ ShownOtherwise lookedUpLongAgo :=
  ⟨shownOtherwise_of (by decide +kernel), shownOtherwise_of (by decide +kernel)⟩

end

end

end Crabtalk.Runtime

import Crabtalk.Backend.Files
import Crabtalk.Basis.Outline
import Crabtalk.Store.Isolation

/-!
# Sessions, one directory each

Metadata, messages, and the trace. What the clock reads is an argument.
-/

open Basis

namespace Crabtalk.Backend

open Store

/-- What the backend takes from the JSON library, and the class of spaces. An
entry is written as an object on one line; what is read has the outline of a
document. -/
class FileStd (μ : Type) where
  entryJson : HistoryEntry μ → Bytes
  readEntry : Bytes → Option (HistoryEntry μ)
  metaJson : SessionMeta → Bytes
  readMeta : Bytes → Option SessionMeta
  eventJson : EventLine → Bytes
  isWhitespace : Char → Bool
  readEntry_entryJson : ∀ e, readEntry (entryJson e) = some e.persist
  readMeta_metaJson : ∀ m, readMeta (metaJson m) = some m
  object_entryJson : ∀ e, Outline.Object (entryJson e)
  newline_entryJson : ∀ e, newline ∉ entryJson e
  outline_of_readEntry : ∀ bytes e, readEntry bytes = some e →
    Outline.scan .start bytes = some .done

/-! ## Where a session is -/

def sessionsDir : FilePath := [.normal "sessions".toList]

def sessionDir (handle : Str) : FilePath := sessionsDir ++ components (encode handle)

def metaPath (handle : Str) : FilePath := sessionDir handle ++ [.normal "meta.json".toList]

def messagesPath (handle : Str) : FilePath := sessionDir handle ++ [.normal "messages.jsonl".toList]

def eventsPath (handle : Str) : FilePath := sessionDir handle ++ [.normal "events.jsonl".toList]

def archivePath (handle : Str) : FilePath := sessionDir handle ++ [.normal "archive".toList]

def openStore : FileM Unit :=
  forM ["agents", "sessions", "memory", "skills", "harnesses"] fun dir =>
    createDirAll [.normal dir.toList]

/-! ## Operations -/

section
variable {μ : Type} [FileStd μ]

def sessionMeta (handle : Str) : FileM (Option SessionMeta) :=
  readJson (FileStd.readMeta μ) (metaPath handle)

def messages (handle : Str) : FileM (List (HistoryEntry μ)) :=
  readLines FileStd.readEntry (messagesPath handle)

def writeMeta (handle : Str) (m : SessionMeta) : FileM Unit :=
  writeJson (FileStd.metaJson μ) (metaPath handle) m

def createSession (handle : Str) (agent : AgentId) (createdBy : Str) (root : Option Str)
    (now : Str) : FileM Unit :=
  writeMeta (μ := μ) handle
    { agent, createdBy, createdAt := now, title := [], updatedAt := now, messageCount := 0, summary := none, root }

def trim (text : Str) : Str :=
  ((text.dropWhile (FileStd.isWhitespace μ)).reverse.dropWhile (FileStd.isWhitespace μ)).reverse

def loadSession (handle : Str) : FileM (Option (SessionSnapshot μ)) := do
  match ← sessionMeta (μ := μ) handle with
  | none => return none
  | some m =>
    let history ← messages handle
    let archive ← (read (archivePath handle)).attempt
    let archive := match archive with
      | .ok bytes => (fromUtf8 bytes).map (trim (μ := μ))
      | .error _ => none
    return some ⟨m, history, archive⟩

def appendSessionMessages (handle : Str) (entries : List (HistoryEntry μ)) (now : Str) :
    FileM Unit := do
  if entries.isEmpty then pure ()
  else
    match ← sessionMeta (μ := μ) handle with
    | none => .fail (.bail ("session not found: ".toList ++ handle))
    | some m =>
      appendJson FileStd.entryJson (messagesPath handle) entries
      writeMeta (μ := μ) handle
        { m with messageCount := m.messageCount + entries.length, updatedAt := now }

def appendSessionEvents (handle : Str) (events : List EventLine) : FileM Unit :=
  appendJson (FileStd.eventJson μ) (eventsPath handle) events

def truncateSessionMessages (handle : Str) (keep : Nat) : FileM Unit := do
  match ← sessionMeta (μ := μ) handle with
  | none => pure ()
  | some m =>
    let history ← messages (μ := μ) handle
    let kept := min keep history.length
    writeLines FileStd.entryJson (messagesPath handle) (history.take kept)
    writeMeta (μ := μ) handle { m with messageCount := kept }

def appendSessionCompact (handle archive : Str) : FileM Unit := do
  truncateSessionMessages (μ := μ) handle 0
  write (archivePath handle) (utf8 archive)

def updateSessionMeta (handle : Str) (m : SessionMeta) : FileM Unit := do
  match ← sessionMeta (μ := μ) handle with
  | none => writeMeta (μ := μ) handle m
  | some stored => writeMeta (μ := μ) handle { m with messageCount := stored.messageCount }

end

def deleteSession (handle : Str) : FileM Bool := do
  match ← (removeDirAll (sessionDir handle)).attempt with
  | .ok _ => return true
  | .error _ => return false

def deleteConversation (slug : Str) : FileM Unit := do
  let deleted ← deleteSession slug
  if deleted then pure () else .fail (.bail ("session not found: ".toList ++ slug))

/-! ## Acts on a session -/

inductive FileAct (μ : Type)
  | op (op : SessionOp μ)
  | load
  | deleteConversation

section
variable {μ : Type} [FileStd μ]

def FileAct.exec (handle : Str) : FileAct μ → FileM Unit
  | .op (.create agent createdBy root now) => createSession (μ := μ) handle agent createdBy root now
  | .op (.append entries now) => appendSessionMessages handle entries now
  | .op (.events lines) => appendSessionEvents (μ := μ) handle lines
  | .op (.compact archive) => appendSessionCompact (μ := μ) handle archive
  | .op (.truncate keep) => truncateSessionMessages (μ := μ) handle keep
  | .op (.update m) => updateSessionMeta (μ := μ) handle m
  | .op .delete => do let _ ← deleteSession handle
  | .load => do let _ ← loadSession (μ := μ) handle
  | .deleteConversation => Backend.deleteConversation handle

end

end Crabtalk.Backend

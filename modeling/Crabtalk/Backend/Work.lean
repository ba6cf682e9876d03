import Crabtalk.Backend.Sessions
import Crabtalk.Basis.Footprint
import Crabtalk.Basis.Reachable

/-!
# The operations of a session

All that acting on a session ever asks of the file system, with what it asks
it to write.
-/

open Basis

namespace Crabtalk.Backend

open Store

inductive FsOp.Of (μ : Type) [FileStd μ] (dir : FilePath) : FsOp → Prop
  | read (path : FilePath) : Of μ dir (.read path)
  | createDir : Of μ dir (.createDirAll dir)
  | writeMeta (m : SessionMeta) :
      Of μ dir (.write (dir ++ [.normal "meta.tmp".toList]) (FileStd.metaJson μ m))
  | moveMeta : Of μ dir (.rename (dir ++ [.normal "meta.tmp".toList])
      (dir ++ [.normal "meta.json".toList]))
  | writeLog (log : List (HistoryEntry μ)) :
      Of μ dir (.write (dir ++ [.normal "messages.tmp".toList]) (lines FileStd.entryJson log))
  | moveLog : Of μ dir (.rename (dir ++ [.normal "messages.tmp".toList])
      (dir ++ [.normal "messages.jsonl".toList]))
  | append (entries : List (HistoryEntry μ)) :
      Of μ dir (.append (dir ++ [.normal "messages.jsonl".toList])
      (lines FileStd.entryJson entries))
  | events (events : List EventLine) :
      Of μ dir (.append (dir ++ [.normal "events.jsonl".toList])
      (lines (FileStd.eventJson μ) events))
  | archive (archive : Str) : Of μ dir (.write (dir ++ [.normal "archive".toList]) (utf8 archive))
  | delete : Of μ dir (.removeDirAll dir)

section
variable {μ : Type} [FileStd μ] {α : Type} {dir : FilePath}

abbrev Works (μ : Type) [FileStd μ] {α : Type} (dir : FilePath) (p : FileM α) : Prop :=
  Prog.Footprint disk (FsOp.Of μ dir) p

theorem works_readJson (decode : Bytes → Option α) (path : FilePath) :
    Works μ dir (readJson decode path) := by
  refine Prog.Footprint.bind (Prog.Footprint.attempt (.perform (.read path))) fun r => ?_
  cases r with
  | error e => trivial
  | ok bytes =>
    dsimp only
    split
    · trivial
    · trivial

theorem works_readLines (decode : Bytes → Option α) (path : FilePath) :
    Works μ dir (readLines decode path) := by
  refine Prog.Footprint.bind (Prog.Footprint.attempt (.perform (.read path))) fun r => ?_
  cases r with
  | error e => trivial
  | ok bytes => trivial

theorem works_replace {name : Str} {bytes : Bytes}
    (hwrite : FsOp.Of μ dir (.write (dir ++ [.normal (tmpName name)]) bytes))
    (hmove : FsOp.Of μ dir (.rename (dir ++ [.normal (tmpName name)]) (dir ++ [.normal name]))) :
    Works μ dir (replace (dir ++ [.normal name]) bytes) := by
  unfold replace
  rw [parent_concat, withExtension_concat]
  refine Prog.Footprint.bind (.perform .createDir) fun _ => ?_
  exact Prog.Footprint.bind (.perform hwrite) fun _ => .perform hmove

theorem works_appendJson {json : α → Bytes} {name : Str} {values : List α}
    (happend : FsOp.Of μ dir (.append (dir ++ [.normal name]) (lines json values))) :
    Works μ dir (appendJson json (dir ++ [.normal name]) values) := by
  unfold appendJson
  by_cases h : values.isEmpty = true
  · rw [if_pos h]
    trivial
  · rw [if_neg h, parent_concat]
    exact Prog.Footprint.bind (.perform .createDir) fun _ => .perform happend

theorem works_writeMeta (handle : Str) (m : SessionMeta) :
    Works μ (sessionDir handle) (writeMeta (μ := μ) handle m) :=
  works_replace (.writeMeta m) .moveMeta

theorem works_truncate (handle : Str) (keep : Nat) :
    Works μ (sessionDir handle) (truncateSessionMessages (μ := μ) handle keep) := by
  refine (works_readJson _ _).bind fun m => ?_
  cases m with
  | none => trivial
  | some m =>
    refine (works_readLines _ _).bind fun history => ?_
    exact (works_replace (.writeLog _) .moveLog).bind fun _ => works_writeMeta handle _

theorem works_loadSession (handle : Str) :
    Works μ (sessionDir handle) (loadSession (μ := μ) handle) := by
  refine (works_readJson _ _).bind fun m => ?_
  cases m with
  | none => trivial
  | some m =>
    refine (works_readLines _ _).bind fun history => ?_
    exact Prog.Footprint.bind (Prog.Footprint.attempt (.perform (.read _))) fun _ => trivial

theorem works_append (handle : Str) (entries : List (HistoryEntry μ)) (now : Str) :
    Works μ (sessionDir handle) (appendSessionMessages handle entries now) := by
  unfold appendSessionMessages
  by_cases h : entries.isEmpty = true
  · rw [if_pos h]
    trivial
  · rw [if_neg h]
    refine (works_readJson _ _).bind fun m => ?_
    cases m with
    | none => trivial
    | some m => exact (works_appendJson (.append entries)).bind fun _ => works_writeMeta handle _

theorem works_deleteSession (handle : Str) : Works μ (sessionDir handle) (deleteSession handle) := by
  refine Prog.Footprint.bind (Prog.Footprint.attempt (.perform .delete)) fun r => ?_
  cases r with
  | error e => trivial
  | ok _ => trivial

theorem works_exec (handle : Str) (act : FileAct μ) :
    Works μ (sessionDir handle) (act.exec handle) := by
  cases act with
  | op op =>
    cases op with
    | create agent createdBy root now => exact works_writeMeta handle _
    | append entries now => exact works_append handle entries now
    | events events => exact works_appendJson (.events events)
    | compact archive => exact (works_truncate handle 0).bind fun _ => .perform (.archive archive)
    | truncate keep => exact works_truncate handle keep
    | update m =>
      refine (works_readJson _ _).bind fun stored => ?_
      cases stored with
      | none => exact works_writeMeta handle _
      | some stored => exact works_writeMeta handle _
    | delete => exact (works_deleteSession handle).bind fun _ => trivial
  | load => exact (works_loadSession handle).bind fun _ => trivial
  | deleteConversation =>
    refine (works_deleteSession handle).bind fun deleted => ?_
    cases deleted
    · trivial
    · trivial

end

/-! ## Runs of a store -/

def emptyDisk : Disk where
  node loc := if loc = [] then some .dir else none
  root_dir := rfl
  parent_dir := by simp
  name_fits := by simp

/-- What a fresh store gets to, whoever acts on which session. -/
def Reached (μ : Type) [FileStd μ] (F : Prop) : Disk → Prop :=
  Reachable (fun t => Prog.Runs F disk openStore emptyDisk (.ok ()) t)
    fun t (a : Str × FileAct μ) t' => ∃ r, Prog.Runs F disk (a.2.exec a.1) t r t'

end Crabtalk.Backend

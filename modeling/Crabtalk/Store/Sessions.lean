import Crabtalk.Store.History
import Crabtalk.Store.Text

/-! # Persisted sessions and their message streams

The programs behind the session interface, as the operations they ask of the
store, in order. The clock is an argument: `now` is what it reads.
-/

open Basis

namespace Crabtalk.Store

class Chrono where
  IsTimestamp : Str → Prop
  slash_notMem : ∀ t, IsTimestamp t → '/' ∉ t

structure Weights where
  user : ℚ
  toolCall : ℚ
  titleBoost : ℚ
  summaryBoost : ℚ
  candidatesPerHit : Nat

def Weights.default : Weights := ⟨3 / 2, 13 / 10, 2, 3, 10⟩

structure SessionSnapshot (μ : Type) where
  sessionMeta : SessionMeta
  history : List (HistoryEntry μ)
  archive : Option Str
  deriving DecidableEq

/-! ## The keyspace -/

def pad12 (idx : Nat) : Str := (Nat.toDigits 10 idx).leftpad 12 '0'

def metaKey (handle : Str) : Str := key ["session".toList, handle, "meta".toList]

def archiveKey (handle : Str) : Str := key ["session".toList, handle, "archive".toList]

def messageKey (handle : Str) (idx : Nat) : Str :=
  key ["session".toList, handle, "msg".toList, pad12 idx]

def messagePrefix (handle : Str) : Str := keysUnder ["session".toList, handle, "msg".toList]

def eventKey (handle : Str) (idx : Nat) : Str :=
  key ["session".toList, handle, "evt".toList, pad12 idx]

def eventPrefix (handle : Str) : Str := keysUnder ["session".toList, handle, "evt".toList]

def sessionPrefix (handle : Str) : Str := keysUnder ["session".toList, handle]

def titleKey (handle : Str) : Str := key ["session".toList, handle, "meta".toList, "title".toList]

def summaryKey (handle : Str) : Str :=
  key ["session".toList, handle, "meta".toList, "summary".toList]

def sessionIndexKey (m : SessionMeta) (handle : Str) : Str :=
  key ["idx".toList, "sess".toList, m.agent.toStr, m.createdBy, m.createdAt, handle]

def indexPrefix : Option AgentId → Str
  | some a => keysUnder ["idx".toList, "sess".toList, a.toStr]
  | none => keysUnder ["idx".toList, "sess".toList]

section
variable {μ : Type}

def sessionMeta (handle : Str) : KvM μ (Option SessionMeta) :=
  getJson Value.asMeta .session (metaKey handle)

/-! ## Operations -/

def createSession (handle : Str) (agent : AgentId) (createdBy : Str) (root : Option Str)
    (now : Str) : KvM μ Unit := do
  let m : SessionMeta :=
    { agent, createdBy, createdAt := now, title := [], updatedAt := now, messageCount := 0, summary := none, root }
  put .session (metaKey handle) (.sessionMeta m)
  put .session (sessionIndexKey m handle) (.raw handle)

/-- The reading loop of `load_session`: an entry that is gone or unreadable is skipped. -/
def loadHistory : List Str → KvM μ (List (HistoryEntry μ))
  | [] => return []
  | key :: keys => do
    match ← (getJson Value.asEntry .session key).attempt with
    | .ok (some entry) => return entry :: (← loadHistory keys)
    | .ok none => loadHistory keys
    | .error _ => loadHistory keys

def loadSession (handle : Str) : KvM μ (Option (SessionSnapshot μ)) := do
  match ← sessionMeta handle with
  | none => return none
  | some m =>
    let archive ← getJson Value.asText .session (archiveKey handle)
    let keys ← scanKeys .session (messagePrefix handle)
    let history ← loadHistory keys
    return some ⟨m, history, archive⟩

def indexedHandles (agent : Option AgentId) : KvM μ (List Str) := do
  let rows ← scan .session (indexPrefix agent)
  return rows.filterMap fun row => row.2.asRaw

def listedMetas : List Str → KvM μ (List (Str × SessionMeta))
  | [] => return []
  | handle :: handles => do
    match ← sessionMeta handle with
    | some m => return (handle, m) :: (← listedMetas handles)
    | none => listedMetas handles

def recency (a b : Str × SessionMeta) : Ordering :=
  ((compare b.2.updatedAt a.2.updatedAt).then (compare b.2.createdAt a.2.createdAt)).then
    (compare a.1 b.1)

def listSessions : KvM μ (List (Str × SessionMeta)) := do
  let out ← listedMetas (← indexedHandles none)
  return out.insertionSort fun a b => recency a b ≠ .gt

def appendEvents (handle : Str) : Nat → List EventLine → KvM μ Unit
  | _, [] => pure ()
  | idx, event :: events => do
    put .session (eventKey handle idx) (.event event)
    appendEvents handle (idx + 1) events

def appendSessionEvents (handle : Str) (events : List EventLine) : KvM μ Unit := do
  let idx := (← scanKeys .session (eventPrefix handle)).length
  appendEvents handle idx events

def truncateSessionMessages (handle : Str) (keep : Nat) : KvM μ Unit := do
  match ← sessionMeta handle with
  | none => pure ()
  | some m =>
    let keys ← scanKeys .session (messagePrefix handle)
    forM (keys.drop keep) fun key => do
      dropText .messages key
      let _ ← delete .session key
    put .session (metaKey handle) (.sessionMeta { m with messageCount := min keep keys.length })

def appendSessionCompact (handle archive : Str) : KvM μ Unit := do
  truncateSessionMessages handle 0
  put .session (archiveKey handle) (.text archive)

def deleteKeys : List Str → Bool → KvM μ Bool
  | [], existed => return existed
  | key :: keys, existed => do
    let was ← delete .session key
    deleteKeys keys (existed || was)

def deleteSession (handle : Str) : KvM μ Bool := do
  dropTextPrefix .messages (sessionPrefix handle)
  dropTextPrefix .sessionMeta (sessionPrefix handle)
  match ← sessionMeta handle with
  | some m =>
    let _ ← delete .session (sessionIndexKey m handle)
  | none => pure ()
  deleteKeys (← scanKeys .session (sessionPrefix handle)) false

def deleteAll : List Str → Nat → KvM μ Nat
  | [], purged => return purged
  | handle :: handles, purged => do
    if ← deleteSession handle then deleteAll handles (purged + 1) else deleteAll handles purged

def deleteSessionsOf (agent : AgentId) : KvM μ Nat := do
  deleteAll (← indexedHandles (some agent)) 0

def roleWeight (role : Str) : ℚ :=
  if role = "user".toList then Weights.default.user
  else if role = "assistant_tool".toList then Weights.default.toolCall
  else 1

variable [TextStd]

def indexMetaText (handle : Str) (m : SessionMeta) : KvM μ Unit := do
  if m.title.isEmpty then dropText .sessionMeta (titleKey handle)
  else indexText .sessionMeta (titleKey handle) m.title 1
  match m.summary with
  | none | some [] => dropText .sessionMeta (summaryKey handle)
  | some summary => indexText .sessionMeta (summaryKey handle) summary 1

def metaText (key text : Str) : KvM μ Unit :=
  if text.isEmpty then dropText .sessionMeta key else indexText .sessionMeta key text 1

theorem indexMetaText_eq (h : Str) (m : SessionMeta) :
    (indexMetaText h m : KvM μ Unit) = metaText (titleKey h) m.title >>= fun _ =>
    metaText (summaryKey h) (m.summary.getD []) := by
  unfold indexMetaText metaText
  by_cases ht : m.title.isEmpty = true
  · rw [if_pos ht, if_pos ht]
    cases m.summary with
    | none => rfl
    | some summary => cases summary <;> rfl
  · rw [if_neg ht, if_neg ht]
    cases m.summary with
    | none => rfl
    | some summary => cases summary <;> rfl

/-- The stored message count wins over the caller's. -/
def updateSessionMeta (handle : Str) (m : SessionMeta) : KvM μ Unit := do
  let m := match ← sessionMeta handle with
    | some stored => { m with messageCount := stored.messageCount }
    | none => m
  put .session (metaKey handle) (.sessionMeta m)
  indexMetaText handle m

variable [Wire μ]

/-- The writing loop of `append_session_messages`. -/
def appendEntries (handle : Str) : Nat → List (HistoryEntry μ) → KvM μ Unit
  | _, [] => pure ()
  | idx, entry :: entries => do
    let key := messageKey handle idx
    put .session key (.entry entry.persist)
    match entry.indexable with
    | some (body, role) => indexText .messages key body (roleWeight role)
    | none => pure ()
    appendEntries handle (idx + 1) entries

def appendSessionMessages (handle : Str) (entries : List (HistoryEntry μ)) (now : Str) :
    KvM μ Unit := do
  if entries.isEmpty then pure ()
  else
    match ← sessionMeta handle with
    | none => .fail (.bail ("session not found: ".toList ++ handle))
    | some m =>
      appendEntries handle m.messageCount entries
      put .session (metaKey handle)
        (.sessionMeta { m with messageCount := m.messageCount + entries.length, updatedAt := now })

end

/-! ## What a search hit points at -/

def stripPlus : Str → Str
  | '+' :: rest => rest
  | s => s

def parseUsize (s : Str) : Option Nat :=
  if stripPlus s ≠ [] ∧ (stripPlus s).all Char.isDigit ∧
    Nat.ofDigitChars 10 (stripPlus s) 0 < 2 ^ 64 then
    some (Nat.ofDigitChars 10 (stripPlus s) 0)
  else none

def rsplit (key : Str) : List Str := (key.splitOn '/').reverse

def parseMessageKey (key : Str) : Option (Str × Nat) :=
  match rsplit key with
  | last :: rest => do
    let idx ← parseUsize last
    match rest with
    | ['m', 's', 'g'] :: handle :: _ => some (handle, idx)
    | _ => none
  | [] => none

/-- One hit, a key and a score, against the best message of its session so far. -/
def keepBest (best : Std.ExtTreeMap Str (Nat × ℚ)) (hit : Str × ℚ) : Std.ExtTreeMap Str (Nat × ℚ) :=
  match parseMessageKey hit.1 with
  | none => best
  | some (handle, idx) =>
    match best[handle]? with
    | some entry => if entry.2 < hit.2 then best.insert handle (idx, hit.2) else best
    | none => best.insert handle (idx, hit.2)

def bestMatches (hits : List (Str × ℚ)) : Std.ExtTreeMap Str (Nat × ℚ) := hits.foldl keepBest ∅

def msgIdx (idx : Nat) : Nat := idx % 2 ^ 32

def metaBoost (key : Str) : Option (Str × ℚ) :=
  match rsplit key with
  | last :: rest => do
    let boost ← if last = "title".toList then some Weights.default.titleBoost
      else if last = "summary".toList then some Weights.default.summaryBoost
      else none
    match rest with
    | ['m', 'e', 't', 'a'] :: handle :: _ => some (handle, boost)
    | _ => none
  | [] => none

end Crabtalk.Store

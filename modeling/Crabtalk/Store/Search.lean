import Crabtalk.Store.Agents
import Crabtalk.Store.Messages

/-! # Session search

What ranks a match is floating-point arithmetic, and taken as it comes: `weigh`
is what a posting adds to the score of its document and `plus` how scores add.
-/

open Basis

namespace Crabtalk.Store

class SearchStd (μ : Type) where
  isWhitespace : Char → Bool
  charLowercase : Char → Str
  slash_charLowercase : ∀ c, '/' ∈ charLowercase c → c = '/'
  weigh : (df docs tf len totalLen : Nat) → (weight : ℚ) → ℚ
  plus : ℚ → ℚ → ℚ
  toolName : μ → Option Str

structure Term where
  text : Str
  isPrefix : Bool
  deriving DecidableEq

structure SearchOptions where
  limit : Nat
  contextBefore : Nat
  contextAfter : Nat
  agentFilter : Option AgentId
  senderFilter : Option Str

structure WindowItem where
  role : Role
  msgIdx : Nat
  snippet : Str
  truncated : Bool
  toolName : Option Str

structure SessionHit where
  sessionHandle : Str
  msgIdx : Nat
  score : ℚ
  title : Str
  agent : AgentId
  agentName : Str
  sender : Str
  createdAt : Str
  updatedAt : Str
  window : List WindowItem

def maxSnippetBytes : Nat := 1024

def maxWindowItems : Nat := 16

def maxHitsPerQuery : Nat := 20

def parseU32 (s : Str) : Option Nat :=
  if stripPlus s ≠ [] ∧ (stripPlus s).all Char.isDigit ∧
    Nat.ofDigitChars 10 (stripPlus s) 0 < 2 ^ 32 then
    some (Nat.ofDigitChars 10 (stripPlus s) 0)
  else none

theorem parseU32_toDigits {n : Nat} (h : n < 2 ^ 32) : parseU32 (Nat.toDigits 10 n) = some n := by
  have hdigit : ∀ c ∈ Nat.toDigits 10 n, c.isDigit = true := fun c hc =>
      Nat.isDigit_of_mem_toDigits (by decide) (by decide) hc
  have hstrip : stripPlus (Nat.toDigits 10 n) = Nat.toDigits 10 n := by
    unfold stripPlus
    split
    · rename_i rest he
      exact absurd (hdigit '+' (by rw [he]; exact List.mem_cons_self)) (by decide)
    · rfl
  rw [parseU32, hstrip, Nat.ofDigitChars_ten_toDigits,
    if_pos ⟨Nat.toDigits_ne_nil, List.all_eq_true.mpr hdigit, h⟩]

def takeBytes : Nat → Str → Str
  | _, [] => []
  | n, c :: rest => if c.utf8Size ≤ n then c :: takeBytes (n - c.utf8Size) rest else []

def HistoryEntry.snippet {μ : Type} [Wire μ] (e : HistoryEntry μ) : Str × Bool :=
  let raw := Wire.text e.message
  if (raw.map Char.utf8Size).sum ≤ maxSnippetBytes then (raw, false)
    else (takeBytes maxSnippetBytes raw, true)

/-! ## Queries -/

section
variable (μ : Type) [TextStd] [SearchStd μ]

def normalize (word : Str) : Str :=
  (word.filter TextStd.isAlphanumeric).flatMap (SearchStd.charLowercase μ)

def trimStars (raw : Str) : Str := (raw.reverse.dropWhile (· = '*')).reverse

def queryTerm (raw : Str) : Term :=
  if raw.getLast? = some '*' then ⟨normalize μ (trimStars raw), true⟩
  else ⟨(tokenize (trimStars raw)).headD [], false⟩

def queryTerms (query : Str) : List Term :=
  ((query.splitOnP (SearchStd.isWhitespace μ)).filter fun word => !word.isEmpty).foldl
    (fun out raw =>
      let term := queryTerm μ raw
      if term.text.isEmpty || out.contains term then out else out ++ [term])
    []

end

def Term.Matches (term : Term) (word : Str) : Prop :=
  if term.isPrefix then term.text <+: word else word = term.text

/-! ## Ranked matches -/

def termScope (index : TextIndex) (term : Term) : Str :=
  if term.isPrefix then key ["idx".toList, "text".toList, index.asStr, "term".toList, term.text]
  else keysUnder ["idx".toList, "text".toList, index.asStr, "term".toList, term.text]

def findTermBoundary (k scope : Str) (isPrefix : Bool) : Option Nat :=
  if isPrefix then ((k.drop scope.length).idxOf? '/').map fun pos => scope.length + pos + 1
    else some scope.length

section
variable {μ : Type}

def readPosting (scope : Str) (isPrefix : Bool) (row : Str × Value μ) : Option (Str × Nat) := do
  let cut ← findTermBoundary row.1 scope isPrefix
  let tf ← row.2.asRaw.bind parseU32
  return (row.1.drop cut, tf)

def postings (index : TextIndex) (term : Term) : KvM μ (List (Str × Nat)) := do
  let rows ← scan .text (termScope index term)
  return rows.filterMap (readPosting (termScope index term) term.isPrefix)

abbrev Scores := Std.ExtTreeMap Str ℚ compare

abbrev Lens := Std.ExtTreeMap Str (Nat × ℚ) compare

def lens (index : TextIndex) (key : Str) (known : Lens) : KvM μ ((Nat × ℚ) × Lens) := do
  match known[key]? with
  | some l => return (l, known)
  | none =>
    let doc := (← getJson Value.asDoc .text (docKey index key)).getD ⟨0, 0, []⟩
    return ((doc.len, doc.weight), known.insert key (doc.len, doc.weight))

variable [SearchStd μ]

def scoreDocs (index : TextIndex) (stats : Stats) (df : Nat) : List (Str × Nat) → Scores × Lens →
    KvM μ (Scores × Lens)
  | [], acc => return acc
  | (key, tf) :: rest, (scores, known) => do
    let (l, known) ← lens index key known
    let add := SearchStd.weigh μ df stats.docs tf l.1 stats.totalLen l.2
    scoreDocs index stats df rest (scores.insert key (SearchStd.plus μ (scores[key]?.getD 0) add), known)

def scoreTerms (index : TextIndex) (stats : Stats) : List Term → Scores × Lens →
    KvM μ (Scores × Lens)
  | [], acc => return acc
  | term :: rest, acc => do
    let found ← postings index term
    if found.isEmpty then scoreTerms index stats rest acc
    else do
      let acc ← scoreDocs index stats found.length found acc
      scoreTerms index stats rest acc

variable [TextStd]

/-- Best score first, and by key where scores are equal. -/
def Ranked (a b : Str × ℚ) : Prop := b.2 < a.2 ∨ b.2 = a.2 ∧ compare a.1 b.1 ≠ .gt

instance : DecidableRel Ranked :=
  fun a b => inferInstanceAs (Decidable (b.2 < a.2 ∨ b.2 = a.2 ∧ compare a.1 b.1 ≠ .gt))

def searchText (index : TextIndex) (query : Str) (limit : Nat) : KvM μ (List (Str × ℚ)) := do
  let terms := queryTerms μ query
  if terms.isEmpty || limit = 0 then return []
  else
    let stats ← stats index
    if stats.docs = 0 then return []
    else
      let acc ← scoreTerms index stats terms (∅, ∅)
      let hits := acc.1.toList.filter fun hit => 0 < hit.2
      return (hits.insertionSort Ranked).take limit

/-! ## Sessions -/

/-- Handle to boost, from whichever of a session's title or summary the query also matched. -/
def metaBoosts (query : Str) (limit : Nat) : KvM μ Scores := do
  let hits ← searchText .sessionMeta query limit
  return hits.foldl
    (fun boosts hit =>
      match metaBoost hit.1 with
      | none => boosts
      | some (handle, boost) =>
        boosts.insert handle (SearchStd.plus μ (boosts[handle]?.getD 0) boost))
    ∅

variable [Wire μ]

def windowItem (idx : Nat) (e : HistoryEntry μ) : WindowItem :=
  ⟨e.role, msgIdx idx, e.snippet.1, e.snippet.2, SearchStd.toolName e.message⟩

def windowItems (handle : Str) : List Nat → List WindowItem → KvM μ (List WindowItem)
  | [], out => return out
  | i :: rest, out => do
    if maxWindowItems ≤ out.length then return out
    else
      match ← getJson Value.asEntry .session (messageKey handle i) with
      | none => windowItems handle rest out
      | some entry => windowItems handle rest (out ++ [windowItem i entry])

def window (handle : Str) (idx : Nat) (opts : SearchOptions) : KvM μ (List WindowItem) :=
  let first := idx - min opts.contextBefore maxWindowItems
  let last := idx + min opts.contextAfter maxWindowItems
  windowItems handle ((List.range (last + 1 - first)).map (first + ·)) []

def sessionHits (opts : SearchOptions) (boosts : Scores) : List (Str × Nat × ℚ) →
    KvM μ (List SessionHit)
  | [] => return []
  | (handle, idx, score) :: rest => do
    match ← sessionMeta handle with
    | none => sessionHits opts boosts rest
    | some m =>
      if opts.agentFilter.any fun id => m.agent ≠ id then sessionHits opts boosts rest
      else if opts.senderFilter.any fun sender => m.createdBy ≠ sender
        then sessionHits opts boosts rest
      else
        let config ← (getJson Value.asAgent .agent (agentKey m.agent)).attempt
        let name := match config with
          | .ok (some c) => c.name
          | _ => []
        let items ← window handle idx opts
        let hit : SessionHit :=
          ⟨handle, msgIdx idx, SearchStd.plus μ score (boosts[handle]?.getD 0), m.title, m.agent,
            name, m.createdBy, m.createdAt, m.updatedAt,
            items⟩
        return hit :: (← sessionHits opts boosts rest)

def hitLimit (opts : SearchOptions) : Nat := min (max opts.limit 1) maxHitsPerQuery

def searchSessions (query : Str) (opts : SearchOptions) : KvM μ (List SessionHit) := do
  let limit := hitLimit opts
  let candidates := limit * Weights.default.candidatesPerHit
  let found ← searchText .messages query candidates
  let best := bestMatches found
  if best.isEmpty then return []
  else
    let boosts ← metaBoosts query candidates
    let hits ← sessionHits opts boosts best.toList
    return (hits.insertionSort fun a b => b.score ≤ a.score).take limit

end

end Crabtalk.Store

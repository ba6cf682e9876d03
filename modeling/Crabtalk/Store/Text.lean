import Crabtalk.Basis.Terminated
import Crabtalk.Store.Kv
import Mathlib.Data.List.Dedup
import Mathlib.Data.List.Sort

/-! # The inverted index over the keyspace -/

open Basis

namespace Crabtalk.Store

/-- What the index takes from the standard library: Unicode classes and case
mappings, and the order a hash map is walked in. -/
class TextStd where
  isAlphanumeric : Char → Bool
  toLowercase : Str → Str
  hashOrder : List (Str × Nat) → List (Str × Nat)
  slash_not_alphanumeric : isAlphanumeric '/' = false
  ascii_alphanumeric : ∀ c, c.isAlphanum → isAlphanumeric c
  ascii_toLowercase : ∀ w : Str, w.all Char.isLower → toLowercase w = w
  slash_toLowercase : ∀ w : Str, '/' ∈ toLowercase w → '/' ∈ w
  hashOrder_perm : ∀ l, (hashOrder l).Perm l

inductive TextIndex
  | messages
  | sessionMeta
  | memory
  deriving DecidableEq

def TextIndex.asStr : TextIndex → Str
  | .messages => "msg".toList
  | .sessionMeta => "meta".toList
  | .memory => "mem".toList

def stopwords : List String :=
  ["a", "an", "the", "is", "it", "in", "of", "to", "and", "or", "for", "on", "at", "by", "with",
    "as", "be", "was",
    "are", "been", "has", "had", "have", "do", "does", "did", "but", "not", "no", "if", "so",
    "from", "that", "this",
    "then", "than", "into", "its", "my", "me", "we", "he", "she", "they", "you", "your", "our", "his", "her"]

def isStopword (word : Str) : Bool := stopwords.any fun w => word = w.toList

section
variable [TextStd]

def tokenize (text : Str) : List Str :=
  (((text.splitOnP fun c => !TextStd.isAlphanumeric c).filter fun w => decide (1 < w.length)).map
    TextStd.toLowercase).filter fun w => !isStopword w

theorem tokenize_append_cons (a b : Str) {sep : Char} (h : TextStd.isAlphanumeric sep = false) :
    tokenize (a ++ sep :: b) = tokenize a ++ tokenize b := by
  rw [tokenize, List.splitOnP_append_cons a b (by rw [h]; rfl), List.filter_append, List.map_append,
    List.filter_append, tokenize, tokenize]

def u32 (n : Nat) : Nat := n % 2 ^ 32

def termFrequencies (terms : List Str) : List (Str × Nat) :=
  TextStd.hashOrder (terms.dedup.map fun t => (t, u32 (terms.count t)))

theorem slash_notMem_tokenize {text w : Str} (h : w ∈ tokenize text) : '/' ∉ w := by
  simp only [tokenize, List.mem_filter, List.mem_map] at h
  obtain ⟨⟨v, ⟨hv, -⟩, rfl⟩, -⟩ := h
  intro hs
  have hs := TextStd.slash_toLowercase v hs
  have hsep := sep_notMem_splitOnP hv _ hs
  rw [TextStd.slash_not_alphanumeric] at hsep
  cases hsep

end

/-! ## The keyspace of an index -/

def docPrefix (index : TextIndex) : Str :=
  keysUnder ["idx".toList, "text".toList, index.asStr, "doc".toList]

def docKey (index : TextIndex) (key : Str) : Str := docPrefix index ++ key

def postingKey (index : TextIndex) (term key : Str) : Str :=
  keysUnder ["idx".toList, "text".toList, index.asStr, "term".toList, term] ++ key

def statsKey (index : TextIndex) : Str :=
  key ["idx".toList, "text".toList, index.asStr, "stats".toList]

/-! ## Operations -/

section
variable {μ : Type}

def stats (index : TextIndex) : KvM μ Stats := do
  return (← getJson Value.asStats .text (statsKey index)).getD ⟨0, 0⟩

def dropText (index : TextIndex) (key : Str) : KvM μ Unit := do
  match ← getJson Value.asDoc .text (docKey index key) with
  | none => pure ()
  | some doc =>
    forM doc.terms fun term => do
      let _ ← delete .text (postingKey index term key)
    let _ ← delete .text (docKey index key)
    let stats ← stats index
    put .text (statsKey index) (.stats ⟨stats.docs - 1, stats.totalLen - doc.len⟩)

def dropTextPrefix (index : TextIndex) (stem : Str) : KvM μ Unit := do
  let docKeys ← scanKeys .text (docKey index stem)
  forM docKeys fun docKey => dropText index (docKey.drop (docPrefix index).length)

def indexText [TextStd] (index : TextIndex) (key text : Str) (weight : ℚ) : KvM μ Unit := do
  dropText index key
  let terms := tokenize text
  if terms.isEmpty then pure ()
  else
    let tfs := termFrequencies terms
    forM tfs fun tf => put .text (postingKey index tf.1 key) (.raw (Nat.toDigits 10 tf.2))
    let unique := (tfs.map (·.1)).insertionSort fun a b => compare a b ≠ .gt
    put .text (docKey index key) (.doc ⟨u32 terms.length, weight, unique⟩)
    let stats ← stats index
    put .text (statsKey index) (.stats ⟨stats.docs + 1, stats.totalLen + u32 terms.length⟩)

end

end Crabtalk.Store

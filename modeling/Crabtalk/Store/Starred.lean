import Crabtalk.Store.Stems

/-! # A word and the same word with a star

Without the star a word is cut into the words of a text, and the first of them
is searched for. With the star its letters are run together to one stem.
-/

open Basis

namespace Crabtalk.Store

namespace Ranking

/-! ## The terms of one word -/

theorem trimStars_concat (w : Str) : trimStars (w ++ ['*']) = trimStars w := by
  simp [trimStars]

theorem trimStars_of_last {w : Str} (h : w.getLast? ≠ some '*') : trimStars w = w := by
  cases hw : w.reverse with
  | nil =>
    rw [List.reverse_eq_nil_iff.mp hw]
    rfl
  | cons c rest =>
    have hlast : w.getLast? = some c := by
      rw [← List.head?_reverse, hw]
      rfl
    have hc : c ≠ '*' := by
      intro he
      rw [hlast, he] at h
      exact h rfl
    rw [trimStars, hw, List.dropWhile_cons_of_neg (by simpa using hc), ← hw, List.reverse_reverse]

section
variable {μ : Type} [TextStd] [SearchStd μ] {w : Str}

theorem queryTerms_word (hw : ∀ c ∈ w, SearchStd.isWhitespace μ c = false) :
    queryTerms μ w = if (queryTerm μ w).text.isEmpty then [] else [queryTerm μ w] := by
  rw [queryTerms, List.splitOnP_eq_singleton hw]
  cases w with
  | nil => rfl
  | cons c rest =>
    simp only [List.isEmpty_cons, Bool.not_false, List.filter_cons, List.filter_nil, if_true,
      List.foldl_cons, List.foldl_nil,
      List.contains_nil, Bool.or_false, List.nil_append]

def firstWord (w : Str) : Term := ⟨(tokenize w).headD [], false⟩

variable (μ) in
def stem (w : Str) : Term := ⟨normalize μ w, true⟩

theorem queryTerm_of_last (h : w.getLast? ≠ some '*') : queryTerm μ w = firstWord w := by
  rw [queryTerm, if_neg h, trimStars_of_last h, firstWord]

theorem queryTerm_concat (h : w.getLast? ≠ some '*') : queryTerm μ (w ++ ['*']) = stem μ w := by
  rw [queryTerm, if_pos List.getLast?_concat, trimStars_concat, trimStars_of_last h, stem]

theorem queryTerm_star (h : w.getLast? = some '*') : queryTerm μ (w ++ ['*']) = queryTerm μ w := by
  rw [queryTerm, if_pos List.getLast?_concat, trimStars_concat, queryTerm, if_pos h]

theorem firstWord_plain (hw : ∀ c ∈ w, TextStd.isAlphanumeric c = true)
    (hlower : TextStd.toLowercase w = w.flatMap (SearchStd.charLowercase μ))
    (hfirst : (firstWord w).text ≠ []) : (firstWord w).text = (stem μ w).text := by
  have hsplit : w.splitOnP (fun c => !TextStd.isAlphanumeric c) = [w] :=
    List.splitOnP_eq_singleton fun c hc => by rw [hw c hc]; rfl
  have hstem : (stem μ w).text = TextStd.toLowercase w := by
    rw [stem, normalize, List.filter_eq_self.mpr hw, hlower]
  rw [hstem]
  have hmem : (firstWord w).text ∈ tokenize w := by
    unfold firstWord at hfirst ⊢
    cases ht : tokenize w with
    | nil =>
      rw [ht] at hfirst
      exact absurd rfl hfirst
    | cons t rest => exact List.mem_cons_self
  have hmem := List.mem_of_mem_filter hmem
  rw [hsplit] at hmem
  obtain ⟨v, hv, he⟩ := List.mem_map.mp hmem
  rw [← he, List.mem_singleton.mp (List.mem_of_mem_filter hv)]

end

/-! ## What one term finds -/

section
variable {R : Type} [Field R] [LinearOrder R] [IsStrictOrderedRing R] [TextStd] {ln : R → R}
  {D : Corpus} {term : Term} {text : Str} {weight : ℚ}

omit [LinearOrder R] [IsStrictOrderedRing R] in
theorem score_single : score ln D [term] text weight = idf ln (rows D term).length
    (corpusStats u32 D).docs * gain R D term text * weight := by
  rw [score_eq, List.map_singleton, List.sum_singleton]

omit [IsStrictOrderedRing R] in
theorem ranking_of_rows_nil {limit : Nat} (h : rows D term = []) :
    ranking ln D [term] limit = [] := by
  refine ranking_nil fun key text weight hc => ?_
  rw [score_single, gain_eq_zero, mul_zero, zero_mul]
  · exact lt_irrefl _
  · intro word hword hm
    have hrow : (key, u32 ((tokenize text).count word)) ∈ rows D term :=
      mem_rows.mpr ⟨text, weight, hc, word, mem_matched.mpr ⟨hword, hm⟩, rfl⟩
    rw [h] at hrow
    cases hrow

theorem score_single_pos (hln : ∀ x, 0 < x → (0 < ln x ↔ 1 < x))
    (hshort : (tokenize text).length < 2 ^ 32) (hweight : 0 < weight) :
    0 < score ln D [term] text weight ↔ (rows D term).length ≤ (corpusStats u32 D).docs ∧
    ∃ word ∈ tokenize text, term.Matches word := by
  have hweight : (0 : R) < weight := Rat.cast_pos.mpr hweight
  rw [score_single, mul_pos_iff_of_pos_right hweight]
  by_cases hword : ∃ word ∈ tokenize text, term.Matches word
  · obtain ⟨word, hmem, hm⟩ := hword
    rw [mul_pos_iff_of_pos_right (gain_pos hshort hmem hm), idf_pos hln]
    exact ⟨fun h => ⟨h, word, hmem, hm⟩, fun h => h.1⟩
  · rw [gain_eq_zero fun word hmem hm => hword ⟨word, hmem, hm⟩, mul_zero]
    exact ⟨fun h => absurd h (lt_irrefl _), fun h => absurd h.2 hword⟩

/-- A word finds no document that is worth nothing. -/
theorem weight_pos_of_score (hln : ∀ x, 0 < x → (0 < ln x ↔ 1 < x)) (hterm : term.isPrefix = false)
    (h : 0 < score ln D [term] text weight) :
    0 < weight := by
  rw [score_single] at h
  have hidf : 0 < idf ln (rows D term).length (corpusStats u32 D).docs :=
    (idf_pos hln).mpr (rows_le_docs (single_exact hterm))
  exact Rat.cast_pos.mp (pos_of_mul_pos_right h (mul_nonneg hidf.le (gain_nonneg D term text)))

end

/-! ## The word with a star -/

section
variable {μ : Type} [TextStd] [SearchStd μ]

/-- With a star after it, a word finds what it finds without. -/
def Widened (index : TextIndex) (w : Str) (s : Kv μ) : Prop :=
  ∃ n, ∀ limit, n ≤ limit → ∃ hits hits',
    Prog.interp memory (searchText Real.log index w limit) s = .ok hits s ∧
    Prog.interp memory (searchText Real.log index (w ++ ['*']) limit) s = .ok hits' s ∧
    ∀ key ∈ hits.map (·.1), key ∈ hits'.map (·.1)

variable (μ) in
/-- Every document that counts and holds the first word of `w` holds a word its
stem starts, and the words the stem starts have no more rows than there are documents. -/
def Reached (D : Corpus) (w : Str) : Prop :=
  w.getLast? = some '*' ∨ ∀ (key text : Str) (weight : ℚ), D[key]? = some (text, weight) → 0 < weight →
    (firstWord w).text ≠ [] → (firstWord w).text ∈ tokenize text →
      (stem μ w).text ≠ [] ∧ (rows D (stem μ w)).length ≤ (corpusStats u32 D).docs ∧
      ∃ word ∈ tokenize text, (stem μ w).text <+: word

/-- A plain word is a start of itself, so only the rows are in question. -/
theorem reached_plain {D : Corpus} {w : Str} (hw : ∀ c ∈ w, TextStd.isAlphanumeric c = true)
    (hlower : TextStd.toLowercase w = w.flatMap (SearchStd.charLowercase μ))
    (hrows : (rows D (stem μ w)).length ≤ (corpusStats u32 D).docs) :
    Reached μ D w := by
  refine .inr fun key text weight _ _ hfirst hmem => ?_
  have hstem := firstWord_plain hw hlower hfirst
  rw [hstem] at hfirst hmem
  exact ⟨hfirst, hrows, _, hmem, List.prefix_rfl⟩

variable {C : TextIndex → Corpus} {s : Kv μ} {index : TextIndex} {w : Str}

theorem widened_iff (h : Exact C s) (hshort : ShortCorpus (C index))
    (hstar : SearchStd.isWhitespace μ '*' = false)
    (hw : ∀ c ∈ w, SearchStd.isWhitespace μ c = false) : Widened index w s ↔
    Reached μ (C index) w := by
  have hw' : ∀ c ∈ w ++ ['*'], SearchStd.isWhitespace μ c = false := by
    intro c hc
    rcases List.mem_append.mp hc with hc | hc
    · exact hw c hc
    · rwa [List.mem_singleton.mp hc]
  unfold Widened Reached
  simp only [interp_searchText h]
  rw [queryTerms_word hw, queryTerms_word hw']
  by_cases hlast : w.getLast? = some '*'
  · rw [queryTerm_star hlast]
    exact ⟨fun _ => .inl hlast, fun _ => ⟨0, fun _ _ => ⟨_, _, rfl, rfl, fun _ hkey => hkey⟩⟩⟩
  · rw [queryTerm_of_last hlast, queryTerm_concat hlast]
    -- the words of a text that either term is found by
    have hexact : ∀ word, (firstWord w).Matches word ↔ word = (firstWord w).text :=
      fun word => Iff.rfl
    have hstem : ∀ word, (stem μ w).Matches word ↔ (stem μ w).text <+: word := fun word => Iff.rfl
    constructor
    · intro ⟨n, hn⟩
      refine .inr fun key text weight hc hweight hfirst hmem => ?_
      obtain ⟨hits, hits', hi, hi', hall⟩ := hn (max n (C index).toList.length) (le_max_left _ _)
      cases hi
      cases hi'
      rw [if_neg (by simpa using hfirst)] at hall
      have hfound := hall key ((mem_ranking (le_max_right _ _)).mpr ⟨text, weight, hc,
        (score_single_pos log_pos_iff (hshort key text weight hc) hweight).mpr
          ⟨rows_le_docs (single_exact rfl), _, hmem, (hexact _).mpr rfl⟩⟩)
      obtain ⟨text', weight', hc', hpos⟩ := (mem_ranking (le_max_right _ _)).mp hfound
      rw [hc] at hc'
      cases hc'
      split at hpos
      · exact absurd hpos (lt_irrefl _)
      · rename_i hne
        obtain ⟨hrows, word, hword, hm⟩ :=
          (score_single_pos log_pos_iff (hshort key text weight hc) hweight).mp hpos
        exact ⟨by simpa using hne, hrows, word, hword, (hstem word).mp hm⟩
    · intro hreach
      refine ⟨(C index).toList.length, fun limit hlimit => ⟨_, _, rfl, rfl, fun key hkey => ?_⟩⟩
      obtain ⟨text, weight, hc, hpos⟩ := (mem_ranking hlimit).mp hkey
      split at hpos
      · exact absurd hpos (lt_irrefl _)
      · rename_i hne
        have hweight := weight_pos_of_score log_pos_iff rfl hpos
        obtain ⟨-, word, hword, hm⟩ :=
          (score_single_pos log_pos_iff (hshort key text weight hc) hweight).mp hpos
        rw [(hexact word).mp hm] at hword
        obtain ⟨hstem₀, hrows, word', hword', hstart⟩ :=
          (hreach.resolve_left hlast) key text weight hc hweight (by simpa using hne) hword
        refine (mem_ranking hlimit).mpr ⟨text, weight, hc, ?_⟩
        rw [if_neg (by simpa using hstem₀)]
        exact (score_single_pos log_pos_iff (hshort key text weight hc) hweight).mpr
          ⟨hrows, word', hword', (hstem word').mpr hstart⟩

/-- After any index calls a word finds with a star what it finds without, exactly
when its stem reaches the documents of its first word, and in no more rows than
there are documents. -/
theorem starred_iff {s₀ : Kv μ} (hstar : SearchStd.isWhitespace μ '*' = false)
    (h₀ : ∀ k, s₀[((.text, k) : Cell)]? = none)
    (ops : List TextOp) (hops : ∀ op ∈ ops, op.Short) :
    ∃ s, Prog.interp memory (forM ops TextOp.run) s₀ = .ok () s ∧
    ∀ index w, (∀ c ∈ w, SearchStd.isWhitespace μ c = false) →
      (Widened index w s ↔ Reached μ (corpus ops index) w) := by
  obtain ⟨_, s, hi, h⟩ := (wp_textOps (Exact.empty h₀)).answers
  exact ⟨s, hi, fun index w hw => widened_iff h (shortCorpus_corpus hops index) hstar hw⟩

end

section
open Plain

theorem starred_instance : ∃ s : Kv Message, Prog.interp memory (forM deploys TextOp.run) ∅ = .ok () s ∧
    Widened .memory "deploy".toList s := by
  have hempty : ∀ k, (∅ : Kv Message)[((.text, k) : Cell)]? = none := by simp
  obtain ⟨s, hs, hiff⟩ := starred_iff (by decide) hempty deploys deploys_short
  have hword : ∀ c ∈ "deploy".toList, SearchStd.isWhitespace Message c = false := by
    have hall : ("deploy".toList.all fun c => !SearchStd.isWhitespace Message c) = true := rfl
    simpa only [List.all_eq_true, Bool.not_eq_true'] using hall
  exact ⟨s, hs, (hiff .memory "deploy".toList hword).mpr
    (reached_plain (List.all_eq_true.mp rfl) rfl (by decide))⟩

def hyphened : List TextOp := [.indexText .memory "a".toList "crab-talk".toList 1]

/-- A document is found by the word it consists of, and not by the start of it. -/
theorem starred_misses : ∃ s : Kv Message, Prog.interp memory (forM hyphened TextOp.run) ∅ = .ok () s ∧
    (∀ limit, 1 ≤ limit → ∃ hits, Prog.interp memory
      (searchText Real.log .memory "crab-talk".toList limit) s = .ok hits s ∧
      "a".toList ∈ hits.map (·.1)) ∧
    ∀ limit, Prog.interp memory (searchText Real.log .memory "crab-talk*".toList limit) s = .ok [] s := by
  have hw : Prog.wp False memory (forM hyphened TextOp.run) (fun _ => Exact (corpus hyphened))
      (fun _ _ => False) (∅ : Kv Message) :=
    wp_textOps (Exact.empty (by simp))
  obtain ⟨_, s, hs, h⟩ := hw.answers
  have hword : queryTerms Message "crab-talk".toList = [⟨"crab".toList, false⟩] := by decide
  have hstart : queryTerms Message "crab-talk*".toList = [⟨"crabtalk".toList, true⟩] := by decide
  have hsize : (corpus hyphened .memory).toList.length = 1 := by decide
  refine ⟨s, hs, fun limit hlimit => ⟨_, interp_searchText h _ _ _, ?_⟩, fun limit => ?_⟩
  · have hfound : "a".toList ∈ (ranking Real.log (corpus hyphened .memory)
        [⟨"crab".toList, false⟩] limit).map (·.1) := by
      refine (mem_ranking (by rwa [hsize])).mpr ⟨"crab-talk".toList, 1, ?_, ?_⟩
      · rw [corpus, hyphened, List.foldl_cons, List.foldl_nil, TextOp.apply, find_update_insert,
          if_pos ⟨rfl, rfl⟩]
      · exact (score_single_pos log_pos_iff (by decide) one_pos).mpr
          ⟨rows_le_docs (single_exact rfl), "crab".toList, by decide, by decide⟩
    rw [hword]
    exact hfound
  · have hnone : ranking Real.log (corpus hyphened .memory) [⟨"crabtalk".toList, true⟩] limit =
        [] := ranking_of_rows_nil (by decide)
    rw [interp_searchText h, hstart]
    exact congrArg (EStateM.Result.ok · s) hnone

end

end Ranking

end Crabtalk.Store

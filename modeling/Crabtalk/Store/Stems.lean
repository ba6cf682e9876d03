import Crabtalk.Store.Ranking
import Crabtalk.Store.Written
import Mathlib.Analysis.SpecialFunctions.Log.Basic
import Mathlib.Tactic.Positivity

/-! # Prefix terms

A term written with a star matches every word it starts, and one document may
hold several of them. What the term weighs is taken from the rows of all these
words, so the rows of a document that has two of them count twice.
-/

open Basis

namespace Crabtalk.Store

namespace Ranking

/-! ## What a term weighs -/

section
variable {R : Type} [Field R] [LinearOrder R] [IsStrictOrderedRing R]

omit [LinearOrder R] [IsStrictOrderedRing R] in
theorem weigh_default (tf len : Nat) (avgdl : R) :
    Bm25.default.weigh tf len avgdl = tf * (6 / 5 + 1) /
    (tf + 6 / 5 * (1 - 3 / 4 + 3 / 4 * (len / avgdl))) := by
  rw [Bm25.weigh, Bm25.default, mul_div_assoc (3 / 4 : R)]

theorem weigh_nonneg (tf len : Nat) {avgdl : R} (h : 0 ≤ avgdl) :
    0 ≤ Bm25.default.weigh tf len avgdl := by
  have hrest : (0 : R) ≤ 1 - 3 / 4 := by norm_num
  rw [weigh_default]
  positivity

theorem weigh_pos {tf : Nat} (len : Nat) {avgdl : R} (htf : 0 < tf) (h : 0 ≤ avgdl) :
    0 < Bm25.default.weigh tf len avgdl := by
  have hrest : (0 : R) ≤ 1 - 3 / 4 := by norm_num
  have htf : (0 : R) < tf := Nat.cast_pos.mpr htf
  rw [weigh_default]
  positivity

theorem idf_pos {ln : R → R} (hln : ∀ x, 0 < x → (0 < ln x ↔ 1 < x)) {df docs : Nat} :
    0 < idf ln df docs ↔ df ≤ docs := by
  have hdf : (0 : R) < df + 1 / 2 := by positivity
  have hsum : ((docs : R) - df + 1 / 2) / (df + 1 / 2) + 1 = (docs + 1) / (df + 1 / 2) := by
    rw [div_add_one hdf.ne']
    congr 1
    ring
  rw [idf, hsum, hln _ (by positivity), one_lt_div hdf]
  constructor
  · intro h
    by_contra hlt
    have hle : ((docs + 1 : Nat) : R) ≤ df := Nat.cast_le.mpr (by omega)
    rw [Nat.cast_add, Nat.cast_one] at hle
    linarith
  · intro h
    have hle : (df : R) ≤ docs := Nat.cast_le.mpr h
    linarith

variable [TextStd]

theorem avgdl_nonneg (D : Corpus) : 0 ≤ avgdl (R := R) D := by
  rw [avgdl]
  positivity

/-- What the words of a term are worth in a text, the term and the document unweighted. -/
def gain (R : Type) [Field R] (D : Corpus) (term : Term) (text : Str) : R :=
  ((matched term text).map fun word => Bm25.default.weigh (u32 ((tokenize text).count word))
    (u32 (tokenize text).length) (avgdl D)).sum

omit [LinearOrder R] [IsStrictOrderedRing R] in
theorem score_eq (ln : R → R) (D : Corpus) (terms : List Term) (text : Str) (weight : ℚ) :
    score ln D terms text weight =
    (terms.map fun term => idf ln (rows D term).length (corpusStats u32 D).docs *
      gain R D term text).sum * weight := by
  rw [score, ← List.sum_map_mul_right]
  congr 1
  refine List.map_congr_left fun term _ => ?_
  rw [termScore, List.sum_map_mul_right, List.sum_map_mul_left, gain]

theorem gain_nonneg (D : Corpus) (term : Term) (text : Str) : 0 ≤ gain R D term text := by
  apply List.sum_nonneg
  intro x hx
  obtain ⟨word, -, rfl⟩ := List.mem_map.mp hx
  exact weigh_nonneg _ _ (avgdl_nonneg D)

theorem gain_pos {D : Corpus} {term : Term} {text word : Str}
    (hshort : (tokenize text).length < 2 ^ 32) (hword : word ∈ tokenize text)
    (hm : term.Matches word) : 0 < gain R D term text := by
  have hcount : 0 < u32 ((tokenize text).count word) := by
    rw [u32, Nat.mod_eq_of_lt (Nat.lt_of_le_of_lt List.count_le_length hshort)]
    exact List.count_pos_iff.mpr hword
  refine (weigh_pos (R := R) (u32 (tokenize text).length) hcount (avgdl_nonneg D)).trans_le ?_
  refine List.single_le_sum ?_ _ (List.mem_map.mpr ⟨word, mem_matched.mpr ⟨hword, hm⟩, rfl⟩)
  intro x hx
  obtain ⟨word', -, rfl⟩ := List.mem_map.mp hx
  exact weigh_nonneg _ _ (avgdl_nonneg D)

omit [LinearOrder R] [IsStrictOrderedRing R] in
theorem gain_eq_zero {D : Corpus} {term : Term} {text : Str}
    (h : ∀ word ∈ tokenize text, ¬ term.Matches word) : gain R D term text = 0 := by
  have hnone : matched term text = [] := List.eq_nil_iff_forall_not_mem.mpr fun word hw =>
      h word (mem_matched.mp hw).1 (mem_matched.mp hw).2
  rw [gain, hnone]
  rfl

end

/-! ## How many documents hold a term -/

section
variable [TextStd] {D : Corpus} {term : Term}

def holders (D : Corpus) (term : Term) : List Str :=
  (D.toList.filter fun e => (tokenize e.2.1).any fun word => term.Matches word).map (·.1)

def Single (D : Corpus) (term : Term) : Prop :=
  ∀ (key text : Str) (weight : ℚ), D[key]? = some (text, weight) →
    ∀ word ∈ tokenize text, term.Matches word →
    ∀ word' ∈ tokenize text, term.Matches word' → word = word'

theorem mem_holders {key : Str} : key ∈ holders D term ↔
    ∃ text weight, D[key]? = some (text, weight) ∧ ∃ word ∈ tokenize text, term.Matches word := by
  simp only [holders, List.mem_map, List.mem_filter, List.any_eq_true, decide_eq_true_eq]
  constructor
  · intro ⟨⟨k, text, weight⟩, ⟨he, hw⟩, hk⟩
    simp only at hk
    subst hk
    exact ⟨text, weight, Std.ExtTreeMap.mem_toList_iff_getElem?_eq_some.mp he, hw⟩
  · intro ⟨text, weight, hc, hw⟩
    exact ⟨(key, text, weight), ⟨Std.ExtTreeMap.mem_toList_iff_getElem?_eq_some.mpr hc, hw⟩, rfl⟩

theorem matched_isEmpty (term : Term) (text : Str) :
    (!(matched term text).isEmpty) = (tokenize text).any fun word => term.Matches word := by
  rw [Bool.eq_iff_iff, Bool.not_eq_true', List.isEmpty_eq_false_iff_exists_mem, List.any_eq_true]
  simp only [mem_matched, decide_eq_true_eq]

theorem holders_length : (holders D term).length = D.toList.countP fun e =>
    !(matched term e.2.1).isEmpty := by
  simp only [matched_isEmpty]
  rw [holders, List.length_map, List.countP_eq_length_filter]

theorem rows_length : (rows D term).length =
    (D.toList.map fun e => (matched term e.2.1).length).sum := by
  simp [rows, List.length_flatMap]

theorem matched_single {text : Str} : (matched term text).length ≤ 1 ↔
    ∀ word ∈ tokenize text, term.Matches word → ∀ word' ∈ tokenize text, term.Matches word' →
    word = word' := by
  rw [← List.toFinset_card_of_nodup (nodup_matched term text), Finset.card_le_one]
  simp only [List.mem_toFinset, mem_matched]
  constructor
  · intro h word hw hm word' hw' hm'
    exact h word ⟨hw, hm⟩ word' ⟨hw', hm'⟩
  · intro h word ⟨hw, hm⟩ word' ⟨hw', hm'⟩
    exact h word hw hm word' hw' hm'

/-- There are as many rows as documents exactly when no document has two of them. -/
theorem rows_holders : (rows D term).length = (holders D term).length ↔ Single D term := by
  rw [rows_length, holders_length, sum_length_eq_countP fun e : Str × Str × ℚ => matched term e.2.1]
  constructor
  · intro h key text weight hc
    exact matched_single.mp (h _ (Std.ExtTreeMap.mem_toList_iff_getElem?_eq_some.mpr hc))
  · intro h ⟨key, text, weight⟩ he
    exact matched_single.mpr (h key text weight
      (Std.ExtTreeMap.mem_toList_iff_getElem?_eq_some.mp he))

theorem holders_le_docs : (holders D term).length ≤ (corpusStats u32 D).docs := by
  rw [holders_length, corpusStats, live, ← List.countP_eq_length_filter]
  refine List.countP_mono_left fun e _ he => ?_
  rw [matched_isEmpty, List.any_eq_true] at he
  obtain ⟨word, hword, -⟩ := he
  cases ht : tokenize e.2.1 with
  | nil =>
    rw [ht] at hword
    cases hword
  | cons w rest => rfl

theorem single_exact (h : term.isPrefix = false) : Single D term := by
  intro key text weight _ word _ hm word' _ hm'
  simp only [Term.Matches, h, Bool.false_eq_true, if_false] at hm hm'
  rw [hm, hm']

theorem rows_le_docs (h : Single D term) : (rows D term).length ≤ (corpusStats u32 D).docs := by
  rw [rows_holders.mpr h]
  exact holders_le_docs

end

/-! ## What is found -/

section
variable {R : Type} [Field R] [LinearOrder R] [TextStd] {ln : R → R} {D : Corpus}
  {terms : List Term} {key : Str}

theorem mem_ranking {limit : Nat} (hlimit : D.toList.length ≤ limit) :
    key ∈ (ranking ln D terms limit).map (·.1) ↔
    ∃ text weight, D[key]? = some (text, weight) ∧ 0 < score ln D terms text weight := by
  have hall : ranking ln D terms limit =
      ((D.toList.map fun e => (e.1, score ln D terms e.2.1 e.2.2)).filter fun hit =>
        decide (0 < hit.2)).insertionSort Ranked := by
    rw [ranking, List.take_of_length_le]
    rw [List.length_insertionSort]
    exact (List.length_filter_le _ _).trans (by rwa [List.length_map])
  rw [hall]
  simp only [List.mem_map, List.mem_insertionSort, List.mem_filter, decide_eq_true_eq]
  constructor
  · rintro ⟨hit, ⟨⟨⟨k, text, weight⟩, he, hhit⟩, hpos⟩, hk⟩
    subst hhit
    simp only at hk hpos
    subst hk
    exact ⟨text, weight, Std.ExtTreeMap.mem_toList_iff_getElem?_eq_some.mp he, hpos⟩
  · rintro ⟨text, weight, hc, hpos⟩
    exact ⟨_, ⟨⟨(key, text, weight), Std.ExtTreeMap.mem_toList_iff_getElem?_eq_some.mpr hc, rfl⟩, hpos⟩, rfl⟩

variable [IsStrictOrderedRing R]

/-- Where every term weighs something, a document with a word of the query is worth what its weight is. -/
theorem score_pos (hln : ∀ x, 0 < x → (0 < ln x ↔ 1 < x))
    (hterms : ∀ t ∈ terms, (rows D t).length ≤ (corpusStats u32 D).docs)
    {term : Term} (hterm : term ∈ terms) {text : Str} {weight : ℚ}
    (hshort : (tokenize text).length < 2 ^ 32)
    (hword : ∃ word ∈ tokenize text, term.Matches word) : 0 < score ln D terms text weight ↔
    0 < weight := by
  obtain ⟨word, hword, hm⟩ := hword
  let worth : Term → R := fun t => idf ln (rows D t).length (corpusStats u32 D).docs *
      gain R D t text
  have hnonneg : ∀ x ∈ terms.map worth, 0 ≤ x := by
    intro x hx
    obtain ⟨t, ht, rfl⟩ := List.mem_map.mp hx
    exact mul_nonneg ((idf_pos hln).mpr (hterms t ht)).le (gain_nonneg D t text)
  have hpos : 0 < (terms.map worth).sum :=
    (mul_pos ((idf_pos hln).mpr (hterms term hterm)) (gain_pos hshort hword hm)).trans_le
      (List.single_le_sum hnonneg _ (List.mem_map_of_mem hterm))
  rw [score_eq, mul_pos_iff_of_pos_left hpos, Rat.cast_pos]

end

/-! ## The union a prefix matches -/

theorem log_pos_iff (x : ℝ) (h : 0 < x) : 0 < Real.log x ↔ 1 < x := Real.log_pos_iff h.le

section
variable {μ : Type} [TextStd] [SearchStd μ]

/-- A term of a query is weighed by the documents that hold it, weighs something, and finds them all. -/
structure Counted (index : TextIndex) (query : Str) (term : Term) (D : Corpus) (s : Kv μ) : Prop where
  weighed : ∃ found st, Prog.interp memory (postings index term) s = .ok found s ∧
    Prog.interp memory (stats index) s = .ok st s ∧
    found.length = (holders D term).length ∧ found.length ≤ st.docs ∧
    0 < idf Real.log found.length st.docs
  found : ∃ n, ∀ limit, n ≤ limit →
    ∃ hits, Prog.interp memory (searchText Real.log index query limit) s = .ok hits s ∧
    ∀ key ∈ holders D term, key ∈ hits.map (·.1)

variable {C : TextIndex → Corpus} {s : Kv μ} {index : TextIndex} {query : Str}

theorem interp_searchText (h : Exact C s) (index : TextIndex) (query : Str) (limit : Nat) :
    Prog.interp memory (searchText Real.log index query limit) s =
    .ok (ranking Real.log (C index) (queryTerms μ query) limit) s := by
  obtain ⟨hits, s', hi, hs, hhits⟩ := (wp_searchText_exact Real.log h query limit).answers
  rw [hs, hhits] at hi
  exact hi

theorem interp_postings (h : Exact C s) (index : TextIndex) {term : Term}
    (hterm : term ∈ queryTerms μ query) :
    ∃ found, Prog.interp memory (postings index term) s = .ok found s ∧
    found.length = (rows (C index) term).length := by
  have hw : Prog.wp False memory (postings index term) (fun found s' => s' = s ∧
      found.Perm (rows (C index) term)) (fun _ _ => False) s :=
    wp_postings_exact h (slash_notMem_queryTerms hterm)
  obtain ⟨found, s', hi, rfl, hp⟩ := hw.answers
  exact ⟨found, hi, hp.length_eq⟩

theorem counted_iff (h : Exact C s) (hshort : ShortCorpus (C index)) :
    (∀ term ∈ queryTerms μ query, term.isPrefix = true → Counted index query term (C index) s) ↔
      ∀ term ∈ queryTerms μ query, term.isPrefix = true → Single (C index) term ∧
        ∀ (key text : Str) (weight : ℚ), (C index)[key]? = some (text, weight) →
        (∃ word ∈ tokenize text, term.Matches word) → 0 < weight := by
  constructor
  · intro hcounted
    -- a term weighed by its documents has one word in each
    have hsingle : ∀ term ∈ queryTerms μ query, Single (C index) term := by
      intro term hterm
      cases hp : term.isPrefix with
      | false => exact single_exact hp
      | true =>
        obtain ⟨found, st, hfound, -, hlen, -⟩ := (hcounted term hterm hp).weighed
        obtain ⟨found', hfound', hlen'⟩ := interp_postings h index hterm
        rw [hfound] at hfound'
        cases hfound'
        exact rows_holders.mp (hlen'.symm.trans hlen)
    intro term hterm hp
    refine ⟨hsingle term hterm, fun key text weight hc hword => ?_⟩
    obtain ⟨n, hn⟩ := (hcounted term hterm hp).found
    obtain ⟨hits, hi, hall⟩ := hn (max n (C index).toList.length) (le_max_left _ _)
    rw [interp_searchText h] at hi
    cases hi
    obtain ⟨text', weight', hc', hpos⟩ :=
      (mem_ranking (le_max_right _ _)).mp (hall key (mem_holders.mpr ⟨text, weight, hc, hword⟩))
    rw [hc] at hc'
    cases hc'
    exact (score_pos log_pos_iff (fun t ht => rows_le_docs (hsingle t ht)) hterm
      (hshort key text weight hc) hword).mp hpos
  · intro hcond term hterm hp
    have hsingle : ∀ t ∈ queryTerms μ query, Single (C index) t := by
      intro t ht
      cases hp : t.isPrefix with
      | false => exact single_exact hp
      | true => exact (hcond t ht hp).1
    obtain ⟨found, hfound, hlen⟩ := interp_postings h index hterm
    have hle : found.length ≤ (corpusStats u32 (C index)).docs := by
      rw [hlen]
      exact rows_le_docs (hsingle term hterm)
    refine ⟨⟨found, _, hfound, h.interp_stats index,
      hlen.trans (rows_holders.mpr (hsingle term hterm)), hle, (idf_pos log_pos_iff).mpr hle⟩,
      (C index).toList.length, fun limit hlimit =>
      ⟨_, interp_searchText h index query limit, fun key hkey => ?_⟩⟩
    obtain ⟨text, weight, hc, hword⟩ := mem_holders.mp hkey
    refine (mem_ranking hlimit).mpr ⟨text, weight, hc, ?_⟩
    exact (score_pos log_pos_iff (fun t ht => rows_le_docs (hsingle t ht)) hterm
      (hshort key text weight hc) hword).mpr
      ((hcond term hterm hp).2 key text weight hc hword)

theorem shortCorpus_corpus {ops : List TextOp} (hops : ∀ op ∈ ops, op.Short) (index : TextIndex) :
    ShortCorpus (corpus ops index) :=
  shortCorpus hops (fun i key text weight hc => by simp at hc) index

/-- After any index calls the prefix terms of a query count the documents they are
found in, and find them all, exactly when none of these documents holds two words
of a term or is worth nothing. -/
theorem stems_counted_iff {s₀ : Kv μ} (h₀ : ∀ k, s₀[((.text, k) : Cell)]? = none)
    (ops : List TextOp) (hops : ∀ op ∈ ops, op.Short) :
    ∃ s, Prog.interp memory (forM ops TextOp.run) s₀ = .ok () s ∧ ∀ index query,
      ((∀ term ∈ queryTerms μ query, term.isPrefix = true →
        Counted index query term (corpus ops index) s) ↔
        ∀ term ∈ queryTerms μ query, term.isPrefix = true → Single (corpus ops index) term ∧
          ∀ (key text : Str) (weight : ℚ), (corpus ops index)[key]? = some (text, weight) →
            (∃ word ∈ tokenize text, term.Matches word) → 0 < weight) := by
  obtain ⟨_, s, hi, h⟩ := (wp_textOps (Exact.empty h₀)).answers
  exact ⟨s, hi, fun index query => counted_iff h (shortCorpus_corpus hops index)⟩

end

section
open Plain

def deploys : List TextOp :=
  [.indexText .memory "a".toList "deploy the deploy".toList 1,
    .indexText .memory "b".toList "deployment plan".toList 1]

theorem deploys_short : ∀ op ∈ deploys, op.Short := by
  intro op hop
  simp only [deploys, List.mem_cons, List.not_mem_nil, or_false] at hop
  rcases hop with rfl | rfl
  · show (tokenize _).length < _
    decide
  · show (tokenize _).length < _
    decide

theorem stems_counted_instance :
    ∃ s : Kv Message, Prog.interp memory (forM deploys TextOp.run) ∅ = .ok () s ∧
    ∀ term ∈ queryTerms Message "deploy*".toList, term.isPrefix = true →
      Counted .memory "deploy*".toList term (corpus deploys .memory) s := by
  have hempty : ∀ k, (∅ : Kv Message)[((.text, k) : Cell)]? = none := by simp
  obtain ⟨s, hs, hiff⟩ := stems_counted_iff hempty deploys deploys_short
  refine ⟨s, hs, (hiff _ _).mpr ?_⟩
  have hcorpus : ∀ (key text : Str) (weight : ℚ), (corpus deploys .memory)[key]? =
      some (text, weight) →
      (text = "deploy the deploy".toList ∨ text = "deployment plan".toList) ∧ weight = 1 := by
    intro key text weight hc
    simp only [corpus, deploys, List.foldl_cons, List.foldl_nil, TextOp.apply] at hc
    rw [find_update_insert] at hc
    split at hc
    · cases hc
      exact ⟨.inr rfl, rfl⟩
    · rw [find_update_insert] at hc
      split at hc
      · cases hc
        exact ⟨.inl rfl, rfl⟩
      · simp at hc
  have hterms : queryTerms Message "deploy*".toList = [⟨"deploy".toList, true⟩] := by decide
  rw [hterms]
  intro term hterm _
  rw [List.mem_singleton.mp hterm]
  constructor
  · intro key text weight hc
    rcases (hcorpus key text weight hc).1 with rfl | rfl
    · decide
    · decide
  · intro key text weight hc _
    rw [(hcorpus key text weight hc).2]
    exact one_pos

def inflected : List TextOp := [.indexText .memory "a".toList "deploy deploys deployed".toList 1]

/-- The document is taken for three, which is more than there are, so it weighs against itself. -/
theorem stems_miscounted : ∃ s : Kv Message, Prog.interp memory (forM inflected TextOp.run) ∅ = .ok () s ∧
    holders (corpus inflected .memory) ⟨"deploy".toList, true⟩ = ["a".toList] ∧
    (∃ found, Prog.interp memory (postings .memory ⟨"deploy".toList, true⟩) s = .ok found s ∧
      found.length = 3) ∧
    Prog.interp memory (stats .memory) s = .ok ⟨1, 3⟩ s ∧ ¬ 0 < idf Real.log 3 1 ∧
    ∀ limit, Prog.interp memory (searchText Real.log .memory "deploy*".toList limit) s = .ok [] s := by
  have hw : Prog.wp False memory (forM inflected TextOp.run) (fun _ => Exact (corpus inflected))
      (fun _ _ => False) (∅ : Kv Message) :=
    wp_textOps (Exact.empty (by simp))
  obtain ⟨_, s, hs, h⟩ := hw.answers
  have hterms : queryTerms Message "deploy*".toList = [⟨"deploy".toList, true⟩] := by decide
  have hrows : rows (corpus inflected .memory) ⟨"deploy".toList, true⟩ =
      List.replicate 3 ("a".toList, 1) := by decide
  have hstats : corpusStats u32 (corpus inflected .memory) = ⟨1, 3⟩ := by decide
  have hidf : ¬ 0 < idf Real.log 3 1 := by
    rw [idf_pos log_pos_iff]
    decide
  have hterm : ⟨"deploy".toList, true⟩ ∈ queryTerms Message "deploy*".toList := by
    rw [hterms]
    exact List.mem_singleton_self _
  obtain ⟨found, hfound, hlen⟩ := interp_postings h .memory hterm
  refine ⟨s, hs, by decide, ⟨found, hfound, ?_⟩, ?_, hidf, ?_⟩
  · exact hlen.trans (congrArg List.length hrows)
  · rw [h.interp_stats]
    exact congrArg (EStateM.Result.ok · s) hstats
  · intro limit
    have hnone : ranking Real.log (corpus inflected .memory) [⟨"deploy".toList, true⟩] limit = [] := by
      refine ranking_nil fun key text weight hc hpos => ?_
      simp only [corpus, inflected, List.foldl_cons, List.foldl_nil, TextOp.apply] at hc
      rw [find_update_insert] at hc
      split at hc
      · cases hc
        rw [score_eq, List.map_singleton, List.sum_singleton, hrows, hstats, Rat.cast_one, mul_one] at hpos
        exact hidf (pos_of_mul_pos_left hpos (gain_nonneg _ _ _))
      · simp at hc
    rw [interp_searchText h, hterms]
    exact congrArg (EStateM.Result.ok · s) hnone

end

end Ranking

end Crabtalk.Store

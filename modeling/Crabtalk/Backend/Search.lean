import Crabtalk.Store.Starred

/-! # Ranking without an index

A store that keeps no postings counts them over the texts it scans. Where its
terms are the terms of the index, its scores are the scores of the index.
-/

open Basis

namespace Crabtalk.Backend.Search

open Store Store.Ranking

structure Doc where
  text : Str
  weight : ℚ

section
variable {R : Type} [Field R] [TextStd]

def scoreTerm (ln : R → R) (docs : List Doc) (avgdl : R) (scores : List R) (term : Str) : List R :=
  let counts := docs.map fun doc => (tokenize doc.text).count term
  let df := counts.countP fun count => 0 < count
  if df = 0 then scores
  else
    let idf := idf ln df docs.length
    List.zipWith
      (fun score row =>
        if row.2 = 0 then score
        else score + idf * Bm25.default.weigh (u32 row.2) (u32 (tokenize row.1.text).length) avgdl *
          row.1.weight)
      scores (docs.zip counts)

variable [LinearOrder R]

def rank (ln : R → R) (docs : List Doc) (query : Str) (limit : Nat) : List (Nat × R) :=
  let terms := (tokenize query).filter fun term => !isStopword term
  if terms.isEmpty || limit = 0 || docs.isEmpty then []
  else
    let avgdl : R := (docs.map fun doc => (tokenize doc.text).length).sum / docs.length
    if avgdl = 0 then []
    else
      let scores := terms.foldl (scoreTerm ln docs avgdl) (List.replicate docs.length 0)
      let ranked := (scores.zipIdx.map fun score => (score.2, score.1)).filter fun hit => 0 < hit.2
      (ranked.insertionSort fun a b => b.2 ≤ a.2).take limit

end

/-! ## Scores -/

section
variable {R : Type} [Field R] [TextStd]

def worth (ln : R → R) (docs : List Doc) (avgdl : R) (doc : Doc) (term : Str) : R :=
  if (tokenize doc.text).count term = 0 then 0
  else idf ln (docs.countP fun doc => 0 < (tokenize doc.text).count term) docs.length *
    Bm25.default.weigh (u32 ((tokenize doc.text).count term)) (u32 (tokenize doc.text).length)
    avgdl * doc.weight

theorem scoreTerm_map (ln : R → R) (docs : List Doc) (avgdl : R) (f : Doc → R) (term : Str) :
    scoreTerm ln docs avgdl (docs.map f) term = docs.map fun doc =>
    f doc + worth ln docs avgdl doc term := by
  have hdf : (docs.map fun doc => (tokenize doc.text).count term).countP (fun count => 0 < count) =
      docs.countP fun doc => 0 < (tokenize doc.text).count term := List.countP_map
  unfold scoreTerm
  simp only [hdf]
  split
  · rename_i hnone
    rw [List.countP_eq_zero] at hnone
    refine List.map_congr_left fun doc hdoc => ?_
    have hcount : (tokenize doc.text).count term = 0 := Nat.eq_zero_of_not_pos fun h =>
        hnone doc hdoc (decide_eq_true h)
    rw [worth, if_pos hcount, add_zero]
  · have hzip : docs.zip (docs.map fun doc => (tokenize doc.text).count term) =
        docs.map fun doc => (doc, (tokenize doc.text).count term) := by
      have hpair := List.zip_map' (l := docs) (f := id)
          (g := fun doc => (tokenize doc.text).count term)
      rwa [List.map_id] at hpair
    rw [hzip, List.zipWith_map, List.zipWith_self]
    refine List.map_congr_left fun doc _ => ?_
    simp only [worth]
    split
    · rw [add_zero]
    · rfl

theorem scores_eq (ln : R → R) (docs : List Doc) (avgdl : R) (terms : List Str) (f : Doc → R) :
    terms.foldl (scoreTerm ln docs avgdl) (docs.map f) = docs.map fun doc =>
    f doc + (terms.map (worth ln docs avgdl doc)).sum := by
  induction terms generalizing f with
  | nil => simp
  | cons term terms ih =>
    rw [List.foldl_cons, scoreTerm_map, ih]
    refine List.map_congr_left fun doc _ => ?_
    rw [List.map_cons, List.sum_cons, add_assoc]

end

/-! ## The same scores -/

def scanned (docs : List (Str × Str × ℚ)) : List Doc := docs.map fun e => ⟨e.2.1, e.2.2⟩

section
variable [TextStd]

variable {R : Type} [Field R] {D : Corpus} {docs : List (Str × Str × ℚ)}

theorem matched_exact (t text : Str) : matched ⟨t, false⟩ text = if t ∈ tokenize text then [t] else [] := by
  have hmem : ∀ word, word ∈ matched ⟨t, false⟩ text ↔ word ∈ tokenize text ∧ word = t :=
    fun word => mem_matched
  have hnodup := nodup_matched ⟨t, false⟩ text
  split
  · rename_i ht
    refine List.perm_singleton.mp ((List.perm_ext_iff_of_nodup hnodup (List.nodup_singleton t)).mpr
      fun word => ?_)
    rw [hmem, List.mem_singleton]
    exact ⟨fun h => h.2, fun h => ⟨h ▸ ht, h⟩⟩
  · rename_i ht
    exact List.eq_nil_iff_forall_not_mem.mpr fun word hword =>
      ht (((hmem word).mp hword).2 ▸ ((hmem word).mp hword).1)

theorem live_worded (hperm : docs.Perm D.toList) (h : ∀ e ∈ docs, tokenize e.2.1 ≠ []) :
    live D = D.toList := by
  rw [live, List.filter_eq_self]
  intro e he
  simpa using h e (hperm.mem_iff.mpr he)

theorem rows_exact (hperm : docs.Perm D.toList) (t : Str) :
    (rows D ⟨t, false⟩).length = (scanned docs).countP fun doc => 0 < (tokenize doc.text).count t := by
  rw [rows_holders.mpr (single_exact rfl), holders_length, scanned, List.countP_map,
    ← hperm.countP_eq]
  refine List.countP_congr fun e _ => ?_
  rw [matched_exact, Function.comp_apply, decide_eq_true_eq, List.count_pos_iff]
  split
  · rename_i ht
    simp [ht]
  · rename_i ht
    simp [ht]

theorem docs_scanned (hperm : docs.Perm D.toList) (hworded : ∀ e ∈ docs, tokenize e.2.1 ≠ []) :
    (corpusStats u32 D).docs = (scanned docs).length := by
  rw [corpusStats, live_worded hperm hworded, scanned, List.length_map, hperm.length_eq]

theorem avgdl_scanned (hperm : docs.Perm D.toList) (hworded : ∀ e ∈ docs, tokenize e.2.1 ≠ [])
    (hshort : ShortCorpus D) :
    (((scanned docs).map fun doc => (tokenize doc.text).length).sum / (scanned docs).length : R) =
    avgdl D := by
  have htotal : ((scanned docs).map fun doc => (tokenize doc.text).length).sum =
      (corpusStats u32 D).totalLen := by
    rw [corpusStats_short hshort, corpusStats, live_worded hperm hworded, scanned, List.map_map]
    exact (hperm.map _).sum_nat
  rw [avgdl, docs_scanned hperm hworded, htotal]

theorem worth_eq (ln : R → R) (hperm : docs.Perm D.toList)
    (hworded : ∀ e ∈ docs, tokenize e.2.1 ≠ []) (t text : Str) (weight : ℚ) :
    worth ln (scanned docs) (avgdl D) ⟨text, weight⟩ t = termScore ln D ⟨t, false⟩ text weight := by
  rw [worth, termScore, ← rows_exact hperm, ← docs_scanned hperm hworded, matched_exact]
  simp only [List.count_eq_zero]
  by_cases ht : t ∈ tokenize text
  · rw [if_neg (not_not.mpr ht), if_pos ht, List.map_singleton, List.sum_singleton]
  · rw [if_pos ht, if_neg ht]
    rfl

end

/-! ## The same terms -/

section
variable {μ : Type} [TextStd] [SearchStd μ] {query : Str}

omit [TextStd] in
theorem splitOnP_separators {p : Char → Bool} {text piece : Str} (h : ∀ c ∈ text, p c = true)
    (hp : piece ∈ text.splitOnP p) : piece = [] := by
  induction text with
  | nil => exact List.mem_singleton.mp hp
  | cons c text ih =>
    rw [List.splitOnP_cons_eq_if_modifyHead, if_pos (h c List.mem_cons_self), List.mem_cons] at hp
    exact hp.elim id (ih fun c hc => h c (List.mem_cons_of_mem _ hc))

theorem tokenize_separators {text : Str} (h : ∀ c ∈ text, TextStd.isAlphanumeric c = false) :
    tokenize text = [] := by
  refine List.eq_nil_iff_forall_not_mem.mpr fun t ht => ?_
  obtain ⟨piece, hpiece, -⟩ := List.mem_map.mp (List.mem_of_mem_filter ht)
  obtain ⟨hpiece, hlong⟩ := List.mem_filter.mp hpiece
  rw [splitOnP_separators (fun c hc => by rw [h c hc]; rfl) hpiece] at hlong
  cases hlong

variable (μ) in
/-- A query whose tokens the index looks up, all of them and as often as each other. -/
structure Literal (query : Str) : Prop where
  starless : ∀ raw ∈ words μ query, raw.getLast? = some '*' →
    ∀ c ∈ raw, TextStd.isAlphanumeric c = false
  leading : ∀ t ∈ tokenize query, t ≠ [] ∧ ∃ raw ∈ words μ query, (tokenize raw).head? = some t
  even : ∃ n, ∀ t ∈ tokenize query, (tokenize query).count t = n

theorem Literal.first (h : Literal μ query) {raw : Str} (hraw : raw ∈ words μ query) :
    queryTerm μ raw = firstWord raw ∨ (queryTerm μ raw).text = [] ∧ tokenize raw = [] := by
  by_cases hlast : raw.getLast? = some '*'
  · have hseps := h.starless raw hraw hlast
    have hstars : (trimStars raw).filter TextStd.isAlphanumeric = [] := by
      refine List.filter_eq_nil_iff.mpr fun c hc => ?_
      rw [trimStars, List.mem_reverse] at hc
      rw [hseps c (List.mem_reverse.mp ((List.dropWhile_sublist _).mem hc))]
      exact Bool.false_ne_true
    refine .inr ⟨?_, tokenize_separators hseps⟩
    rw [queryTerm, if_pos hlast, Store.normalize, hstars]
    rfl
  · exact .inl (queryTerm_of_last hlast)

theorem Literal.terms (h : Literal μ query)
    (hspace : ∀ c, SearchStd.isWhitespace μ c = true → TextStd.isAlphanumeric c = false)
    {term : Term} : term ∈ queryTerms μ query ↔ term.isPrefix = false ∧
    term.text ∈ tokenize query := by
  rw [mem_queryTerms]
  constructor
  · intro ⟨hne, raw, hraw, he⟩
    subst he
    rcases h.first hraw with hfirst | ⟨hnone, -⟩
    · rw [hfirst] at hne ⊢
      refine ⟨rfl, mem_tokenize_of_word hspace hraw ?_⟩
      unfold firstWord at hne ⊢
      cases ht : tokenize raw with
      | nil =>
        rw [ht] at hne
        exact absurd rfl hne
      | cons t rest => exact List.mem_cons_self
    · exact absurd hnone hne
  · intro ⟨hexact, ht⟩
    obtain ⟨hne, raw, hraw, hhead⟩ := h.leading _ ht
    have hterm : firstWord raw = term := by
      rw [firstWord, List.headD_eq_head?_getD, hhead, Option.getD_some, ← hexact]
    rcases h.first hraw with hfirst | ⟨-, hnone⟩
    · exact ⟨hne, raw, hraw, hfirst.trans hterm⟩
    · rw [hnone] at hhead
      cases hhead

/-- Each token occurs in the query as often as any, and once among the terms. -/
theorem Literal.perm (h : Literal μ query)
    (hspace : ∀ c, SearchStd.isWhitespace μ c = true → TextStd.isAlphanumeric c = false) :
    ∃ n, (tokenize query).Perm (List.replicate n ((queryTerms μ query).map (·.text))).flatten := by
  obtain ⟨n, hn⟩ := h.even
  have hnodup : ((queryTerms μ query).map (·.text)).Nodup := by
    refine List.Nodup.map_on (fun a ha b hb hab => ?_) (nodup_queryTerms query)
    have ha := ((h.terms hspace).mp ha).1
    have hb := ((h.terms hspace).mp hb).1
    cases a
    cases b
    simp only at ha hb hab
    rw [ha, hb, hab]
  refine ⟨n, perm_flatten_replicate hnodup (fun t ht => ?_) fun t ht => ?_⟩
  · obtain ⟨term, hterm, rfl⟩ := List.mem_map.mp ht
    exact hn _ ((h.terms hspace).mp hterm).2
  · exact List.mem_map.mpr ⟨⟨t, false⟩, (h.terms hspace).mpr ⟨rfl, ht⟩, rfl⟩

end

/-! ## The same order -/

section
variable {R : Type} [Field R] [LinearOrder R] [TextStd] {ln : R → R} {D : Corpus}
  {docs : List (Str × Str × ℚ)} {terms : List Term} {limit : Nat}

def placed (ln : R → R) (D : Corpus) (docs : List (Str × Str × ℚ)) (terms : List Term) :
    List ((Str × Str × ℚ) × Nat) :=
  (docs.zipIdx.filter fun b => 0 < score ln D terms b.1.2.1 b.1.2.2).insertionSort fun a b =>
    score ln D terms b.1.2.1 b.1.2.2 ≤ score ln D terms a.1.2.1 a.1.2.2

theorem mem_placed {b : (Str × Str × ℚ) × Nat} (h : b ∈ placed ln D docs terms) :
    docs[b.2]? = some b.1 :=
  List.mem_zipIdx_iff_getElem?.mp (List.mem_of_mem_filter ((List.mem_insertionSort _).mp h))

theorem placed_nil (h : ∀ e ∈ docs, score ln D terms e.2.1 e.2.2 = 0) :
    placed ln D docs terms = [] := by
  have hnone : (docs.zipIdx.filter fun b => decide (0 < score ln D terms b.1.2.1 b.1.2.2)) = [] := by
    rw [List.filter_eq_nil_iff]
    intro b hb
    rw [h b.1 (List.fst_mem_of_mem_zipIdx hb), decide_eq_true_eq]
    exact lt_irrefl 0
  rw [placed, hnone, List.insertionSort_nil]

/-- Documents that are worth the same are scanned in the order of their keys. -/
def Tied (ln : R → R) (D : Corpus) (docs : List (Str × Str × ℚ)) (terms : List Term) : Prop :=
  docs.Pairwise fun a b => 0 < score ln D terms a.2.1 a.2.2 →
    score ln D terms a.2.1 a.2.2 = score ln D terms b.2.1 b.2.2 →
    compare a.1 b.1 = .lt

/-- What the index ranks, in whatever order the documents are listed. -/
theorem ranking_eq (hperm : docs.Perm D.toList) : ranking ln D terms limit =
    (((docs.zipIdx.filter fun b => 0 < score ln D terms b.1.2.1 b.1.2.2).map fun b =>
      (b.1.1, score ln D terms b.1.2.1 b.1.2.2)).insertionSort Ranking.Ranked).take limit := by
  have hplaces : (docs.map fun e => (e.1, score ln D terms e.2.1 e.2.2)) =
      docs.zipIdx.map fun b => (b.1.1, score ln D terms b.1.2.1 b.1.2.2) := by
    conv_lhs => rw [← List.zipIdx_map_fst 0 docs]
    rw [List.map_map]
    rfl
  have hlist : ((D.toList.map fun e => (e.1, score ln D terms e.2.1 e.2.2)).filter fun hit =>
      decide (0 < hit.2)).Perm
      ((docs.zipIdx.filter fun b => decide (0 < score ln D terms b.1.2.1 b.1.2.2)).map fun b =>
        (b.1.1, score ln D terms b.1.2.1 b.1.2.2)) := by
    have hfilter := (hperm.symm.map fun e => (e.1, score ln D terms e.2.1 e.2.2)).filter fun hit =>
        decide (0 < hit.2)
    rw [hplaces] at hfilter
    refine hfilter.trans ?_
    rw [List.filter_map]
    rfl
  rw [ranking, insertionSort_congr hlist]

theorem ranking_placed (hperm : docs.Perm D.toList) (hties : Tied ln D docs terms) :
    ranking ln D terms limit = ((placed ln D docs terms).map fun b =>
      (b.1.1, score ln D terms b.1.2.1 b.1.2.2)).take limit := by
  have hties : (docs.zipIdx.filter fun b => decide (0 < score ln D terms b.1.2.1 b.1.2.2)).Pairwise fun a b =>
      score ln D terms a.1.2.1 a.1.2.2 = score ln D terms b.1.2.1 b.1.2.2 →
        compare a.1.1 b.1.1 = .lt := by
    unfold Tied at hties
    rw [← List.zipIdx_map_fst 0 docs, List.pairwise_map] at hties
    refine (hties.filter _).imp_of_mem fun {a b} ha _ hab => hab ?_
    exact of_decide_eq_true (List.mem_filter.mp ha).2
  rw [ranking_eq hperm, placed]
  congr 1
  refine (map_insertionSort_of_agree (hties.imp fun {a b} hab => ?_)).symm
  unfold Ranking.Ranked
  rw [le_iff_lt_or_eq]
  refine or_congr_right ⟨fun he => ⟨he, ?_⟩, fun h => h.1⟩
  rw [hab he.symm]
  exact Ordering.noConfusion

omit [TextStd] in
theorem keys_ne (hperm : docs.Perm D.toList) : docs.Pairwise fun a b => a.1 ≠ b.1 :=
  hperm.symm.pairwise (nodup_keys D) fun h => h.symm

theorem ranked_score (hperm : docs.Perm D.toList) {e : Str × Str × ℚ} (he : e ∈ docs)
    {hit : Str × R} (hhit : hit ∈ ranking ln D terms limit)
    (hkey : hit.1 = e.1) : hit.2 = score ln D terms e.2.1 e.2.2 := by
  rw [ranking] at hhit
  obtain ⟨e', he', rfl⟩ := List.mem_map.mp
      (List.mem_of_mem_filter ((List.mem_insertionSort _).mp (List.mem_of_mem_take hhit)))
  have hget := Std.ExtTreeMap.mem_toList_iff_getElem?_eq_some.mp he'
  have hget' := Std.ExtTreeMap.mem_toList_iff_getElem?_eq_some.mp (hperm.mem_iff.mp he)
  simp only at hkey
  rw [hkey, hget'] at hget
  rw [Option.some.inj hget]

theorem tied_of_keys (hperm : docs.Perm D.toList)
    (h : (placed ln D docs terms).map (·.1.1) = (ranking ln D terms limit).map (·.1)) :
    Tied ln D docs terms := by
  unfold Tied
  rw [List.pairwise_iff_forall_sublist]
  intro a b hab hpos heq
  have hne : a.1 ≠ b.1 := List.pairwise_iff_forall_sublist.mp (keys_ne hperm) hab
  have hsub : [a, b].Sublist (docs.zipIdx.map (·.1)) := by rwa [List.zipIdx_map_fst]
  obtain ⟨pa, pb, hplaces, hpa, hpb⟩ := pair_sublist_map hsub
  -- the one scanned first stays in front, among the places and so among the keys
  have hsorted : [pa, pb].Sublist (placed ln D docs terms) := by
    refine List.pair_sublist_insertionSort (by rw [hpa, hpb, heq]) ?_
    have hfilter := hplaces.filter fun p => decide (0 < score ln D terms p.1.2.1 p.1.2.2)
    have hkept : [pa, pb].filter (fun p => decide (0 < score ln D terms p.1.2.1 p.1.2.2)) = [pa, pb] := by
      rw [List.filter_eq_self]
      intro p hp
      rcases List.mem_pair.mp hp with rfl | rfl
      · rw [hpa]
        exact decide_eq_true hpos
      · rw [hpb, ← heq]
        exact decide_eq_true hpos
    rwa [hkept] at hfilter
  have hkeys := hsorted.map (·.1.1)
  rw [h, List.map_cons, List.map_cons, List.map_nil, hpa, hpb] at hkeys
  obtain ⟨x, y, hxy, hx, hy⟩ := pair_sublist_map hkeys
  have hranked : (ranking ln D terms limit).Pairwise Ranking.Ranked :=
    (List.pairwise_insertionSort _ _).sublist (List.take_sublist _ _)
  have hscore := ranked_score hperm (hab.subset List.mem_cons_self)
      (hxy.subset List.mem_cons_self) hx
  have hscore' := ranked_score hperm (hab.subset (List.mem_cons_of_mem _ List.mem_cons_self))
    (hxy.subset (List.mem_cons_of_mem _ List.mem_cons_self)) hy
  rcases List.pairwise_iff_forall_sublist.mp hranked hxy with hlt | ⟨-, hle⟩
  · rw [hscore, hscore', heq] at hlt
    exact absurd hlt (lt_irrefl _)
  · rw [hx, hy] at hle
    cases hc : compare a.1 b.1 with
    | lt => rfl
    | eq => exact absurd (Std.LawfulEqOrd.eq_of_compare hc) hne
    | gt => exact absurd hc hle

variable [IsStrictOrderedRing R]

theorem ranked_placed (ln : R → R) (D : Corpus) (docs : List (Str × Str × ℚ)) (terms : List Term)
    (limit : Nat) {n : Nat} (hn : 0 < n) :
    ((((docs.map fun e => n * score ln D terms e.2.1 e.2.2).zipIdx.map fun score =>
      (score.2, score.1)).filter fun hit =>
      decide (0 < hit.2)).insertionSort fun a b => b.2 ≤ a.2).take limit =
      ((placed ln D docs terms).map fun b => (b.2, n * score ln D terms b.1.2.1 b.1.2.2)).take limit := by
  have hn : (0 : R) < n := Nat.cast_pos.mpr hn
  rw [List.zipIdx_map, List.map_map, List.filter_map, placed]
  congr 1
  have hfilter : (docs.zipIdx.filter ((fun hit : Nat × R => decide (0 < hit.2)) ∘
      (fun score : R × Nat => (score.2, score.1)) ∘ Prod.map
        (fun e => n * score ln D terms e.2.1 e.2.2) id)) =
      docs.zipIdx.filter fun b => decide (0 < score ln D terms b.1.2.1 b.1.2.2) :=
    List.filter_congr fun b _ => decide_eq_decide.mpr (mul_pos_iff_of_pos_left hn)
  rw [hfilter]
  refine (map_insertionSort_of_agree (List.pairwise_of_forall fun a b => ?_)).symm
  exact (mul_le_mul_iff_right₀ hn).symm

theorem avgdl_pos (hperm : docs.Perm D.toList) (hworded : ∀ e ∈ docs, tokenize e.2.1 ≠ [])
    (hshort : ShortCorpus D) (hne : docs ≠ []) :
    0 < avgdl (R := R) D := by
  obtain ⟨e, he⟩ := List.exists_mem_of_ne_nil _ hne
  have hlen : 0 < ((scanned docs).map fun doc => (tokenize doc.text).length).sum := by
    refine (List.length_pos_of_ne_nil (hworded e he)).trans_le ?_
    rw [scanned, List.map_map]
    exact List.single_le_sum (fun _ _ => Nat.zero_le _) _ (List.mem_map.mpr ⟨e, he, rfl⟩)
  have hdocs : 0 < (scanned docs).length := by
    rw [scanned, List.length_map]
    exact List.length_pos_of_mem he
  rw [← avgdl_scanned hperm hworded hshort]
  exact div_pos (Nat.cast_pos.mpr hlen) (Nat.cast_pos.mpr hdocs)

variable {μ : Type} [SearchStd μ] {query : Str}

omit [LinearOrder R] [IsStrictOrderedRing R] in
theorem sum_worth (ln : R → R) (hperm : docs.Perm D.toList)
    (hworded : ∀ e ∈ docs, tokenize e.2.1 ≠ [])
    (hexact : ∀ term ∈ queryTerms μ query, term.isPrefix = false) {n : Nat}
    (hterms : (tokenize query).Perm (List.replicate n ((queryTerms μ query).map (·.text))).flatten)
    (text : Str) (weight : ℚ) :
    ((tokenize query).map (worth ln (scanned docs) (avgdl D) ⟨text, weight⟩)).sum =
    n * score ln D (queryTerms μ query) text weight := by
  have hscores : ((queryTerms μ query).map (·.text)).map
      (worth ln (scanned docs) (avgdl D) ⟨text, weight⟩) =
      (queryTerms μ query).map fun term => termScore ln D term text weight := by
    rw [List.map_map]
    refine List.map_congr_left fun term hterm => ?_
    rw [Function.comp_apply, worth_eq ln hperm hworded, ← hexact term hterm]
  rw [(hterms.map _).sum_eq, List.map_flatten, List.map_replicate, hscores, List.sum_flatten,
    List.map_replicate, List.sum_replicate,
    nsmul_eq_mul, score]

theorem rank_placed (hspace : ∀ c, SearchStd.isWhitespace μ c = true →
    TextStd.isAlphanumeric c = false) (ln : R → R)
    (hperm : docs.Perm D.toList) (hworded : ∀ e ∈ docs, tokenize e.2.1 ≠ [])
    (hshort : ShortCorpus D) (hquery : Literal μ query) :
    ∃ n : Nat, ∀ limit, rank ln (scanned docs) query limit =
      ((placed ln D docs (queryTerms μ query)).map fun b =>
        (b.2, n * score ln D (queryTerms μ query) b.1.2.1 b.1.2.2)).take limit := by
  obtain ⟨n, hocc⟩ := hquery.perm hspace
  refine ⟨n, fun limit => ?_⟩
  have hterms : (tokenize query).filter (fun term => !isStopword term) = tokenize query :=
    List.filter_eq_self.mpr fun t ht => (List.mem_filter.mp ht).2
  have hscores : (tokenize query).foldl (scoreTerm ln (scanned docs) (avgdl D))
      (List.replicate (scanned docs).length 0) =
      docs.map fun e => n * score ln D (queryTerms μ query) e.2.1 e.2.2 := by
    rw [← List.map_const', scores_eq, scanned, List.map_map]
    refine List.map_congr_left fun e _ => ?_
    exact (zero_add _).trans
      (sum_worth ln hperm hworded (fun term hterm => ((hquery.terms hspace).mp hterm).1)
        hocc e.2.1 e.2.2)
  unfold rank
  simp only [hterms, avgdl_scanned hperm hworded hshort, hscores]
  split
  -- nothing to look for, a limit of zero, or nothing to search
  · rename_i hnone
    simp only [Bool.or_eq_true, List.isEmpty_iff, decide_eq_true_eq] at hnone
    rcases hnone with (hnone | hlimit) | hdocs
    · have hno : queryTerms μ query = [] := by
        refine List.eq_nil_iff_forall_not_mem.mpr fun term hterm => ?_
        have ht := ((hquery.terms hspace).mp hterm).2
        rw [hnone] at ht
        cases ht
      rw [hno, placed_nil fun _ _ => rfl, List.map_nil, List.take_nil]
    · rw [hlimit, List.take_zero]
    · have hempty : docs = [] := List.map_eq_nil_iff.mp hdocs
      rw [hempty, placed_nil fun e he => absurd he List.not_mem_nil, List.map_nil, List.take_nil]
  · rename_i hsome
    simp only [Bool.or_eq_true, List.isEmpty_iff, decide_eq_true_eq, not_or] at hsome
    obtain ⟨⟨hsome, -⟩, hdocs⟩ := hsome
    -- otherwise the average length is positive, and every score a multiple of the one by terms
    have hpos : 0 < avgdl (R := R) D := avgdl_pos hperm hworded hshort fun h =>
        hdocs (by rw [h]; rfl)
    have hn : 0 < n := by
      refine Nat.pos_of_ne_zero fun h => hsome ?_
      rw [h] at hocc
      exact hocc.eq_nil
    rw [if_neg hpos.ne']
    exact ranked_placed ln D docs (queryTerms μ query) limit hn

/-- Both give the same documents in the same order, whatever the limit, exactly when the ties are
scanned in key order. -/
theorem rank_keys_iff (hspace : ∀ c, SearchStd.isWhitespace μ c = true →
    TextStd.isAlphanumeric c = false) (ln : R → R)
    (hperm : docs.Perm D.toList) (hworded : ∀ e ∈ docs, tokenize e.2.1 ≠ [])
    (hshort : ShortCorpus D) (hquery : Literal μ query) :
    (∀ limit, (rank ln (scanned docs) query limit).map (fun hit => docs[hit.1]?.map (·.1)) =
      (ranking ln D (queryTerms μ query) limit).map fun hit => some hit.1) ↔
      Tied ln D docs (queryTerms μ query) := by
  obtain ⟨n, hrank⟩ := rank_placed hspace ln hperm hworded hshort hquery
  have hkeys : ∀ limit, (rank ln (scanned docs) query limit).map
      (fun hit => docs[hit.1]?.map (·.1)) =
      (((placed ln D docs (queryTerms μ query)).map (·.1.1)).map some).take limit := by
    intro limit
    rw [hrank, List.map_take, List.map_map, List.map_map]
    congr 1
    refine List.map_congr_left fun b hb => ?_
    simp only [Function.comp_apply, mem_placed hb, Option.map_some]
  constructor
  · intro h
    have hall := h docs.length
    have hlength : (placed ln D docs (queryTerms μ query)).length ≤ docs.length := by
      rw [placed, List.length_insertionSort]
      exact (List.length_filter_le _ _).trans (by rw [List.length_zipIdx])
    have hsome : (ranking ln D (queryTerms μ query) docs.length).map (fun hit => some hit.1) =
        ((ranking ln D (queryTerms μ query) docs.length).map (·.1)).map some := by
      rw [List.map_map]
      rfl
    rw [hkeys, List.take_of_length_le (by rwa [List.length_map, List.length_map]), hsome] at hall
    exact tied_of_keys hperm (List.map_injective_iff.mpr (Option.some_injective _) hall)
  · intro hties limit
    rw [hkeys, ranking_placed hperm hties, List.map_take, List.map_map, List.map_map]
    rfl

omit [IsStrictOrderedRing R] in
theorem Tied.of_sorted (ln : R → R) (D : Corpus) (terms : List Term)
    (h : docs.Pairwise fun a b => compare a.1 b.1 = .lt) :
    Tied ln D docs terms := h.imp fun hab _ _ => hab

end

section
variable {μ : Type} [TextStd] [SearchStd μ]

/-- Over documents that have a token each, a scan ranks a literal query as the index
does exactly when it comes to the documents that tie in the order of their keys. -/
theorem rank_same_iff {s₀ : Kv μ} (hspace : ∀ c, SearchStd.isWhitespace μ c = true →
    TextStd.isAlphanumeric c = false)
    (h₀ : ∀ k, s₀[((.text, k) : Cell)]? = none) (ops : List TextOp) (hops : ∀ op ∈ ops, op.Short) :
    ∃ s, Prog.interp memory (forM ops TextOp.run) s₀ = .ok () s ∧
    ∀ index docs query, docs.Perm (corpus ops index).toList →
      (∀ e ∈ docs, tokenize e.2.1 ≠ []) → Literal μ query →
        ((∀ limit, ∃ hits, Prog.interp memory (searchText Real.log index query limit) s = .ok hits s ∧
          (rank Real.log (scanned docs) query limit).map (fun hit => docs[hit.1]?.map (·.1)) =
          hits.map fun hit => some hit.1) ↔
            Tied Real.log (corpus ops index) docs (queryTerms μ query)) := by
  obtain ⟨_, s, hi, h⟩ := (wp_textOps (Exact.empty h₀)).answers
  refine ⟨s, hi, fun index docs query hperm hworded hquery => ?_⟩
  rw [← rank_keys_iff hspace Real.log hperm hworded (shortCorpus_corpus hops index) hquery]
  refine forall_congr' fun limit =>
    ⟨fun ⟨hits, hi, hsame⟩ => ?_, fun hsame => ⟨_, interp_searchText h index query limit, hsame⟩⟩
  rw [interp_searchText h index query limit] at hi
  cases hi
  exact hsame

end

section
open Store.Plain

def talks : List TextOp :=
  [.indexText .messages "a".toList "crab talk".toList 1,
    .indexText .messages "b".toList "talk about talk".toList (3 / 2)]

theorem plain_space (c : Char) (h : SearchStd.isWhitespace Message c = true) :
    TextStd.isAlphanumeric c = false := by
  simp only [SearchStd.isWhitespace, Char.isWhitespace, Bool.or_eq_true, decide_eq_true_eq] at h
  rcases h with ((rfl | rfl) | rfl) | rfl <;> rfl

theorem rank_same_instance : ∃ s : Kv Message, Prog.interp memory (forM talks TextOp.run) ∅ = .ok () s ∧
    ∀ limit, ∃ hits, Prog.interp memory (searchText Real.log .messages "crab talk".toList limit) s =
    .ok hits s ∧
      (rank Real.log (scanned (corpus talks .messages).toList) "crab talk".toList limit).map
        (fun hit => (corpus talks .messages).toList[hit.1]?.map (·.1)) = hits.map fun hit =>
        some hit.1 := by
  have hempty : ∀ k, (∅ : Kv Message)[((.text, k) : Cell)]? = none := by simp
  obtain ⟨s, hs, hiff⟩ := rank_same_iff plain_space hempty talks (by
    intro op hop
    simp only [talks, List.mem_cons, List.not_mem_nil, or_false] at hop
    rcases hop with rfl | rfl
    · show (tokenize _).length < _
      decide
    · show (tokenize _).length < _
      decide)
  have hwords : words Message "crab talk".toList = ["crab".toList, "talk".toList] := by decide
  have htokens : tokenize "crab talk".toList = ["crab".toList, "talk".toList] := by decide
  have hquery : Literal Message "crab talk".toList := by
    refine ⟨fun raw hraw hlast => ?_, fun t ht => ?_, 1, fun t ht => ?_⟩
    · rw [hwords] at hraw
      rcases List.mem_pair.mp hraw with rfl | rfl
      · exact absurd hlast (by decide)
      · exact absurd hlast (by decide)
    · rw [hwords]
      rw [htokens] at ht
      rcases List.mem_pair.mp ht with rfl | rfl
      · exact ⟨by decide, _, List.mem_cons_self, by decide⟩
      · exact ⟨by decide, _, List.mem_cons_of_mem _ List.mem_cons_self, by decide⟩
    · rw [htokens] at ht ⊢
      rcases List.mem_pair.mp ht with rfl | rfl
      · decide
      · decide
  have hworded : ∀ e ∈ (corpus talks .messages).toList, tokenize e.2.1 ≠ [] := by
    have hall : ((corpus talks .messages).toList.all fun e => !(tokenize e.2.1).isEmpty) = true := by decide
    simpa only [List.all_eq_true, Bool.not_eq_true', List.isEmpty_eq_false_iff] using hall
  exact ⟨s, hs, (hiff .messages _ _ (List.Perm.refl _) hworded hquery).mpr
    (Tied.of_sorted _ _ _ Std.ExtTreeMap.ordered_keys_toList)⟩

def talk : List TextOp := [.indexText .messages "a".toList "talk".toList 1]

/-- A scan takes the halves of the query for two terms, the index takes the first for all of it. -/
theorem rank_differs : ∃ s : Kv Message, Prog.interp memory (forM talk TextOp.run) ∅ = .ok () s ∧
    (∀ limit, Prog.interp memory (searchText Real.log .messages "crab-talk".toList limit) s = .ok [] s) ∧
    ∀ limit, 1 ≤ limit → (rank Real.log [⟨"talk".toList, 1⟩] "crab-talk".toList limit).map
    (·.1) = [0] := by
  have hw : Prog.wp False memory (forM talk TextOp.run) (fun _ => Exact (corpus talk))
      (fun _ _ => False) (∅ : Kv Message) :=
    wp_textOps (Exact.empty (by simp))
  obtain ⟨_, s, hs, h⟩ := hw.answers
  have hterms : queryTerms Message "crab-talk".toList = [⟨"crab".toList, false⟩] := by decide
  refine ⟨s, hs, fun limit => ?_, fun limit hlimit => ?_⟩
  · have hnone : ranking Real.log (corpus talk .messages) [⟨"crab".toList, false⟩] limit = [] :=
      ranking_of_rows_nil (by decide)
    rw [interp_searchText h, hterms]
    exact congrArg (EStateM.Result.ok · s) hnone
  · have htokens : (tokenize "crab-talk".toList).filter (fun term => !isStopword term) =
        ["crab".toList, "talk".toList] := by decide
    have hlen : ([⟨"talk".toList, 1⟩].map fun doc : Doc => (tokenize doc.text).length).sum = 1 := by decide
    -- nothing for the first half, something for the second
    have hscores := scores_eq Real.log [⟨"talk".toList, 1⟩] (1 : ℝ) ["crab".toList, "talk".toList] fun _ => 0
    have hcrab : worth Real.log [⟨"talk".toList, 1⟩] (1 : ℝ) ⟨"talk".toList, 1⟩ "crab".toList = 0 := by
      rw [worth, if_pos (by decide)]
    have hpos : 0 < worth Real.log [⟨"talk".toList, 1⟩] (1 : ℝ) ⟨"talk".toList, 1⟩ "talk".toList := by
      rw [worth, if_neg (by decide), Rat.cast_one, mul_one]
      exact mul_pos ((idf_pos log_pos_iff).mpr (by decide)) (weigh_pos _ (by decide) zero_le_one)
    simp only [List.map_cons, List.map_nil, List.sum_cons, List.sum_nil, hcrab, zero_add, add_zero] at hscores
    unfold rank
    simp only [htokens, hlen, List.length_singleton, Nat.cast_one, div_one,
      List.replicate_one, hscores]
    generalize worth Real.log [⟨"talk".toList, 1⟩] (1 : ℝ) ⟨"talk".toList, 1⟩ "talk".toList = w at hpos ⊢
    have hkept : ([(0, w)].filter fun hit : Nat × ℝ => decide (0 < hit.2)) = [(0, w)] := by
      simp [hpos]
    rw [if_neg (by simp; omega), if_neg one_ne_zero, List.zipIdx_cons, List.zipIdx_nil,
      List.map_singleton, hkept,
      List.insertionSort_cons, List.insertionSort_nil, List.orderedInsert_nil,
      List.take_of_length_le hlimit, List.map_singleton]

end

end Crabtalk.Backend.Search

import Crabtalk.Search.Merge

/-!
# In which order the lists arrive

What is chosen for a URL is the first of something in the list that arrives
first among those that have it, and any of these can. The rest is the same in
every order.
-/

open Basis

namespace Crabtalk.Aggregator

def resultsOf (L : List (List SearchResult)) (u : Str) : List SearchResult :=
  L.flatten.filter fun r => normalizeUrl r.url = u

def firsts (L : List (List SearchResult)) (u : Str) : List SearchResult :=
  L.filterMap fun results => results.find? fun r => normalizeUrl r.url = u

def longs (L : List (List SearchResult)) (u : Str) : List SearchResult :=
  L.filterMap fun results => results.find? fun r => normalizeUrl r.url = u ∧
    utf8Length r.description = longest (resultsOf L u)

def scoreOf (L : List (List SearchResult)) (u : Str) (r : SearchResult) : ℚ :=
  ((occurrences L u).map fun item => positionScore item.2).sum +
    ((((resultsOf L u).flatMap (·.engines)).dedup.length + repeats r.engines : ℕ) - 1) * (1 / 2)

structure Chosen (L : List (List SearchResult)) (u : Str) (e : SearchResult) : Prop where
  first : ∃ r, (firsts L u).head? = some r ∧ e.url = r.url ∧ e.title = r.title ∧
    e.score = scoreOf L u r
  long : ∃ d, (longs L u).head? = some d ∧ e.description = d.description
  engines : ∀ x, x ∈ e.engines ↔ ∃ q ∈ resultsOf L u, x ∈ q.engines

section
variable {L L' : List (List SearchResult)} {u : Str} {r d e : SearchResult}

theorem occurrences_results (L : List (List SearchResult)) (u : Str) :
    (occurrences L u).map (·.1) = resultsOf L u := by
  have hitems : (items L).map (·.1) = L.flatten := by
    rw [items, List.map_flatMap]
    simp only [List.zipIdx_map_fst]
    exact List.flatMap_id'
  rw [resultsOf, ← hitems, List.filter_map]
  rfl

theorem head?_resultsOf (L : List (List SearchResult)) (u : Str) :
    (resultsOf L u).head? = (firsts L u).head? := by
  rw [resultsOf, List.head?_filter, List.find?_flatten, firsts, List.head?_filterMap]

theorem find?_resultsOf (L : List (List SearchResult)) (u : Str) :
    (resultsOf L u).find? (fun q => utf8Length q.description = longest (resultsOf L u)) =
    (longs L u).head? := by
  conv_lhs => rw [resultsOf, List.find?_filter, List.find?_flatten]
  simp only [longs, List.head?_filterMap, decide_eq_true_eq]
  rfl

theorem chosen_mergeAll (h : (mergeAll L).1[u]? = some e) :
    Chosen L u (consensus (mergeAll L).2 (u, e)) := by
  rw [mergeAll_eq, find_foldl_mergeResult, ← occurrences, occurrences_results] at h
  obtain ⟨r, hr, hurl, htitle, hrep, hmem⟩ := combine_first h
  obtain ⟨d, hd, hdesc⟩ := combine_longest h
  rw [head?_resultsOf] at hr
  rw [find?_resultsOf] at hd
  refine ⟨⟨r, hr, hurl, htitle, ?_⟩, ⟨d, hd, hdesc⟩, hmem⟩
  have hdistinct : e.engines.dedup.Perm ((resultsOf L u).flatMap (·.engines)).dedup := by
    refine (List.perm_ext_iff_of_nodup (List.nodup_dedup _) (List.nodup_dedup _)).mpr fun x => ?_
    rw [List.mem_dedup, List.mem_dedup, hmem, List.mem_flatMap]
  rw [consensus, mergeAll_eq, score_foldl_mergeResult, ← occurrences, scoreOf, length_eq_repeats,
    hrep, hdistinct.length_eq]

theorem isSome_mergeAll (L : List (List SearchResult)) (u : Str) : (mergeAll L).1[u]?.isSome ↔
    resultsOf L u ≠ [] := by
  rw [mergeAll_eq, find_foldl_mergeResult, ← occurrences, occurrences_results]
  cases resultsOf L u with
  | nil => simp [combine]
  | cons r rs => simp [combine]

/-! ## Another order -/

theorem resultsOf_perm (h : L'.Perm L) (u : Str) : (resultsOf L' u).Perm (resultsOf L u) :=
  (h.flatten).filter _

theorem occurrences_perm (h : L'.Perm L) (u : Str) : (occurrences L' u).Perm (occurrences L u) :=
  (h.flatMap_right _).filter _

theorem firsts_perm (h : L'.Perm L) (u : Str) : (firsts L' u).Perm (firsts L u) := h.filterMap _

theorem longest_perm {rs rs' : List SearchResult} (h : rs'.Perm rs) : longest rs' = longest rs :=
  le_antisymm (longest_le_iff.mpr fun _ hr => le_longest (h.mem_iff.mp hr))
    (longest_le_iff.mpr fun _ hr => le_longest (h.mem_iff.mpr hr))

theorem longs_perm (h : L'.Perm L) (u : Str) : (longs L' u).Perm (longs L u) := by
  rw [longs, longest_perm (resultsOf_perm h u)]
  exact h.filterMap _

theorem scoreOf_perm (h : L'.Perm L) (u : Str) (r : SearchResult) :
    scoreOf L' u r = scoreOf L u r := by
  have hsum := ((occurrences_perm h u).map fun item => positionScore item.2).sum_eq
  have hdistinct := ((resultsOf_perm h u).flatMap_right (·.engines)).dedup.length_eq
  rw [scoreOf, scoreOf, hsum, hdistinct]

theorem exists_first (h : r ∈ firsts L u) : ∃ L', L'.Perm L ∧ (firsts L' u).head? = some r := by
  obtain ⟨results, hmem, hfind⟩ := List.mem_filterMap.mp h
  obtain ⟨A, B, rfl⟩ := List.append_of_mem hmem
  refine ⟨results :: (A ++ B), List.perm_middle.symm, ?_⟩
  rw [firsts, List.filterMap_cons_some hfind]
  rfl

theorem exists_long (h : d ∈ longs L u) : ∃ L', L'.Perm L ∧ (longs L' u).head? = some d := by
  obtain ⟨results, hmem, hfind⟩ := List.mem_filterMap.mp h
  obtain ⟨A, B, rfl⟩ := List.append_of_mem hmem
  have hperm : (results :: (A ++ B)).Perm (A ++ results :: B) := List.perm_middle.symm
  refine ⟨results :: (A ++ B), hperm, ?_⟩
  rw [longs, longest_perm (resultsOf_perm hperm u), List.filterMap_cons_some hfind]
  rfl

end

end Crabtalk.Aggregator

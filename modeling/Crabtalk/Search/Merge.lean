import Crabtalk.Basis.Scores
import Crabtalk.Search.Normalize
import Mathlib.Algebra.Field.Rat
import Mathlib.Algebra.Order.Ring.Rat

/-!
# Merging what the engines return

One result for each normalised URL: the first to arrive gives the URL and the
title, the first of the longest descriptions the description, and all of them
their engines and the score.
-/

open Basis

namespace Crabtalk.Aggregator

structure SearchResult where
  title : Str
  url : Str
  description : Str
  engines : List Str
  score : ℚ
  deriving DecidableEq

def pushNew (engines : List Str) (engine : Str) : List Str :=
  if engine ∈ engines then engines else engines ++ [engine]

def SearchResult.absorb (existing result : SearchResult) : SearchResult :=
  { existing with
    engines := result.engines.foldl pushNew existing.engines
    description := if utf8Length existing.description < utf8Length result.description
      then result.description else existing.description }

abbrev UrlMap := Std.ExtTreeMap Str SearchResult compare

abbrev PositionScores := Std.ExtTreeMap Str ℚ compare

def positionScore (position : Nat) : ℚ := 1 / (position + 1)

def mergeResult (maps : UrlMap × PositionScores) (item : SearchResult × Nat) :
    UrlMap × PositionScores :=
  let normalized := normalizeUrl item.1.url
  (maps.1.insert normalized ((maps.1[normalized]?).elim item.1 fun existing =>
    existing.absorb item.1),
    maps.2.insert normalized (maps.2[normalized]?.getD 0 + positionScore item.2))

def mergeAll (engineResults : List (List SearchResult)) : UrlMap × PositionScores :=
  engineResults.foldl (fun maps results => results.zipIdx.foldl mergeResult maps) (∅, ∅)

def consensus (scores : PositionScores) (entry : Str × SearchResult) : SearchResult :=
  { entry.2 with score := scores[entry.1]?.getD 0 + ((entry.2.engines.length : ℚ) - 1) * (1 / 2) }

/-- `order` is the one the map is walked in. -/
def mergeAndRank (order : List (Str × SearchResult) → List (Str × SearchResult))
    (engineResults : List (List SearchResult)) (maxResults : Nat) :
    List SearchResult :=
  let maps := mergeAll engineResults
  (((order maps.1.toList).map (consensus maps.2)).insertionSort fun a b => b.score ≤ a.score).take maxResults

/-! ## The results of one URL -/

def items (L : List (List SearchResult)) : List (SearchResult × Nat) :=
  L.flatMap fun results => results.zipIdx

def occurrences (L : List (List SearchResult)) (u : Str) : List (SearchResult × Nat) :=
  (items L).filter fun item => normalizeUrl item.1.url = u

def combine : List SearchResult → Option SearchResult
  | [] => none
  | r :: rs => some (rs.foldl SearchResult.absorb r)

section
variable {L L' : List (List SearchResult)} {u : Str} {r d e : SearchResult} {rs : List SearchResult}

theorem mergeAll_eq (L : List (List SearchResult)) :
    mergeAll L = (items L).foldl mergeResult (∅, ∅) := by
  rw [mergeAll, items, List.foldl_flatMap]

theorem combine_concat (rs : List SearchResult) (r : SearchResult) :
    combine (rs ++ [r]) = some ((combine rs).elim r fun e => e.absorb r) := by
  cases rs with
  | nil => rfl
  | cons q rs => rw [List.cons_append, combine, List.foldl_append]; rfl

theorem find_foldl_mergeResult (l : List (SearchResult × Nat)) (u : Str) :
    (l.foldl mergeResult (∅, ∅)).1[u]? =
    combine ((l.filter fun item => normalizeUrl item.1.url = u).map (·.1)) := by
  induction l using List.reverseRecOn with
  | nil => simp [combine]
  | append_singleton l item ih =>
    rw [List.foldl_append, List.foldl_cons, List.foldl_nil, mergeResult]
    dsimp only
    rw [find_insert, List.filter_append, List.map_append]
    by_cases hu : normalizeUrl item.1.url = u
    · rw [if_pos hu, hu, ih, List.filter_cons_of_pos (by simp [hu]), List.filter_nil,
        List.map_singleton, combine_concat]
    · rw [if_neg hu, ih, List.filter_cons_of_neg (by simp [hu]), List.filter_nil, List.map_nil,
        List.append_nil]

theorem score_foldl_mergeResult (l : List (SearchResult × Nat)) (u : Str) :
    (l.foldl mergeResult (∅, ∅)).2[u]?.getD 0 =
    ((l.filter fun item => normalizeUrl item.1.url = u).map fun item => positionScore item.2).sum := by
  induction l using List.reverseRecOn with
  | nil => simp
  | append_singleton l item ih =>
    rw [List.foldl_append, List.foldl_cons, List.foldl_nil, mergeResult]
    dsimp only
    rw [find_insert, List.filter_append, List.map_append, List.sum_append, ← ih]
    by_cases hu : normalizeUrl item.1.url = u
    · rw [if_pos hu, hu, List.filter_cons_of_pos (by simp [hu]), List.filter_nil,
        List.map_singleton, List.sum_singleton]
      rfl
    · rw [if_neg hu, List.filter_cons_of_neg (by simp [hu]), List.filter_nil, List.map_nil,
        List.sum_nil, add_zero]

/-! ## What is chosen -/

def repeats (engines : List Str) : Nat := engines.length - engines.dedup.length

def longest (rs : List SearchResult) : Nat := (rs.map fun r => utf8Length r.description).foldr max 0

theorem mem_foldl_pushNew {x : Str} (es base : List Str) : x ∈ es.foldl pushNew base ↔
    x ∈ base ∨ x ∈ es := by
  induction es generalizing base with
  | nil => simp
  | cons e es ih =>
    rw [List.foldl_cons, ih, pushNew]
    by_cases he : e ∈ base
    · rw [if_pos he, List.mem_cons]
      constructor
      · exact fun h => h.imp_right .inr
      · intro h
        rcases h with hb | rfl | hx
        · exact .inl hb
        · exact .inl he
        · exact .inr hx
    · rw [if_neg he, List.mem_append, List.mem_singleton, List.mem_cons, or_assoc]

theorem length_eq_repeats (es : List Str) : es.length = es.dedup.length + repeats es := by
  have hle := (List.dedup_sublist es).length_le
  rw [repeats]
  omega

theorem repeats_pushNew (es : List Str) (e : Str) : repeats (pushNew es e) = repeats es := by
  rw [pushNew]
  split
  · rfl
  · next he =>
    have hperm : (es ++ [e]).dedup.Perm (e :: es.dedup) := by
      rw [← List.dedup_cons_of_notMem he]
      exact (List.perm_append_singleton e es).dedup
    rw [repeats, repeats, hperm.length_eq, List.length_append, List.length_singleton,
      List.length_cons]
    omega

theorem repeats_foldl_pushNew (es base : List Str) :
    repeats (es.foldl pushNew base) = repeats base := by
  induction es generalizing base with
  | nil => rfl
  | cons e es ih => rw [List.foldl_cons, ih, repeats_pushNew]

/-- The first of some results gives the address and the title, and all of them their engines. -/
theorem combine_first (h : combine rs = some e) :
    ∃ r, rs.head? = some r ∧ e.url = r.url ∧ e.title = r.title ∧
    repeats e.engines = repeats r.engines ∧
      ∀ x, x ∈ e.engines ↔ ∃ q ∈ rs, x ∈ q.engines := by
  induction rs using List.reverseRecOn generalizing e with
  | nil => cases h
  | append_singleton rs q ih =>
    rw [combine_concat] at h
    cases hc : combine rs with
    | none =>
      rw [hc] at h
      cases h
      cases rs with
      | nil => exact ⟨q, rfl, rfl, rfl, rfl, by simp⟩
      | cons r rs => cases hc
    | some e' =>
      rw [hc] at h
      cases h
      obtain ⟨r, hr, hurl, htitle, hrep, hmem⟩ := ih hc
      refine ⟨r, ?_, hurl, htitle, ?_, fun x => ?_⟩
      · rw [List.head?_append, hr]
        rfl
      · exact (repeats_foldl_pushNew _ _).trans hrep
      · refine (mem_foldl_pushNew _ _).trans ?_
        rw [hmem]
        simp [or_and_right, exists_or]

theorem longest_concat (rs : List SearchResult) (r : SearchResult) :
    longest (rs ++ [r]) = max (longest rs) (utf8Length r.description) := by
  induction rs with
  | nil => simp [longest]
  | cons q rs ih =>
    have hcons (l : List SearchResult) : longest (q :: l) = max (utf8Length q.description)
        (longest l) := rfl
    rw [List.cons_append, hcons, ih, hcons, max_assoc]

theorem longest_le_iff {n : Nat} : longest rs ≤ n ↔ ∀ r ∈ rs, utf8Length r.description ≤ n := by
  induction rs with
  | nil => simp [longest]
  | cons q rs ih =>
    have hcons : longest (q :: rs) = max (utf8Length q.description) (longest rs) := rfl
    rw [hcons, max_le_iff, ih, List.forall_mem_cons]

theorem le_longest (h : r ∈ rs) : utf8Length r.description ≤ longest rs :=
  longest_le_iff.mp le_rfl r h

theorem combine_longest (h : combine rs = some e) :
    ∃ d, rs.find? (fun q => utf8Length q.description = longest rs) = some d ∧
    e.description = d.description := by
  induction rs using List.reverseRecOn generalizing e with
  | nil => cases h
  | append_singleton rs q ih =>
    rw [combine_concat] at h
    rw [longest_concat, List.find?_append]
    cases hc : combine rs with
    | none =>
      rw [hc] at h
      cases h
      cases rs with
      | nil => exact ⟨q, by simp [longest], rfl⟩
      | cons r rs => cases hc
    | some e' =>
      rw [hc] at h
      cases h
      obtain ⟨d, hd, hdesc⟩ := ih hc
      have hlen : utf8Length d.description = longest rs := by simpa using List.find?_some hd
      by_cases hlt : longest rs < utf8Length q.description
      · have hnone : rs.find? (fun r => utf8Length r.description =
            max (longest rs) (utf8Length q.description)) = none := by
          refine List.find?_eq_none.mpr fun r hr heq => ?_
          have hle := le_longest hr
          rw [decide_eq_true_eq, max_eq_right hlt.le] at heq
          omega
        refine ⟨q, by rw [hnone, max_eq_right hlt.le]; simp, ?_⟩
        simp [SearchResult.absorb, hdesc, hlen, hlt]
      · rw [max_eq_left (not_lt.mp hlt), hd]
        refine ⟨d, rfl, ?_⟩
        simp [SearchResult.absorb, hdesc, hlen, hlt]

end

end Crabtalk.Aggregator

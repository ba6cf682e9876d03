import Crabtalk.Search.Ranking

/-!
# Two runs

They return the same results exactly when every URL is decided: what is not can
be put where another run has something else.
-/

open Basis

namespace Crabtalk.Aggregator

section
variable {L : List (List SearchResult)} {u v : Str} {e : SearchResult} {l l' : List SearchResult}
  {maxResults p : Nat}

theorem same_iff_getElem? (l l' : List SearchResult) :
    List.Forall₂ Same l l' ↔ l.length = l'.length ∧ ∀ (i : Nat) (a b : SearchResult), l[i]? =
    some a → l'[i]? = some b → Same a b := by
  rw [List.forall₂_iff_get]
  refine and_congr_right fun hlen => ?_
  constructor
  · intro h i a b ha hb
    obtain ⟨hi, rfl⟩ := List.getElem?_eq_some_iff.mp ha
    obtain ⟨hi', rfl⟩ := List.getElem?_eq_some_iff.mp hb
    exact h i hi hi'
  · intro h i hi hi'
    exact h i _ _ (List.getElem?_eq_getElem hi) (List.getElem?_eq_getElem hi')

theorem titles_of_same (h : List.Forall₂ Same l l') : l.map (·.title) = l'.map (·.title) := by
  induction h with
  | nil => rfl
  | cons hab _ ih => rw [List.map_cons, List.map_cons, hab.title, ih]

theorem Run.length_results (ρ : Run L) (maxResults : Nat) :
    (ρ.results maxResults).length = min maxResults (urls L).length := by
  rw [results_eq, List.length_take, ρ.length_sorted]

theorem Run.nodup_results (ρ : Run L) (maxResults : Nat) : ((ρ.results maxResults).map key).Nodup := by
  have hsorted : (ρ.sorted.map key).Nodup :=
    ((List.perm_insertionSort _ ρ.merged).map key).nodup_iff.mpr ρ.nodup_keys
  exact hsorted.sublist ((List.take_sublist _ _).map key)

/-- The entry of what is not decided, in its place. -/
theorem results_top {ρ : Run L}
    (hfirst : ρ.sorted[ρ.merged.countP fun e' => e.score < e'.score]? = some e) (he : e ∈ ρ.merged)
    (hnot : ¬ Decided L maxResults (key e))
    (hmax : ∀ w ∈ urls L, ¬ Decided L maxResults w → ∀ a ∈ firsts L w, scoreOf L w a ≤ e.score) :
    (ρ.results maxResults)[ρ.merged.countP fun e' => e.score < e'.score]? = some e :=
  Run.getElem?_results.mpr ⟨place_top hnot he hmax, hfirst⟩

theorem decided_of_agree (h : ∀ ρ ρ' : Run L, List.Forall₂ Same (ρ.results maxResults)
    (ρ'.results maxResults)) (hu : u ∈ urls L) :
    Decided L maxResults u := by
  by_contra hnotu
  obtain ⟨v, hv, hnot, b, hb, hmax⟩ := exists_top hu hnotu
  obtain ⟨L', hperm, hhead⟩ := exists_first hb
  obtain ⟨e, he, hkey, hfirst⟩ := place_bring hperm hv
  have hscore : e.score = scoreOf L v b := by
    obtain ⟨r, hr, -, -, hscore⟩ := ((arrive hperm (bring v) (bring_perm v)).chosen_merged he).first
    rw [hkey, arrive] at hr hscore
    rw [hscore, scoreOf_perm hperm, Option.some.inj (hr.symm.trans hhead)]
  have htop := results_top hfirst he (hkey ▸ hnot) (hscore ▸ hmax)
  by_cases hs : Settles L v
  · -- another comes first among those with its score
    obtain ⟨w, hw, hties⟩ : ∃ w ∈ urls L, Ties L w v := by
      by_contra hnone
      exact hnot (.inl ⟨hs, fun w hw hties => hnone ⟨w, hw, hties⟩⟩)
    obtain ⟨hne, hsw, a, ha, b', hb', htie⟩ := hties
    obtain ⟨f, hf, hkeyf, hfirstf⟩ := place_bring hperm hw
    have hequal : f.score = e.score := by
      have hfits := ((arrive hperm (bring v) (bring_perm v)).fits_merged he).score_eq
          (hkey ▸ hs) (hkey ▸ hb')
      have hfitsf := ((arrive hperm (bring w) (bring_perm w)).fits_merged hf).score_eq
          (hkeyf ▸ hsw) (hkeyf ▸ ha)
      rw [hfits, hfitsf, hkey, hkeyf, htie]
    have hmerged : (arrive hperm (bring w) (bring_perm w)).merged.Perm
        (arrive hperm (bring v) (bring_perm v)).merged :=
      ((bring_perm w _).trans (bring_perm v _).symm).map _
    rw [hequal, hmerged.countP_eq] at hfirstf
    have hlt := (Run.getElem?_results.mp htop).1
    have hsame := ((same_iff_getElem? _ _).mp (h _ _)).2 _ _ _ htop
        (Run.getElem?_results.mpr ⟨hlt, hfirstf⟩)
    refine hne ?_
    rw [← hkeyf, ← hkey, key, key, hsame.url]
  · obtain ⟨L'', hperm', hother⟩ :=
      exists_other hs ((arrive hperm (bring v) (bring_perm v)).fits_merged he) hkey
    let ρ' : Run L := arrive hperm' id fun _ => .rfl
    obtain ⟨hlen, hsame⟩ := (same_iff_getElem? _ _).mp
        (h (arrive hperm (bring v) (bring_perm v)) ρ')
    obtain ⟨hlt, -⟩ := List.getElem?_eq_some_iff.mp htop
    have hget := List.getElem?_eq_getElem (hlen ▸ hlt)
    have hsame' := hsame _ _ _ htop hget
    have hmem := ρ'.mem_sorted.mp (List.mem_of_getElem? (Run.getElem?_results.mp hget).2)
    exact hother id (fun _ => .rfl) _ hmem (by rw [key, ← hsame'.url, ← key, hkey]) hsame'

/-- In every run one result for each URL, no more than asked for, the highest
score first. The runs agree exactly when every URL is decided. -/
theorem mergeAndRank_iff (L : List (List SearchResult)) (maxResults : Nat) :
    ((∀ ρ : Run L, ((ρ.results maxResults).map key).Nodup ∧
      (ρ.results maxResults).length ≤ maxResults ∧
        (ρ.results maxResults).Pairwise fun a b => b.score ≤ a.score) ∧
      ∀ ρ ρ' : Run L, List.Forall₂ Same (ρ.results maxResults) (ρ'.results maxResults)) ↔
    ∀ u ∈ urls L, Decided L maxResults u := by
  constructor
  · intro h u hu
    exact decided_of_agree h.2 hu
  · intro hall
    refine ⟨fun ρ => ⟨ρ.nodup_results maxResults, List.length_take_le _ _,
      ρ.descending.sublist (List.take_sublist _ _)⟩, fun ρ ρ' => ?_⟩
    refine (same_iff_getElem? _ _).mpr ⟨by rw [ρ.length_results, ρ'.length_results],
      fun i a b ha hb => ?_⟩
    obtain ⟨hlt, hp⟩ := Run.getElem?_results.mp ha
    exact Run.same_place hall hlt hp (Run.getElem?_results.mp hb).2

def twoEngines : List (List SearchResult) :=
  [[⟨"A".toList, "https://a.io".toList, [], ["wikipedia".toList], 0⟩],
    [⟨"B".toList, "https://b.io".toList, [], ["bing".toList], 0⟩]]

/-- Two with one score stand in the order of the map. -/
theorem not_mergeAndRank_tie : ¬ ∀ ρ ρ' : Run twoEngines, List.Forall₂ Same (ρ.results 10)
    (ρ'.results 10) := by
  intro h
  have htitles := titles_of_same
      (h (arrive .rfl id fun _ => .rfl) (arrive .rfl List.reverse List.reverse_perm))
  have hforward : (mergeAndRank id twoEngines 10).map (·.title) = ["A".toList, "B".toList] := by
    decide +kernel
  have hbackward : (mergeAndRank List.reverse twoEngines 10).map (·.title) =
      ["B".toList, "A".toList] := by decide +kernel
  have hne := hforward.symm.trans (htitles.trans hbackward)
  simp at hne

end

end Crabtalk.Aggregator

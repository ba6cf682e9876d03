import Crabtalk.Search.Consensus

/-!
# The places of the ranking

In a run, a decided URL has exactly those ahead of it that beat it. Of those
that are not decided, the one that can have the highest score is put first in
some run, and another run has something else in its place.
-/

open Basis

namespace Crabtalk.Aggregator

section
variable {L : List (List SearchResult)} {u v w : Str} {a b e e' : SearchResult} {maxResults p : Nat}

theorem Beaten.mono (h : Beaten L maxResults w) (himp : ∀ v ∈ urls L, Beats L v w → Beats L v u) :
    Beaten L maxResults u :=
  h.trans (List.countP_mono_left fun v hv => by simpa using himp v hv)

namespace Run
variable {ρ : Run L}

theorem countP_key (q : Str → Bool) : ρ.merged.countP (fun e => q (key e)) = (urls L).countP q := by
  rw [← ρ.keys_merged.countP_eq, List.countP_map]
  rfl

theorem countP_sorted (q : SearchResult → Bool) : ρ.sorted.countP q = ρ.merged.countP q :=
  (List.perm_insertionSort _ _).countP_eq _

theorem length_sorted : ρ.sorted.length = (urls L).length := by
  rw [sorted, List.length_insertionSort, ← ρ.keys_merged.length_eq, List.length_map]

theorem lt_of_beats (he : e ∈ ρ.merged) (he' : e' ∈ ρ.merged) (h : Beats L (key e') (key e)) :
    e.score < e'.score := by
  obtain ⟨r, hr, -, -, hscore⟩ := (ρ.fits_merged he).first
  obtain ⟨r', hr', -, -, hscore'⟩ := (ρ.fits_merged he').first
  rw [hscore, hscore']
  exact h.2 r' hr' r hr

theorem beats_of_lt (hs : Settles L (key e')) (he' : e' ∈ ρ.merged)
    (h : ∀ b ∈ firsts L u, scoreOf L u b < e'.score) :
    Beats L (key e') u :=
  ⟨hs, fun _ ha b hb => (ρ.fits_merged he').score_eq hs ha ▸ h b hb⟩

/-- What is beaten has none below it that is not. -/
theorem beaten_of_le (he' : e' ∈ ρ.merged) (hle : ∀ b ∈ firsts L u, scoreOf L u b ≤ e'.score)
    (h : Beaten L maxResults (key e')) :
    Beaten L maxResults u := by
  obtain ⟨r', hr', -, -, hscore'⟩ := (ρ.fits_merged he').first
  refine h.mono fun v hv hbeats => ⟨hbeats.1, fun a ha b hb => ?_⟩
  exact ((hle b hb).trans_eq hscore').trans_lt (hbeats.2 a ha r' hr')

/-! ## What is decided -/

theorem beaten_place (hp : ρ.sorted[p]? = some e) (hlt : p < maxResults) :
    ¬ Beaten L maxResults (key e) := by
  intro hbeaten
  have he : e ∈ ρ.merged := ρ.mem_sorted.mp (List.mem_of_getElem? hp)
  have hahead : (urls L).countP (fun w => Beats L w (key e)) ≤ ρ.merged.countP fun e' =>
      e.score < e'.score := by
    rw [← ρ.countP_key]
    exact List.countP_mono_left fun e' he' hbeats => by
      simpa using lt_of_beats he he' (by simpa using hbeats)
  rw [← ρ.countP_sorted] at hahead
  have hplace := countP_le_place ρ.descending hp
  rw [Beaten] at hbeaten
  omega

section
variable (hall : ∀ u ∈ urls L, Decided L maxResults u) (he : e ∈ ρ.merged) (hs : Settles L (key e))
  (hb : ¬ Beaten L maxResults (key e))
include hall he hs hb

theorem settles_of_le (he' : e' ∈ ρ.merged) (hle : e.score ≤ e'.score) : Settles L (key e') := by
  rcases hall _ (ρ.key_mem he') with hsettled | hbeaten
  · exact hsettled.1
  · refine absurd (beaten_of_le he' (fun b hb => ?_) hbeaten) hb
    exact ((ρ.fits_merged he).score_eq hs hb).symm.trans_le hle

theorem lt_iff_beats (he' : e' ∈ ρ.merged) : e.score < e'.score ↔ Beats L (key e') (key e) := by
  constructor
  · intro hlt
    refine beats_of_lt (settles_of_le hall he hs hb he' hlt.le) he' fun b hb => ?_
    rwa [← (ρ.fits_merged he).score_eq hs hb]
  · exact lt_of_beats he he'

theorem eq_of_score (hties : ∀ v ∈ urls L, ¬ Ties L v (key e)) (he' : e' ∈ ρ.merged)
    (hscore : e'.score = e.score) : e' = e := by
  have hs' := settles_of_le hall he hs hb he' hscore.ge
  obtain ⟨r, hr, -, -, hfirst⟩ := (ρ.fits_merged he).first
  obtain ⟨r', hr', -, -, hfirst'⟩ := (ρ.fits_merged he').first
  by_contra hne
  refine hties _ (ρ.key_mem he') ⟨fun hkey => hne (ρ.eq_of_key he' he hkey), hs', r',
    hr', r, hr, ?_⟩
  rw [← hfirst, ← hfirst', hscore]

theorem place_decided (hties : ∀ v ∈ urls L, ¬ Ties L v (key e)) (hp : ρ.sorted[p]? = some e) :
    (urls L).countP (fun w => Beats L w (key e)) = p := by
  have hplace := countP_eq_place ρ.descending
      ((List.perm_insertionSort _ _).nodup_iff.mpr ρ.nodup_merged) hp fun e' he' hscore =>
    eq_of_score hall he hs hb hties (ρ.mem_sorted.mp he') hscore
  rw [← hplace, ρ.countP_sorted, ← ρ.countP_key]
  refine List.countP_congr fun e' he' => ?_
  rw [decide_eq_true_eq, decide_eq_true_eq]
  exact (lt_iff_beats hall he hs hb he').symm

end

theorem getElem?_results : (ρ.results maxResults)[p]? = some e ↔ p < maxResults ∧
    ρ.sorted[p]? = some e := by
  rw [results_eq, List.getElem?_take]
  split
  · next h => simp [h]
  · next h => simp [h]

/-- What is decided is in the same place in every run. -/
theorem same_place {ρ' : Run L} (hall : ∀ u ∈ urls L, Decided L maxResults u) (hlt : p < maxResults)
    (hp : ρ.sorted[p]? = some e)
    (hp' : ρ'.sorted[p]? = some e') : Same e e' := by
  have he : e ∈ ρ.merged := ρ.mem_sorted.mp (List.mem_of_getElem? hp)
  have hb := beaten_place hp hlt
  obtain ⟨hs, hties⟩ := (hall _ (ρ.key_mem he)).resolve_right hb
  obtain ⟨f, hf, hkey⟩ := ρ'.exists_merged (ρ.key_mem he)
  obtain ⟨q, hq⟩ := List.mem_iff_getElem?.mp (ρ'.mem_sorted.mpr hf)
  have hplace := place_decided hall he hs hb hties hp
  have hplace' := place_decided (e := f) hall hf (hkey ▸ hs) (hkey ▸ hb) (hkey ▸ hties) hq
  rw [hkey, hplace] at hplace'
  rw [← hplace', hp'] at hq
  rw [Option.some.inj hq]
  exact (ρ.fits_merged he).same hs (ρ'.fits_merged hf) hkey

end Run

/-! ## What is not decided -/

def bring (u : Str) (l : List (Str × SearchResult)) : List (Str × SearchResult) :=
  (l.find? fun entry => entry.1 = u).elim l fun entry => entry :: l.erase entry

theorem bring_perm (u : Str) (l : List (Str × SearchResult)) : (bring u l).Perm l := by
  rw [bring]
  cases hfind : l.find? fun entry => entry.1 = u with
  | none => rfl
  | some entry => exact (List.perm_cons_erase (List.mem_of_find?_eq_some hfind)).symm

theorem merged_bring {L' : List (List SearchResult)} (hperm : L'.Perm L) (hu : u ∈ urls L) :
    ∃ e rest, (arrive hperm (bring u) (bring_perm u)).merged = e :: rest ∧ key e = u := by
  have hsome : (mergeAll L').1[u]?.isSome :=
    (isSome_mergeAll L' u).mpr (mem_urls.mp ((mem_urls_perm hperm).mpr hu))
  obtain ⟨e, he⟩ := Option.isSome_iff_exists.mp hsome
  have hmem : (u, e) ∈ (mergeAll L').1.toList :=
    Std.ExtTreeMap.mem_toList_iff_getElem?_eq_some.mpr he
  cases hfind : (mergeAll L').1.toList.find? fun entry => entry.1 = u with
  | none => exact absurd (decide_eq_true rfl) (List.find?_eq_none.mp hfind _ hmem)
  | some entry =>
    have hentry := Std.ExtTreeMap.mem_toList_iff_getElem?_eq_some.mp
        (List.mem_of_find?_eq_some hfind)
    refine ⟨consensus (mergeAll L').2 entry,
      ((mergeAll L').1.toList.erase entry).map (consensus (mergeAll L').2), ?_, ?_⟩
    · have hbring : bring u (mergeAll L').1.toList = entry :: (mergeAll L').1.toList.erase entry :=
        by rw [bring, hfind, Option.elim_some]
      exact congrArg (List.map _) hbring
    · have hkey := List.find?_some hfind
      rw [decide_eq_true_eq] at hkey
      rw [← hkey]
      exact Run.key_consensus hentry

/-- The first of those with a score comes first in the ranking. -/
theorem place_bring {L' : List (List SearchResult)} (hperm : L'.Perm L) (hu : u ∈ urls L) :
    ∃ e, e ∈ (arrive hperm (bring u) (bring_perm u)).merged ∧ key e = u ∧
      (arrive hperm (bring u) (bring_perm u)).sorted[
        (arrive hperm (bring u) (bring_perm u)).merged.countP fun e' => e.score < e'.score]? = some e := by
  obtain ⟨e, rest, hmerged, hkey⟩ := merged_bring hperm hu
  refine ⟨e, ?_, hkey, ?_⟩
  · rw [hmerged]
    exact List.mem_cons_self
  · rw [Run.sorted, hmerged, List.countP_cons_of_neg (by simp)]
    exact place_head rest e

/-- Of what is not decided, what can have the highest score. -/
theorem exists_top (hu : u ∈ urls L) (hnot : ¬ Decided L maxResults u) :
    ∃ v ∈ urls L, ¬ Decided L maxResults v ∧ ∃ b ∈ firsts L v,
      ∀ w ∈ urls L, ¬ Decided L maxResults w → ∀ a ∈ firsts L w, scoreOf L w a ≤ scoreOf L v b := by
  let candidates := ((urls L).filter fun w => ¬ Decided L maxResults w).flatMap fun w =>
      (firsts L w).map fun a => (w, a)
  have hmem {w : Str} {a : SearchResult} : (w, a) ∈ candidates ↔
      (w ∈ urls L ∧ ¬ Decided L maxResults w) ∧ a ∈ firsts L w := by
    simp [candidates]
  obtain ⟨r, hr⟩ := List.exists_mem_of_ne_nil _ (firsts_ne_nil hu)
  obtain ⟨⟨v, b⟩, hv, hmax⟩ := candidates.toFinset.exists_max_image (fun c => scoreOf L c.1 c.2)
    ⟨(u, r), List.mem_toFinset.mpr (hmem.mpr ⟨⟨hu, hnot⟩, hr⟩)⟩
  obtain ⟨⟨hv, hnotv⟩, hb⟩ := hmem.mp (List.mem_toFinset.mp hv)
  refine ⟨v, hv, hnotv, b, hb, fun w hw hnotw a ha => ?_⟩
  exact hmax (w, a) (List.mem_toFinset.mpr (hmem.mpr ⟨⟨hw, hnotw⟩, ha⟩))

/-- In the run in which it does, it is among those returned. -/
theorem place_top {ρ : Run L} (hnot : ¬ Decided L maxResults (key e)) (he : e ∈ ρ.merged)
    (hmax : ∀ w ∈ urls L, ¬ Decided L maxResults w → ∀ a ∈ firsts L w, scoreOf L w a ≤ e.score) :
    ρ.merged.countP (fun e' => e.score < e'.score) < maxResults := by
  by_contra hle
  refine hnot (.inr ((not_lt.mp hle).trans ?_))
  rw [← ρ.countP_key]
  refine List.countP_mono_left fun e' he' hlt => ?_
  rw [decide_eq_true_eq] at hlt ⊢
  have hbelow : ∀ b ∈ firsts L (key e), scoreOf L (key e) b ≤ e.score := hmax _ (ρ.key_mem he) hnot
  have hdecided : Decided L maxResults (key e') := by
    by_contra hnot'
    obtain ⟨r', hr', -, -, hscore'⟩ := (ρ.fits_merged he').first
    exact (hmax _ (ρ.key_mem he') hnot' r' hr').not_gt (hscore' ▸ hlt)
  rcases hdecided with hsettled | hbeaten
  · exact Run.beats_of_lt hsettled.1 he' fun b hb => (hbelow b hb).trans_lt hlt
  · exact absurd (.inr (Run.beaten_of_le he' (fun b hb => (hbelow b hb).trans hlt.le) hbeaten)) hnot

end

end Crabtalk.Aggregator

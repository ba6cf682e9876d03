import Crabtalk.Search.Arrival
import Mathlib.Data.Finset.Max

/-!
# When the ranking is the same in every run

Runs differ in the order in which the lists arrive and in the one in which the
map is walked. A URL is decided when nothing chosen for it depends on the first
and no other has its score, or when there are enough ahead of it in any case.
-/

open Basis

namespace Crabtalk.Aggregator

structure Run (L : List (List SearchResult)) where
  arrived : List (List SearchResult)
  order : List (Str × SearchResult) → List (Str × SearchResult)
  arrived_perm : arrived.Perm L
  order_perm : ∀ l, (order l).Perm l

def key (e : SearchResult) : Str := normalizeUrl e.url

def urls (L : List (List SearchResult)) : List Str := (L.flatten.map key).dedup

structure Same (a b : SearchResult) : Prop where
  title : a.title = b.title
  url : a.url = b.url
  description : a.description = b.description
  engines : ∀ x, x ∈ a.engines ↔ x ∈ b.engines
  score : a.score = b.score

/-- The lists that have a URL agree on what is chosen for it. -/
def Settles (L : List (List SearchResult)) (u : Str) : Prop :=
  (∀ a ∈ firsts L u, ∀ b ∈ firsts L u, a.url = b.url ∧ a.title = b.title ∧
    repeats a.engines = repeats b.engines) ∧
    ∀ a ∈ longs L u, ∀ b ∈ longs L u, a.description = b.description

instance (L : List (List SearchResult)) (u : Str) : Decidable (Settles L u) :=
  inferInstanceAs (Decidable (_ ∧ _))

/-- One URL is settled and has more than another can have. -/
def Beats (L : List (List SearchResult)) (w u : Str) : Prop :=
  Settles L w ∧ ∀ a ∈ firsts L w, ∀ b ∈ firsts L u, scoreOf L u b < scoreOf L w a

instance (L : List (List SearchResult)) (w u : Str) : Decidable (Beats L w u) :=
  inferInstanceAs (Decidable (_ ∧ _))

/-- Another URL is settled and can have the same score. -/
def Ties (L : List (List SearchResult)) (v u : Str) : Prop :=
  v ≠ u ∧ Settles L v ∧ ∃ a ∈ firsts L v, ∃ b ∈ firsts L u, scoreOf L v a = scoreOf L u b

/-- As many as are returned are ahead of it in any run. -/
def Beaten (L : List (List SearchResult)) (maxResults : Nat) (u : Str) : Prop :=
  maxResults ≤ (urls L).countP fun w => Beats L w u

instance (L : List (List SearchResult)) (v u : Str) : Decidable (Ties L v u) :=
  inferInstanceAs (Decidable (_ ∧ _ ∧ _))

instance (L : List (List SearchResult)) (maxResults : Nat) (u : Str) :
    Decidable (Beaten L maxResults u) := inferInstanceAs (Decidable (_ ≤ _))

def Decided (L : List (List SearchResult)) (maxResults : Nat) (u : Str) : Prop :=
  (Settles L u ∧ ∀ v ∈ urls L, ¬ Ties L v u) ∨ Beaten L maxResults u

instance (L : List (List SearchResult)) (maxResults : Nat) (u : Str) :
    Decidable (Decided L maxResults u) := inferInstanceAs (Decidable (_ ∨ _))

structure Fits (L : List (List SearchResult)) (e : SearchResult) : Prop where
  first : ∃ r ∈ firsts L (key e), e.url = r.url ∧ e.title = r.title ∧ e.score = scoreOf L (key e) r
  long : ∃ d ∈ longs L (key e), e.description = d.description
  engines : ∀ x, x ∈ e.engines ↔ ∃ q ∈ resultsOf L (key e), x ∈ q.engines

section
variable {L : List (List SearchResult)} {u v w : Str} {a b e e' : SearchResult} {maxResults : Nat}

theorem key_of_firsts (h : a ∈ firsts L u) : key a = u := by
  obtain ⟨results, -, hfind⟩ := List.mem_filterMap.mp h
  have hkey := List.find?_some hfind
  rw [decide_eq_true_eq] at hkey
  exact hkey

theorem mem_urls : u ∈ urls L ↔ resultsOf L u ≠ [] := by
  rw [urls, List.mem_dedup, List.mem_map, resultsOf, ne_eq, List.filter_eq_nil_iff]
  constructor
  · rintro ⟨r, hr, hkey⟩ hnone
    exact hnone r hr (decide_eq_true hkey)
  · intro hsome
    by_contra hnone
    exact hsome fun r hr hkey => hnone ⟨r, hr, of_decide_eq_true hkey⟩

theorem mem_urls_perm {L' : List (List SearchResult)} (h : L'.Perm L) : u ∈ urls L' ↔
    u ∈ urls L := by
  rw [urls, urls, List.mem_dedup, List.mem_dedup, (h.flatten.map key).mem_iff]

theorem firsts_ne_nil (h : u ∈ urls L) : firsts L u ≠ [] := by
  intro hnil
  have hhead := head?_resultsOf L u
  rw [hnil, List.head?_nil, List.head?_eq_none_iff] at hhead
  exact mem_urls.mp h hhead

/-! ## The results of a run -/

namespace Run
variable (ρ : Run L)

def merged : List SearchResult :=
  (ρ.order (mergeAll ρ.arrived).1.toList).map (consensus (mergeAll ρ.arrived).2)

def sorted : List SearchResult := ρ.merged.insertionSort fun a b => b.score ≤ a.score

def results (maxResults : Nat) : List SearchResult := mergeAndRank ρ.order ρ.arrived maxResults

theorem results_eq (maxResults : Nat) : ρ.results maxResults = ρ.sorted.take maxResults := rfl

omit ρ in
theorem key_consensus {L : List (List SearchResult)} (h : (mergeAll L).1[u]? = some e) :
    key (consensus (mergeAll L).2 (u, e)) = u := by
  obtain ⟨r, hr, hurl, -⟩ := (chosen_mergeAll h).first
  rw [key, hurl]
  exact key_of_firsts (List.mem_of_head? hr)

theorem mem_order {entry : Str × SearchResult} :
    entry ∈ ρ.order (mergeAll ρ.arrived).1.toList ↔
    (mergeAll ρ.arrived).1[entry.1]? = some entry.2 := by
  rw [(ρ.order_perm _).mem_iff, Std.ExtTreeMap.mem_toList_iff_getElem?_eq_some]

theorem chosen_merged (h : e ∈ ρ.merged) : Chosen ρ.arrived (key e) e := by
  obtain ⟨⟨u, e₀⟩, hmem, rfl⟩ := List.mem_map.mp h
  rw [key_consensus (ρ.mem_order.mp hmem)]
  exact chosen_mergeAll (ρ.mem_order.mp hmem)

theorem fits_merged (h : e ∈ ρ.merged) : Fits L e := by
  have hchosen := ρ.chosen_merged h
  obtain ⟨r, hr, hurl, htitle, hscore⟩ := hchosen.first
  obtain ⟨d, hd, hdesc⟩ := hchosen.long
  refine ⟨⟨r, (firsts_perm ρ.arrived_perm _).mem_iff.mp (List.mem_of_head? hr), hurl, htitle, ?_⟩,
    ⟨d, (longs_perm ρ.arrived_perm _).mem_iff.mp (List.mem_of_head? hd), hdesc⟩, fun x => ?_⟩
  · rw [hscore, scoreOf_perm ρ.arrived_perm]
  · rw [hchosen.engines]
    simp only [(resultsOf_perm ρ.arrived_perm _).mem_iff]

theorem keys_merged : (ρ.merged.map key).Perm (urls L) := by
  have hkeys : ρ.merged.map key = (ρ.order (mergeAll ρ.arrived).1.toList).map (·.1) := by
    rw [merged, List.map_map]
    exact List.map_congr_left fun entry hentry => key_consensus (ρ.mem_order.mp hentry)
  have hperm : (ρ.merged.map key).Perm ((mergeAll ρ.arrived).1.toList.map (·.1)) :=
    hkeys ▸ (ρ.order_perm _).map _
  have hnodup : ((mergeAll ρ.arrived).1.toList.map (·.1)).Nodup := by
    refine List.pairwise_map.mpr (Std.ExtTreeMap.ordered_keys_toList.imp fun {a b} hab heq => ?_)
    rw [heq] at hab
    exact lt_irrefl_cmp _ hab
  refine hperm.trans ((List.perm_ext_iff_of_nodup hnodup (List.nodup_dedup _)).mpr fun u => ?_)
  rw [← urls, ← mem_urls_perm ρ.arrived_perm, mem_urls, ← isSome_mergeAll, List.mem_map,
    Option.isSome_iff_exists]
  constructor
  · intro ⟨entry, hentry, hkey⟩
    exact ⟨entry.2, hkey ▸ Std.ExtTreeMap.mem_toList_iff_getElem?_eq_some.mp hentry⟩
  · intro ⟨e, he⟩
    exact ⟨(u, e), Std.ExtTreeMap.mem_toList_iff_getElem?_eq_some.mpr he, rfl⟩

theorem nodup_keys : (ρ.merged.map key).Nodup := ρ.keys_merged.nodup_iff.mpr (List.nodup_dedup _)

theorem nodup_merged : ρ.merged.Nodup := ρ.nodup_keys.of_map key

theorem eq_of_key (he : e ∈ ρ.merged) (he' : e' ∈ ρ.merged) (h : key e = key e') : e = e' :=
  List.inj_on_of_nodup_map ρ.nodup_keys he he' h

theorem exists_merged (h : u ∈ urls L) : ∃ e ∈ ρ.merged, key e = u :=
  List.mem_map.mp (ρ.keys_merged.mem_iff.mpr h)

theorem key_mem (h : e ∈ ρ.merged) : key e ∈ urls L :=
  ρ.keys_merged.mem_iff.mp (List.mem_map_of_mem h)

theorem mem_sorted : e ∈ ρ.sorted ↔ e ∈ ρ.merged := List.mem_insertionSort _

theorem descending : ρ.sorted.Pairwise fun a b => b.score ≤ a.score :=
  pairwise_descending SearchResult.score _

end Run

/-! ## Settled URLs -/

theorem Fits.score_eq (hs : Settles L (key e)) (h : Fits L e) (ha : a ∈ firsts L (key e)) :
    e.score = scoreOf L (key e) a := by
  obtain ⟨r, hr, -, -, hscore⟩ := h.first
  rw [hscore, scoreOf, scoreOf, (hs.1 r hr a ha).2.2]

/-- What is settled is chosen alike in every run. -/
theorem Fits.same (hs : Settles L (key e)) (h : Fits L e) (h' : Fits L e') (hkey : key e' = key e) :
    Same e e' := by
  obtain ⟨r, hr, hurl, htitle, hscore⟩ := h.first
  obtain ⟨d, hd, hdesc⟩ := h.long
  have hscore' := Fits.score_eq (e := e') (hkey ▸ hs) h' (hkey ▸ hr)
  obtain ⟨r', hr', hurl', htitle', -⟩ := h'.first
  obtain ⟨d', hd', hdesc'⟩ := h'.long
  have hengines' := h'.engines
  rw [hkey] at hr' hd' hscore' hengines'
  obtain ⟨hu, ht, -⟩ := hs.1 r hr r' hr'
  refine ⟨?_, ?_, ?_, fun x => ?_, ?_⟩
  · rw [htitle, htitle', ht]
  · rw [hurl, hurl', hu]
  · rw [hdesc, hdesc', hs.2 d hd d' hd']
  · rw [h.engines, hengines']
  · rw [hscore, hscore']

def arrive {L' : List (List SearchResult)} (h : L'.Perm L)
    (order : List (Str × SearchResult) → List (Str × SearchResult))
    (horder : ∀ l, (order l).Perm l) : Run L := ⟨L', order, h, horder⟩

theorem scoreOf_inj (h : scoreOf L u a = scoreOf L u b) : repeats a.engines = repeats b.engines := by
  rw [scoreOf, scoreOf] at h
  simpa using h

theorem exists_other (hs : ¬ Settles L u) (h : Fits L e) (hkey : key e = u) :
    ∃ (L' : List (List SearchResult)) (hperm : L'.Perm L),
      ∀ order horder, ∀ e' ∈ (arrive hperm order horder).merged, key e' = u → ¬ Same e e' := by
  rcases not_and_or.mp hs with hfirst | hlong
  · obtain ⟨r, hr, hurl, htitle, hscore⟩ := h.first
    -- one of the firsts is not like the one that was chosen
    obtain ⟨c, hc, hne⟩ : ∃ c ∈ firsts L u, ¬ (r.url = c.url ∧ r.title = c.title ∧
        repeats r.engines = repeats c.engines) := by
      by_contra hall
      refine hfirst fun a ha b hb => ?_
      have hagree : ∀ c ∈ firsts L u, r.url = c.url ∧ r.title = c.title ∧
          repeats r.engines = repeats c.engines := by
        intro c hc
        by_contra hne
        exact hall ⟨c, hc, hne⟩
      obtain ⟨hau, hat, har⟩ := hagree a ha
      obtain ⟨hbu, hbt, hbr⟩ := hagree b hb
      exact ⟨hau.symm.trans hbu, hat.symm.trans hbt, har.symm.trans hbr⟩
    obtain ⟨L', hperm, hhead⟩ := exists_first hc
    refine ⟨L', hperm, fun order horder e' he' hkey' hsame => hne ?_⟩
    obtain ⟨r', hr', hurl', htitle', hscore'⟩ :=
      ((arrive hperm order horder).chosen_merged he').first
    have hcr : c = r' := by
      rw [hkey', arrive] at hr'
      exact Option.some.inj (hhead.symm.trans hr')
    rw [← hcr, hkey', arrive, scoreOf_perm hperm] at hscore'
    rw [← hcr] at hurl' htitle'
    rw [hkey] at hscore
    refine ⟨?_, ?_, scoreOf_inj (hscore.symm.trans (hsame.score.trans hscore'))⟩
    · rw [← hurl, ← hurl', hsame.url]
    · rw [← htitle, ← htitle', hsame.title]
  · obtain ⟨d, hd, hdesc⟩ := h.long
    obtain ⟨c, hc, hne⟩ : ∃ c ∈ longs L u, d.description ≠ c.description := by
      by_contra hall
      refine hlong fun a ha b hb => ?_
      have hagree : ∀ c ∈ longs L u, d.description = c.description := by
        intro c hc
        by_contra hne
        exact hall ⟨c, hc, hne⟩
      exact (hagree a ha).symm.trans (hagree b hb)
    obtain ⟨L', hperm, hhead⟩ := exists_long hc
    refine ⟨L', hperm, fun order horder e' he' hkey' hsame => hne ?_⟩
    obtain ⟨d', hd', hdesc'⟩ := ((arrive hperm order horder).chosen_merged he').long
    have hcd : c = d' := by
      rw [hkey', arrive] at hd'
      exact Option.some.inj (hhead.symm.trans hd')
    rw [← hdesc, hcd, ← hdesc', hsame.description]

end

end Crabtalk.Aggregator

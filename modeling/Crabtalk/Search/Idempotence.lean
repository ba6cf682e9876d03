import Crabtalk.Search.Normalize

/-!
# Normalising twice

What one step leaves can be work for a step that is over: a parameter that is
dropped uncovers a slash or white space at the end, and `www.` that is dropped
uncovers another. These are all the ways.
-/

open Basis

namespace Crabtalk.Aggregator

def wwwTwice : Str := "://www.www.".toList

def lastPart (base : Str) (params : List Str) : Str := params.getLast?.getD base

section
variable {s base : Str} {params : List Str} {p : Str}

/-! ## The end -/

theorem intercalate_concat (h : params ≠ []) (p : Str) :
    ['&'].intercalate (params ++ [p]) = ['&'].intercalate params ++ '&' :: p := by
  induction params with
  | nil => exact absurd rfl h
  | cons q params ih =>
    cases params with
    | nil => simp
    | cons r params =>
      have htail := ih (List.cons_ne_nil r params)
      rw [List.cons_append] at htail
      rw [List.cons_append, List.cons_append, List.intercalate_cons_cons, htail,
        List.intercalate_cons_cons]
      simp only [List.append_assoc]

theorem render_concat (base : Str) (params : List Str) :
    ∃ t c, (c = '?' ∨ c = '&') ∧ ∀ p, render base (params ++ [p]) = t ++ c :: p := by
  cases params with
  | nil => exact ⟨base, '?', .inl rfl, fun p => by simp [render]⟩
  | cons q params =>
    refine ⟨base ++ '?' :: ['&'].intercalate (q :: params), '&', .inr rfl, fun p => ?_⟩
    rw [List.cons_append, render_cons, ← List.cons_append,
      intercalate_concat (List.cons_ne_nil q params), List.append_assoc]
    rfl

theorem getLast?_render {c : Char} (hq : c ≠ '?') (ha : c ≠ '&') (base : Str) (params : List Str) :
    (render base params).getLast? = some c ↔ (lastPart base params).getLast? = some c := by
  rcases List.eq_nil_or_concat params with rfl | ⟨params, p, rfl⟩
  · rfl
  · rw [List.concat_eq_append]
    obtain ⟨t, x, hx, heq⟩ := render_concat base params
    rw [heq p, lastPart, List.getLast?_concat, Option.getD_some]
    cases p with
    | nil =>
      rw [List.getLast?_concat]
      rcases hx with rfl | rfl
      · simp [Ne.symm hq]
      · simp [Ne.symm ha]
    | cons y p => rw [← List.singleton_append, ← List.append_assoc,
        List.getLast?_append_of_ne_nil _ (List.cons_ne_nil y p)]

theorem suffix_wwwPrefix_append {t : Str} (h : t ≠ []) : wwwPrefix <:+ wwwPrefix ++ t ↔
    wwwPrefix <:+ t := by
  have hcut : wwwPrefix ++ t = ':' :: '/' :: '/' :: 'w' :: 'w' :: 'w' :: '.' :: t := rfl
  have hhead (c : Char) (hc : c ≠ ':') (u : Str) : wwwPrefix <:+ c :: u ↔ wwwPrefix <:+ u := by
    rw [List.suffix_cons_iff, or_iff_right]
    intro heq
    exact hc (List.cons.inj heq).1.symm
  have hfirst : wwwPrefix ≠ ':' :: '/' :: '/' :: 'w' :: 'w' :: 'w' :: '.' :: t := by
    rw [← hcut]
    simpa using h
  rw [hcut, List.suffix_cons_iff, or_iff_right hfirst]
  simp (disch := decide) only [hhead]

theorem getLast?_stripWww (p : Str) : (stripWww p).getLast? = if wwwPrefix <:+ p then some '/'
    else p.getLast? := by
  induction p using replace_induction wwwPrefix_ne with
  | nil => rfl
  | hit t ih =>
    rw [stripWww, replace_match wwwPrefix_ne]
    cases t with
    | nil => decide
    | cons c t =>
      have hne : replace wwwPrefix schemeEnd (c :: t) ≠ [] :=
        replace_ne_nil wwwPrefix_ne (by decide) (List.cons_ne_nil _ _)
      rw [List.getLast?_append_of_ne_nil _ hne,
        List.getLast?_append_of_ne_nil _ (List.cons_ne_nil c t)]
      simp only [suffix_wwwPrefix_append (List.cons_ne_nil c t)]
      exact ih
  | step c s hp ih =>
    have hsuf : wwwPrefix <:+ c :: s ↔ wwwPrefix <:+ s := by
      rw [List.suffix_cons_iff, or_iff_right]
      exact fun heq => hp (heq ▸ List.prefix_refl _)
    rw [stripWww, replace_step hp]
    simp only [hsuf]
    cases s with
    | nil => rfl
    | cons d s =>
      have hne : replace wwwPrefix schemeEnd (d :: s) ≠ [] :=
        replace_ne_nil wwwPrefix_ne (by decide) (List.cons_ne_nil _ _)
      rw [List.getLast?_cons_of_ne_nil hne, List.getLast?_cons_cons]
      exact ih

/-! ## What replacing uncovers -/

theorem prefix_wwwPrefix_iff (t : Str) : wwwPrefix <+: ':' :: '/' :: '/' :: t ↔
    "www.".toList <+: t := by
  have hcut : wwwPrefix = ':' :: '/' :: '/' :: "www.".toList := by decide
  rw [hcut, List.cons_prefix_cons, List.cons_prefix_cons, List.cons_prefix_cons]
  simp

theorem infix_head {c : Char} (h : c ≠ ':') {x : Str} (hx : x.head? = some ':') (t : Str) :
    x <:+: c :: t ↔ x <:+: t := by
  rw [List.infix_cons_iff, or_iff_right]
  intro hp
  obtain ⟨x', rfl⟩ := List.head?_eq_some_iff.mp hx
  exact h (List.cons_prefix_cons.mp hp).1.symm

theorem wwwPrefix_infix_stripWww (s : Str) : wwwPrefix <:+: stripWww s ↔ wwwTwice <:+: s := by
  induction s using replace_induction wwwPrefix_ne with
  | nil => decide
  | hit t ih =>
    have hleft : wwwPrefix <:+: stripWww (wwwPrefix ++ t) ↔ "www.".toList <+: t ∨
        wwwPrefix <:+: stripWww t := by
      have hcut : stripWww (wwwPrefix ++ t) = ':' :: '/' :: '/' :: stripWww t :=
        replace_match wwwPrefix_ne t
      rw [hcut, List.infix_cons_iff, prefix_wwwPrefix_iff, prefix_stripWww (by decide)]
      simp (disch := decide) only [infix_head]
    have hright : wwwTwice <:+: wwwPrefix ++ t ↔ "www.".toList <+: t ∨ wwwTwice <:+: t := by
      have hcut : wwwPrefix ++ t = ':' :: '/' :: '/' :: 'w' :: 'w' :: 'w' :: '.' :: t := rfl
      have htwice : wwwTwice = wwwPrefix ++ "www.".toList := by decide
      rw [hcut, List.infix_cons_iff, ← hcut]
      nth_rw 1 [htwice]
      rw [List.prefix_append_right_inj]
      simp (disch := decide) only [infix_head]
    rw [hleft, hright, ih]
  | step c s hp ih =>
    have hrest : ¬ wwwTwice <+: c :: s := fun h => hp (List.IsPrefix.trans (by decide) h)
    have hfirst : ¬ wwwPrefix <+: c :: replace wwwPrefix schemeEnd s := by
      have hcut : wwwPrefix = ':' :: "//www.".toList := by decide
      rw [hcut, List.cons_prefix_cons] at hp ⊢
      rw [← hcut]
      exact fun h => hp ⟨h.1, (prefix_stripWww (by decide) s).mp h.2⟩
    rw [stripWww, replace_step hp, List.infix_cons_iff, or_iff_right hfirst, List.infix_cons_iff,
      or_iff_right hrest]
    exact ih

theorem stripWww_twice_iff (s : Str) : stripWww (stripWww s) = stripWww s ↔ ¬ wwwTwice <:+: s := by
  rw [← wwwPrefix_infix_stripWww]
  exact replace_eq_self_iff wwwPrefix_ne (by decide)

/-! ## What is normal -/

/-- The URL begins a part that stays with `://www.www.` nowhere and ends the last with nothing that
would go. -/
structure Settled (raw : Str) : Prop where
  base : ¬ wwwTwice <:+: (url raw).1
  params : ∀ p ∈ kept (url raw).2, ¬ wwwTwice <:+: p
  slash : (lastPart (url raw).1 (kept (url raw).2)).getLast? ≠ some '/'
  www : ¬ wwwPrefix <:+ lastPart (url raw).1 (kept (url raw).2)
  white : ∀ c, (lastPart (url raw).1 (kept (url raw).2)).getLast? = some c → isWhite c = false

theorem lastPart_map (base : Str) (params : List Str) :
    lastPart (stripWww base) (params.map stripWww) = stripWww (lastPart base params) := by
  rw [lastPart, lastPart, List.getLast?_map]
  cases params.getLast? <;> rfl

theorem getLast?_normalizeUrl {c : Char} (hq : c ≠ '?') (ha : c ≠ '&') (raw : Str) :
    (normalizeUrl raw).getLast? = some c ↔
      (if wwwPrefix <:+ lastPart (url raw).1 (kept (url raw).2) then some '/'
        else (lastPart (url raw).1 (kept (url raw).2)).getLast?) = some c := by
  rw [normalizeUrl_eq, getLast?_render hq ha, lastPart_map, getLast?_stripWww]

theorem head?_render {c : Char} (hc : c ≠ '?') (base : Str) (params : List Str) :
    (render base params).head? = some c ↔ base.head? = some c := by
  cases params with
  | nil => rfl
  | cons p params =>
    rw [render_cons, List.head?_append]
    cases base with
    | nil => simp [Ne.symm hc]
    | cons b base => rfl

theorem head?_normalizeUrl {c : Char} {raw : Str} (h : (normalizeUrl raw).head? = some c) :
    isWhite c = false := by
  by_cases hc : c = '?'
  · rw [hc]
    decide
  · obtain ⟨base, params, hs, hbase, hparams⟩ := exists_render (stripSlash (trim raw))
    have hhead : base.head? = some c := by
      rw [normalizeUrl_eq, url, hs, parse_render hbase hparams, head?_render hc] at h
      rwa [stripWww, head?_replace wwwPrefix_ne (by decide)] at h
    rw [← head?_render hc base params, ← hs] at hhead
    refine head?_trim (s := raw) ?_
    rw [stripSlash] at hhead
    split at hhead
    · next hends =>
      obtain ⟨t, ht⟩ := List.getLast?_eq_some_iff.mp hends
      rw [ht, List.dropLast_concat] at hhead
      rw [ht, List.head?_append, hhead]
      rfl
    · exact hhead

theorem stripTracking_normalizeUrl (raw : Str) :
    stripTracking (normalizeUrl raw) = normalizeUrl raw := by
  obtain ⟨hbase, hparams⟩ := stripped_clean raw
  rw [normalizeUrl_eq, stripTracking_render hbase hparams, kept_map_stripWww, kept, kept,
    List.filter_filter]
  simp

theorem stripWww_normalizeUrl_iff (raw : Str) :
    stripWww (normalizeUrl raw) = normalizeUrl raw ↔ ¬ wwwTwice <:+: (url raw).1 ∧
    ∀ p ∈ kept (url raw).2, ¬ wwwTwice <:+: p := by
  obtain ⟨hbase, hparams⟩ := stripped_clean raw
  have hbase' : '?' ∉ stripWww (stripWww (url raw).1) := notMem_stripWww hbase (by decide)
  have hparams' : ∀ p ∈ ((kept (url raw).2).map stripWww).map stripWww, '&' ∉ p :=
    stripWww_params hparams
  rw [normalizeUrl_eq, stripWww_render, render_inj hbase' hparams' hbase hparams,
    stripWww_twice_iff, List.map_map]
  refine and_congr_right fun _ => List.map_inj_left.trans ?_
  exact forall₂_congr fun p _ => stripWww_twice_iff p

theorem stripSlash_eq_self_iff (s : Str) : stripSlash s = s ↔ s.getLast? ≠ some '/' := by
  unfold stripSlash
  split
  · next h =>
    obtain ⟨t, rfl⟩ := List.getLast?_eq_some_iff.mp h
    simp
  · next h => simp [h]

theorem white_normalizeUrl_iff {raw : Str}
    (h : ¬ wwwPrefix <:+ lastPart (url raw).1 (kept (url raw).2)) :
    (∀ c, (normalizeUrl raw).getLast? = some c → isWhite c = false) ↔
      ∀ c, (lastPart (url raw).1 (kept (url raw).2)).getLast? = some c → isWhite c = false := by
  have hsame (c : Char) (hc : isWhite c = true) :
      (normalizeUrl raw).getLast? = some c ↔
      (lastPart (url raw).1 (kept (url raw).2)).getLast? = some c := by
    have hq : c ≠ '?' := fun heq => absurd (heq ▸ hc) (by decide)
    have ha : c ≠ '&' := fun heq => absurd (heq ▸ hc) (by decide)
    rw [getLast?_normalizeUrl hq ha, if_neg h]
  constructor
  · intro hwhite c hlast
    by_contra hc
    rw [Bool.not_eq_false] at hc
    exact absurd (hwhite c ((hsame c hc).mpr hlast)) (by simp [hc])
  · intro hwhite c hlast
    by_contra hc
    rw [Bool.not_eq_false] at hc
    exact absurd (hwhite c ((hsame c hc).mp hlast)) (by simp [hc])

theorem normalizeUrl_idem_iff (raw : Str) : normalizeUrl (normalizeUrl raw) = normalizeUrl raw ↔
    Settled raw := by
  rw [normalizeUrl_eq_self_iff, trim_eq_self_iff (fun c => head?_normalizeUrl),
    stripSlash_eq_self_iff, stripWww_normalizeUrl_iff]
  by_cases hno : wwwPrefix <:+ lastPart (url raw).1 (kept (url raw).2)
  · refine iff_of_false (fun ⟨_, hends, _⟩ => ?_) (fun hsettled => hsettled.www hno)
    exact hends ((getLast?_normalizeUrl (by decide) (by decide) raw).mpr (if_pos hno))
  · rw [white_normalizeUrl_iff hno, ne_eq, getLast?_normalizeUrl (by decide) (by decide), if_neg hno]
    constructor
    · intro ⟨hwhite, hends, ⟨hbase, hparams⟩, _⟩
      exact ⟨hbase, hparams, hends, hno, hwhite⟩
    · intro ⟨hbase, hparams, hends, _, hwhite⟩
      exact ⟨hwhite, hends, ⟨hbase, hparams⟩, stripTracking_normalizeUrl raw⟩

end

end Crabtalk.Aggregator

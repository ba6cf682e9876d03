import Crabtalk.Basis.Lines
import Crabtalk.Basis.Replace
import Crabtalk.Basis.Terminated

/-!
# Normalising a URL

Trimming, the slash at the end, `www.` and the tracking parameters, one after
another on one string. Replacing and filtering act on the parts between `?` and
`&`, and on each of them alone.
-/

open Basis

namespace Crabtalk.Aggregator

abbrev Str := List Char

def stripSlash (s : Str) : Str := if s.getLast? = some '/' then s.dropLast else s

def wwwPrefix : Str := "://www.".toList

def schemeEnd : Str := "://".toList

def stripWww (s : Str) : Str := replace wwwPrefix schemeEnd s

def isTracking (param : Str) : Bool :=
  let key := param.takeWhile (· ≠ '=')
  "utm_".toList.isPrefixOf key || key = "fbclid".toList || key = "gclid".toList ||
    key = "ref".toList

def parse (s : Str) : Str × List Str :=
  (s.takeWhile (· ≠ '?'),
    match s.dropWhile (· ≠ '?') with
    | [] => []
    | _ :: query => query.splitOn '&')

def render (base : Str) (params : List Str) : Str :=
  if params = [] then base else base ++ '?' :: ['&'].intercalate params

def stripTracking (s : Str) : Str :=
  let (base, params) := parse s
  render base (params.filter fun param => !isTracking param)

def normalizeUrl (raw : Str) : Str := stripTracking (stripWww (stripSlash (trim raw)))

section
variable {s t base : Str} {params : List Str} {p : Str}

/-! ## Parts -/

theorem before_sep {c : Char} (h : c ∉ s) (t : Str) :
    (s ++ c :: t).takeWhile (· ≠ c) = s ∧ (s ++ c :: t).dropWhile (· ≠ c) = c :: t := by
  have hall : ∀ x ∈ s, decide (x ≠ c) = true := fun x hx => decide_eq_true fun heq => h (heq ▸ hx)
  rw [List.takeWhile_append_of_pos hall, List.dropWhile_append_of_pos hall]
  simp

theorem before_none {c : Char} (h : c ∉ s) : s.takeWhile (· ≠ c) = s ∧ s.dropWhile (· ≠ c) = [] := by
  have hall : ∀ x ∈ s, decide (x ≠ c) = true := fun x hx => decide_eq_true fun heq => h (heq ▸ hx)
  exact ⟨List.takeWhile_eq_self_iff.mpr hall, List.dropWhile_eq_nil_iff.mpr hall⟩

theorem parse_open (h : '?' ∉ s) : parse s = (s, []) := by
  obtain ⟨htake, hdrop⟩ := before_none h
  rw [parse, htake, hdrop]

theorem parse_query (h : '?' ∉ base) (query : Str) :
    parse (base ++ '?' :: query) = (base, query.splitOn '&') := by
  obtain ⟨htake, hdrop⟩ := before_sep h query
  rw [parse, htake, hdrop]

theorem render_cons (base p : Str) (params : List Str) :
    render base (p :: params) = base ++ '?' :: ['&'].intercalate (p :: params) :=
  if_neg (List.cons_ne_nil _ _)

theorem parse_render (hbase : '?' ∉ base) (hparams : ∀ p ∈ params, '&' ∉ p) :
    parse (render base params) = (base, params) := by
  cases params with
  | nil => exact parse_open hbase
  | cons p params => rw [render_cons, parse_query hbase,
      List.splitOn_intercalate '&' hparams (List.cons_ne_nil _ _)]

theorem exists_render (s : Str) : ∃ base params, s = render base params ∧ '?' ∉ base ∧
    ∀ p ∈ params, '&' ∉ p := by
  by_cases h : '?' ∈ s
  · obtain ⟨base, query, rfl, hbase⟩ := List.eq_append_cons_of_mem h
    refine ⟨base, query.splitOn '&', ?_, hbase, fun p hp => ?_⟩
    · rw [render, if_neg (List.splitOn_ne_nil _ _), List.intercalate_splitOn]
    · exact notMem_splitOn hp
  · exact ⟨s, [], rfl, h, fun p hp => (by cases hp)⟩

/-! ## One part -/

theorem wwwPrefix_ne : wwwPrefix ≠ [] := by decide

theorem stripWww_sep {c : Char} (h : c ∉ wwwPrefix) (x y : Str) :
    stripWww (x ++ c :: y) = stripWww x ++ c :: stripWww y :=
  replace_sep wwwPrefix_ne h x y

theorem notMem_stripWww {c : Char} (h : c ∉ s) (hc : c ∉ schemeEnd) : c ∉ stripWww s :=
  notMem_replace wwwPrefix_ne h hc

theorem prefix_stripWww {x : Str} (h : ':' ∉ x) (s : Str) : x <+: stripWww s ↔ x <+: s :=
  prefix_replace_iff rfl rfl h s

theorem stripWww_of_notMem (h : ':' ∉ s) : stripWww s = s := by
  refine (replace_eq_self_iff wwwPrefix_ne (by decide)).mpr fun hin => h (hin.mem ?_)
  decide

/-- A word without a colon is not what is left of another. -/
theorem stripWww_eq_iff {x : Str} (h : ':' ∉ x) (s : Str) : stripWww s = x ↔ s = x := by
  refine ⟨fun heq => ?_, fun heq => (stripWww_of_notMem (heq ▸ h)).trans heq⟩
  have hs : ':' ∉ s := fun hmem => h (heq ▸ mem_replace_head rfl rfl hmem)
  rw [← heq, stripWww_of_notMem hs]

theorem isTracking_stripWww (p : Str) : isTracking (stripWww p) = isTracking p := by
  have hkey : (stripWww p).takeWhile (· ≠ '=') = stripWww (p.takeWhile (· ≠ '=')) := by
    by_cases h : '=' ∈ p
    · obtain ⟨key, value, rfl, hkey⟩ := List.eq_append_cons_of_mem h
      rw [stripWww_sep (by decide), (before_sep hkey value).1,
        (before_sep (notMem_stripWww hkey (by decide)) _).1]
    · rw [(before_none h).1, (before_none (notMem_stripWww h (by decide))).1]
  have hword (w : Str) (hw : ':' ∉ w) : decide (stripWww (p.takeWhile (· ≠ '=')) = w) =
      decide (p.takeWhile (· ≠ '=') = w) :=
    decide_eq_decide.mpr (stripWww_eq_iff hw _)
  have hutm : "utm_".toList.isPrefixOf (stripWww (p.takeWhile (· ≠ '='))) =
      "utm_".toList.isPrefixOf (p.takeWhile (· ≠ '=')) := by
    rw [Bool.eq_iff_iff, List.isPrefixOf_iff_prefix, List.isPrefixOf_iff_prefix]
    exact prefix_stripWww (by decide) _
  rw [isTracking, isTracking, hkey, hutm, hword _ (by decide), hword _ (by decide),
    hword _ (by decide)]

theorem stripWww_render (base : Str) (params : List Str) :
    stripWww (render base params) = render (stripWww base) (params.map stripWww) := by
  have hjoin : ∀ params : List Str, stripWww (['&'].intercalate params) =
      ['&'].intercalate (params.map stripWww) := by
    intro params
    induction params with
    | nil => rfl
    | cons p params ih =>
      cases params with
      | nil => simp
      | cons q params =>
        rw [List.intercalate_cons_cons, List.append_assoc, List.singleton_append,
          stripWww_sep (by decide), ih]
        simp [List.intercalate_cons_cons]
  cases params with
  | nil => rfl
  | cons p params => rw [render_cons, stripWww_sep (by decide), hjoin, List.map_cons, render_cons]

/-! ## The parts that stay -/

def url (raw : Str) : Str × List Str := parse (stripSlash (trim raw))

def kept (params : List Str) : List Str := params.filter fun param => !isTracking param

theorem kept_map_stripWww (params : List Str) :
    kept (params.map stripWww) = (kept params).map stripWww := by
  rw [kept, List.filter_map]
  congr 2
  funext p
  exact congrArg not (isTracking_stripWww p)

theorem stripTracking_render (hbase : '?' ∉ base) (hparams : ∀ p ∈ params, '&' ∉ p) :
    stripTracking (render base params) = render base (kept params) := by
  rw [stripTracking, parse_render hbase hparams]
  rfl

theorem stripWww_params (hparams : ∀ p ∈ params, '&' ∉ p) : ∀ p ∈ params.map stripWww, '&' ∉ p := by
  intro p hp
  obtain ⟨q, hq, rfl⟩ := List.mem_map.mp hp
  exact notMem_stripWww (hparams q hq) (by decide)

theorem normalizeUrl_eq (raw : Str) :
    normalizeUrl raw = render (stripWww (url raw).1) ((kept (url raw).2).map stripWww) := by
  obtain ⟨base, params, hs, hbase, hparams⟩ := exists_render (stripSlash (trim raw))
  rw [normalizeUrl, url, hs, parse_render hbase hparams, stripWww_render,
    stripTracking_render (notMem_stripWww hbase (by decide))
    (stripWww_params hparams), kept_map_stripWww]

theorem stripped_clean (raw : Str) : '?' ∉ stripWww (url raw).1 ∧
    ∀ p ∈ (kept (url raw).2).map stripWww, '&' ∉ p := by
  obtain ⟨base, params, hs, hbase, hparams⟩ := exists_render (stripSlash (trim raw))
  rw [url, hs, parse_render hbase hparams]
  exact ⟨notMem_stripWww hbase (by decide), stripWww_params fun p hp =>
    hparams p (List.mem_of_mem_filter hp)⟩

theorem render_inj {base' : Str} {params' : List Str} (hbase : '?' ∉ base)
    (hparams : ∀ p ∈ params, '&' ∉ p) (hbase' : '?' ∉ base')
    (hparams' : ∀ p ∈ params', '&' ∉ p) : render base params = render base' params' ↔
    base = base' ∧ params = params' := by
  constructor
  · intro h
    have hparse := congrArg parse h
    rw [parse_render hbase hparams, parse_render hbase' hparams', Prod.mk.injEq] at hparse
    exact hparse
  · intro ⟨hb, hp⟩
    rw [hb, hp]

/-- Two URLs are normalised to one where what stays of them is the same. -/
theorem normalizeUrl_eq_iff (s t : Str) :
    normalizeUrl s = normalizeUrl t ↔
      stripWww (url s).1 = stripWww (url t).1 ∧ (kept (url s).2).map stripWww =
      (kept (url t).2).map stripWww := by
  obtain ⟨hbase, hparams⟩ := stripped_clean s
  obtain ⟨hbase', hparams'⟩ := stripped_clean t
  rw [normalizeUrl_eq, normalizeUrl_eq, render_inj hbase hparams hbase' hparams']

/-! ## Every step shortens or does nothing -/

def Shortens (f : Str → Str) : Prop := ∀ s, f s = s ∨ (f s).length < s.length

theorem Shortens.length_le {f : Str → Str} (h : Shortens f) (s : Str) :
    (f s).length ≤ s.length := by
  rcases h s with heq | hlt
  · rw [heq]
  · exact hlt.le

theorem Shortens.comp {f g : Str → Str} (hg : Shortens g) (hf : Shortens f) :
    Shortens fun s => g (f s) := by
  intro s
  have hle := hg.length_le (f s)
  rcases hf s with heq | hlt
  · dsimp only
    rw [heq]
    exact hg s
  · exact .inr (hle.trans_lt hlt)

/-- Where two such steps do nothing together, neither does anything. -/
theorem Shortens.comp_eq_self_iff {f g : Str → Str} (hg : Shortens g) (hf : Shortens f) (s : Str) :
    g (f s) = s ↔ f s = s ∧ g s = s := by
  constructor
  · intro h
    have hle := hg.length_le (f s)
    rw [h] at hle
    have heq : f s = s := (hf s).resolve_right fun hlt => absurd hlt (by omega)
    rw [heq] at h
    exact ⟨heq, h⟩
  · intro ⟨hfs, hgs⟩
    rw [hfs, hgs]

theorem trim_shortens : Shortens trim := by
  intro s
  have hsub : (trim s).Sublist s := (List.rdropWhile_prefix _ _).sublist.trans
      (List.dropWhile_sublist _)
  exact (Nat.lt_or_eq_of_le hsub.length_le).symm.imp_left hsub.eq_of_length

theorem stripSlash_shortens : Shortens stripSlash := by
  intro s
  unfold stripSlash
  split
  · next h =>
    obtain ⟨t, rfl⟩ := List.getLast?_eq_some_iff.mp h
    simp
  · exact .inl rfl

theorem stripWww_shortens : Shortens stripWww := replace_eq_or_shorter wwwPrefix_ne (by decide)

theorem length_join (p : Str) (params : List Str) :
    (['&'].intercalate (p :: params)).length + 1 = ((p :: params).map fun q => q.length + 1).sum := by
  induction params generalizing p with
  | nil => simp
  | cons q params ih =>
    have h := ih q
    rw [List.map_cons, List.sum_cons] at h ⊢
    rw [List.intercalate_cons_cons, List.length_append, List.length_append, List.map_cons,
      List.sum_cons, ← h]
    simp only [List.length_cons, List.length_nil]
    omega

theorem length_render (base : Str) (params : List Str) :
    (render base params).length = base.length + (params.map fun q => q.length + 1).sum := by
  cases params with
  | nil => rfl
  | cons p params => rw [render_cons, List.length_append, List.length_cons, length_join]

theorem kept_shortens (params : List Str) :
    kept params = params ∨ ((kept params).map fun q => q.length + 1).sum <
    (params.map fun q => q.length + 1).sum := by
  induction params with
  | nil => exact .inl rfl
  | cons p params ih =>
    have hle : ((kept params).map fun q => q.length + 1).sum ≤
        (params.map fun q => q.length + 1).sum := by
      rcases ih with heq | hlt
      · rw [heq]
      · exact hlt.le
    by_cases hp : isTracking p
    · have hkept : kept (p :: params) = kept params := List.filter_cons_of_neg (by simp [hp])
      rw [hkept, List.map_cons, List.sum_cons]
      exact .inr (by omega)
    · have hkept : kept (p :: params) = p :: kept params := List.filter_cons_of_pos (by simp [hp])
      rw [hkept, List.map_cons, List.sum_cons, List.map_cons, List.sum_cons]
      exact ih.imp (congrArg (p :: ·)) fun hlt => by omega

theorem stripTracking_shortens : Shortens stripTracking := by
  intro s
  obtain ⟨base, params, rfl, hbase, hparams⟩ := exists_render s
  rw [stripTracking_render hbase hparams, length_render, length_render]
  exact (kept_shortens params).imp (congrArg (render base)) fun hlt => by omega

/-- A URL is normal when there is nothing for any step to do. -/
theorem normalizeUrl_eq_self_iff (s : Str) :
    normalizeUrl s = s ↔ trim s = s ∧ stripSlash s = s ∧ stripWww s = s ∧ stripTracking s = s := by
  have h1 := stripSlash_shortens.comp trim_shortens
  have h2 := stripWww_shortens.comp h1
  rw [normalizeUrl, stripTracking_shortens.comp_eq_self_iff h2,
    stripWww_shortens.comp_eq_self_iff h1,
    stripSlash_shortens.comp_eq_self_iff trim_shortens, and_assoc, and_assoc]

end

end Crabtalk.Aggregator

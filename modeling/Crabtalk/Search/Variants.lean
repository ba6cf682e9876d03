import Crabtalk.Search.Idempotence

/-!
# URLs that differ in what is stripped

Two URLs that differ by a slash, by `www.` or in their tracking parameters.
Only the end of the string is looked at for a slash, only what follows `://`
for `www.`, and the fragment is read as part of the query.
-/

open Basis

namespace Crabtalk.Aggregator

structure Url where
  scheme : Str
  userinfo : Option Str
  host : Str
  path : Str
  /-- The parameters. There is no `?` where there are none. -/
  query : List Str
  fragment : Option Str
  scheme_clean : ∀ c ∈ scheme, c ∉ ":/?#".toList
  userinfo_clean : ∀ c ∈ userinfo.getD [], c ∉ "/?#@".toList
  host_ne : host ≠ []
  host_clean : ∀ c ∈ host, c ∉ "/?#@".toList
  path_clean : ∀ c ∈ path, c ∉ "?#".toList
  path_rooted : path = [] ∨ path.head? = some '/'
  query_clean : ∀ p ∈ query, ∀ c ∈ p, c ∉ "&#".toList
  no_white : ∀ c ∈ scheme ++ userinfo.getD [] ++ host ++ path ++ query.flatten ++ fragment.getD [],
    isWhite c = false

namespace Url

def authority (u : Url) : Str :=
  match u.userinfo with
  | none => u.host
  | some userinfo => userinfo ++ '@' :: u.host

def front (u : Url) : Str := u.scheme ++ schemeEnd ++ u.authority

def fragmentStr (u : Url) : Str :=
  match u.fragment with
  | none => []
  | some fragment => '#' :: fragment

def tail (u : Url) : Str := render u.path u.query ++ u.fragmentStr

def toStr (u : Url) : Str := u.front ++ u.tail

/-! ## How a URL is read -/

variable {u v : Url}

theorem authority_clean (u : Url) : u.authority ≠ [] ∧ '/' ∉ u.authority ∧ '?' ∉ u.authority := by
  have hhost (c : Char) (hc : c ∈ "/?#@".toList) : c ∉ u.host := fun hmem => u.host_clean c hmem hc
  have huser := u.userinfo_clean
  rw [authority]
  cases hu : u.userinfo with
  | none => exact ⟨u.host_ne, hhost _ (by decide), hhost _ (by decide)⟩
  | some userinfo =>
    rw [hu, Option.getD_some] at huser
    have hclean (c : Char) (hc : c ∈ "/?#@".toList) : c ∉ userinfo := fun hmem => huser c hmem hc
    refine ⟨by simp, ?_, ?_⟩
    · simp [hclean '/' (by decide), hhost '/' (by decide)]
    · simp [hclean '?' (by decide), hhost '?' (by decide)]

theorem front_clean (u : Url) : '?' ∉ u.front ∧ u.front.getLast? ≠ some '/' := by
  obtain ⟨hne, hslash, hquery⟩ := u.authority_clean
  have hscheme : '?' ∉ u.scheme := fun hmem => u.scheme_clean _ hmem (by decide)
  constructor
  · rw [front, List.mem_append, List.mem_append, not_or, not_or]
    exact ⟨⟨hscheme, by decide⟩, hquery⟩
  · rw [front, List.getLast?_append_of_ne_nil _ hne]
    exact fun hlast => hslash (List.mem_of_getLast? hlast)

theorem mem_join {c : Char} {params : List Str} (h : c ∈ ['&'].intercalate params) :
    c = '&' ∨ c ∈ params.flatten := by
  induction params with
  | nil => cases h
  | cons p params ih =>
    cases params with
    | nil =>
      rw [List.intercalate_singleton] at h
      exact .inr (by simp [h])
    | cons q params =>
      rw [List.intercalate_cons_cons, List.append_assoc, List.singleton_append, List.mem_append,
        List.mem_cons] at h
      rw [List.flatten_cons, List.mem_append]
      rcases h with hp | rfl | hrest
      · exact .inr (.inl hp)
      · exact .inl rfl
      · exact (ih hrest).imp_right .inr

def separators : Str := "://@?&#".toList

theorem mem_render {c : Char} {base : Str} {params : List Str} (h : c ∈ render base params) :
    c ∈ separators ∨ c ∈ base ∨ c ∈ params.flatten := by
  cases params with
  | nil => exact .inr (.inl h)
  | cons p params =>
    rw [render_cons, List.mem_append, List.mem_cons] at h
    rcases h with hb | rfl | hj
    · exact .inr (.inl hb)
    · exact .inl (by decide)
    · rcases mem_join hj with rfl | hp
      · exact .inl (by decide)
      · exact .inr (.inr hp)

theorem mem_front {u : Url} {c : Char} (h : c ∈ u.front) : c ∈ separators ∨
    c ∈ u.scheme ++ u.userinfo.getD [] ++ u.host := by
  have hauth : c ∈ u.authority → c = '@' ∨ c ∈ u.userinfo.getD [] ++ u.host := by
    rw [authority]
    cases u.userinfo with
    | none => exact .inr
    | some userinfo =>
      intro hc
      simpa [or_left_comm] using hc
  have hpre : schemeEnd <+: separators := by decide
  rw [front, List.mem_append, List.mem_append] at h
  rw [List.append_assoc, List.mem_append]
  rcases h with (hs | hend) | ha
  · exact .inr (.inl hs)
  · exact .inl (hpre.mem hend)
  · rcases hauth ha with rfl | hc
    · exact .inl (by decide)
    · exact .inr (.inr hc)

theorem mem_tail {u : Url} {c : Char} (h : c ∈ u.tail) : c ∈ separators ∨
    c ∈ u.path ++ u.query.flatten ++ u.fragment.getD [] := by
  have hfrag : c ∈ u.fragmentStr → c = '#' ∨ c ∈ u.fragment.getD [] := by
    rw [fragmentStr]
    cases u.fragment with
    | none => exact .inr
    | some fragment => exact List.mem_cons.mp
  rw [tail, List.mem_append] at h
  rw [List.mem_append, List.mem_append]
  rcases h with hr | hf
  · exact (mem_render hr).imp_right .inl
  · rcases hfrag hf with rfl | hc
    · exact .inl (by decide)
    · exact .inr (.inr hc)

theorem toStr_not_white {u : Url} {c : Char} (h : c ∈ u.toStr) : isWhite c = false := by
  have htext := u.no_white c
  simp only [List.append_assoc, List.mem_append] at htext
  have hsep : c ∈ separators → isWhite c = false := by
    have hall : separators.all (fun c => !isWhite c) = true := by decide
    intro hc
    simpa using List.all_eq_true.mp hall c hc
  rw [toStr, List.mem_append] at h
  rcases h with hf | ht
  · refine (mem_front hf).elim hsep fun hc => ?_
    simp only [List.append_assoc, List.mem_append] at hc
    exact htext (by tauto)
  · refine (mem_tail ht).elim hsep fun hc => ?_
    simp only [List.append_assoc, List.mem_append] at hc
    exact htext (by tauto)

theorem trim_toStr (u : Url) : trim u.toStr = u.toStr :=
  (trim_eq_self_iff fun _ hc => toStr_not_white (List.mem_of_head? hc)).mpr fun _ hc =>
    toStr_not_white (List.mem_of_getLast? hc)

theorem stripSlash_append (s : Str) {t : Str} (h : t ≠ [] ∨ s.getLast? ≠ some '/') :
    stripSlash (s ++ t) = s ++ stripSlash t := by
  by_cases ht : t = []
  · have hs := (stripSlash_eq_self_iff s).mpr (h.resolve_left (not_not_intro ht))
    rw [ht, List.append_nil, hs]
    exact (List.append_nil s).symm
  · rw [stripSlash, stripSlash, List.getLast?_append_of_ne_nil _ ht,
      List.dropLast_append_of_ne_nil ht]
    split <;> rfl

theorem parse_append {s : Str} (h : '?' ∉ s) (t : Str) :
    parse (s ++ t) = (s ++ (parse t).1, (parse t).2) := by
  have hall : ∀ x ∈ s, decide (x ≠ '?') = true := fun x hx => decide_eq_true fun heq => h (heq ▸ hx)
  rw [parse, List.takeWhile_append_of_pos hall, List.dropWhile_append_of_pos hall]
  rfl

/-- What stands before the path plays no part in the rest. -/
theorem url_toStr (u : Url) : url u.toStr = (u.front ++ (parse (stripSlash u.tail)).1,
    (parse (stripSlash u.tail)).2) := by
  obtain ⟨hq, hslash⟩ := u.front_clean
  rw [url, trim_toStr, toStr, stripSlash_append _ (.inr hslash), parse_append hq]

theorem normalizeUrl_toStr_iff (u v : Url) :
    normalizeUrl u.toStr = normalizeUrl v.toStr ↔
      stripWww (u.front ++ (parse (stripSlash u.tail)).1) =
      stripWww (v.front ++ (parse (stripSlash v.tail)).1) ∧
        (kept (parse (stripSlash u.tail)).2).map stripWww =
        (kept (parse (stripSlash v.tail)).2).map stripWww := by
  rw [normalizeUrl_eq_iff, url_toStr, url_toStr]

theorem splitOn_join {params : List Str} (h : ∀ p ∈ params, '&' ∉ p) (x : Str) :
    (['&'].intercalate (params ++ [x])).splitOn '&' = params ++ x.splitOn '&' := by
  induction params with
  | nil => simp
  | cons p params ih =>
    have hne : params ++ [x] ≠ [] := by simp
    rw [List.cons_append, List.intercalate_cons_of_ne_nil hne, List.append_assoc,
      List.singleton_append,
      List.splitOn_append_cons_self_of_not_mem (h p List.mem_cons_self), ih fun q hq =>
      h q (List.mem_cons_of_mem _ hq)]
    rfl

theorem path_noQuery (u : Url) : '?' ∉ u.path := fun hmem => u.path_clean _ hmem (by decide)

theorem query_noSep (u : Url) : ∀ p ∈ u.query, '&' ∉ p :=
  fun p hp hmem => u.query_clean p hp _ hmem (by decide)

/-- The fragment is read with the last parameter, or with the path where there is none. -/
theorem stripSlash_isPrefix (s : Str) : stripSlash s <+: s := by
  unfold stripSlash
  split
  · exact List.dropLast_prefix s
  · exact List.prefix_refl s

theorem parse_noFragment (h : u.fragment = none) {path : Str} (hpath : '?' ∉ path) :
    parse (stripSlash (path ++ u.fragmentStr)) = (stripSlash path, []) := by
  have hstr : u.fragmentStr = [] := by rw [fragmentStr, h]
  rw [hstr, List.append_nil, parse_open fun hmem => hpath ((stripSlash_isPrefix path).mem hmem)]

theorem stripSlash_fragment {f : Str} (h : u.fragment = some f) (s : Str) :
    stripSlash (s ++ u.fragmentStr) = s ++ '#' :: stripSlash f := by
  have hstr : u.fragmentStr = ['#'] ++ f := by rw [fragmentStr, h, List.singleton_append]
  rw [hstr, ← List.append_assoc, stripSlash_append _ (.inr (by simp)), List.append_assoc,
    List.singleton_append]

theorem parse_fragment {f : Str} (h : u.fragment = some f) {path : Str} (hpath : '?' ∉ path) :
    parse (stripSlash (path ++ u.fragmentStr)) = (path ++ '#' :: (parse (stripSlash f)).1,
      (parse (stripSlash f)).2) := by
  have hclean : '?' ∉ path ++ ['#'] := by simp [hpath]
  have hcut : path ++ '#' :: stripSlash f = path ++ ['#'] ++ stripSlash f := by simp
  rw [stripSlash_fragment h, hcut, parse_append hclean, List.append_assoc]
  rfl

theorem parse_tail_nil (h : u.query = []) :
    parse (stripSlash u.tail) = parse (stripSlash (u.path ++ u.fragmentStr)) := by
  rw [tail, h]
  rfl

theorem parse_tail_concat {params : List Str} {x : Str} (h : u.query = params ++ [x]) :
    parse (stripSlash u.tail) = (u.path, params ++ (stripSlash (x ++ u.fragmentStr)).splitOn '&') := by
  obtain ⟨t, c, hc, hrender⟩ := render_concat u.path params
  have hends : (t ++ [c]).getLast? ≠ some '/' := by
    rw [List.getLast?_concat]
    rcases hc with rfl | rfl <;> simp
  have htail : u.tail = t ++ [c] ++ (x ++ u.fragmentStr) := by
    rw [tail, h, hrender]
    simp
  have hwhole (z : Str) : t ++ [c] ++ z = u.path ++ '?' :: ['&'].intercalate (params ++ [z]) := by
    rw [List.append_assoc, List.singleton_append, ← hrender z, render, if_neg (by simp)]
  have hparams : ∀ p ∈ params, '&' ∉ p := fun p hp =>
      u.query_noSep p (h ▸ List.mem_append_left _ hp)
  rw [htail, stripSlash_append _ (.inr hends), hwhole, parse_query u.path_noQuery,
    splitOn_join hparams]

/-! ## A slash at the end of the path -/

def Slashed (u v : Url) : Prop :=
  v.scheme = u.scheme ∧ v.userinfo = u.userinfo ∧ v.host = u.host ∧ v.path = u.path ++ ['/'] ∧
    v.query = u.query ∧ v.fragment = u.fragment

theorem stripWww_slash (s : Str) : stripWww (s ++ ['/']) = stripWww s ++ ['/'] :=
  replace_concat wwwPrefix_ne (by decide) s

theorem stripWww_slash_ne {s t : Str} (h : stripWww t = stripWww s ++ ['/']) :
    stripWww s ≠ stripWww t := by
  intro heq
  rw [h] at heq
  have hlen := congrArg List.length heq
  simp at hlen

theorem stripWww_stripSlash_iff (s t : Str) : stripWww (s ++ stripSlash t) = stripWww (s ++ t) ↔
    t.getLast? ≠ some '/' := by
  by_cases h : t.getLast? = some '/'
  · obtain ⟨t, rfl⟩ := List.getLast?_eq_some_iff.mp h
    refine iff_of_false ?_ (not_not_intro h)
    rw [stripSlash, if_pos h, List.dropLast_concat]
    refine stripWww_slash_ne ?_
    rw [← List.append_assoc, stripWww_slash]
  · rw [stripSlash, if_neg h]
    exact iff_of_true rfl h

theorem normalizeUrl_slashed_iff (h : u.Slashed v) :
    normalizeUrl u.toStr = normalizeUrl v.toStr ↔ u.query = [] ∧ u.fragment = none ∧
    u.path.getLast? ≠ some '/' := by
  obtain ⟨hscheme, huser, hhost, hpath, hquery, hfrag⟩ := h
  have hfront : v.front = u.front := by
    rw [front, front, authority, authority, hscheme, huser, hhost]
  have hfragStr : v.fragmentStr = u.fragmentStr := by rw [fragmentStr, fragmentStr, hfrag]
  have hclean : '?' ∉ u.path ++ ['/'] := by simp [u.path_noQuery]
  have hslash : stripWww (u.front ++ (u.path ++ ['/'])) = stripWww (u.front ++ u.path) ++ ['/'] := by
    rw [← List.append_assoc, stripWww_slash]
  rw [normalizeUrl_toStr_iff, hfront]
  rcases List.eq_nil_or_concat u.query with hnil | ⟨params, x, hcat⟩
  · rw [parse_tail_nil hnil, parse_tail_nil (hquery.trans hnil), hpath, hfragStr]
    cases hf : u.fragment with
    | none =>
      have hpop : stripSlash (u.path ++ ['/']) = u.path := by simp [stripSlash]
      rw [parse_noFragment hf u.path_noQuery, parse_noFragment hf hclean, hpop,
        stripWww_stripSlash_iff]
      simp [hnil]
    | some f =>
      rw [parse_fragment hf u.path_noQuery, parse_fragment hf hclean]
      refine iff_of_false ?_ (by simp)
      rintro ⟨heq, -⟩
      rw [← List.append_assoc, ← List.append_assoc, stripWww_sep (by decide),
        stripWww_sep (by decide), hslash] at heq
      have hlen := congrArg List.length heq
      simp at hlen
  · rw [List.concat_eq_append] at hcat
    rw [parse_tail_concat hcat, parse_tail_concat (hquery.trans hcat), hpath, hfragStr]
    refine iff_of_false (fun hsame => stripWww_slash_ne hslash hsame.1) ?_
    simp [hcat]

/-! ## `www.` before the host -/

def Prefixed (u v : Url) : Prop :=
  v.scheme = u.scheme ∧ v.userinfo = u.userinfo ∧ v.host = "www.".toList ++ u.host ∧
    v.path = u.path ∧ v.query = u.query ∧ v.fragment = u.fragment

theorem head?_tail {c : Char} (h : u.tail.head? = some c) : c = '/' ∨ c = '?' ∨ c = '#' := by
  have hfrag {c : Char} (hf : u.fragmentStr.head? = some c) : c = '#' := by
    rw [fragmentStr] at hf
    split at hf
    · cases hf
    · exact (Option.some.inj hf).symm
  have hpath (hp : u.path = [] ∨ u.path.head? = some '/') : u.path = [] ∨ ∃ p, u.path = '/' :: p :=
    hp.imp_right List.head?_eq_some_iff.mp
  rw [tail] at h
  cases hq : u.query with
  | nil =>
    rw [hq] at h
    rcases hpath u.path_rooted with hnil | ⟨p, hp⟩
    · rw [hnil] at h
      exact .inr (.inr (hfrag h))
    · rw [hp] at h
      exact .inl (Option.some.inj h).symm
  | cons p params =>
    rw [hq, render_cons] at h
    rcases hpath u.path_rooted with hnil | ⟨p, hp⟩
    · rw [hnil] at h
      exact .inr (.inl (Option.some.inj h).symm)
    · rw [hp] at h
      exact .inl (Option.some.inj h).symm

theorem www_prefix_append {s t : Str} (ht : ∀ c, t.head? = some c → c = '/' ∨ c = '?' ∨ c = '#') :
    "www.".toList <+: s ++ t ↔ "www.".toList <+: s := by
  cases t with
  | nil => rw [List.append_nil]
  | cons c t =>
    refine prefix_append_sep fun hc => ?_
    rcases ht c rfl with rfl | rfl | rfl <;> exact absurd hc (by decide)

theorem stripWww_scheme {scheme t : Str} (hscheme : ':' ∉ scheme) :
    stripWww (scheme ++ schemeEnd ++ ("www.".toList ++ t)) = scheme ++ schemeEnd ++ stripWww t := by
  have hcut : scheme ++ schemeEnd ++ ("www.".toList ++ t) = scheme ++ (wwwPrefix ++ t) := by
    rw [List.append_assoc, ← List.append_assoc schemeEnd]
    rfl
  rw [hcut, stripWww, replace_head_notMem rfl hscheme, replace_match wwwPrefix_ne,
    List.append_assoc]
  rfl

theorem stripWww_scheme_other {scheme t : Str} (hscheme : ':' ∉ scheme)
    (ht : ¬ "www.".toList <+: t) :
    stripWww (scheme ++ schemeEnd ++ t) = scheme ++ schemeEnd ++ stripWww t := by
  have hstep : ¬ wwwPrefix <+: ':' :: ("//".toList ++ t) :=
    fun h => ht ((prefix_wwwPrefix_iff t).mp h)
  have hcut : scheme ++ schemeEnd ++ t = scheme ++ (':' :: ("//".toList ++ t)) := by
    rw [List.append_assoc]
    rfl
  rw [hcut, stripWww, replace_head_notMem rfl hscheme, replace_step hstep,
    replace_head_notMem rfl (by decide), List.append_assoc]
  rfl

theorem stripWww_www (t : Str) : stripWww ("www.".toList ++ t) = "www.".toList ++ stripWww t :=
  replace_head_notMem rfl (by decide) t

theorem normalizeUrl_prefixed_iff (h : u.Prefixed v) :
    normalizeUrl u.toStr = normalizeUrl v.toStr ↔ u.userinfo = none ∧
    ¬ "www.".toList <+: u.host := by
  obtain ⟨hscheme, huser, hhost, hpath, hquery, hfrag⟩ := h
  have htail : v.tail = u.tail := by rw [tail, tail, fragmentStr, fragmentStr, hpath, hquery, hfrag]
  have hcolon : ':' ∉ u.scheme := fun hmem => u.scheme_clean _ hmem (by decide)
  rw [normalizeUrl_toStr_iff, htail, and_iff_left rfl]
  obtain ⟨r, hr⟩ : ∃ r, (parse (stripSlash u.tail)).1 = r := ⟨_, rfl⟩
  have hhead : ∀ c, r.head? = some c → c = '/' ∨ c = '?' ∨ c = '#' := by
    intro c hc
    have hpre : r <+: u.tail := hr ▸ (List.takeWhile_prefix _).trans (stripSlash_isPrefix _)
    obtain ⟨r', rfl⟩ := List.head?_eq_some_iff.mp hc
    obtain ⟨w, hw⟩ := hpre
    exact head?_tail (by rw [← hw]; rfl)
  rw [hr, front, front, authority, authority, hscheme, huser, hhost]
  cases u.userinfo with
  | none =>
    dsimp only
    rw [List.append_assoc (u.scheme ++ schemeEnd), List.append_assoc (u.scheme ++ schemeEnd),
      List.append_assoc "www.".toList,
      stripWww_scheme hcolon]
    by_cases hwww : "www.".toList <+: u.host
    · refine iff_of_false (fun heq => ?_) (fun hno => hno.2 hwww)
      obtain ⟨rest, hrest⟩ := hwww
      rw [← hrest, List.append_assoc "www.".toList, stripWww_scheme hcolon, stripWww_www] at heq
      have hlen := congrArg List.length heq
      simp at hlen
      omega
    · rw [stripWww_scheme_other hcolon (mt (www_prefix_append hhead).mp hwww)]
      exact iff_of_true rfl ⟨rfl, hwww⟩
  | some userinfo =>
    refine iff_of_false (fun heq => ?_) (by simp)
    have hcut (x y : Str) : u.scheme ++ schemeEnd ++ (userinfo ++ '@' :: x) ++ y =
        u.scheme ++ schemeEnd ++ userinfo ++ '@' :: (x ++ y) := by
      simp only [List.append_assoc, List.cons_append]
    dsimp only at heq
    rw [hcut, hcut, stripWww_sep (by decide), stripWww_sep (by decide),
      List.append_assoc "www.".toList, stripWww_www] at heq
    have hlen := congrArg List.length heq
    simp at hlen

end Url

end Crabtalk.Aggregator

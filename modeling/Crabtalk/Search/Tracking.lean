import Crabtalk.Search.Variants

/-!
# Tracking parameters put in or taken out

The parameters that stay are the same, so what decides is the end of the query:
which parameter the slash is taken from and which one the fragment is read with.
-/

open Basis

namespace Crabtalk.Aggregator

/-- A key that is for tracking on its own and without which it is not. -/
def Bare (param : Str) : Prop := param = "fbclid".toList ∨ param = "gclid".toList ∨
    param = "ref".toList

section
variable {x y f : Str} {A B A' B' : List Str}

theorem kept_append (A B : List Str) : kept (A ++ B) = kept A ++ kept B := List.filter_append _ _

theorem kept_tracking (h : isTracking x = true) : kept [x] = [] :=
  List.filter_cons_of_neg (by simp [h])

theorem kept_other (h : isTracking x = false) : kept [x] = [x] :=
  List.filter_cons_of_pos (by simp [h])

theorem kept_eq_nil (h : kept A = []) : ∀ p ∈ A, isTracking p = true := by
  intro p hp
  simpa using List.filter_eq_nil_iff.mp h p hp

theorem not_bare_of_mem {c : Char} (hc : c ∈ x) (hsep : c = '=' ∨ c = '#' ∨ c = '/' ∨ c = ':') :
    ¬ Bare x := by
  intro hbare
  rcases hbare with rfl | rfl | rfl <;> rcases hsep with rfl | rfl | rfl | rfl <;>
    exact absurd hc (by decide)

theorem isTracking_iff (x : Str) :
    isTracking x = true ↔ "utm_".toList <+: x.takeWhile (· ≠ '=') ∨
    Bare (x.takeWhile (· ≠ '=')) := by
  simp only [isTracking, Bool.or_eq_true, List.isPrefixOf_iff_prefix, decide_eq_true_eq,
    or_assoc, Bare]

theorem isTracking_value {key : Str} (h : '=' ∉ key) (value : Str) :
    isTracking (key ++ '=' :: value) = isTracking key := by
  rw [Bool.eq_iff_iff, isTracking_iff, isTracking_iff, (before_sep h value).1, (before_none h).1]

/-- A fragment, read with a parameter, hides that it is a bare key and nothing else. -/
theorem isTracking_fragment (x g : Str) : isTracking (x ++ '#' :: g) = true ↔
    isTracking x = true ∧ ¬ Bare x := by
  by_cases h : '=' ∈ x
  · obtain ⟨key, value, rfl, hkey⟩ := List.eq_append_cons_of_mem h
    rw [List.append_assoc, List.cons_append, isTracking_value hkey, isTracking_value hkey]
    exact (and_iff_left (not_bare_of_mem h (.inl rfl))).symm
  · have hkey : (x ++ '#' :: g).takeWhile (· ≠ '=') = x ++ '#' :: g.takeWhile (· ≠ '=') := by
      have hall : ∀ c ∈ x, decide (c ≠ '=') = true := fun c hc =>
          decide_eq_true fun heq => h (heq ▸ hc)
      rw [List.takeWhile_append_of_pos hall, List.takeWhile_cons_of_pos (by decide)]
    have hno : ¬ Bare (x ++ '#' :: g.takeWhile (· ≠ '=')) :=
      not_bare_of_mem (c := '#') (by simp) (.inr (.inl rfl))
    rw [isTracking_iff, isTracking_iff, hkey, (before_none h).1, prefix_append_sep (by decide),
      or_iff_left hno]
    have hutm : "utm_".toList <+: x → ¬ Bare x := by
      intro hpre hbare
      rcases hbare with rfl | rfl | rfl <;> exact absurd hpre (by decide)
    exact ⟨fun hpre => ⟨.inl hpre, hutm hpre⟩, fun ⟨hor, hno⟩ => hor.resolve_right hno⟩

theorem stripSlash_cases (x : Str) : (x.getLast? ≠ some '/' ∧ stripSlash x = x) ∨
    ∃ z, x = z ++ ['/'] ∧ stripSlash x = z := by
  by_cases h : x.getLast? = some '/'
  · obtain ⟨z, rfl⟩ := List.getLast?_eq_some_iff.mp h
    exact .inr ⟨z, rfl, by simp [stripSlash]⟩
  · exact .inl ⟨h, if_neg h⟩

theorem isTracking_stripSlash (h : isTracking x = true) : isTracking (stripSlash x) = true := by
  rcases stripSlash_cases x with ⟨-, heq⟩ | ⟨z, rfl, heq⟩
  · rw [heq, h]
  · rw [heq]
    by_cases hz : '=' ∈ z
    · obtain ⟨key, value, rfl, hkey⟩ := List.eq_append_cons_of_mem hz
      rw [List.append_assoc, List.cons_append, isTracking_value hkey] at h
      rw [isTracking_value hkey, h]
    · have hkey : '=' ∉ z ++ ['/'] := by simp [hz]
      rw [isTracking_iff, (before_none hkey).1, prefix_append_sep (by decide),
        or_iff_left (not_bare_of_mem (c := '/') (by simp) (.inr (.inr (.inl rfl))))] at h
      rw [isTracking_iff, (before_none hz).1]
      exact .inl h

/-! ## Without a fragment -/

/-- The slash is taken from a parameter that stays. -/
def Cut (x : Str) : Prop := isTracking x = false ∧ x.getLast? = some '/'

theorem kept_stripSlash_iff (x : Str) : (kept [stripSlash x]).map stripWww =
    (kept [x]).map stripWww ↔ ¬ Cut x := by
  rcases stripSlash_cases x with ⟨hlast, heq⟩ | ⟨z, rfl, heq⟩
  · rw [heq]
    exact iff_of_true rfl fun hcut => hlast hcut.2
  · cases hx : isTracking (z ++ ['/']) with
    | true =>
      rw [kept_tracking hx, kept_tracking (isTracking_stripSlash hx)]
      exact iff_of_true rfl fun hcut => absurd hcut.1 (by simp [hx])
    | false =>
      refine iff_of_false (fun hmap => ?_) (not_not_intro ⟨hx, by simp⟩)
      rw [heq, kept_other hx, List.map_singleton, Url.stripWww_slash] at hmap
      cases hz : isTracking z with
      | true =>
        rw [kept_tracking hz] at hmap
        cases hmap
      | false =>
        rw [kept_other hz, List.map_singleton] at hmap
        have hlen := congrArg (fun l => l.flatten.length) hmap
        simp at hlen

theorem ends_eq_iff (h : kept (A' ++ [x]) = kept (B' ++ [y])) :
    (kept (A' ++ [stripSlash x])).map stripWww = (kept (B' ++ [stripSlash y])).map stripWww ↔
    (Cut x ↔ Cut y) := by
  rw [kept_append, kept_append] at h
  have hmap := congrArg (List.map stripWww) h
  rw [List.map_append, List.map_append] at hmap
  rw [kept_append, kept_append, List.map_append, List.map_append]
  by_cases hx : Cut x
  · by_cases hy : Cut y
    · rw [kept_other hx.1, kept_other hy.1] at h
      obtain ⟨hinit, hlast⟩ := List.append_inj' h rfl
      cases hlast
      rw [hinit]
      exact iff_of_true rfl Iff.rfl
    · refine iff_of_false (fun heq => ?_) (fun hiff => hy (hiff.mp hx))
      rw [(kept_stripSlash_iff y).mpr hy, ← hmap] at heq
      exact (kept_stripSlash_iff x).mp (List.append_cancel_left heq) hx
  · rw [(kept_stripSlash_iff x).mpr hx, hmap]
    by_cases hy : Cut y
    · refine iff_of_false (fun heq => ?_) (fun hiff => hx (hiff.mpr hy))
      exact (kept_stripSlash_iff y).mp (List.append_cancel_left heq).symm hy
    · rw [(kept_stripSlash_iff y).mpr hy]
      exact iff_of_true rfl (iff_of_false hx hy)

/-! ## With a fragment -/

theorem stripWww_fragment (x g : Str) :
    stripWww (x ++ '#' :: g) = stripWww x ++ '#' :: stripWww g := stripWww_sep (by decide) x g

theorem fragment_ne (h : isTracking x = true) (h' : isTracking y = false)
    (heq : kept (A' ++ [x]) = kept (B' ++ [y])) (g : Str) :
    (kept (A' ++ [x ++ '#' :: g])).map stripWww ≠ (kept (B' ++ [y ++ '#' :: g])).map stripWww := by
  have hg : isTracking (y ++ '#' :: g) = false := by
    rw [Bool.eq_false_iff, ne_eq, isTracking_fragment, h']
    simp
  rw [kept_append, kept_append, kept_tracking h, kept_other h', List.append_nil] at heq
  rw [kept_append, kept_append, heq, kept_other hg, List.map_append, List.map_append,
    List.map_append, List.append_assoc]
  intro hmap
  have htail := List.append_cancel_left hmap
  rw [List.map_singleton, List.map_singleton, List.singleton_append, stripWww_fragment] at htail
  have hlen := congrArg List.length (List.cons.inj htail).1
  simp at hlen

theorem kept_bare (hbare : Bare x) (g : Str) :
    (kept [x ++ '#' :: g]).map stripWww = [x ++ '#' :: stripWww g] := by
  have hg : isTracking (x ++ '#' :: g) = false := by
    rw [Bool.eq_false_iff, ne_eq, isTracking_fragment]
    exact fun hno => hno.2 hbare
  have hcolon : ':' ∉ x := fun hmem => not_bare_of_mem hmem (.inr (.inr (.inr rfl))) hbare
  rw [kept_other hg, List.map_singleton, stripWww_fragment, stripWww_of_notMem hcolon]

theorem kept_not_bare (h : isTracking x = true) (hbare : ¬ Bare x) (g : Str) :
    kept [x ++ '#' :: g] = [] :=
  kept_tracking ((isTracking_fragment x g).mpr ⟨h, hbare⟩)

theorem fragment_eq_iff (h : kept (A' ++ [x]) = kept (B' ++ [y])) (g : Str) :
    (kept (A' ++ [x ++ '#' :: g])).map stripWww = (kept (B' ++ [y ++ '#' :: g])).map stripWww ↔
      isTracking x = isTracking y ∧ (isTracking x = true → x = y ∨ ¬ Bare x ∧ ¬ Bare y) := by
  cases hx : isTracking x with
  | true =>
    cases hy : isTracking y with
    | true =>
      have hinit : kept A' = kept B' := by
        rw [kept_append, kept_append, kept_tracking hx, kept_tracking hy, List.append_nil,
          List.append_nil] at h
        exact h
      rw [kept_append, kept_append, hinit, List.map_append, List.map_append, List.append_right_inj]
      by_cases hbx : Bare x
      · rw [kept_bare hbx]
        by_cases hby : Bare y
        · rw [kept_bare hby, List.cons.injEq, List.append_left_inj]
          simp [hbx]
        · rw [kept_not_bare hy hby]
          refine iff_of_false (by simp) fun hno => ?_
          rcases hno.2 rfl with rfl | hboth
          · exact hby hbx
          · exact hboth.1 hbx
      · rw [kept_not_bare hx hbx]
        by_cases hby : Bare y
        · rw [kept_bare hby]
          refine iff_of_false (by simp) fun hno => ?_
          rcases hno.2 rfl with rfl | hboth
          · exact hbx hby
          · exact hboth.2 hby
        · rw [kept_not_bare hy hby]
          simp [hbx, hby]
    | false => exact iff_of_false (fragment_ne hx hy h g) (by simp)
  | false =>
    cases hy : isTracking y with
    | true => exact iff_of_false (fragment_ne hy hx h.symm g).symm (by simp)
    | false =>
      rw [kept_append, kept_append, kept_other hx, kept_other hy] at h
      obtain ⟨hinit, hlast⟩ := List.append_inj' h rfl
      cases hlast
      rw [kept_append, kept_append, hinit]
      simp

end

/-! ## Two queries -/

namespace Url

/-- The same URL but for the tracking parameters in its query. -/
def Retracked (u v : Url) : Prop :=
  v.scheme = u.scheme ∧ v.userinfo = u.userinfo ∧ v.host = u.host ∧ v.path = u.path ∧
    kept v.query = kept u.query ∧ v.fragment = u.fragment

/-- What two last parameters must have in common, or one that is the last and a query that is not there. -/
def SameEnd (path : Str) (fragment : Option Str) : Option Str → Option Str → Prop
  | none, none => True
  | none, some _ => fragment = none ∧ path.getLast? ≠ some '/'
  | some _, none => fragment = none ∧ path.getLast? ≠ some '/'
  | some x, some y =>
    match fragment with
    | none => Cut x ↔ Cut y
    | some _ => isTracking x = isTracking y ∧ (isTracking x = true → x = y ∨ ¬ Bare x ∧ ¬ Bare y)

variable {u v : Url} {params params' : List Str} {x y : Str}

theorem splitOn_stripSlash (hx : '&' ∉ x) : (stripSlash x).splitOn '&' = [stripSlash x] :=
  List.splitOn_eq_singleton fun hmem => hx ((stripSlash_isPrefix x).mem hmem)

theorem query_last_clean (h : u.query = params ++ [x]) : '&' ∉ x :=
  u.query_noSep x (h ▸ List.mem_append_right _ List.mem_cons_self)

/-- The fragment up to its first `&` is read with the last parameter, and what is behind that as
parameters. -/
theorem exists_splitOn_fragment (s : Str) : ∃ g gs, ∀ x : Str, '&' ∉ x →
    (x ++ '#' :: s).splitOn '&' = (x ++ '#' :: g) :: gs := by
  by_cases h : '&' ∈ s
  · obtain ⟨g, rest, rfl, hg⟩ := List.eq_append_cons_of_mem h
    refine ⟨g, rest.splitOn '&', fun x hx => ?_⟩
    have hclean : '&' ∉ x ++ '#' :: g := by simp [hx, hg]
    rw [← List.cons_append, ← List.append_assoc, List.splitOn_append_cons_self_of_not_mem hclean]
  · exact ⟨s, [], fun x hx => List.splitOn_eq_singleton (by simp [hx, h])⟩

theorem normalizeUrl_dropped_iff (hfront : v.front = u.front) (hpath : v.path = u.path)
    (hfrag : v.fragment = u.fragment)
    (hu : u.query = []) (hv : v.query = params ++ [x]) (hkept : kept v.query = []) :
    normalizeUrl u.toStr = normalizeUrl v.toStr ↔ u.fragment = none ∧
    u.path.getLast? ≠ some '/' := by
  have hfragStr : v.fragmentStr = u.fragmentStr := by rw [fragmentStr, fragmentStr, hfrag]
  rw [normalizeUrl_toStr_iff, hfront, parse_tail_nil hu, parse_tail_concat hv, hpath, hfragStr]
  cases hf : u.fragment with
  | none =>
    have hstr : u.fragmentStr = [] := by rw [fragmentStr, hf]
    have hend : kept (params ++ [stripSlash x]) = [] := by
      rw [hv, kept_append, List.append_eq_nil_iff] at hkept
      have hx : isTracking x = true := kept_eq_nil hkept.2 x List.mem_cons_self
      rw [kept_append, hkept.1, kept_tracking (isTracking_stripSlash hx), List.append_nil]
    rw [parse_noFragment hf u.path_noQuery, hstr, List.append_nil,
      splitOn_stripSlash (query_last_clean hv), hend, stripWww_stripSlash_iff]
    simp [kept]
  | some f =>
    rw [parse_fragment hf u.path_noQuery]
    refine iff_of_false ?_ (by simp)
    rintro ⟨heq, -⟩
    rw [← List.append_assoc, stripWww_sep (by decide)] at heq
    have hlen := congrArg List.length heq
    simp at hlen

theorem normalizeUrl_kept_iff (hfront : v.front = u.front) (hpath : v.path = u.path)
    (hfrag : v.fragment = u.fragment)
    (hu : u.query = params ++ [x]) (hv : v.query = params' ++ [y])
    (hkept : kept v.query = kept u.query) :
    normalizeUrl u.toStr = normalizeUrl v.toStr ↔ SameEnd u.path u.fragment (some x) (some y) := by
  have hfragStr : v.fragmentStr = u.fragmentStr := by rw [fragmentStr, fragmentStr, hfrag]
  have hsame : kept (params ++ [x]) = kept (params' ++ [y]) := by rw [← hu, ← hv, hkept]
  rw [normalizeUrl_toStr_iff, hfront, parse_tail_concat hu, parse_tail_concat hv, hpath, hfragStr,
    and_iff_right rfl]
  cases hf : u.fragment with
  | none =>
    have hstr : u.fragmentStr = [] := by rw [fragmentStr, hf]
    rw [hstr, List.append_nil, List.append_nil, splitOn_stripSlash (query_last_clean hu),
      splitOn_stripSlash (query_last_clean hv)]
    exact ends_eq_iff hsame
  | some f =>
    obtain ⟨g, gs, hsplit⟩ := exists_splitOn_fragment (stripSlash f)
    have hcut (params : List Str) (p : Str) : params ++ p :: gs = (params ++ [p]) ++ gs := by simp
    rw [stripSlash_fragment hf, stripSlash_fragment hf, hsplit x (query_last_clean hu),
      hsplit y (query_last_clean hv), hcut, hcut,
      kept_append _ gs, kept_append _ gs, List.map_append, List.map_append, List.append_left_inj]
    exact fragment_eq_iff hsame g

theorem normalizeUrl_retracked_iff (h : u.Retracked v) :
    normalizeUrl u.toStr = normalizeUrl v.toStr ↔
    SameEnd u.path u.fragment u.query.getLast? v.query.getLast? := by
  obtain ⟨hscheme, huser, hhost, hpath, hkept, hfrag⟩ := h
  have hfront : v.front = u.front := by
    rw [front, front, authority, authority, hscheme, huser, hhost]
  rcases List.eq_nil_or_concat u.query with hu | ⟨params, x, hu⟩
  · rcases List.eq_nil_or_concat v.query with hv | ⟨params', y, hv⟩
    · have htail : v.tail = u.tail := by
        rw [tail, tail, fragmentStr, fragmentStr, hpath, hfrag, hu, hv]
      rw [toStr, toStr, hfront, htail, hu, hv]
      exact iff_of_true rfl trivial
    · rw [List.concat_eq_append] at hv
      have hnil : kept v.query = [] := by rw [hkept, hu]; rfl
      rw [normalizeUrl_dropped_iff hfront hpath hfrag hu hv hnil, hu, hv, List.getLast?_concat]
      rfl
  · rw [List.concat_eq_append] at hu
    rcases List.eq_nil_or_concat v.query with hv | ⟨params', y, hv⟩
    · have hnil : kept u.query = [] := by rw [← hkept, hv]; rfl
      rw [eq_comm, normalizeUrl_dropped_iff hfront.symm hpath.symm hfrag.symm hv hu hnil, hu, hv,
        List.getLast?_concat, hfrag, hpath]
      rfl
    · rw [List.concat_eq_append] at hv
      rw [normalizeUrl_kept_iff hfront hpath hfrag hu hv hkept, hu, hv, List.getLast?_concat,
        List.getLast?_concat]

end Url

/-- When normalising again changes nothing, and when it gives variants of one URL the same. -/
theorem normalizeUrl_iff (raw : Str) (u v : Url) :
    (normalizeUrl (normalizeUrl raw) = normalizeUrl raw ↔ Settled raw) ∧
      (u.Slashed v →
        (normalizeUrl u.toStr = normalizeUrl v.toStr ↔ u.query = [] ∧ u.fragment = none ∧
          u.path.getLast? ≠ some '/')) ∧
      (u.Prefixed v →
        (normalizeUrl u.toStr = normalizeUrl v.toStr ↔ u.userinfo = none ∧
          ¬ "www.".toList <+: u.host)) ∧
      (u.Retracked v →
        (normalizeUrl u.toStr = normalizeUrl v.toStr ↔
          Url.SameEnd u.path u.fragment u.query.getLast? v.query.getLast?)) :=
  ⟨normalizeUrl_idem_iff raw, Url.normalizeUrl_slashed_iff, Url.normalizeUrl_prefixed_iff,
    Url.normalizeUrl_retracked_iff⟩

def page : Url where
  scheme := "https".toList
  userinfo := none
  host := "a.com".toList
  path := "/p".toList
  query := []
  fragment := none
  scheme_clean := by simp
  userinfo_clean := by simp
  host_ne := by simp
  host_clean := by simp
  path_clean := by simp
  path_rooted := by simp
  query_clean := by simp
  no_white := by simp [isWhite]

def slashedPage : Url :=
  { page with
    path := "/p/".toList
    path_clean := by simp
    path_rooted := by simp
    no_white := by simp [page, isWhite] }

def prefixedPage : Url :=
  { page with
    host := "www.a.com".toList
    host_ne := by simp
    host_clean := by simp
    no_white := by simp [page, isWhite] }

def trackedPage : Url :=
  { page with
    query := ["ref=x".toList]
    query_clean := by simp
    no_white := by simp [page, isWhite] }

theorem normalizeUrl_iff_page :
    normalizeUrl page.toStr = normalizeUrl slashedPage.toStr ∧
    normalizeUrl page.toStr = normalizeUrl prefixedPage.toStr ∧
      normalizeUrl page.toStr = normalizeUrl trackedPage.toStr := by
  refine ⟨((normalizeUrl_iff [] page slashedPage).2.1 ?_).mpr ?_,
    ((normalizeUrl_iff [] page prefixedPage).2.2.1 ?_).mpr ?_,
    ((normalizeUrl_iff [] page trackedPage).2.2.2 ?_).mpr ?_⟩
  · exact ⟨rfl, rfl, rfl, by decide, rfl, rfl⟩
  · exact ⟨rfl, rfl, by decide⟩
  · exact ⟨rfl, rfl, by decide, rfl, rfl, rfl⟩
  · exact ⟨rfl, by decide⟩
  · exact ⟨rfl, rfl, rfl, rfl, by decide, rfl⟩
  · exact ⟨rfl, by decide⟩

/-- A page with a parameter that stays, and the same with the slash that tracking hides. -/
def idPage : Url :=
  { page with
    query := ["id=1".toList]
    query_clean := by simp
    no_white := by simp [page, isWhite] }

def slashedIdPage : Url :=
  { slashedPage with
    query := ["id=1".toList]
    query_clean := by simp
    no_white := by simp [page, slashedPage, isWhite] }

def slashedTrackedPage : Url :=
  { slashedPage with
    query := ["ref=x".toList]
    query_clean := by simp
    no_white := by simp [page, slashedPage, isWhite] }

theorem not_normalizeUrl_slash :
    normalizeUrl (normalizeUrl "https://a.com//".toList) ≠ normalizeUrl "https://a.com//".toList ∧
      (idPage.Slashed slashedIdPage ∧
        normalizeUrl idPage.toStr ≠ normalizeUrl slashedIdPage.toStr) ∧
        (slashedPage.Retracked slashedTrackedPage ∧
          normalizeUrl slashedPage.toStr ≠ normalizeUrl slashedTrackedPage.toStr) := by
  refine ⟨by decide, ⟨⟨rfl, rfl, rfl, by decide, rfl, rfl⟩, by decide⟩,
    ⟨rfl, rfl, rfl, rfl, by decide, rfl⟩, by decide⟩

end Crabtalk.Aggregator

import Crabtalk.Store.Deletion
import Crabtalk.Store.Isolated
import Crabtalk.Store.Messages

/-! # Where sessions do disturb one another

Handles that are not apart: a run for each way their keys meet.
-/

open Basis

namespace Crabtalk.Store

variable {μ : Type} {F : Prop} {h g : Str} {s s' : Kv μ}

theorem components_intercalate {parts : List Str} (hp : ∀ p ∈ parts, '/' ∉ p) (hne : parts ≠ []) :
    components (['/'].intercalate parts) = parts :=
  List.splitOn_intercalate '/' hp hne

theorem slash_notMem_component {a c : Str} (hc : c ∈ components a) : '/' ∉ c := notMem_splitOn hc

/-- A key whose parts continue those of a stem is under it. -/
theorem isPrefix_of_components {a k : Str} (rest : List Str) (hrest : rest ≠ [])
    (hc : components k = components a ++ rest) :
    a ++ ['/'] <+: k := by
  refine ⟨['/'].intercalate rest, components_inj ?_⟩
  rw [List.append_assoc, List.singleton_append, components_slash, hc,
    components_intercalate _ hrest]
  intro p hp
  exact slash_notMem_component (a := k) (hc ▸ List.mem_append_right _ hp)

/-! ## Two small runs -/

theorem wp_update_fresh [TextStd] (ht : TextTyped s)
    (hs : s[((.session, metaKey h) : Cell)]? = none) (m : SessionMeta) :
    Prog.wp F memory (updateSessionMeta h m)
      (fun _ s' => TextTyped s' ∧ ∀ k, s'[((.session, k) : Cell)]? =
        if metaKey h = k then some (.sessionMeta m) else s[((.session, k) : Cell)]?)
        (fun _ _ => F) s := by
  have hput : TextTyped (s.insert (.session, metaKey h) (.sessionMeta m)) :=
    ht.changes (Changes.insert (P := fun c => c.1 = .session) rfl _) fun c hc => by rw [hc]; decide
  rw [updateSessionMeta, Prog.wp_bind, sessionMeta, wp_getJson, hs]
  refine ⟨?_, fun hF _ => hF⟩
  simp only
  rw [Prog.wp_bind, wp_put]
  refine ⟨(wp_indexMetaText hput h m).mono (fun _ s₁ h₁ => ⟨h₁.1, fun k => ?_⟩) fun _ _ he => he.1,
    fun hF _ => hF⟩
  rw [h₁.2 _ (by simp), find_insert]
  simp

theorem wp_append_one [TextStd] [Wire μ] (ht : TextTyped s) {m : SessionMeta}
    (hm : s[((.session, metaKey h) : Cell)]? = some (.sessionMeta m))
    (hcount : m.messageCount = 0) (e : HistoryEntry μ) (now : Str) :
    Prog.wp False memory (appendSessionMessages h [e] now)
      (fun _ s' => s'[((.session, messageKey h 0) : Cell)]? = some (.entry e.persist))
      (fun _ _ => False) s := by
  rw [appendSessionMessages, if_neg (by simp), Prog.wp_bind]
  refine wp_sessionMeta hm ?_ False.elim
  simp only
  rw [Prog.wp_bind, hcount]
  refine (wp_appendEntries [e] 0 s ht).mono (fun _ s₁ hfiled => ?_) fun _ _ he => he.1
  obtain ⟨-, hes⟩ := hfiled
  rw [wp_put, find_insert, if_neg fun he => messageKey_ne_metaKey h h 0 (congrArg Prod.snd he).symm]
  exact ⟨hes 0 Nat.one_pos Nat.one_pos, False.elim⟩

theorem wp_indexText_stored [TextStd] {index : TextIndex} {key text : Str} {weight : ℚ}
    (ht : TextTyped s)
    (hterms : tokenize text ≠ []) :
    Prog.wp F memory (indexText index key text weight)
      (fun _ s' => TextTyped s' ∧ s'[((.text, docKey index key) : Cell)]? ≠ none)
      (fun _ _ => F) s := by
  refine ((wp_indexText ht).and (R := fun _ s' => s'[((.text, docKey index key) : Cell)]? ≠ none)
    (F := fun _ _ => True) ?_).mono
    (fun _ _ h => ⟨h.1.1, h.2⟩) fun _ _ h => h.1.1
  have hslash : ∀ tf ∈ termFrequencies (tokenize text), '/' ∉ tf.1 := by
    intro tf htf
    obtain ⟨t, ht, rfl⟩ := List.mem_map.mp ((TextStd.hashOrder_perm _).mem_iff.mp htf)
    exact slash_notMem_tokenize (List.mem_dedup.mp ht)
  rw [indexText, Prog.wp_bind]
  refine (wp_dropText ht).mono (fun _ s₁ h₁ => ?_) fun _ _ _ => trivial
  simp only [List.isEmpty_iff, hterms, if_false]
  rw [Prog.wp_bind]
  refine Prog.wp.mono (fun _ s₂ h₂ => ?_) (fun _ _ _ => trivial)
    (Prog.wp_forM (I := TextTyped) (E := fun _ _ => True) h₁.1
    fun tf _ s₂ h₂ => ?_)
  · rw [Prog.wp_bind, wp_put, Prog.wp_bind]
    refine ⟨wp_stats (h₂.put_doc index key fun t ht => ?_) (fun st => ?_) fun _ _ => trivial,
      fun _ _ => trivial⟩
    · obtain ⟨tf, htf, rfl⟩ := List.mem_map.mp ((List.perm_insertionSort _ _).mem_iff.mp ht)
      exact hslash tf htf
    · rw [wp_put, find_insert, if_neg (by simp [docKey_ne_statsKey.symm]), find_insert, if_pos rfl]
      exact ⟨by simp, fun _ _ => trivial⟩
  · rw [wp_put]
    exact ⟨h₂.put_posting _ _ _ _, fun _ _ => trivial⟩

theorem tokenize_word [TextStd] {w : Str} (hw : w.all Char.isLower) (hlen : 1 < w.length)
    (hstop : isStopword w = false) :
    tokenize w = [w] := by
  have halnum : ∀ c ∈ w, (!TextStd.isAlphanumeric c) = false := by
    intro c hc
    have hlower : c.isLower := List.all_eq_true.mp hw c hc
    have hascii : ((c.isUpper || c.isLower) || c.isDigit) = true := by
      rw [hlower, Bool.or_true, Bool.true_or]
    rw [TextStd.ascii_alphanumeric c hascii]
    rfl
  rw [tokenize, List.splitOnP_eq_singleton halnum]
  simp [hlen, TextStd.ascii_toLowercase w hw, hstop]

/-! ## The three ways -/

section
variable [TextStd] [Wire μ] [Chrono]

/-- Below the messages of `g`: what is appended to `h` is loaded as a message of `g`. -/
theorem messages_disturbed (hne : h ≠ g) (hg : '/' ∉ g) (hp : [g, "msg".toList] <+: components h) :
    ¬ Isolated μ h g := by
  intro hi
  let m : SessionMeta := ⟨⟨0⟩, [], [], [], [], 0, none, none⟩
  obtain ⟨_, s₁, hr₁, ht₁, hs₁⟩ :=
    (wp_update_fresh (h := g) (F := False) (.empty : TextTyped (∅ : Kv μ)) (by simp) m).run True
  have hmeta : metaKey g ≠ metaKey h := fun he => hne (metaKey_inj he).symm
  obtain ⟨_, s₂, hr₂, ht₂, hs₂⟩ :=
    (wp_update_fresh (h := h) (F := False) ht₁ (by rw [hs₁, if_neg hmeta]; simp) m).run True
  have hcells : ∀ k v, s₂[((.session, k) : Cell)]? = some v → v = .sessionMeta m := by
    intro k v hv
    rw [hs₂, hs₁] at hv
    split at hv
    · exact (Option.some.inj hv).symm
    · split at hv
      · exact (Option.some.inj hv).symm
      · simp at hv
  have hreach : Reached s₂ := .session h (.update m)
      (.session g (.update m) .empty trivial hr₁) trivial hr₂
  obtain ⟨_, s₃, hr₃, hentry⟩ :=
    (wp_append_one ht₂ (by rw [hs₂, if_pos rfl]) rfl ((HistoryEntry.user [] : HistoryEntry μ)) []).run True
  have hload := (hi s₂ s₃ (.append [.user []] []) (.ok ()) hreach trivial hr₃).load
  rw [reads_loadSession.answer, reads_loadSession.answer] at hload
  have hview : sessionView g s₂ =
      .ok (some ⟨m, (s₂.under .session (messagePrefix g)).filterMap fun e => e.2.asEntry, none⟩) := by
    have h₁ : readJson Value.asMeta s₂ .session (metaKey g) = .ok (some m) := by
      rw [readJson, hs₂, if_neg hmeta.symm, hs₁, if_pos rfl]
      rfl
    have h₂ : readJson Value.asText s₂ .session (archiveKey g) = .ok none := by
      rw [readJson, hs₂, if_neg (archiveKey_ne_metaKey g h).symm, hs₁,
        if_neg (archiveKey_ne_metaKey g g).symm]
      simp
    rw [sessionView, h₁]
    show (do let archive ← readJson Value.asText s₂ .session (archiveKey g); _) = _
    rw [h₂]
    rfl
  have hempty : (s₂.under .session (messagePrefix g)).filterMap (fun e => e.2.asEntry) = [] := by
    rw [List.filterMap_eq_nil_iff]
    rintro ⟨⟨col, k⟩, v⟩ he
    obtain ⟨hv, hcol, -⟩ := ColMap.mem_under.mp he
    simp only at hcol
    subst hcol
    rw [hcells k v hv]
    rfl
  rw [hview] at hload
  have hhist := sessionView_history hload
  simp only [hempty] at hhist
  -- the message of `h` stands among the messages of `g`
  have hbelow : messagePrefix g <+: messageKey h 0 := by
    obtain ⟨rest, hrest⟩ := hp
    refine isPrefix_of_components (rest ++ ["msg".toList, pad12 0]) (by simp) ?_
    rw [components_messageKey, components_key, ← hrest]
    simp [components_of_notMem, hg]
  have hmem : (HistoryEntry.user [] : HistoryEntry μ).persist ∈
      (s₃.under .session (messagePrefix g)).filterMap fun e => e.2.asEntry :=
    List.mem_filterMap.mpr ⟨((.session, messageKey h 0), .entry (HistoryEntry.user []).persist),
      ColMap.mem_under.mpr ⟨hentry, rfl, hbelow⟩, rfl⟩
  rw [← hhist] at hmem
  cases hmem

/-- Below the texts of `g`: deleting `h` takes the title of `g` out of the index. -/
theorem texts_disturbed (hg : '/' ∉ g) (hp : components h = [g, "meta".toList]) :
    ¬ Isolated μ h g := by
  intro hi
  let m : SessionMeta := ⟨⟨0⟩, [], [], "crab".toList, [], 0, none, none⟩
  have hword : tokenize m.title ≠ [] := by
    rw [tokenize_word (by decide) (by decide) (by decide)]
    simp
  have hupdate : Prog.wp False memory (updateSessionMeta g m)
      (fun _ s' => s'[((.text, docKey .sessionMeta (titleKey g)) : Cell)]? ≠ none)
        (fun _ _ => False) (∅ : Kv μ) := by
    rw [updateSessionMeta, Prog.wp_bind, sessionMeta, wp_getJson]
    simp only [Std.ExtTreeMap.getElem?_empty]
    rw [Prog.wp_bind, wp_put, indexMetaText, if_neg (by simp [m]), Prog.wp_bind]
    have hput : TextTyped ((∅ : Kv μ).insert (.session, metaKey g) (.sessionMeta m)) :=
      TextTyped.empty.changes (Changes.insert (P := fun c => c.1 = .session) rfl _) fun c hc => by
        rw [hc]; decide
    refine ⟨⟨(wp_indexText_stored hput hword).mono (fun _ s₁ hstored => ?_) fun _ _ he => he,
      False.elim⟩, False.elim⟩
    obtain ⟨ht, hdoc⟩ := hstored
    refine (wp_dropText ht).mono (fun _ s₂ h₂ => ?_) fun _ _ he => he.1
    rw [h₂.2 _ (docKey_notMem_docCells fun he => ?_)]
    · exact hdoc
    · have := congrArg components he.2
      rw [components_titleKey, components_summaryKey] at this
      simp at this
  obtain ⟨_, s₁, hr₁, hdoc⟩ := hupdate.run True
  have hreach : Reached s₁ := .session g (.update m) .empty trivial hr₁
  have hdelete : Prog.wp False memory (SessionOp.exec h (.delete : SessionOp μ))
      (fun _ s' => Deleted h s₁ s') (fun _ _ => False) s₁ := by
    rw [SessionOp.exec, Prog.wp_bind]
    exact (wp_deleteSession hreach.typed.text hreach.typed.metas).mono (fun _ _ hd => hd.1)
      fun _ _ he => he
  obtain ⟨_, s₂, hr₂, hdel⟩ := hdelete.run True
  have hrecord := (hi s₁ s₂ .delete (.ok ()) hreach trivial hr₂).title.record
  have hbelow : sessionPrefix h <+: titleKey g := by
    refine isPrefix_of_components ["title".toList] (by simp) ?_
    rw [components_titleKey, components_key, components_of_notMem hg]
    simp [components_of_notMem, hp]
  rw [hdel.texts _ hbelow] at hrecord
  exact hdoc hrecord.symm

/-- Ending like a row of `g`: creating `h` takes the row of `g` over. -/
theorem rows_disturbed (hne : h ≠ g) (hg : '/' ∉ g) {t : Str} (ht : Chrono.IsTimestamp t)
    (hp : [t, g] <:+ components h) :
    ¬ Isolated μ h g := by
  intro hi
  obtain ⟨front, hfront⟩ := hp
  -- a creator such that the row of `g` is spelled like a row of `h`
  let by' : Str := ['/'].intercalate ([[], t] ++ front)
  have hby : components by' = [[], t] ++ front := by
    refine components_intercalate ?_ (by simp)
    intro p hp
    simp only [List.cons_append, List.nil_append, List.mem_cons] at hp
    rcases hp with rfl | rfl | hp
    · simp
    · exact Chrono.slash_notMem _ ht
    · exact slash_notMem_component (a := h) (hfront ▸ List.mem_append_left _ hp)
  let m : SessionMeta := ⟨⟨0⟩, by', t, [], t, 0, none, none⟩
  let m' : SessionMeta := ⟨⟨0⟩, [], t, [], t, 0, none, none⟩
  have hrow : sessionIndexKey m g = sessionIndexKey m' h := by
    refine components_inj ?_
    rw [components_sessionIndexKey, components_sessionIndexKey, ← hfront]
    simp [m, m', hby, components_of_notMem, hg, Chrono.slash_notMem _ ht]
  let s₁ : Kv μ := ((∅ : Kv μ).insert (.session, metaKey g) (.sessionMeta m)).insert
      (.session, sessionIndexKey m g) (.raw g)
  let s₂ : Kv μ := (s₁.insert (.session, metaKey h) (.sessionMeta m')).insert
      (.session, sessionIndexKey m' h) (.raw h)
  have hr₁ : Prog.Runs True memory (SessionOp.exec g (.create ⟨0⟩ by' none t : SessionOp μ)) ∅
      (.ok ()) s₁ := .ok rfl (.ok rfl (.done _ _))
  have hr₂ : Prog.Runs True memory (SessionOp.exec h (.create ⟨0⟩ [] none t : SessionOp μ)) s₁
      (.ok ()) s₂ := .ok rfl (.ok rfl (.done _ _))
  have hreach₁ : Reached s₁ := .session g (.create ⟨0⟩ by' none t) .empty ht hr₁
  have hreach₂ : Reached s₂ := .session h (.create ⟨0⟩ [] none t) hreach₁ ht hr₂
  have hlist := (hi s₁ s₂ (.create ⟨0⟩ [] none t) (.ok ()) hreach₁ ht hr₂).listing
  rw [entriesOf_eq hreach₁.typed.metas, entriesOf_eq hreach₂.typed.metas] at hlist
  have hmem : (g, m) ∈ listed s₁ ((rowHandles none s₁).filter (· = g)) := by
    refine List.mem_filterMap.mpr ⟨g, List.mem_filter.mpr ⟨?_, by simp⟩, ?_⟩
    · refine List.mem_filterMap.mpr ⟨((.session, sessionIndexKey m g), .raw g),
        ColMap.mem_under.mpr ⟨?_, rfl, indexPrefix_isPrefix m g⟩, rfl⟩
      simp only [s₁]
      rw [find_insert, if_pos rfl]
    · simp only [s₁]
      rw [find_insert, if_neg fun he => sessionIndexKey_ne_metaKey m g g (congrArg Prod.snd he),
        find_insert, if_pos rfl]
      rfl
  -- the second creation writes over that row, so `g` is listed no more
  rw [← Except.ok.inj hlist] at hmem
  obtain ⟨a, ha, -⟩ := List.mem_filterMap.mp hmem
  obtain ⟨ha, hag⟩ := List.mem_filter.mp ha
  rw [of_decide_eq_true hag] at ha
  obtain ⟨⟨⟨col, k⟩, v⟩, he, hraw⟩ := List.mem_filterMap.mp ha
  obtain ⟨hv, hcol, hk⟩ := ColMap.mem_under.mp he
  simp only at hcol hk hraw
  subst hcol
  simp only [s₂, s₁, find_insert] at hv
  split at hv
  · cases hv
    exact hne (Option.some.inj hraw)
  · split at hv
    · cases hv
      cases hraw
    · split at hv
      · rename_i hn _ he
        exact hn (by rw [← hrow]; exact he)
      · split at hv
        · cases hv
          cases hraw
        · simp at hv

/-- `g` is never disturbed by `h`, and hits on its documents are counted for
it, exactly when the two are apart. -/
theorem isolated_iff (hne : h ≠ g) (i : Nat) : (Isolated μ h g ∧ Attributed g i) ↔
    (Apart h g ∧ i < 2 ^ 32) := by
  constructor
  · rintro ⟨hi, ha⟩
    obtain ⟨hg, hsmall⟩ := attributed_iff.mp ha
    exact ⟨⟨hg, fun hp => messages_disturbed hne hg hp hi, fun hp => texts_disturbed hg hp hi,
      fun t ht hp => rows_disturbed hne hg ht hp hi⟩, hsmall⟩
  · rintro ⟨ha, hsmall⟩
    exact ⟨ha.isolated hne, attributed_iff.mpr ⟨ha.slash, hsmall⟩⟩

end

section
open Plain

theorem isolated_iff_instance : "chat".toList ≠ "notes".toList ∧
    ((Isolated Message "chat".toList "notes".toList ∧ Attributed "notes".toList 7) ↔
      (Apart "chat".toList "notes".toList ∧ 7 < 2 ^ 32)) :=
  ⟨by decide, isolated_iff (by decide) 7⟩

/-- A path as a handle: hits on its messages are counted for the last directory of
the path; and a session below the messages of another writes into it. -/
theorem paths_not_isolated : ¬ Attributed "/home/crab".toList 0 ∧
    ¬ Isolated Message "chat/msg".toList "chat".toList :=
  ⟨fun ha => (attributed_iff.mp ha).1 (by decide),
    messages_disturbed (by decide) (by decide) (by decide)⟩

end

end Crabtalk.Store

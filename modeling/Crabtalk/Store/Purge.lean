import Crabtalk.Store.Roster

/-! # Deleting, listing and purging by the session index -/

open Basis

namespace Crabtalk.Store

variable {μ : Type} {g h : Str} {s s' s'' : Kv μ}

/-- The row that is computed from the record of `g` is there. -/
def RowStored (g : Str) (s : Kv μ) : Prop :=
  ∀ m, s[((.session, metaKey g) : Cell)]? = some (.sessionMeta m) →
    s[((.session, sessionIndexKey m g) : Cell)]? ≠ none

theorem Deleted.sub (hd : Deleted g s s') {k : Str} {v : Value μ}
    (hv : s'[((.session, k) : Cell)]? = some v) :
    s[((.session, k) : Cell)]? = some v := by
  by_cases hk : sessionPrefix g <+: k
  · rw [hd.keys k hk] at hv
    cases hv
  · by_cases hr : StoredRow g s k
    · rw [hd.row k hr] at hv
      cases hv
    · rw [← hd.rest k hk hr, hv]

section
variable [Chrono] {H : Str → Prop}

/-- Another session keeps what stands under its keys. -/
theorem Deleted.spared (hd : Deleted g s s') (hH : Family H) (hg : H g) (hh : H h) (hne : g ≠ h)
    {k : Str} (hk : sessionPrefix h <+: k) :
    s'[((.session, k) : Cell)]? = s[((.session, k) : Cell)]? := by
  refine hd.rest k (hH.apart hg hh hne hk) ?_
  rintro ⟨m, -, rfl⟩
  exact indexPrefix_not_session hk (indexPrefix_isPrefix m g)

theorem Deleted.row_spared (hd : Deleted g s s') (hr : Rostered H s) (hH : Family H) (hg : H g)
    (hh : H h) (hne : g ≠ h) {m : SessionMeta}
    (ht : Chrono.IsTimestamp m.createdAt) : s'[((.session, sessionIndexKey m h) : Cell)]? =
    s[((.session, sessionIndexKey m h) : Cell)]? := by
  refine hd.rest _ (fun hp => indexPrefix_not_session hp (indexPrefix_isPrefix m h)) ?_
  rintro ⟨mg, hmg, he⟩
  exact hne (hH.row_inj hg hh (hr.timed g mg hmg) ht he.symm)

theorem Rostered.delete (hr : Rostered H s) (hH : Family H) (hg : H g) (hrow : RowStored g s)
    (hd : Deleted g s s') (ht : Typed s') :
    Rostered H s' := by
  have hnone : ∀ {h v}, s'[((.session, metaKey h) : Cell)]? = some v → h ≠ g := by
    rintro h v hv rfl
    rw [hd.keys _ (sessionPrefix_metaKey h)] at hv
    cases hv
  refine ⟨ht, fun h v hv => hr.own h v (hd.sub hv), fun h m hm => hr.timed h m (hd.sub hm),
    fun h m hm => ?_, fun k h hk hv => ?_⟩
  · obtain ⟨m₁, hkeyed, hrows⟩ := hr.row h m (hd.sub hm)
    refine ⟨m₁, hkeyed, fun k hk => ⟨fun hv => (hrows k hk).mp (hd.sub hv), ?_⟩⟩
    rintro rfl
    rw [hd.row_spared hr hH hg (hr.own h _ (hd.sub hm)) (hnone hm).symm hkeyed.2]
    exact (hrows _ hk).mpr rfl
  · have hs := hr.stored k h hk (hd.sub hv)
    obtain ⟨m, hm⟩ := hr.found hs
    by_cases hne : h = g
    · subst hne
      -- the row of a record that is there is the one row of its session
      obtain ⟨m₁, hkeyed, hrows⟩ := hr.row h m hm
      obtain ⟨w, hw⟩ := Option.ne_none_iff_exists'.mp (hrow m hm)
      obtain ⟨m₂, a, hkey, rfl, ht₂⟩ := hr.typed.rows _ w hw (indexPrefix_isPrefix m h)
      obtain ⟨ma, hma⟩ := hr.found (hr.stored _ a (indexPrefix_isPrefix m h) hw)
      obtain rfl := hH.row_inj hg (hr.own a _ hma) (hr.timed h m hm) ht₂ hkey
      have hk₁ := (hrows k hk).mp (hd.sub hv)
      have hk₂ := (hrows _ (indexPrefix_isPrefix m h)).mp hw
      rw [hd.row k ⟨m, hm, by rw [hk₁, hk₂]⟩] at hv
      cases hv
    · rw [hd.spared hH hg (hr.own h _ hm) (Ne.symm hne) (sessionPrefix_metaKey h)]
      exact hs

theorem RowStored.delete (hrow : RowStored h s) (hr : Rostered H s) (hH : Family H) (hg : H g)
    (hh : H h) (hne : g ≠ h) (hd : Deleted g s s') :
    RowStored h s' := by
  intro m hm
  have hm₀ := hd.sub hm
  rw [hd.row_spared hr hH hg hh hne (hr.timed h m hm₀)]
  exact hrow m hm₀

theorem wp_delete_rostered (hr : Rostered H s) (hH : Family H) (hg : H g) (hrow : RowStored g s) :
    Prog.wp False memory (deleteSession g) (fun _ => Rostered H) (fun _ _ => False) s := by
  refine ((wp_deleteSession hr.typed.text hr.typed.metas).and
    (keeps_deleteSession hr.typed.kept)).mono ?_ fun _ _ he => he.1
  rintro _ s' ⟨⟨hd, -⟩, hk⟩
  exact hr.delete hH hg hrow hd hk.typed

/-! ## Deleting several -/

theorem wp_deleteAll_rostered (hH : Family H) {handles : List Str} (hr : Rostered H s)
    (hall : ∀ g ∈ handles, H g ∧ RowStored g s) (n : Nat) :
    Prog.wp False memory (deleteAll handles n) (fun _ => Rostered H) (fun _ _ => False) s := by
  induction handles generalizing s n with
  | nil => exact hr
  | cons g handles ih =>
    obtain ⟨hg, hrow⟩ := hall g List.mem_cons_self
    unfold deleteAll
    rw [Prog.wp_bind]
    refine ((wp_deleteSession hr.typed.text hr.typed.metas).and
      (wp_delete_rostered hr hH hg hrow)).mono ?_ fun _ _ he => he.2
    rintro b s₁ ⟨⟨hd, -⟩, h₁⟩
    have hrest : ∀ h ∈ handles, H h ∧ RowStored h s₁ := by
      intro h hmem
      obtain ⟨hh, hrow'⟩ := hall h (List.mem_cons_of_mem _ hmem)
      refine ⟨hh, ?_⟩
      by_cases hne : g = h
      · intro m hm
        rw [← hne, hd.keys _ (sessionPrefix_metaKey g)] at hm
        cases hm
      · exact hrow'.delete hr hH hg hh hne hd
    split
    · exact ih h₁ hrest _
    · exact ih h₁ hrest _

structure Purged (H : Str → Prop) (handles : List Str) (s s' : Kv μ) : Prop where
  typed : Typed s'
  sub : ∀ k v, s'[((.session, k) : Cell)]? = some v → s[((.session, k) : Cell)]? = some v
  gone : ∀ h ∈ handles, ∀ k, sessionPrefix h <+: k → s'[((.session, k) : Cell)]? = none
  spared : ∀ h, H h → h ∉ handles → ∀ k, sessionPrefix h <+: k →
    s'[((.session, k) : Cell)]? = s[((.session, k) : Cell)]?

theorem wp_deleteAll_purged (hH : Family H) {handles : List Str} (ht : Typed s)
    (hall : ∀ g ∈ handles, H g) (n : Nat) :
    Prog.wp False memory (deleteAll handles n) (fun _ => Purged H handles s) (fun _ _ => False) s := by
  induction handles generalizing s n with
  | nil => exact ⟨ht, fun _ _ hv => hv, by simp, fun _ _ _ _ _ => rfl⟩
  | cons g handles ih =>
    have hg := hall g List.mem_cons_self
    unfold deleteAll
    rw [Prog.wp_bind]
    refine ((wp_deleteSession ht.text ht.metas).and (keeps_deleteSession ht.kept)).mono ?_
      fun _ _ he => he.1
    rintro b s₁ ⟨⟨hd, -⟩, hk⟩
    have hpost : ∀ s', Purged H handles s₁ s' → Purged H (g :: handles) s s' := by
      intro s' hp
      refine ⟨hp.typed, fun k v hv => hd.sub (hp.sub k v hv), fun h hmem k hpre => ?_,
        fun h hh hnot k hpre => ?_⟩
      · rcases List.mem_cons.mp hmem with rfl | hmem
        · by_contra hne
          obtain ⟨v, hv⟩ := Option.ne_none_iff_exists'.mp hne
          have hv₁ := hp.sub k v hv
          rw [hd.keys k hpre] at hv₁
          cases hv₁
        · exact hp.gone h hmem k hpre
      · rw [hp.spared h hh (fun hmem => hnot (List.mem_cons_of_mem _ hmem)) k hpre]
        refine hd.spared hH hg hh ?_ hpre
        rintro rfl
        exact hnot List.mem_cons_self
    have hrest : ∀ h ∈ handles, H h := fun h hmem => hall h (List.mem_cons_of_mem _ hmem)
    split
    · exact (ih hk.typed hrest _).mono (fun _ => hpost) fun _ _ he => he
    · exact (ih hk.typed hrest _).mono (fun _ => hpost) fun _ _ he => he

end

/-! ## What the rows name -/

theorem mem_rowHandles {agent : Option AgentId} :
    h ∈ rowHandles agent s ↔ ∃ k, indexPrefix agent <+: k ∧
    s[((.session, k) : Cell)]? = some (.raw h) := by
  unfold rowHandles
  rw [List.mem_filterMap]
  constructor
  · rintro ⟨⟨⟨col, k⟩, v⟩, he, hraw⟩
    obtain ⟨hv, hcol, hk⟩ := ColMap.mem_under.mp he
    simp only at hcol hk hraw
    subst hcol
    refine ⟨k, hk, ?_⟩
    rw [hv]
    cases v <;> simp_all [Value.asRaw]
  · rintro ⟨k, hk, hv⟩
    exact ⟨((.session, k), .raw h), ColMap.mem_under.mpr ⟨hv, rfl, hk⟩, rfl⟩

theorem indexPrefix_some (a : AgentId) : indexPrefix none <+: indexPrefix (some a) :=
  ⟨a.toStr ++ ['/'], by simp [indexPrefix, keysUnder, key]⟩

theorem indexPrefix_row {a : AgentId} {m : SessionMeta} :
    indexPrefix (some a) <+: sessionIndexKey m h ↔ m.agent = a := by
  constructor
  · intro hp
    obtain ⟨rest, -, hr⟩ := components_of_isPrefix hp
    rw [components_sessionIndexKey, components_key] at hr
    simp [components_of_notMem, AgentId.slash_notMem] at hr
    exact AgentId.toStr_inj hr.1
  · rintro rfl
    exact ⟨m.createdBy ++ '/' :: m.createdAt ++ '/' :: h,
      by simp [indexPrefix, sessionIndexKey, keysUnder, key]⟩

theorem sessionView_none (hn : s[((.session, metaKey h) : Cell)]? = none) :
    sessionView h s = .ok none := by
  rw [sessionView, readJson, hn]
  rfl

theorem names_listed (handles : List Str) :
    (listed s handles).map (·.1) = handles.filter fun g =>
    (s[((.session, metaKey g) : Cell)]?.bind Value.asMeta).isSome := by
  induction handles with
  | nil => rfl
  | cons g handles ih =>
    unfold listed at ih ⊢
    rw [List.filterMap_cons, List.filter_cons]
    cases s[((.session, metaKey g) : Cell)]?.bind Value.asMeta with
    | none => exact ih
    | some m => simpa using ih

section
variable [Chrono] {H : Str → Prop}

theorem Rostered.mem_rowHandles (hr : Rostered H s) : h ∈ rowHandles none s ↔
    s[((.session, metaKey h) : Cell)]? ≠ none := by
  rw [Store.mem_rowHandles]
  constructor
  · rintro ⟨k, hk, hv⟩
    exact hr.stored k h hk hv
  · intro hs
    obtain ⟨m, hm⟩ := hr.found hs
    obtain ⟨m', -, hrows⟩ := hr.row h m hm
    exact ⟨_, indexPrefix_isPrefix m' h, (hrows _ (indexPrefix_isPrefix m' h)).mpr rfl⟩

theorem Rostered.mem_rowHandles_some (hr : Rostered H s) {a : AgentId} :
    h ∈ rowHandles (some a) s ↔ ∃ m, s[((.session, metaKey h) : Cell)]? = some (.sessionMeta m) ∧
    m.agent = a := by
  rw [Store.mem_rowHandles]
  constructor
  · rintro ⟨k, hk, hv⟩
    have hk' := (indexPrefix_some a).trans hk
    obtain ⟨m, hm⟩ := hr.found (hr.stored k h hk' hv)
    obtain ⟨m', hkeyed, hrows⟩ := hr.row h m hm
    rw [(hrows k hk').mp hv, indexPrefix_row] at hk
    exact ⟨m, hm, hkeyed.1.symm.trans hk⟩
  · rintro ⟨m, hm, ha⟩
    obtain ⟨m', hkeyed, hrows⟩ := hr.row h m hm
    exact ⟨_, indexPrefix_row.mpr (hkeyed.1.trans ha),
      (hrows _ (indexPrefix_isPrefix m' h)).mpr rfl⟩

theorem Rostered.nodup_rowHandles (hr : Rostered H s) : (rowHandles none s).Nodup := by
  unfold rowHandles
  refine List.pairwise_filterMap.mpr
    ((ColMap.sorted_under s .session (indexPrefix none)).imp_of_mem ?_)
  rintro ⟨⟨col, k⟩, v⟩ ⟨⟨col', k'⟩, v'⟩ hmem hmem' hlt h hraw h' hraw' rfl
  obtain ⟨hv, hcol, hk⟩ := ColMap.mem_under.mp hmem
  obtain ⟨hv', hcol', hk'⟩ := ColMap.mem_under.mp hmem'
  simp only at hcol hk hcol' hk' hraw hraw' hlt
  subst hcol hcol'
  obtain rfl : v = .raw h := by cases v <;> simp_all [Value.asRaw]
  obtain rfl : v' = .raw h := by cases v' <;> simp_all [Value.asRaw]
  obtain ⟨m, hm⟩ := hr.found (hr.stored k h hk hv)
  obtain ⟨m', -, hrows⟩ := hr.row h m hm
  rw [(hrows k hk).mp hv, (hrows k' hk').mp hv'] at hlt
  exact lt_irrefl_cmp _ hlt

/-- The listing names every stored session, once. -/
theorem Rostered.listing (hr : Rostered H s) : ∃ l, answer listSessions s = .ok l ∧
    (l.map (·.1)).Nodup ∧
    ∀ h, h ∈ l.map (·.1) ↔ s[((.session, metaKey h) : Cell)]? ≠ none := by
  refine ⟨_, (reads_listSessions hr.typed.metas).answer, ?_, fun h => ?_⟩
  · refine (((List.perm_insertionSort _ _).map _).nodup_iff).mpr ?_
    rw [names_listed]
    exact hr.nodup_rowHandles.filter _
  · rw [((List.perm_insertionSort _ _).map _).mem_iff, names_listed, List.mem_filter,
      hr.mem_rowHandles, and_iff_left_iff_imp]
    intro hs
    obtain ⟨m, hm⟩ := hr.found hs
    rw [hm]
    rfl

/-- Purging an agent takes the sessions whose records name it, and no others. -/
theorem Rostered.purge (hr : Rostered H s) (hH : Family H) (a : AgentId) :
    ∃ n s', Prog.interp memory (deleteSessionsOf a) s = .ok n s' ∧
    ∀ h, ((∃ m, s[((.session, metaKey h) : Cell)]? = some (.sessionMeta m) ∧ m.agent = a) →
      answer (loadSession h) s' = .ok none) ∧
      ((¬ ∃ m, s[((.session, metaKey h) : Cell)]? = some (.sessionMeta m) ∧ m.agent = a) →
        answer (loadSession h) s' = answer (loadSession h) s) := by
  have hall : ∀ g ∈ rowHandles (some a) s, H g := by
    intro g hg
    obtain ⟨m, hm, -⟩ := hr.mem_rowHandles_some.mp hg
    exact hr.own g _ hm
  have hwp : Prog.wp False memory (deleteSessionsOf a) (fun _ => Purged H (rowHandles (some a) s) s)
      (fun _ _ => False) s := by
    unfold deleteSessionsOf
    rw [Prog.wp_bind, Prog.wp_interp, Basis.wp, reads_indexedHandles]
    exact wp_deleteAll_purged hH hr.typed hall 0
  obtain ⟨n, s', hi, hp⟩ := hwp.answers
  refine ⟨n, s', hi, fun h => ⟨fun hs => ?_, fun hs => ?_⟩⟩
  · have hgone := hp.gone h (hr.mem_rowHandles_some.mpr hs) _ (sessionPrefix_metaKey h)
    rw [reads_loadSession.answer, sessionView_none hgone]
  · rw [← hr.mem_rowHandles_some] at hs
    rw [reads_loadSession.answer, reads_loadSession.answer]
    by_cases hstored : s[((.session, metaKey h) : Cell)]? = none
    · have hnone : s'[((.session, metaKey h) : Cell)]? = none := by
        by_contra hne
        obtain ⟨v, hv⟩ := Option.ne_none_iff_exists'.mp hne
        rw [hp.sub _ v hv] at hstored
        cases hstored
      rw [sessionView_none hnone, sessionView_none hstored]
    · obtain ⟨m, hm⟩ := hr.found hstored
      have hspared := hp.spared h (hr.own h _ hm) hs
      exact sessionView_congr (hspared _ (sessionPrefix_metaKey h))
        (hspared _ (sessionPrefix_archiveKey h))
        fun k hk => hspared k ((sessionPrefix_messagePrefix h).trans hk)

end

end Crabtalk.Store

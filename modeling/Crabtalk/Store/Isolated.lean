import Crabtalk.Store.Views

/-! # Sessions do not disturb one another

Which handles an operation on `h` leaves alone. Keys are joined with the
separator and read back by parts, so it depends on where the parts of `h`
repeat those of the other handle.
-/

open Basis

namespace Crabtalk.Store

variable {μ : Type}

/-! ## What a session is to its clients -/

def entriesOf (h : Str) (s : Kv μ) : Except Error (List (Str × SessionMeta)) :=
  (answer listSessions s).map fun l => l.filter fun x => x.1 = h

structure SameDoc (index : TextIndex) (key : Str) (s s' : Kv μ) : Prop where
  record : s'[((.text, docKey index key) : Cell)]? = s[((.text, docKey index key) : Cell)]?
  postings : ∀ term, '/' ∉ term →
    s'[((.text, postingKey index term key) : Cell)]? =
    s[((.text, postingKey index term key) : Cell)]?

structure Undisturbed (h : Str) (s s' : Kv μ) : Prop where
  load : answer (loadSession h) s' = answer (loadSession h) s
  listing : entriesOf h s' = entriesOf h s
  messages : ∀ i, SameDoc .messages (messageKey h i) s s'
  title : SameDoc .sessionMeta (titleKey h) s s'
  summary : SameDoc .sessionMeta (summaryKey h) s s'

/-- A hit on message `i`, the title or the summary of `h` counts for `h`, and for message `i`. -/
structure Attributed (h : Str) (i : Nat) : Prop where
  message : (parseMessageKey (messageKey h i)).map (fun hit => (hit.1, msgIdx hit.2)) = some (h, i)
  title : (metaBoost (titleKey h)).map (·.1) = some h
  summary : (metaBoost (summaryKey h)).map (·.1) = some h

theorem attributed_iff {h : Str} {i : Nat} : Attributed h i ↔ '/' ∉ h ∧ i < 2 ^ 32 := by
  constructor
  · intro ha
    have hm := ha.message
    rw [parseMessageKey_messageKey] at hm
    split at hm
    · simp only [Option.map_some, Option.some.injEq, Prod.mk.injEq, msgIdx] at hm
      exact ⟨lastPart_eq.mp hm.1, by omega⟩
    · cases hm
  · rintro ⟨hs, hi⟩
    have hl := lastPart_eq.mpr hs
    refine ⟨?_, by rw [metaBoost_titleKey, hl]; rfl, by rw [metaBoost_summaryKey, hl]; rfl⟩
    rw [parseMessageKey_messageKey, if_pos (by omega), hl]
    simp only [Option.map_some, msgIdx, Nat.mod_eq_of_lt hi]

/-! ## Handles whose keys stay apart -/

/-- No key an operation on `h` touches belongs to `g`: `h` is not below the
messages or the texts of `g`, and does not end like one of its index rows. -/
structure Apart [Chrono] (h g : Str) : Prop where
  slash : '/' ∉ g
  messages : ¬ [g, "msg".toList] <+: components h
  texts : components h ≠ [g, "meta".toList]
  rows : ∀ t, Chrono.IsTimestamp t → ¬ [t, g] <:+ components h

section
variable {h g k : Str}

/-- A key below both handles shows how the one lies inside the other. -/
theorem inside_of_prefix (hne : h ≠ g) (hg : '/' ∉ g) {tail : List Str} (hk : sessionPrefix h <+: k)
    (hc : components k = realm :: "session".toList :: (components g ++ tail)) :
    ∃ c rest, c ≠ [] ∧ rest ≠ [] ∧ components h = g :: c ∧ c ++ rest = tail := by
  obtain ⟨rest, hrest, hr⟩ := components_of_sessionPrefix hk
  rw [hc, components_of_notMem hg] at hr
  simp only [List.cons.injEq, true_and, List.singleton_append] at hr
  cases hh : components h with
  | nil => exact absurd hh (components_ne_nil h)
  | cons first c =>
    rw [hh] at hr
    simp only [List.cons_append, List.cons.injEq] at hr
    refine ⟨c, rest, ?_, hrest, by rw [hr.1], hr.2.symm⟩
    rintro rfl
    refine hne (components_inj ?_)
    rw [hh, components_of_notMem hg, hr.1]

theorem not_below_one (hne : h ≠ g) (hg : '/' ∉ g) {last : Str}
    (hc : components k = realm :: "session".toList :: (components g ++ [last])) :
    ¬ sessionPrefix h <+: k := by
  intro hk
  obtain ⟨c, rest, hcn, hrn, -, happ⟩ := inside_of_prefix hne hg hk hc
  cases c with
  | nil => exact hcn rfl
  | cons a c => cases rest with
    | nil => exact hrn rfl
    | cons b rest => simp at happ

variable [Chrono]

theorem Apart.not_below_message (ha : Apart h g) (hne : h ≠ g) (hk : messagePrefix g <+: k) :
    ¬ sessionPrefix h <+: k := by
  intro hp
  obtain ⟨tail, -, hc⟩ := components_of_messagePrefix hk
  obtain ⟨c, rest, hcn, -, hh, happ⟩ := inside_of_prefix hne ha.slash hp hc
  cases c with
  | nil => exact hcn rfl
  | cons a c =>
    simp only [List.cons_append, List.cons.injEq] at happ
    exact ha.messages ⟨c, by rw [hh, ← happ.1]; rfl⟩

theorem Apart.not_below_text (ha : Apart h g) (hne : h ≠ g) {last : Str}
    (hc : components k = realm :: "session".toList :: (components g ++ ["meta".toList, last])) :
    ¬ sessionPrefix h <+: k := by
  intro hp
  obtain ⟨c, rest, hcn, hrn, hh, happ⟩ := inside_of_prefix hne ha.slash hp hc
  rcases c with _ | ⟨a, _ | ⟨b, c⟩⟩
  · exact hcn rfl
  · simp only [List.cons_append, List.nil_append, List.cons.injEq] at happ
    exact ha.texts (by rw [hh, happ.1])
  · simp only [List.cons_append, List.cons.injEq, List.append_eq_nil_iff] at happ
    exact hrn happ.2.2.2

theorem Apart.row_ne (ha : Apart h g) (hne : h ≠ g) {m m' : SessionMeta}
    (ht : Chrono.IsTimestamp m.createdAt) :
    sessionIndexKey m g ≠ sessionIndexKey m' h := by
  intro he
  have hc := congrArg components he
  rw [components_sessionIndexKey, components_sessionIndexKey, components_of_notMem ha.slash,
    components_of_notMem (Chrono.slash_notMem _ ht)] at hc
  simp only [List.cons.injEq, true_and] at hc
  -- Both handles end the same list of components.
  have hs : components h <:+ components m.createdBy ++ [m.createdAt, g] := by
    have : components m.createdBy ++ [m.createdAt, g] = components m'.createdBy ++
        (components m'.createdAt ++ components h) := by
      simpa using hc.2
    rw [this, ← List.append_assoc]
    exact List.suffix_append _ _
  have hg₁ : [g] <:+ components m.createdBy ++ [m.createdAt, g] :=
    ⟨components m.createdBy ++ [m.createdAt], by simp⟩
  have hg₂ : [m.createdAt, g] <:+ components m.createdBy ++ [m.createdAt, g] :=
    List.suffix_append _ _
  rcases hh : components h with _ | ⟨a, _ | ⟨b, c⟩⟩
  · exact components_ne_nil h hh
  · rw [hh] at hs
    have : [g] <:+ [a] := List.suffix_of_suffix_length_le hg₁ hs (by simp)
    have : [g] = [a] := this.eq_of_length (by simp)
    refine hne (components_inj ?_)
    rw [hh, components_of_notMem ha.slash, this]
  · refine ha.rows _ ht (List.suffix_of_suffix_length_le hg₂ hs ?_)
    rw [hh]
    simp

/-! ## The frame -/

variable {s s' : Kv μ}

omit [Chrono] in
theorem notMem_session (hk : ¬ sessionPrefix h <+: k) (hs : ∀ m, k ≠ sessionIndexKey m h) :
    ¬ sessionCells h (.session, k) := by
  rintro ((⟨-, hp⟩ | ⟨index, key, -, hc⟩) | ⟨-, m, hm⟩)
  · exact hk hp
  · cases hc.1
  · exact hs m hm

omit [Chrono] in
theorem ne_row {tail : List Str} (hc : components k = realm :: "session".toList :: tail)
    (m : SessionMeta) :
    k ≠ sessionIndexKey m h := by
  intro he
  rw [he, components_sessionIndexKey] at hc
  simp at hc

omit [Chrono] in
/-- Documents filed below no key of `h` are not its own. -/
theorem SameDoc.of_changes (hf : Changes (sessionCells h) s s') {index : TextIndex}
    (hk : ¬ sessionPrefix h <+: k) :
    SameDoc index k s s' := by
  have hdoc : ∀ c : Str, (c = docKey index k ∨ ∃ term, '/' ∉ term ∧ c = postingKey index term k) →
      ¬ sessionCells h (.text, c) := by
    rintro c hc ((⟨hcol, -⟩ | ⟨i, key, hp, -, hcell⟩) | ⟨hcol, -⟩)
    · cases hcol
    · simp only at hcell
      rcases hc with rfl | ⟨term, ht, rfl⟩ <;> rcases hcell with he | ⟨term', ht', he⟩ | he
      · exact hk ((docKey_inj he).2 ▸ hp)
      · exact docKey_ne_postingKey he
      · exact docKey_ne_statsKey he
      · exact docKey_ne_postingKey he.symm
      · exact hk ((postingKey_inj ht ht' he).2.2 ▸ hp)
      · exact postingKey_ne_statsKey he
    · cases hcol
  exact ⟨hf _ (hdoc _ (.inl rfl)), fun term ht => hf _ (hdoc _ (.inr ⟨term, ht, rfl⟩))⟩

end

/-! ## The listing of one handle -/

section
variable {g : Str} {s s' : Kv μ}

/-- The listed entries of one handle are all alike, so sorting leaves them as they are. -/
theorem entriesOf_eq (hm : MetasTyped s) :
    entriesOf g s = .ok (listed s ((rowHandles none s).filter (· = g))) := by
  have hsame : ∀ x ∈ (listed s (rowHandles none s)).filter (fun x => x.1 = g),
      ∀ y ∈ (listed s (rowHandles none s)).filter (fun x => x.1 = g), x = y := by
    have hview : ∀ x ∈ (listed s (rowHandles none s)).filter (fun x => x.1 = g),
        x.1 = g ∧ s[((.session, metaKey g) : Cell)]?.bind Value.asMeta = some x.2 := by
      intro x hx
      obtain ⟨hx, hg⟩ := List.mem_filter.mp hx
      obtain ⟨a, -, ha⟩ := List.mem_filterMap.mp hx
      obtain ⟨m, hm, rfl⟩ := Option.map_eq_some_iff.mp ha
      have hg : a = g := of_decide_eq_true hg
      exact ⟨hg, by rw [← hg]; exact hm⟩
    intro x hx y hy
    obtain ⟨hx₁, hx₂⟩ := hview x hx
    obtain ⟨hy₁, hy₂⟩ := hview y hy
    exact Prod.ext (hx₁.trans hy₁.symm) (Option.some.inj (hx₂.symm.trans hy₂))
  have hperm : ((listed s (rowHandles none s)).insertionSort fun a b => recency a b ≠ .gt).filter
      (fun x => x.1 = g) =
      (listed s (rowHandles none s)).filter fun x => x.1 = g := by
    have hp := (List.perm_insertionSort (fun a b => recency a b ≠ .gt)
        (listed s (rowHandles none s))).filter fun x => x.1 = g
    have hall : ∀ l : List (Str × SessionMeta), l.Pairwise fun _ _ => True :=
      fun l => List.pairwise_of_forall fun _ _ => trivial
    exact hp.eq_of_pairwise (fun a b ha hb _ _ => hsame a (hp.mem_iff.mp ha) b hb) (hall _) (hall _)
  rw [entriesOf, (reads_listSessions hm).answer]
  refine congrArg Except.ok (hperm.trans ?_)
  rw [listed, List.filter_filterMap, listed, List.filterMap_filter]
  refine List.filterMap_congr fun a _ => ?_
  by_cases ha : a = g
  · subst ha
    cases s[((.session, metaKey a) : Cell)]?.bind Value.asMeta <;> simp
  · cases s[((.session, metaKey a) : Cell)]?.bind Value.asMeta <;> simp [ha]

theorem rowHandles_filter (s : Kv μ) : (rowHandles none s).filter (· = g) =
    ((s.under .session (indexPrefix none)).filter fun e => e.2.asRaw = some g).filterMap fun e =>
    e.2.asRaw := by
  rw [rowHandles, List.filter_filterMap, List.filterMap_filter]
  refine List.filterMap_congr fun e _ => ?_
  cases e.2.asRaw with
  | none => simp
  | some a => by_cases ha : a = g <;> simp [ha]

/-- The rows that name a handle decide, with its meta record, how it is listed. -/
theorem entriesOf_congr (hm : MetasTyped s) (hm' : MetasTyped s')
    (hmeta : s'[((.session, metaKey g) : Cell)]? = s[((.session, metaKey g) : Cell)]?)
    (hrows : ∀ k, indexPrefix none <+: k →
      (s[((.session, k) : Cell)]? = some (.raw g) ↔ s'[((.session, k) : Cell)]? = some (.raw g))) :
    entriesOf g s' = entriesOf g s := by
  have hraw : ∀ v : Value μ, v.asRaw = some g ↔ v = .raw g := by
    intro v
    cases v <;> simp [Value.asRaw]
  have hfilter : (s'.under .session (indexPrefix none)).filter (fun e => e.2.asRaw = some g) =
      (s.under .session (indexPrefix none)).filter fun e => e.2.asRaw = some g := by
    refine sorted_ext ((ColMap.sorted_under s' .session _).filter _)
      ((ColMap.sorted_under s .session _).filter _) ?_
    rintro ⟨⟨col, k⟩, v⟩
    simp only [List.mem_filter, ColMap.mem_under, decide_eq_true_eq, hraw]
    constructor
    · rintro ⟨⟨hv, rfl, hk⟩, rfl⟩
      exact ⟨⟨(hrows k hk).mpr hv, rfl, hk⟩, rfl⟩
    · rintro ⟨⟨hv, rfl, hk⟩, rfl⟩
      exact ⟨⟨(hrows k hk).mp hv, rfl, hk⟩, rfl⟩
  rw [entriesOf_eq hm, entriesOf_eq hm', rowHandles_filter, rowHandles_filter, hfilter]
  refine congrArg Except.ok (List.filterMap_congr fun a ha => ?_)
  rw [← rowHandles_filter] at ha
  have ha : a = g := of_decide_eq_true (List.mem_filter.mp ha).2
  rw [ha, hmeta]

end

/-! ## No operation on the one disturbs the other -/

theorem Kept.undisturbed [Chrono] {h g : Str} {s s' : Kv μ} (ha : Apart h g) (hne : h ≠ g)
    (ht : Typed s) (hk : Kept h s s') :
    Undisturbed g s s' := by
  have hmeta : s'[((.session, metaKey g) : Cell)]? = s[((.session, metaKey g) : Cell)]? :=
    hk.frame _ (notMem_session (not_below_one hne ha.slash (components_metaKey g))
      (ne_row (components_metaKey g)))
  have harch : s'[((.session, archiveKey g) : Cell)]? = s[((.session, archiveKey g) : Cell)]? :=
    hk.frame _ (notMem_session (not_below_one hne ha.slash (components_archiveKey g))
      (ne_row (components_archiveKey g)))
  have hmsg : ∀ k, messagePrefix g <+: k → s'[((.session, k) : Cell)]? =
      s[((.session, k) : Cell)]? := fun k hp =>
    hk.frame _ (notMem_session (ha.not_below_message hne hp)
      (ne_row (components_of_messagePrefix hp).choose_spec.2))
  refine ⟨?_, ?_, fun i => ?_, ?_, ?_⟩
  · rw [reads_loadSession.answer, reads_loadSession.answer, sessionView_congr hmeta harch hmsg]
  · have hrow : ∀ (r : Kv μ), RowsTyped r → ∀ k, indexPrefix none <+: k →
        r[((.session, k) : Cell)]? = some (.raw g) →
        ¬ sessionCells h (.session, k) := by
      intro r hr k hp hv
      obtain ⟨m, a, rfl, hraw, hts⟩ := hr k _ hv hp
      cases hraw
      exact notMem_session (fun hs => indexPrefix_not_session hs hp) fun m' => ha.row_ne hne hts
    refine entriesOf_congr ht.metas hk.metas hmeta fun k hp => ⟨fun hv => ?_, fun hv => ?_⟩
    · rw [hk.frame _ (hrow s ht.rows k hp hv), hv]
    · rw [← hk.frame _ (hrow s' hk.rows k hp hv), hv]
  · exact .of_changes hk.frame (ha.not_below_message hne (messagePrefix_messageKey g i))
  · exact .of_changes hk.frame (ha.not_below_text hne (components_titleKey g))
  · exact .of_changes hk.frame (ha.not_below_text hne (components_summaryKey g))

section
variable (μ) [TextStd] [Wire μ] [Chrono]

/-- Whatever an operation on `h` does in a reachable store, also cut short, `g` does not see it. -/
def Isolated (h g : Str) : Prop :=
  ∀ (s s' : Kv μ) (op : SessionOp μ) (r : Except Error Unit), Reached s → op.Timed →
    Prog.Runs True memory (op.exec h) s r s' → Undisturbed g s s'

variable {μ}

theorem Apart.isolated {h g : Str} (ha : Apart h g) (hne : h ≠ g) : Isolated μ h g := by
  intro s s' op r hs hop hr
  have hk := (keeps_exec (F := True) (g := h) hop hs.typed.kept).runs hr
  cases r with
  | ok _ => exact hk.undisturbed ha hne hs.typed
  | error _ => exact hk.undisturbed ha hne hs.typed

end

end Crabtalk.Store

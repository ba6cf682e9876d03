import Crabtalk.Backend.Lodged
import Crabtalk.Backend.Memory
import Crabtalk.Store.Purge

/-!
# The sessions of a keyspace

The keyspace finds its sessions by an index of rows beside the records, where
the directory has nothing but its entries. What either answers is the same.
-/

open Basis Std

namespace Crabtalk.Backend

open Store

section
variable {μ : Type} [TextStd] [Wire μ]

def SessionRequest.keyed : SessionRequest μ → KvM μ (SessionAnswer μ)
  | .act handle op => do
    op.exec handle
    return .done
  | .loadSession handle => do
    let snapshot ← Store.loadSession handle
    return .loaded snapshot
  | .listSessions => do
    let sessions ← Store.listSessions
    return .listed sessions
  | .deleteSession handle => do
    let was ← Store.deleteSession handle
    return .deleted was
  | .deleteSessionsOf agent => do
    let sessions ← Store.deleteSessionsOf agent
    return .purged sessions

end

section
variable {μ : Type} {m : Chats μ} {g h : Str} {x : Option (SessionSnapshot μ)}
  {c c' : SessionSnapshot μ} {k k' : Kv μ}

/-! ## One session -/

structure Seats (h : Str) (x : Option (SessionSnapshot μ)) (k : Kv μ) : Prop where
  record : k[((.session, metaKey h) : Cell)]? = x.map fun c => .sessionMeta c.sessionMeta
  archive : k[((.session, archiveKey h) : Cell)]? = (x.bind (·.archive)).map .text
  laid : Laid h (x.elim [] (·.history)) k

theorem Seats.congr (hs : Seats h x k)
    (hk : ∀ key, sessionPrefix h <+: key → k'[((.session, key) : Cell)]? =
    k[((.session, key) : Cell)]?) : Seats h x k' :=
  ⟨by rw [hk _ (sessionPrefix_metaKey h), hs.record],
    by rw [hk _ (sessionPrefix_archiveKey h), hs.archive],
    hs.laid.congr fun key hkey => hk key ((sessionPrefix_messagePrefix h).trans hkey)⟩

theorem Seats.putMeta (hs : Seats h x k) (hhistory : c.history = x.elim [] (·.history))
    (harchive : c.archive = x.bind (·.archive)) :
    Seats h (some c) (k.insert (.session, metaKey h) (.sessionMeta c.sessionMeta)) := by
  refine ⟨by rw [find_insert, if_pos rfl, Option.map_some], ?_, ?_⟩
  · rw [find_insert, if_neg fun he => archiveKey_ne_metaKey h h (congrArg Prod.snd he).symm,
      hs.archive, ← harchive]
    rfl
  · rw [Option.elim_some, hhistory]
    refine hs.laid.congr fun key hkey => ?_
    rw [find_insert, if_neg]
    rintro he
    cases he
    exact messagePrefix_not_metaKey hkey

theorem Seats.putArchive (hs : Seats h (some c) k) (archive : Str) :
    Seats h (some { c with archive := some archive })
    (k.insert (.session, archiveKey h) (.text archive)) := by
  refine ⟨?_, by rw [find_insert, if_pos rfl]; rfl, ?_⟩
  · rw [find_insert, if_neg fun he => archiveKey_ne_metaKey h h (congrArg Prod.snd he), hs.record]
    rfl
  · refine hs.laid.congr fun key hkey => ?_
    rw [find_insert, if_neg]
    rintro he
    cases he
    exact messagePrefix_not_archiveKey hkey

theorem Seats.meta {F : Prop} {Q : Option SessionMeta → Kv μ → Prop} {E : Error → Kv μ → Prop}
    (hs : Seats h x k)
    (hQ : Q (x.map (·.sessionMeta)) k) (hE : F → ∀ e, E e k) :
    Prog.wp F memory (Store.sessionMeta h) Q E k := by
  rw [Store.sessionMeta, wp_getJson, hs.record]
  refine ⟨?_, hE⟩
  cases x with
  | none => exact hQ
  | some c => exact hQ

theorem Seats.truncate (hs : Seats h x k) (ht : TextTyped k)
    (hsmall : ∀ c, x = some c → c.history.length ≤ 10 ^ 12) (keep : Nat) :
    Prog.wp False memory (Store.truncateSessionMessages h keep)
    (fun _ => Seats h (x.map fun c => edited c (.truncate keep))) (fun _ _ => False) k := by
  rw [Store.truncateSessionMessages, Prog.wp_bind]
  refine hs.meta ?_ False.elim
  cases x with
  | none => exact hs
  | some c =>
    simp only [Option.map_some]
    have hscan := hs.laid.scan (hsmall c rfl)
    rw [Option.elim_some] at hscan
    rw [Prog.wp_bind, wp_scanKeys, hscan]
    refine ⟨?_, False.elim⟩
    rw [Prog.wp_bind]
    refine (wp_dropKeys _ k ht).mono (fun _ k₁ hdropped => ?_) fun _ _ he => he
    obtain ⟨-, h₁⟩ := hdropped
    have hother : ∀ key, ¬ messagePrefix h <+: key → k₁[((.session, key) : Cell)]? =
        k[((.session, key) : Cell)]? := by
      intro key hkey
      rw [h₁, if_neg]
      intro hmem
      obtain ⟨i, -, rfl⟩ := List.mem_map.mp (List.mem_of_mem_drop hmem)
      exact hkey (messagePrefix_messageKey h i)
    have htaken : Seats h (some { c with history := c.history.take keep }) k₁ :=
      ⟨by rw [hother _ messagePrefix_not_metaKey, hs.record]; rfl,
        by rw [hother _ messagePrefix_not_archiveKey, hs.archive]; rfl, hs.laid.take keep h₁⟩
    rw [wp_put, List.length_map, List.length_range]
    exact ⟨htaken.putMeta (c := edited c (.truncate keep)) rfl rfl, False.elim⟩

variable [TextStd]

theorem Seats.update (hs : Seats h (some c) k) (ht : TextTyped k) (m' : SessionMeta) :
    Prog.wp False memory (Store.updateSessionMeta h m')
    (fun _ => Seats h (some (edited c (.update m')))) (fun _ _ => False) k := by
  rw [Store.updateSessionMeta, Prog.wp_bind]
  refine hs.meta ?_ False.elim
  simp only [Option.map_some]
  rw [Prog.wp_bind, wp_put]
  refine ⟨?_, False.elim⟩
  have hput := hs.putMeta (c := edited c (.update m')) rfl rfl
  have ht' : TextTyped (k.insert (.session, metaKey h)
      (.sessionMeta { m' with messageCount := c.sessionMeta.messageCount })) :=
    ht.changes (Changes.insert (P := fun c => c.1 = .session) rfl _) fun c hc => by rw [hc]; decide
  exact (wp_indexMetaText ht' h _).mono (fun _ _ h₁ => hput.congr fun key _ => h₁.2 _ (by simp))
    fun _ _ he => he.1

theorem Seats.append [Wire μ] (hs : Seats h (some c) k) (ht : TextTyped k)
    (hcount : c.sessionMeta.messageCount = c.history.length)
    (entries : List (HistoryEntry μ)) (now : Str) :
    Prog.wp False memory (Store.appendSessionMessages h entries now)
    (fun _ => Seats h (some (edited c (.append entries now)))) (fun _ _ => False) k := by
  rw [Store.appendSessionMessages, edited]
  by_cases he : entries.isEmpty = true
  · rw [if_pos he, if_pos he]
    exact hs
  · rw [if_neg he, if_neg he, Prog.wp_bind]
    refine hs.meta ?_ False.elim
    simp only [Option.map_some]
    rw [Prog.wp_bind]
    refine (wp_appendEntries entries c.sessionMeta.messageCount k ht).mono (fun _ k₁ happend => ?_)
      fun _ _ he => he.1
    obtain ⟨h₁, hes⟩ := happend
    rw [hcount] at h₁ hes
    have hother : ∀ key, ¬ messagePrefix h <+: key → k₁[((.session, key) : Cell)]? =
        k[((.session, key) : Cell)]? := by
      intro key hkey
      refine h₁.2 _ ?_
      rintro (hc | ⟨j, -, hj⟩)
      · cases hc
      · rw [show key = messageKey h (c.history.length + j) from congrArg Prod.snd hj] at hkey
        exact hkey (messagePrefix_messageKey h _)
    have hgrown : Seats h (some { c with history := c.history ++ entries.map HistoryEntry.persist }) k₁ :=
      ⟨by rw [hother _ messagePrefix_not_metaKey, hs.record]; rfl,
        by rw [hother _ messagePrefix_not_archiveKey, hs.archive]; rfl,
        hs.laid.append h₁.2 fun j hj => hes j hj hj⟩
    rw [wp_put]
    exact ⟨hgrown.putMeta (c := { c with
        sessionMeta :=
          { c.sessionMeta with messageCount := c.sessionMeta.messageCount + entries.length, updatedAt := now }
        history := c.history ++ entries.map HistoryEntry.persist }) rfl rfl, False.elim⟩

omit [TextStd] in
theorem wp_putEvents (events : List EventLine) (idx : Nat) :
    Prog.wp False memory (appendEvents h idx events)
      (fun _ k' => Changes (fun cell => ∃ i, cell = (.session, eventKey h i)) k k' ∧
        ((events ≠ [] ∨ ∃ i, k[((.session, eventKey h i) : Cell)]? ≠ none) →
          ∃ i, k'[((.session, eventKey h i) : Cell)]? ≠ none))
      (fun _ _ => False) k := by
  induction events generalizing idx k with
  | nil => exact ⟨.refl, fun he => he.resolve_left fun hne => hne rfl⟩
  | cons event events ih =>
    rw [appendEvents, Prog.wp_bind, wp_put]
    refine ⟨?_, False.elim⟩
    refine (ih (idx + 1)).mono (fun _ k' h₁ => ⟨(Changes.insert ⟨idx, rfl⟩ _).trans h₁.1,
      fun _ => h₁.2 (.inr ⟨idx, ?_⟩)⟩) fun _ _ he => he
    rw [find_insert, if_pos rfl]
    exact Option.some_ne_none _

omit [TextStd] in
theorem Seats.events (hs : Seats h x k)
    (hc : Changes (fun cell => ∃ i, cell = (.session, eventKey h i)) k k') : Seats h x k' := by
  have hother : ∀ key, (∀ i, key ≠ eventKey h i) → k'[((.session, key) : Cell)]? =
      k[((.session, key) : Cell)]? := by
    intro key hkey
    refine hc _ ?_
    rintro ⟨i, hi⟩
    exact hkey i (congrArg Prod.snd hi)
  refine ⟨?_, ?_, hs.laid.congr fun key hkey => hother key fun i hi =>
    messagePrefix_not_eventKey i (hi ▸ hkey)⟩
  · rw [hother _ fun i hi => eventKey_ne_metaKey h h i hi.symm, hs.record]
  · rw [hother _ fun i hi => eventKey_ne_archiveKey h h i hi.symm, hs.archive]

end

/-! ## All of them -/

section
variable {μ : Type} [Chrono] {m : Chats μ} {g h : Str} {x : Option (SessionSnapshot μ)}
  {c : SessionSnapshot μ} {k k' : Kv μ}

structure Registered (m : Chats μ) (k : Kv μ) : Prop where
  typed : Typed k
  seats : ∀ h, '/' ∉ h → Seats h (held m h) k
  there : ∀ h, '/' ∉ h → (m[h]?.isSome = true ↔ ∃ key, sessionPrefix h <+: key ∧
    k[((.session, key) : Cell)]? ≠ none)
  rows : ∀ key h, indexPrefix none <+: key →
    (k[((.session, key) : Cell)]? = some (.raw h) ↔ ∃ c, held m h = some c ∧
      key = sessionIndexKey c.sessionMeta h)

theorem Registered.empty : Registered (∅ : Chats μ) (∅ : Kv μ) := by
  refine ⟨.empty, fun h _ => ?_, fun h _ => by simp, fun key h _ => by simp [held]⟩
  have hnone : held (∅ : Chats μ) h = none := by simp [held]
  rw [hnone]
  exact ⟨by simp, by simp, rfl, fun i => by simp, fun key v hv => by simp at hv⟩

theorem family_flat : Family fun h => '/' ∉ h := by
  intro g h hg hh hne
  refine ⟨fun hp => ?_, fun t _ hp => ?_⟩
  · rw [components_of_notMem hg, components_of_notMem hh] at hp
    exact hne (by simpa [List.prefix_cons_iff] using hp)
  · rw [components_of_notMem hg, components_of_notMem hh] at hp
    have := hp.length_le
    simp at this

/-- Work on one session that leaves the rows alone. -/
theorem Registered.redo (hr : Registered m k) (hg : '/' ∉ g) (hk : Store.Kept g k k')
    (hseats : Seats g x k')
    (hthere : ∃ key, sessionPrefix g <+: key ∧ k'[((.session, key) : Cell)]? ≠ none)
    (hrows : ∀ key, indexPrefix none <+: key → k'[((.session, key) : Cell)]? =
      k[((.session, key) : Cell)]?)
    (hkeys : (held m g).map (fun c => sessionIndexKey c.sessionMeta g) = x.map fun c =>
      sessionIndexKey c.sessionMeta g) : Registered (m.insert g x) k' := by
  have hother : ∀ h, '/' ∉ h → g ≠ h → ∀ key, sessionPrefix h <+: key →
      k'[((.session, key) : Cell)]? = k[((.session, key) : Cell)]? :=
    fun h hh hne key hkey => hk.frame _ (sessionCells_apart hg hh hne hkey)
  refine ⟨hk.typed, fun h hh => ?_, fun h hh => ?_, fun key h hkey => ?_⟩
  · rw [held_insert]
    by_cases hgh : g = h
    · rw [if_pos hgh, ← hgh]
      exact hseats
    · rw [if_neg hgh]
      exact (hr.seats h hh).congr (hother h hh hgh)
  · rw [find_insert]
    by_cases hgh : g = h
    · rw [if_pos hgh, ← hgh]
      exact ⟨fun _ => hthere, fun _ => rfl⟩
    · rw [if_neg hgh, hr.there h hh]
      exact exists_congr fun key => and_congr_right fun hkey => by rw [hother h hh hgh key hkey]
  · rw [hrows key hkey, hr.rows key h hkey, held_insert]
    by_cases hgh : g = h
    · subst hgh
      rw [if_pos rfl]
      have hsome : ∀ y : Option (SessionSnapshot μ),
          (∃ c, y = some c ∧ key = sessionIndexKey c.sessionMeta g) ↔
          y.map (fun c => sessionIndexKey c.sessionMeta g) = some key := fun y => by
        rw [Option.map_eq_some_iff]
        exact exists_congr fun c => and_congr_right fun _ => eq_comm
      rw [hsome, hsome, hkeys]
    · rw [if_neg hgh]

theorem Registered.create [FileStd μ] (hr : Registered m k) (ho : Orderly m) (hg : '/' ∉ g)
    (hnone : held m g = none) (hc : c.history = []) (ha : c.archive = none)
    (ht : Chrono.IsTimestamp c.sessionMeta.createdAt) :
    Registered (m.insert g (some c))
    ((k.insert (.session, metaKey g) (.sessionMeta c.sessionMeta)).insert
      (.session, sessionIndexKey c.sessionMeta g) (.raw g)) := by
  have hk : Store.Kept g k ((k.insert (.session, metaKey g) (.sessionMeta c.sessionMeta)).insert
      (.session, sessionIndexKey c.sessionMeta g) (.raw g)) :=
    (hr.typed.kept.putMeta c.sessionMeta).putRow ht
  have hrow : ∀ h key, '/' ∉ h → sessionPrefix h <+: key →
      (key : Str) ≠ sessionIndexKey c.sessionMeta g := fun h key _ hkey he =>
    indexPrefix_not_session hkey (he ▸ indexPrefix_isPrefix c.sessionMeta g)
  have hother : ∀ h, '/' ∉ h → g ≠ h → ∀ key, sessionPrefix h <+: key →
      ((k.insert (.session, metaKey g) (.sessionMeta c.sessionMeta)).insert
        (.session, sessionIndexKey c.sessionMeta g) (.raw g))[((.session, key) : Cell)]? =
        k[((.session, key) : Cell)]? := fun h hh hne key hkey =>
        hk.frame _ (sessionCells_apart hg hh hne hkey)
  have hseats : Seats g (some c)
      ((k.insert (.session, metaKey g) (.sessionMeta c.sessionMeta)).insert
      (.session, sessionIndexKey c.sessionMeta g) (.raw g)) := by
    have hput := (hr.seats g hg).putMeta (c := c) (by rw [hnone, hc]; rfl) (by rw [hnone, ha]; rfl)
    refine hput.congr fun key hkey => ?_
    rw [find_insert, if_neg fun he => hrow g key hg hkey (congrArg Prod.snd he).symm]
  refine ⟨hk.typed, fun h hh => ?_, fun h hh => ?_, fun key h hkey => ?_⟩
  · rw [held_insert]
    by_cases hgh : g = h
    · rw [if_pos hgh, ← hgh]
      exact hseats
    · rw [if_neg hgh]
      exact (hr.seats h hh).congr (hother h hh hgh)
  · rw [find_insert]
    by_cases hgh : g = h
    · rw [if_pos hgh, ← hgh]
      refine ⟨fun _ => ⟨metaKey g, sessionPrefix_metaKey g, ?_⟩, fun _ => rfl⟩
      rw [hseats.record]
      exact Option.some_ne_none _
    · rw [if_neg hgh, hr.there h hh]
      exact exists_congr fun key => and_congr_right fun hkey => by rw [hother h hh hgh key hkey]
  · have hcell : ((k.insert (.session, metaKey g) (.sessionMeta c.sessionMeta)).insert
        (.session, sessionIndexKey c.sessionMeta g)
        (.raw g))[((.session, key) : Cell)]? = if sessionIndexKey c.sessionMeta g = key
          then some (.raw g) else k[((.session, key) : Cell)]? := by
      rw [find_insert, find_insert,
        if_neg (show ¬ ((.session, metaKey g) : Cell) = (.session, key) from fun he =>
        indexPrefix_not_session (sessionPrefix_metaKey g)
          ((show metaKey g = key from congrArg Prod.snd he) ▸ hkey))]
      by_cases he : sessionIndexKey c.sessionMeta g = key
      · rw [if_pos (by rw [he]), if_pos he]
      · rw [if_neg fun hp => he (congrArg Prod.snd hp), if_neg he]
    rw [hcell, held_insert]
    -- the new row is the session's own, for its record is new too
    by_cases hgh : g = h
    · subst hgh
      rw [if_pos rfl]
      by_cases he : sessionIndexKey c.sessionMeta g = key
      · rw [if_pos he]
        exact ⟨fun _ => ⟨c, rfl, he.symm⟩, fun _ => rfl⟩
      · rw [if_neg he, hr.rows key g hkey, hnone]
        constructor
        · rintro ⟨c', hc', -⟩
          cases hc'
        · rintro ⟨c', hc', he'⟩
          cases hc'
          exact absurd he'.symm he
    · rw [if_neg hgh, ← hr.rows key h hkey]
      by_cases he : sessionIndexKey c.sessionMeta g = key
      · -- a row of another session is not the one that is written
        rw [if_pos he]
        refine ⟨fun hraw => absurd (by injection Option.some.inj hraw) hgh, fun hraw => ?_⟩
        obtain ⟨c', hc', he'⟩ := (hr.rows key h hkey).mp hraw
        exact absurd (family_flat.row_inj hg (ho.usable h _ (find_of_held hc')).1 ht
          (ho.sound h c' hc').timed (he.trans he')) hgh
      · rw [if_neg he]

theorem Registered.erase [FileStd μ] (hr : Registered m k) (ho : Orderly m) (hg : '/' ∉ g)
    (hd : Deleted g k k') (hk : Store.Kept g k k') : Registered (m.erase g) k' := by
  have hother : ∀ h, '/' ∉ h → g ≠ h → ∀ key, sessionPrefix h <+: key →
      k'[((.session, key) : Cell)]? = k[((.session, key) : Cell)]? :=
    fun h hh hne key hkey => hk.frame _ (sessionCells_apart hg hh hne hkey)
  refine ⟨hk.typed, fun h hh => ?_, fun h hh => ?_, fun key h hkey => ?_⟩
  · rw [held_erase]
    by_cases hgh : g = h
    · subst hgh
      rw [if_pos rfl]
      refine ⟨hd.keys _ (sessionPrefix_metaKey g), hd.keys _ (sessionPrefix_archiveKey g), rfl,
        fun i => hd.keys _ (sessionPrefix_messageKey g i), fun key v hv hkey => ?_⟩
      rw [hd.keys key ((sessionPrefix_messagePrefix g).trans hkey)] at hv
      cases hv
    · rw [if_neg hgh]
      exact (hr.seats h hh).congr (hother h hh hgh)
  · rw [find_erase]
    by_cases hgh : g = h
    · subst hgh
      rw [if_pos rfl]
      refine ⟨fun he => absurd he (by simp), ?_⟩
      rintro ⟨key, hkey, hne⟩
      exact absurd (hd.keys key hkey) hne
    · rw [if_neg hgh, hr.there h hh]
      exact exists_congr fun key => and_congr_right fun hkey => by rw [hother h hh hgh key hkey]
  · rw [held_erase]
    -- the one row that is erased is the row of the record
    have hstored : ∀ c, held m g = some c → StoredRow g k (sessionIndexKey c.sessionMeta g) := fun c hc =>
      ⟨c.sessionMeta, by rw [(hr.seats g hg).record, hc]; rfl, rfl⟩
    by_cases hgh : g = h
    · subst hgh
      rw [if_pos rfl]
      constructor
      · intro hraw
        obtain ⟨c, hc, rfl⟩ := (hr.rows key g hkey).mp (hd.sub hraw)
        rw [hd.row _ (hstored c hc)] at hraw
        cases hraw
      · rintro ⟨c, hc, -⟩
        cases hc
    · rw [if_neg hgh, ← hr.rows key h hkey]
      refine ⟨fun hraw => hd.sub hraw, fun hraw => ?_⟩
      obtain ⟨c, hc, rfl⟩ := (hr.rows key h hkey).mp hraw
      rw [hd.rest _ (fun hp => indexPrefix_not_session hp hkey), hraw]
      rintro ⟨d, hmeta, he⟩
      rw [(hr.seats g hg).record, Option.map_eq_some_iff] at hmeta
      obtain ⟨c', hc', he'⟩ := hmeta
      obtain rfl : c'.sessionMeta = d := by injection he'
      exact hgh (family_flat.row_inj hg (ho.usable h _ (find_of_held hc)).1
        (ho.sound g c' hc').timed (ho.sound h c hc).timed he.symm)

/-! ## Acting on a session -/

theorem Registered.edit {α : Type} {p : KvM μ α} (hr : Registered m k) (hg : '/' ∉ g)
    (hc : held m g = some c)
    (hp : Prog.wp False memory p (fun _ => Seats g (some c')) (fun _ _ => False) k)
    (hk : Store.Keeps False g k p k)
    (hmod : Prog.wp False memory p (fun _ => Store.Modest g (fun _ => True) k)
      (fun _ => Store.Modest g (fun _ => True) k) k)
    (hkey : sessionIndexKey c'.sessionMeta g = sessionIndexKey c.sessionMeta g) :
    Prog.wp False memory p (fun _ => Registered (m.insert g (some c'))) (fun _ _ => False) k := by
  refine ((hp.and hk).and hmod).mono (fun _ k' h => ?_) fun _ _ he => he.1.1
  obtain ⟨⟨hseats, hkept⟩, hm⟩ := h
  refine hr.redo hg hkept hseats ⟨metaKey g, sessionPrefix_metaKey g, ?_⟩ hm.rows ?_
  · rw [hseats.record]
    exact Option.some_ne_none _
  · rw [hc, Option.map_some, Option.map_some, hkey]

theorem Registered.act [FileStd μ] [TextStd] [Wire μ] (hr : Registered m k) (ho : Orderly m)
    (hg : '/' ∉ g) {op : SessionOp μ} (hf : Fitting (held m g) op) :
    Prog.wp False memory (op.exec g) (fun _ k' => opAnswer m g op = .ok .done ∧
      Registered (opChange m g op) k')
      (fun e k' => opAnswer m g op = .error e ∧ Registered (opChange m g op) k') k := by
  have ht := hr.typed
  have hs := hr.seats g hg
  have hsmall : ∀ c, held m g = some c → c.history.length ≤ 10 ^ 12 :=
    fun c hc => (ho.sound g c hc).small
  cases op with
  | create agent createdBy root now =>
    obtain ⟨hnone, hnow⟩ := hf
    refine Prog.wp_bind.mpr (wp_put.mpr ⟨wp_put.mpr ⟨⟨rfl, ?_⟩, False.elim⟩, False.elim⟩)
    exact hr.create ho hg hnone (c := ⟨⟨agent, createdBy, now, [], now, 0, none, root⟩, [], none⟩)
      rfl rfl hnow
  | append entries now =>
    rw [show opChange m g (.append entries now) = (held m g).elim m fun c =>
      m.insert g (some (edited c (.append entries now))) from rfl, opAnswer]
    cases hc : held m g with
    | none =>
      -- without a record only an append of nothing goes through
      show Prog.wp False memory (Store.appendSessionMessages g entries now) _ _ k
      rw [Store.appendSessionMessages]
      cases he : entries.isEmpty with
      | true =>
        rw [if_pos rfl, Bool.true_or, if_pos rfl]
        exact ⟨rfl, hr⟩
      | false =>
        rw [if_neg Bool.false_ne_true]
        refine Prog.wp_bind.mpr (hs.meta ?_ False.elim)
        rw [hc]
        exact ⟨rfl, hr⟩
    | some c =>
      rw [hc] at hs
      rw [Option.isSome_some, Bool.or_true, if_pos rfl]
      refine Prog.wp.mono (fun _ k' h₁ => ⟨rfl, h₁⟩) (fun _ _ he => False.elim he)
        (hr.edit hg hc (hs.append ht.text (ho.sound g c hc).counted entries now)
        (keeps_append ht.kept entries now)
          (modest_append ht.metas (fun _ _ _ _ => trivial) entries now) ?_)
      rw [edited]
      by_cases he : entries.isEmpty = true
      · rw [if_pos he]
      · rw [if_neg he]
        rfl
  | events lines =>
    rw [show opChange m g (.events lines) = if lines.isEmpty then m
      else m.insert g (held m g) from rfl]
    show Prog.wp False memory (Store.appendSessionEvents g lines) _ _ k
    -- lines of events are the only cells written, and there is one of them afterwards
    have hkept : Store.Keeps False g k (Store.appendSessionEvents g lines) k :=
      (keeps_scanKeys ht.kept .session _).bind fun keys k₁ h₁ => keeps_appendEvents lines _ k₁ h₁
    have hmod := (works_appendSessionEvents (g := g) lines).modest (F := False) (Q := fun _ => True)
        (Store.Modest.refl (s := k))
    have hput : Prog.wp False memory (Store.appendSessionEvents g lines)
        (fun _ k' => Changes (fun cell => ∃ i, cell = (.session, eventKey g i)) k k' ∧
          ((lines ≠ [] ∨ ∃ i, k[((.session, eventKey g i) : Cell)]? ≠ none) →
            ∃ i, k'[((.session, eventKey g i) : Cell)]? ≠ none)) (fun _ _ => False) k :=
      Prog.wp_bind.mpr (wp_scanKeys.mpr ⟨wp_putEvents lines _, False.elim⟩)
    cases he : lines.isEmpty with
    | true =>
      obtain rfl := List.isEmpty_iff.mp he
      exact Prog.wp_bind.mpr (wp_scanKeys.mpr ⟨⟨rfl, hr⟩, False.elim⟩)
    | false =>
      rw [if_neg Bool.false_ne_true]
      refine ((hput.and hkept).and hmod).mono (fun _ k' h₁ => ⟨rfl, ?_⟩) fun _ _ he => he.1.1.elim
      obtain ⟨⟨⟨hc, hsome⟩, hk⟩, hm⟩ := h₁
      obtain ⟨i, hi⟩ := hsome (.inl fun hnil => by rw [hnil] at he; cases he)
      exact hr.redo hg hk (hs.events hc) ⟨_, sessionPrefix_eventKey g i, hi⟩ hm.rows rfl
  | compact archive =>
    obtain ⟨c, hc⟩ := Option.ne_none_iff_exists'.mp hf.1
    rw [hc] at hs
    rw [show opChange m g (.compact archive) = (held m g).elim m fun c =>
      m.insert g (some (edited c (.compact archive))) from rfl, hc]
    have hseats : Prog.wp False memory (Store.appendSessionCompact g archive)
        (fun _ => Seats g (some (edited c (.compact archive)))) (fun _ _ => False) k := by
      -- the messages go first, then the archive is put
      rw [Store.appendSessionCompact, Prog.wp_bind]
      refine (hs.truncate ht.text (fun c' he => hsmall c' (by rw [hc, he])) 0).mono
        (fun _ k₁ h₁ => ?_) fun _ _ he => he
      rw [wp_put]
      have hput := h₁.putArchive archive
      rw [show ({ edited c (.truncate 0) with archive := some archive } : SessionSnapshot μ) =
        edited c (.compact archive) by simp [edited]] at hput
      exact ⟨hput, False.elim⟩
    have hkeeps : Store.Keeps False g k (SessionOp.exec g (.compact archive)) k :=
      keeps_exec trivial ht.kept
    exact Prog.wp.mono (fun _ k' h₁ => ⟨rfl, h₁⟩) (fun _ _ he => False.elim he)
      (hr.edit hg hc hseats hkeeps (modest_compact ht.metas (fun _ _ _ _ => trivial) archive) rfl)
  | truncate keep =>
    rw [show opChange m g (.truncate keep) = (held m g).elim m fun c =>
      m.insert g (some (edited c (.truncate keep))) from rfl]
    show Prog.wp False memory (Store.truncateSessionMessages g keep) _ _ k
    cases hc : held m g with
    | none =>
      rw [Store.truncateSessionMessages]
      refine Prog.wp_bind.mpr (hs.meta ?_ False.elim)
      rw [hc]
      exact ⟨rfl, hr⟩
    | some c =>
      rw [hc] at hs
      exact (hr.edit hg hc (hs.truncate ht.text (fun c' he => hsmall c' (by rw [hc, he])) keep)
        (keeps_truncate ht.kept keep)
        (modest_truncate ht.metas (fun _ _ _ _ => trivial) keep) rfl).mono (fun _ _ h₁ => ⟨rfl, h₁⟩)
          fun _ _ he => he.elim
  | update m' =>
    obtain ⟨c, hc, hagent, hby, hat⟩ := hf
    rw [hc] at hs
    rw [show opChange m g (.update m') = (held m g).elim m fun c =>
      m.insert g (some (edited c (.update m'))) from rfl, hc]
    -- the row's key is made of fields that stay as they are
    have hkey : sessionIndexKey (edited c (.update m')).sessionMeta g =
        sessionIndexKey c.sessionMeta g := by
      rw [edited, sessionIndexKey, sessionIndexKey, hagent, hby, hat]
    have hrecord : k[((.session, metaKey g) : Store.Cell)]? = some (.sessionMeta c.sessionMeta) :=
      by rw [hs.record]; rfl
    exact (hr.edit hg hc (hs.update ht.text m') (keeps_update ht.kept m')
      (modest_update hrecord trivial) hkey).mono (fun _ _ h₁ => ⟨rfl, h₁⟩) fun _ _ he => he.elim
  | delete =>
    refine Prog.wp_bind.mpr (((Store.wp_deleteSession (F := False) ht.text ht.metas).and
      (keeps_deleteSession ht.kept)).mono (fun _ k' h₁ => ⟨rfl, ?_⟩)
      fun _ _ he => he.1.elim)
    exact hr.erase ho hg h₁.1.1 h₁.2

/-! ## Reading -/

theorem Registered.loads [FileStd μ] (hr : Registered m k) (ho : Orderly m) (hg : '/' ∉ g) :
    Reads (Store.loadSession g) k (.ok (held m g)) := by
  have hs := hr.seats g hg
  have hload := reads_loadSession (h := g) (s := k)
  cases hc : held m g with
  | none =>
    rw [hc] at hs
    rwa [sessionView_none hs.record] at hload
  | some c =>
    rw [hc] at hs
    have hsound := ho.sound g c hc
    have harchive : Store.readJson Value.asText k .session (archiveKey g) = .ok c.archive := by
      rw [Store.readJson, hs.archive, Option.bind_some]
      cases c.archive with
      | none => rfl
      | some a => rfl
    have hhistory : ((k.under .session (messagePrefix g)).filterMap fun e => e.2.asEntry) =
        c.history := by
      have hlaid := hs.laid
      rw [Option.elim_some] at hlaid
      rw [hlaid.under hsound.small, ← hsound.persisted]
      refine List.ext_getElem? fun i => ?_
      have hall : ∀ (l : List (HistoryEntry μ)) (n : Nat),
          (l.mapIdx fun i e => (((.session, messageKey g (n + i)) : Cell), Value.entry e)).filterMap
          (fun e => e.2.asEntry) = l.map HistoryEntry.persist := by
        intro l
        induction l with
        | nil => exact fun _ => rfl
        | cons e l ih =>
          intro n
          have hrest := ih (n + 1)
          simp only [Nat.add_right_comm n 1] at hrest
          rw [List.mapIdx_cons, List.filterMap_cons, List.map_cons, ← hrest]
          rfl
      have hflat := hall (c.history.map HistoryEntry.persist) 0
      simp only [Nat.zero_add] at hflat
      rw [hflat, List.map_map]
      rfl
    rw [sessionView_of hs.record harchive, hhistory] at hload
    exact hload

theorem Registered.mem_rowHandles (hr : Registered m k) {agent : Option AgentId} :
    h ∈ rowHandles agent k ↔ ∃ c, held m h = some c ∧
    indexPrefix agent <+: sessionIndexKey c.sessionMeta h := by
  have hnone : ∀ key, indexPrefix agent <+: key → indexPrefix none <+: key := fun key hkey => by
    cases agent with
    | none => exact hkey
    | some a => exact (indexPrefix_some a).trans hkey
  rw [Store.mem_rowHandles]
  constructor
  · rintro ⟨key, hkey, hraw⟩
    obtain ⟨c, hc, rfl⟩ := (hr.rows key h (hnone key hkey)).mp hraw
    exact ⟨c, hc, hkey⟩
  · rintro ⟨c, hc, hkey⟩
    exact ⟨_, hkey, (hr.rows _ h (hnone _ hkey)).mpr ⟨c, hc, rfl⟩⟩

theorem Registered.nodup_rowHandles (hr : Registered m k) (agent : Option AgentId) :
    (rowHandles agent k).Nodup := by
  have hraw : ∀ (e : Cell × Value μ) (h : Str), e ∈ k.under .session (indexPrefix agent) →
      e.2.asRaw = some h →
      ∃ c, held m h = some c ∧ e.1 = (.session, sessionIndexKey c.sessionMeta h) := by
    rintro ⟨⟨col, key⟩, v⟩ h he hv
    obtain ⟨hcell, hcol, hkey⟩ := ColMap.mem_under.mp he
    simp only at hcol hkey hv
    subst hcol
    obtain rfl : v = .raw h := by cases v <;> simp_all [Value.asRaw]
    have hnone : indexPrefix none <+: key := by
      cases agent with
      | none => exact hkey
      | some a => exact (indexPrefix_some a).trans hkey
    obtain ⟨c, hc, rfl⟩ := (hr.rows key h hnone).mp hcell
    exact ⟨c, hc, rfl⟩
  unfold rowHandles
  refine List.pairwise_filterMap.mpr
    ((ColMap.sorted_under k .session (indexPrefix agent)).imp_of_mem
    fun {a b} ha hb hlt g hg h hh hne => ?_)
  subst hne
  obtain ⟨c, hc, hca⟩ := hraw a g ha hg
  obtain ⟨c', hc', hcb⟩ := hraw b g hb hh
  rw [hc] at hc'
  cases hc'
  rw [hca, hcb] at hlt
  exact lt_irrefl_cmp _ hlt

theorem Registered.lists [FileStd μ] (hr : Registered m k) (ho : Orderly m) :
    Reads Store.listSessions k (.ok (listing m)) := by
  have hlist := reads_listSessions hr.typed.metas
  have hmeta : ∀ h c, held m h = some c → k[((.session, metaKey h) : Cell)]? =
      some (.sessionMeta c.sessionMeta) := fun h c hc => by
    rw [(hr.seats h (ho.usable h _ (find_of_held hc)).1).record, hc]
    rfl
  rw [listing_eq (m := m) ?_ fun h d => ?_] at hlist
  · exact hlist
  · rw [names_listed]
    exact (hr.nodup_rowHandles none).filter _
  · rw [listed, List.mem_filterMap]
    constructor
    · rintro ⟨g, hg, hd⟩
      obtain ⟨c, hc, -⟩ := hr.mem_rowHandles.mp hg
      rw [hmeta g c hc, Option.bind_some, Value.asMeta, Option.map_some] at hd
      cases hd
      exact ⟨c, hc, rfl⟩
    · rintro ⟨c, hc, rfl⟩
      exact ⟨h, hr.mem_rowHandles.mpr ⟨c, hc, indexPrefix_isPrefix _ h⟩, by rw [hmeta h c hc]; rfl⟩

/-! ## Deleting -/

theorem Registered.delete [FileStd μ] (hr : Registered m k) (ho : Orderly m) (hg : '/' ∉ g) :
    Prog.wp False memory (Store.deleteSession g) (fun was k' => was = m[g]?.isSome ∧
      Registered (m.erase g) k') (fun _ _ => False) k := by
  refine ((Store.wp_deleteSession (F := False) hr.typed.text hr.typed.metas).and
    (keeps_deleteSession hr.typed.kept)).mono (fun was k' h₁ => ?_)
    fun _ _ he => he.1
  obtain ⟨⟨hd, hwas⟩, hk⟩ := h₁
  refine ⟨?_, hr.erase ho hg hd hk⟩
  rw [Bool.eq_iff_iff, hwas, hr.there g hg]

theorem Registered.deleteAll [FileStd μ] (hr : Registered m k) (ho : Orderly m) {hs : List Str}
    (hnodup : hs.Nodup)
    (hall : ∀ h ∈ hs, m[h]?.isSome = true) (n : Nat) :
    Prog.wp False memory (Store.deleteAll hs n)
      (fun purged k' => purged = n + hs.length ∧ Registered (hs.foldl (fun m h => m.erase h) m) k')
      (fun _ _ => False) k := by
  induction hs generalizing m k n with
  | nil => exact ⟨rfl, hr⟩
  | cons g hs ih =>
    rw [List.nodup_cons] at hnodup
    obtain ⟨x, hx⟩ := Option.isSome_iff_exists.mp (hall g List.mem_cons_self)
    rw [Store.deleteAll]
    refine Prog.wp_bind.mpr ((hr.delete ho (ho.usable g x hx).1).mono (fun was k₁ h₁ => ?_)
      fun _ _ he => he)
    obtain ⟨rfl, hr₁⟩ := h₁
    rw [hx, Option.isSome_some, if_pos rfl]
    refine (ih hr₁ (ho.erase g) hnodup.2 (fun h hh => ?_) _).mono (fun purged k₂ h₂ => ⟨?_, h₂.2⟩)
      fun _ _ he => he
    · rw [find_erase, if_neg]
      · exact hall h (List.mem_cons_of_mem _ hh)
      · rintro rfl
        exact hnodup.1 hh
    · rw [h₂.1, List.length_cons]
      omega

/-! ## The service -/

end

/-! ### A few requests -/

section
open Plain Store.Plain

end

end Crabtalk.Backend

import Crabtalk.Backend.Records
import Crabtalk.Backend.Torn

/-!
# The sessions of a directory

Beside the operations of one session the backend says which sessions it has,
and deletes those of an agent. What the directory stands for is a map: under a
handle a session, or the trace of one that is not there.
-/

open Basis Std

namespace Crabtalk.Backend

open Store

inductive SessionRequest (μ : Type)
  | act (handle : Str) (op : SessionOp μ)
  | loadSession (handle : Str)
  | listSessions
  | deleteSession (handle : Str)
  | deleteSessionsOf (agent : AgentId)

inductive SessionAnswer (μ : Type)
  | done
  | loaded (snapshot : Option (SessionSnapshot μ))
  | listed (sessions : List (Str × SessionMeta))
  | deleted (was : Bool)
  | purged (sessions : Nat)

/-! ## The interface over the directory -/

def handles : DirM (List Str) := do
  match ← (readDir sessionsDir).attempt with
  | .error _ => return []
  | .ok _ =>
    let entries ← nextEntries sessionsDir
    return sortNames (entries.map decode)

section
variable (μ : Type) [FileStd μ]

/-- The reading loop of `list_sessions`. -/
def withMetas : List Str → DirM (List (Str × SessionMeta))
  | [] => return []
  | handle :: handles => do
    let found ← files (sessionMeta (μ := μ) handle)
    let rest ← withMetas handles
    return (found.map (handle, ·)).toList ++ rest

def listSessions : DirM (List (Str × SessionMeta)) := do
  let out ← withMetas μ (← handles)
  return out.insertionSort fun a b => recency a b ≠ .gt

/-- The loop of `delete_sessions_of`. -/
def deleteOwned (agent : AgentId) : List (Str × SessionMeta) → Nat → DirM Nat
  | [], purged => return purged
  | (handle, m) :: rest, purged => do
    if m.agent = agent then
      let deleted ← files (deleteSession handle)
      deleteOwned agent rest (if deleted then purged + 1 else purged)
    else deleteOwned agent rest purged

def deleteSessionsOf (agent : AgentId) : DirM Nat := do
  deleteOwned agent (← listSessions μ) 0

end

section
variable {μ : Type}

def SessionRequest.serve [FileStd μ] : SessionRequest μ → DirM (SessionAnswer μ)
  | .act handle op => do
    files ((FileAct.op op).exec handle)
    return .done
  | .loadSession handle => do
    let snapshot ← files (Backend.loadSession handle)
    return .loaded snapshot
  | .listSessions => do
    let sessions ← Backend.listSessions μ
    return .listed sessions
  | .deleteSession handle => do
    let was ← files (Backend.deleteSession handle)
    return .deleted was
  | .deleteSessionsOf agent => do
    let sessions ← Backend.deleteSessionsOf μ agent
    return .purged sessions

/-! ## What it stands for -/

abbrev Chats (μ : Type) := Docs (Option (SessionSnapshot μ))

def held (m : Chats μ) (h : Str) : Option (SessionSnapshot μ) := m[h]?.join

def sessionsOf (m : Chats μ) : List (Str × SessionMeta) := m.toList.filterMap fun e =>
    e.2.map fun c => (e.1, c.sessionMeta)

def listing (m : Chats μ) : List (Str × SessionMeta) := (sessionsOf m).insertionSort fun a b =>
    recency a b ≠ .gt

def edited (c : SessionSnapshot μ) : SessionOp μ → SessionSnapshot μ
  | .append entries now =>
    if entries.isEmpty then c
    else
      { c with
        sessionMeta :=
          { c.sessionMeta with messageCount := c.sessionMeta.messageCount + entries.length, updatedAt := now }
        history := c.history ++ entries.map HistoryEntry.persist }
  | .compact archive => ⟨{ c.sessionMeta with messageCount := 0 }, [], some archive⟩
  | .truncate keep =>
    { c with
      sessionMeta := { c.sessionMeta with messageCount := min keep c.history.length }
      history := c.history.take keep }
  | .update m => { c with sessionMeta := { m with messageCount := c.sessionMeta.messageCount } }
  | _ => c

def opChange (m : Chats μ) (h : Str) : SessionOp μ → Chats μ
  | .create agent createdBy root now =>
    m.insert h (some ⟨⟨agent, createdBy, now, [], now, 0, none, root⟩, [], none⟩)
  | .events lines => if lines.isEmpty then m else m.insert h (held m h)
  | .delete => m.erase h
  | op => (held m h).elim m fun c => m.insert h (some (edited c op))

def opAnswer (m : Chats μ) (h : Str) : SessionOp μ → Except Error (SessionAnswer μ)
  | .append entries _ =>
    if entries.isEmpty || (held m h).isSome then .ok .done
      else .error (.bail ("session not found: ".toList ++ h))
  | _ => .ok .done

def owned (agent : AgentId) (x : Option (SessionSnapshot μ)) : Bool :=
  x.any fun c => c.sessionMeta.agent = agent

def sessionChange (m : Chats μ) : SessionRequest μ → Chats μ
  | .act h op => opChange m h op
  | .deleteSession h => m.erase h
  | .deleteSessionsOf agent => m.filter fun _ x => !owned agent x
  | _ => m

/-! ## Requests that both stores answer -/

/-- A handle that is one part of a key, and one name of a file. -/
def Usable (h : Str) : Prop := '/' ∉ h ∧ ¬ Special h ∧ storable h = true

instance (h : Str) : Decidable (Usable h) := inferInstanceAs (Decidable (_ ∧ _))

variable [FileStd μ] [Chrono]

/-- A session is created once, and keeps the row the index has of it. -/
def Fitting (x : Option (SessionSnapshot μ)) : SessionOp μ → Prop
  | .create _ _ _ now => x = none ∧ Chrono.IsTimestamp now
  | .append entries _ => ∀ c, x = some c → c.history.length + entries.length ≤ 10 ^ 12
  | .compact archive => x ≠ none ∧ trim (μ := μ) archive = archive
  | .update m =>
    ∃ c, x = some c ∧ m.agent = c.sessionMeta.agent ∧ m.createdBy = c.sessionMeta.createdBy ∧
      m.createdAt = c.sessionMeta.createdAt
  | _ => True

def Admits (m : Chats μ) : SessionRequest μ → Prop
  | .act h op => Usable h ∧ Fitting (held m h) op
  | .loadSession h => Usable h
  | .deleteSession h => Usable h
  | _ => True

structure Sound (c : SessionSnapshot μ) : Prop where
  counted : c.sessionMeta.messageCount = c.history.length
  persisted : c.history.map HistoryEntry.persist = c.history
  small : c.history.length ≤ 10 ^ 12
  trimmed : ∀ a, c.archive = some a → trim (μ := μ) a = a
  timed : Chrono.IsTimestamp c.sessionMeta.createdAt

structure Orderly (m : Chats μ) : Prop where
  usable : ∀ h x, m[(h : Str)]? = some x → Usable h
  sound : ∀ h c, held m h = some c → Sound c

end

section
variable {μ : Type} {m : Chats μ} {g h : Str} {x : Option (SessionSnapshot μ)}
  {c : SessionSnapshot μ} {op : SessionOp μ}

theorem held_insert : held (m.insert g x) h = if g = h then x else held m h := by
  rw [held, find_insert]
  by_cases hg : g = h
  · rw [if_pos hg, if_pos hg]
    rfl
  · rw [if_neg hg, if_neg hg]
    rfl

theorem held_erase : held (m.erase g) h = if g = h then none else held m h := by
  rw [held, find_erase]
  by_cases hg : g = h
  · rw [if_pos hg, if_pos hg]
    rfl
  · rw [if_neg hg, if_neg hg]
    rfl

theorem find_of_held (hc : held m h = some c) : m[h]? = some (some c) :=
  Option.join_eq_some_iff.mp hc

/-- What is put where it is already changes nothing. -/
theorem insert_same (hx : m[h]? = some x) : m.insert h x = m := by
  refine map_ext fun a => ?_
  rw [find_insert]
  by_cases ha : h = a
  · rw [if_pos ha, ← ha, hx]
  · rw [if_neg ha]

theorem find_owned (agent : AgentId) :
    (m.filter fun _ x => !owned agent x)[h]? = m[h]?.filter fun x => !owned agent x := by
  rw [ExtTreeMap.getElem?_filter']

/-! ## The listing -/

instance : TransCmp recency :=
  inferInstanceAs
    (TransCmp (compareLex (compareLex
    (fun a b => compareOn (fun e : Str × SessionMeta => e.2.updatedAt) b a)
    fun a b => compareOn (fun e : Str × SessionMeta => e.2.createdAt) b a)
      (compareOn fun e => e.1)))

theorem recency_handle {a b : Str × SessionMeta} (hab : recency a b ≠ .gt)
    (hba : recency b a ≠ .gt) : a.1 = b.1 := by
  have heq : recency a b = .eq := by
    have hswap : recency b a = (recency a b).swap := OrientedCmp.eq_swap
    rw [hswap] at hba
    cases hr : recency a b with
    | lt =>
      rw [hr] at hba
      exact absurd rfl hba
    | eq => rfl
    | gt => exact absurd hr hab
  exact LawfulEqCmp.eq_of_compare (Ordering.then_eq_eq.mp heq).2

theorem mem_sessionsOf {d : SessionMeta} : (h, d) ∈ sessionsOf m ↔ ∃ c, held m h = some c ∧
    c.sessionMeta = d := by
  unfold sessionsOf
  rw [List.mem_filterMap]
  constructor
  · rintro ⟨⟨a, x⟩, hmem, hx⟩
    obtain ⟨c, rfl, he⟩ := Option.map_eq_some_iff.mp hx
    cases he
    exact ⟨c, by rw [held, ExtTreeMap.mem_toList_iff_getElem?_eq_some.mp hmem]; rfl, rfl⟩
  · rintro ⟨c, hc, rfl⟩
    exact ⟨(h, some c), ExtTreeMap.mem_toList_iff_getElem?_eq_some.mpr (find_of_held hc), rfl⟩

theorem nodup_sessionsOf : ((sessionsOf m).map (·.1)).Nodup := by
  unfold sessionsOf
  rw [List.map_filterMap]
  refine List.pairwise_filterMap.mpr
    (ExtTreeMap.distinct_keys_toList.imp fun {a b} hab x hx y hy => ?_)
  obtain ⟨e, he, rfl⟩ := Option.map_eq_some_iff.mp hx
  obtain ⟨c, -, rfl⟩ := Option.map_eq_some_iff.mp he
  obtain ⟨e', he', rfl⟩ := Option.map_eq_some_iff.mp hy
  obtain ⟨c', -, rfl⟩ := Option.map_eq_some_iff.mp he'
  exact fun hne => hab (by rw [hne]; exact ReflCmp.compare_self)

/-- Whoever lists each session once, in whatever order, comes to the listing. -/
theorem listing_eq {l : List (Str × SessionMeta)} (hl : (l.map (·.1)).Nodup)
    (hmem : ∀ h d, (h, d) ∈ l ↔ ∃ c, held m h = some c ∧ c.sessionMeta = d) :
    l.insertionSort (fun a b => recency a b ≠ .gt) = listing m := by
  have total : Std.Total fun a b : Str × SessionMeta => recency a b ≠ .gt := ⟨total_cmp⟩
  have trans : IsTrans (Str × SessionMeta) fun a b => recency a b ≠ .gt := ⟨fun _ _ _ => trans_cmp⟩
  have hperm : l.Perm (sessionsOf m) := by
    refine (List.perm_ext_iff_of_nodup (.of_map _ hl) (.of_map _ nodup_sessionsOf)).mpr ?_
    rintro ⟨h, d⟩
    rw [hmem, mem_sessionsOf]
  have hsort : (l.insertionSort fun a b => recency a b ≠ .gt).Perm (listing m) :=
    (List.perm_insertionSort _ l).trans (hperm.trans (List.perm_insertionSort _ _).symm)
  refine hsort.eq_of_pairwise ?_ (List.pairwise_insertionSort _ l) (List.pairwise_insertionSort _ _)
  rintro ⟨h, d⟩ ⟨h', d'⟩ ha hb hab hba
  obtain rfl : h = h' := recency_handle hab hba
  obtain ⟨c, hc, rfl⟩ := (hmem _ _).mp ((List.perm_insertionSort _ l).mem_iff.mp ha)
  obtain ⟨c', hc', rfl⟩ := mem_sessionsOf.mp ((List.perm_insertionSort _ _).mem_iff.mp hb)
  rw [hc] at hc'
  cases hc'
  rfl

variable [FileStd μ] [Chrono]

theorem Orderly.empty : Orderly (∅ : Chats μ) :=
  ⟨fun h x hx => by simp at hx, fun h c hc => by simp [held] at hc⟩

theorem Orderly.insert (ho : Orderly m) (hu : Usable h) (hc : ∀ c, x = some c → Sound c) :
    Orderly (m.insert h x) := by
  refine ⟨fun g y hg => ?_, fun g c hg => ?_⟩
  · rw [find_insert] at hg
    by_cases he : h = g
    · rw [← he]
      exact hu
    · rw [if_neg he] at hg
      exact ho.usable g y hg
  · rw [held_insert] at hg
    by_cases he : h = g
    · rw [if_pos he] at hg
      exact hc c hg
    · rw [if_neg he] at hg
      exact ho.sound g c hg

theorem Orderly.erase (ho : Orderly m) (h : Str) : Orderly (m.erase h) := by
  refine ⟨fun g y hg => ?_, fun g c hg => ?_⟩
  · rw [find_erase] at hg
    by_cases he : h = g
    · rw [if_pos he] at hg
      cases hg
    · rw [if_neg he] at hg
      exact ho.usable g y hg
  · rw [held_erase] at hg
    by_cases he : h = g
    · rw [if_pos he] at hg
      cases hg
    · rw [if_neg he] at hg
      exact ho.sound g c hg

theorem Orderly.spare (ho : Orderly m) (agent : AgentId) :
    Orderly (m.filter fun _ x => !owned agent x) := by
  refine ⟨fun g y hg => ?_, fun g c hg => ?_⟩
  · rw [find_owned] at hg
    exact ho.usable g y (Option.filter_eq_some_iff.mp hg).1
  · rw [held, find_owned] at hg
    exact ho.sound g c
      (by rw [held, (Option.filter_eq_some_iff.mp (Option.join_eq_some_iff.mp hg)).1]; rfl)

theorem Sound.edited (hc : Sound c) (hf : Fitting (some c) op) : Sound (Backend.edited c op) := by
  cases op with
  | append entries now =>
    rw [Backend.edited]
    by_cases he : entries.isEmpty = true
    · rw [if_pos he]
      exact hc
    · rw [if_neg he]
      refine ⟨?_, ?_, ?_, hc.trimmed, hc.timed⟩
      · rw [List.length_append, List.length_map, hc.counted]
      · rw [List.map_append, hc.persisted, List.map_map]
        rfl
      · rw [List.length_append, List.length_map]
        exact hf c rfl
  | compact archive =>
    refine ⟨rfl, rfl, Nat.zero_le _, fun a ha => ?_, hc.timed⟩
    obtain rfl : archive = a := Option.some.inj ha
    exact hf.2
  | truncate keep =>
    refine ⟨?_, ?_, ?_, hc.trimmed, hc.timed⟩
    · simp [Backend.edited]
    · rw [Backend.edited, List.map_take, hc.persisted]
    · exact (List.length_take_le' keep c.history).trans hc.small
  | update m =>
    obtain ⟨c', he, -, -, hcreated⟩ := hf
    cases he
    exact ⟨hc.counted, hc.persisted, hc.small, hc.trimmed,
      by rw [Backend.edited, hcreated]; exact hc.timed⟩
  | create => exact hc
  | events => exact hc
  | delete => exact hc

theorem Orderly.change (ho : Orderly m) {q : SessionRequest μ} (hq : Admits m q) :
    Orderly (sessionChange m q) := by
  have hedit : ∀ h op, Usable h → Fitting (held m h) op →
      Orderly ((held m h).elim m fun c => m.insert h (some (edited c op))) := by
    intro h op hu hf
    cases hx : held m h with
    | none => exact ho
    | some c =>
      rw [hx] at hf
      refine ho.insert hu fun c' he => ?_
      cases he
      exact (ho.sound h c hx).edited hf
  cases q with
  | act h op =>
    obtain ⟨hu, hf⟩ := hq
    cases op with
    | create agent createdBy root now =>
      refine ho.insert hu fun c he => ?_
      cases he
      exact ⟨rfl, rfl, Nat.zero_le _, fun a ha => absurd ha (by simp), hf.2⟩
    | events lines =>
      show Orderly (if lines.isEmpty then m else m.insert h (held m h))
      by_cases he : lines.isEmpty = true
      · rw [if_pos he]
        exact ho
      · rw [if_neg he]
        exact ho.insert hu fun c hc => ho.sound h c hc
    | delete => exact ho.erase h
    | append entries now => exact hedit h _ hu hf
    | compact archive => exact hedit h _ hu hf
    | truncate keep => exact hedit h _ hu hf
    | update m' => exact hedit h _ hu hf
  | loadSession h => exact ho
  | listSessions => exact ho
  | deleteSession h => exact ho.erase h
  | deleteSessionsOf agent => exact ho.spare agent

end

/-! ## Directories -/

section
variable {h g name : Str} {t t' t'' : Disk} {f f' : Str → Option Bytes}

def dirOf (h : Str) : List Str := ["sessions".toList, encode h]

theorem sessionDir_dirOf (hh : ¬ Special h) : sessionDir h = (dirOf h).map .normal :=
  sessionDir_normal hh

theorem spot_dirOf (hh : ¬ Special h) : (sessionDir h).foldl Component.enter [] = dirOf h := by
  rw [sessionDir_dirOf hh, foldl_enter_names]
  rfl

theorem fileOf_dirOf (hh : ¬ Special h) : fileOf t h name = t.fileAt (dirOf h ++ [name]) := by
  rw [fileOf_place (fun he => hh (.inr (.inr he))), place, if_neg hh]
  rfl

theorem dirOf_inj (he : dirOf g = dirOf h) : g = h := encode_inj (by simpa [dirOf] using he)

structure Tidy (t : Disk) : Prop where
  opened : t.isDir ["sessions".toList] = true
  file : ∀ name, t.fileAt ["sessions".toList, name] = none
  deep : ∀ dir name, t.isDir ["sessions".toList, dir, name] = false

/-- The directory of a session is there and has other files in it. Elsewhere nothing is changed. -/
structure Alters (h : Str) (f : Str → Option Bytes) (t t' : Disk) : Prop where
  dirs : ∀ l, t'.isDir l = (decide (l = dirOf h) || t.isDir l)
  files : ∀ name, t'.fileAt (dirOf h ++ [name]) = f name
  rest : ∀ l, (∀ name, l ≠ dirOf h ++ [name]) → t'.fileAt l = t.fileAt l

theorem Tidy.alters (ht : Tidy t) (ha : Alters h f t t') : Tidy t' := by
  refine ⟨?_, fun name => ?_, fun dir name => ?_⟩
  · rw [ha.dirs, ht.opened, Bool.or_true]
  · rw [ha.rest _ (by simp [dirOf]), ht.file]
  · rw [ha.dirs, ht.deep, Bool.or_false, decide_eq_false (by simp [dirOf])]

theorem Tidy.locate (ht : Tidy t) (hh : ¬ Special h) : t.locate (sessionDir h) = some (dirOf h) := by
  rw [sessionDir_dirOf hh]
  show t.walk [] _ = _
  rw [show (dirOf h).map Component.normal = [.normal "sessions".toList] ++ [.normal (encode h)] from rfl]
  refine locate_concat ?_ ht.opened (encode h)
  show t.walk [] _ = _
  rw [FileTree.walk_cons, if_pos FileTree.isDir_nil]
  rfl

theorem Tidy.make (ht : Tidy t) (hh : ¬ Special h) (hs : storable h = true) :
    ∃ t', t.makeDirs [] (sessionDir h) = some t' ∧
    (∀ l, t'.isDir l = (decide (l = dirOf h) || t.isDir l)) ∧ ∀ l, t'.fileAt l = t.fileAt l := by
  have hspot : spot h = dirOf h := spot_dirOf hh
  obtain ⟨t', hmake⟩ : ∃ t', t.makeDirs [] (sessionDir h) = some t' :=
      FileTree.makeDirs_some FileTree.isDir_nil (fits_sessionDir hs) fun p hp => by
    rcases spot_of_prefix hp with he | he | he
    · rw [he, FileTree.fileAt_dir FileTree.isDir_nil]
    · rw [he, FileTree.fileAt_dir ht.opened]
    · rw [he, hspot]
      exact ht.file _
  refine ⟨t', hmake, fun l => ?_, fun l => FileTree.fileAt_makeDirs hmake⟩
  cases hd : t'.isDir l with
  | true =>
    rcases FileTree.isDir_of_makeDirs hmake hd with hl | ⟨p, hp, rfl⟩
    · rw [hl, Bool.or_true]
    · rcases spot_of_prefix hp with he | he | he
      · rw [he, FileTree.isDir_nil, Bool.or_true]
      · rw [he, ht.opened, Bool.or_true]
      · rw [he, hspot, decide_eq_true rfl, Bool.true_or]
  | false =>
    have hnew : l ≠ dirOf h := by
      rintro rfl
      have hwalk := (FileTree.walk_makeDirs hmake FileTree.isDir_nil).2
      rw [spot_dirOf hh, hd] at hwalk
      cases hwalk
    have hold : t.isDir l = false := by
      cases hl : t.isDir l with
      | false => rfl
      | true =>
        rw [FileTree.isDir_makeDirs hmake hl] at hd
        cases hd
    rw [hold, decide_eq_false hnew]
    rfl

theorem Tidy.free (ht : Tidy t) (name : Str) :
    (decide (dirOf h ++ [name] = dirOf h) || t.isDir (dirOf h ++ [name])) = false := by
  rw [decide_eq_false (by simp), Bool.false_or]
  exact ht.deep _ name

theorem wp_replaced {bytes : Bytes} (ht : Tidy t) (hh : ¬ Special h) (hs : storable h = true)
    (hname : NameLimit.fits name = true)
    (htmp : NameLimit.fits (tmpName name) = true) :
    Prog.wp False disk (replace (sessionDir h ++ [.normal name]) bytes)
      (fun _ => Alters h (fun n => if n = name then some bytes else if n = tmpName name then none
        else fileOf t h n) t) (fun _ _ => False) t := by
  obtain ⟨t₁, hmake, hdirs, -⟩ := ht.make hh hs
  refine wp_replace hmake (spot_dirOf hh) hname htmp
    (fun _ _ t' hfile hdir => ⟨fun l => ?_, fun n => ?_, fun l hl => ?_⟩) fun hd => ?_
  · rw [hdir, hdirs]
  · simp only [hfile, List.append_cancel_left_eq, List.cons.injEq, and_true, fileOf_dirOf hh]
  · rw [hfile, if_neg (hl _), if_neg (hl _)]
  · rcases hd with hd | hd
    · rw [hdirs, ht.free] at hd
      cases hd
    · rw [hdirs, ht.free] at hd
      cases hd

theorem wp_appended {α : Type} {json : α → Bytes} {values : List α} (ht : Tidy t) (hh : ¬ Special h)
    (hs : storable h = true)
    (hname : NameLimit.fits name = true) (hv : values.isEmpty = false) :
    Prog.wp False disk (appendJson json (sessionDir h ++ [.normal name]) values)
      (fun _ => Alters h (fun n => if n = name
        then some ((fileOf t h name).getD [] ++ lines json values) else fileOf t h n) t)
      (fun _ _ => False) t := by
  obtain ⟨t₁, hmake, hdirs, hfiles⟩ := ht.make hh hs
  obtain ⟨hloc, hd⟩ := FileTree.walk_makeDirs hmake FileTree.isDir_nil
  rw [spot_dirOf hh] at hloc hd
  unfold appendJson
  rw [hv, if_neg Bool.false_ne_true, parent_concat, Prog.wp_bind, wp_createDirAll, hmake]
  refine ⟨?_, False.elim⟩
  show Prog.wp False disk (append _ _) _ _ t₁
  rw [wp_append, locate_concat hloc hd, Option.bind_some]
  refine ⟨?_, False.elim⟩
  obtain ⟨t₂, h₂⟩ := FileTree.writeFile_some (t := t₁) (show dirOf h ++ [name] ≠ [] by simp)
      (by rw [List.dropLast_concat, hd])
    (by rw [hdirs, ht.free]) (FileTree.lastFits_concat.trans hname)
      ((t₁.fileAt (dirOf h ++ [name])).getD [] ++ lines json values)
  rw [h₂]
  refine ⟨fun l => ?_, fun n => ?_, fun l hl => ?_⟩
  · rw [FileTree.isDir_writeFile h₂, hdirs]
  · simp only [FileTree.fileAt_writeFile h₂, hfiles, List.append_cancel_left_eq, List.cons.injEq,
      and_true, fileOf_dirOf hh]
  · rw [FileTree.fileAt_writeFile h₂, if_neg (hl _), hfiles]

theorem wp_written {bytes : Bytes} (ht : Tidy t) (hh : ¬ Special h)
    (hname : NameLimit.fits name = true) (hd : t.isDir (dirOf h) = true) :
    Prog.wp False disk (write (sessionDir h ++ [.normal name]) bytes)
      (fun _ => Alters h (fun n => if n = name then some bytes else fileOf t h n) t)
      (fun _ _ => False) t := by
  rw [wp_write, locate_concat (ht.locate hh) hd, Option.bind_some]
  refine ⟨?_, False.elim⟩
  have hfree : t.isDir (dirOf h ++ [name]) = false := ht.deep _ name
  obtain ⟨t₁, h₁⟩ := FileTree.writeFile_some (t := t) (show dirOf h ++ [name] ≠ [] by simp)
      (by rw [List.dropLast_concat, hd]) hfree
    (FileTree.lastFits_concat.trans hname) bytes
  rw [h₁]
  refine ⟨fun l => ?_, fun n => ?_, fun l hl => ?_⟩
  · rw [FileTree.isDir_writeFile h₁]
    by_cases hl : l = dirOf h
    · rw [hl, hd, Bool.or_true]
    · rw [decide_eq_false hl, Bool.false_or]
  · simp only [FileTree.fileAt_writeFile h₁, List.append_cancel_left_eq, List.cons.injEq, and_true,
      fileOf_dirOf hh]
  · rw [FileTree.fileAt_writeFile h₁, if_neg (hl _)]

end

/-! ## Sessions in their directories -/

section
variable {μ : Type} [FileStd μ] {m : Chats μ} {h : Str} {x : Option (SessionSnapshot μ)}
  {f : Str → Option Bytes} {t t' : Disk}

structure Lodges (x : Option (SessionSnapshot μ)) (f : Str → Option Bytes) : Prop where
  record : f "meta.json".toList = x.map fun c => FileStd.metaJson μ c.sessionMeta
  log : ∃ es : List (HistoryEntry μ), (f "messages.jsonl".toList).getD [] = entryLines es ∧
    es.map HistoryEntry.persist = x.elim [] (·.history)
  archive : f "archive".toList = (x.bind (·.archive)).map utf8

structure Lodged (m : Chats μ) (t : Disk) : Prop extends Tidy t where
  dirs : ∀ h, t.isDir (dirOf h) = m[(h : Str)]?.isSome
  named : ∀ name, t.isDir ["sessions".toList, name] = true → ∃ h, name = encode h
  lodges : ∀ h, ¬ Special h → Lodges (held m h) (fileOf t h)

theorem Lodged.alters (hl : Lodged m t) (ha : Alters h f t t') (hx : Lodges x f) :
    Lodged (m.insert h x) t' := by
  refine ⟨hl.toTidy.alters ha, fun g => ?_, fun name hd => ?_, fun g hg => ?_⟩
  · rw [ha.dirs, hl.dirs, find_insert]
    by_cases he : h = g
    · rw [if_pos he, he, decide_eq_true rfl]
      rfl
    · rw [if_neg he, decide_eq_false fun hd => he (dirOf_inj hd).symm, Bool.false_or]
  · rw [ha.dirs, Bool.or_eq_true, decide_eq_true_eq] at hd
    rcases hd with hd | hd
    · exact ⟨h, by simpa [dirOf] using hd⟩
    · exact hl.named name hd
  · rw [held_insert]
    by_cases he : h = g
    · rw [if_pos he, show fileOf t' g = f from funext fun name =>
        by rw [fileOf_dirOf hg, ← he, ha.files]]
      exact hx
    · rw [if_neg he, show fileOf t' g = fileOf t g from funext fun name => by
        rw [fileOf_dirOf hg, fileOf_dirOf hg]
        refine ha.rest _ fun name' hn => he (dirOf_inj ?_)
        exact (List.append_inj' hn rfl).1.symm]
      exact hl.lodges g hg

/-! ## Reading -/

theorem Lodged.sees_meta (hl : Lodged m t) (hh : ¬ Special h) :
    Prog.Sees disk (sessionMeta (μ := μ) h) t (.ok ((held m h).map (·.sessionMeta))) := by
  have hread := sees_readJson (FileStd.readMeta μ) (metaPath h) t
  rw [show (t.locate (metaPath h)).bind t.fileAt = fileOf t h "meta.json".toList from rfl,
    (hl.lodges h hh).record] at hread
  cases hx : held m h with
  | none =>
    rw [hx] at hread
    exact hread
  | some c =>
    rw [hx, Option.map_some, Option.elim_some, FileStd.readMeta_metaJson] at hread
    exact hread

theorem Lodges.read (hx : Lodges x f) :
    (f "messages.jsonl".toList).elim [] (parseLines FileStd.readEntry) = x.elim [] (·.history) := by
  obtain ⟨es, hes, hpersist⟩ := hx.log
  have hparsed : history (entryLines es) = x.elim [] (·.history) := by
    rw [← List.append_nil (entryLines es), history_entryLines, history_nil,
      List.append_nil, hpersist]
  cases hf : f "messages.jsonl".toList with
  | none =>
    rw [hf, Option.getD_none] at hes
    rw [← hes, history_nil] at hparsed
    exact hparsed
  | some bytes =>
    rw [hf, Option.getD_some] at hes
    rw [← hes] at hparsed
    exact hparsed

theorem Lodged.sees_messages (hl : Lodged m t) (hh : ¬ Special h) :
    Prog.Sees disk (messages (μ := μ) h) t (.ok ((held m h).elim [] (·.history))) := by
  have hread := sees_readLines (FileStd.readEntry (μ := μ)) (messagesPath h) t
  rw [show (t.locate (messagesPath h)).bind t.fileAt = fileOf t h "messages.jsonl".toList from rfl,
    (hl.lodges h hh).read] at hread
  exact hread

omit [FileStd μ] in
theorem insert_insert (y : Option (SessionSnapshot μ)) : (m.insert h y).insert h x = m.insert h x := by
  refine map_ext fun a => ?_
  rw [find_insert, find_insert, find_insert]
  by_cases ha : h = a
  · rw [if_pos ha, if_pos ha]
  · rw [if_neg ha, if_neg ha, if_neg ha]

theorem Lodges.congr (hx : Lodges x f) {f' : Str → Option Bytes}
    (hrecord : f' "meta.json".toList = f "meta.json".toList)
    (hlog : f' "messages.jsonl".toList = f "messages.jsonl".toList)
    (harchive : f' "archive".toList = f "archive".toList) : Lodges x f' :=
  ⟨by rw [hrecord, hx.record], by rw [hlog]; exact hx.log, by rw [harchive, hx.archive]⟩

theorem Lodged.wp_writeMeta (hl : Lodged m t) (hh : ¬ Special h) (hs : storable h = true)
    {c : SessionSnapshot μ} (hhistory : c.history = (held m h).elim [] (·.history))
    (harchive : c.archive = (held m h).bind (·.archive)) :
    Prog.wp False disk (writeMeta (μ := μ) h c.sessionMeta) (fun _ => Lodged (m.insert h (some c)))
    (fun _ _ => False) t := by
  refine (wp_replaced hl.toTidy hh hs (by decide) (by decide)).mono (fun _ t' ha => hl.alters ha ?_)
    fun _ _ he => he
  have hx := hl.lodges h hh
  refine ⟨if_pos rfl, ?_, ?_⟩
  · obtain ⟨es, hes, hpersist⟩ := hx.log
    exact ⟨es, hes, by rw [hpersist, Option.elim_some, hhistory]⟩
  · show fileOf t h "archive".toList = _
    rw [hx.archive, ← harchive]
    rfl

theorem Lodged.wp_append (hl : Lodged m t) (hh : ¬ Special h) (hs : storable h = true)
    {c : SessionSnapshot μ} (hc : held m h = some c) {entries : List (HistoryEntry μ)}
    (he : entries.isEmpty = false) :
    Prog.wp False disk (appendJson FileStd.entryJson (messagesPath h) entries)
      (fun _ => Lodged
        (m.insert h (some { c with history := c.history ++ entries.map HistoryEntry.persist })))
      (fun _ _ => False) t := by
  refine (wp_appended hl.toTidy hh hs (by decide) he).mono (fun _ t' ha => hl.alters ha ?_)
    fun _ _ he => he
  have hx := hl.lodges h hh
  rw [hc] at hx
  obtain ⟨es, hes, hpersist⟩ := hx.log
  refine ⟨hx.record, ⟨es ++ entries, ?_, ?_⟩, hx.archive⟩
  · show (fileOf t h "messages.jsonl".toList).getD [] ++ entryLines entries = _
    rw [hes, entryLines_append]
  · rw [List.map_append, hpersist]
    rfl

theorem Lodged.wp_rewrite (hl : Lodged m t) (hh : ¬ Special h) (hs : storable h = true)
    {c : SessionSnapshot μ} (hc : held m h = some c) {log : List (HistoryEntry μ)}
    (hlog : log.map HistoryEntry.persist = log) :
    Prog.wp False disk (writeLines FileStd.entryJson (messagesPath h) log)
      (fun _ => Lodged (m.insert h (some { c with history := log }))) (fun _ _ => False) t := by
  refine (wp_replaced hl.toTidy hh hs (by decide) (by decide)).mono (fun _ t' ha => hl.alters ha ?_)
    fun _ _ he => he
  have hx := hl.lodges h hh
  rw [hc] at hx
  exact ⟨hx.record, ⟨log, rfl, hlog⟩, hx.archive⟩

theorem Lodged.wp_truncate [Chrono] (hl : Lodged m t) (ho : Orderly m) (hh : ¬ Special h)
    (hs : storable h = true) (keep : Nat) :
    Prog.wp False disk (truncateSessionMessages (μ := μ) h keep)
    (fun _ => Lodged (opChange m h (.truncate keep))) (fun _ _ => False) t := by
  unfold truncateSessionMessages
  rw [Prog.wp_bind]
  refine (hl.sees_meta hh).wp ?_
  have hmessages := hl.sees_messages hh
  show Prog.wp False disk _ (fun _ =>
      Lodged ((held m h).elim m fun c => m.insert h (some (edited c (.truncate keep))))) _ t
  cases hc : held m h with
  | none => exact hl
  | some c =>
    rw [hc, Option.elim_some] at hmessages
    have hsound := ho.sound h c hc
    have hstored : (c.history.take (min keep c.history.length)).map HistoryEntry.persist =
        c.history.take (min keep c.history.length) := by
      rw [List.map_take, hsound.persisted]
    refine Prog.wp_bind.mpr (hmessages.wp ?_)
    refine Prog.wp_bind.mpr ((hl.wp_rewrite hh hs hc hstored).mono (fun _ t₁ h₁ => ?_)
      fun _ _ he => he)
    · have hheld : held (m.insert h
          (some { c with history := c.history.take (min keep c.history.length) })) h =
          some { c with history := c.history.take (min keep c.history.length) } := by
          rw [held_insert, if_pos rfl]
      have hwrite := h₁.wp_writeMeta hh hs (c := edited c (.truncate keep))
          (by rw [hheld, edited, Option.elim_some, List.take_eq_take_min])
        (by rw [hheld]; rfl)
      rw [insert_insert] at hwrite
      exact hwrite

/-! ## Deleting -/

theorem Lodged.erase (hl : Lodged m t)
    (hnode : ∀ l, t'.node l = if dirOf h <+: l then none else t.node l) :
    Lodged (m.erase h) t' := by
  have hsessions : t'.isDir ["sessions".toList] = true := by
    rw [FileTree.isDir, hnode, if_neg (by simp [dirOf, List.prefix_cons_iff])]
    exact hl.opened
  have hpart : ∀ name, dirOf h <+: ["sessions".toList, name] ↔ encode h = name := fun name => by
    simp [dirOf, List.prefix_cons_iff]
  refine ⟨⟨hsessions, fun name => ?_, fun dir name => ?_⟩, fun g => ?_, fun name hd => ?_,
    fun g hg => ?_⟩
  · have hfile := hl.file name
    rw [FileTree.fileAt] at hfile ⊢
    rw [hnode]
    by_cases hp : dirOf h <+: ["sessions".toList, name]
    · rw [if_pos hp]
    · rw [if_neg hp]
      exact hfile
  · have hdeep := hl.deep dir name
    rw [FileTree.isDir] at hdeep ⊢
    rw [hnode]
    by_cases hp : dirOf h <+: ["sessions".toList, dir, name]
    · rw [if_pos hp]
    · rw [if_neg hp]
      exact hdeep
  · rw [FileTree.isDir, hnode, find_erase]
    by_cases he : h = g
    · rw [if_pos he, if_pos (by rw [he])]
      rfl
    · rw [if_neg he, if_neg (show ¬ dirOf h <+: dirOf g from fun hp =>
        he (encode_inj ((hpart _).mp hp)))]
      exact hl.dirs g
  · refine hl.named name ?_
    rw [FileTree.isDir, hnode] at hd
    by_cases hp : dirOf h <+: ["sessions".toList, name]
    · rw [if_pos hp] at hd
      cases hd
    · rw [if_neg hp] at hd
      exact hd
  -- the files of `h` are gone, those of another session are where they were
  · have hfiles : ∀ name, fileOf t' g name = if h = g then none else fileOf t g name := by
      intro name
      rw [fileOf_dirOf hg, fileOf_dirOf hg]
      by_cases he : h = g
      · rw [if_pos he, FileTree.fileAt, hnode, if_pos (by rw [he]; exact List.prefix_append _ _)]
      · rw [if_neg he]
        refine FileTree.fileAt_congr ((hnode _).trans (if_neg fun hp => he (encode_inj ?_)))
        simpa [dirOf, List.prefix_cons_iff] using hp
    rw [held_erase]
    by_cases he : h = g
    · rw [if_pos he, show fileOf t' g = fun _ => none from funext fun name =>
        by rw [hfiles, if_pos he]]
      exact ⟨rfl, ⟨[], rfl, rfl⟩, rfl⟩
    · rw [if_neg he, show fileOf t' g = fileOf t g from funext fun name =>
        by rw [hfiles, if_neg he]]
      exact hl.lodges g hg

theorem Lodged.wp_delete (hl : Lodged m t) (hh : ¬ Special h) :
    Prog.wp False disk (deleteSession h) (fun was t' => was = m[h]?.isSome ∧ Lodged (m.erase h) t')
    (fun _ _ => False) t := by
  unfold deleteSession
  rw [Prog.wp_bind, Prog.wp_attempt]
  refine Prog.wp_perform.mpr ⟨?_, False.elim⟩
  have hdirs := hl.dirs h
  unfold Basis.wp
  simp only [disk, hl.toTidy.locate hh, removeAll]
  by_cases hd : t.isDir (dirOf h) = true
  · have hname : endsInName (sessionDir h) = true := by rw [sessionDir_dirOf hh]; rfl
    simp only [if_pos hd, dif_pos (show dirOf h ≠ [] ∧ endsInName (sessionDir h) = true
      from ⟨by simp [dirOf], hname⟩)]
    exact ⟨by rw [← hdirs, hd], hl.erase fun l => FileTree.node_remove⟩
  · rw [if_neg hd]
    have hnone : m[h]? = none := by
      rw [← Option.not_isSome_iff_eq_none, ← hdirs]
      exact hd
    refine ⟨by rw [hnone]; rfl, ?_⟩
    rw [erase_of_none hnone]
    exact hl

/-! ## Acting on a session -/

theorem Lodged.act [Chrono] (hl : Lodged m t) (ho : Orderly m) (hh : ¬ Special h)
    (hs : storable h = true) {op : SessionOp μ} (hf : Fitting (held m h) op) :
    Prog.wp False disk ((FileAct.op op).exec h) (fun _ t' => opAnswer m h op = .ok .done ∧ Lodged (opChange m h op) t')
      (fun e t' => opAnswer m h op = .error e ∧ Lodged (opChange m h op) t') t := by
  cases op with
  | create agent createdBy root now =>
    obtain ⟨hnone, -⟩ := hf
    exact (hl.wp_writeMeta hh hs (c := ⟨⟨agent, createdBy, now, [], now, 0, none, root⟩, [], none⟩)
      (by rw [hnone]; rfl) (by rw [hnone]; rfl)).mono
      (fun _ _ h₁ => ⟨rfl, h₁⟩) fun _ _ he => he.elim
  | append entries now =>
    rw [show opChange m h (.append entries now) = (held m h).elim m fun c =>
      m.insert h (some (edited c (.append entries now))) from rfl, opAnswer]
    show Prog.wp False disk (appendSessionMessages h entries now) _ _ t
    rw [appendSessionMessages]
    cases he : entries.isEmpty with
    | true =>
      rw [if_pos rfl, Bool.true_or, if_pos rfl]
      refine ⟨rfl, ?_⟩
      cases hc : held m h with
      | none => exact hl
      | some c =>
        rw [Option.elim_some, edited, he, if_pos rfl, insert_same (find_of_held hc)]
        exact hl
    | false =>
      rw [if_neg Bool.false_ne_true, Bool.false_or]
      refine Prog.wp_bind.mpr ((hl.sees_meta hh).wp ?_)
      cases hc : held m h with
      | none => exact ⟨rfl, hl⟩
      | some c =>
        refine Prog.wp_bind.mpr ((hl.wp_append hh hs hc he).mono (fun _ t₁ h₁ => ?_)
          fun _ _ he => he.elim)
        -- the lines are on disk; what is left is the record with its new count
        have hheld : held (m.insert h
            (some { c with history := c.history ++ entries.map HistoryEntry.persist })) h =
            some { c with history := c.history ++ entries.map HistoryEntry.persist } := by
            rw [held_insert, if_pos rfl]
        have hwrite := h₁.wp_writeMeta hh hs (c := edited c (.append entries now))
            (by rw [hheld, edited, he]; rfl) (by rw [hheld, edited, he]; rfl)
        rw [insert_insert, edited, he, if_neg Bool.false_ne_true] at hwrite
        rw [Option.elim_some, edited, he, if_neg Bool.false_ne_true]
        exact hwrite.mono (fun _ _ h₂ => ⟨rfl, h₂⟩) fun _ _ hno => hno.elim
  | events lines =>
    rw [show opChange m h (.events lines) = if lines.isEmpty then m
      else m.insert h (held m h) from rfl]
    show Prog.wp False disk (appendJson (FileStd.eventJson μ) (eventsPath h) lines) _ _ t
    cases he : lines.isEmpty with
    | true =>
      rw [appendJson, he, if_pos rfl, if_pos rfl]
      exact ⟨rfl, hl⟩
    | false =>
      rw [if_neg Bool.false_ne_true]
      refine (wp_appended hl.toTidy hh hs (by decide) he).mono
        (fun _ t' ha => ⟨rfl, hl.alters ha ?_⟩) fun _ _ he => he.elim
      exact (hl.lodges h hh).congr rfl rfl rfl
  | compact archive =>
    show Prog.wp False disk (truncateSessionMessages (μ := μ) h 0 >>= fun _ =>
        write (archivePath h) (utf8 archive)) _ _ t
    rw [Prog.wp_bind]
    refine (hl.wp_truncate ho hh hs 0).mono (fun _ t₁ h₁ => ?_) fun _ _ he => he.elim
    obtain ⟨c, hc⟩ := Option.ne_none_iff_exists'.mp hf.1
    have hopened : opChange m h (.truncate 0) = m.insert h (some (edited c (.truncate 0))) := by
      show (held m h).elim m _ = _
      rw [hc]
      rfl
    have hdone : opChange m h (.compact archive) =
        m.insert h (some (edited c (.compact archive))) := by
      show (held m h).elim m _ = _
      rw [hc]
      rfl
    rw [hopened] at h₁
    -- the truncation has written the record, so the directory is there
    have hd : t₁.isDir (dirOf h) = true := by
      rw [h₁.dirs, find_insert, if_pos rfl]
      rfl
    refine (wp_written h₁.toTidy hh (by decide) hd).mono (fun _ t₂ ha => ⟨rfl, ?_⟩)
      fun _ _ he => he.elim
    have hx := h₁.lodges h hh
    rw [held_insert, if_pos rfl] at hx
    rw [hdone, ← insert_insert (some (edited c (.truncate 0)))]
    refine h₁.alters ha ⟨?_, ?_, if_pos rfl⟩
    · show fileOf t₁ h "meta.json".toList = _
      rw [hx.record, edited, edited, Nat.zero_min]
      rfl
    · exact hx.log
  | truncate keep => exact (hl.wp_truncate ho hh hs keep).mono (fun _ _ h₁ => ⟨rfl, h₁⟩) fun _ _ he => he.elim
  | update m' =>
    obtain ⟨c, hc, -⟩ := hf
    rw [show opChange m h (.update m') = (held m h).elim m fun c =>
      m.insert h (some (edited c (.update m'))) from rfl, hc]
    show Prog.wp False disk (updateSessionMeta (μ := μ) h m') _ _ t
    unfold updateSessionMeta
    refine Prog.wp_bind.mpr ((hl.sees_meta hh).wp ?_)
    rw [hc]
    exact (hl.wp_writeMeta hh hs (c := edited c (.update m')) (by rw [hc]; rfl)
      (by rw [hc]; rfl)).mono (fun _ _ h₁ => ⟨rfl, h₁⟩) fun _ _ he => he.elim
  | delete =>
    exact Prog.wp_bind.mpr ((hl.wp_delete hh).mono (fun _ _ h₁ => ⟨rfl, h₁.2⟩)
      fun _ _ he => he.elim)

/-! ## Listing -/

variable {order : List Str → List Str} {s : Shelf}

theorem Lodged.mem_children (hl : Lodged m s.tree) {name : Str} :
    name ∈ s.children ["sessions".toList] ↔ ∃ h, name = encode h ∧ m[h]?.isSome = true := by
  rw [Listed.mem_children]
  show s.tree.node ["sessions".toList, name] ≠ none ↔ _
  have hfile := hl.file name
  constructor
  · intro hn
    obtain ⟨x, hx⟩ := Option.ne_none_iff_exists'.mp hn
    cases x with
    | dir =>
      have hd := FileTree.isDir_iff.mpr hx
      obtain ⟨h, rfl⟩ := hl.named name hd
      exact ⟨h, rfl, by rw [← hl.dirs]; exact hd⟩
    | file b =>
      rw [FileTree.fileAt_iff.mpr hx] at hfile
      cases hfile
  · rintro ⟨h, rfl, hm⟩
    rw [← hl.dirs] at hm
    have hnode : s.tree.node ["sessions".toList, encode h] = some .dir := FileTree.isDir_iff.mp hm
    rw [hnode]
    exact fun he => by cases he

end

end Crabtalk.Backend

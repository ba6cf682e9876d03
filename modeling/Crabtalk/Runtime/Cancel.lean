import Crabtalk.Runtime.Live

/-! # Cancelling what is in flight

Streams and compactions of a session come and go in any order. Each holds a
guard that clears the session's one token when it goes, whoever opened the
token.
-/

open Basis Std
open Crabtalk.Store

namespace Crabtalk.Runtime

/-! ## The slot -/

namespace Sessions

variable {s : Sessions} {id : Nat}

def slot (s : Sessions) (id : Nat) : Option Nat := s.registry.byId[id]?.bind (·.cancel)

theorem slot_touch (i : Nat) : (s.touch i).slot id = s.slot id := by
  unfold slot touch
  rw [ExtTreeMap.getElem?_modify]
  split
  · rename_i hi
    rw [← LawfulEqCmp.compare_eq_iff_eq.mp hi]
    cases s.registry.byId[i]? <;> rfl
  · rfl

theorem slot_findByHandle (handle : Str) : (s.findByHandle handle).2.slot id = s.slot id := by
  unfold findByHandle
  split
  · rfl
  · split
    · rfl
    · exact slot_touch _

theorem slot_beginCancel (i token : Nat) :
    (s.beginCancel i token).2.slot id = if i = id ∧ (s.beginCancel i token).1 = some token
    then some token else s.slot id := by
  unfold beginCancel slot
  cases hi : s.registry.byId[i]? with
  | none => simp
  | some live =>
    by_cases hid : i = id
    · subst hid
      simp [ExtTreeMap.getElem?_modify_self, hi]
    · simp [ExtTreeMap.getElem?_modify, hid]

theorem slot_endCancel (i : Nat) : (s.endCancel i).slot id = if i = id then none else s.slot id := by
  unfold endCancel slot
  by_cases hid : i = id
  · subst hid
    simp only [ExtTreeMap.getElem?_modify_self]
    cases s.registry.byId[i]? <;> simp
  · simp [ExtTreeMap.getElem?_modify, hid]

theorem beginCancel_token {i token t : Nat} (h : (s.beginCancel i token).1 = some t) :
    t = token := by
  unfold beginCancel at h
  split at h
  · exact (Option.some.inj h).symm
  · cases h

theorem cancel_eq (s : Sessions) (id : Nat) : (s.cancel id).toOption = s.slot id := by
  unfold cancel slot
  cases s.registry.byId[id]?.bind (·.cancel) <;> rfl

end Sessions

/-! ## Operations under way -/

inductive Cancellable
  | stream (guest : Bool)
  | compact
  deriving DecidableEq

structure Flight where
  kind : Cancellable
  session : Nat
  token : Option Nat
  deriving DecidableEq

structure Flights where
  sessions : Sessions
  inFlight : ExtTreeMap Nat Flight
  nextToken : Nat
  fired : List Nat

namespace Flights

/-- The guard is there before the token is: the stream hands out its start in between. -/
def openStream (w : Flights) (key : Nat) (handle : Str) (guest : Bool) : Flights :=
  let (found, sessions) := w.sessions.findByHandle handle
  match found with
  | some (id, _) => { w with sessions, inFlight := w.inFlight.insert key ⟨.stream guest, id, none⟩ }
  | none => { w with sessions }

def beginCancel (w : Flights) (key : Nat) (f : Flight) : Flights :=
  let (token, sessions) := w.sessions.beginCancel f.session w.nextToken
  { w with sessions, inFlight := w.inFlight.insert key { f with token }, nextToken := w.nextToken + 1 }

/-- `compact_conversation` up to its first wait. -/
def compactConversation (w : Flights) (key : Nat) (handle : Str) : Flights :=
  let (found, sessions) := w.sessions.findByHandle handle
  match found with
  | some (id, _) => beginCancel { w with sessions } key ⟨.compact, id, none⟩
  | none => { w with sessions }

def drop (w : Flights) (key : Nat) (f : Flight) : Flights :=
  { w with sessions := w.sessions.endCancel f.session, inFlight := w.inFlight.erase key }

def cancel (w : Flights) (id : Nat) : Except Str Unit × Flights :=
  match w.sessions.cancel id with
  | .ok token => (.ok (), { w with fired := token :: w.fired })
  | .error e => (.error e, w)

inductive Act
  | stream (key : Nat) (handle : Str) (guest : Bool)
  | poll (key : Nat)
  | compact (key : Nat) (handle : Str)
  | drop (key : Nat)
  | cancel (id : Nat)

/-- An operation starts under a key of its own, and ends or is dropped at any time. -/
def perform (w : Flights) : Act → Option Flights
  | .stream key handle guest =>
    if w.inFlight[key]? = none then some (w.openStream key handle guest) else none
  | .poll key =>
    match w.inFlight[key]? with
    | some f => if f.kind = .stream false ∧ f.token = none then some (w.beginCancel key f) else none
    | none => none
  | .compact key handle =>
    if w.inFlight[key]? = none then some (w.compactConversation key handle) else none
  | .drop key => w.inFlight[key]?.map (w.drop key)
  | .cancel id => some (w.cancel id).2

def Performed (w : Flights) (a : Act) (w' : Flights) : Prop := w.perform a = some w'

/-! ## A token for each, and each for its token -/

variable {w w' : Flights} {a : Act}

/-- The token of the session is that of an operation under way, and there is one while one could be
cancelled. -/
structure Tracked (w : Flights) : Prop where
  held : ∀ id t, w.sessions.slot id = some t → ∃ (key : Nat) (f : Flight), w.inFlight[key]? =
    some f ∧ f.session = id ∧ f.token = some t
  armed : ∀ (key : Nat) (f : Flight), w.inFlight[key]? = some f → f.token ≠ none →
    w.sessions.slot f.session ≠ none

theorem Tracked.sessions (h : w.Tracked) {s : Sessions}
    (hs : ∀ id, s.slot id = w.sessions.slot id) :
    Tracked { w with sessions := s } := by
  refine ⟨fun id t ht => ?_, fun key f hf ht => ?_⟩
  · rw [hs] at ht
    exact h.held id t ht
  · rw [hs]
    exact h.armed key f hf ht

/-- A request without a token can be put down again, and no token is lost. -/
theorem Tracked.held_insert (h : w.Tracked) {key id t : Nat}
    (hk : ∀ g, w.inFlight[key]? = some g → g.token = none) (f : Flight)
    (ht : w.sessions.slot id = some t) : ∃ (k : Nat) (g : Flight), (w.inFlight.insert key f)[k]? =
    some g ∧ g.session = id ∧ g.token = some t := by
  obtain ⟨k, g, hg, hid, htoken⟩ := h.held id t ht
  have hne : key ≠ k := by
    intro hkey
    subst hkey
    rw [hk g hg] at htoken
    cases htoken
  refine ⟨k, g, ?_, hid, htoken⟩
  rw [find_insert, if_neg hne]
  exact hg

theorem Tracked.insert (h : w.Tracked) {key : Nat} {f : Flight}
    (hk : ∀ g, w.inFlight[key]? = some g → g.token = none)
    (hf : f.token = none) : Tracked { w with inFlight := w.inFlight.insert key f } := by
  refine ⟨fun id t ht => ?_, fun k g hg ht => ?_⟩
  · exact h.held_insert hk f ht
  · rw [find_insert] at hg
    split at hg
    · cases hg
      exact absurd hf ht
    · exact h.armed k g hg ht

theorem Tracked.openStream (h : w.Tracked) {key : Nat} (hk : w.inFlight[key]? = none) (handle : Str)
    (guest : Bool) :
    (w.openStream key handle guest).Tracked := by
  have hs : ∀ id, (w.sessions.findByHandle handle).2.slot id = w.sessions.slot id :=
    fun id => Sessions.slot_findByHandle handle
  unfold Flights.openStream
  cases hfound : w.sessions.findByHandle handle with
  | mk found sessions =>
    rw [hfound] at hs
    cases found with
    | none => exact h.sessions hs
    | some found =>
      refine (h.sessions hs).insert (f := ⟨.stream guest, found.1, none⟩) ?_ ?_
      · intro g hg
        rw [hk] at hg
        cases hg
      · rfl

theorem Tracked.beginCancel (h : w.Tracked) {key : Nat} {f : Flight}
    (hk : ∀ g, w.inFlight[key]? = some g → g.token = none) :
    (w.beginCancel key f).Tracked := by
  unfold Flights.beginCancel
  dsimp only
  cases hb : (w.sessions.beginCancel f.session w.nextToken).1 with
  | none =>
    have hs : ∀ id, (w.sessions.beginCancel f.session w.nextToken).2.slot id = w.sessions.slot id := by
      intro id
      rw [Sessions.slot_beginCancel, hb]
      simp
    have hsame := (h.sessions hs).insert (f := { f with token := none }) hk rfl
    exact ⟨hsame.held, hsame.armed⟩
  | some t =>
    have ht := Sessions.beginCancel_token hb
    subst ht
    have hs : ∀ id, (w.sessions.beginCancel f.session w.nextToken).2.slot id =
        if f.session = id then some w.nextToken else w.sessions.slot id := by
      intro id
      rw [Sessions.slot_beginCancel, hb]
      simp
    refine ⟨fun id t ht => ?_, fun k g hg htoken => ?_⟩
    · dsimp only at ht
      rw [hs] at ht
      split at ht
      · cases ht
        exact ⟨key, { f with token := some w.nextToken }, ExtTreeMap.getElem?_insert_self,
          by assumption, rfl⟩
      · exact h.held_insert hk _ ht
    · dsimp only at hg ⊢
      rw [hs]
      split
      · simp
      · rw [find_insert] at hg
        split at hg
        · cases hg
          contradiction
        · exact h.armed k g hg htoken

/-- A guard drops while no other operation of the session has a token. -/
def Alone (w : Flights) (a : Act) : Prop :=
  ∀ (key : Nat) (f : Flight), a = .drop key → w.inFlight[key]? = some f →
    ∀ (k : Nat) (g : Flight), k ≠ key → w.inFlight[k]? = some g → g.session = f.session → g.token = none

instance (w : Flights) : (a : Act) → Decidable (w.Alone a)
  | .drop key =>
    decidable_of_iff (∀ f ∈ w.inFlight[key]?, ∀ e ∈ w.inFlight.toList, e.1 ≠ key →
      e.2.session = f.session → e.2.token = none) <| by
      refine ⟨fun h k f hkey hf i g hne hg hid => ?_, fun h f hf e he hne hid => ?_⟩
      · cases hkey
        exact h f hf (i, g) (ExtTreeMap.mem_toList_iff_getElem?_eq_some.mpr hg) hne hid
      · exact h key f rfl hf e.1 e.2 hne (ExtTreeMap.mem_toList_iff_getElem?_eq_some.mp he) hid
  | .stream _ _ _ | .poll _ | .compact _ _ | .cancel _ => .isTrue fun _ _ h => (by cases h)

theorem Tracked.drop (h : w.Tracked) {key : Nat} {f : Flight} (hf : w.inFlight[key]? = some f)
    (ha : w.Alone (.drop key)) :
    (w.drop key f).Tracked := by
  unfold Flights.drop
  refine ⟨fun id t ht => ?_, fun k g hg htoken => ?_⟩
  · dsimp only at ht
    rw [Sessions.slot_endCancel] at ht
    split at ht
    · cases ht
    · rename_i hid
      obtain ⟨k, g, hg, hgid, htoken⟩ := h.held id t ht
      have hne : key ≠ k := by
        intro hkey
        subst hkey
        rw [hf, Option.some.injEq] at hg
        exact hid (hg ▸ hgid)
      refine ⟨k, g, ?_, hgid, htoken⟩
      rw [find_erase, if_neg hne]
      exact hg
  · dsimp only at hg ⊢
    rw [find_erase] at hg
    split at hg
    · cases hg
    · rename_i hne
      have hother : g.session ≠ f.session := fun hid =>
          htoken (ha key f rfl hf k g (Ne.symm hne) hg hid)
      rw [Sessions.slot_endCancel, if_neg (Ne.symm hother)]
      exact h.armed k g hg htoken

theorem Tracked.perform (h : w.Tracked) (hp : w.Performed a w') (ha : w.Alone a) : w'.Tracked := by
  have hnew : ∀ {key : Nat}, w.inFlight[key]? = none → ∀ g, w.inFlight[key]? = some g →
      g.token = none := by
    intro key hk g hg
    rw [hk] at hg
    cases hg
  unfold Performed Flights.perform at hp
  cases a with
  | stream key handle guest =>
    dsimp only at hp
    split at hp
    · cases hp
      exact h.openStream (by assumption) handle guest
    · cases hp
  | poll key =>
    dsimp only at hp
    split at hp
    · split at hp
      · rename_i f hf hkind
        cases hp
        apply h.beginCancel
        intro g hg
        rw [hf, Option.some.injEq] at hg
        exact hg ▸ hkind.2
      · cases hp
    · cases hp
  -- looking the handle up leaves every slot as it is
  | compact key handle =>
    have hs : ∀ id, (w.sessions.findByHandle handle).2.slot id = w.sessions.slot id :=
      fun id => Sessions.slot_findByHandle handle
    dsimp only at hp
    split at hp
    · rename_i hk
      cases hp
      unfold compactConversation
      cases hfound : w.sessions.findByHandle handle with
      | mk found sessions =>
        rw [hfound] at hs
        cases found with
        | none => exact h.sessions hs
        | some found => exact (h.sessions hs).beginCancel (f := ⟨.compact, found.1, none⟩) (hnew hk)
    · cases hp
  | drop key =>
    obtain ⟨f, hf, rfl⟩ := Option.map_eq_some_iff.mp hp
    exact h.drop hf ha
  | cancel id =>
    cases hp
    unfold Flights.cancel
    split
    · exact ⟨h.held, h.armed⟩
    · exact h

/-! ## Cancelling -/

/-- While the session has something to cancel, a cancel fires the token of an operation
under way. -/
def Answers (w : Flights) (id : Nat) : Prop :=
  (∃ (key : Nat) (f : Flight), w.inFlight[key]? = some f ∧ f.session = id ∧ f.token ≠ none) →
    ∃ (key : Nat) (f : Flight) (t : Nat), w.inFlight[key]? = some f ∧ f.session = id ∧
    f.token = some t ∧
      (w.cancel id).1 = .ok () ∧ (w.cancel id).2.fired = t :: w.fired

/-- The end of one operation leaves the token of every other where it is. -/
def Spares (w : Flights) (a : Act) (w' : Flights) : Prop :=
  ∀ key, a = .drop key → ∀ (k : Nat) (f : Flight) (t : Nat), k ≠ key → w.inFlight[k]? = some f →
    f.token = some t →
    w.sessions.slot f.session = some t → w'.sessions.slot f.session = some t

theorem cancel_slot {id t : Nat} (h : w.sessions.slot id = some t) :
    w.cancel id = (.ok (), { w with fired := t :: w.fired }) := by
  have hc := w.sessions.cancel_eq id
  rw [h] at hc
  unfold cancel
  cases hs : w.sessions.cancel id with
  | error e =>
    rw [hs] at hc
    cases hc
  | ok token =>
    rw [hs] at hc
    cases hc
    rfl

theorem cancel_empty {id : Nat} (h : w.sessions.slot id = none) : (w.cancel id).1 ≠ .ok () := by
  have hc := w.sessions.cancel_eq id
  rw [h] at hc
  unfold cancel
  cases hs : w.sessions.cancel id with
  | error e => simp
  | ok token =>
    rw [hs] at hc
    cases hc

theorem Tracked.answers (h : w.Tracked) (id : Nat) : w.Answers id := by
  intro ⟨key, f, hf, hid, htoken⟩
  obtain ⟨t, ht⟩ := Option.ne_none_iff_exists'.mp (hid ▸ h.armed key f hf htoken)
  obtain ⟨k, g, hg, hgid, hgt⟩ := h.held id t ht
  rw [cancel_slot ht]
  exact ⟨k, g, t, hg, hgid, hgt, rfl, rfl⟩

theorem spares_of_alone (hp : w.Performed a w') (ha : w.Alone a) : w.Spares a w' := by
  intro key hkey k g t hne hg ht hslot
  subst hkey
  obtain ⟨f, hf, rfl⟩ := Option.map_eq_some_iff.mp hp
  have hother : g.session ≠ f.session := by
    intro hid
    rw [ha key f rfl hf k g hne hg hid] at ht
    cases ht
  unfold drop
  rw [Sessions.slot_endCancel, if_neg (Ne.symm hother)]
  exact hslot

/-- A guard that drops beside another operation's token leaves that one without. -/
theorem alone_of_answers (hp : w.Performed a w') (h : ∀ id, w'.Answers id) : w.Alone a := by
  intro key f hkey hf k g hne hg hid
  subst hkey
  unfold Performed perform at hp
  simp only [hf, Option.map_some, Option.some.injEq] at hp
  subst hp
  by_contra htoken
  have hslot : (w.drop key f).sessions.slot f.session = none := by
    unfold drop
    rw [Sessions.slot_endCancel, if_pos rfl]
  have hkept : (w.drop key f).inFlight[k]? = some g := by
    unfold drop
    rw [find_erase, if_neg (Ne.symm hne)]
    exact hg
  obtain ⟨_, _, _, -, -, -, hcancel, -⟩ := h f.session ⟨k, g, hkept, hid, htoken⟩
  exact cancel_empty hslot hcancel

/-- Nothing is in flight and no token is left over. -/
def Idle (w : Flights) : Prop := w.inFlight = ∅ ∧ ∀ id, w.sessions.slot id = none

theorem Idle.tracked (h : w.Idle) : w.Tracked := by
  refine ⟨fun id t ht => ?_, fun key f hf => ?_⟩
  · rw [h.2 id] at ht
    cases ht
  · rw [h.1, ExtTreeMap.getElem?_empty] at hf
    cases hf

theorem cancel_reaches (h : Reachable Idle (fun w a w' => w.Performed a w' ∧ w.Alone a) w) :
    (∀ id, w.Answers id) ∧ ∀ a w', w.Performed a w' →
    (w.Alone a ↔ (∀ id, w'.Answers id) ∧ w.Spares a w') := by
  have htracked : w.Tracked := h.invariant (fun _ h₀ => h₀.tracked) fun _ _ _ hi hs =>
      hi.perform hs.1 hs.2
  refine ⟨htracked.answers, fun a w' hp => ⟨fun ha => ?_, fun hw => ?_⟩⟩
  · exact ⟨(htracked.perform hp ha).answers, spares_of_alone hp ha⟩
  · exact alone_of_answers hp hw.1

def opened (id : Nat) (handle : Str) : Flights :=
  ⟨(Sessions.new none).insert ⟨fun _ => 1, fun _ => none⟩ id handle 0 0, ∅, 0, []⟩

theorem idle_opened (id : Nat) (handle : Str) : (opened id handle).Idle := by
  refine ⟨rfl, fun i => ?_⟩
  have hmap : (opened id handle).sessions.registry.byId = (∅ : ExtTreeMap Nat Live).insert id
      ⟨handle, 0, none, 0, 0⟩ := rfl
  unfold Sessions.slot
  rw [hmap, find_insert]
  split
  · rfl
  · rw [ExtTreeMap.getElem?_empty]
    rfl

/-- A turn, and after it a compaction, cancelled while it runs. -/
theorem cancel_reaches_instance : ∃ w : Flights, w.sessions.slot 7 = some 1 ∧
    ∃ (key : Nat) (f : Flight) (t : Nat), w.inFlight[key]? = some f ∧ f.session = 7 ∧
    f.token = some t ∧
      (w.cancel 7).1 = .ok () ∧ (w.cancel 7).2.fired = t :: w.fired := by
  let acts : List Act := [.stream 0 ['a'] false, .poll 0, .drop 0, .compact 1 ['a']]
  have h₀ : Reachable Idle (fun w a w' => w.Performed a w' ∧ w.Alone a) (opened 7 ['a']) :=
    .first (idle_opened 7 ['a'])
  obtain ⟨w, hr, hslot, hflight⟩ := h₀.exists_careful_run (l := acts) (f := perform) (C := Alone)
    (P := fun w => w.sessions.slot 7 = some 1 ∧ w.inFlight[1]? = some ⟨.compact, 7, some 1⟩)
      (fun _ _ _ hp hc => ⟨hp, hc⟩) (by decide +kernel)
  exact ⟨w, hslot, (cancel_reaches hr).1 7 ⟨1, _, hflight, rfl, by simp⟩⟩

/-- A guest's turn that ends beside a stream takes the stream's token along. -/
theorem guest_takes_token : ∃ w, Reachable Idle Performed w ∧ ¬ w.Answers 7 := by
  let acts : List Act := [.stream 0 ['a'] false, .poll 0, .stream 1 ['a'] true, .drop 1]
  have h₀ : Reachable Idle Performed (opened 7 ['a']) := .first (idle_opened 7 ['a'])
  obtain ⟨w, hr, hslot, hflight⟩ := h₀.exists_run (l := acts) (f := perform)
    (P := fun w => w.sessions.slot 7 = none ∧ w.inFlight[0]? = some ⟨.stream false, 7, some 0⟩)
      (fun _ _ _ hp => hp) (by decide +kernel)
  refine ⟨w, hr, fun h => ?_⟩
  obtain ⟨_, _, _, -, -, -, hcancel, -⟩ := h ⟨0, _, hflight, rfl, by simp⟩
  exact cancel_empty hslot hcancel

end Flights

end Crabtalk.Runtime

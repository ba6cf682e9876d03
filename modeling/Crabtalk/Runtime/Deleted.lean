import Crabtalk.Runtime.World
import Crabtalk.Store.Spared

/-! # Deleting a session that is live

A deletion works on the store while turns of a live session go on. Requests
take turns at the store, operation by operation; one turn at a time holds the
session. When a turn writes its record where none is stored, the session is
back without anyone having created it.
-/

open Basis
open Crabtalk.Store

namespace Crabtalk.Runtime

variable {μ : Type}

/-! ## Turns, as far as the store goes -/

def Asked.turn : Asked μ → Option (Turn μ)
  | .own content sender (.done pushed trace) => some (.own content sender pushed trace)
  | .guest content sender _ (.done primary name text reasoning) =>
    some (.guest content sender primary name text reasoning)
  | _ => none

def Asked.batch [Wire μ] (preprocess : AgentId → Str → Option Str) (s : Session μ) (t : Asked μ) :
    List (HistoryEntry μ) :=
  match t.turn with
  | some u => u.entry preprocess s :: u.pushed.filter fun e => !e.autoInjected
  | none => []

section
variable [TextStd] [Wire μ] {F : Prop} {s : Session μ} {h : Str} {kv : Kv μ}
  {preprocess : AgentId → Str → Option Str}

theorem asks_finalizeRun (hh : s.handle = some h) (n : Nat) (trace : List EventLine)
    (now later : Str) :
    Prog.Asks True memory WellTyped (TurnOp h) (finalizeRun s n trace now later) := by
  have hupdate : Prog.Asks True memory WellTyped (TurnOp h) (do
      let _ ← (updateSessionMeta h (s.sessionMeta later)).attempt : KvM μ Unit) :=
    (asks_updateSessionMeta _).attempt.bind fun _ => trivial
  have hevents : Prog.Asks True memory WellTyped (TurnOp h)
      (appendSessionEvents h trace : KvM μ Unit) :=
    (asks_appendSessionEvents trace).mono (fun _ ht => ht) fun _ => EventOp.turn
  unfold finalizeRun
  rw [hh]
  dsimp only
  cases newEntries s.history n with
  | none => trivial
  | some entries =>
    refine (asks_appendSessionMessages entries now).attempt.bind fun _ => ?_
    split
    · exact hupdate
    · exact hevents.attempt.bind fun _ => hupdate

/-- With the record there and nobody deleting, the tail of a run stores its batch unless the store fails. -/
theorem spared_finalizeRun (hh : s.handle = some h) {n : Nat} {entries : List (HistoryEntry μ)}
    (hn : newEntries s.history n = some entries)
    (hne : entries ≠ []) (hs : WellTyped kv) (trace : List EventLine) (now later : Str) :
    Spared F h (finalizeRun s n trace now later) (fun _ kv' => F ∨ Placed h entries kv')
    (fun _ kv' => F ∨ Placed h entries kv') kv := by
  have hkept : ∀ {α : Type} {p : KvM μ α} {kv₁ : Kv μ}, Spared F h p (fun _ _ => True)
      (fun _ _ => True) kv₁ → WellTyped kv₁ →
      F ∨ Placed h entries kv₁ → Spared F h p (fun _ kv' => WellTyped kv' ∧
        (F ∨ Placed h entries kv'))
        (fun _ kv' => WellTyped kv' ∧ (F ∨ Placed h entries kv')) kv₁ := by
    intro α p kv₁ hp ht hor
    have hframe := hp.frame (J := fun kv' => WellTyped kv' ∧ (F ∨ Placed h entries kv'))
      (fun _ _ ha hj => ⟨ha.typed hj.1, hj.2.imp_right (Placed.aside ha)⟩)
        (fun _ _ hg hj => ⟨hg.typed hj.1, hj.2.imp_right (hg.placed entries)⟩)
      ⟨ht, hor⟩
    exact hframe.mono (fun _ _ h₁ => h₁.2) fun _ _ h₁ => h₁.2
  -- behind the append nothing touches the batch, whatever else fails
  have hupdate : ∀ kv₁, WellTyped kv₁ ∧ (F ∨ Placed h entries kv₁) → Spared F h (do
      let _ ← (updateSessionMeta h (s.sessionMeta later)).attempt : KvM μ Unit)
          (fun _ kv' => F ∨ Placed h entries kv')
        (fun _ kv' => F ∨ Placed h entries kv') kv₁ := by
    intro kv₁ h₁
    apply Prog.rely_bind
    apply Prog.rely_attempt
    refine (hkept (spared_updateSessionMeta _ h₁.1) h₁.1 h₁.2).mono (fun _ kv₂ h₂ => ?_)
      fun _ kv₂ h₂ => ?_
    · exact fun kv₃ ha => h₂.2.imp_right (Placed.aside ha)
    · exact fun kv₃ ha => h₂.2.imp_right (Placed.aside ha)
  have hrest : ∀ kv₁, WellTyped kv₁ ∧ (F ∨ Placed h entries kv₁) → Spared F h (do
      if trace.isEmpty then pure ()
      else let _ ← (appendSessionEvents h trace).attempt
      let _ ← (updateSessionMeta h (s.sessionMeta later)).attempt : KvM μ Unit)
          (fun _ kv' => F ∨ Placed h entries kv')
        (fun _ kv' => F ∨ Placed h entries kv') kv₁ := by
    intro kv₁ h₁
    dsimp only
    split
    · exact hupdate kv₁ h₁
    · apply Prog.rely_bind
      apply Prog.rely_attempt
      exact (hkept (spared_appendSessionEvents trace h₁.1) h₁.1 h₁.2).mono (fun _ => hupdate)
        fun _ => hupdate
  unfold finalizeRun
  rw [hh]
  dsimp only
  rw [hn]
  apply Prog.rely_bind
  apply Prog.rely_attempt
  have happend : Spared F h (appendSessionMessages h entries now) (fun _ => Placed h entries)
      (fun _ _ => F) kv :=
    spared_appendSessionMessages hne now hs
  refine (happend.frame (J := WellTyped) (fun _ _ ha => ha.typed) (fun _ _ hg => hg.typed) hs).mono
    (fun _ kv₁ h₁ => ?_) fun _ kv₁ h₁ => ?_
  · exact hrest kv₁ ⟨h₁.2, .inr h₁.1⟩
  · exact hrest kv₁ ⟨h₁.2, .inl h₁.1⟩

def replied (p : KvM μ (Session μ × Ended)) : KvM μ Ended := do
  let r ← p
  return r.2

theorem asks_asked (hh : s.handle = some h) (t : Asked μ) (now later : Str) :
    Prog.Asks True memory WellTyped (TurnOp h) (replied (t.exec preprocess s now later)) := by
  have hfinal : ∀ (s' : Session μ) n trace, s'.handle = some h →
      Prog.Asks True memory WellTyped (TurnOp h) (finalizeRun s' n trace now later).attempt :=
      fun s' n trace hs' =>
    (asks_finalizeRun hs' n trace now later).attempt
  refine Prog.Asks.bind ?_ fun _ => trivial
  cases t with
  | own content sender run =>
    cases run with
    | done pushed trace =>
      refine (hfinal _ _ _ ?_).bind fun r => ?_
      · exact hh
      · cases r <;> trivial
    | _ => trivial
  | guest content sender id run =>
    cases run with
    | done primary name text reasoning =>
      refine (hfinal _ _ _ ?_).bind fun r => ?_
      · exact hh
      · cases r <;> trivial
    | _ => trivial

theorem spared_asked (hs : Lived preprocess s) (hh : s.handle = some h) {t : Asked μ}
    (hskip : ∀ u, t.turn = some u → ¬ u.Skips s)
    (ht : WellTyped kv) (now later : Str) : Spared F h (replied (t.exec preprocess s now later))
      (fun r kv' => F ∨ (r = .answered → Placed h (t.batch preprocess s) kv'))
      (fun _ _ => True) kv := by
  -- a turn that comes to an end does so through `finalizeRun`
  have hfinal : ∀ (u : Turn μ) trace {reply : Except Error Unit → KvM μ (Session μ × Ended)},
      t.turn = some u →
      (u.after preprocess s).handle = some h →
      reply (.ok ()) = pure (u.after preprocess s, .answered) →
      (∀ e, reply (.error e) = pure (u.after preprocess s, .refused e)) →
      Spared F h (replied ((finalizeRun (u.after preprocess s) s.history.length trace now
        later).attempt >>= reply))
        (fun r kv' => F ∨ (r = .answered → Placed h (t.batch preprocess s) kv'))
          (fun _ _ => True) kv := by
    intro u trace reply hu hafter hok herror
    have hb : t.batch preprocess s = u.entry preprocess s :: u.pushed.filter fun e =>
        !e.autoInjected := by
      unfold Asked.batch
      rw [hu]
    have hn : newEntries (u.after preprocess s).history s.history.length =
        some (t.batch preprocess s) := by
      rw [hb]
      exact newEntries_after hs.framings_le u (hskip u hu)
    apply Prog.rely_bind
    apply Prog.rely_bind
    apply Prog.rely_attempt
    refine (spared_finalizeRun hafter hn (by rw [hb]; simp) ht trace now later).mono
      (fun _ kv₁ h₁ => ?_) fun _ kv₁ h₁ => ?_
    · rw [hok]
      exact fun kv₂ ha₂ kv₃ ha₃ => h₁.imp_right fun hp _ => (hp.aside ha₂).aside ha₃
    · rw [herror]
      exact fun kv₂ ha₂ kv₃ ha₃ => .inr fun he => by cases he
  cases t with
  | own content sender run =>
    cases run with
    | done pushed trace =>
      exact hfinal (.own content sender pushed trace) trace rfl hh rfl fun _ => rfl
    | _ => exact fun kv₂ _ => .inr fun he => by cases he
  | guest content sender id run =>
    cases run with
    | done primary name text reasoning =>
      exact hfinal (.guest content sender primary name text reasoning) [] rfl hh rfl fun _ => rfl
    | _ => exact fun kv₂ _ => .inr fun he => by cases he

end

/-! ## Deletions and creations -/

section
variable {h : Str} {kv kv' : Kv μ}

def answering {α : Type} (p : KvM μ α) : KvM μ Ended := do
  let _ ← p
  return .answered

theorem asks_answering {α : Type} {P : KvOp μ → Prop} {p : KvM μ α}
    (hp : Prog.Asks True memory WellTyped P p) :
    Prog.Asks True memory WellTyped P (answering p) := hp.bind fun _ => trivial

theorem alone_answering {α : Type} {p : KvM μ α} (hp : Alone h p (fun _ kv => ¬ Held h kv) kv) :
    Alone h (answering p) (fun r kv => r = .answered → ¬ Held h kv) kv := by
  apply Prog.rely_bind
  exact hp.mono (fun _ kv₁ hn kv₂ h₂ _ => h₂.absent hn) fun _ _ _ => trivial

theorem asks_deleteConversation :
    Prog.Asks True memory WellTyped PurgeOp (deleteConversation h : KvM μ Unit) := by
  unfold deleteConversation
  refine asks_deleteSession.bind fun b => ?_
  cases b <;> trivial

theorem alone_deleteConversation (ht : WellTyped kv) :
    Alone h (deleteConversation h) (fun _ kv => ¬ Held h kv) kv := by
  unfold deleteConversation
  apply Prog.rely_bind
  refine (alone_deleteSession ht).mono (fun b kv₁ hn => ?_) fun _ _ _ => trivial
  cases b with
  | true => exact fun kv₂ h₂ => h₂.absent hn
  | false => exact fun kv₂ _ => trivial

/-- The first operation of a purge lists what it will delete. -/
theorem step_deleteSessionsOf {agent : AgentId} {rest : KvM μ Ended}
    (hs : Prog.Step False memory (answering (deleteSessionsOf agent)) kv rest kv') :
    rest = answering (deleteAll (rowHandles (some agent) kv) 0) ∧ kv' = kv := by
  have hcall : answering (deleteSessionsOf agent : KvM μ Nat) =
      .call (.scan .session (indexPrefix (some agent))) fun r =>
      answering (((Prog.ofExcept r).bind fun rows =>
        Prog.done (rows.filterMap fun row => row.2.asRaw)).bind fun handles =>
        deleteAll handles 0) := rfl
  rw [hcall] at hs
  have hrows : rowHandles (some agent) kv =
      ((kv.under .session (indexPrefix (some agent))).map fun e => (e.1.2, e.2)).filterMap
      fun row => row.2.asRaw := by
    rw [List.filterMap_map]
    rfl
  rw [hrows]
  cases hs with
  | ok ho =>
    cases ho
    exact ⟨rfl, rfl⟩
  | error ho => cases ho
  | fault e hf => exact hf.elim

end

/-! ## Requests at the store -/

/-- What a request under way is: a turn, spared while no deletion is, and struck once the store
failed it; a deletion, alone while no creation is; a creation. -/
inductive Errand (μ : Type)
  | turn (batch : List (HistoryEntry μ)) (spared struck : Bool)
  | deletion (alone : Bool)
  | creation

structure Task (μ : Type) where
  errand : Errand μ
  rest : KvM μ Ended

namespace Errand

def deleting : Errand μ → Errand μ
  | turn batch _ struck => turn batch false struck
  | e => e

def creating : Errand μ → Errand μ
  | deletion _ => deletion false
  | e => e

def fail : Errand μ → Errand μ
  | turn batch spared _ => turn batch spared true
  | e => e

def IsTurn : Errand μ → Prop
  | turn .. => True
  | _ => False

def IsDeletion : Errand μ → Prop
  | deletion _ => True
  | _ => False

end Errand

/-- The store, who is at it, whether the session was deleted and not created again, and the batches
of the turns that were answered since the last deletion began. -/
structure Scene (μ : Type) where
  kv : Kv μ
  tasks : Nat → Option (Task μ)
  gone : Bool
  saved : List (List (HistoryEntry μ))

namespace Scene

def put (w : Scene μ) (i : Nat) (task : Option (Task μ)) : Scene μ :=
  { w with tasks := Function.update w.tasks i task }

def change (w : Scene μ) (f : Errand μ → Errand μ) : Scene μ :=
  { w with tasks := fun i => (w.tasks i).map fun task => ⟨f task.errand, task.rest⟩ }

def ended (w : Scene μ) : Errand μ → Ended → Scene μ
  | .turn batch true false, .answered => { w with saved := batch :: w.saved }
  | .deletion true, .answered => { w with gone := true }
  | _, _ => w

end Scene

/-- What a step may depend on: a turn that is asked for, or an operation that is performed. -/
inductive Move (μ : Type)
  | ask (s : Session μ) (t : Asked μ)
  | perform (e : Errand μ) (o : KvOp μ)

section
variable [TextStd] [Wire μ]

/-- Scenes reached while requests for `h` are made and take turns at the store. -/
inductive Reaches (preprocess : AgentId → Str → Option Str) (h : Str)
    (cond : Kv μ → Move μ → Prop) : Scene μ → Prop
  | empty : Reaches preprocess h cond ⟨∅, fun _ => none, false, []⟩
  | asked {w : Scene μ} {s : Session μ} (i : Nat) (t : Asked μ) (now later : Str) (spared : Bool) :
      Reaches preprocess h cond w →
      w.tasks i = none → (∀ j task, w.tasks j = some task → ¬ task.errand.IsTurn) →
      (spared = true ↔ ∀ j task, w.tasks j = some task → ¬ task.errand.IsDeletion) →
      Lived preprocess s → s.handle = some h →
      cond w.kv (.ask s t) → Reaches preprocess h cond
        (w.put i (some ⟨.turn (t.batch preprocess s) spared false,
          replied (t.exec preprocess s now later)⟩))
  | deletes {w : Scene μ} (i : Nat) (alone : Bool) : Reaches preprocess h cond w →
      w.tasks i = none →
      (alone = true ↔ ∀ j task, w.tasks j = some task → task.errand ≠ .creation) →
      Reaches preprocess h cond
        { (w.change .deleting).put i (some ⟨.deletion alone, answering (deleteConversation h)⟩) with saved := [] }
  | purges {w : Scene μ} {rest : KvM μ Ended} {kv' : Kv μ} (i : Nat) (agent : AgentId)
      (alone : Bool) : Reaches preprocess h cond w →
      w.tasks i = none → (alone = true ↔ ∀ j task, w.tasks j = some task →
        task.errand ≠ .creation) → h ∈ rowHandles (some agent) w.kv →
      Prog.Step False memory (answering (deleteSessionsOf agent)) w.kv rest kv' →
        Reaches preprocess h cond
        { (w.change .deleting).put i (some ⟨.deletion alone, rest⟩) with kv := kv', saved := [] }
  | creates {w : Scene μ} (i : Nat) (agent : AgentId) (createdBy : Str) (root : Option Str)
      (now : Str) : Reaches preprocess h cond w →
      w.tasks i = none → Reaches preprocess h cond
        { (w.change .creating).put i
            (some ⟨.creation, answering (createSession h agent createdBy root now)⟩) with
          gone := false }
  | performed {w : Scene μ} {e : Errand μ} {o : KvOp μ} {k : Except Error o.Reply → KvM μ Ended}
      {a : o.Reply} {kv' : Kv μ} (i : Nat) :
      Reaches preprocess h cond w → w.tasks i = some ⟨e, .call o k⟩ → cond w.kv (.perform e o) →
      memory o w.kv = .ok a kv' →
      Reaches preprocess h cond { w.put i (some ⟨e, k (.ok a)⟩) with kv := kv' }
  | failed {w : Scene μ} {e : Errand μ} {o : KvOp μ} {k : Except Error o.Reply → KvM μ Ended}
      (i : Nat) (error : Error) :
      Reaches preprocess h cond w → w.tasks i = some ⟨e, .call o k⟩ →
      Reaches preprocess h cond (w.put i (some ⟨e.fail, k (.error error)⟩))
  | ended {w : Scene μ} {e : Errand μ} {r : Ended} (i : Nat) : Reaches preprocess h cond w →
      w.tasks i = some ⟨e, .done r⟩ →
      Reaches preprocess h cond ((w.put i none).ended e r)
  | dropped {w : Scene μ} (i : Nat) : Reaches preprocess h cond w →
      Reaches preprocess h cond (w.put i none)
  | elsewhere {w : Scene μ} {kv' : Kv μ} : Reaches preprocess h cond w → Aside h w.kv kv' →
      Stays h w.kv kv' →
      Reaches preprocess h cond { w with kv := kv' }

end

/-- A turn does not skip its user message and finds the record where it works on it; a record is
created where none is. -/
def Mindful (h : Str) (kv : Kv μ) : Move μ → Prop
  | .ask s t => ∀ u, t.turn = some u → ¬ u.Skips s
  | .perform (.turn ..) o => Finds h o kv
  | .perform .creation (.put col k _) => col = .session → k = metaKey h → ¬ Held h kv
  | .perform _ _ => True

/-- The messages are stored one behind the other, and loading the session brings them. -/
def Retrievable (h : Str) (b : List (HistoryEntry μ)) (kv : Kv μ) : Prop :=
  Placed h b kv ∧ ∃ c, answer (loadSession h) kv = .ok (some c) ∧ ∀ e ∈ b, e.persist ∈ c.history

/-! ## What a request under way keeps -/

section
variable {h : Str} {kv kv' : Kv μ} {w : Scene μ}

def Task.Sound (h : Str) (kv : Kv μ) : Task μ → Prop
  | ⟨.turn batch spared struck, p⟩ => Prog.Asks True memory WellTyped (TurnOp h) p ∧
    (spared = true → Spared True h p (fun _ _ => True) (fun _ _ => True) kv ∧
      (struck = false → Spared False h p (fun r kv => r = .answered → Placed h batch kv)
        (fun _ _ => True) kv))
  | ⟨.deletion alone, p⟩ => Prog.Asks True memory WellTyped PurgeOp p ∧
    (alone = true → Alone h p (fun r kv => r = .answered → ¬ Held h kv) kv)
  | ⟨.creation, p⟩ => Prog.Asks True memory WellTyped (CreateOp h) p

def Does (h : Str) : Errand μ → Kv μ → Kv μ → Prop
  | .turn _ spared _, kv, kv' => Stays h kv kv' ∧ (spared = true → Guards h kv kv')
  | .deletion _, kv, kv' => Stays h kv kv'
  | .creation, kv, kv' => Aside h kv kv'

def Bears (h : Str) : Errand μ → Kv μ → Kv μ → Prop
  | .turn _ spared _, kv, kv' => spared = true → Aside h kv kv'
  | .deletion alone, kv, kv' => alone = true → Stays h kv kv'
  | .creation, _, _ => True

/-- Which requests are under way beside one another. -/
def Abides : Errand μ → Errand μ → Prop
  | .turn .., .turn .. => False
  | .turn _ spared _, .deletion _ => spared = false
  | .deletion _, .turn _ spared _ => spared = false
  | .deletion alone, .creation => alone = false
  | .creation, .deletion alone => alone = false
  | _, _ => True

/-- What is known of the scene while it is under way. -/
def Suits (w : Scene μ) : Errand μ → Prop
  | .turn _ spared _ => spared = false → w.saved = []
  | .deletion _ => w.saved = []
  | .creation => w.gone = false

theorem Does.bears {e e' : Errand μ} (hd : Does h e kv kv') (ha : Abides e e') :
    Bears h e' kv kv' := by
  cases e with
  | turn batch spared struck =>
    cases e' with
    | turn batch' spared' struck' => exact ha.elim
    | deletion alone => exact fun _ => hd.1
    | creation => trivial
  | deletion alone =>
    cases e' with
    | turn batch' spared' struck' =>
      intro hs
      rw [hs] at ha
      cases ha
    | deletion alone' => exact fun _ => hd
    | creation => trivial
  | creation =>
    cases e' with
    | turn batch' spared' struck' => exact fun _ => hd
    | deletion alone =>
      intro hs
      rw [hs] at ha
      cases ha
    | creation => trivial

theorem Task.Sound.stable {task : Task μ} (hs : task.Sound h kv) (hb : Bears h task.errand kv kv') :
    task.Sound h kv' := by
  obtain ⟨e, p⟩ := task
  cases e with
  | turn batch spared struck =>
    refine ⟨hs.1, fun hsp => ?_⟩
    obtain ⟨h₁, h₂⟩ := hs.2 hsp
    exact ⟨h₁.stable (hb hsp), fun hst => (h₂ hst).stable (hb hsp)⟩
  | deletion alone => exact ⟨hs.1, fun hal => (hs.2 hal).stable (hb hal)⟩
  | creation => exact hs

/-! ## One operation -/

theorem Task.Sound.performed {e : Errand μ} {o : KvOp μ} {k : Except Error o.Reply → KvM μ Ended}
    {a : o.Reply}
    (hs : Task.Sound h kv ⟨e, .call o k⟩) (hc : Mindful h kv (.perform e o)) (ht : WellTyped kv)
    (ho : memory o kv = .ok a kv') :
    WellTyped kv' ∧ Does h e kv kv' ∧ Task.Sound h kv' ⟨e, k (.ok a)⟩ := by
  have hwp : ∀ {Q : Kv μ → Prop}, Basis.wp (memory o) (fun _ => Q) (fun _ => Q) kv → Q kv' := by
    intro Q hq
    unfold Basis.wp at hq
    rw [ho] at hq
    exact hq
  cases e with
  | turn batch spared struck =>
    have hfinds : Finds h o kv := hc
    have hstays : Stays h kv kv' := hwp (TurnOp.stays hs.1.1 hfinds)
    refine ⟨hstays.typed ht, ⟨hstays, fun hsp => ?_⟩, hs.1.performed ht ho, fun hsp => ?_⟩
    · exact ((hs.2 hsp).1.performed hfinds ho).1
    · obtain ⟨h₁, h₂⟩ := hs.2 hsp
      exact ⟨(h₁.performed hfinds ho).2, fun hst => ((h₂ hst).performed hfinds ho).2⟩
  | deletion alone =>
    have hstays : Stays h kv kv' := hwp (PurgeOp.stays hs.1.1)
    exact ⟨hstays.typed ht, hstays, hs.1.performed ht ho,
      fun hal => ((hs.2 hal).performed trivial ho).2⟩
  | creation =>
    have haside : Aside h kv kv' := by
      refine hwp (CreateOp.aside hs.1 fun col k v he => ?_)
      subst he
      exact hc
    exact ⟨haside.typed ht, haside, Prog.Asks.performed hs ht ho⟩

theorem Task.Sound.failed {e : Errand μ} {o : KvOp μ} {k : Except Error o.Reply → KvM μ Ended}
    (hs : Task.Sound h kv ⟨e, .call o k⟩)
    (error : Error) : Task.Sound h kv ⟨e.fail, k (.error error)⟩ := by
  cases e with
  | turn batch spared struck =>
    refine ⟨hs.1.2.2 trivial error, fun hsp => ⟨(hs.2 hsp).1.failed trivial error, fun hst => ?_⟩⟩
    cases hst
  | deletion alone => exact ⟨hs.1.2.2 trivial error, fun hal => (hs.2 hal).failed trivial error⟩
  | creation => exact hs.2.2 trivial error

end

/-! ## Every step -/

structure Scene.Kept (h : Str) (w : Scene μ) : Prop where
  typed : WellTyped w.kv
  gone : w.gone = true → ¬ Held h w.kv
  saved : ∀ b ∈ w.saved, Placed h b w.kv
  beside : ∀ i j t u, i ≠ j → w.tasks i = some t → w.tasks j = some u → Abides t.errand u.errand
  suits : ∀ i t, w.tasks i = some t → Suits w t.errand
  sound : ∀ i t, w.tasks i = some t → t.Sound h w.kv

section
variable {h : Str} {kv' : Kv μ} {w : Scene μ}

theorem Abides.symm {e e' : Errand μ} (ha : Abides e e') : Abides e' e := by
  cases e <;> cases e' <;> exact ha

theorem Scene.put_tasks {task : Option (Task μ)} {i j : Nat} {u : Task μ}
    (hj : (w.put i task).tasks j = some u) :
    j = i ∧ task = some u ∨ j ≠ i ∧ w.tasks j = some u := by
  unfold Scene.put at hj
  dsimp only at hj
  by_cases hij : j = i
  · subst hij
    rw [Function.update_self] at hj
    exact .inl ⟨rfl, hj⟩
  · rw [Function.update_of_ne hij] at hj
    exact .inr ⟨hij, hj⟩

theorem Scene.drop_tasks {i j : Nat} {u : Task μ} (hj : (w.put i none).tasks j = some u) :
    j ≠ i ∧ w.tasks j = some u :=
  (Scene.put_tasks hj).resolve_left fun h => by cases h.2

theorem Scene.Kept.drop (hw : w.Kept h) (i : Nat) : (w.put i none).Kept h :=
  ⟨hw.typed, hw.gone, hw.saved, fun j k t u hne hj hk => hw.beside j k t u hne
    (Scene.drop_tasks hj).2 (Scene.drop_tasks hk).2,
    fun j t hj => hw.suits j t (Scene.drop_tasks hj).2, fun j t hj =>
    hw.sound j t (Scene.drop_tasks hj).2⟩

theorem Scene.Kept.put (hw : w.Kept h) (i : Nat) {task : Task μ}
    (hbeside : ∀ j u, j ≠ i → w.tasks j = some u → Abides task.errand u.errand)
    (hsuits : Suits w task.errand) (hsound : task.Sound h w.kv) :
    (w.put i (some task)).Kept h := by
  refine ⟨hw.typed, hw.gone, hw.saved, fun j k t u hne hj hk => ?_, fun j t hj => ?_,
    fun j t hj => ?_⟩
  · rcases Scene.put_tasks hj with ⟨rfl, ht⟩ | ⟨hji, hj'⟩
    · cases ht
      rcases Scene.put_tasks hk with ⟨rfl, -⟩ | ⟨hki, hk'⟩
      · exact absurd rfl hne
      · exact hbeside k u hki hk'
    · rcases Scene.put_tasks hk with ⟨rfl, hu⟩ | ⟨-, hk'⟩
      · cases hu
        exact (hbeside j t hji hj').symm
      · exact hw.beside j k t u hne hj' hk'
  · rcases Scene.put_tasks hj with ⟨-, ht⟩ | ⟨-, hj⟩
    · cases ht
      exact hsuits
    · exact hw.suits j t hj
  · rcases Scene.put_tasks hj with ⟨-, ht⟩ | ⟨-, hj⟩
    · cases ht
      exact hsound
    · exact hw.sound j t hj

theorem Scene.Kept.store (hw : w.Kept h) (ht : WellTyped kv') (hgone : w.gone = true → ¬ Held h kv')
    (hsaved : ∀ b ∈ w.saved, Placed h b kv')
    (hb : ∀ j u, w.tasks j = some u → Bears h u.errand w.kv kv') :
    Scene.Kept h { w with kv := kv' } :=
  ⟨ht, hgone, hsaved, hw.beside, hw.suits, fun j u hj => (hw.sound j u hj).stable (hb j u hj)⟩

theorem Scene.change_tasks {f : Errand μ → Errand μ} {i : Nat} {t : Task μ}
    (hi : (w.change f).tasks i = some t) :
    ∃ u, w.tasks i = some u ∧ t = ⟨f u.errand, u.rest⟩ := by
  unfold Scene.change at hi
  dsimp only at hi
  obtain ⟨u, hu, rfl⟩ := Option.map_eq_some_iff.mp hi
  exact ⟨u, hu, rfl⟩

theorem Scene.Kept.deleting (hw : w.Kept h) :
    Scene.Kept h { w.change .deleting with saved := [] } := by
  refine ⟨hw.typed, hw.gone, fun b hb => absurd hb List.not_mem_nil, fun i j t u hne hi hj => ?_,
    fun i t hi => ?_, fun i t hi => ?_⟩
  · obtain ⟨t, ht, rfl⟩ := Scene.change_tasks hi
    obtain ⟨u, hu, rfl⟩ := Scene.change_tasks hj
    have ha := hw.beside i j t u hne ht hu
    obtain ⟨e, p⟩ := t
    obtain ⟨e', p'⟩ := u
    cases e <;> cases e' <;> first | exact ha | rfl
  · obtain ⟨t, ht, rfl⟩ := Scene.change_tasks hi
    have hs := hw.suits i t ht
    obtain ⟨e, p⟩ := t
    cases e with
    | turn batch spared struck => exact fun _ => rfl
    | deletion alone => rfl
    | creation => exact hs
  · obtain ⟨t, ht, rfl⟩ := Scene.change_tasks hi
    have hs := hw.sound i t ht
    obtain ⟨e, p⟩ := t
    cases e with
    | turn batch spared struck => exact ⟨hs.1, fun hsp => by cases hsp⟩
    | deletion alone => exact hs
    | creation => exact hs

theorem Scene.Kept.creating (hw : w.Kept h) :
    Scene.Kept h { w.change .creating with gone := false } := by
  show Scene.Kept h ⟨w.kv, (w.change .creating).tasks, false, w.saved⟩
  refine ⟨hw.typed, fun hg => (by cases hg), hw.saved, fun i j t u hne hi hj => ?_,
    fun i t hi => ?_, fun i t hi => ?_⟩
  · obtain ⟨t, ht, rfl⟩ := Scene.change_tasks hi
    obtain ⟨u, hu, rfl⟩ := Scene.change_tasks hj
    have ha := hw.beside i j t u hne ht hu
    obtain ⟨e, p⟩ := t
    obtain ⟨e', p'⟩ := u
    cases e <;> cases e' <;> first | exact ha | rfl
  · obtain ⟨t, ht, rfl⟩ := Scene.change_tasks hi
    have hs := hw.suits i t ht
    obtain ⟨e, p⟩ := t
    cases e with
    | turn batch spared struck => exact hs
    | deletion alone => exact hs
    | creation => rfl
  · obtain ⟨t, ht, rfl⟩ := Scene.change_tasks hi
    have hs := hw.sound i t ht
    obtain ⟨e, p⟩ := t
    cases e with
    | turn batch spared struck => exact hs
    | deletion alone => exact ⟨hs.1, fun hal => by cases hal⟩
    | creation => exact hs

theorem Scene.Kept.performed (hw : w.Kept h) {i : Nat} {e : Errand μ} {o : KvOp μ}
    {k : Except Error o.Reply → KvM μ Ended} {a : o.Reply}
    (hi : w.tasks i = some ⟨e, .call o k⟩) (hc : Mindful h w.kv (.perform e o))
    (ho : memory o w.kv = .ok a kv') :
    Scene.Kept h { w.put i (some ⟨e, k (.ok a)⟩) with kv := kv' } := by
  obtain ⟨ht, hdoes, hsound⟩ := (hw.sound i _ hi).performed hc hw.typed ho
  have hsuits := hw.suits i _ hi
  have hstore : Scene.Kept h { w.put i none with kv := kv' } := by
    refine (hw.drop i).store ht (fun hg => ?_) (fun b hb => ?_) fun j u hj => ?_
    -- what the operation does to the store, by the errand it is part of
    · cases e with
      | turn batch spared struck => exact hdoes.1.absent (hw.gone hg)
      | deletion alone => exact Stays.absent hdoes (hw.gone hg)
      | creation =>
        have hgone : w.gone = false := hsuits
        have hg' : w.gone = true := hg
        rw [hgone] at hg'
        cases hg'
    · have hb' : b ∈ w.saved := hb
      cases e with
      | turn batch spared struck =>
        cases spared with
        | true => exact (hdoes.2 rfl).placed b (hw.saved b hb')
        | false =>
          rw [hsuits rfl] at hb'
          cases hb'
      | deletion alone =>
        have hnil : w.saved = [] := hsuits
        rw [hnil] at hb'
        cases hb'
      | creation => exact (hw.saved b hb').aside hdoes
    · obtain ⟨hji, hj⟩ := Scene.drop_tasks hj
      exact hdoes.bears (hw.beside i j _ u hji.symm hi hj)
  have hput : (Scene.put { w.put i none with kv := kv' } i (some ⟨e, k (.ok a)⟩)).Kept h := by
    refine hstore.put i (fun j u _ hj => ?_) ?_ hsound
    · obtain ⟨hji, hj⟩ := Scene.drop_tasks hj
      have habides := hw.beside i j _ u hji.symm hi hj
      exact habides
    · cases e with
      | turn batch spared struck => exact hsuits
      | deletion alone => exact hsuits
      | creation => exact hsuits
  have heq : Scene.put { w.put i none with kv := kv' } i (some ⟨e, k (.ok a)⟩) =
      { w.put i (some ⟨e, k (.ok a)⟩) with kv := kv' } := by
    simp [Scene.put]
  rw [heq] at hput
  exact hput

theorem Scene.Kept.failed (hw : w.Kept h) {i : Nat} {e : Errand μ} {o : KvOp μ}
    {k : Except Error o.Reply → KvM μ Ended}
    (hi : w.tasks i = some ⟨e, .call o k⟩) (error : Error) :
    (w.put i (some ⟨e.fail, k (.error error)⟩)).Kept h := by
  have hsuits := hw.suits i _ hi
  refine hw.put i (fun j u hji hj => ?_) ?_ ((hw.sound i _ hi).failed error)
  · have habides := hw.beside i j _ u hji.symm hi hj
    obtain ⟨e', p⟩ := u
    cases e <;> cases e' <;> exact habides
  · cases e <;> exact hsuits

theorem Scene.Kept.ended (hw : w.Kept h) {i : Nat} {e : Errand μ} {r : Ended}
    (hi : w.tasks i = some ⟨e, .done r⟩) :
    ((w.put i none).ended e r).Kept h := by
  have hdrop := hw.drop i
  have hsound := hw.sound i _ hi
  have hother : ∀ j u, (w.put i none).tasks j = some u → Abides e u.errand := by
    intro j u hj
    obtain ⟨hji, hj⟩ := Scene.drop_tasks hj
    have habides := hw.beside i j _ u hji.symm hi hj
    exact habides
  unfold Scene.ended
  split
  · -- what the turn was to store lies in the store
    rename_i batch
    refine ⟨hdrop.typed, hdrop.gone, fun b hb => ?_, hdrop.beside, fun j u hj => ?_, hdrop.sound⟩
    · rcases List.mem_cons.mp hb with rfl | hb
      · exact ((hsound.2 rfl).2 rfl).answered rfl
      · exact hdrop.saved b hb
    · have ha := hother j u hj
      have hs := hdrop.suits j u hj
      obtain ⟨e', p⟩ := u
      cases e' with
      | turn batch' spared struck => exact ha.elim
      | deletion alone => cases ha
      | creation => exact hs
  · refine ⟨hdrop.typed, fun _ => (hsound.2 rfl).answered rfl, hdrop.saved, hdrop.beside,
      fun j u hj => ?_, hdrop.sound⟩
    have ha := hother j u hj
    have hs := hdrop.suits j u hj
    obtain ⟨e', p⟩ := u
    cases e' with
    | turn batch' spared struck => exact hs
    | deletion alone => exact hs
    | creation => cases ha
  · exact hdrop

theorem Scene.Kept.deletes (hw : w.Kept h) {i : Nat} {alone : Bool}
    (halone : alone = true ↔ ∀ j task, w.tasks j = some task → task.errand ≠ .creation)
    {p : KvM μ Ended}
    (hp : Task.Sound h w.kv ⟨.deletion alone, p⟩) :
    Scene.Kept h { (w.change .deleting).put i (some ⟨.deletion alone, p⟩) with saved := [] } := by
  refine hw.deleting.put i (fun j u _ hj => ?_) rfl hp
  obtain ⟨⟨e, p'⟩, hj', rfl⟩ := Scene.change_tasks hj
  cases e with
  | turn batch spared struck => rfl
  | deletion alone' => trivial
  | creation =>
    show alone = false
    by_contra hne
    exact halone.mp (by simpa using hne) j _ hj' rfl

/-! ## Every run -/

variable [TextStd] [Wire μ] {preprocess : AgentId → Str → Option Str}

theorem Reaches.kept (hr : Reaches preprocess h (Mindful h) w) : w.Kept h := by
  -- Induction on the run: a new task must bear with the tasks under way, and they with it.
  induction hr with
  | empty =>
    refine ⟨.empty, fun hg => ?_, fun b hb => absurd hb List.not_mem_nil, fun i j t u _ hi => ?_,
      fun i t hi => ?_, fun i t hi => ?_⟩
    · cases hg
    · cases hi
    · cases hi
    · cases hi
  | @asked w s i t now later spared _ hi hturn hspared hs hh hc ih =>
    refine ih.put i (fun j u hji hj => ?_) (fun hf => ?_) ⟨asks_asked hh t now later,
      fun _ => ⟨?_, fun _ => ?_⟩⟩
    · have hnot := hturn j u hj
      obtain ⟨e, p⟩ := u
      cases e with
      | turn batch spared' struck => exact absurd trivial hnot
      | deletion alone =>
        show spared = false
        by_contra hne
        exact hspared.mp (by simpa using hne) j _ hj trivial
      | creation => trivial
    · have hex : ¬ ∀ j task, w.tasks j = some task → ¬ task.errand.IsDeletion := fun hall => by
        rw [hspared.mpr hall] at hf
        cases hf
      simp only [not_forall, not_not] at hex
      obtain ⟨j, ⟨e, p⟩, hj, hdel⟩ := hex
      have hsuits := ih.suits j _ hj
      cases e with
      | deletion alone => exact hsuits
      | turn batch spared' struck => exact hdel.elim
      | creation => exact hdel.elim
    · exact (spared_asked (F := True) hs hh hc ih.typed now later).mono (fun _ _ _ => trivial)
        fun _ _ _ => trivial
    · exact (spared_asked (F := False) hs hh hc ih.typed now later).mono
        (fun _ _ h₁ => h₁.resolve_left id) fun _ _ _ => trivial
  | @deletes w i alone _ hi halone ih =>
    exact ih.deletes halone ⟨asks_answering asks_deleteConversation,
      fun _ => alone_answering (alone_deleteConversation ih.typed)⟩
  | @purges w rest kv' i agent alone _ hi halone hrow hstep ih =>
    obtain ⟨rfl, rfl⟩ := step_deleteSessionsOf hstep
    exact ih.deletes halone ⟨asks_answering (asks_deleteAll _ 0),
      fun _ => alone_answering (alone_deleteAll _ 0 ih.typed (.inr hrow))⟩
  | @creates w i agent createdBy root now _ hi ih =>
    refine ih.creating.put i (fun j u _ hj => ?_) rfl
      (asks_answering (asks_createSession agent createdBy root now))
    obtain ⟨⟨e, p⟩, -, rfl⟩ := Scene.change_tasks hj
    cases e with
    | turn batch spared struck => trivial
    | deletion alone => rfl
    | creation => trivial
  | performed i _ hi hc ho ih => exact ih.performed hi hc ho
  | failed i error _ hi ih => exact ih.failed hi error
  | ended i _ hi ih => exact ih.ended hi
  | dropped i _ ih => exact ih.drop i
  | @elsewhere w kv' _ ha hs ih =>
    refine ih.store (ha.typed ih.typed) (fun hg => hs.absent (ih.gone hg))
      (fun b hb => (ih.saved b hb).aside ha) fun j u _ => ?_
    obtain ⟨e, p⟩ := u
    cases e with
    | turn batch spared struck => exact fun _ => ha
    | deletion alone => exact fun _ => hs
    | creation => trivial

omit [TextStd] [Wire μ] in
theorem retrievable_of_placed {kv : Kv μ} (ht : WellTyped kv) {b : List (HistoryEntry μ)}
    (hb : Placed h b kv) : Retrievable h b kv := by
  have hplaced := hb
  obtain ⟨m, n, hm, -, hcells⟩ := hb
  have harchive : ∃ a, readJson Value.asText kv .session (archiveKey h) = .ok a := by
    unfold readJson
    cases hv : kv[((.session, archiveKey h) : Cell)]? with
    | none => exact ⟨none, rfl⟩
    | some v =>
      obtain ⟨t, rfl⟩ := ht.metas.archives h v hv
      exact ⟨some t, rfl⟩
  obtain ⟨a, ha⟩ := harchive
  have hrecord : readJson Value.asMeta kv .session (metaKey h) = .ok (some m) := by
    rw [readJson, hm]
    rfl
  refine ⟨hplaced, ⟨m, (kv.under .session (messagePrefix h)).filterMap fun e => e.2.asEntry, a⟩, ?_,
    fun e he => ?_⟩
  · rw [reads_loadSession.answer, sessionView, hrecord]
    dsimp only [bind, Except.bind]
    rw [ha]
    rfl
  · obtain ⟨j, hj, rfl⟩ := List.mem_iff_getElem.mp he
    refine List.mem_filterMap.mpr ⟨((.session, messageKey h (n + j)), .entry b[j].persist), ?_, rfl⟩
    exact ColMap.mem_under.mpr ⟨hcells j hj, rfl, messagePrefix_messageKey h _⟩

/-- While turns find the record where they work on it, a deleted session stays away until it is
created again, and what the turns answered since were to store can be loaded. -/
theorem deletion_lasts (hr : Reaches preprocess h (Mindful h) w) :
    (w.gone = true → answer (loadSession h) w.kv = .ok none ∧
      ∃ l, answer listSessions w.kv = .ok l ∧ h ∉ l.map (·.1)) ∧
      ∀ b ∈ w.saved, Retrievable h b w.kv := by
  have hkept := hr.kept
  refine ⟨fun hg => ?_, fun b hb => retrievable_of_placed hkept.typed (hkept.saved b hb)⟩
  have hn : w.kv[((.session, metaKey h) : Cell)]? = none := by
    by_contra hne
    exact hkept.gone hg hne
  refine ⟨by rw [reads_loadSession.answer, sessionView_none hn], _,
    (reads_listSessions hkept.typed.metas).answer, ?_⟩
  rw [((List.perm_insertionSort _ _).map _).mem_iff, names_listed, List.mem_filter, hn]
  simp

end

/-! ## A turn after the deletion -/

section
variable [TextStd] [Wire μ] {preprocess : AgentId → Str → Option Str} {h : Str}
  {cond : Kv μ → Move μ → Prop} {w : Scene μ}

/-- A request that is alone at the store comes to its end. -/
theorem Reaches.runs {e : Errand μ} {p : KvM μ Ended} {r : Ended} {kv' : Kv μ} {i : Nat}
    {I : Kv μ → Prop} {P : KvOp μ → Prop}
    (hr : Reaches preprocess h cond w) (hi : w.tasks i = some ⟨e, p⟩)
    (hrun : Prog.Runs False memory p w.kv (.ok r) kv')
    (hp : Prog.Asks True memory I P p) (hI : I w.kv)
    (hkeep : ∀ o kv, P o → I kv → Basis.wp (memory o) (fun _ => I) (fun _ => I) kv)
    (hc : ∀ kv o, P o → I kv → cond kv (.perform e o)) :
    Reaches preprocess h cond { w.put i (some ⟨e, .done r⟩) with kv := kv' } := by
  generalize hres : (Except.ok r : Except Error Ended) = res at hrun
  generalize hkv : w.kv = kv at hrun
  induction hrun generalizing w with
  | done a kv =>
    cases hres
    have heq : ({ w.put i (some ⟨e, .done r⟩) with kv := kv } : Scene μ) = w := by
      subst hkv
      have : w.put i (some ⟨e, .done r⟩) = w := by
        unfold Scene.put
        rw [← hi, Function.update_eq_self]
      rw [this]
    rw [heq]
    exact hr
  | fail error kv => cases hres
  | @ok o k kv kv₁ kv₂ a res ho _ ih =>
    subst hkv
    have hstep := hr.performed i hi (hc _ _ hp.1 hI) ho
    have hkept : I kv₁ := by
      have := hkeep o w.kv hp.1 hI
      unfold Basis.wp at this
      rw [ho] at this
      exact this
    have hrest := ih hstep (by simp [Scene.put]) (hp.performed hI ho) hkept hres rfl
    simpa [Scene.put] using hrest
  | @error o k kv kv₁ kv₂ error res ho _ ih => cases o <;> cases ho
  | fault error hf => exact hf.elim

end

section
open Plain

theorem reaches_created {cond : Kv Message → Move Message → Prop}
    (hrecord : ∀ v, cond ∅ (.perform .creation (.put .session (metaKey "chat".toList) v)))
    (hrow : ∀ kv k v, k ≠ metaKey "chat".toList →
      cond kv (.perform .creation (.put .session k v))) :
    Reaches noHook "chat".toList cond ⟨freshStore, fun _ => none, false, []⟩ := by
  have hempty : Reaches noHook "chat".toList cond ⟨∅, fun _ => none, false, []⟩ := .empty
  have hbegun := hempty.creates 0 ⟨0⟩ "user".toList none "t0+00:00".toList rfl
  have hfirst := hbegun.performed 0 rfl (hrecord _) rfl
  have hsecond := hfirst.performed 0 rfl (hrow _ _ _ (by decide)) rfl
  have hended := hsecond.ended 0 rfl
  convert hended using 1
  simp [Scene.ended, Scene.put, Scene.change]
  rfl

theorem Reaches.deleted {cond : Kv Message → Move Message → Prop} {kv : Kv Message} {gone : Bool}
    {saved : List (List (HistoryEntry Message))}
    (hr : Reaches noHook "chat".toList cond ⟨kv, fun _ => none, gone, saved⟩)
    (ha : answer (answering (deleteConversation "chat".toList)) kv = .ok .answered)
    (hdeletion : ∀ kv o, cond kv (.perform (.deletion true) o)) :
    Reaches noHook "chat".toList cond ⟨settle (answering (deleteConversation "chat".toList)) kv,
      fun _ => none, true, []⟩ := by
  have hdeletes := hr.deletes 0 true rfl (by simp)
  have hran := hdeletes.runs (i := 0) (I := fun _ => True) rfl (runs_settle_ok ha) .anything trivial
    (fun _ _ _ _ => .always (fun _ _ => trivial) fun _ _ => trivial) fun kv o _ _ => hdeletion kv o
  have hended := hran.ended 0 rfl
  convert hended using 1
  simp [Scene.ended, Scene.put, Scene.change]

def deletedStore : Kv Message := settle (answering (deleteConversation "chat".toList)) freshStore

def answeredStore : Kv Message :=
  settle (replied (hello.exec noHook fresh "t2+00:00".toList "t3+00:00".toList)) freshStore

theorem reaches_answered :
    Reaches noHook "chat".toList (Mindful "chat".toList) ⟨answeredStore, fun _ => none, false,
      [hello.batch noHook fresh]⟩ := by
  have hcreated : Reaches noHook "chat".toList (Mindful "chat".toList)
      ⟨freshStore, fun _ => none, false, []⟩ := by
    refine reaches_created (fun v _ _ hheld => hheld ?_) fun kv k v hk _ he => absurd he hk
    simp
  have hasked := hcreated.asked 0 hello "t2+00:00".toList "t3+00:00".toList true rfl (by simp)
      (by simp) fresh_lived rfl
    fun u hu => by
      cases hu
      decide
  have hanswered : answer (replied (hello.exec noHook fresh "t2+00:00".toList "t3+00:00".toList))
      freshStore = .ok .answered := by
    decide +kernel
  have hheld : (freshStore[((.session, metaKey "chat".toList) : Cell)]?).isSome = true := by decide +kernel
  -- the record stays while the turn is alone, so every operation of the turn finds it
  have hran := hasked.runs (i := 0) (I := fun kv => WellTyped kv ∧ Held "chat".toList kv) rfl
      (runs_settle_ok hanswered)
    ((asks_asked rfl hello _ _).mono (fun _ hI => hI.1) fun _ ho => ho)
    ⟨hcreated.kept.typed, Option.isSome_iff_ne_none.mp hheld⟩
    (fun o kv ho hI => Basis.wp.and (TurnOp.wellTyped ho hI.1) (TurnOp.held ho hI.2))
    fun kv o _ hI => by
      cases o with
      | get col k => exact fun _ _ => hI.2
      | put col k v => exact fun _ _ => hI.2
      | _ => trivial
  have hended := hran.ended 0 rfl
  convert hended using 1
  simp [Scene.ended, Scene.put]
  rfl

/-- A turn is answered, and its messages can be loaded; the session is deleted, and cannot. -/
theorem deletion_lasts_instance :
    ∃ w w' : Scene Message, Reaches noHook "chat".toList (Mindful "chat".toList) w ∧
    w.saved ≠ [] ∧ (∀ b ∈ w.saved, b ≠ [] ∧ Retrievable "chat".toList b w.kv) ∧
    Reaches noHook "chat".toList (Mindful "chat".toList) w' ∧ w'.gone = true ∧
      answer (loadSession "chat".toList) w'.kv = .ok none := by
  have hdeleted : answer (answering (deleteConversation "chat".toList)) answeredStore =
      .ok .answered := by decide +kernel
  have hr := reaches_answered.deleted hdeleted fun _ _ => trivial
  refine ⟨_, _, reaches_answered, by simp,
    fun b hb => ⟨?_, (deletion_lasts reaches_answered).2 b hb⟩, hr, rfl,
    ((deletion_lasts hr).1 rfl).1⟩
  rw [List.mem_singleton.mp hb]
  decide

/-- A session deleted while it is live is back with its next turn, which is answered as if its
messages were stored. -/
theorem deleted_comes_back : ¬ ∀ {w : Scene Message}, Reaches noHook "chat".toList
    (fun _ _ => True) w →
    (w.gone = true → answer (loadSession "chat".toList) w.kv = .ok none) ∧
    ∀ b ∈ w.saved, Retrievable "chat".toList b w.kv := by
  intro hall
  have hr : Reaches noHook "chat".toList (fun _ _ => True)
      ⟨deletedStore, fun _ => none, true, []⟩ :=
    (reaches_created (fun _ => trivial) fun _ _ _ _ => trivial).deleted (by decide +kernel)
      fun _ _ => trivial
  have hasked := hr.asked 0 hello "t2+00:00".toList "t3+00:00".toList true rfl (by simp)
      (by simp) fresh_lived rfl trivial
  have hanswered : answer (replied (hello.exec noHook fresh "t2+00:00".toList "t3+00:00".toList))
      deletedStore = .ok .answered := by
    decide +kernel
  have hturned := hasked.runs (i := 0) (I := fun _ => True) rfl (runs_settle_ok hanswered)
      .anything trivial
    (fun _ _ _ _ => .always (fun _ _ => trivial) fun _ _ => trivial) fun _ _ _ _ => trivial
  have hgone := (hall hturned).1 rfl
  have hback : answer (loadSession "chat".toList)
      (settle (replied (hello.exec noHook fresh "t2+00:00".toList "t3+00:00".toList))
      deletedStore) ≠
      .ok none := by
    decide +kernel
  exact hback hgone

end

end Crabtalk.Runtime

import Crabtalk.Runtime.Synced
import Crabtalk.Store.Purge

/-! # What the runtime makes of the session index

Live sessions over one store: each is opened, run, compacted and rewound, and
its handle deleted and opened again, in any order.
-/

open Basis
open Crabtalk.Store

namespace Crabtalk.Runtime

variable {μ : Type}

def deleteConversation (slug : Str) : KvM μ Unit := do
  if ← deleteSession slug then pure ()
  else .fail (.bail ("session not found: ".toList ++ slug))

/-! ## What a turn writes -/

section
variable [Chrono] {F : Prop} {s : Session μ} {h : Str} {kv : Kv μ}
  {preprocess : AgentId → Str → Option Str}

/-- The record of the session is stored, under the agent the session has. -/
def Recorded (s : Session μ) (kv : Kv μ) : Prop :=
  ∀ h, s.handle = some h → ∃ m, kv[((.session, metaKey h) : Cell)]? = some (.sessionMeta m) ∧
    m.agent = s.agent

/-- The store after work for the session of `h`, which is `a`'s. -/
def Wrote (h : Str) (a : AgentId) (kv kv' : Kv μ) : Prop := Kept h kv kv' ∧
    Modest h (Keyed a) kv kv'

theorem Wrote.refl {a : AgentId} (ht : Typed kv) : Wrote h a kv kv := ⟨ht.kept, .refl⟩

theorem Wrote.trans {a : AgentId} {kv' kv'' : Kv μ} (h₁ : Wrote h a kv kv')
    (h₂ : Wrote h a kv' kv'') : Wrote h a kv kv'' :=
  ⟨h₁.1.trans h₂.1, h₁.2.trans h₂.2⟩

theorem Wrote.next {a : AgentId} {kv' : Kv μ} {α : Type} {p : KvM μ α} {Q : α → Kv μ → Prop}
    {E : Error → Kv μ → Prop} (h₁ : Wrote h a kv kv')
    (hk : Keeps F h kv' p kv') (hm : Prog.wp F memory p (fun _ => Modest h (Keyed a) kv')
      (fun _ => Modest h (Keyed a) kv') kv')
    (hQ : ∀ r kv'', Wrote h a kv kv'' → Q r kv'') (hE : ∀ e kv'', Wrote h a kv kv'' → E e kv'') :
    Prog.wp F memory p Q E kv' :=
  (hk.and hm).mono (fun r kv'' h₂ => hQ r kv'' (h₁.trans h₂)) fun e kv'' h₂ =>
    hE e kv'' (h₁.trans h₂)

theorem keyed_bump {a : AgentId} (m : SessionMeta) (n : Nat) (t : Str) (hq : Keyed a m) :
    Keyed a { m with messageCount := n, updatedAt := t } := hq

variable [TextStd] [Wire μ]

theorem wp_finalizeRun (hh : s.handle = some h) (ht : Typed kv)
    (hc : Chrono.IsTimestamp s.createdAtIso) {m : SessionMeta}
    (hm : kv[((.session, metaKey h) : Cell)]? = some (.sessionMeta m)) (hq : Keyed s.agent m)
    (n : Nat) (trace : List EventLine) (now later : Str) :
    Prog.wp F memory (finalizeRun s n trace now later) (fun _ => Wrote h s.agent kv)
    (fun _ => Wrote h s.agent kv) kv := by
  have hupdate : ∀ kv₁, Wrote h s.agent kv kv₁ → Prog.wp F memory (do
      let _ ← (updateSessionMeta h (s.sessionMeta later)).attempt : KvM μ Unit)
      (fun _ => Wrote h s.agent kv) (fun _ => Wrote h s.agent kv) kv₁ := by
    intro kv₁ h₁
    obtain ⟨m₁, hm₁, -⟩ := h₁.2.kept m hm hq
    rw [Prog.wp_bind, Prog.wp_attempt]
    exact h₁.next (keeps_update h₁.1.typed.kept _) (modest_update hm₁ ⟨rfl, hc⟩) (fun _ _ h₂ => h₂)
      fun _ _ h₂ => h₂
  have hevents : ∀ kv₁, Wrote h s.agent kv kv₁ →
      Prog.wp F memory (appendSessionEvents h trace).attempt
      (fun _ => Wrote h s.agent kv) (fun _ => Wrote h s.agent kv) kv₁ := by
    intro kv₁ h₁
    rw [Prog.wp_attempt]
    refine h₁.next ?_ (Works.modest (works_appendSessionEvents trace) .refl) (fun _ _ h₂ => h₂)
      fun _ _ h₂ => h₂
    exact (keeps_scanKeys h₁.1.typed.kept .session _).bind fun _ kv₂ h₂ =>
      keeps_appendEvents trace _ kv₂ h₂
  unfold finalizeRun
  rw [hh]
  dsimp only
  cases newEntries s.history n with
  | none => exact .refl ht
  | some entries =>
    dsimp only
    have h₀ : Wrote h s.agent kv kv := .refl ht
    rw [Prog.wp_bind, Prog.wp_attempt]
    -- whatever the append came to, the rest is done
    refine h₀.next (keeps_append ht.kept entries now)
      (modest_append ht.metas keyed_bump entries now) ?_ ?_ <;>
      intro _ kv₁ h₁
    · split
      · exact hupdate kv₁ h₁
      · exact Prog.wp_bind.mpr ((hevents kv₁ h₁).mono (fun _ => hupdate) fun _ _ h₂ => h₂)
    · split
      · exact hupdate kv₁ h₁
      · exact Prog.wp_bind.mpr ((hevents kv₁ h₁).mono (fun _ => hupdate) fun _ _ h₂ => h₂)

structure Same (s s' : Session μ) : Prop where
  handle : s'.handle = s.handle
  agent : s'.agent = s.agent
  createdAtIso : s'.createdAtIso = s.createdAtIso

omit [Chrono] [TextStd] in
theorem same_after (t : Asked μ) : Same s (t.after preprocess s) := by
  cases t with
  | own content sender run => cases run <;> exact ⟨rfl, rfl, rfl⟩
  | guest content sender id run => cases run <;> exact ⟨rfl, rfl, rfl⟩

theorem wp_asked (hh : s.handle = some h) (ht : Typed kv) (hc : Chrono.IsTimestamp s.createdAtIso)
    {t : Asked μ} {a : AgentId}
    (hm : ¬ t.Early → s.agent = a ∧ ∃ m, kv[((.session, metaKey h) : Cell)]? =
      some (.sessionMeta m) ∧ Keyed a m) (now later : Str) :
    Prog.wp F memory (t.exec preprocess s now later) (fun r kv' => Same s r.1 ∧ Wrote h a kv kv')
    (fun _ _ => False) kv := by
  have hrun : ∀ history trace m, kv[((.session, metaKey h) : Cell)]? = some (.sessionMeta m) →
      Keyed s.agent m →
      Prog.wp F memory (finalizeRun { s with history } s.history.length trace now later)
      (fun _ => Wrote h s.agent kv)
        (fun _ => Wrote h s.agent kv) kv :=
    fun history trace m hm hq => wp_finalizeRun (s := { s with history }) hh ht hc hm hq
      s.history.length trace now later
  -- only a turn that reaches its end writes
  have hstored : Prog.wp F memory (t.exec preprocess s now later) (fun _ => Wrote h a kv)
      (fun _ _ => False) kv := by
    cases t with
    | own content sender run =>
      cases run with
      | unresolved => exact .refl ht
      | dropped pushed => exact .refl ht
      | done pushed trace =>
        obtain ⟨rfl, m, hm, hq⟩ := hm id
        unfold Asked.exec ownTurn
        rw [Prog.wp_bind, Prog.wp_attempt]
        have hfinal := hrun (prepareHistory preprocess s content sender ++ pushed.map .fromMessage)
            trace m hm hq
        exact hfinal.mono (fun _ _ h₁ => h₁) fun _ _ h₁ => h₁
    | guest content sender id run =>
      cases run with
      | unresolved => exact .refl ht
      | early => exact .refl ht
      | broken primary => exact .refl ht
      | done primary name text reasoning =>
        obtain ⟨rfl, m, hm, hq⟩ := hm fun he => he
        unfold Asked.exec guestTurn
        rw [Prog.wp_bind, Prog.wp_attempt]
        have hfinal := hrun (guestHistory preprocess s content sender primary ++
            [guestReply name text reasoning]) [] m hm hq
        exact hfinal.mono (fun _ _ h₁ => h₁) fun _ _ h₁ => h₁
  have hsession : Prog.wp F memory (t.exec preprocess s now later) (fun r _ => Same s r.1)
      (fun _ _ => False) kv := by
    cases t with
    | own content sender run =>
      refine (wp_ownTurn s content sender run now later).mono (fun r _ hr => ?_) fun _ _ he => he
      rw [hr]
      exact same_after (.own content sender run)
    | guest content sender id run =>
      refine (wp_guestTurn s content sender id run now later).mono (fun r _ hr => ?_)
        fun _ _ he => he
      rw [hr]
      exact same_after (.guest content sender id run)
  exact (hsession.and hstored).mono (fun _ _ h₁ => h₁) fun _ _ h₁ => h₁.1

def Compacts (s : Session μ) (prompt : Str) (summarize : List (HistoryEntry μ) → Str → Option Str)
    (archive : Option Str) : Prop :=
  prompt ≠ [] ∧ s.history ≠ [] ∧ summarize s.history prompt ≠ none ∧ archive ≠ none

theorem wp_compact_wrote (hh : s.handle = some h) (ht : Typed kv)
    (hc : Chrono.IsTimestamp s.createdAtIso) {prompt : Str}
    {summarize : List (HistoryEntry μ) → Str → Option Str} {archive : Option Str} {a : AgentId}
    (hm : Compacts s prompt summarize archive → s.agent = a ∧
      ∃ m, kv[((.session, metaKey h) : Cell)]? = some (.sessionMeta m) ∧ Keyed a m)
    (now : Str) :
    Prog.wp F memory (compact s prompt summarize archive now) (fun r kv' => Same s r.1 ∧
      Wrote h a kv kv') (fun _ _ => False) kv := by
  unfold compact
  by_cases hp : prompt = []
  · rw [if_pos hp]
    exact ⟨⟨rfl, rfl, rfl⟩, .refl ht⟩
  · rw [if_neg hp]
    by_cases hhist : s.history.isEmpty
    · rw [if_pos hhist]
      exact ⟨⟨rfl, rfl, rfl⟩, .refl ht⟩
    · rw [if_neg hhist]
      cases hsum : summarize s.history prompt with
      | none => exact ⟨⟨rfl, rfl, rfl⟩, .refl ht⟩
      | some summary =>
        rw [hh]
        cases archive with
        | none => exact ⟨⟨rfl, rfl, rfl⟩, .refl ht⟩
        | some name =>
          obtain ⟨rfl, m, hm, hq⟩ := hm ⟨hp, fun he => hhist (by rw [he]; rfl),
              by simp [hsum], by simp⟩
          have h₀ : Wrote h s.agent kv kv := .refl ht
          show Prog.wp F memory ((appendSessionCompact h name).attempt >>= _) _ _ kv
          rw [Prog.wp_bind, Prog.wp_attempt]
          have hkeeps : Keeps F h kv (appendSessionCompact h name) kv :=
            (keeps_truncate ht.kept 0).bind fun _ kv₁ h₁ =>
              keeps_put h₁ (h₁.put (sessionPrefix_archiveKey h) (fits_archive h name))
          refine h₀.next hkeeps (modest_compact ht.metas keyed_bump name) (fun _ kv₁ h₁ => ?_)
            fun _ kv₁ h₁ => ?_
          · obtain ⟨m₁, hm₁, -⟩ := h₁.2.kept m hm hq
            dsimp only
            rw [Prog.wp_bind, Prog.wp_attempt]
            refine h₁.next (keeps_update h₁.1.typed.kept _) (modest_update hm₁ ⟨rfl, hc⟩) ?_ ?_
            · exact fun _ _ h₂ => ⟨⟨hh.symm, rfl, rfl⟩, h₂⟩
            · exact fun _ _ h₂ => ⟨⟨hh.symm, rfl, rfl⟩, h₂⟩
          · exact ⟨⟨rfl, rfl, rfl⟩, h₁⟩

omit [TextStd] in
theorem wp_truncate_wrote (hh : s.handle = some h) (ht : Typed kv) (a : AgentId) (turns : Nat) :
    Prog.wp F memory (truncate s turns) (fun r kv' => Same s r.1 ∧ Wrote h a kv kv')
    (fun _ _ => False) kv := by
  unfold truncate
  split
  · exact ⟨⟨rfl, rfl, rfl⟩, .refl ht⟩
  · rename_i b hb
    dsimp only
    rw [hh]
    simp only
    by_cases ho : (s.history.take b).length < if s.summary.isSome then 1 else 0
    · rw [if_pos ho]
      exact ⟨⟨hh.symm, rfl, rfl⟩, .refl ht⟩
    · rw [if_neg ho, Prog.wp_bind, Prog.wp_attempt]
      have h₀ : Wrote h a kv kv := .refl ht
      refine h₀.next (keeps_truncate ht.kept _) (modest_truncate ht.metas keyed_bump _) ?_ ?_
      · exact fun _ _ h₁ => ⟨⟨hh.symm, rfl, rfl⟩, h₁⟩
      · exact fun _ _ h₁ => ⟨⟨hh.symm, rfl, rfl⟩, h₁⟩

end

/-! ## Opening -/

def Looks : KvOp μ → Prop
  | .put _ _ _ => False
  | .delete _ _ => False
  | _ => True

theorem looks_getJson {α : Type} (decode : Value μ → Option α) (col : Column) (k : Str) :
    Prog.Footprint memory Looks (getJson decode col k) :=
  (within_getJson (P := Looks) decode trivial).footprint fun _ => id

theorem looks_loadHistory (keys : List Str) :
    Prog.Footprint memory Looks (loadHistory keys : KvM μ (List (HistoryEntry μ))) := by
  induction keys with
  | nil => trivial
  | cons key keys ih =>
    unfold loadHistory
    refine (looks_getJson _ _ _).attempt.bind fun r => ?_
    cases r with
    | error e => exact ih
    | ok e =>
      cases e with
      | none => exact ih
      | some e => exact ih.bind fun _ => trivial

section
variable {F : Prop} {h : Str} {kv : Kv μ}

theorem wp_looks {α : Type} {p : KvM μ α} (hp : Prog.Footprint memory Looks p) :
    Prog.wp F memory p (fun _ kv' => kv' = kv) (fun _ kv' => kv' = kv) kv := by
  refine hp.wp (fun o ho kv₁ h₁ => ?_) rfl
  cases o with
  | put col k v => exact ho.elim
  | delete col k => exact ho.elim
  | _ => exact h₁

theorem wp_loadSession (hm : MetasTyped kv) : Prog.wp F memory (loadSession h)
    (fun r kv' => kv' = kv ∧ (r = none → kv[((.session, metaKey h) : Cell)]? = none) ∧
      ∀ c, r = some c → kv[((.session, metaKey h) : Cell)]? = some (.sessionMeta c.sessionMeta))
      (fun _ kv' => kv' = kv) kv := by
  unfold loadSession sessionMeta
  rw [Prog.wp_bind, wp_getJson]
  refine ⟨?_, fun _ _ => rfl⟩
  cases hv : kv[((.session, metaKey h) : Cell)]? with
  | none => exact ⟨rfl, fun _ => rfl, fun _ hc => by cases hc⟩
  | some v =>
    obtain ⟨m, rfl⟩ := hm.metas h v hv
    simp only [Value.asMeta]
    rw [Prog.wp_bind]
    have harchive : Prog.Footprint memory Looks
        (getJson Value.asText .session (archiveKey h) : KvM μ (Option Str)) := looks_getJson _ _ _
    refine (wp_looks harchive).mono ?_ fun _ _ he => he
    rintro archive _ rfl
    rw [Prog.wp_bind, wp_scanKeys]
    refine ⟨?_, fun _ _ => rfl⟩
    rw [Prog.wp_bind]
    refine (wp_looks (looks_loadHistory _)).mono ?_ fun _ _ he => he
    rintro history _ rfl
    refine ⟨rfl, by simp, fun c hc => ?_⟩
    cases hc
    rfl

variable [Chrono] {H : Str → Prop} [Wire μ]

theorem wp_open_rostered (hr : Rostered H kv) (hH : Family H) (hh : H h)
    (hF : F → kv[((.session, metaKey h) : Cell)]? ≠ none)
    (archives : Str → Option Str) (known : AgentId → Bool) (id : Nat) (agent : AgentId)
    (createdBy : Str) (root : Option Str) {now later : Str}
    (hnow : Chrono.IsTimestamp now) (hlater : Chrono.IsTimestamp later) :
    Prog.wp F memory (openSession archives known h id agent createdBy root now later)
      (fun s kv' => Rostered H kv' ∧ s.handle = some h ∧ Chrono.IsTimestamp s.createdAtIso)
      (fun _ kv' => Rostered H kv') kv := by
  have hload : Prog.wp F memory (load archives known h id later)
      (fun r kv' => kv' = kv ∧ (r = none → kv[((.session, metaKey h) : Cell)]? = none) ∧
        ∀ s, r = some s → s.handle = some h ∧ Chrono.IsTimestamp s.createdAtIso)
        (fun _ kv' => kv' = kv) kv := by
    unfold load
    rw [Prog.wp_bind]
    refine (wp_loadSession hr.typed.metas).mono ?_ fun _ _ he => he
    rintro r _ ⟨rfl, hnone, hsome⟩
    cases r with
    | none => exact ⟨rfl, fun _ => hnone rfl, fun _ hs => nomatch hs⟩
    | some c =>
      dsimp only
      split
      · refine ⟨rfl, by simp, fun s hs => ?_⟩
        cases hs
        refine ⟨rfl, ?_⟩
        show Chrono.IsTimestamp (if _ then _ else _)
        split
        · exact hlater
        · exact hr.timed h _ (hsome c rfl)
      · exact rfl
  unfold openSession
  rw [Prog.wp_bind]
  refine hload.mono ?_ ?_
  · rintro r _ ⟨rfl, hnone, hsome⟩
    cases r with
    | some s => exact ⟨hr, hsome s rfl⟩
    | none =>
      have hn := hnone rfl
      dsimp only
      split
      -- a session is made only where no record was found, and then no operation fails
      · obtain rfl : F = False := eq_false fun hf => hF hf hn
        rw [Prog.wp_bind]
        refine (rostered_create hr hH hh hn agent createdBy root hnow).mono (fun _ kv' h₁ => ?_)
          fun _ _ he => he.elim
        exact ⟨h₁, rfl, hlater⟩
      · exact hr
  · rintro _ _ rfl
    exact hr

end

/-! ## Runs -/

structure World (μ : Type) where
  kv : Kv μ
  live : Nat → Option (Session μ)

inductive Command (μ : Type)
  | open (handle : Str)
  | turn (s : Session μ) (t : Asked μ)
  | compact (s : Session μ) (prompt : Str) (summarize : List (HistoryEntry μ) → Str → Option Str)
      (archive : Option Str)
  | truncate (s : Session μ) (turns : Nat)
  | delete (handle : Str)
  | purge (agent : AgentId)

section
variable [TextStd] [Wire μ] [Chrono]

/-- Worlds reached by what is asked of the runtime one after the other. `faults` says whether
operations of the store may fail in that act, and `cond` what is asked of an act in the world it
starts in. -/
inductive Ran (preprocess : AgentId → Str → Option Str) (cond : Prop → World μ → Command μ → Prop) :
    World μ → Prop
  | empty : Ran preprocess cond ⟨∅, fun _ => none⟩
  | opened {w : World μ} {kv' : Kv μ} {s : Session μ} (faults : Prop) (archives : Str → Option Str)
      (known : AgentId → Bool) (handle : Str)
      (id : Nat) (agent : AgentId) (createdBy : Str) (root : Option Str) (now later : Str)
        (i : Nat) : Ran preprocess cond w →
      Chrono.IsTimestamp now → Chrono.IsTimestamp later → cond faults w (.open handle) →
        w.live i = none →
      Prog.Runs faults memory (openSession archives known handle id agent createdBy root now later)
        w.kv (.ok s) kv' →
      Ran preprocess cond ⟨kv', Function.update w.live i (some s)⟩
  | refused {w : World μ} {kv' : Kv μ} {e : Error} (faults : Prop) (archives : Str → Option Str)
      (known : AgentId → Bool) (handle : Str)
      (id : Nat) (agent : AgentId) (createdBy : Str) (root : Option Str) (now later : Str) :
        Ran preprocess cond w →
      Chrono.IsTimestamp now → Chrono.IsTimestamp later → cond faults w (.open handle) →
      Prog.Runs faults memory (openSession archives known handle id agent createdBy root now later)
      w.kv (.error e) kv' →
      Ran preprocess cond ⟨kv', w.live⟩
  | turned {w : World μ} {kv' : Kv μ} {s : Session μ} {r : Session μ × Ended} (faults : Prop)
      (i : Nat) (t : Asked μ) (now later : Str) :
      Ran preprocess cond w → w.live i = some s → cond faults w (.turn s t) →
      Prog.Runs faults memory (t.exec preprocess s now later) w.kv (.ok r) kv' →
      Ran preprocess cond ⟨kv', Function.update w.live i (some r.1)⟩
  | compacted {w : World μ} {kv' : Kv μ} {s : Session μ} {r : Session μ × Option Str}
      (faults : Prop) (i : Nat) (prompt : Str)
      (summarize : List (HistoryEntry μ) → Str → Option Str) (archive : Option Str) (now : Str) :
      Ran preprocess cond w → w.live i = some s →
      cond faults w (.compact s prompt summarize archive) →
      Prog.Runs faults memory (compact s prompt summarize archive now) w.kv (.ok r) kv' →
      Ran preprocess cond ⟨kv', Function.update w.live i (some r.1)⟩
  | truncated {w : World μ} {kv' : Kv μ} {s : Session μ} {r : Session μ × Except Error Nat}
      (faults : Prop) (i turns : Nat) :
      Ran preprocess cond w → w.live i = some s → cond faults w (.truncate s turns) →
      Prog.Runs faults memory (truncate s turns) w.kv (.ok r) kv' →
      Ran preprocess cond ⟨kv', Function.update w.live i (some r.1)⟩
  | closed {w : World μ} (i : Nat) : Ran preprocess cond w →
      Ran preprocess cond ⟨w.kv, Function.update w.live i none⟩
  | deleted {w : World μ} {kv' : Kv μ} {r : Except Error Unit} (faults : Prop) (handle : Str) :
      Ran preprocess cond w →
      cond faults w (.delete handle) →
      Prog.Runs faults memory (deleteConversation handle) w.kv r kv' →
      Ran preprocess cond ⟨kv', w.live⟩
  | purged {w : World μ} {kv' : Kv μ} {r : Except Error Nat} (faults : Prop) (agent : AgentId) :
      Ran preprocess cond w →
      cond faults w (.purge agent) → Prog.Runs faults memory (deleteSessionsOf agent) w.kv r kv' →
      Ran preprocess cond ⟨kv', w.live⟩
  | elsewhere {w : World μ} {kv' : Kv μ} : Ran preprocess cond w →
      Changes (fun c => c.1 ≠ .session ∧ c.1 ≠ .text) w.kv kv' →
      Ran preprocess cond ⟨kv', w.live⟩

/-- A record is written again only where it is stored and names the agent of the session, and a
record is deleted with the row it computes. -/
def Orderly (H : Str → Prop) (faults : Prop) (w : World μ) : Command μ → Prop
  | .open handle => H handle ∧ (faults → w.kv[((.session, metaKey handle) : Cell)]? ≠ none)
  | .turn s t => ¬ t.Early → Recorded s w.kv
  | .compact s prompt summarize archive => Compacts s prompt summarize archive → Recorded s w.kv
  | .truncate _ _ => True
  | .delete handle => H handle ∧ RowStored handle w.kv ∧ ¬ faults
  | .purge agent => (∀ h m, w.kv[((.session, metaKey h) : Cell)]? = some (.sessionMeta m) →
      m.agent = agent → RowStored h w.kv) ∧ ¬ faults

structure Accounted (kv : Kv μ) : Prop where
  listed : ∃ l, answer listSessions kv = .ok l ∧ (l.map (·.1)).Nodup ∧ ∀ h, h ∈ l.map (·.1) ↔
    kv[((.session, metaKey h) : Cell)]? ≠ none
  rows : ∀ k h, indexPrefix none <+: k → kv[((.session, k) : Cell)]? = some (.raw h) →
    kv[((.session, metaKey h) : Cell)]? ≠ none
  purge : ∀ a, ∃ n kv', Prog.interp memory (deleteSessionsOf a) kv = .ok n kv' ∧ ∀ h,
    ((∃ m, kv[((.session, metaKey h) : Cell)]? = some (.sessionMeta m) ∧ m.agent = a) →
      answer (loadSession h) kv' = .ok none) ∧
      ((¬ ∃ m, kv[((.session, metaKey h) : Cell)]? = some (.sessionMeta m) ∧ m.agent = a) →
        answer (loadSession h) kv' = answer (loadSession h) kv)

/-- What the acts keep of a world: its rows go with its records, and its sessions with handles of
the family. -/
structure World.Kept (H : Str → Prop) (w : World μ) : Prop where
  rostered : Rostered H w.kv
  live : ∀ i s, w.live i = some s → (∃ h, s.handle = some h ∧ H h) ∧
    Chrono.IsTimestamp s.createdAtIso

section
variable {H : Str → Prop} {w : World μ} {preprocess : AgentId → Str → Option Str}

omit [TextStd] [Wire μ] in
theorem World.Kept.update (hw : w.Kept H) {kv' : Kv μ} (hr : Rostered H kv') {i : Nat}
    {s : Session μ}
    (hs : (∃ h, s.handle = some h ∧ H h) ∧ Chrono.IsTimestamp s.createdAtIso) :
    World.Kept H ⟨kv', Function.update w.live i (some s)⟩ := by
  refine ⟨hr, fun j s' hj => ?_⟩
  by_cases hij : j = i
  · subst hij
    simp only [Function.update_self, Option.some.injEq] at hj
    rw [← hj]
    exact hs
  · dsimp only at hj
    rw [Function.update_of_ne hij] at hj
    exact hw.live j s' hj

omit [TextStd] [Wire μ] in
theorem World.Kept.wrote (hw : w.Kept H) (hH : Family H) {kv' : Kv μ} {i : Nat} {s s' : Session μ}
    (hi : w.live i = some s) (hsame : Same s s')
    {h : Str} (hh : s.handle = some h) {a : AgentId}
    (ha : ∀ m, w.kv[((.session, metaKey h) : Cell)]? = some (.sessionMeta m) → m.agent = a)
    (hk : Wrote h a w.kv kv') :
    World.Kept H ⟨kv', Function.update w.live i (some s')⟩ := by
  obtain ⟨⟨h', hh', hfam⟩, hc⟩ := hw.live i s hi
  rw [hh] at hh'
  cases hh'
  refine hw.update (hw.rostered.modest hH hfam ha hk.2 hk.1.typed)
    ⟨⟨h, by rw [hsame.handle, hh], hfam⟩, ?_⟩
  rw [hsame.createdAtIso]
  exact hc

omit [TextStd] [Wire μ] in
theorem World.Kept.recorded (hw : w.Kept H) {h : Str} {a : AgentId}
    (ha : ∀ m, w.kv[((.session, metaKey h) : Cell)]? = some (.sessionMeta m) → m.agent = a)
    {s : Session μ} (hh : s.handle = some h)
    (hrec : Recorded s w.kv) : s.agent = a ∧ ∃ m, w.kv[((.session, metaKey h) : Cell)]? =
    some (.sessionMeta m) ∧ Keyed a m := by
  obtain ⟨m, hm, hag⟩ := hrec h hh
  exact ⟨hag.symm.trans (ha m hm), m, hm, ha m hm, hw.rostered.timed h m hm⟩

theorem Ran.kept (hH : Family H) (hr : Ran preprocess (Orderly H) w) : w.Kept H := by
  -- Induction on the run; each step of the runtime has a lemma on what it writes.
  induction hr with
  | empty => exact ⟨.empty, fun i s hs => by cases hs⟩
  | @opened w kv' s faults archives known handle id agent createdBy root now later i _ hnow hlater
      hcond _ hrun ih =>
    have := (wp_open_rostered ih.rostered hH hcond.1 hcond.2 archives known id agent createdBy root
        hnow hlater).runs hrun
    exact ih.update this.1 ⟨⟨handle, this.2.1, hcond.1⟩, this.2.2⟩
  | @refused w kv' e faults archives known handle id agent createdBy root now later _ hnow hlater
      hcond hrun ih =>
    have := (wp_open_rostered ih.rostered hH hcond.1 hcond.2 archives known id agent createdBy root
        hnow hlater).runs hrun
    exact ⟨this, ih.live⟩
  | @turned w kv' s r faults i t now later _ hi hcond hrun ih =>
    obtain ⟨⟨h, hh, hfam⟩, hc⟩ := ih.live i s hi
    obtain ⟨a, ha⟩ := ih.rostered.agent h
    have := (wp_asked hh ih.rostered.typed hc (fun he => ih.recorded ha hh (hcond he)) now
        later).runs hrun
    exact ih.wrote hH hi this.1 hh ha this.2
  | @compacted w kv' s r faults i prompt summarize archive now _ hi hcond hrun ih =>
    obtain ⟨⟨h, hh, hfam⟩, hc⟩ := ih.live i s hi
    obtain ⟨a, ha⟩ := ih.rostered.agent h
    have := (wp_compact_wrote hh ih.rostered.typed hc (fun he => ih.recorded ha hh (hcond he)) now).runs hrun
    exact ih.wrote hH hi this.1 hh ha this.2
  | @truncated w kv' s r faults i turns _ hi _ hrun ih =>
    obtain ⟨⟨h, hh, hfam⟩, hc⟩ := ih.live i s hi
    obtain ⟨a, ha⟩ := ih.rostered.agent h
    have := (wp_truncate_wrote hh ih.rostered.typed a turns).runs hrun
    exact ih.wrote hH hi this.1 hh ha this.2
  | @closed w i _ ih =>
    refine ⟨ih.rostered, fun j s hj => ?_⟩
    by_cases hij : j = i
    · subst hij
      simp at hj
    · dsimp only at hj
      rw [Function.update_of_ne hij] at hj
      exact ih.live j s hj
  | @deleted w kv' r faults handle _ hcond hrun ih =>
    obtain ⟨hfam, hrow, hf⟩ := hcond
    obtain rfl : faults = False := eq_false hf
    have hwp : Prog.wp False memory (deleteConversation handle) (fun _ => Rostered H)
        (fun _ => Rostered H) w.kv := by
      unfold deleteConversation
      rw [Prog.wp_bind]
      refine (wp_delete_rostered ih.rostered hH hfam hrow).mono (fun b kv₁ h₁ => ?_)
        fun _ _ he => he.elim
      cases b <;> exact h₁
    have := hwp.runs hrun
    cases r <;> exact ⟨this, ih.live⟩
  | @purged w kv' r faults agent _ hcond hrun ih =>
    obtain ⟨hrow, hf⟩ := hcond
    obtain rfl : faults = False := eq_false hf
    -- the purge deletes the sessions that the agent's rows name
    have hall : ∀ g ∈ rowHandles (some agent) w.kv, H g ∧ RowStored g w.kv := by
      intro g hg
      obtain ⟨m, hm, ha⟩ := ih.rostered.mem_rowHandles_some.mp hg
      exact ⟨ih.rostered.own g _ hm, hrow g m hm ha⟩
    have hwp : Prog.wp False memory (deleteSessionsOf agent) (fun _ => Rostered H)
        (fun _ => Rostered H) w.kv := by
      unfold deleteSessionsOf
      rw [Prog.wp_bind, Prog.wp_interp, Basis.wp, reads_indexedHandles]
      exact (wp_deleteAll_rostered hH ih.rostered hall 0).mono (fun _ _ h₁ => h₁)
        fun _ _ he => he.elim
    have := hwp.runs hrun
    cases r <;> exact ⟨this, ih.live⟩
  | @elsewhere w kv' _ hc ih => exact ⟨ih.rostered.elsewhere hc, ih.live⟩

/-- While records are written only where they are stored, and deleted with their rows, the index
accounts for the sessions. -/
theorem index_accounts (hH : Family H) (hr : Ran preprocess (Orderly H) w) : Accounted w.kv := by
  have hkept := hr.kept hH
  exact ⟨hkept.rostered.listing, hkept.rostered.stored, hkept.rostered.purge hH⟩

end

end

/-! ## The time a session was created at -/

section
open Plain

theorem fresh_opened (faults : Prop) : Prog.Runs faults memory
    (openSession (fun _ => none) (fun _ => true) "chat".toList 1 ⟨0⟩ "user".toList none
      "t0+00:00".toList "t1+00:00".toList) ∅ (.ok fresh) freshStore :=
  Prog.runs_of_interp faults rfl

def hello : Asked Message := .own "hello".toList [] (.done [⟨"assistant".toList, "hi".toList⟩] [])

def prompt (id : Nat) (handle : Str) : Session Message :=
  { Session.new id ⟨0⟩ "user".toList "t0+00:00".toList with handle := some handle }

def prompting (id : Nat) (handle : Str) : KvM Message (Session Message) :=
  openSession (fun _ => none) (fun _ => true) handle id ⟨0⟩ "user".toList none "t0+00:00".toList
    "t0+00:00".toList

def Prompted (h : Str) : Prop := h = "chat".toList ∨ h = "talk".toList

theorem clear_prompted {g h : Str} (hg : ¬ components g <+: components h)
    (hh : (components h).length ≤ (components g).length) :
    Clear g h := by
  refine ⟨hg, fun t _ hs => ?_⟩
  have := hs.length_le
  rw [List.length_cons] at this
  omega

theorem family_prompted : Family Prompted := by
  intro g h hg hh hne
  rcases hg with rfl | rfl
  · rcases hh with rfl | rfl
    · exact absurd rfl hne
    · exact clear_prompted (by decide) (by decide)
  · rcases hh with rfl | rfl
    · exact clear_prompted (by decide) (by decide)
    · exact absurd rfl hne

def twoOpen : Kv Message := settle (prompting 2 "talk".toList)
    (settle (prompting 1 "chat".toList) ∅)

def toldOnce : Kv Message :=
  settle (hello.exec noHook (prompt 1 "chat".toList) "t2+00:00".toList "t3+00:00".toList) twoOpen

theorem hello_answers (s : Session Message) (now later : Str) (kv : Kv Message) :
    ∃ r, Prog.Runs False memory (hello.exec noHook s now later) kv (.ok r)
    (settle (hello.exec noHook s now later) kv) := by
  have hwp : Prog.wp False memory (hello.exec noHook s now later)
      (fun r _ => r.1 = ownAfter noHook s "hello".toList []
        (.done [⟨"assistant".toList, "hi".toList⟩] [])) (fun _ _ => False) kv :=
    wp_ownTurn s "hello".toList [] (.done [⟨"assistant".toList, "hi".toList⟩] []) now later
  obtain ⟨r, hr⟩ := runs_settle False (hello.exec noHook s now later) kv
  have hres := hwp.runs hr
  cases r with
  | ok r => exact ⟨r, hr⟩
  | error e => exact hres.elim

theorem recorded_of {s : Session Message} {h : Str} {kv : Kv Message} (hs : s.handle = some h)
    (hagent : (kv[((.session, metaKey h) : Cell)]?.bind Value.asMeta).map SessionMeta.agent =
      some s.agent) : Recorded s kv := by
  intro h' hh
  rw [hs] at hh
  cases hh
  obtain ⟨m, hm, ha⟩ := Option.map_eq_some_iff.mp hagent
  obtain ⟨v, hv, hmeta⟩ := Option.bind_eq_some_iff.mp hm
  cases v with
  | sessionMeta m' =>
    cases hmeta
    exact ⟨m, hv, ha⟩
  | _ => cases hmeta

theorem rowStored_of {h : Str} {kv : Kv Message}
    (hrow : (kv[((.session, metaKey h) : Cell)]?.bind Value.asMeta).all
      (fun m => (kv[((.session, sessionIndexKey m h) : Cell)]?).isSome) = true) : RowStored h kv := by
  intro m hm
  rw [hm] at hrow
  exact Option.isSome_iff_ne_none.mp hrow

/-- Two sessions are opened, the first has a turn and is deleted. -/
theorem index_accounts_instance : ∃ (w : World Message) (l : List (Str × SessionMeta)),
    Family Prompted ∧
    Ran noHook (Orderly Prompted) w ∧ Accounted w.kv ∧
      answer listSessions w.kv = .ok l ∧ l.map (·.1) = ["talk".toList] := by
  have hfirst : answer (prompting 1 "chat".toList) ∅ = .ok (prompt 1 "chat".toList) := by decide +kernel
  have hsecond : answer (prompting 2 "talk".toList) (settle (prompting 1 "chat".toList) ∅) =
      .ok (prompt 2 "talk".toList) := by
    decide +kernel
  have h₁ : Ran noHook (Orderly Prompted) ⟨settle (prompting 1 "chat".toList) ∅,
      Function.update (fun _ => none) 0 (some (prompt 1 "chat".toList))⟩ :=
    .opened False (fun _ => none) (fun _ => true) "chat".toList 1 ⟨0⟩ "user".toList none
      "t0+00:00".toList "t0+00:00".toList 0 .empty ⟨by decide, by decide⟩ ⟨by decide, by decide⟩
      ⟨.inl rfl, False.elim⟩ rfl (runs_settle_ok hfirst)
  have h₂ := h₁.opened False (fun _ => none) (fun _ => true) "talk".toList
    2 ⟨0⟩ "user".toList none "t0+00:00".toList "t0+00:00".toList 1 ⟨by decide, by decide⟩
      ⟨by decide, by decide⟩
    ⟨.inr rfl, False.elim⟩ rfl (runs_settle_ok hsecond)
  obtain ⟨r, hturn⟩ := hello_answers (prompt 1 "chat".toList) "t2+00:00".toList
      "t3+00:00".toList twoOpen
  have hrecorded : Recorded (prompt 1 "chat".toList) twoOpen := recorded_of rfl (by decide +kernel)
  have h₃ := h₂.turned False 0 hello "t2+00:00".toList "t3+00:00".toList rfl
      (fun _ => hrecorded) hturn
  have hrow : RowStored "chat".toList toldOnce := rowStored_of (by decide +kernel)
  have hdeleted : answer (deleteConversation "chat".toList) toldOnce = .ok () := by decide +kernel
  have h₄ := h₃.deleted False "chat".toList ⟨.inl rfl, hrow, id⟩ (runs_settle_ok hdeleted)
  have hlisted : (answer listSessions (settle (deleteConversation "chat".toList) toldOnce)).map
      (fun l => l.map (·.1)) =
      .ok ["talk".toList] := by
    decide +kernel
  have hacc := index_accounts family_prompted h₄
  obtain ⟨l, hl, -⟩ := hacc.listed
  refine ⟨_, l, family_prompted, h₄, hacc, hl, ?_⟩
  rw [show answer listSessions (settle (deleteConversation "chat".toList) toldOnce) = .ok l from hl]
    at hlisted
  exact Except.ok.inj hlisted

/-- The record is written with the time the live session was made at, a moment after the row. So the
row outlasts the session. -/
theorem row_outlasts_session : ¬ ∀ {w : World Message}, Ran noHook (fun _ _ _ => True) w →
    Accounted w.kv := by
  intro hall
  have hopen : Ran noHook (fun _ _ _ => True)
      ⟨freshStore, Function.update (fun _ => none) 0 (some fresh)⟩ :=
    .opened False _ _ _ _ _ _ _ _ _ 0 .empty ⟨by decide, by decide⟩ ⟨by decide, by decide⟩ trivial
      rfl (fresh_opened False)
  obtain ⟨r, hturn⟩ := hello_answers fresh "t2+00:00".toList "t3+00:00".toList freshStore
  have hturned := hopen.turned False 0 hello "t2+00:00".toList "t3+00:00".toList rfl trivial hturn
  obtain ⟨_, hdelete⟩ := runs_settle False (deleteConversation "chat".toList)
    (settle (hello.exec noHook fresh "t2+00:00".toList "t3+00:00".toList) freshStore)
  have hrows := (hall (hturned.deleted False "chat".toList trivial hdelete)).rows
  refine hrows (sessionIndexKey ⟨⟨0⟩, "user".toList, "t0+00:00".toList, [], [], 0, none, none⟩
    "chat".toList) "chat".toList
    (indexPrefix_isPrefix _ _) ?_ ?_
  · dsimp only
    decide +kernel
  · dsimp only
    decide +kernel

end

end Crabtalk.Runtime

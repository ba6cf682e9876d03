import Crabtalk.Backend.Plain
import Crabtalk.Crabdb.Backend
import Crabtalk.Crabdb.Crashes
import Crabtalk.Store.Messages

/-!
# Sessions kept in a database file

The session programs over the backend of a general install: one session is
written by one writer while others come and go, requests on those are cut
short, and the file is checkpointed and opened again in between.
-/

open Basis

namespace Crabtalk.Crabdb.Backend

open Store (Str AgentId KvM HistoryEntry SessionOp SessionSnapshot createSession loadSession Filed
  Typed Wire TextStd Chrono)

variable {μ : Type}

inductive Work (μ : Type)
  | done (g : Str) (op : SessionOp μ) (r : Except Store.Error Unit)
  | cut (g : Str) (op : SessionOp μ)
  | tended

def Work.edit (h : Str) (l : List (HistoryEntry μ)) : Work μ → List (HistoryEntry μ)
  | .done g op _ => if g = h then op.edit l else l
  | .cut _ _ => l
  | .tended => l

section
variable [TextStd] [Wire μ]

def Work.event : Work μ → Event μ
  | .done g op r => .served (op.exec g) r
  | .cut g op => .died (op.exec g)
  | .tended => .tended

variable [Chrono]

/-- The one writer of `h` edits it. Requests on other sessions may be anything, and be cut short. -/
def Work.Allowed (h : Str) : Work μ → Prop
  | .done g op _ => Store.Allowed h (g, op)
  | .cut g op => '/' ∉ g ∧ op.Timed ∧ g ≠ h
  | .tended => True

def written (h : Str) (ws : List (Work μ)) : List (HistoryEntry μ) := ws.foldl (Work.edit h) []

theorem Work.filed {h : Str} (hh : '/' ∉ h) {w : Work μ} (hw : w.Allowed h)
    {l : List (HistoryEntry μ)} (hlen : l.length ≤ 10 ^ 12)
    {kv kv' : Store.Kv μ} (hs : Stands kv w.event kv') (ht : Typed kv) (hf : Filed h l kv) :
    Typed kv' ∧ Filed h (w.edit h l) kv' := by
  have spared : ∀ {g : Str}, '/' ∉ g → g ≠ h → Store.Kept g kv kv' → Typed kv' ∧ Filed h l kv' :=
    fun hg hne hk =>
    ⟨hk.typed, hf.congr fun k hp => hk.frame _ (Store.sessionCells_apart hg hh hne hp)⟩
  cases w with
  | done g op r =>
    obtain ⟨hg, htimed, hedits⟩ := hw
    have hkept := Store.keeps_exec (F := False) htimed (ht.kept (g := g))
    cases hs with
    | served hi =>
      have hk : Store.Kept g kv kv' := by
        have := Prog.wp.outcome hkept hi
        cases r <;> exact this
      by_cases hgh : g = h
      · subst hgh
        have hend := Prog.wp.outcome (Store.wp_edit_filed (hedits rfl) ht.text hf hlen) hi
        rw [Work.edit, if_pos rfl]
        cases r with
        | ok a => exact ⟨hk.typed, hend⟩
        | error e => exact hend.elim
      · rw [Work.edit, if_neg hgh]
        exact spared hg hgh hk
  | cut g op =>
    obtain ⟨hg, htimed, hne⟩ := hw
    cases hs with
    | died n => exact spared hg hne (Prog.wp.stopped Store.Error.io
        (Store.keeps_exec htimed ht.kept) n)
  | tended =>
    cases hs
    exact ⟨ht, hf⟩

theorem course_filed {h : Str} (hh : '/' ∉ h) {ws : List (Work μ)} (hws : ∀ w ∈ ws, w.Allowed h)
    {l : List (HistoryEntry μ)}
    (hsmall : ∀ k, ((ws.take k).foldl (Work.edit h) l).length < 10 ^ 12) {kv kv' : Store.Kv μ}
    {es : List (Event μ)}
    (hc : Course Stands kv (ws.map Work.event ++ es) kv') (ht : Typed kv) (hf : Filed h l kv) :
    ∃ kv₁, Typed kv₁ ∧ Filed h (ws.foldl (Work.edit h) l) kv₁ ∧ Course Stands kv₁ es kv' := by
  induction ws generalizing l kv with
  | nil => exact ⟨kv, ht, hf, hc⟩
  | cons w ws ih =>
    cases hc with
    | cons hs hc =>
      have hlen : l.length < 10 ^ 12 := hsmall 0
      obtain ⟨ht₁, hf₁⟩ := Work.filed hh (hws w List.mem_cons_self) (Nat.le_of_lt hlen) hs ht hf
      exact ih (fun w' hw' => hws w' (List.mem_cons_of_mem _ hw'))
        (fun k => hsmall (k + 1)) hc ht₁ hf₁

/-- A session that was written from a new file on loads as the list its writer made of it, whatever
became of other sessions and however often the file was opened again. -/
theorem session_outlives {codec : Codec μ} {path : PathBuf} {options : Options} {w w' : World}
    {i : Inner} {s' : Db}
    (hext : path.extension ≠ some "tmp") (hfresh : (w.bytes path).length < headerLen)
    (hopen : openWith path options w = .ok i w')
    {h : Str} (hh : '/' ∉ h) (agent : AgentId) (createdBy : Str) (root : Option Str) {now : Str}
    (hnow : Chrono.IsTimestamp now)
    {ws : List (Work μ)} (hws : ∀ x ∈ ws, x.Allowed h)
    (hsmall : ∀ k, (written h (ws.take k)).length < 10 ^ 12)
    {r₀ : Except Store.Error Unit} {r : Except Store.Error (Option (SessionSnapshot μ))}
    (hrun : Course (Lives codec) ⟨i, w'⟩
      (.served (createSession h agent createdBy root now) r₀ ::
        (ws.map Work.event ++ [.served (loadSession h) r])) s')
    (hfit : Admits Stands (Event.Fit codec) ∅
      (.served (createSession h agent createdBy root now) r₀ ::
        (ws.map Work.event ++ [.served (loadSession h) r]))) :
    ∃ snap, r = .ok (some snap) ∧ snap.history = written h ws ∧
    snap.sessionMeta.messageCount = (written h ws).length := by
  have hnew := wp_openWith_fresh options hfresh hext
  rw [wp, hopen] at hnew
  -- the engine's run is simulated by a run on the keyspace
  obtain ⟨kv', hc, -⟩ := hrun.simulated (fun _ _ _ _ h he hl => hl.stands h he)
      ⟨∅, _, hnew, .empty⟩ hfit
  cases hc with
  | cons hcreate hc =>
    cases hcreate with
    | served hi =>
      have hvacant : Store.Vacant h (∅ : Store.Kv μ) := fun k _ => by simp
      have hwp := (Store.wp_create_filed hvacant agent createdBy root now).and
        (Store.keeps_createSession (g := h) Typed.empty.kept agent createdBy root hnow)
      have hend := Prog.wp.outcome hwp hi
      cases r₀ with
      | error e => exact hend.1.elim
      | ok a =>
        obtain ⟨kv₂, ht, hf, hc⟩ := course_filed hh hws hsmall hc hend.2.typed hend.1
        have hlen : (written h ws).length ≤ 10 ^ 12 := by
          have := hsmall ws.length
          rw [List.take_length] at this
          omega
        cases hc with
        | cons hload _ =>
          cases hload with
          | served hi =>
            have hend := Prog.wp.outcome (Store.wp_load_filed ht.metas hf hlen) hi
            cases r with
            | error e => exact hend.elim
            | ok snap =>
              obtain ⟨-, c, rfl, hhist, hcount⟩ := hend
              exact ⟨c, rfl, hhist, hcount⟩

end

/-! ### One life of a session -/

section
variable {codec : Codec μ} [DecidableEq μ]

instance (kv : Store.Kv μ) : ∀ o : Store.KvOp μ, Decidable (Fit codec kv o)
  | .put _ _ _ => inferInstanceAs (Decidable (_ ∧ _ ∧ _))
  | .get _ _ | .delete _ _ | .scanKeys _ _ | .scan _ _ => inferInstanceAs (Decidable True)

variable (codec) in
def admitted : Store.Kv μ → List (Event μ) → Bool
  | _, [] => true
  | kv, .served p _ :: es =>
    Prog.allowed Store.memory (Fit codec) p kv && match Prog.interp Store.memory p kv with
    | .ok _ kv' => admitted kv' es
    | .error _ kv' => admitted kv' es
  | kv, .died p :: es => Prog.allowed Store.memory (Fit codec) p kv &&
    (List.range (Prog.ops Store.memory p kv + 1)).all fun n =>
    admitted (Prog.after Store.memory n p kv) es
  | kv, .tended :: es => admitted kv es

theorem admits_of_admitted {es : List (Event μ)} {kv : Store.Kv μ}
    (h : admitted codec kv es = true) :
    Admits Stands (Event.Fit codec) kv es := by
  induction es generalizing kv with
  | nil => trivial
  | cons e es ih =>
    cases e with
    | served p r =>
      rw [admitted, Bool.and_eq_true] at h
      refine ⟨.of_allowed h.1, ?_⟩
      rintro kv' ⟨hi⟩
      have h := h.2
      rw [hi] at h
      cases r <;> exact ih h
    | died p =>
      rw [admitted, Bool.and_eq_true, List.all_eq_true] at h
      refine ⟨.of_allowed h.1, fun kv' hs => ?_⟩
      cases hs with
      | died n =>
        by_cases hn : n ≤ Prog.ops Store.memory p kv
        · exact ih (h.2 n (List.mem_range.mpr (Nat.lt_succ_of_le hn)))
        · rw [Prog.after_of_ops_le _ (Nat.le_of_not_le hn)]
          exact ih (h.2 _ (List.mem_range.mpr (Nat.lt_succ_self _)))
    | tended =>
      refine ⟨trivial, ?_⟩
      rintro kv' ⟨⟩
      exact ih h

/-! Events of a life, run. -/

variable (codec) in
def serveOn {α : Type} [DecidableEq α] (p : KvM μ α) (r : Except Store.Error α) (s : Db) : Option Db :=
  match Prog.unfailing (backend codec) p s with
  | some (r', s') => if r' = r then some s' else none
  | none => none

variable (codec) in
/-- The process dies `n` effects into an operation, on a file with nothing left behind. -/
def dieOn (o : Store.KvOp μ) (n : Nat) (s : Db) : Option Db :=
  if Clean s then ended ((Crabdb.Event.crash (call codec o) n .default).exec s) else none

def checkpointOn (s : Db) : Option Db := ended (exec .checkpoint s)

def reopenOn (s : Db) : Option Db := if Skippable s then ended (exec (.reopen .default) s) else none

variable {P : Db → Bool} {s s' : Db}

omit [DecidableEq μ] in
theorem lives_serveOn {α : Type} [DecidableEq α] {p : KvM μ α} {r : Except Store.Error α}
    (h : serveOn codec p r s = some s') :
    Lives codec s (.served p r) s' := by
  unfold serveOn at h
  split at h
  · rename_i r' s₁ hrun
    by_cases hr : r' = r
    · rw [if_pos hr] at h
      cases h
      cases hr
      exact .served (Prog.flawless_of_unfailing hrun)
    · rw [if_neg hr] at h
      cases h
  · cases h

theorem exists_of_ended {x : EStateM.Result Error Db Answer} (h : ended x = some s') :
    ∃ a, x = .ok a s' := by
  cases x with
  | ok a s =>
    cases h
    exact ⟨a, rfl⟩
  | error e s => cases h

omit [DecidableEq μ] in
theorem lives_dieOn {α : Type} {col : Store.Column} {key : Str} {value : Store.Value μ} {n : Nat}
    {k : Except Store.Error Unit → KvM μ α} (hn : n < 10)
    (h : dieOn codec (.put col key value) n s = some s') :
    Lives codec s (.died (.call (.put col key value) k)) s' := by
  unfold dieOn at h
  by_cases hclean : Clean s
  · rw [if_pos hclean] at h
    obtain ⟨a, hx⟩ := exists_of_ended h
    refine .died (.here _ _ _) (fun m l _ => ⟨trivial, .inl hclean, .inl ?_⟩) hx
    show n < 10 + _ + _
    omega
  · rw [if_neg hclean] at h
    cases h

omit [DecidableEq μ] in
theorem lives_checkpointOn (h : checkpointOn s = some s') : Lives codec s .tended s' := by
  obtain ⟨a, hx⟩ := exists_of_ended h
  exact .checkpoint hx

omit [DecidableEq μ] in
theorem lives_reopenOn (h : reopenOn s = some s') : Lives codec s .tended s' := by
  unfold reopenOn at h
  by_cases hs : Skippable s
  · rw [if_pos hs] at h
    obtain ⟨a, hx⟩ := exists_of_ended h
    exact .reopen hs hx
  · rw [if_neg hs] at h
    cases h

end

section
open Crabtalk.Backend (utf8 fromUtf8)
open Crabtalk.Backend.Plain (escaped field expect optText optField number entryJson readEntry)
open Store (SessionMeta Value)
open Store.Plain

def metaText (m : SessionMeta) : Str :=
  "\x7b\"agent\":\"".toList ++ (escaped m.agent.toStr ++ '"' ::
    (",\"created_by\":\"".toList ++ (escaped m.createdBy ++ '"' ::
      (",\"created_at\":\"".toList ++ (escaped m.createdAt ++ '"' ::
        (",\"title\":\"".toList ++ (escaped m.title ++ '"' ::
          (",\"updated_at\":\"".toList ++ (escaped m.updatedAt ++ '"' ::
            (",\"message_count\":".toList ++ (Nat.toDigits 10 m.messageCount ++
              (optText ",\"summary\":\"" m.summary ++
                (optText ",\"root\":\"" m.root ++ "\x7d".toList)))))))))))))

def parseMeta (text : Str) : Option SessionMeta := do
  let (agent, rest) ← field "\x7b\"agent\":\"" text
  let (createdBy, rest) ← field ",\"created_by\":\"" rest
  let (createdAt, rest) ← field ",\"created_at\":\"" rest
  let (title, rest) ← field ",\"title\":\"" rest
  let (updatedAt, rest) ← field ",\"updated_at\":\"" rest
  let rest ← expect ",\"message_count\":".toList rest
  let (messageCount, rest) := number rest
  let (summary, rest) ← optField ",\"summary\":\"" rest
  let (root, _) ← optField ",\"root\":\"" rest
  let agent ← AgentId.ofStr agent
  return { agent, createdBy, createdAt, title, updatedAt, messageCount, summary, root }

def sessions : Codec Message where
  bytes
    | .sessionMeta m => utf8 (metaText m)
    | .entry e => entryJson e
    | .raw s => utf8 s
    | _ => []
  value _ key bytes :=
    match key.splitOn '/' with
    | [_, _, _, ['m', 'e', 't', 'a']] =>
      (((fromUtf8 bytes).bind parseMeta).map Value.sessionMeta).getD (.raw [])
    | [_, _, _, ['m', 's', 'g'], _] => ((readEntry bytes).map Value.entry).getD (.raw [])
    | _ => .raw (keyOf bytes)

def ping : HistoryEntry Message := (HistoryEntry.user "ping".toList).inject

/-- A process dies creating another session, the next one creates it, and the file is opened
again. -/
def oneWork : List (Work Message) :=
  [.cut "aux".toList (.create ⟨0⟩ [] none "t2+00:00".toList),
    .done "aux".toList (.create ⟨0⟩ [] none "t3+00:00".toList) (.ok ()),
    .done "chat".toList (.append [ping] "t1+00:00".toList) (.ok ()), .tended, .tended]

def loaded : SessionSnapshot Message :=
  ⟨⟨⟨0⟩, [], "t0+00:00".toList, [], "t1+00:00".toList, 1, none, none⟩, [ping.persist], none⟩

def oneSession : List (Event Message) :=
  .served (createSession "chat".toList ⟨0⟩ [] none "t0+00:00".toList) (.ok ()) ::
    (oneWork.map Work.event ++ [.served (loadSession "chat".toList) (.ok (some loaded))])

def auxMeta : SessionMeta := ⟨⟨0⟩, [], "t2+00:00".toList, [], "t2+00:00".toList, 0, none, none⟩

def chatCreated : KvM Message Unit := createSession "chat".toList ⟨0⟩ [] none "t0+00:00".toList

def auxCreated : KvM Message Unit := createSession "aux".toList ⟨0⟩ [] none "t3+00:00".toList

def auxRecord : Store.KvOp Message :=
  .put .session (Store.metaKey "aux".toList) (.sessionMeta auxMeta)

def lived : Option Db := do
  let s ← opened
  let s ← serveOn sessions chatCreated (.ok ()) s
  let s ← dieOn sessions auxRecord 8 s
  let s ← serveOn sessions auxCreated (.ok ()) s
  let s ← serveOn sessions ((SessionOp.append [ping] "t1+00:00".toList).exec "chat".toList) (.ok ()) s
  let s ← reopenOn s
  let s ← checkpointOn s
  serveOn sessions (loadSession "chat".toList) (.ok (some loaded)) s

theorem exists_oneSession : ∃ i w' s', openWith store .default begun = .ok i w' ∧
    Course (Lives sessions) ⟨i, w'⟩ oneSession s' := by
  have h : lived.isSome = true := by decide +kernel
  obtain ⟨s', hs'⟩ := Option.isSome_iff_exists.mp h
  simp only [lived, Option.bind_eq_bind, Option.bind_eq_some_iff] at hs'
  obtain ⟨s₀, hopen, s₁, hcreated, s₂, hdied, s₃, hother, s₄, hadded, s₅, hreopened, s₆, hchecked,
      hloaded⟩ := hs'
  unfold opened at hopen
  split at hopen
  · rename_i i w' hok
    cases hopen
    have hcreate : Lives sessions ⟨i, w'⟩ (.served chatCreated (.ok ())) s₁ :=
      lives_serveOn hcreated
    have hdie : Lives sessions s₁ (.died (createSession "aux".toList ⟨0⟩ [] none "t2+00:00".toList)) s₂ :=
      lives_dieOn (by decide) hdied
    have hserve : Lives sessions s₂ (.served auxCreated (.ok ())) s₃ := lives_serveOn hother
    have happend : Lives sessions s₃
        (.served ((SessionOp.append [ping] "t1+00:00".toList).exec "chat".toList) (.ok ())) s₄ :=
      lives_serveOn hadded
    have hload : Lives sessions s₆ (.served (loadSession "chat".toList) (.ok (some loaded))) s' :=
      lives_serveOn hloaded
    exact ⟨i, w', s', hok, .cons hcreate
      (.cons hdie (.cons hserve (.cons happend (.cons (lives_reopenOn hreopened)
      (.cons (lives_checkpointOn hchecked) (.cons hload (.nil _)))))))⟩
  · cases hopen

theorem session_outlives_oneSession :
    ∃ snap, Except.ok (some loaded) =
    (.ok (some snap) : Except Store.Error (Option (SessionSnapshot Message))) ∧
      snap.history = written "chat".toList oneWork ∧ snap.sessionMeta.messageCount =
      (written "chat".toList oneWork).length := by
  obtain ⟨i, w', s', hopen, hrun⟩ := exists_oneSession
  have hws : ∀ x ∈ oneWork, x.Allowed "chat".toList := by
    have htime : Chrono.IsTimestamp "t2+00:00".toList ∧ Chrono.IsTimestamp "t3+00:00".toList :=
      ⟨⟨by decide, by decide⟩, by decide, by decide⟩
    simpa [oneWork, Work.Allowed, Store.Allowed, SessionOp.Timed, SessionOp.Edits] using htime
  have hsmall : ∀ k, (written "chat".toList (oneWork.take k)).length < 10 ^ 12 := by
    intro k
    rcases k with _ | _ | _ | _ | _ | k
    all_goals simp [oneWork, written, Work.edit, SessionOp.edit]
  have hnow : Chrono.IsTimestamp "t0+00:00".toList := ⟨by decide, by decide⟩
  exact session_outlives (by decide) (by decide) hopen (by decide) ⟨0⟩ [] none hnow hws hsmall hrun
    (admits_of_admitted (by decide +kernel))

end

end Crabtalk.Crabdb.Backend

import Crabtalk.Store.Fresh

/-! # Searching what one writer wrote -/

open Basis

namespace Crabtalk.Store

section
variable {μ : Type} [TextStd] [Wire μ] [Chrono] {s s' : Kv μ} {C C' : TextIndex → Corpus}

theorem Fresh.exec {g : Str} {op : SessionOp μ} (hf : Fresh C s) (hg : '/' ∉ g) (ht : op.Timed)
    (hcreate : ∀ agent createdBy root now, op = .create agent createdBy root now →
      s[((.session, metaKey g) : Cell)]? = none)
    (happend : ∀ es now, op = .append es now → (s.under .session (messagePrefix g)).length +
      es.length < 2 ^ 32)
    (hupdate : ∀ m, op = .update m → s[((.session, metaKey g) : Cell)]? = none →
      m.messageCount = 0) :
    Prog.wp False memory (op.exec g) (fun _ s' => ∃ C', Fresh C' s') (fun _ s' => ∃ C', Fresh C' s') s := by
  cases op with
  | create agent createdBy root now =>
    exact (fresh_create hf hg (hcreate agent createdBy root now rfl) agent createdBy root ht).mono
      (fun _ _ h => h) fun _ _ h => h.elim
  | append es now =>
    refine fresh_append hf hg es now fun m hm => ?_
    obtain ⟨l, hl, hlen, hcount⟩ := (hf.settled g hg).filed hm
    have hkeys := congrArg List.length (hl.toLaid.scan (by omega))
    have := happend es now rfl
    simp at hkeys
    omega
  | events lines => exact (fresh_events hf hg lines).mono (fun _ _ h => h) fun _ _ h => h.elim
  | compact archive => exact (fresh_compact hf hg archive).mono (fun _ _ h => h) fun _ _ h => h.elim
  | truncate keep => exact (fresh_truncate hf hg keep).mono (fun _ _ h => h) fun _ _ h => h.elim
  | update m => exact (fresh_update hf hg m (hupdate m rfl)).mono (fun _ _ h => h) fun _ _ h => h.elim
  | delete =>
    exact Prog.wp_bind.mpr ((fresh_delete hf hg).mono (fun _ _ h => h) fun _ _ h => h.elim)

/-- Work that leaves the session column and the message index alone. -/
theorem Fresh.aside (hf : Fresh C s) (ht : Typed s') (he : Exact C' s')
    (hC : C' .messages = C .messages)
    (hs : ∀ k, s'[((.session, k) : Cell)]? = s[((.session, k) : Cell)]?) : Fresh C' s' := by
  refine ⟨he, ht, fun h hh => ?_, fun k text weight hc => ?_⟩
  · rcases hf.settled h hh with ⟨l, hl, hlen⟩ | ⟨hm, hvac⟩
    · exact .inl ⟨l, hl.congr fun k _ => hs k, hlen⟩
    · exact .inr ⟨by rw [hs, hm], hvac.congr fun k _ => hs k⟩
  · rw [hC] at hc
    obtain ⟨h, i, e, role, hh, hi, hk, hcell, hindex⟩ := hf.mirrors k text weight hc
    exact ⟨h, i, e, role, hh, hi, hk, by rw [hs, hcell], hindex⟩

/-! ## Runs of one writer -/

/-- What a writer may ask: a session is created where none is stored, and its messages stay within a `u32`. -/
def SessionOp.Allowed (g : Str) (s : Kv μ) : SessionOp μ → Prop
  | .create _ _ _ now => s[((.session, metaKey g) : Cell)]? = none ∧ Chrono.IsTimestamp now
  | .append es _ => (s.under .session (messagePrefix g)).length + es.length < 2 ^ 32
  | _ => True

/-- A record that is not stored yet is written with no messages to its count. -/
def SessionOp.Counted (g : Str) (s : Kv μ) : SessionOp μ → Prop
  | .update m => s[((.session, metaKey g) : Cell)]? = none → m.messageCount = 0
  | _ => True

inductive Written (cond : Str → Kv μ → SessionOp μ → Prop) : Kv μ → Prop
  | empty : Written cond ∅
  | session {s s' : Kv μ} {r : Except Error Unit} (g : Str) (op : SessionOp μ) : Written cond s →
      '/' ∉ g → op.Allowed g s → cond g s op →
      Prog.Runs False memory (op.exec g) s r s' → Written cond s'
  | remember {s s' : Kv μ} {r : Except Error Unit} (key text : Str) (weight : ℚ) : Written cond s →
      Prog.Runs False memory (indexText .memory key text weight) s r s' → Written cond s'
  | forget {s s' : Kv μ} {r : Except Error Unit} (key : Str) : Written cond s →
      Prog.Runs False memory (dropText .memory key) s r s' → Written cond s'
  | elsewhere {s s' : Kv μ} : Written cond s →
      Changes (fun c => c.1 ≠ .session ∧ c.1 ≠ .text) s s' → Written cond s'

theorem Written.fresh (h : Written SessionOp.Counted s) : ∃ C, Fresh C s := by
  induction h with
  | empty => exact ⟨_, .empty⟩
  | @session s s' r g op _ hg hallowed hcounted hr ih =>
    obtain ⟨C, hf⟩ := ih
    have htimed : op.Timed := by
      cases op with
      | create agent createdBy root now => exact hallowed.2
      | _ => trivial
    have hwp := hf.exec hg htimed (fun _ _ _ _ he => by subst he; exact hallowed.1)
        (fun _ _ he => by subst he; exact hallowed)
      fun _ he => by subst he; exact hcounted
    have := hwp.runs hr
    cases r with
    | ok _ => exact this
    | error _ => exact this
  | @remember s s' r key text weight _ hr ih =>
    obtain ⟨C, hf⟩ := ih
    have := ((wp_indexText_exact hf.exact).and (wp_indexText hf.typed.text)).runs hr
    cases r with
    | ok _ =>
      refine ⟨_, hf.aside (hf.typed.index this.2) this.1 (Function.update_of_ne (by decide) _ _) fun k => ?_⟩
      exact this.2.2 _ fun hc => by cases hc.1
    | error _ => exact this.1.elim
  | @forget s s' r key _ hr ih =>
    obtain ⟨C, hf⟩ := ih
    have := ((wp_dropText_exact hf.exact).and (wp_dropText hf.typed.text)).runs hr
    cases r with
    | ok _ =>
      refine ⟨_, hf.aside (hf.typed.index this.2) this.1 (Function.update_of_ne (by decide) _ _) fun k => ?_⟩
      exact this.2.2 _ fun hc => by cases hc.1
    | error _ => exact this.1.elim
  | @elsewhere s s' _ hc ih =>
    obtain ⟨C, hf⟩ := ih
    have htext : ∀ k, s'[((.text, k) : Cell)]? = s[((.text, k) : Cell)]? :=
      fun k => hc _ fun hp => hp.2 rfl
    have htyped := hf.typed.of_session (hf.typed.text.of_eq fun k hk => hc k fun hp => hp.2 hk)
        (hc.mono fun c hp => hp.1)
    exact ⟨C, hf.aside htyped (hf.exact.of_text htext) rfl fun k => hc _ fun hp => hp.1 rfl⟩

variable [SearchStd μ]

/-- Every search over what one writer wrote answers, and every hit rests on a message that is stored. -/
theorem search_answers (hs : Written SessionOp.Counted s) (query : Str) (opts : SearchOptions) :
    ∃ hits, Prog.interp memory (searchSessions query opts) s = .ok hits s ∧
    Answers query opts s hits := by
  obtain ⟨C, hf⟩ := hs.fresh
  obtain ⟨hits, s', hi, rfl, ha⟩ :=
    (wp_searchSessions hf.exact hf.typed.metas hf.mirrors (fun g hg => hf.legible hg) query opts).answers
  exact ⟨hits, hi, ha⟩

end

/-! ## A record written ahead of its session -/

section
open Plain

def Plain.logApprox (x : ℚ) : ℚ := x * (6 + x) / (6 + 4 * x)

scoped instance Plain.search : SearchStd Message where
  isWhitespace := Char.isWhitespace
  charLowercase c := [c.toLower]
  slash_charLowercase c h := by
    have hl := TextStd.slash_toLowercase [c]
    simp only [List.mem_singleton] at h hl
    exact (hl (by simp [TextStd.toLowercase, ← h])).symm
  weigh df docs tf len totalLen weight :=
    Plain.logApprox ((docs - df + 1 / 2) / (df + 1 / 2)) *
      (tf * (6 / 5 + 1) / (tf + 6 / 5 * (1 - 3 / 4 + 3 / 4 * (len / (totalLen / docs))))) * weight
  plus a b := a + b
  toolName _ := none

def Plain.left (s : Kv Message) (op : SessionOp Message) : Kv Message :=
  match Prog.interp memory (op.exec "chat".toList) s with
  | .ok _ s' => s'
  | .error _ s' => s'

theorem Plain.written_left {cond : Str → Kv Message → SessionOp Message → Prop} {s : Kv Message}
    {op : SessionOp Message} (hs : Written cond s)
    (ha : op.Allowed "chat".toList s) (hc : cond "chat".toList s op) : Written cond (left s op) := by
  have hr := Prog.runs_interp False memory (op.exec "chat".toList) s
  unfold left
  unfold Basis.wp at hr
  split <;> rename_i he <;> rw [he] at hr <;> exact hs.session _ op (by decide) ha hc hr

/-- The record is written before the session, with a count of one. The second
message then takes the index of the first, and is not one that is indexed. -/
def Plain.aheadOfSession : List (SessionOp Message) :=
  [.update ⟨⟨0⟩, [], "t0+00:00".toList, [], "t0+00:00".toList, 1, none, none⟩,
   .append [.user "alpha".toList] "t1+00:00".toList,
   .truncate 1,
   .append [.system "rules".toList] "t2+00:00".toList]

def Plain.anyHits : SearchOptions := ⟨10, 0, 0, none, none⟩

theorem search_stale : ¬ ∀ {s : Kv Message}, Written (fun _ _ _ => True) s → ∀ query opts,
    ∃ hits, Prog.interp memory (searchSessions query opts) s = .ok hits s ∧
    Answers query opts s hits := by
  intro hall
  have hw : Written (fun _ _ _ => True) (aheadOfSession.foldl left ∅) := by
    have hstep : ∀ {s : Kv Message} {op : SessionOp Message}, Written (fun _ _ _ => True) s →
        op.Allowed "chat".toList s →
        Written (fun _ _ _ => True) (left s op) := fun hs ha => written_left hs ha trivial
    simp only [aheadOfSession, List.foldl_cons, List.foldl_nil]
    refine hstep (hstep (hstep (hstep .empty ?_) ?_) ?_) ?_
    · exact trivial
    · show _ < _
      decide +kernel
    · exact trivial
    · show _ < _
      decide +kernel
  obtain ⟨hits, hi, ha⟩ := hall hw "alpha".toList anyHits
  have hhit : (match Prog.interp memory (searchSessions "alpha".toList
      anyHits) (aheadOfSession.foldl left ∅) with
      | .ok hits _ => hits.any fun hit => decide (hit.sessionHandle = "chat".toList ∧
          hit.msgIdx = 1)
      | .error _ _ => false) = true := by decide +kernel
  rw [hi] at hhit
  obtain ⟨hit, hmem, hit'⟩ := List.any_eq_true.mp hhit
  obtain ⟨hhandle, hidx⟩ := of_decide_eq_true hit'
  obtain ⟨e, text, role, hcell, hindex, -⟩ := ha.backed hit hmem
  rw [hhandle, hidx] at hcell
  have hnone : ((aheadOfSession.foldl left ∅)[((.session, messageKey "chat".toList 1) : Cell)]?.bind
      Value.asEntry).bind
      HistoryEntry.indexable = none := by decide +kernel
  rw [hcell] at hnone
  simp [Value.asEntry, HistoryEntry.indexable_persist hindex] at hnone

theorem search_answers_instance : ∃ (s : Kv Message) (hits : List SessionHit),
    Written SessionOp.Counted s ∧
    Prog.interp memory (searchSessions "alpha".toList anyHits) s = .ok hits s ∧
    Answers "alpha".toList anyHits s hits ∧
    hits.map (fun hit => (hit.sessionHandle, hit.msgIdx)) = [("chat".toList, 0)] := by
  have hw : Written SessionOp.Counted (([.create ⟨0⟩ [] none "t0+00:00".toList,
      .append [.user "alpha".toList] "t1+00:00".toList] : List (SessionOp Message)).foldl left ∅) := by
    simp only [List.foldl_cons, List.foldl_nil]
    refine written_left (written_left .empty ?_ ?_) ?_ ?_
    · exact ⟨by simp, by decide, by decide⟩
    · exact trivial
    · show _ < _
      decide +kernel
    · exact trivial
  obtain ⟨hits, hi, ha⟩ := search_answers hw "alpha".toList anyHits
  have hhits :
      (match Prog.interp memory (searchSessions "alpha".toList
      anyHits) (([.create ⟨0⟩ [] none "t0+00:00".toList,
      .append [.user "alpha".toList] "t1+00:00".toList] : List (SessionOp Message)).foldl left ∅) with
      | .ok hits _ => hits.map fun hit => (hit.sessionHandle, hit.msgIdx)
      | .error _ _ => []) = [("chat".toList, 0)] := by decide +kernel
  rw [hi] at hhits
  exact ⟨_, hits, hw, hi, ha, hhits⟩

end

end Crabtalk.Store

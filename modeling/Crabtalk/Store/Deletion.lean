import Crabtalk.Store.Reach

/-! # What deleting a session leaves -/

open Basis

namespace Crabtalk.Store

variable {μ : Type} {F : Prop} {s s' : Kv μ}

/-! ## The documents -/

theorem docKey_notMem_docCells {index i : TextIndex} {a b : Str} (hne : ¬ (index = i ∧ a = b)) :
    ¬ docCells index b (.text, docKey i a) := by
  rintro ⟨-, he | ⟨term, -, he⟩ | he⟩
  · obtain ⟨hi, ha⟩ := docKey_inj he
    exact hne ⟨hi.symm, ha⟩
  · exact docKey_ne_postingKey he
  · exact docKey_ne_statsKey he

theorem wp_dropText_gone {index : TextIndex} {key : Str} (ht : TextTyped s) :
    Prog.wp F memory (dropText index key) (fun _ s' => s'[((.text, docKey index key) : Cell)]? =
      none) (fun _ _ => F) s := by
  rw [dropText, Prog.wp_bind, wp_getJson]
  refine ⟨?_, fun hF _ => hF⟩
  cases hd : s[((.text, docKey index key) : Cell)]? with
  | none => exact hd
  | some v =>
    obtain ⟨d, rfl, hterms⟩ := ht.docs index key v hd
    simp only [Value.asDoc]
    rw [Prog.wp_bind]
    refine Prog.wp.mono ?_ (fun _ _ he => he) (Prog.wp_forM (I := TextTyped) ht ?_)
    · intro _ s₂ h₂
      rw [Prog.wp_bind, wp_delete, Prog.wp_bind]
      refine ⟨wp_stats (h₂.erase _) (fun st => ?_) fun hF _ => hF, fun hF _ => hF⟩
      rw [wp_put, find_insert, if_neg (by simp [docKey_ne_statsKey.symm]), find_erase, if_pos rfl]
      exact ⟨rfl, fun hF _ => hF⟩
    · intro term _ s₁ h₁
      rw [Prog.wp_bind, wp_delete]
      exact ⟨h₁.erase _, fun hF _ => hF⟩

theorem wp_dropAll {index : TextIndex} {n : Nat} : ∀ (keys : List Str) (s : Kv μ), TextTyped s →
    Prog.wp F memory (forM keys fun key => dropText index (key.drop n))
      (fun _ s' => ∀ key, key ∈ keys.map (·.drop n) ∨
        s[((.text, docKey index key) : Cell)]? = none →
        s'[((.text, docKey index key) : Cell)]? = none) (fun _ _ => F) s
  | [], s, _ => fun key hk => hk.resolve_left List.not_mem_nil
  | k :: keys, s, ht => by
    rw [List.forM_cons, Prog.wp_bind]
    refine ((wp_dropText ht).and (wp_dropText_gone ht)).mono (fun _ s₁ ⟨h₁, hgone⟩ => ?_)
      fun _ _ he => he.2
    refine (wp_dropAll keys s₁ h₁.1).mono (fun _ s₂ h₂ key hk => h₂ key ?_) fun _ _ he => he
    by_cases hkey : key = k.drop n
    · subst hkey
      exact .inr hgone
    · rw [List.map_cons, List.mem_cons, or_assoc] at hk
      refine (hk.resolve_left hkey).imp_right fun hnone => ?_
      rw [h₁.2 _ (docKey_notMem_docCells fun he => hkey he.2), hnone]

theorem wp_dropTextPrefix_gone {index : TextIndex} {stem : Str} (ht : TextTyped s) :
    Prog.wp F memory (dropTextPrefix index stem)
      (fun _ s' => ∀ key, stem <+: key → s'[((.text, docKey index key) : Cell)]? = none)
      (fun _ _ => F) s := by
  rw [dropTextPrefix, Prog.wp_bind, wp_scanKeys]
  refine ⟨(wp_dropAll _ s ht).mono (fun _ s' h key hk => h key ?_) fun _ _ he => he, fun hF _ => hF⟩
  cases hd : s[((.text, docKey index key) : Cell)]? with
  | none => exact .inr rfl
  | some v =>
    refine .inl (List.mem_map.mpr ⟨docKey index key,
      List.mem_map.mpr ⟨((.text, docKey index key), v), ?_, rfl⟩, ?_⟩)
    · exact ColMap.mem_under.mpr ⟨hd, rfl, (List.prefix_append_right_inj _).mpr hk⟩
    · rw [docKey, List.drop_left]

/-! ## The keys -/

theorem wp_deleteKeys : ∀ (keys : List Str) (existed : Bool) (s : Kv μ),
    Prog.wp F memory (deleteKeys keys existed)
      (fun b s' => (∀ k, s'[((.session, k) : Cell)]? = if k ∈ keys then none
        else s[((.session, k) : Cell)]?) ∧
        (∀ k, s'[((.text, k) : Cell)]? = s[((.text, k) : Cell)]?) ∧
        (b = true ↔ existed = true ∨ ∃ k ∈ keys, s[((.session, k) : Cell)]? ≠ none))
      (fun _ _ => F) s
  | [], existed, s => ⟨fun k => by simp, fun _ => rfl, by simp⟩
  | key :: keys, existed, s => by
    rw [deleteKeys, Prog.wp_bind, wp_delete]
    refine ⟨?_, fun hF _ => hF⟩
    refine (wp_deleteKeys keys _ _).mono (fun b s' hdeleted => ?_) fun _ _ he => he
    obtain ⟨hs, ht, hb⟩ := hdeleted
    refine ⟨fun k => ?_, fun k => ?_, ?_⟩
    · rw [hs, find_erase]
      by_cases hk : key = k
      · simp [hk]
      · simp [hk, Ne.symm hk]
    · rw [ht, find_erase, if_neg (by simp)]
    · rw [hb, Bool.or_eq_true, Option.isSome_iff_ne_none, or_assoc]
      refine or_congr Iff.rfl ?_
      simp only [List.mem_cons, exists_eq_or_imp, find_erase]
      refine or_congr_right' fun hnone => exists_congr fun k => and_congr_right fun _ => ?_
      split
      · rename_i he
        cases he
        rw [Decidable.not_not] at hnone
        simp [hnone]
      · rfl

/-- The row `g` would leave the index through: that of its stored meta record. -/
def StoredRow (g : Str) (s : Kv μ) (k : Str) : Prop :=
  ∃ m, s[((.session, metaKey g) : Cell)]? = some (.sessionMeta m) ∧ k = sessionIndexKey m g

structure Deleted (g : Str) (s s' : Kv μ) : Prop where
  keys : ∀ k, sessionPrefix g <+: k → s'[((.session, k) : Cell)]? = none
  row : ∀ k, StoredRow g s k → s'[((.session, k) : Cell)]? = none
  rest : ∀ k, ¬ sessionPrefix g <+: k → ¬ StoredRow g s k →
    s'[((.session, k) : Cell)]? = s[((.session, k) : Cell)]?
  messages : ∀ key, sessionPrefix g <+: key → s'[((.text, docKey .messages key) : Cell)]? = none
  texts : ∀ key, sessionPrefix g <+: key → s'[((.text, docKey .sessionMeta key) : Cell)]? = none

theorem not_storedRow {g k : Str} (hk : sessionPrefix g <+: k) : ¬ StoredRow g s k := by
  rintro ⟨m, -, rfl⟩
  exact indexPrefix_not_session hk (indexPrefix_isPrefix m g)

/-- The rows left once the row of the stored meta record is gone. -/
theorem mem_rowsLeft {g : Str} {s₃ : Kv μ}
    (h₃ : ∀ k, s₃[((.session, k) : Cell)]? = none ∧ StoredRow g s k ∨
      s₃[((.session, k) : Cell)]? = s[((.session, k) : Cell)]? ∧ ¬ StoredRow g s k) (k : Str) :
    k ∈ ((s₃.under .session (sessionPrefix g)).map fun e => e.1.2) ↔ sessionPrefix g <+: k ∧
    s[((.session, k) : Cell)]? ≠ none := by
  rw [List.mem_map]
  constructor
  · rintro ⟨⟨⟨col, k⟩, v⟩, he, rfl⟩
    obtain ⟨hv, hcol, hk⟩ := ColMap.mem_under.mp he
    simp only at hcol hk
    subst hcol
    rcases h₃ k with ⟨hn, -⟩ | ⟨hs, -⟩
    · rw [hn] at hv
      cases hv
    · exact ⟨hk, by rw [← hs, hv]; simp⟩
  · rintro ⟨hk, hne⟩
    obtain ⟨v, hv⟩ := Option.ne_none_iff_exists'.mp hne
    rcases h₃ k with ⟨-, hr⟩ | ⟨hs, -⟩
    · exact absurd hr (not_storedRow hk)
    · exact ⟨((.session, k), v), ColMap.mem_under.mpr ⟨by rw [hs, hv], rfl, hk⟩, rfl⟩

theorem wp_deleteRows {g : Str} {s₃ : Kv μ}
    (h₃ : ∀ k, s₃[((.session, k) : Cell)]? = none ∧ StoredRow g s k ∨
      s₃[((.session, k) : Cell)]? = s[((.session, k) : Cell)]? ∧ ¬ StoredRow g s k)
    (hmessages : ∀ key, sessionPrefix g <+: key →
      s₃[((.text, docKey .messages key) : Cell)]? = none)
    (htexts : ∀ key, sessionPrefix g <+: key →
      s₃[((.text, docKey .sessionMeta key) : Cell)]? = none) :
    Prog.wp F memory (do deleteKeys (← scanKeys .session (sessionPrefix g)) false)
      (fun b s' => Deleted g s s' ∧
        (b = true ↔ ∃ k, sessionPrefix g <+: k ∧ s[((.session, k) : Cell)]? ≠ none))
      (fun _ _ => F) s₃ := by
  rw [Prog.wp_bind, wp_scanKeys]
  refine ⟨(wp_deleteKeys _ false s₃).mono (fun b s' ⟨hs', ht', hb⟩ => ?_) fun _ _ he => he,
    fun hF _ => hF⟩
  simp only [mem_rowsLeft h₃] at hs' hb
  refine ⟨⟨fun k hk => ?_, fun k hr => ?_, fun k hk hr => ?_, fun key hk => ?_, fun key hk => ?_⟩, ?_⟩
  · rw [hs']
    split
    · rfl
    · rename_i hn
      rcases h₃ k with ⟨h, -⟩ | ⟨h, -⟩
      · exact h
      · rw [h]
        by_contra hne
        exact hn ⟨hk, hne⟩
  · rw [hs']
    split
    · rfl
    · exact ((h₃ k).resolve_right fun h => h.2 hr).1
  · rw [hs', if_neg fun h => hk h.1]
    exact ((h₃ k).resolve_left fun h => hr h.2).1
  · rw [ht', hmessages key hk]
  · rw [ht', htexts key hk]
  · rw [hb]
    constructor
    · rintro (h | ⟨k, ⟨hk, hne⟩, -⟩)
      · cases h
      · exact ⟨k, hk, hne⟩
    · rintro ⟨k, hk, hne⟩
      refine .inr ⟨k, ⟨hk, hne⟩, ?_⟩
      rw [((h₃ k).resolve_left fun h => not_storedRow hk h.2).1]
      exact hne

theorem wp_deleteSession {g : Str} (ht : TextTyped s) (hm : MetasTyped s) :
    Prog.wp F memory (deleteSession g)
      (fun b s' => Deleted g s s' ∧
        (b = true ↔ ∃ k, sessionPrefix g <+: k ∧ s[((.session, k) : Cell)]? ≠ none))
      (fun _ _ => F) s := by
  have sess : ∀ {index : TextIndex} {s s' : Kv μ}, Indexed
      (stemCells index (sessionPrefix g)) s s' →
      ∀ k, s'[((.session, k) : Cell)]? = s[((.session, k) : Cell)]? := by
    intro index s s' h k
    refine h.2 _ ?_
    rintro ⟨_, _, hc⟩
    cases hc.1
  rw [deleteSession, Prog.wp_bind]
  refine ((wp_dropTextPrefix ht).and (wp_dropTextPrefix_gone ht)).mono (fun _ s₁ hfirst => ?_)
    fun _ _ he => he.2
  obtain ⟨h₁, hmsg⟩ := hfirst
  rw [Prog.wp_bind]
  refine ((wp_dropTextPrefix h₁.1).and (wp_dropTextPrefix_gone h₁.1)).mono (fun _ s₂ hsecond => ?_)
    fun _ _ he => he.2
  obtain ⟨h₂, htxt⟩ := hsecond
  have hs₂ : ∀ k, s₂[((.session, k) : Cell)]? = s[((.session, k) : Cell)]? := fun k => by
    rw [sess h₂, sess h₁]
  have hmsg₂ : ∀ key, sessionPrefix g <+: key → s₂[((.text, docKey .messages key) : Cell)]? =
      none := fun key hk => by
    rw [h₂.2, hmsg key hk]
    rintro ⟨a, -, hc⟩
    exact docKey_notMem_docCells (fun he => by cases he.1) hc
  -- The meta record is read before anything of the session column goes.
  rw [Prog.wp_bind, sessionMeta, wp_getJson, hs₂]
  refine ⟨?_, fun hF _ => hF⟩
  cases hmeta : s[((.session, metaKey g) : Cell)]? with
  | none =>
    refine wp_deleteRows (fun k => .inr ⟨hs₂ k, ?_⟩) hmsg₂ htxt
    rintro ⟨m, hm, -⟩
    rw [hmeta] at hm
    cases hm
  | some v =>
    obtain ⟨m, rfl⟩ := hm.metas g v hmeta
    simp only [Value.asMeta]
    rw [Prog.wp_bind, wp_delete]
    have htext : ∀ k, (s₂.erase (.session, sessionIndexKey m g))[((.text, k) : Cell)]? =
        s₂[((.text, k) : Cell)]? := fun k => by
      rw [find_erase, if_neg (by simp)]
    refine ⟨wp_deleteRows (fun k => ?_) (fun key hk => by rw [htext, hmsg₂ key hk])
      (fun key hk => by rw [htext, htxt key hk]), fun hF _ => hF⟩
    rw [find_erase]
    by_cases hk : k = sessionIndexKey m g
    · exact .inl ⟨by rw [if_pos (by rw [hk])], m, hmeta, hk⟩
    · refine .inr ⟨by rw [if_neg fun he => hk (congrArg Prod.snd he).symm, hs₂], ?_⟩
      rintro ⟨m', hm', hk'⟩
      rw [hmeta] at hm'
      cases hm'
      exact hk hk'

end Crabtalk.Store

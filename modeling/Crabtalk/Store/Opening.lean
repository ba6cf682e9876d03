import Crabtalk.Store.Spared

/-! # Opening a session beside others

While a session is loaded or created nobody else is at what is stored for it.
A read that fails makes loading fail, unless a message is read: one that
cannot be read is left out.
-/

open Basis

namespace Crabtalk.Store

variable {μ : Type} {h : Str} {s₀ s s' : Kv μ}

structure Elsewhere (h : Str) (s s' : Kv μ) : Prop where
  typed : WellTyped s → WellTyped s'
  own : ∀ k, sessionPrefix h <+: k → s'[((.session, k) : Cell)]? = s[((.session, k) : Cell)]?

instance : IsPreorder (Kv μ) (Elsewhere h) where
  refl _ := ⟨id, fun _ _ => rfl⟩
  trans _ _ _ h₁ h₂ := ⟨fun ht => h₂.typed (h₁.typed ht),
    fun k hk => (h₂.own k hk).trans (h₁.own k hk)⟩

theorem Elsewhere.aside (he : Elsewhere h s s') : Aside h s s' := ⟨he.typed, fun _ => he.own⟩

theorem Elsewhere.absent (he : Elsewhere h s s') (hn : ¬ Held h s) : ¬ Held h s' := by
  unfold Held at hn ⊢
  rw [he.own _ (sessionPrefix_metaKey h)]
  exact hn

def ReadsMessage (h : Str) : KvOp μ → Prop
  | .get col k => col = .session ∧ messagePrefix h <+: k
  | _ => False

instance : (o : KvOp μ) → Decidable (ReadsMessage h o)
  | .get col k => inferInstanceAs (Decidable (col = .session ∧ messagePrefix h <+: k))
  | .put _ _ _ | .delete _ _ | .scanKeys _ _ | .scan _ _ => instDecidableFalse

abbrev Opening {α : Type} (h : Str) (p : KvM μ α) (Q : α → Kv μ → Prop) (E : Error → Kv μ → Prop)
    (s : Kv μ) : Prop :=
  Prog.relyOn (fun o => ¬ ReadsMessage h o) memory (Elsewhere h) (Guards h) p Q E s

/-! ## Reading -/

theorem opening_getJson {α : Type} {decode : Value μ → Option α} {k : Str}
    {Q : Option α → Kv μ → Prop} {E : Error → Kv μ → Prop}
    (hk : sessionPrefix h <+: k) (hQ : ∀ a, readJson decode s .session k = .ok a →
      ∀ t, Elsewhere h s t → Q a t)
    (hE : ∀ e, readJson decode s .session k = .error e → ∀ t, Elsewhere h s t → E e t)
    (hfault : ¬ messagePrefix h <+: k → ∀ e t, Elsewhere h s t → E e t) :
    Opening h (getJson decode .session k) Q E s := by
  unfold getJson
  apply Prog.relyOn_bind
  refine Prog.relyOn_perform (fun _ => .refl) (fun s' he => ⟨.refl, fun t ht => ?_⟩) fun hn =>
    hfault fun hm => hn ⟨rfl, hm⟩
  have hst : Elsewhere h s t := trans_of (Elsewhere h) he ht
  rw [he.own k hk]
  unfold readJson at hQ hE
  cases hv : s[((.session, k) : Cell)]? with
  | none =>
    rw [hv] at hQ
    exact fun u hu => hQ none rfl u.1 (trans_of (Elsewhere h) hst hu)
  | some v =>
    rw [hv] at hQ hE
    dsimp only at hQ hE ⊢
    cases hd : decode v with
    | none =>
      rw [hd] at hE
      exact fun u hu => hE _ rfl u.1 (trans_of (Elsewhere h) hst hu)
    | some a =>
      rw [hd] at hQ
      exact fun u hu => hQ (some a) rfl u.1 (trans_of (Elsewhere h) hst hu)

/-- The messages are read as they were when loading began. -/
theorem opening_loadHistory (keys : List Str) (hkeys : ∀ k ∈ keys, messagePrefix h <+: k)
    (hs : Elsewhere h s₀ s) :
    Opening h (loadHistory keys)
      (fun l t => Elsewhere h s₀ t ∧ l = keys.filterMap fun k =>
        s₀[((.session, k) : Cell)]?.bind Value.asEntry) (fun _ _ => True) s := by
  -- Induction on the keys; other sessions' cells may change before each read.
  induction keys generalizing s with
  | nil => exact fun t ht => ⟨trans_of (Elsewhere h) hs ht, rfl⟩
  | cons key keys ih =>
    have hkey := hkeys key List.mem_cons_self
    have hown : sessionPrefix h <+: key := (sessionPrefix_messagePrefix h).trans hkey
    have hrest : ∀ t, Elsewhere h s t → Opening h (loadHistory keys)
        (fun l t => Elsewhere h s₀ t ∧ l = keys.filterMap fun k =>
          s₀[((.session, k) : Cell)]?.bind Value.asEntry) (fun _ _ => True) t :=
      fun t ht => ih (fun k hk => hkeys k (List.mem_cons_of_mem _ hk))
        (trans_of (Elsewhere h) hs ht)
    unfold loadHistory
    apply Prog.relyOn_bind
    apply Prog.relyOn_attempt
    rw [List.filterMap_cons]
    refine opening_getJson hown (fun a ha t ht => ?_) (fun e he t ht => ?_) fun hn => absurd hkey hn
    · unfold readJson at ha
      rw [hs.own key hown] at ha
      cases hv : s₀[((.session, key) : Cell)]? with
      | none =>
        rw [hv] at ha
        cases ha
        exact hrest t ht
      | some v =>
        rw [hv] at ha
        dsimp only [Option.bind_some] at ha ⊢
        cases hd : v.asEntry with
        | none =>
          rw [hd] at ha
          cases ha
        | some e =>
          rw [hd] at ha
          cases ha
          apply Prog.relyOn_bind
          refine (hrest t ht).mono (fun l t₁ h₁ => ?_) fun _ _ _ => trivial
          exact fun t₂ h₂ => ⟨trans_of (Elsewhere h) h₁.1 h₂, by rw [h₁.2]⟩
    · unfold readJson at he
      rw [hs.own key hown] at he
      cases hv : s₀[((.session, key) : Cell)]? with
      | none =>
        rw [hv] at he
        cases he
      | some v =>
        rw [hv] at he
        dsimp only [Option.bind_some] at he ⊢
        -- an entry that cannot be decoded is passed over
        cases hd : v.asEntry with
        | none => exact hrest t ht
        | some e =>
          rw [hd] at he
          cases he

/-- Where the record is, nothing is placed as well. -/
theorem placed_nil {m : SessionMeta}
    (hm : s[((.session, metaKey h) : Cell)]? = some (.sessionMeta m)) : Placed h [] s :=
  ⟨m, 0, hm, Nat.zero_le _, fun j hj => absurd hj (Nat.not_lt_zero j)⟩

/-- What loading brings: the record was there, with every turn that was placed. -/
def Brings (h : Str) (s : Kv μ) (c : SessionSnapshot μ) : Prop :=
  Placed h [] s ∧ (∀ b, Placed h b s → ∀ e ∈ b, e.persist ∈ c.history) ∧
    ∀ e ∈ c.history, e.autoInjected = false ∧ e.persist = e

theorem brings_of_keys {m : SessionMeta} {archive : Option Str} {keys : List Str}
    (hm : s[((.session, metaKey h) : Cell)]? = some (.sessionMeta m))
    (hkeys : ∀ i, s[((.session, messageKey h i) : Cell)]? ≠ none → messageKey h i ∈ keys) :
    Brings h s ⟨m, keys.filterMap fun k => s[((.session, k) : Cell)]?.bind Value.asEntry, archive⟩ := by
  refine ⟨placed_nil hm, fun b hb e he => ?_, fun e he => ?_⟩
  · obtain ⟨m', n, -, -, hcells⟩ := hb
    obtain ⟨j, hj, rfl⟩ := List.mem_iff_getElem.mp he
    have hcell := hcells j hj
    refine List.mem_filterMap.mpr ⟨messageKey h (n + j), hkeys _ (by rw [hcell]; simp), ?_⟩
    rw [hcell]
    rfl
  · obtain ⟨k, -, hk⟩ := List.mem_filterMap.mp he
    obtain ⟨v, -, hv⟩ := Option.bind_eq_some_iff.mp hk
    cases v with
    | entry e' =>
      cases hv
      exact ⟨rfl, rfl⟩
    | _ => cases hv

theorem opening_loadSession (ht : WellTyped s) : Opening h (loadSession h)
    (fun r t => Elsewhere h s t ∧ (r = none → ¬ Held h s) ∧ ∀ c, r = some c → Brings h s c)
    (fun _ _ => True) s := by
  unfold loadSession sessionMeta
  apply Prog.relyOn_bind
  refine opening_getJson (sessionPrefix_metaKey h) (fun r hr t₁ h₁ => ?_) (fun _ _ _ _ => trivial)
    fun _ _ _ _ => trivial
  unfold readJson at hr
  cases hv : s[((.session, metaKey h) : Cell)]? with
  | none =>
    rw [hv] at hr
    cases hr
    exact fun t ht' => ⟨trans_of (Elsewhere h) h₁ ht', fun _ hheld => hheld hv,
      fun c hc => by cases hc⟩
  | some v =>
    obtain ⟨m, rfl⟩ := ht.metas.metas h v hv
    rw [hv] at hr
    cases hr
    apply Prog.relyOn_bind
    refine opening_getJson (sessionPrefix_archiveKey h) (fun archive _ t₂ h₂ => ?_)
      (fun _ _ _ _ => trivial) fun _ _ _ _ => trivial
    apply Prog.relyOn_bind
    refine Prog.relyOn_perform (fun _ => .refl) (fun t₃ h₃ => ⟨.refl, fun t₄ h₄ => ?_⟩)
      fun _ _ _ _ => trivial
    have hs₃ : Elsewhere h s t₃ := trans_of (Elsewhere h) (trans_of (Elsewhere h) h₁ h₂) h₃
    apply Prog.relyOn_bind
    have hs₄ : Elsewhere h s t₄ := trans_of (Elsewhere h) hs₃ h₄
    refine (opening_loadHistory _ ?_ hs₄).mono (fun l t₅ h₅ => ?_) fun _ _ _ => trivial
    · intro k hk
      obtain ⟨e, he, rfl⟩ := List.mem_map.mp hk
      exact (ColMap.mem_under.mp he).2.2
    · refine fun t₆ h₆ => ⟨trans_of (Elsewhere h) h₅.1 h₆, fun hn => (by cases hn), fun c hc => ?_⟩
      cases hc
      rw [h₅.2]
      refine brings_of_keys hv fun i hi => ?_
      obtain ⟨v, hv'⟩ := Option.ne_none_iff_exists'.mp hi
      refine List.mem_map.mpr ⟨((.session, messageKey h i), v),
        ColMap.mem_under.mpr ⟨?_, rfl, messagePrefix_messageKey h i⟩, rfl⟩
      rw [hs₃.own _ (sessionPrefix_messageKey h i)]
      exact hv'

/-! ## Creating -/

theorem Guards.create (hn : ¬ Held h s) (m : SessionMeta) :
    Guards h s (s.insert (.session, metaKey h) (.sessionMeta m)) :=
  ⟨fun ht => ht.put (fits_meta h m), fun _ hp => absurd hp.held hn⟩

theorem placed_created (m : SessionMeta) :
    Placed h [] (s.insert (.session, metaKey h) (.sessionMeta m)) :=
  placed_nil (m := m) (by rw [find_insert, if_pos rfl])

theorem Guards.row (m : SessionMeta) (v : Value μ) :
    Guards h s (s.insert (.session, sessionIndexKey m h) v) := by
  have hne : ∀ k, sessionPrefix h <+: k → ((.session, sessionIndexKey m h) : Cell) ≠
      (.session, k) := by
    intro k hk he
    cases he
    exact indexPrefix_not_session hk (indexPrefix_isPrefix m h)
  refine ⟨fun ht => ht.put (fits_index m v), fun b hp => hp.congr ?_ fun i => ?_⟩
  · rw [find_insert, if_neg (hne _ (sessionPrefix_metaKey h))]
  · rw [find_insert, if_neg (hne _ (sessionPrefix_messageKey h i))]

theorem opening_createSession (hn : ¬ Held h s) (agent : AgentId) (createdBy : Str)
    (root : Option Str) (now : Str) :
    Opening h (createSession h agent createdBy root now) (fun _ => Placed h [])
    (fun _ _ => True) s := by
  unfold createSession
  apply Prog.relyOn_bind
  refine Prog.relyOn_perform (fun _ => .refl)
    (fun t he => ⟨.create (he.absent hn) _, fun t₁ h₁ => ?_⟩) fun _ _ _ _ => trivial
  have hplaced : Placed h [] t₁ := (placed_created _).aside h₁.aside
  refine Prog.relyOn_perform (fun _ => .refl) (fun t₂ h₂ => ⟨.row _ _, fun t₃ h₃ => ?_⟩)
    fun _ _ _ _ => trivial
  exact (Guards.placed (.row _ _) [] (hplaced.aside h₂.aside)).aside h₃.aside

end Crabtalk.Store

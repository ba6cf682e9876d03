import Crabtalk.Store.Reach

/-! # What a client reads

The reading operations as functions of the cells they look at.
-/

open Basis

namespace Crabtalk.Store

variable {μ : Type}

def answer {α : Type} (p : KvM μ α) (s : Kv μ) : Except Error α :=
  match Prog.interp memory p s with
  | .ok a _ => .ok a
  | .error e _ => .error e

def Reads {α : Type} (p : KvM μ α) (s : Kv μ) (r : Except Error α) : Prop :=
  Prog.interp memory p s = match r with
    | .ok a => .ok a s
    | .error e => .error e s

section
variable {α β : Type} {s : Kv μ}

theorem Reads.answer {p : KvM μ α} {r : Except Error α} (h : Reads p s r) : answer p s = r := by
  rw [Store.answer, h]
  cases r <;> rfl

theorem Reads.pure (a : α) : Reads (pure a : KvM μ α) s (.ok a) := rfl

theorem Reads.bind {p : KvM μ α} {f : α → KvM μ β} {r : Except Error α} {q : α → Except Error β}
    (h : Reads p s r)
    (hf : ∀ a, r = .ok a → Reads (f a) s (q a)) : Reads (p >>= f) s (r >>= q) := by
  unfold Reads at *
  rw [Prog.interp_bind, h]
  cases r with
  | ok a => exact hf a rfl
  | error e => rfl

theorem Reads.next {p : KvM μ α} {f : α → KvM μ β} {a : α} {r : Except Error β}
    (h : Reads p s (.ok a))
    (hf : Reads (f a) s r) : Reads (p >>= f) s r :=
  h.bind (q := fun _ => r) fun _ ha => by rw [← Except.ok.inj ha]; exact hf

theorem Reads.attempt {p : KvM μ α} {r : Except Error α} (h : Reads p s r) :
    Reads p.attempt s (.ok r) := by
  unfold Reads at *
  rw [Prog.interp_attempt, h]
  cases r <;> rfl

def readJson (decode : Value μ → Option α) (s : Kv μ) (col : Column) (key : Str) :
    Except Error (Option α) :=
  match s[(col, key)]? with
  | none => .ok none
  | some v =>
    match decode v with
    | some a => .ok (some a)
    | none => .error .decode

theorem reads_getJson (decode : Value μ → Option α) (col : Column) (key : Str) :
    Reads (getJson decode col key) s (readJson decode s col key) := by
  rw [getJson, readJson]
  have hget : Reads (get col key) s (.ok s[(col, key)]?) := rfl
  have := hget.bind (f := fun v => match v with
    | none => pure none
    | some v => match decode v with
      | some a => pure (some a)
      | none => Prog.fail .decode) (q := fun v => match v with
    | none => .ok none
    | some v => match decode v with
      | some a => .ok (some a)
      | none => .error .decode) fun v _ => by
    cases v with
    | none => rfl
    | some v => simp only; cases decode v <;> rfl
  exact this

theorem reads_scanKeys (col : Column) (stem : Str) :
    Reads (scanKeys col stem) s (.ok ((s.under col stem).map fun e => e.1.2)) := rfl

end

/-! ## A session -/

section
variable {h : Str} {s s' : Kv μ}

theorem reads_loadHistory : ∀ keys : List Str, Reads (loadHistory keys) s
    (.ok (keys.filterMap fun k => s[((.session, k) : Cell)]?.bind Value.asEntry))
  | [] => rfl
  | key :: keys => by
    rw [loadHistory]
    have ih := reads_loadHistory keys
    refine (reads_getJson Value.asEntry .session key).attempt.next ?_
    rw [readJson, List.filterMap_cons]
    cases s[((.session, key) : Cell)]? with
    | none => exact ih
    | some v =>
      simp only [Option.bind_some]
      cases v.asEntry with
      | none => exact ih
      | some e => exact ih.next (.pure _)

def sessionView (h : Str) (s : Kv μ) : Except Error (Option (SessionSnapshot μ)) := do
  match ← readJson Value.asMeta s .session (metaKey h) with
  | none => return none
  | some m =>
    let archive ← readJson Value.asText s .session (archiveKey h)
    return some ⟨m, (s.under .session (messagePrefix h)).filterMap fun e => e.2.asEntry, archive⟩

theorem reads_loadSession : Reads (loadSession h) s (sessionView h s) := by
  rw [loadSession, sessionView]
  refine (reads_getJson Value.asMeta .session (metaKey h)).bind fun m _ => ?_
  cases m with
  | none => rfl
  | some m =>
    refine (reads_getJson Value.asText .session (archiveKey h)).bind fun archive _ => ?_
    have hload := reads_loadHistory (s := s)
        ((s.under .session (messagePrefix h)).map fun e => e.1.2)
    have hentries : (((s.under .session (messagePrefix h)).map fun e => e.1.2).filterMap
        fun k => s[((.session, k) : Cell)]?.bind Value.asEntry) =
        (s.under .session (messagePrefix h)).filterMap fun e => e.2.asEntry := by
      rw [List.filterMap_map]
      refine List.filterMap_congr fun e he => ?_
      obtain ⟨⟨col, k⟩, v⟩ := e
      obtain ⟨hv, hcol, -⟩ := ColMap.mem_under.mp he
      simp only at hcol
      subst hcol
      simp [hv]
    rw [hentries] at hload
    exact (reads_scanKeys .session (messagePrefix h)).next (hload.next (.pure _))

theorem readJson_some {α : Type} {decode : Value μ → Option α} {col : Column} {key : Str} {a : α}
    (hr : readJson decode s col key = .ok (some a)) : ∃ v, s[((col, key) : Cell)]? = some v ∧
    decode v = some a := by
  rw [readJson] at hr
  cases hv : s[((col, key) : Cell)]? with
  | none => simp [hv] at hr
  | some v =>
    simp only [hv] at hr
    cases hd : decode v with
    | none => simp [hd] at hr
    | some b =>
      simp only [hd, Except.ok.injEq, Option.some.injEq] at hr
      exact ⟨v, rfl, by rw [hd, hr]⟩

theorem sessionView_some {c : SessionSnapshot μ} (hv : sessionView h s = .ok (some c)) :
    s[((.session, metaKey h) : Cell)]? = some (.sessionMeta c.sessionMeta) ∧
      readJson Value.asText s .session (archiveKey h) = .ok c.archive ∧
      c.history = (s.under .session (messagePrefix h)).filterMap fun e => e.2.asEntry := by
  rw [sessionView] at hv
  cases hm : readJson Value.asMeta s .session (metaKey h) with
  | error e => rw [hm] at hv; cases hv
  | ok m =>
    rw [hm] at hv
    cases m with
    | none => cases hv
    | some m =>
      obtain ⟨v, hcell, hdec⟩ := readJson_some hm
      cases ha : readJson Value.asText s .session (archiveKey h) with
      | error e => simp only [ha] at hv; cases hv
      | ok a =>
        simp only [ha] at hv
        cases hv
        refine ⟨?_, rfl, rfl⟩
        rw [hcell]
        cases v <;> simp_all [Value.asMeta]

theorem sessionView_history {c : SessionSnapshot μ} (hv : sessionView h s = .ok (some c)) :
    c.history = (s.under .session (messagePrefix h)).filterMap fun e => e.2.asEntry :=
  (sessionView_some hv).2.2

theorem sessionView_of {m : SessionMeta} {archive : Option Str}
    (hm : s[((.session, metaKey h) : Cell)]? = some (.sessionMeta m))
    (ha : readJson Value.asText s .session (archiveKey h) = .ok archive) :
    sessionView h s = .ok (some ⟨m, (s.under .session (messagePrefix h)).filterMap fun e =>
      e.2.asEntry, archive⟩) := by
  have hmeta : readJson Value.asMeta s .session (metaKey h) = .ok (some m) := by
    rw [readJson, hm]
    rfl
  rw [sessionView, hmeta, ha]
  rfl

theorem readJson_congr {α : Type} {decode : Value μ → Option α} {col : Column} {k : Str}
    (hk : s'[((col, k) : Cell)]? = s[((col, k) : Cell)]?) : readJson decode s' col k =
    readJson decode s col k := by
  rw [readJson, readJson, hk]

/-- Loading a session looks at its meta record, its archive pointer and its messages. -/
theorem sessionView_congr (hmeta : s'[((.session, metaKey h) : Cell)]? =
    s[((.session, metaKey h) : Cell)]?)
    (harch : s'[((.session, archiveKey h) : Cell)]? = s[((.session, archiveKey h) : Cell)]?)
    (hmsg : ∀ k, messagePrefix h <+: k → s'[((.session, k) : Cell)]? = s[((.session, k) : Cell)]?) :
    sessionView h s' = sessionView h s := by
  have hunder : s'.under .session (messagePrefix h) = s.under .session (messagePrefix h) :=
    ColMap.under_congr fun ⟨col, k⟩ hcol hk => by
      simp only at hcol hk
      subst hcol
      exact hmsg k hk
  rw [sessionView, sessionView, readJson_congr hmeta, readJson_congr harch, hunder]

end

/-! ## The listing -/

section
variable {h : Str} {s s' : Kv μ}

def rowHandles (agent : Option AgentId) (s : Kv μ) : List Str :=
  (s.under .session (indexPrefix agent)).filterMap fun row => row.2.asRaw

theorem reads_indexedHandles (agent : Option AgentId) :
    Reads (indexedHandles agent) s (.ok (rowHandles agent s)) := by
  have : Reads (indexedHandles agent) s
      (.ok (((s.under .session (indexPrefix agent)).map fun e => (e.1.2, e.2)).filterMap fun row =>
        row.2.asRaw)) := rfl
  rw [List.filterMap_map] at this
  exact this

def listed (s : Kv μ) (handles : List Str) : List (Str × SessionMeta) :=
  handles.filterMap fun g => (s[((.session, metaKey g) : Cell)]?.bind Value.asMeta).map (g, ·)

theorem readJson_meta (hm : MetasTyped s) (g : Str) :
    readJson Value.asMeta s .session (metaKey g) =
    .ok (s[((.session, metaKey g) : Cell)]?.bind Value.asMeta) := by
  rw [readJson]
  cases hs : s[((.session, metaKey g) : Cell)]? with
  | none => rfl
  | some v =>
    obtain ⟨m, rfl⟩ := hm.metas g v hs
    rfl

theorem reads_listedMetas (hm : MetasTyped s) :
    ∀ handles, Reads (listedMetas handles) s (.ok (listed s handles))
  | [] => rfl
  | g :: handles => by
    rw [listedMetas]
    have ih := reads_listedMetas hm handles
    have hmeta := reads_getJson (s := s) Value.asMeta .session (metaKey g)
    rw [readJson_meta hm] at hmeta
    refine hmeta.next ?_
    rw [listed, List.filterMap_cons]
    cases s[((.session, metaKey g) : Cell)]?.bind Value.asMeta with
    | none => exact ih
    | some m => exact ih.next (.pure _)

theorem reads_listSessions (hm : MetasTyped s) :
    Reads listSessions s (.ok ((listed s (rowHandles none s)).insertionSort fun a b =>
      recency a b ≠ .gt)) := by
  rw [listSessions]
  exact (reads_indexedHandles none).next ((reads_listedMetas hm _).next (.pure _))

end

end Crabtalk.Store

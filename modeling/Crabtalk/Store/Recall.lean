import Crabtalk.Store.Hits
import Crabtalk.Store.Memory
import Crabtalk.Store.Written

/-!
# Memory over the keyspace

The entries are in a column of their own and their texts in the index. Names
are part of the keys and come out of them again by the last separator, so they
come out as they went in where no name has a separator in it.
-/

open Basis

namespace Crabtalk.Store

section
variable {μ : Type} [TextStd]

def indexed (m : Memories) : EStateM.Result Error (Kv μ) Unit →
    EStateM.Result Error (Memories × Kv μ) Unit
  | .ok a s => .ok a (m, s)
  | .error e s => .error e (m, s)

def brainKv : (o : MemoryOp) → EStateM Error (Memories × Kv μ) o.Reply
  | .get key => fun s => .ok s.1[(Column.memory, key)]? s
  | .put key entry => fun s => .ok () (s.1.insert (Column.memory, key) entry, s.2)
  | .delete key => fun s => .ok s.1[(Column.memory, key)]?.isSome (s.1.erase (Column.memory, key), s.2)
  | .scanKeys stem => fun s => .ok ((s.1.under Column.memory stem).map fun e => e.1.2) s
  | .indexText key text =>
    fun s => indexed s.1 (Prog.interp memory (indexText .memory key text 1) s.2)
  | .dropText key => fun s => indexed s.1 (Prog.interp memory (dropText .memory key) s.2)

def memoryNames : MemoryM (List Str) := do
  let keys ← scanEntries (keysUnder ["memory".toList])
  return keys.filterMap lastSegment

def searchMemory [SearchStd μ] (query : Str) (limit : Nat) : KvM μ (List Str) := do
  let hits ← searchText .memory query limit
  return hits.filterMap fun hit => lastSegment hit.1

inductive MemoryCall
  | put (entry : MemoryEntry)
  | remove (name : Str)

def MemoryCall.run : MemoryCall → MemoryM Unit
  | put entry => putMemory entry
  | remove name => do
    let _ ← removeMemory name

def MemoryCall.apply (m : Memories) : MemoryCall → Memories
  | put entry => m.insert (.memory, memoryKey entry.name) entry
  | remove name => m.erase (.memory, memoryKey name)

variable {s : Memories × Kv μ} {name stem : Str}

/-! ## What is stored -/

def Stored (m : Memories) (name : Str) : Prop := ∃ k e, m[(k : Column × Str)]? = some e ∧ e.name = name

/-- Entries are under their names, and nothing else is in the index of their texts. -/
structure Filing (s : Memories × Kv μ) : Prop where
  keyed : ∀ (k : Column × Str) e, s.1[k]? = some e → k = (.memory, memoryKey e.name)
  indexed : ∃ C, Exact C s.2 ∧ ∀ k x, (C .memory)[(k : Str)]? = some x →
    ∃ e, s.1[((.memory, k) : Column × Str)]? = some e

theorem Filing.empty {kv : Kv μ} (h : ∀ k, kv[((.text, k) : Cell)]? = none) : Filing (∅, kv) := by
  refine ⟨fun k e he => ?_, fun _ => ∅, Exact.empty h, fun k x hx => ?_⟩
  · simp at he
  · simp at hx

variable {C : TextIndex → Corpus}

theorem wp_indexEntry (h : Exact C s.2) (key text : Str) :
    Prog.wp False brainKv (indexEntry key text)
      (fun _ s' => s'.1 = s.1 ∧ Exact (Function.update C .memory ((C .memory).insert key (text, 1)))
        s'.2) (fun _ _ => False) s := by
  have hindex : Prog.wp False memory (indexText .memory key text 1)
      (fun _ => Exact (Function.update C .memory ((C .memory).insert key (text, 1))))
        (fun _ _ => False) s.2 := wp_indexText_exact h
  obtain ⟨_, kv, hrun, hexact⟩ := hindex.answers
  refine Prog.wp_perform.mpr ⟨?_, False.elim⟩
  simp only [Basis.wp, brainKv, hrun]
  exact ⟨rfl, hexact⟩

theorem wp_dropEntry (h : Exact C s.2) (key : Str) :
    Prog.wp False brainKv (dropEntry key)
      (fun _ s' => s'.1 = s.1 ∧ Exact (Function.update C .memory ((C .memory).erase key)) s'.2)
      (fun _ _ => False) s := by
  have hdrop : Prog.wp False memory (dropText .memory key)
      (fun _ => Exact (Function.update C .memory ((C .memory).erase key)))
      (fun _ _ => False) s.2 := wp_dropText_exact h
  obtain ⟨_, kv, hrun, hexact⟩ := hdrop.answers
  refine Prog.wp_perform.mpr ⟨?_, False.elim⟩
  simp only [Basis.wp, brainKv, hrun]
  exact ⟨rfl, hexact⟩

theorem wp_putMemory_filing (h : Filing s) (e : MemoryEntry) :
    Prog.wp False brainKv (putMemory e) (fun _ s' => Filing s' ∧
      s'.1 = s.1.insert (.memory, memoryKey e.name) e) (fun _ _ => False) s := by
  obtain ⟨C, hexact, hcovers⟩ := h.indexed
  unfold putMemory
  rw [Prog.wp_bind]
  refine Prog.wp_perform.mpr ⟨?_, False.elim⟩
  refine (wp_indexEntry (s := (s.1.insert (.memory, memoryKey e.name) e, s.2)) hexact _ _).mono ?_
    fun _ _ he => he
  intro _ s' ⟨hentries, hexact'⟩
  refine ⟨⟨fun k e' he' => ?_, _, hexact', fun k x hx => ?_⟩, hentries⟩
  · rw [hentries, find_insert] at he'
    split at he'
    · next hk =>
      cases he'
      exact hk.symm
    · exact h.keyed k e' he'
  · rw [find_update_insert] at hx
    rw [hentries, find_insert]
    split at hx
    · next hk =>
      rw [hk.2, if_pos rfl]
      exact ⟨e, rfl⟩
    · split
      · exact ⟨e, rfl⟩
      · exact hcovers k x hx

theorem wp_removeMemory_filing (h : Filing s) (name : Str) :
    Prog.wp False brainKv (removeMemory name) (fun _ s' => Filing s' ∧
      s'.1 = s.1.erase (.memory, memoryKey name)) (fun _ _ => False) s := by
  obtain ⟨C, hexact, hcovers⟩ := h.indexed
  unfold removeMemory
  rw [Prog.wp_bind]
  refine (wp_dropEntry hexact _).mono ?_ fun _ _ he => he
  intro _ s₁ ⟨hentries, hexact'⟩
  refine Prog.wp_perform.mpr ⟨?_, False.elim⟩
  refine ⟨⟨fun k e he => ?_, _, hexact', fun k x hx => ?_⟩,
    congrArg (fun m : Memories => m.erase (.memory, memoryKey name)) hentries⟩
  · rw [hentries, find_erase] at he
    split at he
    · cases he
    · exact h.keyed k e he
  · rw [find_update_erase] at hx
    rw [hentries, find_erase]
    split at hx
    · cases hx
    · next hk =>
      rw [if_neg fun heq => hk ⟨rfl, (Prod.mk.inj heq).2⟩]
      exact hcovers k x hx

theorem wp_call_filing (h : Filing s) (call : MemoryCall) :
    Prog.wp False brainKv call.run (fun _ s' => Filing s' ∧ s'.1 = call.apply s.1)
    (fun _ _ => False) s := by
  cases call with
  | put e => exact wp_putMemory_filing h e
  | remove name =>
    unfold MemoryCall.run
    rw [Prog.wp_bind]
    exact wp_removeMemory_filing h name

theorem wp_calls_filing (h : Filing s) (calls : List MemoryCall) :
    Prog.wp False brainKv (forM calls MemoryCall.run) (fun _ s' => Filing s' ∧
      s'.1 = calls.foldl MemoryCall.apply s.1) (fun _ _ => False) s := by
  induction calls generalizing s with
  | nil => exact ⟨h, rfl⟩
  | cons call calls ih =>
    rw [List.forM_cons, Prog.wp_bind]
    refine (wp_call_filing h call).mono (fun _ s₁ ⟨h₁, heq⟩ => ?_) fun _ _ he => he
    rw [List.foldl_cons, ← heq]
    exact ih h₁

/-! ## What is listed -/

theorem stored_iff (h : Filing s) : Stored s.1 name ↔
    ∃ e, s.1[((.memory, memoryKey name) : Column × Str)]? = some e ∧ e.name = name := by
  constructor
  · intro ⟨k, e, he, hname⟩
    have hk := h.keyed k e he
    rw [hname] at hk
    exact ⟨e, hk ▸ he, hname⟩
  · intro ⟨e, he, hname⟩
    exact ⟨_, e, he, hname⟩

def Flat (m : Memories) : Prop := ∀ name, Stored m name → '/' ∉ name

def keyNames (m : Memories) (stem : Str) : List Str :=
  ((m.under Column.memory stem).map fun e => e.1.2).filterMap lastSegment

/-- Where names are flat, the keys under a stem give back the names of their entries. -/
theorem keyNames_eq (h : Filing s) (hflat : Flat s.1) (stem : Str) :
    keyNames s.1 stem = (s.1.under Column.memory stem).map fun e => e.2.name := by
  rw [keyNames, List.filterMap_map, ← List.filterMap_eq_map]
  refine List.filterMap_congr fun e he => ?_
  obtain ⟨hmem, -, -⟩ := ColMap.mem_under.mp he
  have hk := h.keyed _ _ hmem
  have hclean := hflat e.2.name ⟨_, _, hmem, rfl⟩
  rw [Function.comp_apply, hk, lastSegment_memoryKey hclean]
  rfl

theorem mem_keyNames (h : Filing s) (hflat : Flat s.1) : name ∈ keyNames s.1 stem ↔
    Stored s.1 name ∧ stem <+: memoryKey name := by
  rw [keyNames_eq h hflat, List.mem_map]
  constructor
  · intro ⟨e, he, hname⟩
    obtain ⟨hmem, -, hstem⟩ := ColMap.mem_under.mp he
    have hk := h.keyed _ _ hmem
    rw [hk, hname] at hstem
    exact ⟨⟨_, _, hmem, hname⟩, hstem⟩
  · intro ⟨hstored, hstem⟩
    obtain ⟨e, he, hname⟩ := (stored_iff h).mp hstored
    exact ⟨((.memory, memoryKey name), e), ColMap.mem_under.mpr ⟨he, rfl, hstem⟩, hname⟩

theorem nodup_keyNames (h : Filing s) (hflat : Flat s.1) (stem : Str) :
    (keyNames s.1 stem).Nodup := by
  rw [keyNames_eq h hflat, List.Nodup, List.pairwise_map]
  refine (ColMap.sorted_under s.1 Column.memory stem).imp_of_mem fun {a b} ha hb hlt hname => ?_
  obtain ⟨hmema, -, -⟩ := ColMap.mem_under.mp ha
  obtain ⟨hmemb, -, -⟩ := ColMap.mem_under.mp hb
  have hka := h.keyed _ _ hmema
  have hkb := h.keyed _ _ hmemb
  rw [hka, hkb, hname] at hlt
  exact lt_irrefl_cmp _ hlt

/-! ## What a store recalls -/

variable [SearchStd μ]

/-- The entries are listed by their names, found under a stem, loaded, and the only ones searches return. -/
structure Recalls (s : Memories × Kv μ) : Prop where
  names : ∃ l, Prog.interp brainKv memoryNames s = .ok l s ∧ l.Nodup ∧
    (∀ name, name ∈ l ↔ Stored s.1 name) ∧
    ∀ name ∈ l, ∃ e, Prog.interp brainKv (loadMemory name) s = .ok (some e) s ∧ e.name = name
  under : ∀ stem, ∃ l, Prog.interp brainKv (memoryNamesUnder stem) s = .ok l s ∧ l.Nodup ∧
    ∀ name, name ∈ l ↔ Stored s.1 name ∧ stem <+: name
  search : ∀ query limit, ∃ l, Prog.interp memory (searchMemory query limit) s.2 = .ok l s.2 ∧
    ∀ name ∈ l, Stored s.1 name

theorem search_stored (h : Filing s) (hflat : Flat s.1) (query : Str) (limit : Nat) :
    ∃ l, Prog.interp memory (searchMemory query limit) s.2 = .ok l s.2 ∧
    ∀ name ∈ l, Stored s.1 name := by
  obtain ⟨C, hexact, hcovers⟩ := h.indexed
  obtain ⟨hits, kv, hrun, rfl, hits_matched⟩ := (wp_searchText hexact .memory query limit).answers
  refine ⟨hits.filterMap fun hit => lastSegment hit.1, ?_, fun name hname => ?_⟩
  · rw [searchMemory, Prog.interp_bind, hrun]
    rfl
  · obtain ⟨hit, hmem, hlast⟩ := List.mem_filterMap.mp hname
    obtain ⟨text, weight, hc, -⟩ := hits_matched hit hmem
    obtain ⟨e, he⟩ := hcovers _ _ hc
    have hk : hit.1 = memoryKey e.name := (Prod.mk.inj (h.keyed _ _ he)).2
    rw [hk, lastSegment_memoryKey (hflat e.name ⟨_, _, he, rfl⟩)] at hlast
    exact ⟨_, e, he, Option.some.inj hlast⟩

theorem recalls_of_flat (h : Filing s) (hflat : Flat s.1) : Recalls s := by
  refine ⟨⟨keyNames s.1 (keysUnder ["memory".toList]), rfl, nodup_keyNames h hflat _,
    fun name => ?_, fun name hname => ?_⟩,
    fun stem => ⟨keyNames s.1 (memoryKey stem), rfl, nodup_keyNames h hflat _, fun name => ?_⟩,
    search_stored h hflat⟩
  · rw [mem_keyNames h hflat, and_iff_left (keysUnder_memory name)]
  · obtain ⟨e, he, heq⟩ := (stored_iff h).mp ((mem_keyNames h hflat).mp hname).1
    have hload : Prog.interp brainKv (loadMemory name) s =
        .ok s.1[((.memory, memoryKey name) : Column × Str)]? s := rfl
    exact ⟨e, by rw [hload, he], heq⟩
  · rw [mem_keyNames h hflat, memoryKey_prefix_iff]

theorem flat_of_recalls (h : Recalls s) : Flat s.1 := by
  intro name hstored
  obtain ⟨l, hrun, -, hmem, -⟩ := h.names
  have hnames : Prog.interp brainKv memoryNames s =
      .ok (keyNames s.1 (keysUnder ["memory".toList])) s := rfl
  have hl : l = keyNames s.1 (keysUnder ["memory".toList]) := by
    rw [hnames] at hrun
    cases hrun
    rfl
  have hname := (hmem name).mpr hstored
  rw [hl, keyNames, List.mem_filterMap] at hname
  obtain ⟨k, -, hlast⟩ := hname
  exact lastSegment_clean hlast

/-- After any calls, memory recalls what it stores where no stored name has a separator in it. -/
theorem recalls_iff {kv : Kv μ} (hkv : ∀ k, kv[((.text, k) : Cell)]? = none)
    (calls : List MemoryCall) :
    ∃ s, Prog.interp brainKv (forM calls MemoryCall.run) (∅, kv) = .ok () s ∧
    s.1 = calls.foldl MemoryCall.apply ∅ ∧ (Recalls s ↔ Flat s.1) := by
  obtain ⟨_, s, hrun, h, hentries⟩ := (wp_calls_filing (Filing.empty hkv) calls).answers
  exact ⟨s, hrun, hentries, flat_of_recalls, recalls_of_flat h⟩

end

def note (name : Str) : MemoryEntry := ⟨name, "note".toList, "deploy".toList, [], []⟩

def threeCalls : List MemoryCall :=
  [.put (note "a/b".toList), .put (note "c".toList), .remove "a/b".toList]

open Plain in
theorem recalls_threeCalls :
    ∃ s : Memories × Kv Message, Prog.interp brainKv (forM threeCalls MemoryCall.run) (∅, ∅) =
    .ok () s ∧ Recalls s := by
  have hempty : ∀ k, (∅ : Kv Message)[((.text, k) : Cell)]? = none := by simp
  obtain ⟨s, hrun, hentries, hiff⟩ := recalls_iff hempty threeCalls
  refine ⟨s, hrun, hiff.mpr fun name ⟨k, e, he, hname⟩ => ?_⟩
  rw [hentries, threeCalls, List.foldl_cons, List.foldl_cons, List.foldl_cons, List.foldl_nil] at he
  simp only [MemoryCall.apply, note, find_erase, find_insert] at he
  split at he
  · cases he
  · next hab =>
    split at he
    · cases he
      rw [← hname]
      decide
    · simp at he

open Plain in
theorem not_recalls_slash : ∃ s : Memories × Kv Message,
    Prog.interp brainKv (forM [MemoryCall.put (note "a/b".toList)] MemoryCall.run) (∅, ∅) =
    .ok () s ∧ ¬ Recalls s := by
  have hempty : Filing ((∅, ∅) : Memories × Kv Message) := Filing.empty (by simp)
  obtain ⟨_, s, hrun, -, hentries⟩ :=
    (wp_calls_filing hempty [MemoryCall.put (note "a/b".toList)]).answers
  refine ⟨s, hrun, fun h => ?_⟩
  have hstored : Stored s.1 "a/b".toList := by
    refine ⟨(.memory, memoryKey "a/b".toList), note "a/b".toList, ?_, rfl⟩
    rw [hentries, List.foldl_cons, List.foldl_nil, MemoryCall.apply, find_insert]
    exact if_pos rfl
  exact absurd (flat_of_recalls h _ hstored) (by decide)

end Crabtalk.Store

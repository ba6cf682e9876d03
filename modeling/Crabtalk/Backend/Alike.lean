import Crabtalk.Backend.Memory
import Crabtalk.Store.Recall

/-!
# Two stores of memory entries

Entries are files of a directory, or cells of a keyspace with an index beside
them. Names come out of the cells' keys by the last separator. Whoever asks
for entries and names by name cannot tell the two stores apart, as long as no
entry is put under a name with a separator in it.
-/

open Basis Std

namespace Crabtalk.Backend

open Store

/-- Requests that are answered by name. Searches are ranked by an index of the keyspace's own. -/
def MemoryRequest.ByName : MemoryRequest → Prop
  | searchMemory _ _ => False
  | _ => True

def MemoryRequest.keyed : (q : MemoryRequest) → q.ByName → MemoryM MemoryAnswer
  | memory name, _ => do
    let found ← loadMemory name
    return .entry found
  | memoryNames, _ => do
    let names ← Store.memoryNames
    return .names names
  | memoryNamesUnder stem, _ => do
    let names ← Store.memoryNamesUnder stem
    return .names names
  | putMemory entry, _ => do
    Store.putMemory entry
    return .put
  | removeMemory name, _ => do
    let was ← Store.removeMemory name
    return .removed was

/-! ## The keyspace -/

section
variable {μ : Type} [TextStd] {m : Docs MemoryEntry} {k : Memories × Kv μ}

structure Kept (k : Memories × Kv μ) (m : Docs MemoryEntry) : Prop where
  filing : Filing k
  cell : ∀ name : Str, k.1[((.memory, memoryKey name) : Column × Str)]? = m[name]?
  flat : ∀ (name : Str) (e : MemoryEntry), m[name]? = some e → e.name = name ∧ '/' ∉ name

theorem Kept.stored_iff (h : Kept k m) {name : Str} : Store.Stored k.1 name ↔ name ∈ m.keys := by
  rw [Store.stored_iff h.filing, ExtTreeMap.mem_keys, ← ExtTreeMap.isSome_getElem?_iff_mem, h.cell,
    Option.isSome_iff_exists]
  constructor
  · rintro ⟨e, he, -⟩
    exact ⟨e, he⟩
  · rintro ⟨e, he⟩
    exact ⟨e, he, (h.flat name e he).1⟩

theorem Kept.allFlat (h : Kept k m) : Flat k.1 := by
  intro name hname
  rw [h.stored_iff, ExtTreeMap.mem_keys, ← ExtTreeMap.isSome_getElem?_iff_mem] at hname
  obtain ⟨e, he⟩ := Option.isSome_iff_exists.mp hname
  exact (h.flat name e he).2

omit [TextStd] in
theorem compare_memoryKey (a b : Str) : compare (memoryKey a) (memoryKey b) = compare a b := by
  have happ : ∀ n, memoryKey n = keysUnder ["memory".toList] ++ n := fun n => by
    simp [memoryKey, keysUnder, key]
  rw [happ, happ, compare_append_left]

theorem Kept.keyNames_eq (h : Kept k m) (stem under : Str)
    (hstem : ∀ name, under <+: memoryKey name ↔ stem <+: name) :
    keyNames k.1 under = m.keys.filter fun name => stem.isPrefixOf name := by
  have irr : Std.Irrefl fun a b : Str => compare a b = .lt := ⟨lt_irrefl_cmp⟩
  have anti : Std.Antisymm fun a b : Str => compare a b = .lt :=
    ⟨fun _ _ h h' => absurd h' (lt_asymm_cmp h)⟩
  have hsorted : (keyNames k.1 under).Pairwise fun a b => compare a b = .lt := by
    rw [Store.keyNames_eq h.filing h.allFlat, List.pairwise_map]
    refine (ColMap.sorted_under k.1 Column.memory under).imp_of_mem fun {a b} ha hb hlt => ?_
    have hka := h.filing.keyed _ _ (ColMap.mem_under.mp ha).1
    have hkb := h.filing.keyed _ _ (ColMap.mem_under.mp hb).1
    have hcol : compare Column.memory Column.memory = .eq := ReflCmp.compare_self
    rw [hka, hkb, colCmp_eq, hcol, Ordering.eq_then, compare_memoryKey] at hlt
    exact hlt
  refine hsorted.eq_of_mem_iff (ExtTreeMap.ordered_keys.filter _) fun {name} => ?_
  rw [mem_keyNames h.filing h.allFlat, h.stored_iff, List.mem_filter,
    List.isPrefixOf_iff_prefix, hstem]

theorem Kept.empty {kv : Kv μ} (h : ∀ k, kv[((.text, k) : Cell)]? = none) : Kept (∅, kv) ∅ where
  filing := Filing.empty h
  cell name := by simp
  flat name e he := by simp at he

theorem Kept.insert (h : Kept k m) {e : MemoryEntry} (he : '/' ∉ e.name) {k' : Memories × Kv μ}
    (hf : Filing k')
    (hk : k'.1 = k.1.insert (.memory, memoryKey e.name) e) : Kept k' (m.insert e.name e) where
  filing := hf
  cell name := by
    rw [hk, find_insert, find_insert, h.cell]
    by_cases hn : e.name = name
    · rw [if_pos hn, if_pos (by rw [hn])]
    · rw [if_neg hn, if_neg fun heq => hn (memoryKey_inj (Prod.mk.inj heq).2)]
  flat name e' hname := by
    rw [find_insert] at hname
    by_cases hn : e.name = name
    · rw [if_pos hn] at hname
      cases hname
      exact ⟨hn, hn ▸ he⟩
    · rw [if_neg hn] at hname
      exact h.flat name e' hname

theorem Kept.erase (h : Kept k m) (name : Str) {k' : Memories × Kv μ} (hf : Filing k')
    (hk : k'.1 = k.1.erase (.memory, memoryKey name)) :
    Kept k' (m.erase name) where
  filing := hf
  cell a := by
    rw [hk, find_erase, find_erase, h.cell]
    by_cases hn : name = a
    · rw [if_pos hn, if_pos (by rw [hn])]
    · rw [if_neg hn, if_neg fun heq => hn (memoryKey_inj (Prod.mk.inj heq).2)]
  flat a e he := by
    rw [find_erase] at he
    by_cases hn : name = a
    · rw [if_pos hn] at he
      cases he
    · rw [if_neg hn] at he
      exact h.flat a e he

/-- The name an entry is put under, if the request puts one, has no separator in it. -/
def MemoryRequest.Clean : MemoryRequest → Prop
  | putMemory entry => '/' ∉ entry.name
  | _ => True

variable {R : Type} [Field R] [LinearOrder R] (ln : R → R)

omit [LinearOrder R] in
theorem wp_removeMemory_answer (h : Filing k) (name : Str) :
    Prog.wp False brainKv (Store.removeMemory name)
    (fun was _ => was = k.1[((.memory, memoryKey name) : Column × Str)]?.isSome)
      (fun _ _ => False) k := by
  obtain ⟨C, hexact, -⟩ := h.indexed
  unfold Store.removeMemory
  rw [Prog.wp_bind]
  refine (wp_dropEntry hexact _).mono (fun _ k₁ hk => ?_) fun _ _ he => he
  refine Prog.wp_perform.mpr ⟨?_, False.elim⟩
  simp only [Basis.wp, brainKv, hk.1]

theorem wp_keyed (q : MemoryRequest) (hq : q.ByName) (hc : q.Clean) (h : Kept k m) :
    Prog.wp False brainKv (q.keyed hq) (fun a k' => a = q.answer ln m ∧ Kept k' (q.change m))
    (fun _ _ => False) k := by
  cases q with
  | memory name =>
    refine Prog.wp_bind.mpr (Prog.wp_perform.mpr ⟨⟨?_, h⟩, False.elim⟩)
    exact congrArg MemoryAnswer.entry (h.cell name)
  | memoryNames =>
    refine Prog.wp_bind.mpr (Prog.wp_bind.mpr (Prog.wp_perform.mpr ⟨⟨?_, h⟩, False.elim⟩))
    have hall : (m.keys.filter fun name => ([] : Str).isPrefixOf name) = m.keys :=
      List.filter_eq_self.mpr fun _ _ => rfl
    have hnames := h.keyNames_eq [] (keysUnder ["memory".toList]) fun name =>
      iff_of_true (keysUnder_memory name) (List.nil_prefix)
    rw [hall] at hnames
    exact congrArg MemoryAnswer.names hnames
  | memoryNamesUnder stem =>
    refine Prog.wp_bind.mpr (Prog.wp_bind.mpr (Prog.wp_perform.mpr ⟨⟨?_, h⟩, False.elim⟩))
    exact congrArg MemoryAnswer.names
      (h.keyNames_eq stem _ fun name => memoryKey_prefix_iff stem name)
  | putMemory e =>
    exact Prog.wp_bind.mpr ((wp_putMemory_filing h.filing e).mono
      (fun _ k' hk => ⟨rfl, h.insert hc hk.1 hk.2⟩) fun _ _ he => he)
  | removeMemory name =>
    refine Prog.wp_bind.mpr (((wp_removeMemory_filing h.filing name).and
      (wp_removeMemory_answer h.filing name)).mono
      (fun was k' hk => ⟨?_, h.erase name hk.1.1 hk.1.2⟩) fun _ _ he => he.1)
    rw [hk.2, h.cell]
    rfl
  | searchMemory query limit => exact hq.elim

end

/-! ## The directory -/

section
variable {R : Type} [Field R] [LinearOrder R] [TextStd] {ln : R → R} {c : Records MemoryEntry}
  {order : List Str → List Str}
  {m : Docs MemoryEntry} {s : Shelf}

/-- A file system that does not fail tells exactly. -/
theorem Told.exactly {q : MemoryRequest} {a : MemoryAnswer} {m' : Docs MemoryEntry}
    (h : Told ln c False m q (.ok a) m') :
    a = q.answer ln m ∧ m' = q.change m := by
  cases h with
  | exact _ => exact ⟨rfl, rfl⟩
  | unread _ hf => exact hf.elim
  | unlisted hf => exact hf.elim
  | unlistedUnder _ hf => exact hf.elim
  | unremoved _ hf => exact hf.elim
  | partly _ _ hf _ => exact hf.elim

variable (ln) in
theorem wp_exec (hperm : ∀ l, (order l).Perm l) (q : MemoryRequest) (hq : q.Fits c)
    (h : c.Shelved m s.tree) :
    Prog.wp False (shelf order) (q.exec ln c) (fun a s' => a = q.answer ln m ∧
      c.Shelved (q.change m) s'.tree) (fun _ _ => False) s := by
  refine ((serves_memory ln hperm).request False h).wp.mono (fun a s' ha => ?_) fun e s' he => ?_
  · obtain ⟨m', ht, hs⟩ := ha
    obtain ⟨rfl, rfl⟩ := ht.exactly
    exact ⟨rfl, hs⟩
  · obtain ⟨m', ht, -⟩ := he
    cases ht with
    | refused hname => exact hname hq
    | failed _ hf => exact hf

variable (ln) in
/-- Requests by name get the same answers of both stores. -/
theorem stores_alike {μ : Type} {json : MemoryEntry → Bytes} {parse : Bytes → Option MemoryEntry}
    (hparse : ∀ e, parse (json e) = some e)
    (hperm : ∀ l, (order l).Perm l) (hopen : Prog.interp (shelf order) (files openStore) blank =
      .ok () s) {kv : Kv μ}
    (hkv : ∀ k, kv[((.text, k) : Cell)]? = none) (qs : List { q : MemoryRequest // q.ByName })
    (hclean : ∀ q ∈ qs, q.1.Clean)
    (hfits : ∀ q ∈ qs, q.1.Fits (memoryRecords json parse hparse)) :
    ∃ as s' k', Prog.interp (shelf order)
    (collect (fun q => q.1.exec ln (memoryRecords json parse hparse)) qs) s = .ok as s' ∧
      Prog.interp brainKv (collect (fun q => q.1.keyed q.2) qs) (∅, kv) = .ok as k' := by
  have hfiles : Obeys (shelf order) (fun q : { q : MemoryRequest // q.ByName } =>
      q.1.exec ln (memoryRecords json parse hparse))
      (fun m q => q.1.answer ln m) (fun m q => q.1.change m)
        (fun s m => (memoryRecords json parse hparse).Shelved m s.tree)
      (fun _ q => q.1.Clean ∧ q.1.Fits (memoryRecords json parse hparse)) := fun q s m hq hs =>
        wp_exec ln hperm q.1 hq.2 hs
  have hkeys : Obeys (brainKv (μ := μ)) (fun q : { q : MemoryRequest // q.ByName } => q.1.keyed q.2)
      (fun m q => q.1.answer ln m)
      (fun m q => q.1.change m) Kept (fun _ q => q.1.Clean ∧
        q.1.Fits (memoryRecords json parse hparse)) :=
    fun q k m hq hk => wp_keyed ln q.1 q.2 hq.1 hk
  exact hfiles.alike hkeys (.of_forall (fun q hq _ => ⟨hclean q hq, hfits q hq⟩) _)
    (shelved_opened hparse hopen) (Kept.empty hkv)

end

/-! ### A few requests -/

section

open Plain Store.Plain

def fewRequests : List { q : MemoryRequest // q.ByName } :=
  [⟨.putMemory (keepsake "ops-1"), trivial⟩, ⟨.putMemory (keepsake "ops-2"), trivial⟩,
    ⟨.removeMemory "ops-1".toList, trivial⟩,
    ⟨.memoryNamesUnder "ops-".toList, trivial⟩]

theorem stores_alike_fewRequests :
    ∃ (s : Shelf) (as : List MemoryAnswer) (s' : Shelf) (k' : Memories × Kv Message),
    Prog.interp (shelf List.reverse) (files openStore) blank = .ok () s ∧
    Prog.interp (shelf List.reverse)
      (collect (fun q => q.1.exec Real.log
        (memoryRecords (fun e => utf8 (memoryText e)) fromJson fromJson_utf8)) fewRequests) s = .ok as s' ∧
    Prog.interp brainKv (collect (fun q => q.1.keyed q.2) fewRequests) (∅, ∅) = .ok as k' := by
  obtain ⟨_, s, hopen, -⟩ := (during_open List.reverse).answers
  have hclean : ∀ q ∈ fewRequests, q.1.Clean := by
    simp [fewRequests, MemoryRequest.Clean, keepsake]
  have hfits : ∀ q ∈ fewRequests, q.1.Fits
      (memoryRecords (fun e => utf8 (memoryText e)) fromJson fromJson_utf8) := by
    simp only [fewRequests, List.forall_mem_cons, MemoryRequest.Fits]
    refine ⟨by decide, by decide, trivial, trivial, ?_⟩
    rintro q ⟨⟩
  have hempty : ∀ k, (∅ : Kv Message)[((.text, k) : Cell)]? = none := by simp
  obtain ⟨as, s', k', hs, hk⟩ :=
    stores_alike Real.log fromJson_utf8 List.reverse_perm hopen hempty fewRequests hclean hfits
  exact ⟨s, as, s', k', hopen, hs, hk⟩

end

end Crabtalk.Backend

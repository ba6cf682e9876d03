import Crabtalk.Basis.Scores
import Crabtalk.Store.Frame
import Crabtalk.Store.Plain

/-! # What the index holds

A corpus is what index calls are meant to leave: the current text and weight of
every key. The rows of an index are a function of it, and so are its totals.
-/

open Basis

namespace Crabtalk.Store

abbrev Corpus := Std.ExtTreeMap Str (Str × ℚ) compare

inductive TextOp
  | indexText (index : TextIndex) (key text : Str) (weight : ℚ)
  | dropText (index : TextIndex) (key : Str)
  | dropTextPrefix (index : TextIndex) (stem : Str)

def TextOp.apply (C : TextIndex → Corpus) : TextOp → TextIndex → Corpus
  | indexText i key text weight => Function.update C i ((C i).insert key (text, weight))
  | dropText i key => Function.update C i ((C i).erase key)
  | dropTextPrefix i stem => Function.update C i ((C i).filter fun key _ => !stem.isPrefixOf key)

def corpus (ops : List TextOp) : TextIndex → Corpus := ops.foldl TextOp.apply fun _ => ∅

theorem find_update_erase (C : TextIndex → Corpus) (i j : TextIndex) (key a : Str) :
    (Function.update C i ((C i).erase key) j)[a]? = if i = j ∧
    key = a then none else (C j)[a]? := by
  by_cases hij : i = j
  · subst hij
    rw [Function.update_self, find_erase]
    simp
  · rw [Function.update_of_ne (Ne.symm hij), if_neg fun h => hij h.1]

theorem find_update_insert (C : TextIndex → Corpus) (i j : TextIndex) (key a : Str) (x : Str × ℚ) :
    (Function.update C i ((C i).insert key x) j)[a]? = if i = j ∧
    key = a then some x else (C j)[a]? := by
  by_cases hij : i = j
  · subst hij
    rw [Function.update_self, find_insert]
    simp
  · rw [Function.update_of_ne (Ne.symm hij), if_neg fun h => hij h.1]

theorem find_update_filter (C : TextIndex → Corpus) (i j : TextIndex) (stem a : Str) :
    (Function.update C i ((C i).filter fun key _ => !stem.isPrefixOf key) j)[a]? = if i = j ∧
    stem <+: a then none else (C j)[a]? := by
  by_cases hij : i = j
  · subst hij
    rw [Function.update_self, Std.ExtTreeMap.getElem?_filter']
    by_cases hp : stem <+: a
    · simp [hp]
    · cases (C i)[a]? with
      | none => simp
      | some v => rw [if_neg fun h => hp h.2, Option.filter_some,
          if_pos (by rwa [Bool.not_eq_true', ← Bool.not_eq_true, List.isPrefixOf_iff_prefix])]
  · rw [Function.update_of_ne (Ne.symm hij), if_neg fun h => hij h.1]

section
variable [TextStd]

/-! ## The totals of a corpus -/

def live (C : Corpus) : List (Str × Str × ℚ) := C.toList.filter fun e => !(tokenize e.2.1).isEmpty

def corpusStats (n : Nat → Nat) (C : Corpus) : Stats :=
  ⟨(live C).length, ((live C).map fun e => n (tokenize e.2.1).length).sum⟩

theorem mem_live {C : Corpus} {key text : Str} {weight : ℚ} :
    (key, text, weight) ∈ live C ↔ C[key]? = some (text, weight) ∧ tokenize text ≠ [] := by
  rw [live, List.mem_filter, Std.ExtTreeMap.mem_toList_iff_getElem?_eq_some]
  simp

theorem corpusStats_congr {n : Nat → Nat} {C C' : Corpus} (h : ∀ e, e ∈ live C ↔ e ∈ live C') :
    corpusStats n C = corpusStats n C' := by
  have hp : (live C).Perm (live C') :=
    (List.perm_ext_iff_of_nodup ((nodup_toList C).filter _) ((nodup_toList C').filter _)).mpr h
  rw [corpusStats, corpusStats, hp.length_eq, (hp.map _).sum_nat]

theorem corpusStats_erase {n : Nat → Nat} {C : Corpus} {key text : Str} {weight : ℚ}
    (h : C[key]? = some (text, weight)) (ht : tokenize text ≠ []) :
    corpusStats n C = ⟨(corpusStats n (C.erase key)).docs + 1,
      (corpusStats n (C.erase key)).totalLen + n (tokenize text).length⟩ := by
  have hp : (live C).Perm ((key, text, weight) :: live (C.erase key)) := by
    have hf := (toList_perm_erase h).filter fun e => !(tokenize e.2.1).isEmpty
    rwa [List.filter_cons_of_pos (by simpa using ht)] at hf
  simp only [corpusStats]
  rw [hp.length_eq, (hp.map _).sum_nat]
  simp [Nat.add_comm]

/-! ## The rows of a corpus -/

def docOf (n : Nat → Nat) (text : Str) (weight : ℚ) : Doc :=
  ⟨n (tokenize text).length, weight, (tokenize text).dedup.insertionSort fun a b =>
    compare a b ≠ .gt⟩

inductive Row {μ : Type} (n : Nat → Nat) (C : TextIndex → Corpus) : Str → Value μ → Prop
  | doc {i : TextIndex} {key text : Str} {weight : ℚ} : (C i)[key]? = some (text, weight) →
  tokenize text ≠ [] →
      Row n C (docKey i key) (.doc (docOf n text weight))
  | posting {i : TextIndex} {key text term : Str} {weight : ℚ} : (C i)[key]? = some (text, weight) →
      term ∈ tokenize text →
      Row n C (postingKey i term key) (.raw (Nat.toDigits 10 (n ((tokenize text).count term))))

def OfDoc (i : TextIndex) (key k : Str) : Prop := k = docKey i key ∨ ∃ term, '/' ∉ term ∧
    k = postingKey i term key

variable {μ : Type} {n : Nat → Nat} {C C' : TextIndex → Corpus} {i : TextIndex} {key : Str}

omit [TextStd] in
theorem ofDoc_docKey {j : TextIndex} {a : Str} : OfDoc i key (docKey j a) ↔ i = j ∧ key = a := by
  constructor
  · rintro (h | ⟨term, -, h⟩)
    · obtain ⟨rfl, rfl⟩ := docKey_inj h
      exact ⟨rfl, rfl⟩
    · exact absurd h docKey_ne_postingKey
  · rintro ⟨rfl, rfl⟩
    exact .inl rfl

omit [TextStd] in
theorem ofDoc_postingKey {j : TextIndex} {a term : Str} (ht : '/' ∉ term) :
    OfDoc i key (postingKey j term a) ↔ i = j ∧ key = a := by
  constructor
  · rintro (h | ⟨t, hts, h⟩)
    · exact absurd h.symm docKey_ne_postingKey
    · obtain ⟨rfl, -, rfl⟩ := postingKey_inj ht hts h
      exact ⟨rfl, rfl⟩
  · rintro ⟨rfl, rfl⟩
    exact .inr ⟨term, ht, rfl⟩

theorem Row.mono {k : Str} {v : Value μ} (hr : Row n C k v)
    (h : ∀ i (key text : Str) (weight : ℚ), tokenize text ≠ [] → (C i)[key]? = some (text, weight) →
      (C' i)[key]? = some (text, weight)) :
    Row n C' k v := by
  cases hr with
  | doc hc ht => exact .doc (h _ _ _ _ ht hc) ht
  | posting hc ht => exact .posting (h _ _ _ _ (List.ne_nil_of_mem ht) hc) ht

theorem Row.docKey {v : Value μ} (hr : Row n C (docKey i key) v) :
    ∃ text weight, (C i)[key]? = some (text, weight) ∧ tokenize text ≠ [] ∧
    v = .doc (docOf n text weight) := by
  generalize hk : Store.docKey i key = k at hr
  cases hr with
  | doc hc ht =>
    obtain ⟨rfl, rfl⟩ := docKey_inj hk
    exact ⟨_, _, hc, ht, rfl⟩
  | posting hc ht => exact absurd hk docKey_ne_postingKey

theorem Row.postingKey {term : Str} {v : Value μ} (hr : Row n C (postingKey i term key) v)
    (hs : '/' ∉ term) :
    ∃ text weight, (C i)[key]? = some (text, weight) ∧ term ∈ tokenize text ∧
      v = .raw (Nat.toDigits 10 (n ((tokenize text).count term))) := by
  generalize hk : Store.postingKey i term key = k at hr
  cases hr with
  | doc hc ht => exact absurd hk.symm docKey_ne_postingKey
  | posting hc ht =>
    obtain ⟨rfl, rfl, rfl⟩ := postingKey_inj hs (slash_notMem_tokenize ht) hk
    exact ⟨_, _, hc, ht, rfl⟩

theorem row_erase {k : Str} {v : Value μ} :
    Row n (Function.update C i ((C i).erase key)) k v ↔ Row n C k v ∧ ¬ OfDoc i key k := by
  constructor
  · intro hr
    cases hr with
    | doc hc ht =>
      rw [find_update_erase] at hc
      split at hc
      · cases hc
      · exact ⟨.doc hc ht, by rwa [ofDoc_docKey]⟩
    | posting hc ht =>
      rw [find_update_erase] at hc
      split at hc
      · cases hc
      · exact ⟨.posting hc ht, by rwa [ofDoc_postingKey (slash_notMem_tokenize ht)]⟩
  · rintro ⟨hr, hk⟩
    cases hr with
    | doc hc ht =>
      rw [ofDoc_docKey] at hk
      exact .doc (by rw [find_update_erase, if_neg hk, hc]) ht
    | posting hc ht =>
      rw [ofDoc_postingKey (slash_notMem_tokenize ht)] at hk
      exact .posting (by rw [find_update_erase, if_neg hk, hc]) ht

theorem row_insert {text k : Str} {weight : ℚ} {v : Value μ} (htext : tokenize text ≠ []) :
    Row n (Function.update C i ((C i).insert key (text, weight))) k v ↔
      (Row n C k v ∧ ¬ OfDoc i key k) ∨ (k = docKey i key ∧ v = .doc (docOf n text weight)) ∨
        ∃ term ∈ tokenize text, k = postingKey i term key ∧
        v = .raw (Nat.toDigits 10 (n ((tokenize text).count term))) := by
  constructor
  · intro hr
    cases hr with
    | doc hc ht =>
      rw [find_update_insert] at hc
      split at hc
      · rename_i h
        obtain ⟨rfl, rfl⟩ := h
        cases hc
        exact .inr (.inl ⟨rfl, rfl⟩)
      · exact .inl ⟨.doc hc ht, by rwa [ofDoc_docKey]⟩
    | posting hc ht =>
      rw [find_update_insert] at hc
      split at hc
      · rename_i h
        obtain ⟨rfl, rfl⟩ := h
        cases hc
        exact .inr (.inr ⟨_, ht, rfl, rfl⟩)
      · exact .inl ⟨.posting hc ht, by rwa [ofDoc_postingKey (slash_notMem_tokenize ht)]⟩
  · have hnew : (Function.update C i ((C i).insert key (text, weight)) i)[key]? =
        some (text, weight) := by
      rw [find_update_insert, if_pos ⟨rfl, rfl⟩]
    rintro (⟨hr, hk⟩ | ⟨rfl, rfl⟩ | ⟨term, ht, rfl, rfl⟩)
    · cases hr with
      | doc hc ht =>
        rw [ofDoc_docKey] at hk
        exact .doc (by rw [find_update_insert, if_neg hk, hc]) ht
      | posting hc ht =>
        rw [ofDoc_postingKey (slash_notMem_tokenize ht)] at hk
        exact .posting (by rw [find_update_insert, if_neg hk, hc]) ht
    · exact .doc hnew htext
    · exact .posting hnew ht

/-! ## A store that holds exactly a corpus -/

def Totals (C : Corpus) (i : TextIndex) (s : Kv μ) : Prop :=
  (s[((.text, statsKey i) : Cell)]? = none ∧ corpusStats u32 C = ⟨0, 0⟩) ∨
    s[((.text, statsKey i) : Cell)]? = some (.stats (corpusStats u32 C))

structure Exact (C : TextIndex → Corpus) (s : Kv μ) : Prop where
  rows : ∀ k v, (∀ i, k ≠ statsKey i) → (s[((.text, k) : Cell)]? = some v ↔ Row u32 C k v)
  totals : ∀ i, Totals (C i) i s

variable {s s' : Kv μ}

theorem Exact.empty (hs : ∀ k, s[((.text, k) : Cell)]? = none) : Exact (fun _ => ∅) s := by
  refine ⟨fun k v _ => ?_, fun i => .inl ⟨hs _, ?_⟩⟩
  · rw [hs]
    constructor
    · intro h
      cases h
    · intro hr
      cases hr with
      | doc hc ht => simp at hc
      | posting hc ht => simp at hc
  · simp [corpusStats, live, Std.ExtTreeMap.toList_eq_nil_iff.mpr]

/-- Corpora with the same live documents file the same rows. -/
theorem Exact.congr (h : Exact C s)
    (hC : ∀ i (key text : Str) (weight : ℚ), tokenize text ≠ [] →
      ((C i)[key]? = some (text, weight) ↔ (C' i)[key]? = some (text, weight))) :
    Exact C' s := by
  have hstats : ∀ i, corpusStats u32 (C' i) = corpusStats u32 (C i) := by
    intro i
    apply corpusStats_congr
    rintro ⟨key, text, weight⟩
    rw [mem_live, mem_live]
    exact and_congr_left fun ht => (hC i key text weight ht).symm
  refine ⟨fun k v hk => ?_, fun i => ?_⟩
  · rw [h.rows k v hk]
    exact ⟨fun hr => hr.mono fun i a t w ht => (hC i a t w ht).mp,
      fun hr => hr.mono fun i a t w ht => (hC i a t w ht).mpr⟩
  · unfold Totals
    rw [hstats]
    exact h.totals i

theorem Totals.of_eq {D : Corpus} (h : Totals D i s)
    (he : s'[((.text, statsKey i) : Cell)]? = s[((.text, statsKey i) : Cell)]?) :
    Totals D i s' := by
  unfold Totals
  rw [he]
  exact h

omit [TextStd] in
theorem statsKey_inj {j : TextIndex} (h : statsKey i = statsKey j) : i = j := by
  rw [statsKey_eq, statsKey_eq] at h
  exact (index_inj h).1

theorem Exact.put_stats {D : Corpus} (h : Exact C s)
    (hrows : ∀ k v, (∀ i, k ≠ statsKey i) →
      (s'[((.text, k) : Cell)]? = some v ↔ Row u32 (Function.update C i D) k v))
    (hstats : ∀ j, s'[((.text, statsKey j) : Cell)]? = s[((.text, statsKey j) : Cell)]?) :
    Exact (Function.update C i D) (s'.insert (.text, statsKey i) (.stats (corpusStats u32 D))) := by
  refine ⟨fun k v hk => ?_, fun j => ?_⟩
  · rw [find_insert, if_neg (by simp [Ne.symm (hk i)]), hrows k v hk]
  · by_cases hij : i = j
    · subst hij
      rw [Function.update_self]
      exact .inr (by rw [find_insert, if_pos rfl])
    · rw [Function.update_of_ne (Ne.symm hij)]
      apply (h.totals j).of_eq
      rw [find_insert, if_neg (by simp [mt statsKey_inj hij]), hstats]

theorem wp_stats_of {D : Corpus} {Q : Stats → Kv μ → Prop} {E : Error → Kv μ → Prop}
    (h : Totals D i s) (hQ : Q (corpusStats u32 D) s) :
    Prog.wp False memory (stats i) Q E s := by
  unfold stats
  rw [Prog.wp_bind, wp_getJson]
  refine ⟨?_, False.elim⟩
  rcases h with ⟨hs, hD⟩ | hs
  · rw [hD] at hQ
    rw [hs]
    exact hQ
  · rw [hs]
    exact hQ

omit [TextStd] in
theorem wp_forM_delete {δ : Type} {f : δ → Str} {Q : Unit → Kv μ → Prop} {E : Error → Kv μ → Prop}
    {l : List δ} {s : Kv μ}
    (hQ : Q () ((l.map fun x => ((.text, f x) : Cell)).foldl (fun s k => s.erase k) s)) :
    Prog.wp False memory (forM l fun x => do let _ ← delete .text (f x)) Q E s := by
  induction l generalizing s with
  | nil => exact hQ
  | cons x l ih =>
    rw [List.forM_cons, Prog.wp_bind, Prog.wp_bind, wp_delete]
    exact ⟨ih hQ, False.elim⟩

omit [TextStd] in
theorem wp_forM_put {δ : Type} {f : δ → Str} {g : δ → Value μ} {Q : Unit → Kv μ → Prop}
    {E : Error → Kv μ → Prop} {l : List δ} {s : Kv μ}
    (hQ : Q () (l.foldl (fun s x => s.insert (.text, f x) (g x)) s)) :
    Prog.wp False memory (forM l fun x => put .text (f x) (g x)) Q E s := by
  induction l generalizing s with
  | nil => exact hQ
  | cons x l ih =>
    rw [List.forM_cons, Prog.wp_bind, wp_put]
    exact ⟨ih hQ, False.elim⟩

theorem mem_docOf_terms {text term : Str} {weight : ℚ} : term ∈ (docOf u32 text weight).terms ↔
    term ∈ tokenize text := by
  rw [docOf, (List.perm_insertionSort _ _).mem_iff, List.mem_dedup]

def retract (i : TextIndex) (key : Str) (terms : List Str) (s : Kv μ) : Kv μ :=
  ((terms.map fun t => ((.text, postingKey i t key) : Cell)).foldl (fun s k => s.erase k) s).erase
    (.text, docKey i key)

omit [TextStd] in
theorem find_retract (terms : List Str) (k : Str) : (retract i key terms s)[((.text, k) : Cell)]? =
    if k = docKey i key ∨ ∃ t ∈ terms, k = postingKey i t key then none
    else s[((.text, k) : Cell)]? := by
  rw [retract, find_erase, find_foldl_erase]
  simp only [List.mem_map, Prod.mk.injEq, true_and, eq_comm (b := k)]
  by_cases hk : k = docKey i key
  · simp [hk]
  · simp [hk]

omit [TextStd] in
theorem find_retract_statsKey (terms : List Str) (j : TextIndex) :
    (retract i key terms s)[((.text, statsKey j) : Cell)]? = s[((.text, statsKey j) : Cell)]? := by
  rw [find_retract, if_neg]
  rintro (hk | ⟨t, -, hk⟩)
  · exact docKey_ne_statsKey hk.symm
  · exact postingKey_ne_statsKey hk.symm

/-- Retracting what a record names leaves no row of its document. -/
theorem Exact.retract (h : Exact C s) {text : Str} {weight : ℚ}
    (hc : (C i)[key]? = some (text, weight)) {k : Str} {v : Value μ}
    (hk : ∀ i, k ≠ statsKey i) : (retract i key (docOf u32 text weight).terms
      s)[((.text, k) : Cell)]? = some v ↔
      Row u32 (Function.update C i ((C i).erase key)) k v := by
  rw [find_retract, row_erase, ← h.rows k v hk]
  simp only [mem_docOf_terms]
  by_cases hof : k = docKey i key ∨ ∃ t ∈ tokenize text, k = postingKey i t key
  · have hdoc : OfDoc i key k := hof.imp id fun ⟨t, ht, hk⟩ => ⟨t, slash_notMem_tokenize ht, hk⟩
    simp [hof, hdoc]
  · rw [if_neg hof]
    refine (and_iff_left_of_imp fun hv => ?_).symm
    -- a row of the document names one of its terms
    rintro (hk' | ⟨term, hterm, rfl⟩)
    · exact hof (.inl hk')
    · obtain ⟨text', weight', hc', hmem, -⟩ := ((h.rows _ v hk).mp hv).postingKey hterm
      rw [hc] at hc'
      cases hc'
      exact hof (.inr ⟨term, hmem, rfl⟩)

theorem wp_dropText_exact (h : Exact C s) :
    Prog.wp False memory (dropText i key) (fun _ => Exact (Function.update C i ((C i).erase key)))
    (fun _ _ => False) s := by
  unfold dropText
  rw [Prog.wp_bind, wp_getJson]
  refine ⟨?_, False.elim⟩
  have hdoc : ∀ v, s[((.text, docKey i key) : Cell)]? = some v ↔
      Row u32 C (docKey i key) v := fun v =>
    h.rows _ v fun j => docKey_ne_statsKey
  cases hd : s[((.text, docKey i key) : Cell)]? with
  | none =>
    -- a text without terms left no record, so there is nothing to retract
    refine h.congr fun j a t w ht => ?_
    rw [find_update_erase]
    by_cases hja : i = j ∧ key = a
    · obtain ⟨rfl, rfl⟩ := hja
      constructor
      · intro hc
        rw [(hdoc _).mpr (.doc hc ht)] at hd
        cases hd
      · intro hc
        rw [if_pos ⟨rfl, rfl⟩] at hc
        cases hc
    · rw [if_neg hja]
  | some v =>
    obtain ⟨text, weight, hc, ht, rfl⟩ := ((hdoc v).mp hd).docKey
    simp only [Value.asDoc]
    rw [Prog.wp_bind]
    apply wp_forM_delete
    rw [Prog.wp_bind, wp_delete]
    refine ⟨?_, False.elim⟩
    rw [Prog.wp_bind]
    refine wp_stats_of (s := Store.retract i key (docOf u32 text weight).terms s)
      ((h.totals i).of_eq (find_retract_statsKey _ i)) ?_
    rw [wp_put]
    refine ⟨?_, False.elim⟩
    have hlow : (⟨(corpusStats u32 (C i)).docs - 1,
        (corpusStats u32 (C i)).totalLen - (docOf u32 text weight).len⟩ : Stats) =
        corpusStats u32 ((C i).erase key) := by
      rw [corpusStats_erase hc ht]
      simp [docOf]
    rw [hlow]
    exact h.put_stats (fun k v hk => h.retract hc hk) fun j => find_retract_statsKey _ j

/-! ## Indexing -/

omit [TextStd] in
theorem perm_sorted {l l' : List Str} (h : l.Perm l') :
    l.insertionSort (fun a b => compare a b ≠ .gt) = l'.insertionSort fun a b =>
    compare a b ≠ .gt := by
  have htotal : Std.Total fun a b : Str => compare a b ≠ .gt := ⟨total_cmp⟩
  have htrans : IsTrans Str fun a b => compare a b ≠ .gt := ⟨fun _ _ _ => trans_cmp⟩
  have hantisymm : Std.Antisymm fun a b : Str => compare a b ≠ .gt := ⟨fun _ _ => antisymm_cmp⟩
  exact insertionSort_congr h

theorem mem_termFrequencies {terms : List Str} {tf : Str × Nat} :
    tf ∈ termFrequencies terms ↔ ∃ t ∈ terms, (t, u32 (terms.count t)) = tf := by
  rw [termFrequencies, (TextStd.hashOrder_perm _).mem_iff, List.mem_map]
  simp only [List.mem_dedup]

theorem docOf_eq (text : Str) (weight : ℚ) :
    (⟨u32 (tokenize text).length, weight,
      ((termFrequencies (tokenize text)).map (·.1)).insertionSort fun a b => compare a b ≠ .gt⟩ : Doc) =
      docOf u32 text weight := by
  have hperm : ((termFrequencies (tokenize text)).map (·.1)).Perm (tokenize text).dedup := by
    have hp := (TextStd.hashOrder_perm
        ((tokenize text).dedup.map fun t => (t, u32 ((tokenize text).count t)))).map (·.1)
    rwa [List.map_map, Function.comp_def, List.map_id'] at hp
  rw [docOf, perm_sorted hperm]

def file (i : TextIndex) (key text : Str) (weight : ℚ) (s : Kv μ) : Kv μ :=
  ((termFrequencies (tokenize text)).foldl
    (fun s tf => s.insert (.text, postingKey i tf.1 key) (.raw (Nat.toDigits 10 tf.2))) s).insert
    (.text, docKey i key) (.doc (docOf u32 text weight))

theorem find_file_docKey {text : Str} {weight : ℚ} :
    (file i key text weight s)[((.text, docKey i key) : Cell)]? =
    some (.doc (docOf u32 text weight)) := by
  rw [file, find_insert, if_pos rfl]

theorem find_file_postingKey {text term : Str} {weight : ℚ} (ht : term ∈ tokenize text) :
    (file i key text weight s)[((.text, postingKey i term key) : Cell)]? =
      some (.raw (Nat.toDigits 10 (u32 ((tokenize text).count term)))) := by
  rw [file, find_insert, if_neg (by simp [docKey_ne_postingKey])]
  apply find_foldl_insert_of_mem
  · exact ⟨_, mem_termFrequencies.mpr ⟨term, ht, rfl⟩, rfl⟩
  · intro tf htf hk
    obtain ⟨t, htm, rfl⟩ := mem_termFrequencies.mp htf
    obtain ⟨-, rfl, -⟩ := postingKey_inj (slash_notMem_tokenize htm) (slash_notMem_tokenize ht)
        (Prod.mk.inj hk).2
    rfl

theorem find_file_other {text k : Str} {weight : ℚ} (hd : k ≠ docKey i key)
    (hp : ∀ term ∈ tokenize text, k ≠ postingKey i term key) :
    (file i key text weight s)[((.text, k) : Cell)]? = s[((.text, k) : Cell)]? := by
  rw [file, find_insert, if_neg (by simp [hd.symm])]
  apply find_foldl_insert_of_notMem
  intro tf htf he
  obtain ⟨t, ht, rfl⟩ := mem_termFrequencies.mp htf
  exact hp t ht (Prod.mk.inj he).2.symm

/-- Filing a document where there is none of its key adds its rows. -/
theorem Exact.file (h : Exact (Function.update C i ((C i).erase key)) s) {text : Str} {weight : ℚ}
    (ht : tokenize text ≠ []) {k : Str} {v : Value μ} (hk : ∀ i, k ≠ statsKey i) :
    (file i key text weight s)[((.text, k) : Cell)]? = some v ↔
    Row u32 (Function.update C i ((C i).insert key (text, weight))) k v := by
  rw [row_insert ht, ← row_erase, ← h.rows k v hk]
  have hold : OfDoc i key k → s[((.text, k) : Cell)]? ≠ some v := by
    intro hof hv
    exact (row_erase.mp ((h.rows _ v hk).mp hv)).2 hof
  by_cases hd : k = docKey i key
  · subst hd
    rw [find_file_docKey]
    constructor
    · intro hv
      cases hv
      exact .inr (.inl ⟨rfl, rfl⟩)
    · rintro (hv | ⟨-, rfl⟩ | ⟨term, -, hp, -⟩)
      · exact absurd hv (hold (.inl rfl))
      · rfl
      · exact absurd hp docKey_ne_postingKey
  · by_cases hp : ∃ term ∈ tokenize text, k = postingKey i term key
    · obtain ⟨term, hterm, rfl⟩ := hp
      rw [find_file_postingKey hterm]
      constructor
      · intro hv
        cases hv
        exact .inr (.inr ⟨term, hterm, rfl, rfl⟩)
      · rintro (hv | ⟨hk', -⟩ | ⟨t, ht, hk', rfl⟩)
        · exact absurd hv (hold (.inr ⟨term, slash_notMem_tokenize hterm, rfl⟩))
        · exact absurd hk' hd
        · obtain ⟨-, rfl, -⟩ := postingKey_inj (slash_notMem_tokenize hterm)
              (slash_notMem_tokenize ht) hk'
          rfl
    · rw [find_file_other hd fun term hterm hk' => hp ⟨term, hterm, hk'⟩]
      constructor
      · exact .inl
      · rintro (hv | ⟨hk', -⟩ | ⟨t, ht, hk', -⟩)
        · exact hv
        · exact absurd hk' hd
        · exact absurd ⟨t, ht, hk'⟩ hp

theorem wp_indexText_exact {text : Str} {weight : ℚ} (h : Exact C s) :
    Prog.wp False memory (indexText i key text weight)
    (fun _ => Exact (Function.update C i ((C i).insert key (text, weight))))
      (fun _ _ => False) s := by
  unfold indexText
  rw [Prog.wp_bind]
  refine (wp_dropText_exact h).mono ?_ fun _ _ he => he
  intro _ s₁ h₁
  -- a text without words leaves no document
  by_cases hempty : tokenize text = []
  · rw [if_pos (by simp [hempty])]
    refine h₁.congr fun j a t w ht => ?_
    rw [find_update_erase, find_update_insert]
    by_cases hja : i = j ∧ key = a
    · rw [if_pos hja, if_pos hja]
      constructor
      · intro hc
        cases hc
      · intro hc
        cases hc
        exact absurd hempty ht
    · rw [if_neg hja, if_neg hja]
  · rw [if_neg (by simp [hempty]), Prog.wp_bind]
    apply wp_forM_put
    dsimp only
    rw [docOf_eq, Prog.wp_bind, wp_put]
    refine ⟨?_, False.elim⟩
    rw [Prog.wp_bind]
    have hstats : ∀ j, (Store.file i key text weight s₁)[((.text, statsKey j) : Cell)]? =
        s₁[((.text, statsKey j) : Cell)]? := fun j =>
      find_file_other docKey_ne_statsKey.symm fun term _ => postingKey_ne_statsKey.symm
    have htotals := h₁.totals i
    rw [Function.update_self] at htotals
    refine wp_stats_of (s := Store.file i key text weight s₁) (htotals.of_eq (hstats i)) ?_
    rw [wp_put]
    refine ⟨?_, False.elim⟩
    -- the totals are those without the old text, raised by the new one
    have hraise : (⟨(corpusStats u32 ((C i).erase key)).docs + 1,
        (corpusStats u32 ((C i).erase key)).totalLen + u32 (tokenize text).length⟩ : Stats) =
        corpusStats u32 ((C i).insert key (text, weight)) := by
      have he : ((C i).insert key (text, weight)).erase key = (C i).erase key := map_ext fun a => by
        rw [find_erase, find_erase, find_insert]
        split
        · rfl
        · rfl
      rw [corpusStats_erase (C := (C i).insert key (text, weight))
        (by rw [find_insert, if_pos rfl]) hempty, he]
    have hC : Function.update (Function.update C i ((C i).erase key)) i
        ((C i).insert key (text, weight)) =
        Function.update C i ((C i).insert key (text, weight)) := Function.update_idem _ _ _
    rw [hraise, ← hC]
    refine h₁.put_stats (fun k v hk => ?_) hstats
    rw [hC]
    exact h₁.file hempty hk

/-! ## Runs of index calls -/

theorem wp_forM_dropText (n : Nat) {keys : List Str} (h : Exact C s) :
    Prog.wp False memory (forM keys fun k => dropText i (k.drop n))
      (fun _ => Exact (Function.update C i
        ((keys.map (·.drop n)).foldl (fun m k => m.erase k) (C i)))) (fun _ _ => False) s := by
  induction keys generalizing C s with
  | nil =>
    simp only [List.map_nil, List.foldl_nil, Function.update_eq_self]
    exact h
  | cons k keys ih =>
    rw [List.forM_cons, Prog.wp_bind]
    refine (wp_dropText_exact h).mono ?_ fun _ _ he => he
    intro _ s₁ h₁
    have hk := ih h₁
    rw [Function.update_idem, Function.update_self] at hk
    exact hk

theorem wp_dropTextPrefix_exact {stem : Str} (h : Exact C s) :
    Prog.wp False memory (dropTextPrefix i stem)
      (fun _ => Exact (Function.update C i ((C i).filter fun key _ => !stem.isPrefixOf key)))
      (fun _ _ => False) s := by
  unfold dropTextPrefix
  rw [Prog.wp_bind, wp_scanKeys]
  refine ⟨(wp_forM_dropText _ h).mono ?_ fun _ _ he => he, False.elim⟩
  intro _ s₁ h₁
  refine h₁.congr fun j a t w ht => ?_
  rw [find_update_filter]
  by_cases hij : i = j
  · subst hij
    rw [Function.update_self, find_foldl_erase]
    by_cases ha : stem <+: a
    · have hpre : i = i ∧ stem <+: a := ⟨rfl, ha⟩
      rw [if_pos hpre]
      have hfree : (C i)[a]? = some (t, w) →
          a ∈ ((s.under .text (docKey i stem)).map fun e => e.1.2).map
          (·.drop (docPrefix i).length) := by
        intro hc
        obtain ⟨rest, rfl⟩ := ha
        rw [List.map_map]
        refine List.mem_map.mpr ⟨((.text, docKey i (stem ++ rest)), .doc (docOf u32 t w)), ?_, ?_⟩
        · rw [ColMap.mem_under]
          refine ⟨(h.rows _ _ fun j => docKey_ne_statsKey).mpr (.doc hc ht), rfl, rest, ?_⟩
          simp [docKey]
        · simp [docKey]
      split
      · rfl
      · rename_i hn
        exact ⟨fun hc => absurd (hfree hc) hn, fun hc => by cases hc⟩
    · have hpre : ¬ (i = i ∧ stem <+: a) := fun hp => ha hp.2
      rw [if_neg hpre, if_neg]
      intro hm
      obtain ⟨k, hk, rfl⟩ := List.mem_map.mp hm
      obtain ⟨⟨⟨col, k⟩, v⟩, he, rfl⟩ := List.mem_map.mp hk
      obtain ⟨-, -, rest, hrest⟩ := ColMap.mem_under.mp he
      simp only at hrest ha
      rw [← hrest, docKey, List.append_assoc, List.drop_left] at ha
      exact ha (List.prefix_append _ _)
  · rw [Function.update_of_ne (Ne.symm hij), if_neg fun h => hij h.1]

def TextOp.run : TextOp → KvM μ Unit
  | indexText i key text weight => Store.indexText i key text weight
  | dropText i key => Store.dropText i key
  | dropTextPrefix i stem => Store.dropTextPrefix i stem

theorem wp_textOp (op : TextOp) (h : Exact C s) :
    Prog.wp False memory op.run (fun _ => Exact (op.apply C)) (fun _ _ => False) s := by
  cases op with
  | indexText i key text weight => exact wp_indexText_exact h
  | dropText i key => exact wp_dropText_exact h
  | dropTextPrefix i stem => exact wp_dropTextPrefix_exact h

theorem wp_textOps {ops : List TextOp} (h : Exact C s) :
    Prog.wp False memory (forM ops TextOp.run) (fun _ => Exact (ops.foldl TextOp.apply C))
    (fun _ _ => False) s := by
  induction ops generalizing C s with
  | nil => exact h
  | cons op ops ih =>
    rw [List.forM_cons, Prog.wp_bind]
    exact (wp_textOp op h).mono (fun _ s₁ h₁ => ih h₁) fun _ _ he => he

theorem Exact.interp_stats (h : Exact C s) (i : TextIndex) :
    Prog.interp memory (stats i) s = .ok (corpusStats u32 (C i)) s := by
  have hw : Prog.wp False memory (stats i) (fun st s' => st = corpusStats u32 (C i) ∧ s' = s)
      (fun _ _ => False) s :=
    wp_stats_of (h.totals i) ⟨rfl, rfl⟩
  obtain ⟨st, s', hi, rfl, rfl⟩ := hw.answers
  exact hi

theorem Exact.counted (h : Exact C s) {d : Doc}
    (hd : s[((.text, docKey i key) : Cell)]? = some (.doc d)) :
    1 ≤ (corpusStats u32 (C i)).docs ∧ d.len ≤ (corpusStats u32 (C i)).totalLen := by
  obtain ⟨text, weight, hc, ht, hv⟩ := ((h.rows _ _ fun j => docKey_ne_statsKey).mp hd).docKey
  cases hv
  rw [corpusStats_erase hc ht]
  exact ⟨Nat.le_add_left _ _, Nat.le_add_left _ _⟩

/-! ## Counts that fit -/

def TextOp.Short : TextOp → Prop
  | indexText _ _ text _ => (tokenize text).length < 2 ^ 32
  | _ => True

def ShortCorpus (C : Corpus) : Prop := ∀ (key text : Str) (weight : ℚ), C[key]? =
    some (text, weight) → (tokenize text).length < 2 ^ 32

theorem shortCorpus_apply {op : TextOp} (hop : op.Short) (h : ∀ i, ShortCorpus (C i))
    (i : TextIndex) : ShortCorpus (op.apply C i) := by
  intro key text weight hc
  cases op with
  | indexText j a t w =>
    simp only [TextOp.apply] at hc
    rw [find_update_insert] at hc
    split at hc
    · cases hc
      exact hop
    · exact h i key text weight hc
  | dropText j a =>
    simp only [TextOp.apply] at hc
    rw [find_update_erase] at hc
    split at hc
    · cases hc
    · exact h i key text weight hc
  | dropTextPrefix j stem =>
    simp only [TextOp.apply] at hc
    rw [find_update_filter] at hc
    split at hc
    · cases hc
    · exact h i key text weight hc

theorem shortCorpus {ops : List TextOp} (hops : ∀ op ∈ ops, op.Short) (h : ∀ i, ShortCorpus (C i))
    (i : TextIndex) :
    ShortCorpus (ops.foldl TextOp.apply C i) := by
  induction ops generalizing C with
  | nil => exact h i
  | cons op ops ih =>
    exact ih (fun op' hop' => hops op' (List.mem_cons_of_mem _ hop'))
      (shortCorpus_apply (hops op List.mem_cons_self) h)

theorem corpusStats_short {D : Corpus} (h : ShortCorpus D) : corpusStats u32 D = corpusStats id D := by
  have hlen : (live D).map (fun e => u32 (tokenize e.2.1).length) = (live D).map fun e =>
      id (tokenize e.2.1).length := by
    apply List.map_congr_left
    rintro ⟨key, text, weight⟩ he
    exact Nat.mod_eq_of_lt (h key text weight (mem_live.mp he).1)
  rw [corpusStats, hlen]
  rfl

theorem row_short (h : ∀ i, ShortCorpus (C i)) {k : Str} {v : Value μ} : Row u32 C k v ↔
    Row id C k v := by
  have hcount : ∀ {i : TextIndex} {key text : Str} {weight : ℚ} (m : Nat), (C i)[key]? =
      some (text, weight) →
      m ≤ (tokenize text).length → u32 m = id m := fun m hc hm =>
      Nat.mod_eq_of_lt (Nat.lt_of_le_of_lt hm (h _ _ _ _ hc))
  constructor
  · intro hr
    cases hr with
    | doc hc ht =>
      rw [docOf, hcount _ hc (Nat.le_refl _)]
      exact .doc hc ht
    | posting hc ht =>
      rw [hcount _ hc List.count_le_length]
      exact .posting hc ht
  · intro hr
    cases hr with
    | doc hc ht =>
      rw [docOf, ← hcount _ hc (Nat.le_refl _)]
      exact .doc hc ht
    | posting hc ht =>
      rw [← hcount _ hc List.count_le_length]
      exact .posting hc ht

/-- Index calls leave exactly the rows of the corpus and its totals, and every
record there is to drop is counted in them, so no subtraction is cut off. -/
theorem corpus_exact {s₀ : Kv μ} (h₀ : ∀ k, s₀[((.text, k) : Cell)]? = none) (ops : List TextOp)
    (hops : ∀ op ∈ ops, op.Short) :
    ∃ s, Prog.interp memory (forM ops TextOp.run) s₀ = .ok () s ∧
      (∀ k v, (∀ i, k ≠ statsKey i) →
        (s[((.text, k) : Cell)]? = some v ↔ Row id (corpus ops) k v)) ∧
      ∀ i, Prog.interp memory (stats i) s = .ok (corpusStats id (corpus ops i)) s ∧
        ∀ key d, s[((.text, docKey i key) : Cell)]? = some (.doc d) →
          1 ≤ (corpusStats id (corpus ops i)).docs ∧
          d.len ≤ (corpusStats id (corpus ops i)).totalLen := by
  obtain ⟨_, s, hi, h⟩ := (wp_textOps (Exact.empty h₀)).answers
  have hshort : ∀ i, ShortCorpus (corpus ops i) := shortCorpus hops fun i key text weight hc => by simp at hc
  refine ⟨s, hi, fun k v hk => (h.rows k v hk).trans (row_short hshort), fun i => ?_⟩
  rw [← corpusStats_short (hshort i)]
  exact ⟨h.interp_stats i, fun key d hd => h.counted hd⟩

end

open Plain in
theorem corpus_exact_instance : ∃ s : Kv Unit,
    Prog.interp memory (forM [.indexText .memory "a".toList "notes".toList 1,
      .indexText .memory "a".toList "deploy the deploy".toList 1]
      TextOp.run) ∅ = .ok () s ∧
    s[((.text, postingKey .memory "deploy".toList "a".toList) : Cell)]? = some (.raw "2".toList) := by
  have hempty : ∀ k, (∅ : Kv Unit)[((.text, k) : Cell)]? = none := by simp
  obtain ⟨s, hs, hrows, -⟩ := corpus_exact hempty
    [.indexText .memory "a".toList "notes".toList 1,
      .indexText .memory "a".toList "deploy the deploy".toList 1]
    (by
      intro op hop
      rcases List.mem_cons.mp hop with rfl | hop
      · unfold TextOp.Short
        decide
      · rw [List.mem_singleton.mp hop]
        unfold TextOp.Short
        decide)
  refine ⟨s, hs, (hrows _ _ fun j => postingKey_ne_statsKey).mpr ?_⟩
  have hc : (corpus [.indexText .memory "a".toList "notes".toList 1,
      .indexText .memory "a".toList "deploy the deploy".toList 1] .memory)["a".toList]? =
      some ("deploy the deploy".toList, 1) := by
    simp only [corpus, List.foldl_cons, List.foldl_nil, TextOp.apply]
    rw [find_update_insert, if_pos ⟨rfl, rfl⟩]
  exact Row.posting hc (by decide)

end Crabtalk.Store

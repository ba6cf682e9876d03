import Crabtalk.Basis.Scores
import Crabtalk.Store.Hits
import Mathlib.Algebra.Order.Field.Basic
import Mathlib.Data.Rat.Cast.Defs

/-! # The ranking of a corpus

Search with its scores taken as exact numbers, over any ordered field with a
logarithm. Over a store that holds exactly a corpus the answer is a function
of the corpus: each document is worth the sum, over the terms of the query and
the words each of them matches, of what the word adds.
-/

open Basis

namespace Crabtalk.Store

structure Bm25 (R : Type) where
  k1 : R
  b : R

section
variable {R : Type} [Field R]

def Bm25.default : Bm25 R := ⟨6 / 5, 3 / 4⟩

def idf (ln : R → R) (df docs : Nat) : R := ln ((docs - df + 1 / 2) / (df + 1 / 2) + 1)

def Bm25.weigh (bm25 : Bm25 R) (tf len : Nat) (avgdl : R) : R :=
  tf * (bm25.k1 + 1) / (tf + bm25.k1 * (1 - bm25.b + bm25.b * len / avgdl))

end

namespace Ranking

section
variable {μ R : Type} [Field R]

abbrev Scores (R : Type) := Std.ExtTreeMap Str R compare

def scoreDocs (index : TextIndex) (idf avgdl : R) : List (Str × Nat) → Scores R × Lens →
    KvM μ (Scores R × Lens)
  | [], acc => return acc
  | (key, tf) :: rest, (scores, known) => do
    let (l, known) ← lens index key known
    let add := idf * Bm25.default.weigh tf l.1 avgdl * l.2
    scoreDocs index idf avgdl rest (scores.insert key (scores[key]?.getD 0 + add), known)

def scoreTerms (ln : R → R) (index : TextIndex) (stats : Stats) : List Term → Scores R × Lens →
    KvM μ (Scores R × Lens)
  | [], acc => return acc
  | term :: rest, acc => do
    let found ← postings index term
    if found.isEmpty then scoreTerms ln index stats rest acc
    else do
      let acc ← scoreDocs index (idf ln found.length stats.docs)
          (stats.totalLen / stats.docs) found acc
      scoreTerms ln index stats rest acc

variable [LinearOrder R] [TextStd] [SearchStd μ]

/-- Best score first, and by key where scores are equal. -/
def Ranked (a b : Str × R) : Prop := b.2 < a.2 ∨ b.2 = a.2 ∧ compare a.1 b.1 ≠ .gt

instance : DecidableRel (Ranked (R := R)) := fun a b =>
  inferInstanceAs (Decidable (b.2 < a.2 ∨ b.2 = a.2 ∧ compare a.1 b.1 ≠ .gt))

def searchText (ln : R → R) (index : TextIndex) (query : Str) (limit : Nat) :
    KvM μ (List (Str × R)) := do
  let terms := queryTerms μ query
  if terms.isEmpty || limit = 0 then return []
  else
    let stats ← stats index
    if stats.docs = 0 then return []
    else
      let acc ← scoreTerms ln index stats terms (∅, ∅)
      let hits := acc.1.toList.filter fun hit => 0 < hit.2
      return (hits.insertionSort Ranked).take limit

end

/-! ## The same from the corpus -/

instance (term : Term) (word : Str) : Decidable (term.Matches word) :=
  decidable_of_iff (term.isPrefix = true ∧ term.text <+: word ∨ term.isPrefix = false ∧
    word = term.text)
    (by cases h : term.isPrefix <;> simp [Term.Matches, h])

section
variable {R : Type} [TextStd]

def matched (term : Term) (text : Str) : List Str := (tokenize text).dedup.filter fun word =>
    term.Matches word

/-- A row for each word of each document that the term matches, with how often the document has
it. -/
def rows (C : Corpus) (term : Term) : List (Str × Nat) :=
  C.toList.flatMap fun e => (matched term e.2.1).map fun word =>
    (e.1, u32 ((tokenize e.2.1).count word))

variable [Field R]

def avgdl (C : Corpus) : R := (corpusStats u32 C).totalLen / (corpusStats u32 C).docs

def termScore (ln : R → R) (C : Corpus) (term : Term) (text : Str) (weight : ℚ) : R :=
  ((matched term text).map fun word => idf ln (rows C term).length (corpusStats u32 C).docs *
    Bm25.default.weigh (u32 ((tokenize text).count word)) (u32 (tokenize text).length)
    (avgdl C) * weight).sum

def score (ln : R → R) (C : Corpus) (terms : List Term) (text : Str) (weight : ℚ) : R :=
  (terms.map fun term => termScore ln C term text weight).sum

variable [LinearOrder R]

def ranking (ln : R → R) (C : Corpus) (terms : List Term) (limit : Nat) : List (Str × R) :=
  (((C.toList.map fun e => (e.1, score ln C terms e.2.1 e.2.2)).filter fun hit =>
    0 < hit.2).insertionSort Ranked).take limit

end

/-! ## Postings -/

section
variable {μ : Type} {index : TextIndex} {term : Term} {word key : Str}

theorem termScope_posting (hm : term.Matches word) :
    ∃ more, postingKey index word key = termScope index term ++ more ∧
    (term.isPrefix = false → more = key) ∧
    (term.isPrefix = true → ∃ a, word = term.text ++ a ∧ more = a ++ '/' :: key) := by
  unfold Term.Matches at hm
  cases hp : term.isPrefix with
  | false =>
    rw [hp, if_neg Bool.false_ne_true] at hm
    exact ⟨key, by simp [postingKey, termScope, hp, hm], fun _ => rfl, fun h => by cases h⟩
  | true =>
    rw [hp, if_pos rfl] at hm
    obtain ⟨a, ha⟩ := hm
    exact ⟨a ++ '/' :: key, by simp [postingKey, termScope, keysUnder, Store.key, hp, ← ha],
      (fun h => by cases h), fun _ => ⟨a, ha.symm, rfl⟩⟩

theorem idxOf?_append_cons {c : Char} : ∀ {a : Str} (b : Str), c ∉ a →
    (a ++ c :: b).idxOf? c = some a.length
  | [], b, _ => by simp [List.idxOf?_cons]
  | x :: a, b, h => by
    rw [List.mem_cons, not_or] at h
    rw [List.cons_append, List.idxOf?_cons, idxOf?_append_cons b h.2]
    have hne : (x == c) = false := by simpa using Ne.symm h.1
    simp [hne]

theorem readPosting_posting (hs : '/' ∉ word) (hm : term.Matches word) {tf : Nat}
    (htf : tf < 2 ^ 32) :
    readPosting (μ := μ) (termScope index term) term.isPrefix (postingKey index word key,
      .raw (Nat.toDigits 10 tf)) = some (key, tf) := by
  obtain ⟨more, hk, hexact, hstem⟩ : ∃ more, postingKey index word key = termScope index term ++
      more ∧ _ := termScope_posting hm
  have hcut : findTermBoundary (postingKey index word key) (termScope index term) term.isPrefix =
      some ((postingKey index word key).length - key.length) := by
    unfold findTermBoundary
    cases hp : term.isPrefix with
    | false =>
      rw [hk, hexact hp]
      simp
    | true =>
      obtain ⟨a, ha, hmore⟩ := hstem hp
      have hnot : '/' ∉ a := fun h => hs (by rw [ha]; exact List.mem_append_right _ h)
      rw [if_pos rfl, hk, List.drop_left, hmore, idxOf?_append_cons key hnot, Option.map_some]
      simp only [List.length_append, List.length_cons]
      congr 1
      omega
  have hdrop : (postingKey index word key).drop ((postingKey index word key).length - key.length) = key := by
    rw [postingKey, List.length_append, Nat.add_sub_cancel, List.drop_left]
  simp only [readPosting, Option.bind_eq_bind]
  rw [hcut, Value.asRaw, Option.bind_some, Option.bind_some, parseU32_toDigits htf,
    Option.bind_some, hdrop]
  rfl

variable [TextStd] {C : TextIndex → Corpus} {s : Kv μ} {text : Str} {weight : ℚ}

omit [TextStd] in
theorem nodup_keys (C : Corpus) : C.toList.Pairwise fun a b => a.1 ≠ b.1 :=
  Std.ExtTreeMap.distinct_keys_toList.imp fun {a b} hab he =>
    hab (by rw [he]; exact Std.ReflCmp.compare_self)

theorem nodup_matched (term : Term) (text : Str) : (matched term text).Nodup :=
  (List.nodup_dedup _).filter _

theorem mem_matched {term : Term} {text word : Str} : word ∈ matched term text ↔
    word ∈ tokenize text ∧ term.Matches word := by
  rw [matched, List.mem_filter, List.mem_dedup, decide_eq_true_eq]

def filed (C : Corpus) (index : TextIndex) (term : Term) : List (Str × Value μ) :=
  C.toList.flatMap fun e => (matched term e.2.1).map fun word =>
    (postingKey index word e.1, .raw (Nat.toDigits 10 (u32 ((tokenize e.2.1).count word))))

theorem mem_filed {D : Corpus} {row : Str × Value μ} : row ∈ filed D index term ↔
    ∃ key text weight word,
    D[key]? = some (text, weight) ∧ word ∈ tokenize text ∧ term.Matches word ∧
      row = (postingKey index word key,
        .raw (Nat.toDigits 10 (u32 ((tokenize text).count word)))) := by
  rw [filed, List.mem_flatMap]
  constructor
  · intro ⟨⟨key, text, weight⟩, he, hrow⟩
    obtain ⟨word, hword, rfl⟩ := List.mem_map.mp hrow
    rw [mem_matched] at hword
    exact ⟨key, text, weight, word, Std.ExtTreeMap.mem_toList_iff_getElem?_eq_some.mp he, hword.1,
      hword.2, rfl⟩
  · intro ⟨key, text, weight, word, hc, hword, hm, hrow⟩
    refine ⟨(key, text, weight), Std.ExtTreeMap.mem_toList_iff_getElem?_eq_some.mpr hc,
      List.mem_map.mpr ⟨word, ?_, hrow.symm⟩⟩
    exact mem_matched.mpr ⟨hword, hm⟩

theorem nodup_filed (D : Corpus) (index : TextIndex) (term : Term) :
    (filed (μ := μ) D index term).Nodup := by
  rw [filed, List.nodup_flatMap]
  constructor
  · intro e he
    refine (nodup_matched term e.2.1).map_on fun w hw w' hw' hww => ?_
    rw [mem_matched] at hw hw'
    exact (postingKey_inj (slash_notMem_tokenize hw.1) (slash_notMem_tokenize hw'.1)
      (congrArg Prod.fst hww)).2.1
  · refine (nodup_keys D).imp fun {a b} hne => ?_
    intro row ha hb
    obtain ⟨w, hw, rfl⟩ := List.mem_map.mp ha
    obtain ⟨w', hw', he⟩ := List.mem_map.mp hb
    rw [mem_matched] at hw hw'
    exact hne (postingKey_inj (slash_notMem_tokenize hw.1) (slash_notMem_tokenize hw'.1)
      (congrArg Prod.fst he).symm).2.2

theorem filterMap_filed (D : Corpus) (index : TextIndex) (term : Term) :
    (filed (μ := μ) D index term).filterMap (readPosting (termScope index term) term.isPrefix) =
    rows D term := by
  rw [filed, rows, List.filterMap_flatMap]
  refine List.flatMap_congr fun e _ => ?_
  rw [List.filterMap_map]
  refine List.filterMap_eq_map_iff_forall_eq_some.mpr fun word hword => ?_
  rw [mem_matched] at hword
  exact readPosting_posting (slash_notMem_tokenize hword.1) hword.2 (Nat.mod_lt _ (by decide))

/-- The rows that are read of a store with exactly a corpus are the rows of the corpus. -/
theorem wp_postings_exact (h : Exact C s) (hs : '/' ∉ term.text) :
    Prog.wp False memory (postings index term) (fun found s' => s' = s ∧
      found.Perm (rows (C index) term)) (fun _ _ => False) s := by
  unfold postings
  rw [Prog.wp_bind, wp_scan]
  refine ⟨⟨rfl, ?_⟩, False.elim⟩
  let read := readPosting (μ := μ) (termScope index term) term.isPrefix
  let scanned := (s.under .text (termScope index term)).map fun e => (e.1.2, e.2)
  have hread : scanned.filterMap read =
      (scanned.filter fun row => (read row).isSome).filterMap read := by
    rw [List.filterMap_filter]
    refine List.filterMap_congr fun row _ => ?_
    cases read row <;> rfl
  have hnodup : scanned.Nodup := by
    refine List.Nodup.map_on (fun a ha b hb hab => ?_) ((nodup_toList s).filter _)
    obtain ⟨⟨col, k⟩, v⟩ := a
    obtain ⟨⟨col', k'⟩, v'⟩ := b
    have hcol := (ColMap.mem_under.mp ha).2.1
    have hcol' := (ColMap.mem_under.mp hb).2.1
    simp only [Prod.mk.injEq] at hcol hcol' hab ⊢
    exact ⟨⟨hcol.trans hcol'.symm, hab.1⟩, hab.2⟩
  -- a scanned row is read iff it is a posting that is filed for the term
  have hperm : (scanned.filter fun row => (read row).isSome).Perm (filed (C index) index term) := by
    rw [List.perm_ext_iff_of_nodup (hnodup.filter _) (nodup_filed _ _ _)]
    intro row
    rw [List.mem_filter, mem_filed]
    constructor
    · intro ⟨hmem, hsome⟩
      obtain ⟨⟨key, tf⟩, hkt⟩ := Option.isSome_iff_exists.mp hsome
      obtain ⟨⟨⟨col, k⟩, v⟩, he, hrow⟩ := List.mem_map.mp hmem
      obtain ⟨hv, hcol, hpre⟩ := ColMap.mem_under.mp he
      simp only at hcol hpre hrow
      subst hcol
      subst hrow
      obtain ⟨word, hword, hmatch, hk⟩ := readPosting_some hs hpre hkt
      simp only at hk
      subst hk
      obtain ⟨text, weight, hc, ht, hval⟩ :=
        ((h.rows _ _ fun j => postingKey_ne_statsKey).mp hv).postingKey hword
      exact ⟨key, text, weight, word, hc, ht, hmatch, by rw [hval]⟩
    · intro ⟨key, text, weight, word, hc, ht, hm, hrow⟩
      subst hrow
      have hcell := (h.rows (postingKey index word key) _ fun j => postingKey_ne_statsKey).mpr
          (Row.posting (μ := μ) (n := u32) hc ht)
      obtain ⟨more, hk, -⟩ : ∃ more, postingKey index word key = termScope index term ++ more ∧ _ :=
        termScope_posting hm
      refine ⟨List.mem_map.mpr ⟨((.text, postingKey index word key), _),
        ColMap.mem_under.mpr ⟨hcell, rfl, ⟨more, hk.symm⟩⟩, rfl⟩, ?_⟩
      have hread : readPosting (μ := μ) (termScope index term) term.isPrefix
          (postingKey index word key, .raw (Nat.toDigits 10 (u32 ((tokenize text).count word)))) =
            some (key, u32 ((tokenize text).count word)) :=
        readPosting_posting (slash_notMem_tokenize ht) hm (Nat.mod_lt _ (by decide))
      simp only [read, hread, Option.isSome_some]
  show (scanned.filterMap read).Perm _
  rw [hread, ← filterMap_filed]
  exact hperm.filterMap read

theorem mem_rows {D : Corpus} {x : Str × Nat} :
    x ∈ rows D term ↔ ∃ text weight, D[x.1]? = some (text, weight) ∧
    ∃ word ∈ matched term text, x.2 = u32 ((tokenize text).count word) := by
  obtain ⟨k, tf⟩ := x
  rw [rows, List.mem_flatMap]
  constructor
  · intro ⟨⟨key, text, weight⟩, he, hrow⟩
    obtain ⟨word, hword, hrow⟩ := List.mem_map.mp hrow
    cases hrow
    exact ⟨text, weight, Std.ExtTreeMap.mem_toList_iff_getElem?_eq_some.mp he, word, hword, rfl⟩
  · intro ⟨text, weight, hc, word, hword, htf⟩
    refine ⟨(k, text, weight), Std.ExtTreeMap.mem_toList_iff_getElem?_eq_some.mpr hc,
      List.mem_map.mpr ⟨word, hword, ?_⟩⟩
    simp only at htf
    rw [htf]

theorem rows_filter {D : Corpus} (hc : D[key]? = some (text, weight)) :
    ((rows D term).filter fun x => x.1 = key).Perm
    ((matched term text).map fun word => (key, u32 ((tokenize text).count word))) := by
  have hother : ((rows (D.erase key) term).filter fun x => x.1 = key) = [] := by
    rw [List.filter_eq_nil_iff]
    intro x hx he
    obtain ⟨t, w, hd, -⟩ := mem_rows.mp hx
    rw [find_erase, if_pos (of_decide_eq_true he).symm] at hd
    cases hd
  have hsplit : (rows D term).Perm
      (((matched term text).map fun word => (key, u32 ((tokenize text).count word))) ++
      rows (D.erase key) term) :=
    (toList_perm_erase hc).flatMap_right _
  have hown : (((matched term text).map fun word => (key, u32 ((tokenize text).count word))).filter
      fun x => x.1 = key) =
      (matched term text).map fun word => (key, u32 ((tokenize text).count word)) := by
    rw [List.filter_eq_self]
    intro x hx
    obtain ⟨word, -, rfl⟩ := List.mem_map.mp hx
    exact decide_eq_true rfl
  have hf := hsplit.filter fun x => x.1 = key
  rwa [List.filter_append, hother, List.append_nil, hown] at hf

/-! ## Scores -/

def docLens (D : Corpus) (key : Str) : Nat × ℚ :=
  match D[key]? with
  | some (text, weight) => if tokenize text = [] then (0, 0) else (u32 (tokenize text).length, weight)
  | none => (0, 0)

def Known (D : Corpus) (known : Lens) : Prop := ∀ (k : Str) (l : Nat × ℚ), known[k]? = some l →
    l = docLens D k

theorem wp_lens_exact (h : Exact C s) {known : Lens} (hknown : Known (C index) known) :
    Prog.wp False memory (lens index key known) (fun r s' => s' = s ∧ r.1 = docLens (C index) key ∧
      Known (C index) r.2)
      (fun _ _ => False) s := by
  unfold lens
  cases hk : known[key]? with
  | some l => exact ⟨rfl, hknown key l hk, hknown⟩
  | none =>
    have hnew : ∀ l, l = docLens (C index) key → Known (C index) (known.insert key l) := by
      intro l hl k l' hk'
      rw [find_insert] at hk'
      split at hk'
      · rename_i he
        cases hk'
        rw [← he, hl]
      · exact hknown k l' hk'
    have hdoc : ∀ v, s[((.text, docKey index key) : Cell)]? = some v ↔
        Row u32 C (docKey index key) v := fun v =>
      h.rows _ v fun j => docKey_ne_statsKey
    dsimp only
    rw [Prog.wp_bind, wp_getJson]
    refine ⟨?_, False.elim⟩
    cases hd : s[((.text, docKey index key) : Cell)]? with
    | none =>
      have hlens : ((0, 0) : Nat × ℚ) = docLens (C index) key := by
        unfold docLens
        split
        · rename_i text weight hc
          split
          · rfl
          · rename_i ht
            rw [(hdoc _).mpr (.doc hc ht)] at hd
            cases hd
        · rfl
      exact ⟨rfl, hlens, hnew _ hlens⟩
    | some v =>
      obtain ⟨text, weight, hc, ht, rfl⟩ := ((hdoc v).mp hd).docKey
      have hlens : (u32 (tokenize text).length, weight) = docLens (C index) key := by
        unfold docLens
        rw [hc]
        exact (if_neg ht).symm
      exact ⟨rfl, hlens, hnew _ hlens⟩

section
variable {R : Type} [Field R]

def add (D : Corpus) (idf : R) (x : Str × Nat) : Str × R :=
  (x.1, idf * Bm25.default.weigh x.2 (docLens D x.1).1 (avgdl D) * (docLens D x.1).2)

theorem wp_scoreDocs_exact (h : Exact C s) (idf : R) (found : List (Str × Nat))
    {acc : Scores R × Lens} (hknown : Known (C index) acc.2) :
    Prog.wp False memory (scoreDocs index idf (avgdl (C index)) found acc)
      (fun acc' s' => s' = s ∧ Known (C index) acc'.2 ∧
        acc'.1 = addAll acc.1 (found.map (add (C index) idf))) (fun _ _ => False) s := by
  induction found generalizing acc with
  | nil => exact ⟨rfl, hknown, rfl⟩
  | cons x found ih =>
    obtain ⟨key, tf⟩ := x
    obtain ⟨scores, known⟩ := acc
    unfold scoreDocs
    rw [Prog.wp_bind]
    refine (wp_lens_exact h hknown).mono ?_ fun _ _ he => he
    rintro ⟨l, known'⟩ s' ⟨hs, hl, hknown'⟩
    simp only at hl hknown'
    subst hs hl
    exact ih hknown'

theorem sum_add (ln : R → R) (hc : (C index)[key]? = some (text, weight)) {found : List (Str × Nat)}
    (hfound : found.Perm (rows (C index) term)) :
    (((found.map (add (C index) (idf ln found.length (corpusStats u32 (C index)).docs))).filter
      fun x => x.1 = key).map (·.2)).sum =
      termScore ln (C index) term text weight := by
  have hp : (((found.map (add (C index)
      (idf ln found.length (corpusStats u32 (C index)).docs))).filter fun x => x.1 = key).map (·.2)).Perm
      ((matched term text).map fun word =>
        (add (C index) (idf ln (rows (C index) term).length (corpusStats u32 (C index)).docs)
        (key, u32 ((tokenize text).count word))).2) := by
    rw [List.filter_map, hfound.length_eq, List.map_map]
    have hrows := (((hfound.filter fun x => x.1 = key).trans (rows_filter hc)).map
      (add (C index) (idf ln (rows (C index) term).length (corpusStats u32 (C index)).docs))).map (·.2)
    rwa [List.map_map, List.map_map, List.map_map] at hrows
  rw [hp.sum_eq, termScore]
  congr 1
  refine List.map_congr_left fun word hword => ?_
  have ht : tokenize text ≠ [] := List.ne_nil_of_mem (mem_matched.mp hword).1
  rw [add, docLens, hc]
  simp only [if_neg ht]

structure Scored (ln : R → R) (D : Corpus) (terms : List Term) (before after : Scores R) : Prop where
  inside : ∀ k : Str, after[k]?.isSome → before[k]?.isSome ∨ D[k]?.isSome
  worth : ∀ (k text : Str) (weight : ℚ), D[k]? = some (text, weight) →
    after[k]?.getD 0 = before[k]?.getD 0 + score ln D terms text weight

theorem wp_scoreTerms_exact (ln : R → R) (h : Exact C s) {terms : List Term}
    (hterms : ∀ t ∈ terms, '/' ∉ t.text)
    {acc : Scores R × Lens} (hknown : Known (C index) acc.2) :
    Prog.wp False memory (scoreTerms ln index (corpusStats u32 (C index)) terms acc)
      (fun acc' s' => s' = s ∧ Scored ln (C index) terms acc.1 acc'.1) (fun _ _ => False) s := by
  induction terms generalizing acc with
  | nil => exact ⟨rfl, fun k hk => .inl hk, fun k text weight hc => by simp [score]⟩
  | cons term terms ih =>
    unfold scoreTerms
    rw [Prog.wp_bind]
    refine (wp_postings_exact h (hterms term List.mem_cons_self)).mono ?_ fun _ _ he => he
    intro found s' ⟨hs, hfound⟩
    subst hs
    have hrest : ∀ t ∈ terms, '/' ∉ t.text := fun t ht => hterms t (List.mem_cons_of_mem _ ht)
    -- reading the rows of a term adds what the term is worth
    have hterm : ∀ acc₁ : Scores R,
        acc₁ = addAll acc.1 (found.map
          (add (C index) (idf ln found.length (corpusStats u32 (C index)).docs))) →
        ∀ acc₂ : Scores R,
          Scored ln (C index) terms acc₁ acc₂ → Scored ln (C index) (term :: terms) acc.1 acc₂ := by
      intro acc₁ h₁ acc₂ h₂
      subst h₁
      constructor
      · intro k hk
        rcases h₂.inside k hk with hk | hk
        · rcases (isSome_addAll _ _ k).mp hk with hk | hk
          · exact .inl hk
          · obtain ⟨x, hx, rfl⟩ := List.mem_map.mp hk
            obtain ⟨row, hrow, rfl⟩ := List.mem_map.mp hx
            obtain ⟨text, weight, hc, -⟩ := mem_rows.mp (hfound.mem_iff.mp hrow)
            exact .inr (by rw [add, hc]; rfl)
        · exact .inr hk
      · intro k text weight hc
        rw [h₂.worth k text weight hc, getD_addAll, sum_add ln hc hfound, score, score,
          List.map_cons, List.sum_cons, add_assoc]
    split
    · rename_i hempty
      rw [List.isEmpty_iff] at hempty
      subst hempty
      exact (ih hrest hknown).mono (fun acc' s' ⟨hs, h'⟩ => ⟨hs, hterm _ rfl _ h'⟩) fun _ _ he => he
    · rw [Prog.wp_bind]
      refine (wp_scoreDocs_exact h _ found hknown).mono ?_ fun _ _ he => he
      intro acc₁ s₁ ⟨hs, hknown₁, hacc₁⟩
      subst hs
      exact (ih hrest hknown₁).mono (fun acc' s' ⟨hs, h'⟩ => ⟨hs, hterm _ hacc₁ _ h'⟩)
        fun _ _ he => he

end

/-! ## The answer -/

section
variable {R : Type} [Field R] [LinearOrder R]

instance : Std.Total (Ranked (R := R)) := ⟨fun a b => by
  rcases lt_trichotomy a.2 b.2 with hlt | he | hgt
  · exact .inr (.inl hlt)
  · rcases (total_cmp a.1 b.1 : compare a.1 b.1 ≠ .gt ∨ _) with hk | hk
    · exact .inl (.inr ⟨he.symm, hk⟩)
    · exact .inr (.inr ⟨he, hk⟩)
  · exact .inl (.inl hgt)⟩

instance : IsTrans (Str × R) Ranked := ⟨fun a b c hab hbc => by
  rcases hab with hab | ⟨hab, hk⟩
  · rcases hbc with hbc | ⟨hbc, -⟩
    · exact .inl (hbc.trans hab)
    · exact .inl (hbc ▸ hab)
  · rcases hbc with hbc | ⟨hbc, hk'⟩
    · exact .inl (hab ▸ hbc)
    · exact .inr ⟨hbc.trans hab, trans_cmp hk hk'⟩⟩

instance : Std.Antisymm (Ranked (R := R)) := ⟨fun a b hab hba => by
  rcases hab with hab | ⟨he, hk⟩
  · rcases hba with hba | ⟨he, -⟩
    · exact absurd hab hba.asymm
    · exact absurd hab (by rw [he]; exact lt_irrefl _)
  · rcases hba with hba | ⟨-, hk'⟩
    · exact absurd hba (by rw [he]; exact lt_irrefl _)
    · exact Prod.ext (antisymm_cmp hk hk') he.symm⟩

omit [LinearOrder R] in
theorem nodup_scores (ln : R → R) (D : Corpus) (terms : List Term) :
    (D.toList.map fun e => (e.1, score ln D terms e.2.1 e.2.2)).Nodup :=
  List.pairwise_map.mpr ((nodup_keys D).imp fun hne he => hne (Prod.mk.inj he).1)

theorem Scored.ranking {ln : R → R} {D : Corpus} {terms : List Term} {after : Scores R}
    (h : Scored ln D terms ∅ after) (limit : Nat) :
    ((after.toList.filter fun hit => 0 < hit.2).insertionSort Ranked).take limit =
    ranking ln D terms limit := by
  have hperm : (after.toList.filter fun hit => decide (0 < hit.2)).Perm
      ((D.toList.map fun e => (e.1, score ln D terms e.2.1 e.2.2)).filter fun hit =>
        decide (0 < hit.2)) := by
    rw [List.perm_ext_iff_of_nodup ((nodup_toList after).filter _)
      ((nodup_scores ln D terms).filter _)]
    intro ⟨k, v⟩
    rw [List.mem_filter, List.mem_filter, decide_eq_true_eq]
    refine and_congr_left fun hpos => ?_
    rw [Std.ExtTreeMap.mem_toList_iff_getElem?_eq_some]
    constructor
    · intro hv
      rcases h.inside k (by rw [hv]; rfl) with hk | hk
      · simp at hk
      · obtain ⟨⟨text, weight⟩, hc⟩ := Option.isSome_iff_exists.mp hk
        have hworth := h.worth k text weight hc
        rw [hv] at hworth
        simp only [Std.ExtTreeMap.getElem?_empty, Option.getD_some, Option.getD_none, zero_add] at hworth
        exact List.mem_map.mpr ⟨(k, text, weight),
          Std.ExtTreeMap.mem_toList_iff_getElem?_eq_some.mpr hc, by rw [hworth]⟩
    · intro hv
      obtain ⟨⟨key, text, weight⟩, he, hkv⟩ := List.mem_map.mp hv
      cases hkv
      have hworth := h.worth key text weight (Std.ExtTreeMap.mem_toList_iff_getElem?_eq_some.mp he)
      simp only [Std.ExtTreeMap.getElem?_empty, Option.getD_none, zero_add] at hworth
      cases hv : after[key]? with
      | none =>
        rw [hv, Option.getD_none] at hworth
        rw [← hworth] at hpos
        exact absurd hpos (lt_irrefl _)
      | some v =>
        rw [hv, Option.getD_some] at hworth
        rw [hworth]
  rw [Ranking.ranking, insertionSort_congr hperm]

/-- Nothing is ranked where nothing is worth something. -/
theorem ranking_nil {ln : R → R} {D : Corpus} {terms : List Term} {limit : Nat}
    (h : ∀ (key text : Str) (weight : ℚ), D[key]? = some (text, weight) →
      ¬ 0 < score ln D terms text weight) :
    ranking ln D terms limit = [] := by
  have hnone : (D.toList.map fun e => (e.1, score ln D terms e.2.1 e.2.2)).filter
      (fun hit => decide (0 < hit.2)) = [] := by
    rw [List.filter_eq_nil_iff]
    intro hit hhit
    obtain ⟨⟨key, text, weight⟩, he, rfl⟩ := List.mem_map.mp hhit
    simpa using h key text weight (Std.ExtTreeMap.mem_toList_iff_getElem?_eq_some.mp he)
  rw [ranking, hnone, List.insertionSort_nil, List.take_nil]

omit [LinearOrder R] in
theorem score_of_docs {ln : R → R} {D : Corpus} {terms : List Term}
    (hdocs : (corpusStats u32 D).docs = 0) (hc : D[key]? = some (text, weight)) :
    score ln D terms text weight = 0 := by
  have ht : tokenize text = [] := by
    by_contra ht
    have hlive := mem_live.mpr ⟨hc, ht⟩
    rw [List.length_eq_zero_iff.mp hdocs] at hlive
    cases hlive
  have hmatched : ∀ term, matched term text = [] := fun term => by rw [matched, ht]; rfl
  have hterm : ∀ term, termScore ln D term text weight = 0 := fun term => by
    rw [termScore, hmatched]; rfl
  simp [score, hterm]

variable [SearchStd μ]

theorem wp_searchText_exact (ln : R → R) (h : Exact C s) (query : Str) (limit : Nat) :
    Prog.wp False memory (searchText ln index query limit) (fun hits s' => s' = s ∧
      hits = ranking ln (C index) (queryTerms μ query) limit)
      (fun _ _ => False) s := by
  have hzero : ∀ terms : List Term,
      (∀ (key text : Str) (weight : ℚ), (C index)[key]? = some (text, weight) →
        score ln (C index) terms text weight = 0) →
        ranking ln (C index) terms limit = [] := fun terms h0 =>
        ranking_nil fun key text weight hc => by
    rw [h0 key text weight hc]
    exact lt_irrefl _
  unfold searchText
  dsimp only
  split
  · rename_i hq
    refine ⟨rfl, ?_⟩
    rcases Bool.or_eq_true_iff.mp hq with hq | hq
    · rw [List.isEmpty_iff] at hq
      rw [hq]
      exact (hzero [] fun _ _ _ _ => rfl).symm
    · rw [of_decide_eq_true hq]
      exact (List.take_zero).symm
  · rw [Prog.wp_bind]
    apply wp_stats_of (h.totals index)
    split
    · rename_i hdocs
      exact ⟨rfl, (hzero _ fun key text weight hc => score_of_docs hdocs hc).symm⟩
    · rw [Prog.wp_bind]
      refine (wp_scoreTerms_exact ln h (fun t ht => slash_notMem_queryTerms ht)
        (by intro k l hk; simp at hk)).mono ?_ fun _ _ he => he
      intro acc s' ⟨hs, hscored⟩
      exact ⟨hs, hscored.ranking limit⟩

end

end

end Ranking

end Crabtalk.Store

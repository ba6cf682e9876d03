import Crabtalk.Store.Corpus
import Crabtalk.Store.Search

/-! # What a search hit rests on -/

open Basis

namespace Crabtalk.Store

variable {μ : Type} [TextStd] [SearchStd μ]

/-! ## The terms of a query -/

theorem slash_notMem_normalize (word : Str) : '/' ∉ normalize μ word := by
  intro h
  obtain ⟨c, hc, hs⟩ := List.mem_flatMap.mp h
  rw [SearchStd.slash_charLowercase c hs] at hc
  have hsep := (List.mem_filter.mp hc).2
  rw [TextStd.slash_not_alphanumeric] at hsep
  cases hsep

theorem slash_notMem_queryTerm (raw : Str) : '/' ∉ (queryTerm μ raw).text := by
  unfold queryTerm
  split
  · exact slash_notMem_normalize _
  · cases ht : tokenize (trimStars raw) with
    | nil => simp
    | cons w rest =>
      rw [List.headD_cons]
      exact slash_notMem_tokenize (by rw [ht]; exact List.mem_cons_self)

variable (μ) in
def words (query : Str) : List Str := (query.splitOnP (SearchStd.isWhitespace μ)).filter fun word =>
    !word.isEmpty

theorem tokenize_words (hspace : ∀ c, SearchStd.isWhitespace μ c = true →
    TextStd.isAlphanumeric c = false) (query : Str) :
    tokenize query = (query.splitOnP (SearchStd.isWhitespace μ)).flatMap tokenize := by
  -- by the length of the query, cut at any of its spaces
  induction hn : query.length using Nat.strong_induction_on generalizing query with
  | _ n ih =>
    by_cases h : ∃ c ∈ query, SearchStd.isWhitespace μ c = true
    · obtain ⟨c, hmem, hc⟩ := h
      obtain ⟨a, b, hab⟩ := List.append_of_mem hmem
      subst hab
      rw [List.length_append, List.length_cons] at hn
      rw [tokenize_append_cons a b (hspace c hc), List.splitOnP_append_cons a b hc,
        List.flatMap_append, ih _ (by omega) a rfl,
        ih _ (by omega) b rfl]
    · rw [List.splitOnP_eq_singleton fun c hc => by simpa using fun hs => h ⟨c, hc, hs⟩,
        List.flatMap_singleton]

theorem mem_tokenize_of_word (hspace : ∀ c, SearchStd.isWhitespace μ c = true →
    TextStd.isAlphanumeric c = false) {query raw t : Str}
    (hraw : raw ∈ words μ query) (ht : t ∈ tokenize raw) : t ∈ tokenize query := by
  rw [tokenize_words hspace]
  exact List.mem_flatMap.mpr ⟨raw, List.mem_of_mem_filter hraw, ht⟩

/-- The terms of the words are kept once each, the empty ones left out. -/
theorem foldl_queryTerm (raws : List Str) {out : List Term} (hout : out.Nodup) :
    let terms := raws.foldl (fun out raw =>
      let term := queryTerm μ raw
      if term.text.isEmpty || out.contains term then out else out ++ [term]) out
    terms.Nodup ∧ ∀ term, term ∈ terms ↔ term ∈ out ∨ term.text ≠ [] ∧
      ∃ raw ∈ raws, queryTerm μ raw = term := by
  induction raws generalizing out with
  | nil => exact ⟨hout, by simp⟩
  | cons raw raws ih =>
    dsimp only [List.foldl_cons]
    split
    · rename_i hskip
      obtain ⟨hnodup, hmem⟩ := ih hout
      refine ⟨hnodup, fun term => ?_⟩
      rw [hmem]
      constructor
      · intro h
        exact h.imp_right fun ⟨hne, r, hr, he⟩ => ⟨hne, r, List.mem_cons_of_mem _ hr, he⟩
      · intro h
        rcases h with h | ⟨hne, r, hr, he⟩
        · exact .inl h
        · rcases List.mem_cons.mp hr with rfl | hr
          · rw [he, Bool.or_eq_true, List.isEmpty_iff, List.contains_iff_mem] at hskip
            exact .inl (hskip.resolve_left hne)
          · exact .inr ⟨hne, r, hr, he⟩
    · rename_i hkeep
      rw [Bool.or_eq_true, List.isEmpty_iff, List.contains_iff_mem, not_or] at hkeep
      obtain ⟨hnodup, hmem⟩ := ih (by simpa using List.Nodup.concat hkeep.2 hout)
      refine ⟨hnodup, fun term => ?_⟩
      rw [hmem, List.mem_append, List.mem_singleton]
      constructor
      · intro h
        rcases h with (h | rfl) | ⟨hne, r, hr, he⟩
        · exact .inl h
        · exact .inr ⟨hkeep.1, raw, List.mem_cons_self, rfl⟩
        · exact .inr ⟨hne, r, List.mem_cons_of_mem _ hr, he⟩
      · intro h
        rcases h with h | ⟨hne, r, hr, he⟩
        · exact .inl (.inl h)
        · rcases List.mem_cons.mp hr with rfl | hr
          · exact .inl (.inr he.symm)
          · exact .inr ⟨hne, r, hr, he⟩

theorem nodup_queryTerms (query : Str) : (queryTerms μ query).Nodup :=
  (foldl_queryTerm (words μ query) List.nodup_nil).1

theorem mem_queryTerms {query : Str} {term : Term} :
    term ∈ queryTerms μ query ↔ term.text ≠ [] ∧ ∃ raw ∈ words μ query, queryTerm μ raw = term := by
  refine ((foldl_queryTerm (words μ query) List.nodup_nil).2 term).trans ?_
  simp

theorem slash_notMem_queryTerms {query : Str} {term : Term} (h : term ∈ queryTerms μ query) :
    '/' ∉ term.text := by
  obtain ⟨-, raw, -, rfl⟩ := mem_queryTerms.mp h
  exact slash_notMem_queryTerm raw

/-! ## Postings -/

omit [TextStd] in
theorem idxOf?_split {c : Char} {l : Str} {pos : Nat} (h : l.idxOf? c = some pos) :
    ∃ a b, l = a ++ c :: b ∧ c ∉ a ∧ a.length = pos := by
  induction l generalizing pos with
  | nil => cases h
  | cons x l ih =>
    rw [List.idxOf?_cons] at h
    by_cases hx : x = c
    · rw [if_pos (by simpa using hx)] at h
      cases h
      exact ⟨[], l, by rw [hx]; rfl, by simp, rfl⟩
    · rw [if_neg (by simpa using hx)] at h
      obtain ⟨n, hn, rfl⟩ := Option.map_eq_some_iff.mp h
      obtain ⟨a, b, rfl, ha, rfl⟩ := ih hn
      exact ⟨x :: a, b, rfl, by simp [Ne.symm hx, ha], rfl⟩

omit [TextStd] [SearchStd μ] in
/-- The document a posting row names, and the word it is filed under. -/
theorem readPosting_some {index : TextIndex} {term : Term} {row : Str × Value μ} {key : Str}
    {tf : Nat} (hs : '/' ∉ term.text)
    (hrow : termScope index term <+: row.1)
    (h : readPosting (termScope index term) term.isPrefix row = some (key, tf)) :
    ∃ word, '/' ∉ word ∧ term.Matches word ∧ row.1 = postingKey index word key := by
  obtain ⟨rest, hrest⟩ := hrow
  unfold readPosting at h
  cases hcut : findTermBoundary row.1 (termScope index term) term.isPrefix with
  | none =>
    rw [hcut] at h
    cases h
  | some cut =>
    rw [hcut] at h
    cases htf : row.2.asRaw.bind parseU32 with
    | none =>
      rw [htf] at h
      cases h
    | some n =>
      rw [htf] at h
      cases h
      unfold findTermBoundary at hcut
      cases hp : term.isPrefix with
      | false =>
        rw [hp] at hcut
        cases hcut
        refine ⟨term.text, hs, ?_, ?_⟩
        · simp [Term.Matches, hp]
        · rw [← hrest, List.drop_left]
          simp [termScope, hp, postingKey]
      | true =>
        rw [hp, if_pos rfl, ← hrest, List.drop_left] at hcut
        obtain ⟨pos, hpos, rfl⟩ := Option.map_eq_some_iff.mp hcut
        -- the word goes on up to the next separator
        obtain ⟨more, doc, rfl, hmore, rfl⟩ := idxOf?_split hpos
        refine ⟨term.text ++ more, by simp [hs, hmore], ?_, ?_⟩
        · simp [Term.Matches, hp]
        · rw [← hrest, Nat.add_assoc, List.drop_append]
          simp [termScope, hp, postingKey, keysUnder, Store.key]

variable {C : TextIndex → Corpus} {s : Kv μ}

/-- A key that is indexed under a text with a word the query matches. -/
def Matched (C : TextIndex → Corpus) (index : TextIndex) (terms : List Term) (key : Str) : Prop :=
  ∃ text weight, (C index)[key]? = some (text, weight) ∧
    ∃ term ∈ terms, ∃ word ∈ tokenize text, term.Matches word

omit [SearchStd μ] in
theorem wp_postings (h : Exact C s) {index : TextIndex} {terms : List Term} {term : Term}
    (hmem : term ∈ terms) (hs : '/' ∉ term.text) :
    Prog.wp False memory (postings index term) (fun found s' => s' = s ∧
      ∀ x ∈ found, Matched C index terms x.1) (fun _ _ => False) s := by
  unfold postings
  rw [Prog.wp_bind, wp_scan]
  refine ⟨⟨rfl, ?_⟩, False.elim⟩
  rintro ⟨key, tf⟩ hx
  obtain ⟨row, hrow, hread⟩ := List.mem_filterMap.mp hx
  obtain ⟨⟨⟨col, k⟩, v⟩, he, rfl⟩ := List.mem_map.mp hrow
  obtain ⟨hv, hcol, hpre⟩ := ColMap.mem_under.mp he
  simp only at hcol hpre
  subst hcol
  obtain ⟨word, hword, hmatch, hk⟩ := readPosting_some hs hpre hread
  simp only at hk
  subst hk
  obtain ⟨text, weight, hc, ht, -⟩ :=
    ((h.rows _ _ fun j => postingKey_ne_statsKey).mp hv).postingKey hword
  exact ⟨text, weight, hc, term, hmem, word, ht, hmatch⟩

omit [SearchStd μ] in
theorem wp_lens (h : Exact C s) (index : TextIndex) (key : Str) (known : Lens) :
    Prog.wp False memory (lens index key known) (fun _ s' => s' = s) (fun _ _ => False) s := by
  unfold lens
  split
  · rfl
  · rw [Prog.wp_bind, wp_getJson]
    refine ⟨?_, False.elim⟩
    cases hd : s[((.text, docKey index key) : Cell)]? with
    | none => rfl
    | some v =>
      obtain ⟨text, weight, -, -, rfl⟩ := ((h.rows _ v fun j => docKey_ne_statsKey).mp hd).docKey
      rfl

theorem wp_scoreDocs (h : Exact C s) (index : TextIndex) (stats : Stats) (df : Nat) {P : Str → Prop}
    {found : List (Str × Nat)}
    (hfound : ∀ x ∈ found, P x.1) {acc : Scores × Lens} (hacc : ∀ k : Str, acc.1[k]?.isSome → P k) :
    Prog.wp False memory (scoreDocs index stats df found acc) (fun acc' s' => s' = s ∧
      ∀ k : Str, acc'.1[k]?.isSome → P k)
      (fun _ _ => False) s := by
  induction found generalizing acc with
  | nil => exact ⟨rfl, hacc⟩
  | cons x found ih =>
    obtain ⟨key, tf⟩ := x
    obtain ⟨scores, known⟩ := acc
    unfold scoreDocs
    rw [Prog.wp_bind]
    refine (wp_lens h index key known).mono ?_ fun _ _ he => he
    rintro ⟨l, known'⟩ s' rfl
    apply ih fun y hy => hfound y (List.mem_cons_of_mem _ hy)
    intro k hk
    rw [find_insert] at hk
    split at hk
    · rename_i hkey
      rw [← hkey]
      exact hfound _ List.mem_cons_self
    · exact hacc k hk

theorem wp_scoreTerms (h : Exact C s) (index : TextIndex) (stats : Stats) (all : List Term)
    {terms : List Term} (hall : ∀ t ∈ terms, t ∈ all ∧ '/' ∉ t.text)
    {acc : Scores × Lens} (hacc : ∀ k : Str, acc.1[k]?.isSome → Matched C index all k) :
    Prog.wp False memory (scoreTerms index stats terms acc)
      (fun acc' s' => s' = s ∧ ∀ k : Str, acc'.1[k]?.isSome → Matched C index all k)
      (fun _ _ => False) s := by
  induction terms generalizing acc with
  | nil => exact ⟨rfl, hacc⟩
  | cons term terms ih =>
    have hrest : ∀ t ∈ terms, t ∈ all ∧ '/' ∉ t.text := fun t ht =>
        hall t (List.mem_cons_of_mem _ ht)
    obtain ⟨hmem, hs⟩ := hall term List.mem_cons_self
    unfold scoreTerms
    rw [Prog.wp_bind]
    refine (wp_postings h hmem hs).mono ?_ fun _ _ he => he
    rintro found s' ⟨rfl, hfound⟩
    split
    · exact ih hrest hacc
    · rw [Prog.wp_bind]
      refine (wp_scoreDocs h index stats _ hfound hacc).mono ?_ fun _ _ he => he
      rintro acc' s'' ⟨rfl, hacc'⟩
      exact ih hrest hacc'

/-- Every ranked match is a key indexed under a word of the query. -/
theorem wp_searchText (h : Exact C s) (index : TextIndex) (query : Str) (limit : Nat) :
    Prog.wp False memory (searchText index query limit)
      (fun found s' => s' = s ∧ ∀ hit ∈ found, Matched C index (queryTerms μ query) hit.1)
      (fun _ _ => False) s := by
  unfold searchText
  dsimp only
  split
  · exact ⟨rfl, by simp⟩
  · rw [Prog.wp_bind]
    apply wp_stats_of (h.totals index)
    split
    · exact ⟨rfl, by simp⟩
    · rw [Prog.wp_bind]
      refine (wp_scoreTerms h index _ (queryTerms μ query)
        (fun t ht => ⟨ht, slash_notMem_queryTerms ht⟩) (by simp)).mono ?_ fun _ _ he => he
      rintro acc s' ⟨rfl, hacc⟩
      refine ⟨rfl, ?_⟩
      rintro ⟨k, score⟩ hit
      have hit := (List.mem_filter.mp
          ((List.perm_insertionSort _ _).mem_iff.mp (List.mem_of_mem_take hit))).1
      rw [Std.ExtTreeMap.mem_toList_iff_getElem?_eq_some] at hit
      exact hacc k (by rw [hit]; rfl)

/-! ## Sessions -/

theorem wp_metaBoosts (h : Exact C s) (query : Str) (limit : Nat) :
    Prog.wp False memory (metaBoosts query limit) (fun _ s' => s' = s) (fun _ _ => False) s := by
  unfold metaBoosts
  rw [Prog.wp_bind]
  exact (wp_searchText h .sessionMeta query limit).mono (fun _ _ hf => hf.1) fun _ _ he => he

/-- What stands under the message keys of a handle are messages. -/
def Legible (h : Str) (s : Kv μ) : Prop := ∀ i v, s[((.session, messageKey h i) : Cell)]? = some v →
    ∃ e, v = .entry e

variable [Wire μ]

omit [TextStd] in
theorem wp_windowItems {handle : Str} (hl : Legible handle s) (idxs : List Nat)
    (out : List WindowItem) :
    Prog.wp False memory (windowItems handle idxs out) (fun _ s' => s' = s) (fun _ _ => False) s := by
  induction idxs generalizing out with
  | nil => rfl
  | cons i rest ih =>
    unfold windowItems
    split
    · rfl
    · rw [Prog.wp_bind, wp_getJson]
      refine ⟨?_, False.elim⟩
      cases hv : s[((.session, messageKey handle i) : Cell)]? with
      | none => exact ih out
      | some v =>
        obtain ⟨e, rfl⟩ := hl i v hv
        exact ih _

structure Admitted (opts : SearchOptions) (s : Kv μ) (hit : SessionHit) : Prop where
  stored : ∃ m, s[((.session, metaKey hit.sessionHandle) : Cell)]? = some (.sessionMeta m) ∧
    hit.agent = m.agent ∧ hit.sender = m.createdBy
  agent : ∀ id, opts.agentFilter = some id → hit.agent = id
  sender : ∀ name, opts.senderFilter = some name → hit.sender = name

omit [TextStd] in
theorem wp_sessionHits (hm : MetasTyped s) (opts : SearchOptions) (boosts : Scores)
    {best : List (Str × Nat × ℚ)}
    (hl : ∀ x ∈ best, Legible x.1 s) :
    Prog.wp False memory (sessionHits opts boosts best)
      (fun hits s' => s' = s ∧ (hits.map (·.sessionHandle)).Sublist (best.map (·.1)) ∧
        ∀ hit ∈ hits, Admitted opts s hit ∧ ∃ x ∈ best, hit.sessionHandle = x.1 ∧
        hit.msgIdx = msgIdx x.2.1)
      (fun _ _ => False) s := by
  induction best with
  | nil => exact ⟨rfl, List.Sublist.refl _, by simp⟩
  | cons x rest ih =>
    obtain ⟨handle, idx, score⟩ := x
    have ih := ih fun y hy => hl y (List.mem_cons_of_mem _ hy)
    -- a session that is passed over leaves the hits of the others
    have hskip : Prog.wp False memory (sessionHits opts boosts rest)
        (fun hits s' => s' = s ∧ (hits.map (·.sessionHandle)).Sublist
          (((handle, idx, score) :: rest).map (·.1)) ∧
          ∀ hit ∈ hits, Admitted opts s hit ∧ ∃ x ∈ (handle, idx, score) :: rest,
          hit.sessionHandle = x.1 ∧ hit.msgIdx = msgIdx x.2.1)
        (fun _ _ => False) s := by
      refine ih.mono ?_ fun _ _ he => he
      rintro hits s' ⟨rfl, hsub, hall⟩
      refine ⟨rfl, hsub.cons _, fun hit hh => ?_⟩
      obtain ⟨ha, x, hx, he⟩ := hall hit hh
      exact ⟨ha, x, List.mem_cons_of_mem _ hx, he⟩
    unfold sessionHits sessionMeta
    rw [Prog.wp_bind, wp_getJson]
    refine ⟨?_, False.elim⟩
    cases hv : s[((.session, metaKey handle) : Cell)]? with
    | none => exact hskip
    | some v =>
      obtain ⟨m, rfl⟩ := hm.metas handle v hv
      simp only [Value.asMeta]
      split
      · exact hskip
      · rename_i hagent
        split
        · exact hskip
        · rename_i hsender
          have hgo : ∀ name : Str, Prog.wp False memory (do
              let items ← window handle idx opts
              let hit : SessionHit :=
                ⟨handle, msgIdx idx, SearchStd.plus μ score (boosts[handle]?.getD 0), m.title,
                  m.agent, name, m.createdBy, m.createdAt,
                  m.updatedAt, items⟩
              return hit :: (← sessionHits opts boosts rest))
              (fun hits s' => s' = s ∧ (hits.map (·.sessionHandle)).Sublist
                (((handle, idx, score) :: rest).map (·.1)) ∧
                ∀ hit ∈ hits, Admitted opts s hit ∧
                  ∃ x ∈ (handle, idx, score) :: rest, hit.sessionHandle = x.1 ∧
                  hit.msgIdx = msgIdx x.2.1)
              (fun _ _ => False) s := by
            intro name
            rw [Prog.wp_bind]
            refine (wp_windowItems (hl _ List.mem_cons_self) _ _).mono ?_ fun _ _ he => he
            rintro items s' rfl
            rw [Prog.wp_bind]
            refine ih.mono ?_ fun _ _ he => he
            rintro hits s'' ⟨rfl, hsub, hall⟩
            refine ⟨rfl, hsub.cons_cons _, ?_⟩
            intro hit hh
            rcases List.mem_cons.mp hh with rfl | hh
            · refine ⟨⟨⟨m, hv, rfl, rfl⟩, ?_, ?_⟩, _, List.mem_cons_self, rfl, rfl⟩
              · intro id hid
                simpa [hid] using hagent
              · intro sender hname
                simpa [hname] using hsender
            · obtain ⟨ha, x, hx, he⟩ := hall hit hh
              exact ⟨ha, x, List.mem_cons_of_mem _ hx, he⟩
          rw [Prog.wp_bind, Prog.wp_attempt, wp_getJson]
          refine ⟨?_, False.elim⟩
          split
          · exact hgo _
          · split
            · exact hgo _
            · exact hgo _

/-- The message a hit points at is stored, and its indexable text has a word the query matches. -/
def Backed (query : Str) (s : Kv μ) (hit : SessionHit) : Prop :=
  ∃ e text role, s[((.session, messageKey hit.sessionHandle hit.msgIdx) : Cell)]? =
    some (.entry e) ∧ e.indexable = some (text, role) ∧
    ∃ term ∈ queryTerms μ query, ∃ word ∈ tokenize text, term.Matches word

/-- The message index speaks of stored messages only. -/
def Mirrors (C : TextIndex → Corpus) (s : Kv μ) : Prop :=
  ∀ (k text : Str) (weight : ℚ), (C .messages)[k]? = some (text, weight) → ∃ h i e role, '/' ∉ h ∧
    i < 2 ^ 32 ∧ k = messageKey h i ∧
    s[((.session, messageKey h i) : Cell)]? = some (.entry e) ∧ e.indexable = some (text, role)

structure Answers (query : Str) (opts : SearchOptions) (s : Kv μ) (hits : List SessionHit) : Prop where
  admitted : ∀ hit ∈ hits, Admitted opts s hit
  backed : ∀ hit ∈ hits, Backed query s hit
  once : (hits.map (·.sessionHandle)).Nodup
  capped : hits.length ≤ hitLimit opts
  ordered : hits.Pairwise fun a b => b.score ≤ a.score

theorem wp_searchSessions (h : Exact C s) (hm : MetasTyped s) (hc : Mirrors C s)
    (hl : ∀ g, '/' ∉ g → Legible g s)
    (query : Str) (opts : SearchOptions) :
    Prog.wp False memory (searchSessions query opts) (fun hits s' => s' = s ∧
      Answers query opts s hits) (fun _ _ => False) s := by
  unfold searchSessions
  dsimp only
  rw [Prog.wp_bind]
  refine (wp_searchText h .messages query _).mono ?_ fun _ _ he => he
  rintro found s₁ ⟨hs₁, hfound⟩
  rw [hs₁]
  -- what a best match names is a stored message
  have hbest : ∀ g idx score, (g, idx, score) ∈ (bestMatches found).toList → '/' ∉ g ∧ idx < 2 ^ 32 ∧
      ∃ e text role, s[((.session, messageKey g idx) : Cell)]? = some (.entry e) ∧
      e.indexable = some (text, role) ∧
        ∃ term ∈ queryTerms μ query, ∃ word ∈ tokenize text, term.Matches word := by
    intro g idx score hb
    rw [Std.ExtTreeMap.mem_toList_iff_getElem?_eq_some] at hb
    obtain ⟨hit, hhit, hparse, -⟩ := bestMatches_mem hb
    obtain ⟨text, weight, hcorpus, hmatch⟩ := hfound hit hhit
    obtain ⟨a, i, e, role, ha, hi, hk, hcell, hindex⟩ := hc _ _ _ hcorpus
    rw [hk, parseMessageKey_messageKey, if_pos (by omega), lastPart_eq.mpr ha] at hparse
    cases hparse
    exact ⟨ha, hi, e, text, role, hcell, hindex, hmatch⟩
  split
  · exact ⟨rfl, by simp, by simp, List.nodup_nil, Nat.zero_le _, .nil⟩
  · rw [Prog.wp_bind]
    refine (wp_metaBoosts h query _).mono ?_ fun _ _ he => he
    intro boosts s₂ hs₂
    rw [hs₂, Prog.wp_bind]
    refine (wp_sessionHits hm opts boosts fun x hx => hl _ (hbest x.1 x.2.1 x.2.2 hx).1).mono ?_
      fun _ _ he => he
    rintro hits s₃ ⟨hs₃, hsub, hall⟩
    have hmem : ∀ hit ∈ (hits.insertionSort fun a b => b.score ≤ a.score).take (hitLimit opts),
        hit ∈ hits := fun hit hh =>
      (List.perm_insertionSort _ _).mem_iff.mp (List.mem_of_mem_take hh)
    refine ⟨hs₃, fun hit hh => (hall hit (hmem hit hh)).1, fun hit hh => ?_, ?_, ?_, ?_⟩
    · obtain ⟨-, ⟨g, idx, score⟩, hx, hg, hidx⟩ := hall hit (hmem hit hh)
      obtain ⟨-, hlt, hback⟩ := hbest g idx score hx
      unfold Backed
      rw [hg, hidx, msgIdx, Nat.mod_eq_of_lt hlt]
      exact hback
    · have hkeys : (bestMatches found).toList.Pairwise fun a b => compare a.1 b.1 = .lt :=
        Std.ExtTreeMap.ordered_keys_toList
      have hbestNodup : ((bestMatches found).toList.map (·.1)).Nodup := by
        refine List.pairwise_map.mpr (hkeys.imp ?_)
        intro a b hab he
        rw [he] at hab
        exact lt_irrefl_cmp _ hab
      have hnodup : (hits.map (·.sessionHandle)).Nodup := hbestNodup.sublist hsub
      exact ((((List.perm_insertionSort _ _).map _).nodup_iff).mpr hnodup).sublist
        ((List.take_sublist _ _).map _)
    · rw [List.length_take]
      exact Nat.min_le_left _ _
    · have htotal : Std.Total fun a b : SessionHit => b.score ≤ a.score := ⟨fun a b => Rat.le_total⟩
      have htrans : IsTrans SessionHit fun a b => b.score ≤ a.score :=
        ⟨fun a b c hab hbc => Rat.le_trans hbc hab⟩
      exact (List.pairwise_insertionSort _ _).sublist (List.take_sublist _ _)

end Crabtalk.Store

import Crabtalk.Store.Keys

/-! # What the text index touches -/

open Basis

namespace Crabtalk.Store

variable {μ : Type}

abbrev Cell := Column × Str

def Changes (P : Cell → Prop) (s s' : Kv μ) : Prop := ∀ k, ¬ P k → s'[k]? = s[k]?

namespace Changes

variable {P R : Cell → Prop} {s s' s'' : Kv μ}

theorem refl : Changes P s s := fun _ _ => rfl

theorem trans (h : Changes P s s') (h' : Changes P s' s'') : Changes P s s'' :=
  fun k hk => (h' k hk).trans (h k hk)

theorem mono (h : Changes P s s') (hPR : ∀ k, P k → R k) : Changes R s s' :=
  fun k hk => h k fun hp => hk (hPR k hp)

theorem insert {k : Cell} (hk : P k) (v : Value μ) : Changes P s (s.insert k v) := fun a ha => by
  rw [find_insert, if_neg]
  rintro rfl
  exact ha hk

theorem erase {k : Cell} (hk : P k) : Changes P s (s.erase k) := fun a ha => by
  rw [find_erase, if_neg]
  rintro rfl
  exact ha hk

end Changes

/-! ## The cells of a document -/

/-- Where indexing `key` writes: its record, its postings, and the totals. -/
def docCells (index : TextIndex) (key : Str) (k : Cell) : Prop :=
  k.1 = .text ∧ (k.2 = docKey index key ∨ (∃ term, '/' ∉ term ∧ k.2 = postingKey index term key) ∨
    k.2 = statsKey index)

theorem asStr_inj {i j : TextIndex} (h : i.asStr = j.asStr) : i = j := by
  cases i <;> cases j <;> first | rfl | exact absurd h (by decide)

theorem slash_notMem_asStr (i : TextIndex) : '/' ∉ i.asStr := by
  cases i <;> decide

theorem index_inj {i j : TextIndex} {a b : Str}
    (h : "local/idx/text/".toList ++ (i.asStr ++ '/' :: a) = "local/idx/text/".toList ++
      (j.asStr ++ '/' :: b)) : i = j ∧ a = b := by
  obtain ⟨hi, hab⟩ := slash_inj (slash_notMem_asStr i) (slash_notMem_asStr j)
      (List.append_cancel_left h)
  exact ⟨asStr_inj hi, hab⟩

theorem docKey_eq (index : TextIndex) (key : Str) :
    docKey index key = "local/idx/text/".toList ++ (index.asStr ++ '/' :: ("doc/".toList ++ key)) := by
  simp [docKey, docPrefix, keysUnder, Store.key, realm]

theorem postingKey_eq (index : TextIndex) (term key : Str) :
    postingKey index term key = "local/idx/text/".toList ++
    (index.asStr ++ '/' :: ("term/".toList ++ (term ++ '/' :: key))) := by
  simp [postingKey, keysUnder, Store.key, realm]

theorem statsKey_eq (index : TextIndex) :
    statsKey index = "local/idx/text/".toList ++ (index.asStr ++ '/' :: "stats".toList) := by
  simp [statsKey, Store.key, realm]

theorem docKey_inj {i j : TextIndex} {a b : Str} (h : docKey i a = docKey j b) : i = j ∧ a = b := by
  rw [docKey_eq, docKey_eq] at h
  obtain ⟨hij, hab⟩ := index_inj h
  exact ⟨hij, List.append_cancel_left hab⟩

theorem docKey_ne_postingKey {i j : TextIndex} {a t b : Str} : docKey i a ≠ postingKey j t b := by
  intro h
  rw [docKey_eq, postingKey_eq] at h
  cases (index_inj h).2

theorem docKey_ne_statsKey {i j : TextIndex} {a : Str} : docKey i a ≠ statsKey j := by
  intro h
  rw [docKey_eq, statsKey_eq] at h
  cases (index_inj h).2

theorem postingKey_ne_statsKey {i j : TextIndex} {t a : Str} : postingKey i t a ≠ statsKey j := by
  intro h
  rw [postingKey_eq, statsKey_eq] at h
  cases (index_inj h).2

theorem postingKey_inj {i j : TextIndex} {t u a b : Str} (ht : '/' ∉ t) (hu : '/' ∉ u)
    (h : postingKey i t a = postingKey j u b) : i = j ∧ t = u ∧ a = b := by
  rw [postingKey_eq, postingKey_eq] at h
  obtain ⟨hij, hab⟩ := index_inj h
  exact ⟨hij, slash_inj ht hu (List.append_cancel_left hab)⟩

/-! ## A well-typed index -/

structure TextTyped (s : Kv μ) : Prop where
  docs : ∀ index key v, s[((.text, docKey index key) : Cell)]? = some v → ∃ d, v = .doc d ∧
    ∀ t ∈ d.terms, '/' ∉ t
  totals : ∀ index v, s[((.text, statsKey index) : Cell)]? = some v → ∃ st, v = .stats st

namespace TextTyped

variable {s s' : Kv μ}

theorem empty : TextTyped (∅ : Kv μ) :=
  ⟨fun _ _ _ h => by simp at h, fun _ _ h => by simp at h⟩

theorem of_eq (h : TextTyped s) (he : ∀ k : Cell, k.1 = .text → s'[k]? = s[k]?) : TextTyped s' :=
  ⟨fun i a v hv => h.docs i a v (by rw [← he _ rfl]; exact hv),
    fun i v hv => h.totals i v (by rw [← he _ rfl]; exact hv)⟩

theorem changes (h : TextTyped s) {P : Cell → Prop} (hc : Changes P s s')
    (hP : ∀ k : Cell, P k → k.1 ≠ .text) : TextTyped s' :=
  h.of_eq fun k hk => hc k fun hp => hP k hp hk

theorem erase (h : TextTyped s) (k : Cell) : TextTyped (s.erase k) := by
  refine ⟨fun i a v hv => ?_, fun i v hv => ?_⟩
  · rw [find_erase] at hv
    split at hv
    · cases hv
    · exact h.docs i a v hv
  · rw [find_erase] at hv
    split at hv
    · cases hv
    · exact h.totals i v hv

theorem put_posting (h : TextTyped s) (index : TextIndex) (term key : Str) (v : Value μ) :
    TextTyped (s.insert (.text, postingKey index term key) v) := by
  refine ⟨fun i a w hw => ?_, fun i w hw => ?_⟩
  · rw [find_insert, if_neg (by simp [docKey_ne_postingKey.symm])] at hw
    exact h.docs i a w hw
  · rw [find_insert, if_neg (by simp [postingKey_ne_statsKey])] at hw
    exact h.totals i w hw

theorem put_doc (h : TextTyped s) (index : TextIndex) (key : Str) {d : Doc}
    (hd : ∀ t ∈ d.terms, '/' ∉ t) :
    TextTyped (s.insert (.text, docKey index key) (.doc d)) := by
  refine ⟨fun i a w hw => ?_, fun i w hw => ?_⟩
  · rw [find_insert] at hw
    split at hw
    · cases hw
      exact ⟨d, rfl, hd⟩
    · exact h.docs i a w hw
  · rw [find_insert, if_neg (by simp [docKey_ne_statsKey])] at hw
    exact h.totals i w hw

theorem put_stats (h : TextTyped s) (index : TextIndex) (st : Stats) :
    TextTyped (s.insert (.text, statsKey index) (.stats st)) := by
  refine ⟨fun i a w hw => ?_, fun i w hw => ?_⟩
  · rw [find_insert, if_neg (by simp [docKey_ne_statsKey.symm])] at hw
    exact h.docs i a w hw
  · rw [find_insert] at hw
    split at hw
    · cases hw
      exact ⟨st, rfl⟩
    · exact h.totals i w hw

end TextTyped

/-! ## The operations -/

/-- Index work inside the cells `P`: what it leaves, also when it is cut short. -/
def Indexed (P : Cell → Prop) (s s' : Kv μ) : Prop := TextTyped s' ∧ Changes P s s'

section
variable {F : Prop} {s s' s'' : Kv μ} {P : Cell → Prop}

theorem Indexed.refl (h : TextTyped s) : Indexed P s s := ⟨h, .refl⟩

theorem Indexed.trans (h : Indexed P s s') (h' : Indexed P s' s'') : Indexed P s s'' :=
  ⟨h'.1, h.2.trans h'.2⟩

theorem Indexed.mono {R : Cell → Prop} (h : Indexed P s s') (hPR : ∀ k, P k → R k) :
    Indexed R s s' :=
  ⟨h.1, h.2.mono hPR⟩

theorem wp_stats {index : TextIndex} {Q : Stats → Kv μ → Prop} {E : Error → Kv μ → Prop}
    (h : TextTyped s)
    (hQ : ∀ st, Q st s) (hE : F → ∀ e, E e s) : Prog.wp F memory (stats index) Q E s := by
  rw [stats, Prog.wp_bind, wp_getJson]
  refine ⟨?_, hE⟩
  cases hs : s[((.text, statsKey index) : Cell)]? with
  | none => exact hQ _
  | some v =>
    obtain ⟨st, rfl⟩ := h.totals index v hs
    exact hQ _

theorem wp_dropText {index : TextIndex} {key : Str} (h : TextTyped s) :
    Prog.wp F memory (dropText index key) (fun _ => Indexed (docCells index key) s)
      (fun _ s' => F ∧ Indexed (docCells index key) s s') s := by
  rw [dropText, Prog.wp_bind, wp_getJson]
  refine ⟨?_, fun hF _ => ⟨hF, .refl h⟩⟩
  cases hd : s[((.text, docKey index key) : Cell)]? with
  | none => exact .refl h
  | some v =>
    obtain ⟨d, rfl, ht⟩ := h.docs index key v hd
    simp only [Value.asDoc]
    rw [Prog.wp_bind]
    refine Prog.wp.mono ?_ (fun _ _ he => he)
      (Prog.wp_forM (I := Indexed (docCells index key) s) (.refl h) ?_)
    · intro _ s₂ h₂
      have herase : Indexed (docCells index key) s (s₂.erase (.text, docKey index key)) :=
        h₂.trans ⟨h₂.1.erase _, .erase ⟨rfl, .inl rfl⟩⟩
      rw [Prog.wp_bind, wp_delete, Prog.wp_bind]
      refine ⟨wp_stats herase.1 (fun st => ?_) fun hF _ => ⟨hF, herase⟩, fun hF _ => ⟨hF, h₂⟩⟩
      rw [wp_put]
      exact ⟨herase.trans ⟨herase.1.put_stats index _, .insert ⟨rfl, .inr (.inr rfl)⟩ _⟩,
        fun hF _ => ⟨hF, herase⟩⟩
    · intro term hterm s₁ h₁
      rw [Prog.wp_bind, wp_delete]
      exact ⟨h₁.trans ⟨h₁.1.erase _, .erase ⟨rfl, .inr (.inl ⟨term, ht term hterm, rfl⟩)⟩⟩,
        fun hF _ => ⟨hF, h₁⟩⟩

def stemCells (index : TextIndex) (stem : Str) (k : Cell) : Prop := ∃ key, stem <+: key ∧
    docCells index key k

theorem wp_dropTextPrefix {index : TextIndex} {stem : Str} (h : TextTyped s) :
    Prog.wp F memory (dropTextPrefix index stem) (fun _ => Indexed (stemCells index stem) s)
      (fun _ s' => F ∧ Indexed (stemCells index stem) s s') s := by
  rw [dropTextPrefix, Prog.wp_bind, wp_scanKeys]
  refine ⟨Prog.wp_forM (I := Indexed (stemCells index stem) s) (.refl h) ?_,
    fun hF _ => ⟨hF, .refl h⟩⟩
  intro k hk s₁ h₁
  obtain ⟨⟨⟨col, k⟩, v⟩, he, rfl⟩ := List.mem_map.mp hk
  obtain ⟨-, -, rest, hrest⟩ := ColMap.mem_under.mp he
  simp only at hrest ⊢
  have hkey : k.drop (docPrefix index).length = stem ++ rest := by
    rw [← hrest, docKey, List.append_assoc, List.drop_left]
  have hcells : ∀ c, docCells index (stem ++ rest) c → stemCells index stem c := fun c hc =>
    ⟨stem ++ rest, List.prefix_append _ _, hc⟩
  rw [hkey]
  exact (wp_dropText h₁.1).mono (fun _ _ h₂ => h₁.trans (h₂.mono hcells)) fun _ _ ⟨hF, h₂⟩ =>
    ⟨hF, h₁.trans (h₂.mono hcells)⟩

theorem wp_indexText [TextStd] {index : TextIndex} {key text : Str} {weight : ℚ} (h : TextTyped s) :
    Prog.wp F memory (indexText index key text weight) (fun _ => Indexed (docCells index key) s)
      (fun _ s' => F ∧ Indexed (docCells index key) s s') s := by
  have hterms : ∀ tf ∈ termFrequencies (tokenize text), '/' ∉ tf.1 := by
    intro tf htf
    have htf := (TextStd.hashOrder_perm _).mem_iff.mp htf
    obtain ⟨t, ht, rfl⟩ := List.mem_map.mp htf
    exact slash_notMem_tokenize (List.mem_dedup.mp ht)
  rw [indexText, Prog.wp_bind]
  refine (wp_dropText h).mono ?_ fun _ _ he => he
  intro _ s₁ h₁
  by_cases hempty : (tokenize text).isEmpty
  · simp only [hempty, if_true]
    exact h₁
  · simp only [hempty]
    rw [if_neg (by simp), Prog.wp_bind]
    refine Prog.wp.mono ?_ (fun _ _ he => he)
      (Prog.wp_forM (I := Indexed (docCells index key) s) h₁ ?_)
    · intro _ s₂ h₂
      have hdoc : Indexed (docCells index key) s (s₂.insert (.text, docKey index key)
          (.doc ⟨u32 (tokenize text).length, weight,
            ((termFrequencies (tokenize text)).map (·.1)).insertionSort fun a b =>
            compare a b ≠ .gt⟩)) := by
        refine h₂.trans ⟨h₂.1.put_doc index key fun t ht => ?_, .insert ⟨rfl, .inl rfl⟩ _⟩
        obtain ⟨tf, htf, rfl⟩ := List.mem_map.mp ((List.perm_insertionSort _ _).mem_iff.mp ht)
        exact hterms tf htf
      rw [Prog.wp_bind, wp_put, Prog.wp_bind]
      refine ⟨wp_stats hdoc.1 (fun st => ?_) fun hF _ => ⟨hF, hdoc⟩, fun hF _ => ⟨hF, h₂⟩⟩
      rw [wp_put]
      exact ⟨hdoc.trans ⟨hdoc.1.put_stats index _, .insert ⟨rfl, .inr (.inr rfl)⟩ _⟩,
        fun hF _ => ⟨hF, hdoc⟩⟩
    · intro tf htf s₂ h₂
      rw [wp_put]
      exact ⟨h₂.trans ⟨h₂.1.put_posting _ _ _ _,
        .insert ⟨rfl, .inr (.inl ⟨tf.1, hterms tf htf, rfl⟩)⟩ _⟩,
        fun hF _ => ⟨hF, h₂⟩⟩

end

end Crabtalk.Store

import Crabtalk.Basis.Decimal
import Crabtalk.Store.Sessions

/-! # Keys, read back component by component -/

open Basis

namespace Crabtalk.Store

def components (k : Str) : List Str := k.splitOn '/'

theorem components_slash (a b : Str) : components (a ++ '/' :: b) = components a ++ components b :=
  List.splitOn_append_cons_self a b

theorem components_of_notMem {a : Str} (h : '/' ∉ a) : components a = [a] :=
  List.splitOn_eq_singleton h

theorem components_ne_nil (a : Str) : components a ≠ [] := List.splitOn_ne_nil '/' a

theorem components_inj {a b : Str} (h : components a = components b) : a = b := by
  have := congrArg (['/'].intercalate ·) h
  simpa [components] using this

theorem slash_inj {a b x y : Str} (ha : '/' ∉ a) (hb : '/' ∉ b)
    (h : a ++ '/' :: x = b ++ '/' :: y) : a = b ∧ x = y := by
  have hc := congrArg components h
  rw [components_slash, components_slash, components_of_notMem ha, components_of_notMem hb] at hc
  simp only [List.singleton_append, List.cons.injEq] at hc
  exact ⟨hc.1, components_inj hc.2⟩

theorem components_key : ∀ parts, components (key parts) = realm :: parts.flatMap components := by
  have go : ∀ (parts : List Str) (a : Str),
      components (a ++ parts.flatMap fun part => '/' :: part) = components a ++
      parts.flatMap components := by
    intro parts
    induction parts with
    | nil => intro a; simp
    | cons p parts ih =>
      intro a
      have := ih (a ++ '/' :: p)
      rw [components_slash] at this
      simpa [List.append_assoc] using this
  intro parts
  rw [key, go]
  rfl

theorem keysUnder_isPrefix {parts : List Str} {k : Str} (h : keysUnder parts <+: k) :
    ∃ rest, k = key parts ++ '/' :: rest := by
  obtain ⟨rest, rfl⟩ := h
  exact ⟨rest, by simp [keysUnder]⟩

/-- A key under some parts has their components, and more behind them. -/
theorem components_of_isPrefix {parts : List Str} {k : Str} (h : keysUnder parts <+: k) :
    ∃ rest, rest ≠ [] ∧ components k = components (key parts) ++ rest := by
  obtain ⟨rest, rfl⟩ := keysUnder_isPrefix h
  exact ⟨components rest, components_ne_nil rest, components_slash _ _⟩

/-! ## Indices -/

theorem pad12_eq {n : Nat} (h : n < 10 ^ 12) : pad12 n = digits 12 n := leftpad_toDigits 11 n h

theorem pad12_compare {n m : Nat} (hn : n < 10 ^ 12) (hm : m < 10 ^ 12) :
    compare (pad12 n) (pad12 m) = compare n m := by
  rw [pad12_eq hn, pad12_eq hm, digits_compare 12 n m hn hm]

theorem pad12_digit {n : Nat} {c : Char} (h : c ∈ pad12 n) : c.isDigit := by
  rcases List.mem_append.mp h with h | h
  · rw [List.mem_replicate] at h
    rw [h.2]
    decide
  · exact Nat.isDigit_of_mem_toDigits (by decide) (by decide) h

theorem slash_notMem_pad12 (n : Nat) : '/' ∉ pad12 n := fun h => absurd (pad12_digit h) (by decide)

theorem ofDigitChars_pad12 (n : Nat) : Nat.ofDigitChars 10 (pad12 n) 0 = n := by
  rw [pad12, List.leftpad, Nat.ofDigitChars_append, Nat.ofDigitChars_replicate_zero, Nat.mul_zero,
    Nat.ofDigitChars_ten_toDigits]

theorem pad12_inj {n m : Nat} (h : pad12 n = pad12 m) : n = m := by
  rw [← ofDigitChars_pad12 n, h, ofDigitChars_pad12]

theorem pad12_ne_nil (n : Nat) : pad12 n ≠ [] := by
  rw [pad12, List.leftpad, Ne, List.append_eq_nil_iff]
  intro h
  exact Nat.toDigits_ne_nil h.2

theorem parseUsize_pad12 (n : Nat) : parseUsize (pad12 n) = if n < 2 ^ 64 then some n else none := by
  have hstrip : stripPlus (pad12 n) = pad12 n := by
    unfold stripPlus
    split
    · rename_i rest he
      have hc : ('+' : Char) ∈ pad12 n := by rw [he]; exact List.mem_cons_self
      exact absurd (pad12_digit hc) (by decide)
    · rfl
  have hall : (pad12 n).all Char.isDigit = true := List.all_eq_true.mpr fun c hc => pad12_digit hc
  rw [parseUsize, hstrip, ofDigitChars_pad12]
  simp only [pad12_ne_nil, hall, ne_eq, not_false_eq_true, true_and]

/-! ## The keys of a session -/

section
variable (h : Str)

theorem components_metaKey :
    components (metaKey h) = realm :: "session".toList :: (components h ++ ["meta".toList]) := by
  rw [metaKey, components_key]; simp [components_of_notMem]

theorem metaKey_inj {g h : Str} (he : metaKey g = metaKey h) : g = h := by
  have hc := congrArg components he
  rw [components_metaKey, components_metaKey] at hc
  simp only [List.cons.injEq, true_and, List.append_cancel_right_eq] at hc
  exact components_inj hc

theorem components_archiveKey :
    components (archiveKey h) = realm :: "session".toList :: (components h ++ ["archive".toList]) := by
  rw [archiveKey, components_key]; simp [components_of_notMem]

theorem components_messageKey (i : Nat) :
    components (messageKey h i) = realm :: "session".toList ::
    (components h ++ ["msg".toList, pad12 i]) := by
  rw [messageKey, components_key]; simp [components_of_notMem, slash_notMem_pad12]

theorem components_eventKey (i : Nat) :
    components (eventKey h i) = realm :: "session".toList ::
    (components h ++ ["evt".toList, pad12 i]) := by
  rw [eventKey, components_key]; simp [components_of_notMem, slash_notMem_pad12]

theorem components_titleKey :
    components (titleKey h) = realm :: "session".toList ::
    (components h ++ ["meta".toList, "title".toList]) := by
  rw [titleKey, components_key]; simp [components_of_notMem]

theorem components_summaryKey :
    components (summaryKey h) = realm :: "session".toList ::
    (components h ++ ["meta".toList, "summary".toList]) := by
  rw [summaryKey, components_key]; simp [components_of_notMem]

theorem components_sessionIndexKey (m : SessionMeta) :
    components (sessionIndexKey m h) = realm :: "idx".toList :: "sess".toList :: m.agent.toStr ::
      (components m.createdBy ++ (components m.createdAt ++ components h)) := by
  rw [sessionIndexKey, components_key]; simp [components_of_notMem, AgentId.slash_notMem]

variable {h} {k : Str}

theorem components_of_sessionPrefix (hk : sessionPrefix h <+: k) :
    ∃ rest, rest ≠ [] ∧ components k = realm :: "session".toList :: (components h ++ rest) := by
  obtain ⟨rest, hr, he⟩ := components_of_isPrefix hk
  refine ⟨rest, hr, ?_⟩
  rw [he, components_key]; simp [components_of_notMem]

theorem components_of_messagePrefix (hk : messagePrefix h <+: k) :
    ∃ rest, rest ≠ [] ∧ components k = realm :: "session".toList ::
    (components h ++ "msg".toList :: rest) := by
  obtain ⟨rest, hr, he⟩ := components_of_isPrefix hk
  refine ⟨rest, hr, ?_⟩
  rw [he, components_key]; simp [components_of_notMem]

theorem components_of_indexPrefix (hk : indexPrefix none <+: k) :
    ∃ rest, rest ≠ [] ∧ components k = realm :: "idx".toList :: "sess".toList :: rest := by
  obtain ⟨rest, hr, he⟩ := components_of_isPrefix hk
  refine ⟨rest, hr, ?_⟩
  rw [he, components_key]; simp [components_of_notMem]

end

/-! ## Reading a hit -/

def lastPart (h : Str) : Str := (components h).getLast (components_ne_nil h)

theorem lastPart_eq {h : Str} : lastPart h = h ↔ '/' ∉ h := by
  constructor
  · intro he hs
    have hmem : h ∈ components h := by
      have := List.getLast_mem (components_ne_nil h)
      rw [← lastPart, he] at this
      exact this
    exact notMem_splitOn hmem hs
  · intro hs
    simp [lastPart, components_of_notMem hs]

theorem reverse_components (h : Str) :
    (components h).reverse = lastPart h :: (components h).dropLast.reverse := by
  rw [lastPart, ← List.reverse_concat, List.dropLast_append_getLast]

/-- A hit on a message names the last part of the handle. -/
theorem parseMessageKey_messageKey (h : Str) (i : Nat) :
    parseMessageKey (messageKey h i) = if i < 2 ^ 64 then some (lastPart h, i) else none := by
  have hsplit : rsplit (messageKey h i) = pad12 i :: "msg".toList :: lastPart h ::
      ((components h).dropLast.reverse ++ ["session".toList, realm]) := by
    show (components (messageKey h i)).reverse = _
    rw [components_messageKey]
    simp [reverse_components]
  rw [parseMessageKey, hsplit]
  simp only [parseUsize_pad12]
  split <;> rfl

theorem rsplit_metaText (h last : Str) {k : Str}
    (hk : components k = realm :: "session".toList :: (components h ++ ["meta".toList, last])) :
    rsplit k = last :: "meta".toList :: lastPart h ::
    ((components h).dropLast.reverse ++ ["session".toList, realm]) := by
  show (components k).reverse = _
  rw [hk]
  simp [reverse_components]

theorem metaBoost_titleKey (h : Str) :
    metaBoost (titleKey h) = some (lastPart h, Weights.default.titleBoost) := by
  rw [metaBoost, rsplit_metaText h _ (components_titleKey h)]
  rfl

theorem metaBoost_summaryKey (h : Str) :
    metaBoost (summaryKey h) = some (lastPart h, Weights.default.summaryBoost) := by
  rw [metaBoost, rsplit_metaText h _ (components_summaryKey h)]
  rfl

/-- Every best match is one of the hits, filed under what its key says. -/
theorem bestMatches_mem {hits : List (Str × ℚ)} {g : Str} {idx : Nat} {score : ℚ}
    (hb : (bestMatches hits)[g]? = some (idx, score)) :
    ∃ hit ∈ hits, parseMessageKey hit.1 = some (g, idx) ∧ hit.2 = score := by
  have step : ∀ (best : Std.ExtTreeMap Str (Nat × ℚ)) (hit : Str × ℚ), (keepBest best hit)[g]? =
      some (idx, score) →
      best[g]? = some (idx, score) ∨ (parseMessageKey hit.1 = some (g, idx) ∧ hit.2 = score) := by
    intro best hit h
    rw [keepBest] at h
    cases hp : parseMessageKey hit.1 with
    | none => rw [hp] at h; exact .inl h
    | some p =>
      obtain ⟨handle, j⟩ := p
      rw [hp] at h
      have hnew : (best.insert handle (j, hit.2))[g]? = some (idx, score) →
          best[g]? = some (idx, score) ∨ (some (handle, j) = some (g, idx) ∧ hit.2 = score) := by
        intro hi
        rw [find_insert] at hi
        split at hi
        · rename_i hg
          obtain ⟨hj, hs⟩ := Prod.mk.inj (Option.some.inj hi)
          exact .inr ⟨by rw [hg, hj], hs⟩
        · exact .inl hi
      simp only at h
      split at h
      · split at h
        · exact hnew h
        · exact .inl h
      · exact hnew h
  suffices hgo : ∀ (hits : List (Str × ℚ)) (best : Std.ExtTreeMap Str (Nat × ℚ)),
      (hits.foldl keepBest best)[g]? = some (idx, score) →
      best[g]? = some (idx, score) ∨ ∃ hit ∈ hits, parseMessageKey hit.1 = some (g, idx) ∧
      hit.2 = score by
    exact (hgo hits ∅ hb).resolve_left (by simp)
  intro hits
  induction hits with
  | nil => exact fun best h => .inl h
  | cons hit hits ih =>
    intro best h
    rcases ih _ h with h | ⟨x, hx, he⟩
    · exact (step best hit h).imp_right fun he => ⟨hit, List.mem_cons_self, he⟩
    · exact .inr ⟨x, List.mem_cons_of_mem _ hx, he⟩

end Crabtalk.Store

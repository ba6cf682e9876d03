import Crabtalk.Basis.LittleEndian
import Crabtalk.Basis.ColumnMap

/-!
# Codes that keep the order

A code writes each letter as a word. Where the words of two letters part at a
place that tells the letters' order, a text and its encoding compare alike, and
a stem of the text is a stem of the encoding. UTF-8 is such a code.
-/

open Std

namespace Basis

section
variable {β : Type} [Ord β]

/-- The words part, and at that place the first is below the second. -/
def Parts (u v : List β) : Prop := ∃ p x y s t, u = p ++ x :: s ∧ v = p ++ y :: t ∧
    compare x y = .lt

variable [LawfulEqOrd β] {u v : List β}

theorem compare_ne_lt (x : β) : compare x x ≠ .lt := by
  have : compare x x = .eq := ReflCmp.compare_self
  rw [this]
  exact fun h => by cases h

theorem compare_append_left (p s t : List β) : compare (p ++ s) (p ++ t) = compare s t := by
  induction p with
  | nil => rfl
  | cons x p ih =>
    simp only [compare, List.cons_append, List.compareLex_cons_cons, ReflCmp.compare_self,
      Ordering.eq_then] at *
    exact ih

theorem Parts.compare_append (h : Parts u v) (s t : List β) : compare (u ++ s) (v ++ t) = .lt := by
  obtain ⟨p, x, y, u', v', rfl, rfl, hxy⟩ := h
  rw [List.append_assoc, List.append_assoc, compare_append_left]
  simp only [compare, List.cons_append, List.compareLex_cons_cons]
  have hlt : compare x y = .lt := hxy
  rw [hlt]
  rfl

theorem Parts.not_isPrefix (h : Parts u v) (s t : List β) : ¬ u ++ s <+: v ++ t ∧
    ¬ v ++ t <+: u ++ s := by
  obtain ⟨p, x, y, u', v', rfl, rfl, hxy⟩ := h
  have hne : x ≠ y := by
    rintro rfl
    exact compare_ne_lt x hxy
  constructor
  · rw [List.append_assoc, List.append_assoc, List.prefix_append_right_inj, List.cons_append,
      List.cons_append, List.cons_prefix_cons]
    exact fun hp => hne hp.1
  · rw [List.append_assoc, List.append_assoc, List.prefix_append_right_inj, List.cons_append,
      List.cons_append, List.cons_prefix_cons]
    exact fun hp => hne hp.1.symm

end

/-! ## Encoding letter by letter -/

section
variable {α β : Type} [Ord α] [Ord β]

structure Keeps (code : α → List β) : Prop where
  ne_nil : ∀ a, code a ≠ []
  parts : ∀ a b, compare a b = .lt → Parts (code a) (code b)

variable [TransOrd α] [LawfulEqOrd α] [LawfulEqOrd β] {code : α → List β}

theorem Keeps.compare_flatMap [TransOrd β] (h : Keeps code) (a b : List α) :
    compare (a.flatMap code) (b.flatMap code) = compare a b := by
  induction a generalizing b with
  | nil =>
    cases b with
    | nil => rfl
    | cons d b =>
      obtain ⟨x, w, hw⟩ := List.exists_cons_of_ne_nil (h.ne_nil d)
      rw [List.flatMap_nil, List.flatMap_cons, hw]
      rfl
  | cons c a ih =>
    cases b with
    | nil =>
      obtain ⟨x, w, hw⟩ := List.exists_cons_of_ne_nil (h.ne_nil c)
      rw [List.flatMap_nil, List.flatMap_cons, hw]
      rfl
    | cons d b =>
      rw [List.flatMap_cons, List.flatMap_cons]
      have hcons : compare (c :: a) (d :: b) = (compare c d).then (compare a b) :=
        List.compareLex_cons_cons
      rw [hcons]
      cases hcd : compare c d with
      | lt => exact (h.parts c d hcd).compare_append _ _
      | gt =>
        have hdc := (h.parts d c (OrientedCmp.lt_of_gt hcd)).compare_append (b.flatMap code)
            (a.flatMap code)
        exact OrientedCmp.gt_of_lt hdc
      | eq =>
        rw [LawfulEqCmp.eq_of_compare hcd, compare_append_left, ih]
        rfl

theorem Keeps.isPrefix_flatMap (h : Keeps code) (a b : List α) : a.flatMap code <+: b.flatMap code ↔
    a <+: b := by
  induction a generalizing b with
  | nil => simp
  | cons c a ih =>
    cases b with
    | nil => simp [h.ne_nil c]
    | cons d b =>
      rw [List.flatMap_cons, List.flatMap_cons, List.cons_prefix_cons]
      cases hcd : compare c d with
      | lt =>
        refine iff_of_false ((h.parts c d hcd).not_isPrefix _ _).1 ?_
        rintro ⟨rfl, -⟩
        exact compare_ne_lt c hcd
      | gt =>
        refine iff_of_false ((h.parts d c (OrientedCmp.lt_of_gt hcd)).not_isPrefix _ _).2 ?_
        rintro ⟨rfl, -⟩
        exact compare_ne_lt c (OrientedCmp.lt_of_gt hcd)
      | eq =>
        obtain rfl := LawfulEqCmp.eq_of_compare hcd
        rw [List.prefix_append_right_inj, ih]
        exact (and_iff_right rfl).symm

end

/-! ## Maps whose keys are encoded -/

section
variable {α α' β β' : Type} {cmp : α → α → Ordering} {cmp' : α' → α' → Ordering} [TransCmp cmp]
  [LawfulEqCmp cmp] [TransCmp cmp']
  [LawfulEqCmp cmp']

/-- `m'` holds under encoded keys what `read` reads as the entries of `m`, and nothing else. -/
structure Encodes (f : α → α') (read : α → β' → β) (m' : ExtTreeMap α' β' cmp')
    (m : ExtTreeMap α β cmp) : Prop where
  cell : ∀ k : α, m[k]? = m'[f k]?.map (read k)
  within : ∀ k' : α', m'[k']?.isSome → ∃ k, k' = f k

variable {f : α → α'} {read : α → β' → β} {m' : ExtTreeMap α' β' cmp'} {m : ExtTreeMap α β cmp}

omit [LawfulEqCmp cmp] [LawfulEqCmp cmp'] in
theorem Encodes.empty : Encodes f read (∅ : ExtTreeMap α' β' cmp') (∅ : ExtTreeMap α β cmp) where
  cell k := by simp
  within k' h := by simp at h

section
variable [DecidableEq α] [DecidableEq α'] (h : Encodes f read m' m) (hf : Function.Injective f)
include h hf

theorem Encodes.insert {k : α} {v : β} {v' : β'} (hv : read k v' = v) :
    Encodes f read (m'.insert (f k) v') (m.insert k v) where
  cell a := by
    rw [find_insert, find_insert]
    by_cases ha : k = a
    · rw [if_pos ha, if_pos (congrArg f ha), Option.map_some, ← ha, hv]
    · rw [if_neg ha, if_neg fun he => ha (hf he), h.cell]
  within k' hk' := by
    rw [find_insert] at hk'
    by_cases he : f k = k'
    · exact ⟨k, he.symm⟩
    · rw [if_neg he] at hk'
      exact h.within k' hk'

theorem Encodes.erase (k : α) : Encodes f read (m'.erase (f k)) (m.erase k) where
  cell a := by
    rw [find_erase, find_erase]
    by_cases ha : k = a
    · rw [if_pos ha, if_pos (congrArg f ha), Option.map_none]
    · rw [if_neg ha, if_neg fun he => ha (hf he), h.cell]
  within k' hk' := by
    rw [find_erase] at hk'
    by_cases he : f k = k'
    · exact ⟨k, he.symm⟩
    · rw [if_neg he] at hk'
      exact h.within k' hk'

end

/-- Where the encoding keeps the order, both maps list their entries alike. -/
theorem Encodes.toList (h : Encodes f read m' m) (hf : ∀ a b, cmp' (f a) (f b) = cmp a b) :
    List.Forall₂ (fun e' e => e'.1 = f e.1 ∧ read e.1 e'.2 = e.2) m'.toList m.toList := by
  have irr : Std.Irrefl fun a b : α' => cmp' a b = .lt := ⟨lt_irrefl_cmp⟩
  have anti : Std.Antisymm fun a b : α' => cmp' a b = .lt :=
    ⟨fun _ _ h h' => absurd h' (lt_asymm_cmp h)⟩
  -- both maps list their keys in one order
  have hkeys : m'.toList.map (·.1) = m.toList.map fun e => f e.1 := by
    refine (ExtTreeMap.ordered_keys_toList.map _ fun _ _ h => h :
      List.Pairwise (fun a b => cmp' a b = .lt) _).eq_of_mem_iff
      (ExtTreeMap.ordered_keys_toList.map _ fun a b hab => (hf a.1 b.1).trans hab) fun {k'} => ?_
    constructor
    · intro hk'
      obtain ⟨⟨k'', v'⟩, he, rfl⟩ := List.mem_map.mp hk'
      have hv' := ExtTreeMap.mem_toList_iff_getElem?_eq_some.mp he
      obtain ⟨k, rfl⟩ := h.within k'' (by rw [hv']; rfl)
      have hk := h.cell k
      rw [hv'] at hk
      exact List.mem_map.mpr ⟨(k, read k v'), ExtTreeMap.mem_toList_iff_getElem?_eq_some.mpr hk, rfl⟩
    · intro hk'
      obtain ⟨⟨k, v⟩, he, rfl⟩ := List.mem_map.mp hk'
      have hk := h.cell k
      rw [ExtTreeMap.mem_toList_iff_getElem?_eq_some.mp he] at hk
      obtain ⟨v', hv', -⟩ := Option.map_eq_some_iff.mp hk.symm
      exact List.mem_map.mpr ⟨(f k, v'), ExtTreeMap.mem_toList_iff_getElem?_eq_some.mpr hv', rfl⟩
  have zip : ∀ (l' : List (α' × β')) (l : List (α × β)), l'.map (·.1) = l.map (fun e => f e.1) →
      (∀ x ∈ l', m'[x.1]? = some x.2) → (∀ y ∈ l, m[y.1]? = some y.2) →
      List.Forall₂ (fun e' e => e'.1 = f e.1 ∧ read e.1 e'.2 = e.2) l' l := by
    intro l'
    induction l' with
    | nil =>
      intro l hk _ _
      rw [List.map_nil, eq_comm, List.map_eq_nil_iff] at hk
      rw [hk]
      exact .nil
    | cons x l' ih =>
      intro l hk h₁ h₂
      cases l with
      | nil => cases hk
      | cons y l =>
        simp only [List.map_cons, List.cons.injEq] at hk
        refine .cons ⟨hk.1, ?_⟩ (ih l hk.2 (fun a ha => h₁ a (List.mem_cons_of_mem _ ha))
          fun a ha => h₂ a (List.mem_cons_of_mem _ ha))
        have hy := h.cell y.1
        rw [h₂ y List.mem_cons_self, ← hk.1, h₁ x List.mem_cons_self, Option.map_some,
          Option.some.injEq] at hy
        exact hy.symm
  exact zip _ _ hkeys (fun x hx => ExtTreeMap.mem_toList_iff_getElem?_eq_some.mp hx)
    fun y hy => ExtTreeMap.mem_toList_iff_getElem?_eq_some.mp hy

theorem Encodes.size (h : Encodes f read m' m) (hf : ∀ a b, cmp' (f a) (f b) = cmp a b) :
    m'.size = m.size := by
  rw [← ExtTreeMap.length_toList, ← ExtTreeMap.length_toList, (h.toList hf).length_eq]

end

/-! ## UTF-8 -/

theorem compare_ofNat {m n : Nat} (hm : m < 256) (hn : n < 256) (h : m < n) :
    compare (UInt8.ofNat m) (UInt8.ofNat n) = .lt := by
  have hlt : UInt8.ofNat m < UInt8.ofNat n := by
    rw [UInt8.lt_iff_toNat_lt, UInt8.toNat_ofNat', UInt8.toNat_ofNat']
    omega
  show compareOfLessAndEq (UInt8.ofNat m) (UInt8.ofNat n) = .lt
  rw [compareOfLessAndEq, if_pos hlt]

def utf8Digits (v : Nat) : List Nat :=
  if v ≤ 0x7f then [v]
  else if v ≤ 0x7ff then [v / 64 % 32 + 192, v % 64 + 128]
  else if v ≤ 0xffff then [v / 4096 % 16 + 224, v / 64 % 64 + 128, v % 64 + 128]
  else [v / 262144 % 8 + 240, v / 4096 % 64 + 128, v / 64 % 64 + 128, v % 64 + 128]

theorem utf8EncodeChar_eq (c : Char) :
    String.utf8EncodeChar c = (utf8Digits c.val.toNat).map UInt8.ofNat := by
  rw [String.utf8EncodeChar, utf8Digits]
  by_cases h₁ : c.val.toNat ≤ 0x7f
  · rw [if_pos h₁, if_pos h₁]
    rfl
  by_cases h₂ : c.val.toNat ≤ 0x7ff
  · rw [if_neg h₁, if_neg h₁, if_pos h₂, if_pos h₂]
    rfl
  by_cases h₃ : c.val.toNat ≤ 0xffff
  · rw [if_neg h₁, if_neg h₁, if_neg h₂, if_neg h₂, if_pos h₃, if_pos h₃]
    rfl
  · rw [if_neg h₁, if_neg h₁, if_neg h₂, if_neg h₂, if_neg h₃, if_neg h₃]
    rfl

theorem utf8Digits_lt {v x : Nat} (hv : v < 1114112) (h : x ∈ utf8Digits v) : x < 256 := by
  unfold utf8Digits at h
  split at h
  · simp at h
    omega
  · split at h
    · simp at h
      omega
    · split at h
      · simp at h
        omega
      · simp at h
        omega

theorem Parts.head {x y : Nat} (s t : List Nat) (h : x < y) : Parts (x :: s) (y :: t) :=
  ⟨[], x, y, s, t, rfl, rfl, Nat.compare_eq_lt.mpr h⟩

theorem Parts.cons {x : Nat} {s t : List Nat} (h : Parts s t) : Parts (x :: s) (x :: t) := by
  obtain ⟨p, a, b, s', t', rfl, rfl, hab⟩ := h
  exact ⟨x :: p, a, b, s', t', rfl, rfl, hab⟩

/-- Digits of one length differ first where the greater part of the number does. -/
theorem parts_last {m n : Nat} (h : m < n) (hq : m / 64 = n / 64) :
    Parts [m % 64 + 128] [n % 64 + 128] :=
  .head _ _ (by omega)

theorem parts_two {m n : Nat} (h : m < n) (hq : m / 4096 = n / 4096) :
    Parts [m / 64 % 64 + 128, m % 64 + 128] [n / 64 % 64 + 128, n % 64 + 128] := by
  by_cases he : m / 64 = n / 64
  · rw [he]
    exact .cons (parts_last h he)
  · exact .head _ _ (by omega)

theorem parts_three {m n : Nat} (h : m < n) (hq : m / 262144 = n / 262144) :
    Parts [m / 4096 % 64 + 128, m / 64 % 64 + 128, m % 64 + 128]
    [n / 4096 % 64 + 128, n / 64 % 64 + 128, n % 64 + 128] := by
  by_cases he : m / 4096 = n / 4096
  · rw [he]
    exact .cons (parts_two h he)
  · exact .head _ _ (by omega)

/-- The first digit tells how many follow, so longer words lie above shorter ones. -/
theorem utf8Digits_parts {v w : Nat} (hw : w < 1114112) (h : v < w) :
    Parts (utf8Digits v) (utf8Digits w) := by
  unfold utf8Digits
  split
  · split
    · exact .head _ _ h
    · split
      · exact .head _ _ (by omega)
      · split
        · exact .head _ _ (by omega)
        · exact .head _ _ (by omega)
  · split
    · rw [if_neg (by omega)]
      split
      · by_cases he : v / 64 = w / 64
        · rw [he]
          exact .cons (parts_last h he)
        · exact .head _ _ (by omega)
      · split
        · exact .head _ _ (by omega)
        · exact .head _ _ (by omega)
    · rw [if_neg (by omega : ¬ w ≤ 0x7f), if_neg (by omega : ¬ w ≤ 0x7ff)]
      split
      · split
        · by_cases he : v / 4096 = w / 4096
          · rw [he]
            exact .cons (parts_two h he)
          · exact .head _ _ (by omega)
        · exact .head _ _ (by omega)
      · rw [if_neg (by omega)]
        by_cases he : v / 262144 = w / 262144
        · rw [he]
          exact .cons (parts_three h he)
        · exact .head _ _ (by omega)

theorem Parts.map {u v : List Nat} (h : Parts u v) (hu : ∀ x ∈ u, x < 256) (hv : ∀ y ∈ v, y < 256) :
    Parts (u.map UInt8.ofNat) (v.map UInt8.ofNat) := by
  obtain ⟨p, x, y, s, t, rfl, rfl, hxy⟩ := h
  have hx := hu x (List.mem_append_right _ List.mem_cons_self)
  have hy := hv y (List.mem_append_right _ List.mem_cons_self)
  refine ⟨p.map UInt8.ofNat, UInt8.ofNat x, UInt8.ofNat y, s.map UInt8.ofNat,
    t.map UInt8.ofNat, ?_, ?_, ?_⟩
  · rw [List.map_append, List.map_cons]
  · rw [List.map_append, List.map_cons]
  · exact compare_ofNat hx hy (Nat.compare_eq_lt.mp hxy)

theorem toNat_lt (c : Char) : c.val.toNat < 1114112 := by
  rcases c.valid with h | h
  · exact Nat.lt_trans h (by decide)
  · exact h.2

theorem keeps_utf8EncodeChar : Keeps String.utf8EncodeChar where
  ne_nil _ := String.utf8EncodeChar_ne_nil
  parts c d h := by
    have hlt : c < d := compareOfLessAndEq_eq_lt.mp h
    rw [utf8EncodeChar_eq, utf8EncodeChar_eq]
    exact (utf8Digits_parts (toNat_lt d) hlt).map (fun x => utf8Digits_lt (toNat_lt c)) fun x =>
      utf8Digits_lt (toNat_lt d)

end Basis

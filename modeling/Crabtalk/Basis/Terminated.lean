import Mathlib.Data.List.Basic

/-!
# Fields that end at a mark

A record is written field after field, each followed by a mark. Where no field
contains the mark the writing can be read in one way only; otherwise it is the
writing of shorter fields as well.
-/

namespace Basis

variable {α : Type} {z : α} {x y : List α} {xs ys : List (List α)}

def terminated (z : α) (xs : List (List α)) : List α := xs.flatMap fun x => x ++ [z]

@[simp] theorem terminated_nil : terminated z [] = [] := rfl

@[simp] theorem terminated_cons : terminated z (x :: xs) = x ++ z :: terminated z xs :=
  by simp [terminated]

@[simp] theorem terminated_append : terminated z (xs ++ ys) = terminated z xs ++ terminated z ys :=
  by simp [terminated]

theorem cut_inj {s t : List α} (hx : z ∉ x) (hy : z ∉ y) (h : x ++ z :: s = y ++ z :: t) :
    x = y ∧ s = t := by
  induction x generalizing y with
  | nil =>
    cases y with
    | nil => exact ⟨rfl, (List.cons.inj h).2⟩
    | cons b y =>
      have hb : z = b := (List.cons.inj h).1
      exact absurd (hb ▸ List.mem_cons_self) hy
  | cons a x ih =>
    cases y with
    | nil =>
      have ha : a = z := (List.cons.inj h).1
      exact absurd (ha ▸ List.mem_cons_self) hx
    | cons b y =>
      obtain ⟨hab, h⟩ := List.cons.inj h
      obtain ⟨hxy, hst⟩ := ih (fun hm => hx (List.mem_cons_of_mem _ hm))
          (fun hm => hy (List.mem_cons_of_mem _ hm)) h
      exact ⟨by rw [hab, hxy], hst⟩

theorem terminated_inj (hx : ∀ x ∈ xs, z ∉ x) (hy : ∀ y ∈ ys, z ∉ y)
    (h : terminated z xs = terminated z ys) : xs = ys := by
  induction xs generalizing ys with
  | nil =>
    cases ys with
    | nil => rfl
    | cons y ys => simp at h
  | cons x xs ih =>
    cases ys with
    | nil => simp at h
    | cons y ys =>
      simp only [terminated_cons] at h
      obtain ⟨hxy, h⟩ := cut_inj (hx x List.mem_cons_self) (hy y List.mem_cons_self) h
      rw [hxy, ih (fun x hm => hx x (List.mem_cons_of_mem _ hm))
        (fun y hm => hy y (List.mem_cons_of_mem _ hm)) h]

/-- What follows the last mark is told from the fields by having none. -/
theorem terminated_append_inj {s t : List α} (hx : ∀ x ∈ xs, z ∉ x) (hy : ∀ y ∈ ys, z ∉ y)
    (hs : z ∉ s) (ht : z ∉ t)
    (h : terminated z xs ++ s = terminated z ys ++ t) : xs = ys ∧ s = t := by
  induction xs generalizing ys with
  | nil =>
    cases ys with
    | nil => exact ⟨rfl, h⟩
    | cons y ys =>
      have hz : z ∈ s := by
        rw [show s = terminated z (y :: ys) ++ t from h]
        simp
      exact absurd hz hs
  | cons x xs ih =>
    cases ys with
    | nil =>
      have hz : z ∈ t := by
        rw [show t = terminated z (x :: xs) ++ s from h.symm]
        simp
      exact absurd hz ht
    | cons y ys =>
      simp only [terminated_cons, List.append_assoc, List.cons_append] at h
      obtain ⟨hxy, h⟩ := cut_inj (hx x List.mem_cons_self) (hy y List.mem_cons_self) h
      obtain ⟨hxys, hst⟩ := ih (fun x hm => hx x (List.mem_cons_of_mem _ hm))
          (fun y hm => hy y (List.mem_cons_of_mem _ hm)) h
      exact ⟨by rw [hxy, hxys], hst⟩

/-- As many fields are read as are known to be there, whatever follows them. -/
theorem terminated_length_inj {s t : List α} (hx : ∀ x ∈ xs, z ∉ x) (hy : ∀ y ∈ ys, z ∉ y)
    (hlen : xs.length = ys.length)
    (h : terminated z xs ++ s = terminated z ys ++ t) : xs = ys ∧ s = t := by
  induction xs generalizing ys with
  | nil =>
    cases ys with
    | nil => exact ⟨rfl, h⟩
    | cons y ys => cases hlen
  | cons x xs ih =>
    cases ys with
    | nil => cases hlen
    | cons y ys =>
      simp only [terminated_cons, List.append_assoc, List.cons_append] at h
      obtain ⟨hxy, h⟩ := cut_inj (hx x List.mem_cons_self) (hy y List.mem_cons_self) h
      obtain ⟨hxys, hst⟩ := ih (fun x hm => hx x (List.mem_cons_of_mem _ hm))
          (fun y hm => hy y (List.mem_cons_of_mem _ hm))
        (Nat.succ.inj hlen) h
      exact ⟨by rw [hxy, hxys], hst⟩

theorem terminated_singleton_inj (h : terminated z [x] = terminated z [y]) : x = y := by
  simp only [terminated_cons, terminated_nil] at h
  exact (List.append_inj' h rfl).1

section
variable [DecidableEq α]

theorem exists_pieces_singleton (z : α) (x : List α) :
    ∃ p ps, (∀ q ∈ p :: ps, z ∉ q) ∧ terminated z (p :: ps) = terminated z [x] := by
  induction x with
  | nil => exact ⟨[], [], by simp, rfl⟩
  | cons a x ih =>
    obtain ⟨p, ps, hfree, heq⟩ := ih
    by_cases ha : a = z
    · refine ⟨[], p :: ps, ?_, ?_⟩
      · intro q hq
        rcases List.mem_cons.mp hq with rfl | hq
        · exact List.not_mem_nil
        · exact hfree q hq
      · rw [terminated_cons, heq, ha]
        simp
    · refine ⟨a :: p, ps, ?_, ?_⟩
      · intro q hq
        rcases List.mem_cons.mp hq with rfl | hq
        · intro hm
          rcases List.mem_cons.mp hm with rfl | hm
          · exact ha rfl
          · exact hfree p List.mem_cons_self hm
        · exact hfree q (List.mem_cons_of_mem _ hq)
      · simp only [terminated_cons] at heq ⊢
        simp [heq]

/-- Whatever is written is written by fields without a mark, at least as many. -/
theorem exists_pieces (z : α) (xs : List (List α)) :
    ∃ ps : List (List α), (∀ p ∈ ps, z ∉ p) ∧ terminated z ps = terminated z xs ∧
    xs.length ≤ ps.length := by
  induction xs with
  | nil => exact ⟨[], by simp, rfl, Nat.le_refl 0⟩
  | cons x xs ih =>
    obtain ⟨qs, hqs, heqs, hlen⟩ := ih
    obtain ⟨p, ps, hps, heq⟩ := exists_pieces_singleton z x
    refine ⟨p :: ps ++ qs, ?_, ?_, ?_⟩
    · intro q hq
      rcases List.mem_append.mp hq with hq | hq
      · exact hps q hq
      · exact hqs q hq
    · rw [terminated_append, heq, heqs]
      simp
    · simp only [List.length_append, List.length_cons]
      omega

end

theorem sep_notMem_splitOnP {p : α → Bool} : ∀ {l piece : List α}, piece ∈ l.splitOnP p →
    ∀ c ∈ piece, p c = false
  | [], piece, h, c, hc => by
    rw [List.splitOnP_nil, List.mem_singleton] at h
    subst h
    cases hc
  | x :: l, piece, h, c, hc => by
    rw [List.splitOnP_cons_eq_if_modifyHead] at h
    by_cases hx : p x
    · rw [if_pos hx, List.mem_cons] at h
      rcases h with rfl | h
      · cases hc
      · exact sep_notMem_splitOnP h c hc
    · rw [if_neg hx] at h
      cases hl : l.splitOnP p with
      | nil => exact absurd hl (List.splitOnP_ne_nil p l)
      | cons first rest =>
        rw [hl, List.modifyHead_cons, List.mem_cons] at h
        rcases h with rfl | h
        · rcases List.mem_cons.mp hc with rfl | hc
          · simpa using hx
          · exact sep_notMem_splitOnP (by rw [hl]; exact List.mem_cons_self) c hc
        · exact sep_notMem_splitOnP (by rw [hl]; exact List.mem_cons_of_mem _ h) c hc

theorem notMem_splitOn [DecidableEq α] {a : α} {l piece : List α} (h : piece ∈ l.splitOn a) :
    a ∉ piece := by
  rw [List.splitOn_eq_splitOnP] at h
  exact fun ha => by simpa using sep_notMem_splitOnP h a ha

end Basis

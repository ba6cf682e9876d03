import Crabtalk.Runtime.Live

/-!
# What eviction takes

Sessions go one at a time, the one nobody has touched for longest first, until
the history that stays is inside the bound or what is left is in use.
-/

open Basis Std
open Crabtalk.Store

namespace Crabtalk.Runtime

/-- Somebody beside the registry holds the session, or there is a token out for it. -/
def Live.InUse (cells : Cells) (live : Live) : Prop := live.cancel.isSome = true ∨
    cells.strongCount live.session ≠ 1

namespace Registry

def removeAll (r : Registry) (ids : List Nat) : Registry :=
  ids.foldl (fun r id => (r.remove id).2) r

def measured (cells : Cells) (r : Registry) : Registry :=
  { r with byId := r.byId.map fun _ live => live.measure cells }

/-- Of two live sessions, the first was not touched after the second. -/
def NotAfter (r : Registry) (a b : Nat) : Prop :=
  ∀ x y, r.byId[a]? = some x → r.byId[b]? = some y → x.touched ≤ y.touched

/-- What is true of a round of evictions that removes these sessions, in this order. -/
structure Evicted (cells : Cells) (max : Nat) (r : Registry) (removed : List Nat) : Prop where
  nodup : removed.Nodup
  idle : ∀ id ∈ removed, ∃ live, r.byId[id]? = some live ∧ ¬ live.InUse cells
  left : ∀ id, (r.removeAll removed).byId[id]? = if id ∈ removed then none else r.byId[id]?
  order : removed.Pairwise r.NotAfter
  spared : ∀ a ∈ removed, ∀ (b : Nat) (live : Live), (r.removeAll removed).byId[b]? = some live →
    ¬ live.InUse cells → r.NotAfter a b
  needed : ∀ k < removed.length, max < (r.removeAll (removed.take k)).resident
  settled : (r.removeAll removed).resident ≤ max ∨
    ∀ (id : Nat) (live : Live), (r.removeAll removed).byId[id]? = some live → live.InUse cells

variable {r : Registry} {cells : Cells} {max id : Nat}

theorem find_remove (r : Registry) (id j : Nat) : (r.remove id).2.byId[j]? = if id = j then none
    else r.byId[j]? := by
  unfold remove
  cases hid : r.byId[id]? with
  | none =>
    by_cases hj : id = j
    · rw [if_pos hj, ← hj]
      exact hid
    · rw [if_neg hj]
  | some live =>
    dsimp only
    rw [ExtTreeMap.getElem?_erase]
    simp only [LawfulEqCmp.compare_eq_iff_eq]

theorem mem_candidates (cells : Cells) (r : Registry) (e : Nat × Live) :
    (e ∈ r.byId.toList.filter fun e => e.2.cancel.isNone && cells.strongCount e.2.session == 1) ↔
      r.byId[e.1]? = some e.2 ∧ ¬ e.2.InUse cells := by
  obtain ⟨id, live⟩ := e
  rw [List.mem_filter, ExtTreeMap.mem_toList_iff_getElem?_eq_some]
  unfold Live.InUse
  simp

theorem victim_spec (h : Sessions.victim cells r = some id) :
    ∃ live, r.byId[id]? = some live ∧ ¬ live.InUse cells ∧
      ∀ (j : Nat) (other : Live), r.byId[j]? = some other → ¬ other.InUse cells →
      live.touched ≤ other.touched := by
  unfold Sessions.victim at h
  obtain ⟨⟨i, live⟩, he, rfl⟩ := Option.map_eq_some_iff.mp h
  obtain ⟨hlive, hidle⟩ := (mem_candidates cells r _).mp (List.minOn?_mem he)
  refine ⟨live, hlive, hidle, fun j other hj hother => ?_⟩
  have hmem := (mem_candidates cells r (j, other)).mpr ⟨hj, hother⟩
  have hle := List.apply_get_minOn?_le_of_mem (f := fun e : Nat × Live => e.2.touched) hmem
  simpa only [he, Option.get_some] using hle

theorem victim_none (h : Sessions.victim cells r = none) {live : Live}
    (hlive : r.byId[id]? = some live) : live.InUse cells := by
  by_contra hidle
  have hmem := (mem_candidates cells r (id, live)).mpr ⟨hlive, hidle⟩
  have hsome := List.isSome_minOn?_of_mem (f := fun e : Nat × Live => e.2.touched) hmem
  unfold Sessions.victim at h
  rw [Option.map_eq_none_iff.mp h] at hsome
  cases hsome

/-! ## The rounds -/

theorem Evicted.nil (h : r.resident ≤ max ∨ Sessions.victim cells r = none) :
    Evicted cells max r [] where
  nodup := List.nodup_nil
  idle := fun _ h => (by cases h)
  left := fun _ => rfl
  order := List.Pairwise.nil
  spared := fun _ h => (by cases h)
  needed := fun _ h => absurd h (Nat.not_lt_zero _)
  settled := h.imp_right fun hv _ _ hlive => victim_none hv hlive

theorem Evicted.cons {removed : List Nat} (hmax : max < r.resident)
    (hv : Sessions.victim cells r = some id)
    (h : Evicted cells max (r.remove id).2 removed) : Evicted cells max r (id :: removed) := by
  obtain ⟨live, hlive, hidle, hleast⟩ := victim_spec hv
  -- what is live after the round was live before it
  have hback : ∀ {j other}, (r.remove id).2.byId[j]? = some other → id ≠ j ∧
      r.byId[j]? = some other := by
    intro j other hj
    rw [find_remove] at hj
    split at hj
    · cases hj
    · exact ⟨by assumption, hj⟩
  have holdest : ∀ {j other}, (r.remove id).2.byId[j]? = some other → ¬ other.InUse cells →
      r.NotAfter id j := by
    intro j other hj hother x y hx hy
    rw [hlive] at hx
    rw [(hback hj).2] at hy
    cases hx
    cases hy
    exact hleast j other (hback hj).2 hother
  have hnotAfter : ∀ {a b live}, (r.remove id).2.byId[a]? = some live →
      (r.remove id).2.NotAfter a b → id ≠ b → r.NotAfter a b := by
    intro a b live ha hab hb x y hx hy
    refine hab x y ?_ ?_
    · rw [find_remove, if_neg (hback ha).1]
      exact hx
    · rw [find_remove, if_neg hb]
      exact hy
  refine ⟨?_, ?_, ?_, ?_, ?_, ?_, ?_⟩
  · refine List.nodup_cons.mpr ⟨fun hmem => ?_, h.nodup⟩
    obtain ⟨other, hother, -⟩ := h.idle id hmem
    exact (hback hother).1 rfl
  · intro j hj
    cases hj with
    | head => exact ⟨live, hlive, hidle⟩
    | tail _ hj =>
      obtain ⟨other, hother, hin⟩ := h.idle j hj
      exact ⟨other, (hback hother).2, hin⟩
  · intro j
    have hj := h.left j
    rw [find_remove] at hj
    unfold removeAll at hj ⊢
    rw [List.foldl_cons, hj]
    by_cases hid : id = j
    · simp [hid]
    · simp [hid, Ne.symm hid]
  · refine List.pairwise_cons.mpr ⟨fun b hb => ?_, h.order.imp_of_mem fun {a b} ha hb hab => ?_⟩
    · obtain ⟨other, hother, hin⟩ := h.idle b hb
      exact holdest hother hin
    · obtain ⟨x, hx, -⟩ := h.idle a ha
      obtain ⟨y, hy, -⟩ := h.idle b hb
      exact hnotAfter hx hab (hback hy).1
  · intro a ha b other hb hother
    have hb' : (r.remove id).2.byId[b]? = some other := by
      have hleft := h.left b
      rw [show (r.remove id).2.removeAll removed = r.removeAll (id :: removed) from rfl, hb] at hleft
      split at hleft
      · cases hleft
      · exact hleft.symm
    cases ha with
    | head => exact holdest hb' hother
    | tail _ ha =>
      obtain ⟨x, hx, -⟩ := h.idle a ha
      exact hnotAfter hx (h.spared a ha b other hb hother) (hback hb').1
  · intro k hk
    cases k with
    | zero => exact hmax
    | succ k => exact h.needed k (Nat.lt_of_succ_lt_succ hk)
  · exact h.settled

end Registry

namespace Sessions

end Sessions

end Crabtalk.Runtime

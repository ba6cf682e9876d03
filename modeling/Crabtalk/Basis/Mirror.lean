import Crabtalk.Basis.ColumnMap

/-!
# A table and its reverse index

Entries stand under ids, and each has a name. The index leads from a name to
the id of the one entry of that name.
-/

open Std

namespace Basis

variable {ι ν η : Type} {ci : ι → ι → Ordering} {cn : η → η → Ordering} [TransCmp ci]
  [LawfulEqCmp ci] [TransCmp cn] [LawfulEqCmp cn]
  [DecidableEq ι] [DecidableEq η] {name : ν → η} {entries : ExtTreeMap ι ν ci}
    {index : ExtTreeMap η ι cn} {i : ι} {v : ν}

def Mirror (name : ν → η) (entries : ExtTreeMap ι ν ci) (index : ExtTreeMap η ι cn) : Prop :=
  ∀ (i : ι) (n : η), (∃ v, entries[i]? = some v ∧ name v = n) ↔ index[n]? = some i

namespace Mirror

omit [LawfulEqCmp ci] [LawfulEqCmp cn] [DecidableEq ι] [DecidableEq η] in
theorem empty : Mirror name (∅ : ExtTreeMap ι ν ci) (∅ : ExtTreeMap η ι cn) := by
  intro i n
  simp

omit [LawfulEqCmp ci] [LawfulEqCmp cn] [DecidableEq ι] [DecidableEq η] in
theorem find (h : Mirror name entries index) (hv : entries[i]? = some v) :
    index[name v]? = some i := (h i _).mp ⟨v, hv, rfl⟩

omit [LawfulEqCmp ci] [LawfulEqCmp cn] [DecidableEq ι] [DecidableEq η] in
theorem congr {entries' : ExtTreeMap ι ν ci} (h : Mirror name entries index)
    (hmap : ∀ i : ι, entries'[i]?.map name = entries[i]?.map name) : Mirror name entries' index := by
  intro i n
  rw [← h i n, ← Option.map_eq_some_iff, ← Option.map_eq_some_iff, hmap]

theorem remove (h : Mirror name entries index) (hv : entries[i]? = some v) :
    Mirror name (entries.erase i) (index.erase (name v)) := by
  intro j n
  rw [find_erase, find_erase]
  by_cases hij : i = j
  · subst hij
    by_cases hn : name v = n
    · simp [hn]
    · rw [if_pos rfl, if_neg hn, ← h i n, hv]
      simp [hn]
  · by_cases hn : name v = n
    · rw [if_neg hij, if_pos hn, h j n, ← hn, h.find hv]
      simp [hij]
    · rw [if_neg hij, if_neg hn]
      exact h j n

/-- A new entry under an id nothing stands under, when its name leads nowhere yet. -/
theorem insert (h : Mirror name entries index) (hi : entries[i]? = none)
    (hn : index[name v]? = none) :
    Mirror name (entries.insert i v) (index.insert (name v) i) := by
  intro j n
  rw [find_insert, find_insert]
  by_cases hij : i = j
  · subst hij
    by_cases hvn : name v = n
    · simp [hvn]
    · rw [if_pos rfl, if_neg hvn, ← h i n, hi]
      simp [hvn]
  · rw [if_neg hij]
    by_cases hvn : name v = n
    · rw [if_pos hvn, h j n, ← hvn, hn]
      simp [hij]
    · rw [if_neg hvn]
      exact h j n

/-- A new entry in the place of the one that had its name. -/
theorem displace {d : ι} (h : Mirror name entries index) (hi : entries[i]? = none)
    (hn : index[name v]? = some d) :
    Mirror name ((entries.erase d).insert i v) (index.insert (name v) i) := by
  obtain ⟨w, hw, hname⟩ := (h d _).mpr hn
  have herase : Mirror name (entries.erase d) (index.erase (name v)) := hname ▸ h.remove hw
  have hnone : (entries.erase d)[i]? = none := by
    rw [find_erase, hi]
    split <;> rfl
  have hinsert := herase.insert hnone (v := v) (by rw [find_erase, if_pos rfl])
  have hagain : (index.erase (name v)).insert (name v) i = index.insert (name v) i :=
    map_ext fun n => by
    rw [find_insert, find_insert, find_erase]
    split <;> rfl
  exact hagain ▸ hinsert

end Mirror

end Basis

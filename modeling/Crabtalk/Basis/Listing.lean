import Crabtalk.Basis.FileTree
import Crabtalk.Basis.Wp
import Mathlib.Data.List.Dedup
import Mathlib.Data.List.Infix

/-!
# Listing a directory

A tree says what is at a location. With a list that no location of the tree is
missing from, it can also say what a directory holds, as long as every change
adds to the list what it may have put there.
-/

namespace Basis

structure Listed (ν β : Type) [NameLimit ν] where
  tree : FileTree ν β
  names : List (List ν)
  covers : ∀ l, tree.node l ≠ none → l ∈ names

/-- What is there was there, or is among the locations that were touched. -/
def Grows {ν β : Type} [NameLimit ν] (t t' : FileTree ν β) (touched : List (List ν)) : Prop :=
  ∀ l, t'.node l ≠ none → t.node l ≠ none ∨ l ∈ touched

namespace Listed

variable {ν β ε α : Type} [NameLimit ν]

def follow (s : Listed ν β) {t' : FileTree ν β} {touched : List (List ν)}
    (h : Grows s.tree t' touched) : Listed ν β :=
  ⟨t', touched ++ s.names, fun l hl => List.mem_append.mpr ((h l hl).symm.imp_right (s.covers l))⟩

def lift (m : EStateM ε (FileTree ν β) α) (touched : FileTree ν β → List (List ν))
    (hm : ∀ t, wp m (fun _ t' => Grows t t' (touched t)) (fun _ t' => Grows t t' (touched t)) t) :
    EStateM ε (Listed ν β) α := fun s =>
  match hr : m s.tree with
  | .ok a _ => .ok a (s.follow ((hm s.tree).ok hr))
  | .error e _ => .error e (s.follow ((hm s.tree).error hr))

theorem wp_lift {m : EStateM ε (FileTree ν β) α} {touched : FileTree ν β → List (List ν)}
    (hm : ∀ t, wp m (fun _ t' => Grows t t' (touched t)) (fun _ t' => Grows t t' (touched t)) t)
    {Q : α → FileTree ν β → Prop}
    {E : ε → FileTree ν β → Prop} {s : Listed ν β} (h : wp m Q E s.tree) :
    wp (lift m touched hm) (fun a s' => Q a s'.tree) (fun e s' => E e s'.tree) s := by
  unfold wp lift
  split
  · rename_i a s' hr
    split at hr
    · rename_i b t' hb
      cases hr
      exact h.ok hb
    · cases hr
  · rename_i e s' hr
    split at hr
    · cases hr
    · rename_i e' t' he
      cases hr
      exact h.error he

section
variable [DecidableEq ν]

def children (s : Listed ν β) (d : List ν) : List ν :=
  ((s.names.filter fun l => decide (l.dropLast = d) && (s.tree.node l).isSome).filterMap
    List.getLast?).dedup

theorem mem_children {s : Listed ν β} {d : List ν} {name : ν} : name ∈ s.children d ↔
    s.tree.node (d ++ [name]) ≠ none := by
  unfold children
  rw [List.mem_dedup, List.mem_filterMap]
  constructor
  · rintro ⟨l, hl, hlast⟩
    rw [List.mem_filter, Bool.and_eq_true, decide_eq_true_iff] at hl
    obtain ⟨-, hd, hsome⟩ := hl
    obtain ⟨up, rfl⟩ := List.getLast?_eq_some_iff.mp hlast
    rw [List.dropLast_concat] at hd
    rw [← hd]
    exact Option.isSome_iff_ne_none.mp hsome
  · intro hn
    refine ⟨d ++ [name], List.mem_filter.mpr ⟨s.covers _ hn, ?_⟩, by simp⟩
    rw [Bool.and_eq_true, decide_eq_true_iff, List.dropLast_concat]
    exact ⟨rfl, Option.isSome_iff_ne_none.mpr hn⟩

theorem nodup_children (s : Listed ν β) (d : List ν) : (s.children d).Nodup := List.nodup_dedup _

end

end Listed

/-! ## What changes touch -/

section
variable {ν β : Type} [NameLimit ν] {t t' : FileTree ν β} {loc src dst : List ν}
  {path : List (Component ν)} {b : β}

theorem Grows.refl (touched : List (List ν)) : Grows t t touched := fun _ hl => .inl hl

theorem Grows.fewer (h : ∀ l, t'.node l ≠ none → t'.node l = t.node l) (touched : List (List ν)) :
    Grows t t' touched := fun l hl =>
  .inl (h l hl ▸ hl)

variable [DecidableEq ν]

theorem grows_writeFile (h : t.writeFile loc b = some t') : Grows t t' [loc] := by
  intro l hl
  rw [(FileTree.writeFile_node h).2 l] at hl
  by_cases he : l = loc
  · exact .inr (List.mem_singleton.mpr he)
  · rw [if_neg he] at hl
    exact .inl hl

theorem grows_moveFile (h : t.moveFile src dst = some t') : Grows t t' [dst] := by
  obtain ⟨_, -, -, hnode⟩ := FileTree.moveFile_node h
  intro l hl
  rw [hnode l] at hl
  by_cases he : l = dst
  · exact .inr (List.mem_singleton.mpr he)
  · rw [if_neg he] at hl
    by_cases hs : l = src
    · rw [if_pos hs] at hl
      exact absurd rfl hl
    · rw [if_neg hs] at hl
      exact .inl hl

theorem grows_makeDirs (h : t.makeDirs loc path = some t') :
    Grows t t' (path.inits.map fun p => p.foldl Component.enter loc) := by
  intro l hl
  cases hn : t'.node l with
  | none => exact absurd hn hl
  | some x =>
    cases x with
    | dir =>
      rcases FileTree.isDir_of_makeDirs h (FileTree.isDir_iff.mpr hn) with hd | ⟨p, hp, he⟩
      · refine .inl ?_
        rw [FileTree.isDir_iff.mp hd]
        exact fun h => by cases h
      · exact .inr (List.mem_map.mpr ⟨p, (List.mem_inits p path).mpr hp, he.symm⟩)
    | file b =>
      have hf := FileTree.fileAt_iff.mpr hn
      rw [FileTree.fileAt_makeDirs h] at hf
      refine .inl ?_
      rw [FileTree.fileAt_iff.mp hf]
      exact fun h => by cases h

theorem grows_remove (hloc : loc ≠ []) (touched : List (List ν)) :
    Grows t (t.remove loc hloc) touched := by
  refine .fewer (fun l hl => ?_) touched
  rw [FileTree.node_remove] at hl ⊢
  by_cases hp : loc <+: l
  · rw [if_pos hp] at hl
    exact absurd rfl hl
  · rw [if_neg hp]

theorem grows_clear (touched : List (List ν)) : Grows t (t.clear loc) touched := by
  refine .fewer (fun l hl => ?_) touched
  rw [FileTree.node_clear] at hl ⊢
  by_cases hp : loc <+: l ∧ l ≠ loc
  · rw [if_pos hp] at hl
    exact absurd rfl hl
  · rw [if_neg hp]

end

end Basis

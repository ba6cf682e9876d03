import Crabtalk.Basis.Footprint
import Crabtalk.Store.Sessions

/-!
# What index work asks for

The rows of a text are written and dropped in the column of the index, and what
is put there is never a message. A record is looked up in one read.
-/

open Basis Prog

namespace Crabtalk.Store

variable {μ : Type}

def Indexing : KvOp μ → Prop
  | .put col _ v => col = .text ∧ ∀ e, v ≠ .entry e
  | .get col _ | .delete col _ | .scanKeys col _ | .scan col _ => col = .text

theorem within_getJson {α : Type} {P : KvOp μ → Prop} (decode : Value μ → Option α) {col : Column}
    {key : Str} (h : P (.get col key)) :
    Within P (getJson decode col key) := by
  unfold getJson
  refine (Within.perform h).bind ?_
  intro v
  cases v with
  | none => trivial
  | some v =>
    simp only
    cases decode v <;> trivial

theorem within_stats (index : TextIndex) : Within Indexing (stats index : KvM μ Stats) :=
  (within_getJson (P := Indexing) _ rfl).bind fun _ => trivial

theorem within_dropText (index : TextIndex) (key : Str) :
    Within Indexing (dropText index key : KvM μ Unit) := by
  unfold dropText
  refine (within_getJson (P := Indexing) _ rfl).bind ?_
  intro doc
  cases doc with
  | none => trivial
  | some doc =>
    refine Within.bind (Within.forM ?_) ?_
    · intro term _
      exact Within.bind (.perform rfl) fun _ => trivial
    · intro _
      refine Within.bind (.perform rfl) fun _ => ?_
      exact (within_stats index).bind fun _ => .perform ⟨rfl, nofun⟩

section
variable [TextStd]

theorem within_indexText (index : TextIndex) (key text : Str) (weight : ℚ) :
    Within Indexing (indexText index key text weight : KvM μ Unit) := by
  unfold indexText
  refine (within_dropText _ _).bind fun _ => ?_
  dsimp only
  split
  · trivial
  · refine Within.bind (.forM fun _ _ => .perform ⟨rfl, nofun⟩) fun _ => ?_
    refine Within.bind (.perform ⟨rfl, nofun⟩) fun _ => ?_
    exact (within_stats index).bind fun _ => .perform ⟨rfl, nofun⟩

theorem within_indexMetaText (h : Str) (m : SessionMeta) :
    Within Indexing (indexMetaText h m : KvM μ Unit) := by
  have htext : ∀ key text : Str, Within Indexing (metaText key text : KvM μ Unit) := by
    intro key text
    unfold metaText
    split
    · exact within_dropText _ _
    · exact within_indexText _ _ _ _
  rw [indexMetaText_eq]
  exact (htext _ _).bind fun _ => htext _ _

end

end Crabtalk.Store

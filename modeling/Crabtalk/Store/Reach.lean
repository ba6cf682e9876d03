import Crabtalk.Store.Isolation

/-! # The stores the interfaces can leave behind -/

open Basis

namespace Crabtalk.Store

variable {μ : Type} [Chrono]

structure Typed (s : Kv μ) : Prop where
  text : TextTyped s
  rows : RowsTyped s
  metas : MetasTyped s

section
variable {g : Str} {s s' : Kv μ}

theorem Typed.empty : Typed (∅ : Kv μ) where
  text := .empty
  rows k v hv := by simp at hv
  metas := ⟨fun a v hv => by simp at hv, fun a v hv => by simp at hv⟩

theorem Typed.kept (h : Typed s) : Kept g s s := .refl h.text h.rows h.metas

theorem Kept.typed (h : Kept g s s') : Typed s' := ⟨h.text, h.rows, h.metas⟩

theorem Typed.of_session (h : Typed s) (ht : TextTyped s')
    (hc : Changes (fun c => c.1 ≠ .session) s s') : Typed s' where
  text := ht
  rows k v hv hk := h.rows k v (by rw [← hc _ (by simp)]; exact hv) hk
  metas := h.metas.congr fun k => hc _ (by simp)

theorem Typed.index {index : TextIndex} {key : Str} (h : Typed s)
    (hi : Indexed (docCells index key) s s') : Typed s' :=
  h.of_session hi.1 (hi.2.mono fun c hc => by rw [hc.1]; decide)

end

section
variable [TextStd] [Wire μ]

/-- Stores reached by session operations on any handles, by the memory index
and by writes to the other columns, any of them cut short at any operation. -/
inductive Reached : Kv μ → Prop
  | empty : Reached ∅
  | session {s s' : Kv μ} {r : Except Error Unit} (g : Str) (op : SessionOp μ) : Reached s → op.Timed →
      Prog.Runs True memory (op.exec g) s r s' → Reached s'
  | remember {s s' : Kv μ} {r : Except Error Unit} (key text : Str) (weight : ℚ) : Reached s →
      Prog.Runs True memory (indexText .memory key text weight) s r s' → Reached s'
  | forget {s s' : Kv μ} {r : Except Error Unit} (key : Str) : Reached s →
      Prog.Runs True memory (dropText .memory key) s r s' → Reached s'
  | elsewhere {s s' : Kv μ} : Reached s → Changes (fun c => c.1 ≠ .session ∧ c.1 ≠ .text) s s' → Reached s'

theorem Reached.typed {s : Kv μ} (h : Reached s) : Typed s := by
  induction h with
  | empty => exact .empty
  | @session s s' r g op _ hop hr ih =>
    have := (keeps_exec (F := True) (g := g) hop ih.kept).runs hr
    cases r with
    | ok _ => exact this.typed
    | error _ => exact this.typed
  | @remember s s' r key text weight _ hr ih =>
    have := (wp_indexText (F := True) ih.text).runs hr
    cases r with
    | ok _ => exact ih.index this
    | error _ => exact ih.index this.2
  | @forget s s' r key _ hr ih =>
    have := (wp_dropText (F := True) ih.text).runs hr
    cases r with
    | ok _ => exact ih.index this
    | error _ => exact ih.index this.2
  | elsewhere _ hc ih =>
    exact ih.of_session (ih.text.of_eq fun k hk => hc k fun hp => hp.2 hk)
      (hc.mono fun c hp => hp.1)

end

end Crabtalk.Store

import Crabtalk.Backend.Names
import Crabtalk.Basis.Occurrences

/-!
# The edit tool

An edit names what it replaces, and is made without having read the file first
only because what it names is in one place. The harness counts, and leaves
reading and writing to the machine.
-/

open Basis
open Crabtalk.Store (Str)
open Crabtalk.Backend (utf8 fromUtf8)

namespace Crabtalk.Os

structure Edit where
  path : Str
  oldString : Str
  newString : Str
  deriving DecidableEq

/-- What the harness is given: its arguments as they are parsed, and a machine with files that are
read whole and replaced whole. A write that fails may have changed the file. -/
class Host (σ : Type) where
  parse : Bytes → Except Str Edit
  read : Str → σ → Except Str Bytes
  write : Str → Bytes → EStateM Str σ Unit
  file : Str → σ → Option Bytes
  of_read : ∀ {path s bytes}, read path s = .ok bytes → file path s = some bytes
  of_write : ∀ {path s s' bytes}, write path bytes s = .ok () s' → file path s' = some bytes

section
variable {σ : Type} [Host σ]

def edit (args : Bytes) (s : σ) : EStateM.Result Str σ Str :=
  match Host.parse σ args with
  | .error e => .error e s
  | .ok input =>
    if input.oldString = [] then .error "old_string must not be empty".toList s
    else if input.oldString = input.newString
      then .error "old_string and new_string are identical".toList s
    else
      match Host.read input.path s with
      | .error e => .error e s
      | .ok bytes =>
        match fromUtf8 bytes with
        | none => .error (input.path ++ " is not valid UTF-8".toList) s
        | some content =>
          match countMatches input.oldString content with
          | 0 => .error "old_string not found".toList s
          | 1 =>
            match Host.write input.path (utf8
              (replacen input.oldString input.newString 1 content)) s with
            | .error e s' => .error e s'
            | .ok () s' => .ok "ok".toList s'
          | count => .error ("old_string is not unique, found ".toList ++ Nat.toDigits 10 count ++
              " occurrences".toList) s

/-! ## What an edit does -/

structure Asked (args : Bytes) (s : σ) (input : Edit) (content : Str) : Prop where
  parsed : Host.parse σ args = .ok input
  nonempty : input.oldString ≠ []
  differs : input.oldString ≠ input.newString
  read : Host.read input.path s = .ok (utf8 content)

structure Found (args : Bytes) (s : σ) (input : Edit) (x y : Str) :
    Prop extends Asked args s input (x ++ input.oldString ++ y) where
  first : FirstAt input.oldString x y
  alone : ¬ TwoApart input.oldString (x ++ input.oldString ++ y)

variable {args : Bytes} {s s' : σ} {input : Edit} {x y : Str}

theorem edit_found (h : Found args s input x y) :
    edit args s =
      match Host.write input.path (utf8 (x ++ input.newString ++ y)) s with
      | .error e s' => .error e s'
      | .ok () s' => .ok "ok".toList s' := by
  have hone : countMatches input.oldString (x ++ input.oldString ++ y) = 1 :=
    (count_eq_one_iff h.nonempty).mpr ⟨⟨x, y, rfl⟩, h.alone⟩
  simp only [edit, h.parsed, h.nonempty, h.differs, h.read, Backend.fromUtf8_utf8, hone,
    replace_first h.nonempty h.first, if_false]

theorem edit_cases (args : Bytes) (s : σ) : (∃ e, edit args s = .error e s) ∨
    ∃ input x y, Found args s input x y := by
  unfold edit
  split
  · exact .inl ⟨_, rfl⟩
  · next input hparse =>
    split
    · exact .inl ⟨_, rfl⟩
    · next hne =>
      split
      · exact .inl ⟨_, rfl⟩
      · next hdiff =>
        split
        · exact .inl ⟨_, rfl⟩
        · next bytes hread =>
          split
          · exact .inl ⟨_, rfl⟩
          · next content hutf8 =>
            split
            · exact .inl ⟨_, rfl⟩
            · next hone =>
              obtain ⟨hin, hapart⟩ := (count_eq_one_iff hne).mp hone
              obtain ⟨x, y, rfl, hfirst⟩ := exists_first hin
              rw [Backend.utf8_of_fromUtf8 hutf8] at hread
              exact .inr ⟨input, x, y, ⟨hparse, hne, hdiff, hread⟩, hfirst, hapart⟩
            · exact .inl ⟨_, rfl⟩

/-! ## The promise -/

/-- The file is written where the string is in one place, with that place replaced, and an error
leaves all files as they were. -/
structure EditsOnce (args : Bytes) (s : σ) : Prop where
  once : ∀ out s', edit args s = .ok out s' → ∃ input x y, Host.parse σ args = .ok input ∧
    Host.file input.path s = some (utf8 (x ++ input.oldString ++ y)) ∧ OnlyAt input.oldString x y ∧
    Host.file input.path s' = some (utf8 (x ++ input.newString ++ y))
  kept : ∀ e s', edit args s = .error e s' → ∀ path, Host.file path s' = Host.file path s
  done : ∀ input x y, Asked args s input (x ++ input.oldString ++ y) → OnlyAt input.oldString x y →
    ∀ s', Host.write input.path (utf8 (x ++ input.newString ++ y)) s = .ok () s' →
    edit args s = .ok "ok".toList s'

/-- It holds unless two places overlap and no two are apart, or a write fails that has changed a file. -/
theorem edit_once (args : Bytes) (s : σ) :
    EditsOnce args s ↔ ∀ input x y, Found args s input x y →
      match Host.write input.path (utf8 (x ++ input.newString ++ y)) s with
      | .error _ s' => ∀ path, Host.file path s' = Host.file path s
      | .ok () _ => OnlyAt input.oldString x y := by
  constructor
  · intro h input x y hf
    have hrun := edit_found hf
    split at hrun
    · next e s' hw => exact h.kept e s' hrun
    · next s' hw =>
      obtain ⟨input', x', y', hparse, hfile, hunique, -⟩ := h.once _ s' hrun
      rw [hf.parsed, Except.ok.injEq] at hparse
      -- the old string stands in the text at one place only
      subst hparse
      rw [Host.of_read hf.read, Option.some.injEq] at hfile
      have heq := Backend.utf8_inj hfile
      have hx := hunique x y heq.symm
      subst hx
      have hy := List.append_cancel_left heq
      subst hy
      exact hunique
  · intro h
    refine ⟨fun out s' hrun => ?_, fun e s' hrun => ?_, fun input x y hasked hunique s' hw => ?_⟩
    · rcases edit_cases args s with ⟨e, he⟩ | ⟨input, x, y, hf⟩
      · rw [he] at hrun
        cases hrun
      · have hunique := h input x y hf
        rw [edit_found hf] at hrun
        split at hrun
        · cases hrun
        · next s'' hw =>
          cases hrun
          rw [hw] at hunique
          exact ⟨input, x, y, hf.parsed, Host.of_read hf.read, hunique, Host.of_write hw⟩
    · rcases edit_cases args s with ⟨e', he⟩ | ⟨input, x, y, hf⟩
      · rw [he] at hrun
        cases hrun
        exact fun _ => rfl
      · have hkept := h input x y hf
        rw [edit_found hf] at hrun
        split at hrun
        · next hw =>
          cases hrun
          rw [hw] at hkept
          exact hkept
        · cases hrun
    · rw [edit_found ⟨hasked, hunique.first, hunique.not_twoApart hasked.nonempty⟩, hw]

end

/-! ## Two places that overlap -/

def overlapArgs : Bytes := utf8
    "\x7b\"path\":\"f\",\"old_string\":\"aa\",\"new_string\":\"b\"\x7d".toList

structure OneFile where
  bytes : Bytes

instance : Host OneFile where
  parse args := if args = overlapArgs then .ok ⟨"f".toList, "aa".toList, "b".toList⟩
    else .error "invalid arguments".toList
  read path s := if path = "f".toList then .ok s.bytes else .error "no such file".toList
  write path bytes s := if path = "f".toList then .ok () ⟨bytes⟩ else .error "no such file".toList s
  file path s := if path = "f".toList then some s.bytes else none
  of_read := by
    intro path s bytes h
    split at h <;> cases h
    exact if_pos ‹_›
  of_write := by
    intro path s s' bytes h
    split at h <;> cases h
    exact if_pos ‹_›

/-- The text is at its start and one character further. -/
theorem edit_overlap : ¬ EditsOnce overlapArgs (OneFile.mk (utf8 "aaa".toList)) := by
  intro h
  have halone : ¬ TwoApart "aa".toList "aaa".toList :=
    ((count_eq_one_iff (by decide)).mp (by decide)).2
  have hf : Found overlapArgs (OneFile.mk (utf8 "aaa".toList)) ⟨"f".toList, "aa".toList,
      "b".toList⟩ [] ['a'] :=
    ⟨⟨if_pos rfl, by decide, by decide, rfl⟩, fun _ _ _ => Nat.zero_le _, halone⟩
  obtain ⟨input, x, y, hparse, hfile, hunique, -⟩ := h.once _ _ (edit_found hf)
  cases hf.parsed.symm.trans hparse
  have heq : x ++ "aa".toList ++ y = "aaa".toList := Backend.utf8_inj (Option.some.inj hfile).symm
  have hfirst := hunique [] ['a'] heq
  have hsecond := hunique ['a'] [] heq
  rw [← hfirst] at hsecond
  cases hsecond

end Crabtalk.Os

import Crabtalk.Store.Sessions

/-! # Plain instances

Text in ASCII, wire messages that carry nothing but text or one block, and a clock. They
are what the concrete runs below are evaluated with.
-/

namespace Crabtalk.Store.Plain

structure Message where
  role : Str
  text : Str
  deriving DecidableEq

instance : Wire Message where
  role := Message.role
  text := Message.text
  toolNames _ := []
  hasToolResult _ := false
  user s := ⟨"user".toList, s⟩
  system s := ⟨"system".toList, s⟩
  assistant s _ := ⟨"assistant".toList, s⟩
  role_user _ := rfl
  role_system _ := rfl
  role_assistant _ _ := rfl

/-- A message of one block. What a tool returned is its text, as it is in the provider library. -/
inductive Block
  | text (role content : Str)
  | toolUse (name arguments : Str)
  | toolResult (name content : Str)
  deriving DecidableEq

instance : Wire Block where
  role
    | .text role _ => role
    | .toolUse _ _ => "assistant".toList
    | .toolResult _ _ => "user".toList
  text
    | .text _ content => content
    | .toolUse _ _ => []
    | .toolResult _ content => content
  toolNames
    | .toolUse name _ => [name]
    | _ => []
  hasToolResult
    | .toolResult _ _ => true
    | _ => false
  user := .text "user".toList
  system := .text "system".toList
  assistant s _ := .text "assistant".toList s
  role_user _ := rfl
  role_system _ := rfl
  role_assistant _ _ := rfl

theorem slash_not_alphanum : Char.isAlphanum '/' = false := rfl

theorem toLower_of_lower {c : Char} (h : c.isLower = true) : c.toLower = c := by
  delta Char.isLower at h
  have hl : 97 ≤ c.toNat := of_decide_eq_true (Bool.and_eq_true_iff.mp h).1
  refine dif_neg fun hu => ?_
  have hu : c.toNat ≤ 90 := hu.2
  omega

theorem map_toLower {w : Str} (h : w.all Char.isLower = true) : w.map Char.toLower = w := by
  rw [List.all_eq_true] at h
  exact (List.map_congr_left fun c hc => toLower_of_lower (h c hc)).trans (List.map_id w)

/-- The 26 letters that change are not taken to a slash. -/
theorem slash_of_toLower {c : Char} (h : c.toLower = '/') : c = '/' := by
  by_cases hu : c.val ≥ 'A'.val ∧ c.val ≤ 'Z'.val
  · have hv : c.val + 32 = 47 := congrArg Char.val ((dif_pos hu).symm.trans h)
    have hlow : 65 ≤ c.val.toNat := hu.1
    have hhigh : c.val.toNat ≤ 90 := hu.2
    have hsum := congrArg UInt32.toNat hv
    rw [UInt32.toNat_add] at hsum
    have hlt : c.val.toNat + 32 < 2 ^ 32 := by omega
    have hnat : c.val.toNat + 32 = 47 := (Nat.mod_eq_of_lt hlt).symm.trans hsum
    omega
  · exact (dif_neg hu).symm.trans h

theorem slash_of_map_toLower {w : Str} (h : '/' ∈ w.map Char.toLower) : '/' ∈ w := by
  obtain ⟨c, hc, he⟩ := List.mem_map.mp h
  exact slash_of_toLower he ▸ hc

scoped instance ascii : TextStd where
  isAlphanumeric := Char.isAlphanum
  toLowercase := List.map Char.toLower
  hashOrder := id
  slash_not_alphanumeric := slash_not_alphanum
  ascii_alphanumeric _ h := h
  ascii_toLowercase _ := map_toLower
  slash_toLowercase _ := slash_of_map_toLower
  hashOrder_perm := List.Perm.refl

scoped instance utc : Chrono where
  IsTimestamp t := '/' ∉ t ∧ "+00:00".toList <:+ t
  slash_notMem _ h := h.1

end Crabtalk.Store.Plain

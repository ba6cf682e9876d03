import Crabtalk.Store.Kv

/-! # One turn of a session, as persisted -/

namespace Crabtalk.Store

/-- What the store and the runtime use of the wire messages of the provider library. -/
class Wire (μ : Type) where
  role : μ → Str
  text : μ → Str
  toolNames : μ → List Str
  hasToolResult : μ → Bool
  user : Str → μ
  system : Str → μ
  assistant : Str → Option Str → μ
  role_user : ∀ s, role (user s) = "user".toList
  role_system : ∀ s, role (system s) = "system".toList
  role_assistant : ∀ s r, role (assistant s r) = "assistant".toList

inductive Role
  | user
  | assistant
  | system
  deriving DecidableEq

variable {μ : Type} [Wire μ]

namespace HistoryEntry

def fromMessage (message : μ) : HistoryEntry μ :=
  { agent := [], sender := [], autoInjected := false, message }

def user (content : Str) : HistoryEntry μ := fromMessage (Wire.user content)

def system (content : Str) : HistoryEntry μ := fromMessage (Wire.system content)

def userWithSender (content sender : Str) : HistoryEntry μ := { user content with sender }

def assistant (content : Str) (reasoning : Option Str) : HistoryEntry μ :=
  fromMessage (Wire.assistant content reasoning)

def inject (e : HistoryEntry μ) : HistoryEntry μ := { e with autoInjected := true }

def role (e : HistoryEntry μ) : Role :=
  if Wire.role e.message = "assistant".toList then .assistant
  else if Wire.role e.message = "system".toList then .system
  else .user

/-- Text and role tag for the search index. Tool results, tool-call arguments
and injected framing are never indexed. -/
def indexable (e : HistoryEntry μ) : Option (Str × Str) :=
  if e.autoInjected then none
  else if e.role = .system ∨ Wire.hasToolResult e.message then none
  else if Wire.text e.message ≠ [] then
    some (Wire.text e.message, if e.role = .user then "user".toList else "assistant".toList)
  else
    let names := Wire.toolNames e.message
    if names = [] then none
    else some ([' '].intercalate names, if e.role = .user then "user".toList
      else "assistant_tool".toList)

end HistoryEntry

end Crabtalk.Store

import Crabtalk.Runtime.Batch
import Crabtalk.Runtime.Pairing

/-! # Who a tool call acts for

The sender of a dispatch is that of the last user entry. A tool result counts
as one, and it has no sender. -/

open Crabtalk.Store

namespace Crabtalk.Runtime

variable {η β μ : Type} [AgentWire μ] (c : Codec η β μ)

section
variable {model : Str} {r : Round η} {s : Loop μ}

end

/-! ## The run -/

end Crabtalk.Runtime

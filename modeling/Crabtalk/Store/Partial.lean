import Crabtalk.Basis.Footprint
import Crabtalk.Store.Compaction
import Crabtalk.Store.Written

/-! # A batch that is stored in part

The messages of a batch are put one by one, each followed by its index rows,
and the counter comes last. Readers list by key and do not wait for it.
-/

open Basis Prog

namespace Crabtalk.Store

variable {μ : Type}

/-! ## Stored entries are as they are read -/

def Tidy : KvOp μ → Prop
  | .put _ _ (.entry e) => e.persist = e
  | _ => True

section
variable [TextStd]

variable [Wire μ]

section
variable {h : Str} {idx : Nat} {e : HistoryEntry μ} {es : List (HistoryEntry μ)} {s : Kv μ}

variable [SearchStd μ]

end

variable [Chrono] [SearchStd μ]

section
variable {h now : Str} {es : List (HistoryEntry μ)} {m : SessionMeta} {s : Kv μ} {n : Nat}

end

end

/-! ## A session without messages -/

section
open Plain

end

end Crabtalk.Store

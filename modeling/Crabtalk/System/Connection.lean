import Crabtalk.Basis.Frames
import Crabtalk.Basis.Reachable
import Crabtalk.Store.Kv

/-! # One connection, many calls

A client writes requests and reads replies as frames on one socket. The server
reads the requests one by one and answers each from a task of its own. Nothing
in a reply says which request it is for.
-/

open Basis

namespace Crabtalk.System

open Store

/-! ## Messages -/

/-- How the server answers: with one message, with a stream that ends, or for as long as the
connection lasts. -/
inductive Kind
  | unary
  | stream
  | subscription
  deriving DecidableEq

inductive ServerMessage (μ : Type)
  | reply (m : μ)
  | event (m : μ)
  | done (m : μ)
  | error (code : Nat) (message : Str)
  deriving DecidableEq

def ServerMessage.terminal {μ : Type} : ServerMessage μ → Bool
  | .done _ | .error _ _ => true
  | _ => false

structure Codec (α : Type) where
  encode : α → Bytes
  decode : Bytes → Option α
  roundtrip : ∀ a, decode (encode a) = some a

def maxFrameSize : Nat := 16 * 1024 * 1024

/-- Bytes of the numbered call, or of none when the server answers what no client wrote. -/
abbrev Wire := List (Option Nat × UInt8)

/-- `write_message`. The size is compared after it is cut to 32 bits. -/
def writeMessage {α : Type} (codec : Codec α) (owner : Option Nat) (m : α) : Option Wire :=
  if maxFrameSize < (codec.encode m).length % 2 ^ 32 then none
    else some (frame owner (codec.encode m))

def splitFrame (wire : Wire) : Option (Wire × Bytes × Wire) :=
  let n := 4 + ofHeader ((bare wire).take 4)
  match progress maxFrameSize (wire.take n) with
  | .whole data => some (wire.take n, data, wire.drop n)
  | _ => none

/-! ## Client and server -/

/-- A call under way: what is still to be written, and the bytes read of a frame that is not
whole. -/
structure Call where
  number : Nat
  kind : Kind
  unwritten : Wire
  started : Bool
  buf : Wire
  deriving DecidableEq

/-- The socket in both directions, the tasks of the server, and the call the client is in.
`returned` is what the calls gave back, with the call the frame was written for. -/
structure Connection (μ : Type) where
  toServer : Wire
  toClient : Wire
  tasks : List (Option Nat × Kind)
  serverDown : Bool
  call : Option Call
  count : Nat
  abandoned : Bool
  returned : List (Nat × Option Nat × ServerMessage μ)

namespace Connection

variable {α μ : Type} (asks : Codec α) (kind : α → Kind) (replies : Codec (ServerMessage μ))

def new : Connection μ := ⟨[], [], [], false, none, 0, false, []⟩

/-- `request` and `request_stream`, up to the first write. -/
def ask (w : Connection μ) (m : α) : Connection μ :=
  match writeMessage asks (some w.count) m with
  | none => { w with count := w.count + 1 }
  | some unwritten =>
    { w with call := some ⟨w.count, kind m, unwritten, false, []⟩, count := w.count + 1 }

/-- The server takes the next request off the socket, or hangs up on bytes it cannot read. -/
def receive (w : Connection μ) (bytes : Wire) (data : Bytes) (rest : Wire) : Connection μ :=
  match asks.decode data with
  | none => { w with serverDown := true, toServer := rest }
  | some m => { w with toServer := rest, tasks := w.tasks ++ [((Basis.owner bytes).join, kind m)] }

def allowed : Kind → ServerMessage μ → Bool
  | .unary, _ => true
  | .stream, _ => true
  | .subscription, m => !m.terminal

def last : Kind → ServerMessage μ → Bool
  | .unary, _ => true
  | .stream, m => m.terminal
  | .subscription, _ => false

def closes : Kind → ServerMessage μ → Bool
  | .unary, _ => true
  | .stream, m => m.terminal
  | .subscription, .error _ _ => true
  | .subscription, _ => false

def deliver (w : Connection μ) (c : Call) (data : Bytes) : Connection μ :=
  match replies.decode data with
  | none => { w with call := none }
  | some m =>
    { w with
      call := if closes c.kind m then none else some { c with buf := [] }
      returned := w.returned ++ [(c.number, (Basis.owner c.buf).join, m)] }

inductive Act (α μ : Type)
  | ask (m : α)
  | push
  | receive
  | reply (i : Nat) (m : ServerMessage μ)
  | pull
  | deliver
  | drop

/-- The client polls and drops its calls, and the server reads and answers, byte by byte and frame
by frame. -/
def perform (w : Connection μ) : Act α μ → Option (Connection μ)
  | .ask m => if w.call.isNone then some (ask asks kind w m) else none
  | .push =>
    match w.call with
    | some c =>
      match c.unwritten with
      | b :: rest =>
        some
          { w with call := some { c with unwritten := rest, started := true }, toServer := w.toServer ++ [b] }
      | [] => none
    | none => none
  | .receive =>
    if w.serverDown then none
    else (splitFrame w.toServer).map fun (bytes, data, rest) => receive asks kind w bytes data rest
  | .reply i m =>
    if w.serverDown then none
    else
      match w.tasks[i]? with
      | some (number, k) =>
        if allowed k m then
          match writeMessage replies number m with
          | none => some { w with serverDown := true }
          | some bytes =>
            some
              { w with toClient := w.toClient ++ bytes, tasks := if last k m then w.tasks.eraseIdx i else w.tasks }
        else none
      | none => none
  | .pull =>
    match w.call, w.toClient with
    | some c, b :: rest =>
      match c.unwritten, progress maxFrameSize c.buf with
      | [], .more => some { w with call := some { c with buf := c.buf ++ [b] }, toClient := rest }
      | _, _ => none
    | _, _ => none
  | .deliver =>
    match w.call with
    | some c =>
      match progress maxFrameSize c.buf with
      | .more => none
      | .tooLarge => some { w with call := none }
      | .whole data => some (deliver replies w c data)
    | none => none
  | .drop => w.call.map fun c => { w with call := none, abandoned := w.abandoned || c.started }

/-! ## Every call read to its end -/

variable {asks kind replies} {w w' : Connection μ} {a : Act α μ}

/-- No message is 4 GiB long, and a call is made only where each one before was read to its last
message or dropped before it wrote anything. -/
def Drained (asks : Codec α) (replies : Codec (ServerMessage μ)) (w : Connection μ) : Act α μ → Prop
  | .ask m => w.abandoned = false ∧ (asks.encode m).length < 2 ^ 32
  | .reply _ m => (replies.encode m).length < 2 ^ 32
  | _ => True

instance : ∀ a : Act α μ, Decidable (Drained asks replies w a)
  | .ask _ => inferInstanceAs (Decidable (_ ∧ _))
  | .reply _ _ => inferInstanceAs (Decidable (_ < _))
  | .push | .receive | .pull | .deliver | .drop => inferInstanceAs (Decidable True)

def Fits (data : Bytes) : Prop := data.length < 2 ^ 32 ∧ data.length ≤ maxFrameSize

theorem writeMessage_fits {β : Type} {codec : Codec β} {number : Option Nat} {m : β} {bytes : Wire}
    (h : writeMessage codec number m = some bytes)
    (h32 : (codec.encode m).length < 2 ^ 32) : bytes = frame number (codec.encode m) ∧
    Fits (codec.encode m) := by
  unfold writeMessage at h
  rw [Nat.mod_eq_of_lt h32] at h
  split at h
  · cases h
  · rename_i hmax
    cases h
    exact ⟨rfl, h32, Nat.le_of_not_lt hmax⟩

def frames (replies : Codec (ServerMessage μ)) (k : Nat) (ms : List (ServerMessage μ)) : Wire :=
  ms.flatMap fun m => frame (some k) (replies.encode m)

/-- The task of the request has sent `ms` and goes on, or has ended with the last of them. -/
def Script (k : Nat) (kd : Kind) (tasks : List (Option Nat × Kind)) (ms : List (ServerMessage μ)) : Prop :=
  (tasks = [(some k, kd)] ∧ ∀ m ∈ ms, last kd m = false) ∨
    (tasks = [] ∧ ∃ init m, ms = init ++ [m] ∧ last kd m = true ∧ ∀ m ∈ init, last kd m = false)

def Asking (asks : Codec α) (kind : α → Kind) (w : Connection μ) (c : Call) : Prop :=
  ∃ m, kind m = c.kind ∧ Fits (asks.encode m) ∧ w.toServer ++ c.unwritten =
    frame (some c.number) (asks.encode m) ∧
    (c.started = false → w.toServer = []) ∧ w.tasks = [] ∧ w.toClient = [] ∧ c.buf = []

def Answering (replies : Codec (ServerMessage μ)) (w : Connection μ) (c : Call) : Prop :=
  c.unwritten = [] ∧ w.toServer = [] ∧ c.started = true ∧
    ∃ ms, c.buf ++ w.toClient = frames replies c.number ms ∧
    Script c.number c.kind w.tasks ms ∧
    (∀ m ∈ ms, Fits (replies.encode m) ∧ allowed c.kind m = true) ∧
    ∀ m ms', ms = m :: ms' → c.buf.length ≤ 4 + (replies.encode m).length

def Idle (w : Connection μ) : Prop := w.toServer = [] ∧ w.toClient = [] ∧ w.tasks = []

def Aligned (asks : Codec α) (kind : α → Kind) (replies : Codec (ServerMessage μ))
    (w : Connection μ) : Prop :=
  match w.call with
  | none => w.Idle
  | some c => Asking asks kind w c ∨ Answering replies w c

/-- Whatever was returned was for the call, and the next call, if there is one, finds the wire in order. -/
structure InOrder (asks : Codec α) (kind : α → Kind) (replies : Codec (ServerMessage μ))
    (w : Connection μ) : Prop where
  own : ∀ e ∈ w.returned, e.2.1 = some e.1
  aligned : w.abandoned = false → Aligned asks kind replies w
  ended : w.abandoned = true → w.call = none

theorem Aligned.calling {c : Call} (h : Aligned asks kind replies w) (hc : w.call = some c) :
    Asking asks kind w c ∨ Answering replies w c := by
  unfold Aligned at h
  rw [hc] at h
  exact h

theorem Aligned.idle (h : Aligned asks kind replies w) (hc : w.call = none) : w.Idle := by
  unfold Aligned at h
  rw [hc] at h
  exact h

theorem last_eq_closes {kd : Kind} {m : ServerMessage μ} (h : allowed kd m = true) :
    closes kd m = last kd m := by
  cases kd with
  | unary => rfl
  | stream => rfl
  | subscription => cases m <;> first | rfl | cases h

/-! ### The client writes -/

theorem InOrder.ask (h : InOrder asks kind replies w) {m : α} (hc : w.call = none)
    (hd : Drained asks replies w (.ask m)) :
    InOrder asks kind replies (ask asks kind w m) := by
  obtain ⟨hab, h32⟩ := hd
  have hidle := (h.aligned hab).idle hc
  unfold Connection.ask
  split
  · refine ⟨h.own, fun _ => ?_, h.ended⟩
    unfold Aligned
    dsimp only
    rw [hc]
    exact hidle
  · rename_i bytes hw
    obtain ⟨rfl, hfits⟩ := writeMessage_fits hw h32
    refine ⟨h.own, fun _ => .inl ⟨m, rfl, hfits, ?_, fun _ => hidle.1, hidle.2.2, hidle.2.1, rfl⟩,
      fun hab' => ?_⟩
    · dsimp only
      rw [hidle.1, List.nil_append]
    · have hab' : w.abandoned = true := hab'
      rw [hab] at hab'
      cases hab'

theorem Asking.push {c : Call} {b : Option Nat × UInt8} {rest : Wire} (h : Asking asks kind w c)
    (hu : c.unwritten = b :: rest) :
    Asking asks kind
    { w with call := some { c with unwritten := rest, started := true }, toServer := w.toServer ++ [b] }
      { c with unwritten := rest, started := true } := by
  obtain ⟨m, hk, hfits, hw, -, ht, hcl, hb⟩ := h
  refine ⟨m, hk, hfits, ?_, fun hs => (by cases hs), ht, hcl, hb⟩
  dsimp only
  rw [← hw, hu, List.append_assoc, List.singleton_append]

/-! ### The server -/

/-- A frame is split off only when the last of its bytes is there. -/
theorem splitFrame_eq {wire unwritten bytes rest : Wire} {t : Option Nat} {d data : Bytes}
    (h : wire ++ unwritten = frame t d) (hfits : Fits d)
    (hs : splitFrame wire = some (bytes, data, rest)) : bytes = frame t d ∧ data = d ∧ rest = [] ∧
    unwritten = [] := by
  unfold splitFrame at hs
  dsimp only at hs
  split at hs
  · rename_i data' hp
    cases hs
    have hcut : wire.take (4 + ofHeader ((bare wire).take 4)) ++
        (wire.drop (4 + ofHeader ((bare wire).take 4)) ++ unwritten) = frame t d ++ [] := by
      rw [← List.append_assoc, List.take_append_drop, h, List.append_nil]
    have hshort : (wire.take (4 + ofHeader ((bare wire).take 4))).length ≤ 4 + d.length := by
      by_cases hfour : wire.length < 4
      · have htake := List.length_take_le (4 + ofHeader ((bare wire).take 4)) wire
        have hle : (wire.take (4 + ofHeader ((bare wire).take 4))).length ≤ wire.length :=
          List.length_take_le' _ _
        omega
      · rw [header_of_append (by rw [h, List.append_nil] : wire ++ unwritten = frame t d ++ []) hfits.1 hfour]
        exact List.length_take_le _ _
    obtain ⟨hb, hr, hdata⟩ := progress_whole hcut hfits.1 hshort hp
    obtain ⟨hrest, hu⟩ := List.append_eq_nil_iff.mp hr
    exact ⟨hb, hdata, hrest, hu⟩
  · cases hs

theorem InOrder.receive (h : InOrder asks kind replies w) {bytes rest : Wire} {data : Bytes}
    (hs : splitFrame w.toServer = some (bytes, data, rest)) : InOrder asks kind replies
    (receive asks kind w bytes data rest) := by
  have hcall : (Connection.receive asks kind w bytes data rest).call = w.call := by
    unfold Connection.receive
    split <;> rfl
  have hab : (Connection.receive asks kind w bytes data rest).abandoned = w.abandoned := by
    unfold Connection.receive
    split <;> rfl
  have hret : (Connection.receive asks kind w bytes data rest).returned = w.returned := by
    unfold Connection.receive
    split <;> rfl
  refine ⟨fun e he => h.own e (hret ▸ he), fun ha => ?_, fun ha => hcall.trans (h.ended (hab ▸ ha))⟩
  have hal := h.aligned (hab ▸ ha)
  have hempty : w.toServer ≠ [] := by
    intro hnil
    rw [hnil] at hs
    cases hs
  cases hc : w.call with
  | none => exact absurd (hal.idle hc).1 hempty
  | some c =>
    rcases hal.calling hc with hask | hans
    -- the frame is the request of the call under way, and nothing is behind it
    · obtain ⟨m, hk, hfits, hw, hstart, ht, hcl, hb⟩ := hask
      obtain ⟨rfl, rfl, rfl, hu⟩ := splitFrame_eq hw hfits hs
      have hstarted : c.started = true := by
        cases hst : c.started with
        | true => rfl
        | false => exact absurd (hstart hst) hempty
      unfold Aligned
      rw [hcall, hc]
      right
      unfold Connection.receive
      rw [asks.roundtrip, owner_frame]
      refine ⟨hu, rfl, hstarted, [], ?_, .inl ⟨?_, fun m hm => (by cases hm)⟩,
        fun m hm => (by cases hm), fun m ms' hms => (by cases hms)⟩
      · dsimp only
        rw [hb, hcl]
        rfl
      · dsimp only
        rw [ht, hk]
        rfl
    · exact absurd hans.2.1 hempty

theorem Script.task {k : Nat} {kd : Kind} {tasks : List (Option Nat × Kind)}
    {ms : List (ServerMessage μ)} (h : Script k kd tasks ms)
    {i : Nat} {x : Option Nat × Kind} (hx : tasks[i]? = some x) : tasks = [(some k, kd)] ∧ i = 0 ∧
    x = (some k, kd) ∧ ∀ m ∈ ms, last kd m = false := by
  rcases h with ⟨ht, hms⟩ | ⟨ht, -⟩
  · rw [ht] at hx
    have hi := (List.getElem?_eq_some_iff.mp hx).1
    have hzero : i = 0 := by simpa using hi
    subst hzero
    exact ⟨ht, rfl, (Option.some.inj hx).symm, hms⟩
  · rw [ht] at hx
    cases hx

theorem InOrder.reply (h : InOrder asks kind replies w) {i : Nat} {m : ServerMessage μ}
    {number : Option Nat} {k : Kind} {bytes : Wire}
    (ht : w.tasks[i]? = some (number, k)) (ha : allowed k m = true)
    (hw : writeMessage replies number m = some bytes)
    (h32 : (replies.encode m).length < 2 ^ 32) :
    InOrder asks kind replies
    { w with toClient := w.toClient ++ bytes, tasks := if last k m then w.tasks.eraseIdx i else w.tasks } := by
  refine ⟨h.own, fun hab => ?_, h.ended⟩
  have hal := h.aligned hab
  have hsome : w.tasks ≠ [] := by
    intro hnil
    rw [hnil] at ht
    cases ht
  cases hc : w.call with
  | none => exact absurd (hal.idle hc).2.2 hsome
  | some c =>
    rcases hal.calling hc with hask | hans
    · obtain ⟨_, _, _, _, _, hnil, _⟩ := hask
      exact absurd hnil hsome
    · obtain ⟨hu, hserver, hstarted, ms, hms, hscript, hfit, hshort⟩ := hans
      -- the task that replies is the one of the call under way
      obtain ⟨htasks, rfl, hx, hnotlast⟩ := hscript.task ht
      cases hx
      obtain ⟨rfl, hfits⟩ := writeMessage_fits hw h32
      unfold Aligned
      dsimp only
      right
      refine ⟨hu, hserver, hstarted, ms ++ [m], ?_, ?_, fun m' hm' => ?_, fun m₁ ms' hms' => ?_⟩
      · dsimp only
        unfold frames at hms ⊢
        rw [← List.append_assoc, hms, List.flatMap_append]
        simp
      · dsimp only
        split
        · rename_i hlast
          exact .inr ⟨by rw [htasks]; rfl, ms, m, rfl, hlast, hnotlast⟩
        -- another message of the stream follows
        · rename_i hlast
          refine .inl ⟨htasks, fun m' hm' => ?_⟩
          rcases List.mem_append.mp hm' with hm' | hm'
          · exact hnotlast m' hm'
          · rw [List.mem_singleton.mp hm']
            exact Bool.not_eq_true _ ▸ hlast
      · rcases List.mem_append.mp hm' with hm' | hm'
        · exact hfit m' hm'
        · rw [List.mem_singleton.mp hm']
          exact ⟨hfits, ha⟩
      · cases ms with
        | nil =>
          have hbuf : c.buf = [] := (List.append_eq_nil_iff.mp hms).1
          rw [hbuf]
          exact Nat.zero_le _
        | cons m₀ rest =>
          rw [List.cons_append] at hms'
          cases hms'
          exact hshort m₁ rest rfl

/-! ### The client reads -/

theorem InOrder.pull (h : InOrder asks kind replies w) {c : Call} {b : Option Nat × UInt8}
    {rest : Wire} (hc : w.call = some c)
    (hw : w.toClient = b :: rest) (hm : progress maxFrameSize c.buf = .more) :
    InOrder asks kind replies
    { w with call := some { c with buf := c.buf ++ [b] }, toClient := rest } := by
  refine ⟨h.own, fun hab => ?_, fun hab => ?_⟩
  · rcases (h.aligned hab).calling hc with hask | hans
    · obtain ⟨_, _, _, _, _, _, hnil, _⟩ := hask
      rw [hw] at hnil
      cases hnil
    · obtain ⟨hu, hserver, hstarted, ms, hms, hscript, hfit, hshort⟩ := hans
      refine .inr ⟨hu, hserver, hstarted, ms, ?_, hscript, hfit, fun m ms' hms' => ?_⟩
      · dsimp only
        rw [← hms, hw, List.append_assoc, List.singleton_append]
      · subst hms'
        obtain ⟨⟨h32, hmax⟩, -⟩ := hfit m List.mem_cons_self
        have hlt := progress_more hms h32 hmax hm
        simp only [List.length_append, List.length_singleton]
        omega
  · have hended := h.ended hab
    rw [hc] at hended
    cases hended

theorem Script.tail {k : Nat} {kd : Kind} {tasks : List (Option Nat × Kind)} {m : ServerMessage μ}
    {ms : List (ServerMessage μ)}
    (h : Script k kd tasks (m :: ms)) : if last kd m then tasks = [] ∧
    ms = [] else Script k kd tasks ms := by
  rcases h with ⟨ht, hms⟩ | ⟨ht, init, m', heq, hm', hinit⟩
  · rw [hms m List.mem_cons_self]
    exact .inl ⟨ht, fun m' hm' => hms m' (List.mem_cons_of_mem _ hm')⟩
  · cases init with
    | nil =>
      cases heq
      rw [if_pos hm']
      exact ⟨ht, rfl⟩
    | cons m₀ init =>
      cases heq
      rw [hinit m List.mem_cons_self]
      exact .inr ⟨ht, init, m', rfl, hm', fun m hm => hinit m (List.mem_cons_of_mem _ hm)⟩

theorem Answering.head {c : Call} {data : Bytes} (h : Answering replies w c)
    (hp : progress maxFrameSize c.buf = .whole data) :
    ∃ m ms, data = replies.encode m ∧ c.buf = frame (some c.number) data ∧
    w.toClient = frames replies c.number ms ∧
      Script c.number c.kind w.tasks (m :: ms) ∧ ∀ m' ∈ m :: ms, Fits (replies.encode m') ∧
      allowed c.kind m' = true := by
  obtain ⟨-, -, -, ms, hms, hscript, hfit, hshort⟩ := h
  cases ms with
  | nil =>
    have hbuf : c.buf = [] := (List.append_eq_nil_iff.mp hms).1
    rw [hbuf] at hp
    cases hp
  | cons m ms =>
    obtain ⟨⟨h32, -⟩, -⟩ := hfit m List.mem_cons_self
    obtain ⟨hb, hr, hd⟩ := progress_whole hms h32 (hshort m ms rfl) hp
    exact ⟨m, ms, hd, hd ▸ hb, hr, hscript, hfit⟩

theorem InOrder.deliver (h : InOrder asks kind replies w) {c : Call} {data : Bytes}
    (hc : w.call = some c)
    (hp : progress maxFrameSize c.buf = .whole data) : InOrder asks kind replies
    (deliver replies w c data) := by
  have hab : w.abandoned = false := by
    cases hab : w.abandoned with
    | false => rfl
    | true =>
      have hended := h.ended hab
      rw [hc] at hended
      cases hended
  rcases (h.aligned hab).calling hc with hask | hans
  · obtain ⟨_, _, _, _, _, _, _, hnil⟩ := hask
    rw [hnil] at hp
    cases hp
  · obtain ⟨m, ms, rfl, hbuf, hrest, hscript, hfit⟩ := hans.head hp
    obtain ⟨hu, hserver, hstarted, -⟩ := hans
    unfold Connection.deliver
    rw [replies.roundtrip]
    refine ⟨fun e he => ?_, fun _ => ?_, fun hab' => ?_⟩
    · rcases List.mem_append.mp he with he | he
      · exact h.own e he
      · rw [List.mem_singleton.mp he, hbuf, owner_frame]
        rfl
    · have htail := hscript.tail
      unfold Aligned
      dsimp only
      rw [last_eq_closes (hfit m List.mem_cons_self).2]
      cases hlast : last c.kind m with
      | true =>
        rw [hlast] at htail
        obtain ⟨ht, rfl⟩ := htail
        exact ⟨hserver, hrest, ht⟩
      | false =>
        rw [hlast] at htail
        exact .inr ⟨hu, hserver, hstarted, ms, hrest, htail,
          fun m' hm' => hfit m' (List.mem_cons_of_mem _ hm'), fun _ _ _ => Nat.zero_le _⟩
    · have hab' : w.abandoned = true := hab'
      rw [hab] at hab'
      cases hab'

theorem InOrder.drop (h : InOrder asks kind replies w) {c : Call} (hc : w.call = some c) :
    InOrder asks kind replies { w with call := none, abandoned := w.abandoned || c.started } := by
  refine ⟨h.own, fun hab => ?_, fun _ => rfl⟩
  have hab : (w.abandoned || c.started) = false := hab
  rw [Bool.or_eq_false_iff] at hab
  rcases (h.aligned hab.1).calling hc with hask | hans
  · obtain ⟨_, _, _, _, hstart, ht, hcl, _⟩ := hask
    exact ⟨hstart hab.2, hcl, ht⟩
  · obtain ⟨_, _, hstarted, _⟩ := hans
    rw [hab.2] at hstarted
    cases hstarted

theorem InOrder.down (h : InOrder asks kind replies w) :
    InOrder asks kind replies { w with serverDown := true } :=
  ⟨h.own, fun hab => h.aligned hab, h.ended⟩

theorem InOrder.perform (h : InOrder asks kind replies w)
    (hp : w.perform asks kind replies a = some w') (hd : Drained asks replies w a) :
    InOrder asks kind replies w' := by
  cases a with
  | ask m =>
    dsimp only [Connection.perform] at hp
    split at hp
    · rename_i hc
      cases hp
      exact h.ask (Option.isNone_iff_eq_none.mp hc) hd
    · cases hp
  | push =>
    dsimp only [Connection.perform] at hp
    split at hp
    · rename_i c hc
      split at hp
      · rename_i b rest hu
        cases hp
        -- a call that is answered has nothing left to push
        refine ⟨h.own, fun hab => ?_, fun hab => ?_⟩
        · rcases (h.aligned hab).calling hc with hask | hans
          · exact .inl (hask.push hu)
          · rw [hans.1] at hu
            cases hu
        · have hended := h.ended hab
          rw [hc] at hended
          cases hended
      · cases hp
    · cases hp
  | receive =>
    dsimp only [Connection.perform] at hp
    split at hp
    · cases hp
    · obtain ⟨⟨bytes, data, rest⟩, hs, rfl⟩ := Option.map_eq_some_iff.mp hp
      exact h.receive hs
  | reply i m =>
    dsimp only [Connection.perform] at hp
    split at hp
    · cases hp
    · split at hp
      · rename_i number k ht
        split at hp
        · rename_i ha
          split at hp
          · cases hp
            exact h.down
          · rename_i bytes hw
            cases hp
            exact h.reply ht ha hw hd
        · cases hp
      · cases hp
  | pull =>
    dsimp only [Connection.perform] at hp
    split at hp
    · rename_i c b rest hc hw
      split at hp
      · rename_i hu hm
        cases hp
        exact h.pull hc hw hm
      · cases hp
    · cases hp
  | deliver =>
    dsimp only [Connection.perform] at hp
    split at hp
    · rename_i c hc
      split at hp
      · cases hp
      · rename_i hlarge
        cases hp
        refine ⟨h.own, fun hab => ?_, fun _ => rfl⟩
        rcases (h.aligned hab).calling hc with hask | hans
        -- what has come in is a piece of frames that fit
        · obtain ⟨_, _, _, _, _, _, _, hnil⟩ := hask
          rw [hnil] at hlarge
          cases hlarge
        · obtain ⟨_, _, _, ms, hms, _, hfit, _⟩ := hans
          cases ms with
          | nil =>
            rw [(List.append_eq_nil_iff.mp hms).1] at hlarge
            cases hlarge
          | cons m ms =>
            obtain ⟨⟨h32, hmax⟩, -⟩ := hfit m List.mem_cons_self
            exact absurd hlarge (progress_ne_tooLarge hms h32 hmax)
      · rename_i data hw
        cases hp
        exact h.deliver hc hw
    · cases hp
  | drop =>
    obtain ⟨c, hc, rfl⟩ := Option.map_eq_some_iff.mp hp
    exact h.drop hc

/-- What a call returns was written for it. -/
theorem replies_to_own
    (hr : Reachable (· = new) (fun w a w' => perform asks kind replies w a = some w' ∧
      Drained asks replies w a) w) {k : Nat} {o : Option Nat}
    {m : ServerMessage μ} (he : (k, o, m) ∈ w.returned) : o = some k := by
  have horder : InOrder asks kind replies w := by
    refine hr.invariant (fun w hw => ?_) fun w a w' h hs => h.perform hs.1 hs.2
    rw [hw]
    exact ⟨fun e he => (by cases he), fun _ => ⟨rfl, rfl, rfl⟩, fun hab => (by cases hab)⟩
  exact horder.own _ he

/-! ### A connection of one-byte messages -/

def kindCode : Codec Kind where
  encode
    | .unary => [0]
    | .stream => [1]
    | .subscription => [2]
  decode
    | [0] => some .unary
    | [1] => some .stream
    | [2] => some .subscription
    | _ => none
  roundtrip k := by cases k <;> rfl

def unary : List Nat → Bytes
  | [] => []
  | n :: ns => List.replicate n 0 ++ 1 :: unary ns

def ofUnary (n : Nat) : Bytes → List Nat
  | [] => []
  | b :: bs => if b = 0 then ofUnary (n + 1) bs else n :: ofUnary 0 bs

theorem ofUnary_replicate {n k : Nat} {bs : Bytes} :
    ofUnary k (List.replicate n 0 ++ 1 :: bs) = (k + n) :: ofUnary 0 bs := by
  induction n generalizing k with
  | zero => rfl
  | succ n ih =>
    rw [List.replicate_succ, List.cons_append, ofUnary, if_pos rfl, ih]
    congr 1
    omega

theorem ofUnary_unary {ns : List Nat} : ofUnary 0 (unary ns) = ns := by
  induction ns with
  | nil => rfl
  | cons n ns ih => rw [unary, ofUnary_replicate, ih, Nat.zero_add]

def byteCode : Codec (ServerMessage UInt8) where
  encode
    | .reply m => [0, m]
    | .event m => [1, m]
    | .done m => [2, m]
    | .error code message => 3 :: unary (code :: message.map Char.toNat)
  decode
    | 3 :: bs =>
      match ofUnary 0 bs with
      | code :: message => some (.error code (message.map Char.ofNat))
      | [] => none
    | [0, m] => some (.reply m)
    | [1, m] => some (.event m)
    | [2, m] => some (.done m)
    | _ => none
  roundtrip m := by
    cases m with
    | error code message =>
      have hid : (Char.ofNat ∘ Char.toNat) = id := funext Char.ofNat_toNat
      simp [ofUnary_unary, hid]
    | _ => rfl

/-- A stream is read to its end, then a request is made: which call was given which message, and for
whom it was written. -/
theorem replies_to_own_instance : ∃ w : Connection UInt8,
    w.returned.map (fun e => (e.1, e.2.2)) = [(0, .event 7), (0, .done 0), (1, .reply 8)] ∧
    ∀ e ∈ w.returned, e.2.1 = some e.1 := by
  let acts : List (Act Kind UInt8) := List.flatten
    [[.ask .stream], List.replicate 5 .push, [.receive, .reply 0 (.event 7), .reply 0 (.done 0)],
      List.replicate 6 .pull, [.deliver],
      List.replicate 6 .pull, [.deliver, .ask .unary], List.replicate 5 .push,
      [.receive, .reply 0 (.reply 8)], List.replicate 6 .pull,
      [.deliver]]
  have h₀ : Reachable (· = new) (fun w a w' => perform kindCode id byteCode w a = some w' ∧
      Drained kindCode byteCode w a) new := .first rfl
  obtain ⟨w, hr, hgiven⟩ := h₀.exists_careful_run (l := acts) (f := perform kindCode id byteCode)
      (C := Drained kindCode byteCode)
    (P := fun w => w.returned.map (fun e => (e.1, e.2.2)) =
      [(0, .event 7), (0, .done 0), (1, .reply 8)])
    (fun _ _ _ hp hd => ⟨hp, hd⟩) (by decide +kernel)
  exact ⟨w, hgiven, fun e he => replies_to_own hr he⟩

/-- A stream is dropped after its first event, and the next request gets the second. -/
theorem event_for_request : ∃ w, Reachable (· = new)
    (fun w a w' => perform kindCode id byteCode w a = some w') w ∧
    (1, some 0, .event 9) ∈ w.returned := by
  let acts : List (Act Kind UInt8) := List.flatten
    [[.ask .stream], List.replicate 5 .push, [.receive, .reply 0 (.event 7), .reply 0 (.event 9)],
      List.replicate 6 .pull,
      [.deliver, .drop, .ask .unary], List.replicate 5 .push, List.replicate 6 .pull, [.deliver]]
  have h₀ : Reachable (· = new) (fun w a w' => perform kindCode id byteCode w a = some w') new := .first rfl
  exact h₀.exists_run (l := acts) (f := perform kindCode id byteCode) (fun _ _ _ hp => hp)
    (by decide +kernel)

end Connection

end Crabtalk.System

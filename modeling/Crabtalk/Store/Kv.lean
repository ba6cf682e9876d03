import Crabtalk.Basis.ColumnMap
import Crabtalk.Basis.Effect
import Mathlib.Data.Rat.Defs
import Mathlib.Tactic.DeriveFintype

/-! # The keyspace: columns, keys, and the values filed under them

Keys and texts are character lists. UTF-8 keeps the order of code points and
a prefix of characters is a prefix of bytes, so scans are the ones on bytes.
A value is what its JSON stands for; reading it as anything else is the
`decode` error of `serde`.
-/

open Basis

namespace Crabtalk.Store

abbrev Str := List Char

inductive Error
  | io
  | decode
  | bail (text : Str)
  | panic
  deriving DecidableEq

inductive Column
  | agent
  | session
  | memory
  | skill
  | harness
  | config
  | text
  | event
  deriving DecidableEq

def Column.toNat : Column → Nat
  | .agent => 0
  | .session => 1
  | .memory => 2
  | .skill => 3
  | .harness => 4
  | .config => 5
  | .text => 6
  | .event => 7

instance : Ord Column := ⟨compareOn Column.toNat⟩

instance : Std.TransOrd Column := inferInstanceAs (Std.TransCmp (compareOn Column.toNat))

instance : Std.LawfulEqOrd Column where
  compare_self {a} := (Std.LawfulEqOrd.compare_eq_iff_eq (a := a.toNat)).mpr rfl
  eq_of_compare {a b} h := by
    have hn : a.toNat = b.toNat := Std.LawfulEqOrd.compare_eq_iff_eq.mp h
    cases a <;> cases b <;> first | rfl | cases hn

/-! ## Agent ids -/

instance ulidRange : NeZero (2 ^ 128) := ⟨by decide⟩

structure AgentId where
  ulid : Fin (2 ^ 128)
  deriving DecidableEq

def crockford : List Char :=
  ['0', '1', '2', '3', '4', '5', '6', '7', '8', '9', 'A', 'B', 'C', 'D', 'E', 'F', 'G', 'H', 'J',
    'K', 'M', 'N', 'P',
    'Q', 'R', 'S', 'T', 'V', 'W', 'X', 'Y', 'Z']

def base32 : Nat → Nat → Str
  | 0, _ => []
  | w + 1, n => base32 w (n / 32) ++ [crockford.getD (n % 32) '0']

def AgentId.toStr (id : AgentId) : Str := base32 26 id.ulid.val

theorem crockford_inj : ∀ a < 32, ∀ b < 32, crockford.getD a '0' = crockford.getD b '0' →
    a = b := by decide

theorem crockford_ne_slash : ∀ a < 32, crockford.getD a '0' ≠ '/' := by decide

theorem length_base32 : ∀ w n, (base32 w n).length = w
  | 0, _ => rfl
  | w + 1, n => by simp [base32, length_base32 w]

theorem base32_inj : ∀ w n m, base32 w n = base32 w m → n % 32 ^ w = m % 32 ^ w
  | 0, n, m, _ => by simp [Nat.mod_one]
  | w + 1, n, m, h => by
    simp only [base32] at h
    obtain ⟨h₁, h₂⟩ := List.append_inj' h rfl
    have hd : n % 32 = m % 32 := crockford_inj _ (Nat.mod_lt _ (by omega)) _
        (Nat.mod_lt _ (by omega)) (by simpa using h₂)
    have hq := base32_inj w _ _ h₁
    rw [Nat.pow_succ, Nat.mul_comm, Nat.mod_mul, Nat.mod_mul, hd, hq]

theorem slash_notMem_base32 : ∀ w n, '/' ∉ base32 w n
  | 0, _ => by simp [base32]
  | w + 1, n => by
    intro h
    rcases List.mem_append.mp h with h | h
    · exact slash_notMem_base32 w _ h
    · exact crockford_ne_slash (n % 32) (Nat.mod_lt _ (by omega)) (List.mem_singleton.mp h).symm

theorem AgentId.toStr_inj {a b : AgentId} (h : a.toStr = b.toStr) : a = b := by
  have hm := base32_inj 26 _ _ h
  have ha : a.ulid.val < 32 ^ 26 := Nat.lt_of_lt_of_le a.ulid.isLt (by decide)
  have hb : b.ulid.val < 32 ^ 26 := Nat.lt_of_lt_of_le b.ulid.isLt (by decide)
  rw [Nat.mod_eq_of_lt ha, Nat.mod_eq_of_lt hb] at hm
  cases a; cases b
  simp only [AgentId.mk.injEq]
  exact Fin.ext hm

def digit (c : Char) : Option Nat := crockford.idxOf? c.toUpper

/-- `from_str`: 26 digits, of which the highest two bits are lost. -/
def AgentId.ofStr (s : Str) : Option AgentId :=
  if s.length = 26 then
    (s.mapM digit).map fun ds => ⟨Fin.ofNat (2 ^ 128) (ds.foldl (fun n d => n * 32 + d) 0)⟩
  else none

theorem digit_crockford : ∀ d < 32, digit (crockford.getD d '0') = some d := by decide

theorem mapM_digit_base32 : ∀ w n, ∃ ds, (base32 w n).mapM digit = some ds ∧
    ds.foldl (fun n d => n * 32 + d) 0 = n % 32 ^ w
  | 0, n => ⟨[], rfl, by simp [Nat.mod_one]⟩
  | w + 1, n => by
    obtain ⟨ds, hm, hv⟩ := mapM_digit_base32 w (n / 32)
    refine ⟨ds ++ [n % 32], ?_, ?_⟩
    · have hd := digit_crockford (n % 32) (Nat.mod_lt _ (by omega))
      rw [List.getD_eq_getElem?_getD] at hd
      rw [base32, List.mapM_append, hm]
      simp [hd]
    · rw [List.foldl_append, hv, List.foldl_cons, List.foldl_nil, Nat.pow_succ,
        Nat.mul_comm (32 ^ w), Nat.mod_mul, Nat.mul_comm,
        Nat.add_comm]

theorem AgentId.ofStr_toStr (a : AgentId) : AgentId.ofStr a.toStr = some a := by
  obtain ⟨ds, hm, hv⟩ := mapM_digit_base32 26 a.ulid.val
  have ha : a.ulid.val < 32 ^ 26 := Nat.lt_of_lt_of_le a.ulid.isLt (by decide)
  rw [AgentId.ofStr, AgentId.toStr, if_pos (length_base32 26 _), hm, Option.map_some, hv,
    Nat.mod_eq_of_lt ha]
  simp

theorem AgentId.slash_notMem (a : AgentId) : '/' ∉ a.toStr := slash_notMem_base32 26 _

/-! ## What is stored -/

structure SessionMeta where
  agent : AgentId
  createdBy : Str
  createdAt : Str
  title : Str
  updatedAt : Str
  messageCount : Nat
  summary : Option Str
  root : Option Str
  deriving DecidableEq

structure HistoryEntry (μ : Type) where
  agent : Str
  sender : Str
  autoInjected : Bool
  message : μ
  deriving DecidableEq

def HistoryEntry.persist {μ : Type} (e : HistoryEntry μ) : HistoryEntry μ :=
  { e with sender := [], autoInjected := false }

inductive EventLine
  | toolStart (calls : List (Str × Str × Str)) (ts : Str)
  | toolResult (callId : Str) (durationMs : Nat) (ts : Str)
  | done (model : Str) (iterations : Nat) (stopReason : Str) (ts : Str)
  deriving DecidableEq

structure Doc where
  len : Nat
  weight : ℚ
  terms : List Str
  deriving DecidableEq

structure Stats where
  docs : Nat
  totalLen : Nat
  deriving DecidableEq

inductive Root
  | session (path : Str)
  | home
  | fixed (path : Str)
  deriving DecidableEq

structure HarnessConfig where
  name : Str
  root : Option Root
  hosts : List Str
  deriving DecidableEq

structure McpServerConfig where
  name : Str
  command : Str
  args : List Str
  env : List (Str × Str)
  autoRestart : Bool
  url : Option Str
  auth : Option Str
  deriving DecidableEq

structure AgentConfig where
  id : AgentId
  name : Str
  description : Str
  model : Str
  maxIterations : Nat
  skills : List Str
  mcps : List McpServerConfig
  harnesses : List HarnessConfig
  tools : List Str
  deriving DecidableEq

/-- What of a config is serialized, and so read back: not the tool whitelist. -/
def AgentConfig.persist (c : AgentConfig) : AgentConfig := { c with tools := [] }

@[simp] theorem AgentConfig.persist_name (c : AgentConfig) : c.persist.name = c.name := rfl

inductive Value (μ : Type)
  | agent (c : AgentConfig)
  | sessionMeta (m : SessionMeta)
  | entry (e : HistoryEntry μ)
  | event (e : EventLine)
  | text (s : Str)
  | raw (s : Str)
  | doc (d : Doc)
  | stats (s : Stats)
  deriving DecidableEq

namespace Value
variable {μ : Type}

def asAgent : Value μ → Option AgentConfig
  | agent c => some c.persist
  | _ => none

def asMeta : Value μ → Option SessionMeta
  | sessionMeta m => some m
  | _ => none

def asEntry : Value μ → Option (HistoryEntry μ)
  | entry e => some e.persist
  | _ => none

def asText : Value μ → Option Str
  | text s => some s
  | _ => none

def asRaw : Value μ → Option Str
  | raw s => some s
  | _ => none

def asDoc : Value μ → Option Doc
  | doc d => some d
  | _ => none

def asStats : Value μ → Option Stats
  | stats s => some s
  | _ => none

end Value

/-! ## The key-value primitive -/

inductive KvOp (μ : Type)
  | get (col : Column) (key : Str)
  | put (col : Column) (key : Str) (value : Value μ)
  | delete (col : Column) (key : Str)
  | scanKeys (col : Column) (stem : Str)
  | scan (col : Column) (stem : Str)

variable {μ : Type}

def KvOp.Reply : KvOp μ → Type
  | .get _ _ => Option (Value μ)
  | .put _ _ _ => Unit
  | .delete _ _ => Bool
  | .scanKeys _ _ => List Str
  | .scan _ _ => List (Str × Value μ)

abbrev Kv (μ : Type) := ColMap Column Char (Value μ)

abbrev KvM (μ : Type) := Prog (KvOp μ) KvOp.Reply Error

def memory : (o : KvOp μ) → EStateM Error (Kv μ) o.Reply
  | .get col key => fun s => .ok s[(col, key)]? s
  | .put col key value => fun s => .ok () (s.insert (col, key) value)
  | .delete col key => fun s => .ok s[(col, key)]?.isSome (s.erase (col, key))
  | .scanKeys col stem => fun s => .ok ((s.under col stem).map fun e => e.1.2) s
  | .scan col stem => fun s => .ok ((s.under col stem).map fun e => (e.1.2, e.2)) s

def get (col : Column) (key : Str) : KvM μ (Option (Value μ)) := Prog.perform (KvOp.get col key)

def put (col : Column) (key : Str) (value : Value μ) : KvM μ Unit :=
  Prog.perform (KvOp.put col key value)

def delete (col : Column) (key : Str) : KvM μ Bool := Prog.perform (KvOp.delete col key)

def scanKeys (col : Column) (stem : Str) : KvM μ (List Str) := Prog.perform (KvOp.scanKeys col stem)

def scan (col : Column) (stem : Str) : KvM μ (List (Str × Value μ)) :=
  Prog.perform (KvOp.scan col stem)

def realm : Str := "local".toList

def key (parts : List Str) : Str := realm ++ parts.flatMap fun part => '/' :: part

def keysUnder (parts : List Str) : Str := key parts ++ ['/']

def getJson {α : Type} (decode : Value μ → Option α) (col : Column) (key : Str) :
    KvM μ (Option α) := do
  match ← get col key with
  | none => return none
  | some v =>
    match decode v with
    | some a => return some a
    | none => .fail .decode

/-! ## What each operation does -/

section
variable {F : Prop} {E : Error → Kv μ → Prop} {s : Kv μ} {col : Column} {k : Str}

@[simp] theorem wp_get {Q : Option (Value μ) → Kv μ → Prop} :
    Prog.wp F memory (get col k) Q E s ↔ Q s[(col, k)]? s ∧ (F → ∀ e, E e s) := Prog.wp_perform

@[simp] theorem wp_put {v : Value μ} {Q : Unit → Kv μ → Prop} :
    Prog.wp F memory (put col k v) Q E s ↔ Q () (s.insert (col, k) v) ∧ (F → ∀ e, E e s) :=
    Prog.wp_perform

@[simp] theorem wp_delete {Q : Bool → Kv μ → Prop} :
    Prog.wp F memory (delete col k) Q E s ↔ Q s[(col, k)]?.isSome (s.erase (col, k)) ∧
    (F → ∀ e, E e s) := Prog.wp_perform

@[simp] theorem wp_scanKeys {Q : List Str → Kv μ → Prop} :
    Prog.wp F memory (scanKeys col k) Q E s ↔ Q ((s.under col k).map fun e => e.1.2) s ∧
    (F → ∀ e, E e s) := Prog.wp_perform

@[simp] theorem wp_scan {Q : List (Str × Value μ) → Kv μ → Prop} :
    Prog.wp F memory (scan col k) Q E s ↔ Q ((s.under col k).map fun e => (e.1.2, e.2)) s ∧
    (F → ∀ e, E e s) := Prog.wp_perform

theorem wp_getJson {α : Type} {decode : Value μ → Option α} {Q : Option α → Kv μ → Prop} :
    Prog.wp F memory (getJson decode col k) Q E s ↔
      (match s[(col, k)]? with
      | none => Q none s
      | some v => match decode v with
        | some a => Q (some a) s
        | none => E .decode s) ∧ (F → ∀ e, E e s) := by
  rw [getJson, Prog.wp_bind, wp_get]
  cases s[(col, k)]? with
  | none => rfl
  | some v => simp only; cases decode v <;> rfl

end

end Crabtalk.Store

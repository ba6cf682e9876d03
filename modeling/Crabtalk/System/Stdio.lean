import Crabtalk.Basis.Reachable
import Crabtalk.System.Digest

/-! # Requests over a pipe

An MCP server started as a child is asked over its standard input and read from
its standard output, a JSON value a line. A request takes the first value that
comes, whatever it says it answers.
-/

open Basis

namespace Crabtalk.System

open Store

/-! ## JSON-RPC -/

inductive Json
  | null
  | bool (b : Bool)
  | num (n : Int)
  | real (text : Str)
  | str (s : Str)
  | arr (items : List Json)
  | obj (fields : List (Str × Json))

namespace Json

def get (v : Json) (name : Str) : Option Json :=
  match v with
  | obj fields => (fields.find? fun f => f.1 = name).map (·.2)
  | _ => none

def asStr : Json → Option Str
  | str s => some s
  | _ => none

def asI64 : Json → Option Int
  | num n => if -2 ^ 63 ≤ n ∧ n < 2 ^ 63 then some n else none
  | _ => none

/-- A response says which request it answers, and is no request itself. -/
def Response (i : Nat) (v : Json) : Prop := (∃ n, v.get "id".toList = some (num n) ∧ n = i) ∧
    (v.get "method".toList).isNone

end Json

def extractResult (response : Json) : Except Str Json :=
  match response.get "error".toList with
  | some err =>
    let msg := ((err.get "message".toList).bind Json.asStr).getD "unknown error".toList
    let code := ((err.get "code".toList).bind Json.asI64).getD 0
    .error ("JSON-RPC error ".toList ++ (toString code).toList ++ ": ".toList ++ msg)
  | none =>
    match response.get "result".toList with
    | some result => .ok result
    | none => .error "missing 'result' in JSON-RPC response".toList

/-! ## The pipe -/

def decode (line : Bytes) : Option Str := (String.fromUTF8? line.toByteArray).map (·.toList)

section
variable (parse : Str → Option Json)

/-- What a line holds, for a parser that trims it first: nothing readable, a diagnostic, or a
value. -/
def value (line : Bytes) : Option (Option Json) := (decode line).map parse

/-- The lines not read yet, the request that reads, the ids given out; and what was written and
answered so far. -/
structure StdioTransport where
  unread : List Bytes
  closed : Bool
  waiting : Option Nat
  nextId : Nat
  written : List Bytes
  answered : List (Nat × Except Str Json)
  failed : List (Nat × Str)

namespace StdioTransport

def new : StdioTransport := ⟨[], false, none, 1, [], [], []⟩

def fail (t : StdioTransport) (i : Nat) (error : Str) : StdioTransport :=
  { t with waiting := none, failed := t.failed ++ [(i, error)] }

def readLine (t : StdioTransport) (i : Nat) (line : Bytes) (rest : List Bytes) : StdioTransport :=
  match value parse line with
  | none => { t.fail i "read from MCP stdout".toList with unread := rest }
  | some none => { t with unread := rest }
  | some (some v) =>
    { t with unread := rest, waiting := none, answered := t.answered ++ [(i, extractResult v)] }

/-- The server writes lines and may close its output. One request at a time reads; its ids come from
a counter the other servers draw from as well. Who gives up has perhaps read some bytes of the next
line. -/
inductive Act
  | write (line : Bytes)
  | close
  | request (id : Nat)
  | read
  | eof
  | giveUp (n : Nat)

def perform (t : StdioTransport) : Act → Option StdioTransport
  | .write line =>
    if t.closed then none else some
      { t with unread := t.unread ++ [line], written := t.written ++ [line] }
  | .close => some { t with closed := true }
  | .request id =>
    if t.waiting = none ∧ t.nextId ≤ id then some { t with waiting := some id, nextId := id + 1 } else none
  | .read =>
    match t.waiting, t.unread with
    | some i, line :: rest => some (t.readLine parse i line rest)
    | _, _ => none
  | .eof =>
    match t.waiting, t.unread with
    | some i, [] => if t.closed then some (t.fail i "MCP server closed stdout".toList) else none
    | _, _ => none
  | .giveUp n =>
    match t.waiting, t.unread with
    | some i, [] => if n = 0 then some (t.fail i "MCP server response timed out".toList) else none
    | some i, line :: rest =>
      if n ≤ line.length
        then some
        { t.fail i "MCP server response timed out".toList with unread := line.drop n :: rest } else none
    | none, _ => none

/-! ## Answers in their place -/

variable {parse} {t t' : StdioTransport} {a : Act}

/-- The values there are to read answer the request that reads, and there is one at most. -/
structure Answering (parse : Str → Option Json) (t : StdioTransport) : Prop where
  decoded : ∀ line ∈ t.unread, value parse line ≠ none
  due : ∀ line ∈ t.unread, ∀ v, value parse line = some (some v) → ∃ i, t.waiting = some i ∧
    Json.Response i v
  once : t.unread.Pairwise fun l l' => value parse l = some none ∨ value parse l' = some none
  source : ∀ line ∈ t.unread, line ∈ t.written
  answered : ∀ i r, (i, r) ∈ t.answered →
    ∃ line ∈ t.written, ∃ v, value parse line = some (some v) ∧ Json.Response i v ∧
    r = extractResult v

def Quiet (parse : Str → Option Json) (t : StdioTransport) : Prop :=
  ∀ line ∈ t.unread, value parse line = some none

/-- The server writes UTF-8, and a value only as the answer to the request that reads, once. No
request is given up when its answer is there, nor in the middle of a line. -/
def Orderly (parse : Str → Option Json) (t : StdioTransport) : Act → Prop
  | .write line => value parse line = some none ∨
      ∃ v i, value parse line = some (some v) ∧ t.waiting = some i ∧ Json.Response i v ∧ t.Quiet parse
  | .giveUp n => n = 0 ∧ t.Quiet parse
  | _ => True

theorem Quiet.answering (h : t.Quiet parse) (hsource : ∀ line ∈ t.unread, line ∈ t.written)
    (ha : ∀ i r, (i, r) ∈ t.answered → ∃ line ∈ t.written, ∃ v, value parse line = some (some v) ∧
      Json.Response i v ∧ r = extractResult v) :
    t.Answering parse := by
  refine ⟨fun line hl hn => ?_, fun line hl v hv => ?_, ?_, hsource, ha⟩
  · rw [h line hl] at hn
    cases hn
  · rw [h line hl] at hv
    cases hv
  · exact List.Pairwise.imp_of_mem (fun hl _ _ => .inl (h _ hl))
      (List.pairwise_of_forall (R := fun _ _ => True) fun _ _ => trivial)

theorem Answering.write (h : t.Answering parse) {line : Bytes}
    (ho : Orderly parse t (.write line)) :
    Answering parse { t with unread := t.unread ++ [line], written := t.written ++ [line] } := by
  refine ⟨fun l hl => ?_, fun l hl v hv => ?_, ?_, fun l hl => ?_, fun i r hr => ?_⟩
  · rcases List.mem_append.mp hl with hl | hl
    · exact h.decoded l hl
    · rw [List.mem_singleton.mp hl]
      rcases ho with ho | ⟨v, i, ho, -⟩
      · simp [ho]
      · simp [ho]
  · rcases List.mem_append.mp hl with hl | hl
    · exact h.due l hl v hv
    · rw [List.mem_singleton.mp hl] at hv
      rcases ho with ho | ⟨w, i, ho, hi, hw, -⟩
      · rw [ho] at hv
        cases hv
      · rw [ho] at hv
        cases hv
        exact ⟨i, hi, hw⟩
  · rw [List.pairwise_append]
    refine ⟨h.once, List.pairwise_singleton _ _, fun l hl l' hl' => ?_⟩
    rw [List.mem_singleton.mp hl']
    rcases ho with ho | ⟨v, i, ho, hi, hv, hquiet⟩
    · exact .inr ho
    · exact .inl (hquiet l hl)
  · rcases List.mem_append.mp hl with hl | hl
    · exact List.mem_append_left _ (h.source l hl)
    · exact List.mem_append_right _ hl
  · obtain ⟨l, hl, hv⟩ := h.answered i r hr
    exact ⟨l, List.mem_append_left _ hl, hv⟩

theorem Answering.read (h : t.Answering parse) {i : Nat} {line : Bytes} {rest : List Bytes}
    (hi : t.waiting = some i)
    (hu : t.unread = line :: rest) : (t.readLine parse i line rest).Answering parse := by
  have hline : line ∈ t.unread := by
    rw [hu]
    exact List.mem_cons_self
  have hrest : ∀ l ∈ rest, l ∈ t.unread := by
    intro l hl
    rw [hu]
    exact List.mem_cons_of_mem _ hl
  have honce := h.once
  rw [hu, List.pairwise_cons] at honce
  unfold readLine
  split
  · rename_i hnone
    exact absurd hnone (h.decoded line hline)
  · exact ⟨fun l hl => h.decoded l (hrest l hl), fun l hl => h.due l (hrest l hl), honce.2,
      fun l hl => h.source l (hrest l hl), h.answered⟩
  · rename_i v hv
    apply Quiet.answering
    · intro l hl
      rcases honce.1 l hl with hn | hn
      · rw [hv] at hn
        cases hn
      · exact hn
    · exact fun l hl => h.source l (hrest l hl)
    · intro j r hr
      rcases List.mem_append.mp hr with hr | hr
      · exact h.answered j r hr
      · rw [List.mem_singleton] at hr
        cases hr
        obtain ⟨k, hk, hresp⟩ := h.due line hline v hv
        rw [hi, Option.some.injEq] at hk
        subst hk
        exact ⟨line, h.source line hline, v, hv, hresp, rfl⟩

theorem Answering.perform (h : t.Answering parse) (hp : t.perform parse a = some t')
    (ho : Orderly parse t a) : t'.Answering parse := by
  cases a with
  | write line =>
    dsimp only [StdioTransport.perform] at hp
    split at hp
    · cases hp
    · cases hp
      exact h.write ho
  | close =>
    cases hp
    exact ⟨h.decoded, h.due, h.once, h.source, h.answered⟩
  | request id =>
    dsimp only [StdioTransport.perform] at hp
    split at hp
    · rename_i hidle
      cases hp
      refine ⟨h.decoded, fun l hl v hv => ?_, h.once, h.source, h.answered⟩
      obtain ⟨i, hi, -⟩ := h.due l hl v hv
      rw [hidle.1] at hi
      cases hi
    · cases hp
  | read =>
    dsimp only [StdioTransport.perform] at hp
    split at hp
    · rename_i i line rest hi hu
      cases hp
      exact h.read hi hu
    · cases hp
  | eof =>
    dsimp only [StdioTransport.perform] at hp
    split at hp
    · rename_i i hi hu
      split at hp
      · cases hp
        -- with nothing left to read no answer is on its way
        apply Quiet.answering
        · intro l hl
          have hl : l ∈ t.unread := hl
          rw [hu] at hl
          cases hl
        · exact h.source
        · exact h.answered
      · cases hp
    · cases hp
  | giveUp n =>
    obtain ⟨hn, hquiet⟩ := ho
    subst hn
    dsimp only [StdioTransport.perform] at hp
    split at hp
    · cases hp
      exact Quiet.answering hquiet h.source h.answered
    · rename_i i line rest hi hu
      split at hp
      · cases hp
        -- nothing of the line was taken, so the next reader sees it whole
        have hsame : line.drop 0 :: rest = t.unread := by rw [hu, List.drop_zero]
        refine Quiet.answering (fun l hl => ?_) (fun l hl => ?_) h.answered
        · exact hquiet l (hsame ▸ hl)
        · exact h.source l (hsame ▸ hl)
      · cases hp
    · cases hp

/-- Whoever asks under an id gets the result of a response that names this id. -/
theorem answered_by_id (hr : Reachable (· = new) (fun t a t' => t.perform parse a = some t' ∧
    Orderly parse t a) t) {i : Nat}
    {r : Except Str Json} (hi : (i, r) ∈ t.answered) :
    ∃ line ∈ t.written, ∃ v, value parse line = some (some v) ∧ Json.Response i v ∧
    r = extractResult v := by
  have hanswering : t.Answering parse := by
    refine hr.invariant (fun t ht => ?_) fun t a t' h hs => h.perform hs.1 hs.2
    rw [ht]
    exact Quiet.answering (fun l hl => (by cases hl)) (fun l hl => (by cases hl)) fun i r hr => (by cases hr)
  exact hanswering.answered i r hi

/-! ## One late answer -/

theorem decode_utf8 (s : Str) : decode (utf8 s) = some s := by
  have hbytes : (utf8 s).toByteArray = (String.ofList s).toByteArray := by
    rw [String.toByteArray_ofList]
    rfl
  have hvalid : (utf8 s).toByteArray.IsValidUTF8 := hbytes ▸ (String.ofList s).isValidUTF8
  have hstring : String.fromUTF8 _ hvalid = String.ofList s := String.toByteArray_inj.mp hbytes
  unfold decode String.fromUTF8?
  rw [dif_pos hvalid, hstring, Option.map_some, String.toList_ofList]

def lineOne : Str := "\x7b\"jsonrpc\":\"2.0\",\"id\":1,\"result\":\"a\"\x7d".toList

def responseOne : Json := .obj [("jsonrpc".toList, .str "2.0".toList), ("id".toList, .num 1),
    ("result".toList, .str ['a'])]

def parseOne (s : Str) : Option Json := if s = lineOne then some responseOne else none

theorem value_one : value parseOne (utf8 lineOne) = some (some responseOne) := by
  unfold value
  rw [decode_utf8, Option.map_some]
  exact congrArg some (if_pos rfl)

theorem response_one_iff {i : Nat} : Json.Response i responseOne ↔ i = 1 := by
  constructor
  · intro ⟨⟨n, hn, hi⟩, _⟩
    have hone : (1 : Int) = n := Json.num.inj (Option.some.inj hn)
    omega
  · intro hi
    subst hi
    exact ⟨⟨1, rfl, rfl⟩, rfl⟩

theorem answered_by_id_instance : ∃ t : StdioTransport, (1, .ok (.str ['a'])) ∈ t.answered ∧
    ∃ line ∈ t.written, ∃ v, value parseOne line = some (some v) ∧ Json.Response 1 v ∧
    .ok (.str ['a']) = extractResult v := by
  let asked : StdioTransport := { new with waiting := some 1, nextId := 2 }
  let written : StdioTransport := { asked with unread := [utf8 lineOne], written := [utf8 lineOne] }
  let t := written.readLine parseOne 1 (utf8 lineOne) []
  have h₀ : Reachable (· = new) (fun t a t' => t.perform parseOne a = some t' ∧
      Orderly parseOne t a) new := .first rfl
  have h₁ : Reachable (· = new) (fun t a t' => t.perform parseOne a = some t' ∧
      Orderly parseOne t a) asked :=
    h₀.next (a := .request 1) ⟨rfl, trivial⟩
  have h₂ : Reachable (· = new) (fun t a t' => t.perform parseOne a = some t' ∧
      Orderly parseOne t a) written :=
    h₁.next (a := .write (utf8 lineOne))
      ⟨rfl, .inr ⟨responseOne, 1, value_one, rfl, response_one_iff.mpr rfl,
      fun _ hl => (by cases hl)⟩⟩
  have h₃ : Reachable (· = new) (fun t a t' => t.perform parseOne a = some t' ∧
      Orderly parseOne t a) t :=
    h₂.next (a := .read) ⟨rfl, trivial⟩
  have hmem : (1, .ok (.str ['a'])) ∈ t.answered := by
    dsimp only [t, readLine]
    rw [value_one]
    exact List.mem_singleton.mpr rfl
  exact ⟨t, hmem, answered_by_id h₃ hmem⟩

/-- The first request is given up, and the second gets its answer. -/
theorem late_answer : ∃ t : StdioTransport, Reachable (· = new)
    (fun t a t' => t.perform parseOne a = some t') t ∧
    (2, .ok (.str ['a'])) ∈ t.answered ∧ ¬ ∃ line ∈ t.written, ∃ v, value parseOne line =
    some (some v) ∧ Json.Response 2 v := by
  let given : StdioTransport :=
    { new with nextId := 2, failed := [(1, "MCP server response timed out".toList)] }
  let written : StdioTransport := { given with unread := [utf8 lineOne], written := [utf8 lineOne] }
  let asked : StdioTransport := { written with waiting := some 2, nextId := 3 }
  let t := asked.readLine parseOne 2 (utf8 lineOne) []
  have h₀ : Reachable (· = new) (fun t a t' => t.perform parseOne a = some t') new := .first rfl
  have h₁ : Reachable (· = new) (fun t a t' => t.perform parseOne a = some t') given :=
    (h₀.next (a := .request 1) rfl).next (a := .giveUp 0) rfl
  have h₂ : Reachable (· = new) (fun t a t' => t.perform parseOne a = some t') asked :=
    (h₁.next (a := .write (utf8 lineOne)) rfl).next (a := .request 2) rfl
  refine ⟨t, h₂.next (a := .read) rfl, ?_, ?_⟩
  · dsimp only [t, readLine]
    rw [value_one]
    exact List.mem_singleton.mpr rfl
  · intro ⟨line, hl, v, hv, hresp⟩
    have hwritten : t.written = [utf8 lineOne] := by
      dsimp only [t, readLine]
      rw [value_one]
    rw [hwritten, List.mem_singleton] at hl
    rw [hl, value_one, Option.some.injEq, Option.some.injEq] at hv
    rw [← hv, response_one_iff] at hresp
    cases hresp

end StdioTransport

end

end Crabtalk.System

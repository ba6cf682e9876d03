import Crabtalk.Backend.Sessions
import Crabtalk.Store.Plain

/-!
# Plain JSON

Entries whose messages carry nothing but text, as one line, and metadata over
several. What is read is read back from the text and must be written just so.
-/

open Basis

namespace Crabtalk.Backend.Plain

open Store Store.Plain

/-! ## Strings -/

def hexLower : List Char := ['0', '1', '2', '3', '4', '5', '6', '7', '8', '9', 'a', 'b', 'c', 'd', 'e', 'f']

def escapeChar (c : Char) : Str :=
  if c = '"' then ['\\', '"']
  else if c = '\\' then ['\\', '\\']
  else if c.toNat < 32 then ['\\', 'u', '0', '0', hexLower.getD (c.toNat / 16) '0',
    hexLower.getD (c.toNat % 16) '0']
  else [c]

def escaped (s : Str) : Str := s.flatMap escapeChar

def quote (s : Str) : Str := '"' :: (escaped s ++ ['"'])

def unescape : Str → Option (Str × Str)
  | '"' :: rest => some ([], rest)
  | '\\' :: 'u' :: '0' :: '0' :: a :: b :: rest =>
    match hexLower.idxOf? a, hexLower.idxOf? b, unescape rest with
    | some x, some y, some (s, rest) => some (Char.ofNat (16 * x + y) :: s, rest)
    | _, _, _ => none
  | '\\' :: c :: rest => (unescape rest).map fun p => (c :: p.1, p.2)
  | c :: rest => (unescape rest).map fun p => (c :: p.1, p.2)
  | [] => none

theorem control_digits : ∀ n < 32, hexLower.idxOf? (hexLower.getD (n / 16) '0') = some (n / 16) ∧
    hexLower.idxOf? (hexLower.getD (n % 16) '0') = some (n % 16) := by decide

theorem unescape_char (c : Char) (rest : Str) :
    unescape (escapeChar c ++ rest) = (unescape rest).map fun p => (c :: p.1, p.2) := by
  unfold escapeChar
  by_cases hq : c = '"'
  · rw [if_pos hq, hq]
    rfl
  · rw [if_neg hq]
    by_cases hb : c = '\\'
    · rw [if_pos hb, hb]
      rfl
    · rw [if_neg hb]
      by_cases hc : c.toNat < 32
      · obtain ⟨hx, hy⟩ := control_digits c.toNat hc
        have hback : Char.ofNat (16 * (c.toNat / 16) + c.toNat % 16) = c := by
          rw [Nat.div_add_mod]
          exact Char.ofNat_toNat c
        rw [if_pos hc]
        simp only [List.cons_append, List.nil_append, unescape, hx, hy]
        cases unescape rest with
        | none => rfl
        | some p =>
          simp only [hback]
          rfl
      · rw [if_neg hc, List.singleton_append, unescape]
        · exact fun h => hq h
        · intro a b r h
          exact absurd h hb
        · intro d r h
          exact absurd h hb

theorem unescape_escaped (s rest : Str) : unescape (escaped s ++ '"' :: rest) = some (s, rest) := by
  induction s with
  | nil => rfl
  | cons c s ih =>
    rw [escaped, List.flatMap_cons, List.append_assoc, unescape_char,
      show s.flatMap escapeChar = escaped s from rfl, ih]
    rfl

/-! ## Documents -/

def expect : Str → Str → Option Str
  | [], rest => some rest
  | c :: lit, d :: rest => if c = d then expect lit rest else none
  | _ :: _, [] => none

theorem expect_append (lit rest : Str) : expect lit (lit ++ rest) = some rest := by
  induction lit with
  | nil => rfl
  | cons c lit ih => rw [List.cons_append, expect, if_pos rfl, ih]

def field (key : String) (text : Str) : Option (Str × Str) := (expect key.toList text).bind unescape

theorem field_append (key : String) (s rest : Str) :
    field key (key.toList ++ (escaped s ++ '"' :: rest)) = some (s, rest) := by
  rw [field, expect_append, Option.bind_some, unescape_escaped]

def optField (key : String) (text : Str) : Option (Option Str × Str) :=
  match expect key.toList text with
  | some rest => (unescape rest).map fun p => (some p.1, p.2)
  | none => some (none, text)

def optText (key : String) : Option Str → Str
  | some s => key.toList ++ (escaped s ++ ['"'])
  | none => []

theorem optField_append (key : String) (s : Option Str) (rest : Str)
    (h : expect key.toList rest = none) :
    optField key (optText key s ++ rest) = some (s, rest) := by
  cases s with
  | none =>
    show optField key rest = _
    rw [optField, h]
  | some s =>
    rw [optText, List.append_assoc, List.append_assoc, optField, expect_append]
    show (unescape (escaped s ++ '"' :: rest)).map _ = _
    rw [unescape_escaped]
    rfl

def agentText (agent : Str) : Str := if agent = [] then [] else "\"agent\":\"".toList ++
    (escaped agent ++ "\",".toList)

def entryText (e : HistoryEntry Message) : Str :=
  '{' :: (agentText e.agent ++ ("\"message\":\x7b\"role\":\"".toList ++
    (escaped e.message.role ++ '"' ::
    (",\"content\":\"".toList ++ (escaped e.message.text ++ '"' :: "\x7d\x7d".toList)))))

def parseAgent (text : Str) : Option (Str × Str) :=
  match expect "\"agent\":\"".toList text with
  | some rest => (unescape rest).bind fun p => (expect [','] p.2).map fun rest => (p.1, rest)
  | none => some ([], text)

def parseEntry (text : Str) : Option (HistoryEntry Message) := do
  let rest ← expect ['{'] text
  let (agent, rest) ← parseAgent rest
  let (role, rest) ← field "\"message\":\x7b\"role\":\"" rest
  let (content, _) ← field ",\"content\":\"" rest
  return ⟨agent, [], false, ⟨role, content⟩⟩

theorem parseAgent_append (agent rest : Str) (h : expect "\"agent\":\"".toList rest = none) :
    parseAgent (agentText agent ++ rest) = some (agent, rest) := by
  unfold agentText
  by_cases ha : agent = []
  · rw [if_pos ha, ha]
    show parseAgent rest = _
    rw [parseAgent, h]
  · rw [if_neg ha, List.append_assoc, List.append_assoc, parseAgent, expect_append]
    show (unescape (escaped agent ++ '"' :: ',' :: rest)).bind _ = _
    rw [unescape_escaped]
    rfl

theorem parse_entryText (e : HistoryEntry Message) : parseEntry (entryText e) = some e.persist := by
  unfold parseEntry entryText
  rw [show ∀ rest, expect ['{'] ('{' :: rest) = some rest from fun _ => rfl, Option.bind_eq_bind,
    Option.bind_some, parseAgent_append _ _ rfl,
    Option.bind_eq_bind, Option.bind_some]
  dsimp only
  rw [field_append, Option.bind_some]
  dsimp only
  rw [field_append]
  rfl

def entryJson (e : HistoryEntry Message) : Bytes := utf8 (entryText e)

def readEntry (bytes : Bytes) : Option (HistoryEntry Message) :=
  ((fromUtf8 bytes).bind parseEntry).filter fun e => entryJson e = bytes

theorem readEntry_entryJson (e : HistoryEntry Message) : readEntry (entryJson e) = some e.persist := by
  have hsame : entryJson e.persist = entryJson e := rfl
  rw [readEntry, entryJson, fromUtf8_utf8, Option.bind_some, parse_entryText,
    Option.filter_some, if_pos]
  exact decide_eq_true hsame

/-! ## The outline of an entry -/

theorem byte_of_char {c : Char} {b : UInt8} (h : b ∈ String.utf8EncodeChar c) : 128 ≤ b.toNat ∨
    b.toNat = c.toNat := by
  have hval : c.val.toNat = c.toNat := rfl
  unfold String.utf8EncodeChar at h
  rw [hval] at h
  dsimp only at h
  by_cases h₁ : c.toNat ≤ 0x7f
  · rw [if_pos h₁, List.mem_singleton] at h
    right
    rw [h, UInt8.toNat_ofNat', Nat.mod_eq_of_lt]
    omega
  · left
    rw [if_neg h₁] at h
    by_cases h₂ : c.toNat ≤ 0x7ff
    · rw [if_pos h₂] at h
      simp only [List.mem_cons, List.not_mem_nil, or_false] at h
      rcases h with h | h <;> rw [h, UInt8.toNat_ofNat'] <;> omega
    · rw [if_neg h₂] at h
      by_cases h₃ : c.toNat ≤ 0xffff
      · rw [if_pos h₃] at h
        simp only [List.mem_cons, List.not_mem_nil, or_false] at h
        rcases h with h | h | h <;> rw [h, UInt8.toNat_ofNat'] <;> omega
      · rw [if_neg h₃] at h
        simp only [List.mem_cons, List.not_mem_nil, or_false] at h
        rcases h with h | h | h | h <;> rw [h, UInt8.toNat_ofNat'] <;> omega

theorem mem_of_byte {s : Str} {n : Nat} (hn : n < 128) (h : UInt8.ofNat n ∈ utf8 s) :
    Char.ofNat n ∈ s := by
  obtain ⟨c, hc, hb⟩ := List.mem_flatMap.mp h
  have hnat : (UInt8.ofNat n).toNat = n := by
    rw [UInt8.toNat_ofNat', Nat.mod_eq_of_lt]
    omega
  rcases byte_of_char hb with hb | hb
  · omega
  · rw [← hnat, hb, Char.ofNat_toNat]
    exact hc

theorem scan_plain {d : Nat} {text : Bytes} (hq : 34 ∉ text) (hb : 92 ∉ text) :
    Outline.scan (.string d) text = some (.string d) := by
  induction text with
  | nil => rfl
  | cons b text ih =>
    rw [List.mem_cons, not_or] at hq hb
    rw [Outline.scan_cons, Outline.step, if_neg (Ne.symm hq.1), if_neg (Ne.symm hb.1),
      Option.bind_some, ih hq.2 hb.2]

theorem hexDigits_mem {n : Nat} (hn : n < 32) {x : Char}
    (hx : x ∈ ['0', '0', hexLower.getD (n / 16) '0', hexLower.getD (n % 16) '0']) : x ∈ hexLower := by
  have hget : ∀ d < 16, hexLower.getD d '0' ∈ hexLower := by decide
  simp only [List.mem_cons, List.not_mem_nil, or_false] at hx
  rcases hx with rfl | rfl | rfl | rfl
  · decide
  · decide
  · exact hget _ (by omega)
  · exact hget _ (by omega)

theorem scan_escapeChar (d : Nat) (c : Char) : Outline.scan (.string d) (utf8 (escapeChar c)) =
    some (.string d) := by
  unfold escapeChar
  by_cases hq : c = '"'
  · rw [if_pos hq]
    rfl
  · rw [if_neg hq]
    by_cases hb : c = '\\'
    · rw [if_pos hb]
      rfl
    · rw [if_neg hb]
      by_cases hc : c.toNat < 32
      · rw [if_pos hc, show ∀ s, utf8 ('\\' :: 'u' :: s) = [92, 117] ++ utf8 s from fun _ => rfl,
          Outline.scan_append]
        refine scan_plain (fun h => ?_) (fun h => ?_)
        · exact absurd (hexDigits_mem hc (mem_of_byte (by decide) h)) (by decide)
        · exact absurd (hexDigits_mem hc (mem_of_byte (by decide) h)) (by decide)
      · rw [if_neg hc]
        refine scan_plain (fun h => ?_) (fun h => ?_)
        · exact hq (List.mem_singleton.mp (mem_of_byte (by decide) h)).symm
        · exact hb (List.mem_singleton.mp (mem_of_byte (by decide) h)).symm

theorem scan_escaped (d : Nat) (s : Str) : Outline.scan (.string d) (utf8 (escaped s)) =
    some (.string d) := by
  induction s with
  | nil => rfl
  | cons c s ih =>
    rw [escaped, List.flatMap_cons, utf8_append, Outline.scan_append, scan_escapeChar]
    exact ih

theorem scan_field {q : Outline} {lit : Str} {d : Nat}
    (h : Outline.scan q (utf8 lit) = some (.string d)) (s rest : Str) :
    Outline.scan q (utf8 (lit ++ (escaped s ++ rest))) = Outline.scan (.string d) (utf8 rest) := by
  rw [utf8_append, Outline.scan_append, h, Option.bind_some, utf8_append, Outline.scan_append,
    scan_escaped, Option.bind_some]

theorem scan_char {c : Char} {b : UInt8} {q q' : Outline} (hc : String.utf8EncodeChar c = [b])
    (hs : Outline.step q b = some q') (s : Str) :
    Outline.scan q (utf8 (c :: s)) = Outline.scan q' (utf8 s) := by
  rw [utf8, List.flatMap_cons, hc, List.singleton_append, Outline.scan_cons, hs, Option.bind_some]
  rfl

theorem scan_agentText (agent rest : Str) :
    Outline.scan (.inside 0) (utf8 (agentText agent ++ rest)) = Outline.scan (.inside 0)
    (utf8 rest) := by
  unfold agentText
  by_cases ha : agent = []
  · rw [if_pos ha, List.nil_append]
  · have hkey : Outline.scan (.inside 0) (utf8 "\"agent\":\"".toList) = some (.string 0) := rfl
    have hquote : Outline.step (.string 0) 34 = some (.quoted 0) := rfl
    have hcomma : Outline.step (.quoted 0) 44 = some (.inside 0) := rfl
    rw [if_neg ha, List.append_assoc, List.append_assoc, scan_field hkey,
      show "\",".toList = ['"', ','] from rfl, List.cons_append,
      List.singleton_append, scan_char (b := 34) rfl hquote, scan_char (b := 44) rfl hcomma]

theorem scan_entryText (e : HistoryEntry Message) :
    Outline.scan .start (utf8 (entryText e)) = some .done := by
  have hopen : Outline.step .start 123 = some (.inside 0) := rfl
  have hrole : Outline.scan (.inside 0) (utf8 "\"message\":\x7b\"role\":\"".toList) =
      some (.string 1) := rfl
  have hquote : Outline.step (.string 1) 34 = some (.quoted 1) := rfl
  have hcontent : Outline.scan (.quoted 1) (utf8 ",\"content\":\"".toList) = some (.string 1) := rfl
  have hend : Outline.scan (.quoted 1) (utf8 "\x7d\x7d".toList) = some .done := rfl
  rw [entryText, scan_char (b := 123) rfl hopen, scan_agentText, scan_field hrole,
    scan_char (b := 34) rfl hquote, scan_field hcontent,
    scan_char (b := 34) rfl hquote, hend]

theorem object_entryJson (e : HistoryEntry Message) : Outline.Object (entryJson e) := by
  refine ⟨scan_entryText e, ?_, ?_⟩
  · unfold entryJson entryText agentText
    by_cases ha : e.agent = []
    · rw [if_pos ha]
      exact ⟨_, _, rfl, rfl⟩
    · rw [if_neg ha]
      exact ⟨_, _, rfl, rfl⟩
  · have hends : "\x7d\x7d".toList <:+ entryText e := by
      unfold entryText
      refine .trans ?_ (List.suffix_cons _ _)
      refine .trans ?_ (List.suffix_append _ _)
      refine .trans ?_ (List.suffix_append _ _)
      refine .trans ?_ (List.suffix_append _ _)
      refine .trans ?_ (List.suffix_cons _ _)
      refine .trans ?_ (List.suffix_append _ _)
      refine .trans ?_ (List.suffix_append _ _)
      exact List.suffix_cons _ _
    obtain ⟨front, hfront⟩ := hends
    rw [entryJson, ← hfront, utf8_append]
    exact List.getLast?_append_of_ne_nil _ (List.cons_ne_nil _ _)

theorem newline_escaped (s : Str) : '\n' ∉ escaped s := by
  intro h
  obtain ⟨c, -, hc⟩ := List.mem_flatMap.mp h
  unfold escapeChar at hc
  by_cases hq : c = '"'
  · rw [if_pos hq] at hc
    revert hc
    decide
  · rw [if_neg hq] at hc
    by_cases hb : c = '\\'
    · rw [if_pos hb] at hc
      revert hc
      decide
    · rw [if_neg hb] at hc
      by_cases hl : c.toNat < 32
      · rw [if_pos hl] at hc
        rcases List.mem_cons.mp hc with hc | hc
        · cases hc
        · rcases List.mem_cons.mp hc with hc | hc
          · cases hc
          · exact absurd (hexDigits_mem hl hc) (by decide)
      · rw [if_neg hl] at hc
        rw [← List.mem_singleton.mp hc] at hl
        exact hl (by decide)

theorem newline_entryJson (e : HistoryEntry Message) : newline ∉ entryJson e := by
  intro h
  have hc : '\n' ∈ entryText e := mem_of_byte (by decide) h
  unfold entryText agentText at hc
  by_cases ha : e.agent = []
  · rw [if_pos ha] at hc
    simp [newline_escaped] at hc
  · rw [if_neg ha] at hc
    simp [newline_escaped] at hc

theorem outline_of_readEntry (bytes : Bytes) (e : HistoryEntry Message)
    (h : readEntry bytes = some e) :
    Outline.scan .start bytes = some .done := by
  rw [readEntry, Option.filter_eq_some_iff] at h
  rw [← of_decide_eq_true h.2]
  exact scan_entryText e

/-! ## Metadata -/

def number (text : Str) : Nat × Str :=
  (Nat.ofDigitChars 10 (text.takeWhile Char.isDigit) 0, text.dropWhile Char.isDigit)

theorem number_append (n : Nat) (rest : Str) (h : (rest.head?.all fun c => !c.isDigit) = true) :
    number (Nat.toDigits 10 n ++ rest) = (n, rest) := by
  have hdigits : ∀ c ∈ Nat.toDigits 10 n, c.isDigit = true := fun c hc =>
      Nat.isDigit_of_mem_toDigits (by decide) (by decide) hc
  have htake : rest.takeWhile Char.isDigit = [] ∧ rest.dropWhile Char.isDigit = rest := by
    cases rest with
    | nil => exact ⟨rfl, rfl⟩
    | cons c rest =>
      have hc : c.isDigit = false := by simpa using h
      exact ⟨by rw [List.takeWhile_cons, hc]; rfl, by rw [List.dropWhile_cons, hc]; rfl⟩
  rw [number, List.takeWhile_append_of_pos hdigits, List.dropWhile_append_of_pos hdigits, htake.1,
    htake.2, List.append_nil,
    Nat.ofDigitChars_ten_toDigits]

def metaText (m : SessionMeta) : Str :=
  "\x7b\n  \"agent\": \"".toList ++ (escaped m.agent.toStr ++ '"' ::
    (",\n  \"created_by\": \"".toList ++ (escaped m.createdBy ++ '"' ::
      (",\n  \"created_at\": \"".toList ++ (escaped m.createdAt ++ '"' ::
        (",\n  \"title\": \"".toList ++ (escaped m.title ++ '"' ::
          (",\n  \"updated_at\": \"".toList ++ (escaped m.updatedAt ++ '"' ::
            (",\n  \"message_count\": ".toList ++ (Nat.toDigits 10 m.messageCount ++
              (optText ",\n  \"summary\": \"" m.summary ++
                (optText ",\n  \"root\": \"" m.root ++ "\n\x7d".toList)))))))))))))

def parseMeta (text : Str) : Option SessionMeta := do
  let (agent, rest) ← field "\x7b\n  \"agent\": \"" text
  let (createdBy, rest) ← field ",\n  \"created_by\": \"" rest
  let (createdAt, rest) ← field ",\n  \"created_at\": \"" rest
  let (title, rest) ← field ",\n  \"title\": \"" rest
  let (updatedAt, rest) ← field ",\n  \"updated_at\": \"" rest
  let rest ← expect ",\n  \"message_count\": ".toList rest
  let (messageCount, rest) := number rest
  let (summary, rest) ← optField ",\n  \"summary\": \"" rest
  let (root, _) ← optField ",\n  \"root\": \"" rest
  let agent ← AgentId.ofStr agent
  return { agent, createdBy, createdAt, title, updatedAt, messageCount, summary, root }

theorem parse_metaText (m : SessionMeta) : parseMeta (metaText m) = some m := by
  have hroot : expect ",\n  \"summary\": \"".toList
      (optText ",\n  \"root\": \"" m.root ++ "\n\x7d".toList) = none := by
    cases m.root <;> rfl
  have hcount :
      ((optText ",\n  \"summary\": \"" m.summary ++
      (optText ",\n  \"root\": \"" m.root ++ "\n\x7d".toList)).head?.all
      fun c => !c.isDigit) = true := by
    cases m.summary <;> cases m.root <;> rfl
  have hend : expect ",\n  \"root\": \"".toList "\n\x7d".toList = none := rfl
  unfold parseMeta metaText
  simp only [field_append, expect_append, number_append _ _ hcount, optField_append _ _ _ hroot,
    optField_append _ _ _ hend,
    AgentId.ofStr_toStr, Option.bind_eq_bind, Option.bind_some]
  rfl

def metaJson (m : SessionMeta) : Bytes := utf8 (metaText m)

def readMeta (bytes : Bytes) : Option SessionMeta := (fromUtf8 bytes).bind parseMeta

theorem readMeta_metaJson (m : SessionMeta) : readMeta (metaJson m) = some m := by
  rw [readMeta, metaJson, fromUtf8_utf8, Option.bind_some, parse_metaText]

def callText (call : Str × Str × Str) : Str :=
  "\x7b\"id\":".toList ++ quote call.1 ++ ",\"name\":".toList ++ quote call.2.1 ++
    optText ",\"arguments\":\"" (if call.2.2 = [] then none else some call.2.2) ++ ['}']

def eventText : EventLine → Str
  | .toolStart calls ts =>
    "\x7b\"event\":\"tool_start\",\"calls\":[".toList ++ [','].intercalate (calls.map callText) ++
      "],\"ts\":".toList ++ quote ts ++ ['}']
  | .toolResult callId durationMs ts =>
    "\x7b\"event\":\"tool_result\",\"call_id\":".toList ++ quote callId ++
      ",\"duration_ms\":".toList ++ Nat.toDigits 10 durationMs ++
      ",\"ts\":".toList ++ quote ts ++ ['}']
  | .done model iterations stopReason ts =>
    "\x7b\"event\":\"done\",\"model\":".toList ++ quote model ++ ",\"iterations\":".toList ++
      Nat.toDigits 10 iterations ++
      ",\"stop_reason\":".toList ++ quote stopReason ++ ",\"ts\":".toList ++ quote ts ++ ['}']

scoped instance json : FileStd Message where
  entryJson := entryJson
  readEntry := readEntry
  metaJson := metaJson
  readMeta := readMeta
  eventJson line := utf8 (eventText line)
  isWhitespace := Char.isWhitespace
  readEntry_entryJson := readEntry_entryJson
  readMeta_metaJson := readMeta_metaJson
  object_entryJson := object_entryJson
  newline_entryJson := newline_entryJson
  outline_of_readEntry := outline_of_readEntry

end Crabtalk.Backend.Plain

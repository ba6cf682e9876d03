import Crabtalk.Tui.Editor

/-!
# The buffer of an editor

What each key does to the buffer is what the editor does to its text, the
offsets in bytes being those of the characters, and so is what the history
gives. What is recalled fills the buffer as it was when it reads back.
-/

open Basis
open Crabtalk.Store (Str)

namespace Crabtalk.Tui

/-! ## Offsets -/

theorem getElem?_charIndices (text : Str) (start chars : Nat) :
    ((charIndices start text)[chars]?.map Prod.fst).getD (start + utf8Length text) =
    start + utf8Length (text.take chars) := by
  induction text generalizing start chars with
  | nil => simp [charIndices]
  | cons c text ih =>
    cases chars with
    | zero => simp [charIndices]
    | succ chars =>
      have hrest := ih (start + c.utf8Size) chars
      rw [charIndices, List.getElem?_cons_succ, List.take_succ_cons, utf8Length_cons,
        utf8Length_cons, ← Nat.add_assoc, ← Nat.add_assoc]
      exact hrest

theorem byteOf_eq (text : Str) (chars : Nat) : byteOf text chars = utf8Length (text.take chars) := by
  have h := getElem?_charIndices text 0 chars
  rwa [Nat.zero_add, Nat.zero_add] at h

theorem splitBytes_byteOf (text : Str) (chars : Nat) :
    splitBytes (byteOf text chars) text = some (text.take chars, text.drop chars) := by
  have h := splitBytes_append (text.take chars) (text.drop chars)
  rwa [List.take_append_drop, ← byteOf_eq] at h

theorem drain_byteOf (text : Str) (chars : Nat) :
    drain text (byteOf text chars) (byteOf text (chars + 1)) =
    some (text.take chars ++ text.drop (chars + 1)) := by
  have hrange : byteOf text (chars + 1) - byteOf text chars =
      utf8Length ((text.drop chars).take 1) := by
    rw [byteOf_eq, byteOf_eq, List.take_add, utf8Length_append, Nat.add_sub_cancel_left]
  have hle : ¬ byteOf text (chars + 1) < byteOf text chars := by
    rw [byteOf_eq, byteOf_eq, List.take_add, utf8Length_append]
    omega
  have hrest := splitBytes_append ((text.drop chars).take 1) ((text.drop chars).drop 1)
  rw [List.take_append_drop, List.drop_drop] at hrest
  simp only [drain, hle, if_false, splitBytes_byteOf, hrange, hrest, Option.bind_eq_bind,
    Option.bind_some, pure]

/-! ## The buffer of an editor -/

namespace Buffer

/-- The row is a line, and the column is no further than its end. -/
def InLine (b : Buffer) : Prop := ∃ line, b.lines[b.cursor.1]? = some line ∧
    b.cursor.2 ≤ line.length

def ofCaret (c : Caret Char) : Buffer := ⟨c.rows, c.place⟩

variable (c : Caret Char)

theorem line_ofCaret : c.rows[c.above.length]? = some c.line := c.rows_place

theorem take_line : c.line.take c.before.length = c.before.reverse := by simp [Caret.line]

theorem drop_line : c.line.drop c.before.length = c.after := by simp [Caret.line]

theorem length_rows : c.rows.length = c.above.length + 1 + c.below.length := by
  simp only [Caret.rows, List.length_append, List.length_reverse, List.length_cons]
  omega

theorem set_rows (l : Str) : c.rows.set c.above.length l = c.above.reverse ++ l :: c.below := by
  rw [Caret.rows, List.set_append_right _ _ (by simp)]
  simp

theorem insert_rows {above below : List Str} (l l' : Str) :
    (above.reverse ++ l :: below).insertIdx (above.length + 1) l' = above.reverse ++ l ::
    l' :: below := by
  have hlen : above.length + 1 = above.reverse.length + 1 := by rw [List.length_reverse]
  rw [hlen]
  induction above.reverse with
  | nil => rfl
  | cons a above ih => simpa using ih

theorem newline_ofCaret : (ofCaret c).newline = some (ofCaret c.split) := by
  have hrow : ¬ c.rows.length < c.above.length + 1 := by
    rw [length_rows]
    omega
  simp only [newline, ofCaret, Caret.place, line_ofCaret, splitBytes_byteOf, take_line, drop_line,
    hrow, set_rows, insert_rows, if_false,
    Option.bind_eq_bind, Option.bind_some, pure]
  simp [Caret.split, Caret.rows, Caret.line]

/-! ## Keys -/

theorem insert_ofCaret (ch : Char) : (ofCaret c).key (.char ch) = some (ofCaret (c.insert ch)) := by
  simp only [key, ofCaret, Caret.place, line_ofCaret, splitBytes_byteOf, take_line, drop_line,
    set_rows, Option.bind_eq_bind,
    Option.bind_some, pure]
  simp [Caret.insert, Caret.rows, Caret.line]

theorem home_ofCaret : (ofCaret c).key .home = some (ofCaret c.home) := by
  simp [key, ofCaret, Caret.place, Caret.home, Caret.rows, Caret.line]

theorem toEnd_ofCaret : (ofCaret c).key .toEnd = some (ofCaret c.toEnd) := by
  simp only [key, ofCaret, Caret.place, line_ofCaret, Option.bind_eq_bind, Option.bind_some, pure]
  simp [Caret.toEnd, Caret.rows, Caret.line, Nat.add_comm]

theorem delete_ofCaret : (ofCaret c).key .delete = some (ofCaret c.delete) := by
  simp only [key, ofCaret, Caret.place, line_ofCaret, Option.bind_eq_bind, Option.bind_some, pure]
  cases hafter : c.after with
  | nil =>
    have hend : ¬ c.before.length < c.line.length := by simp [Caret.line, hafter]
    simp only [hend, if_false]
    simp [Caret.delete, Caret.rows, Caret.line, hafter]
  | cons a after =>
    have hend : c.before.length < c.line.length := by simp [Caret.line, hafter]
    have hdrop : c.line.drop (c.before.length + 1) = after := by
      rw [← List.drop_drop, drop_line, hafter]
      rfl
    simp only [hend, if_true, drain_byteOf, take_line, hdrop, Option.bind_some, set_rows]
    simp [Caret.delete, Caret.rows, Caret.line, hafter]

theorem left_ofCaret : (ofCaret c).key .left = some (ofCaret c.left) := by
  obtain ⟨above, before, after, below⟩ := c
  cases before with
  | cons a before => simp [key, ofCaret, Caret.place, Caret.left, Caret.rows, Caret.line]
  | nil => cases above <;> simp [key, ofCaret, Caret.place, Caret.left, Caret.rows, Caret.line]

theorem right_ofCaret : (ofCaret c).key .right = some (ofCaret c.right) := by
  simp only [key, ofCaret, Caret.place, line_ofCaret, length_rows, Option.bind_eq_bind,
    Option.bind_some, pure]
  cases hafter : c.after with
  | cons a after =>
    have hend : ¬ c.line.length ≤ c.before.length := by simp [Caret.line, hafter]
    simp only [hend, if_false]
    simp [Caret.right, Caret.rows, Caret.line, hafter]
  | nil =>
    have hend : c.line.length ≤ c.before.length := by simp [Caret.line, hafter]
    simp only [hend, if_true]
    cases hbelow : c.below with
    | nil => simp [Caret.right, Caret.rows, Caret.line, hafter, hbelow]
    | cons next below => simp [Caret.right, Caret.rows, Caret.line, hafter, hbelow]

theorem backspace_ofCaret (h : c.place ≠ (0, 0)) :
    (ofCaret c).key .backspace = some (ofCaret c.backspace) := by
  obtain ⟨above, before, after, below⟩ := c
  cases before with
  | cons a before =>
    have hline : (⟨above, a :: before, after, below⟩ : Caret Char).line = before.reverse ++ a ::
        after := by simp [Caret.line]
    have htake : (before.reverse ++ a :: after).take before.length = before.reverse :=
      List.take_left' List.length_reverse
    have hdrop : (before.reverse ++ a :: after).drop (before.length + 1) = after := by
      rw [← List.drop_drop, List.drop_left' List.length_reverse]
      rfl
    have hat := line_ofCaret ⟨above, a :: before, after, below⟩
    have hset := set_rows ⟨above, a :: before, after, below⟩
    simp only [hline] at hat hset
    simp only [key, ofCaret, Caret.place, List.length_cons, Nat.add_one_ne_zero, false_and,
      if_false, hat, Nat.add_sub_cancel, drain_byteOf,
      htake, hdrop, hset, Option.bind_eq_bind, Option.bind_some, pure]
    simp [Caret.backspace, Caret.rows, Caret.line]
  | nil =>
    cases above with
    | nil => exact absurd rfl h
    | cons prev above =>
      have hat := line_ofCaret ⟨prev :: above, [], after, below⟩
      have herase : (Caret.rows ⟨prev :: above, [], after, below⟩).eraseIdx (above.length + 1) =
          above.reverse ++ prev :: below := by
        simp [Caret.rows, List.eraseIdx_append]
      have hprev : (above.reverse ++ prev :: below)[above.length]? = some prev := by simp
      simp only [List.length_cons] at hat
      simp only [key, ofCaret, Caret.place, List.length_nil, List.length_cons, Nat.zero_lt_succ,
        and_self, if_true, hat, herase,
        Nat.add_sub_cancel, hprev, Option.bind_eq_bind, Option.bind_some, pure]
      simp [Caret.backspace, Caret.rows, Caret.line]

theorem backspace_none (h : c.place = (0, 0)) : (ofCaret c).key .backspace = none := by
  obtain ⟨above, before, after, below⟩ := c
  obtain ⟨rfl, rfl⟩ : above = [] ∧ before = [] := by simpa [Caret.place] using h
  simp [key, ofCaret, Caret.place, Caret.rows]

theorem up_ofCaret : (ofCaret c).up = some (ofCaret c.up) := by
  obtain ⟨above, before, after, below⟩ := c
  cases above <;> simp [up, ofCaret, Caret.place, Caret.up, Caret.rows, Caret.line]

theorem down_ofCaret : (ofCaret c).down = some (ofCaret c.down) := by
  obtain ⟨above, before, after, below⟩ := c
  cases below <;> simp [down, ofCaret, Caret.place, Caret.down, Caret.rows, Caret.line]

/-- A key does to the buffer what it does to the text. -/
theorem key_ofCaret {code : KeyCode} (h : code = .backspace → c.place ≠ (0, 0)) :
    (ofCaret c).key code = some (ofCaret (Editor.edit c code)) := by
  cases code with
  | backspace => exact backspace_ofCaret c (h rfl)
  | left => exact left_ofCaret c
  | right => exact right_ofCaret c
  | home => exact home_ofCaret c
  | toEnd => exact toEnd_ofCaret c
  | delete => exact delete_ofCaret c
  | char ch => exact insert_ofCaret c ch
  | _ => rfl

theorem inLine_ofCaret : (ofCaret c).InLine := ⟨c.line, c.rows_place, c.place_col⟩

theorem isEmpty_ofCaret : (ofCaret c).isEmpty = decide (c.rows = [[]]) := by
  obtain ⟨l, rows, h⟩ := List.exists_cons_of_ne_nil c.rows_ne_nil
  simp [isEmpty, ofCaret, h, Bool.and_comm]

end Buffer

/-! ## Texts that read back -/

/-- No line ends in a carriage return, and the last is not empty unless it is the only one. -/
def Plain (text : Str) : Prop := text.getLast? ≠ some '\n' ∧ ¬ ['\r', '\n'] <:+: text

theorem plain_line {l : Str} (hl : '\n' ∉ l) (t : Str) : Plain (l ++ '\n' :: t) ↔
    l.getLast? ≠ some '\r' ∧ t ≠ [] ∧ Plain t := by
  constructor
  · rintro ⟨hlast, hcr⟩
    have ht : t ≠ [] := by
      rintro rfl
      exact hlast (by simp)
    refine ⟨fun hl => hcr ?_, ht, fun hlf => hlast ?_, fun hin => hcr ?_⟩
    · obtain ⟨k, rfl⟩ := List.getLast?_eq_some_iff.mp hl
      exact ⟨k, t, by simp⟩
    · rw [List.getLast?_append, List.getLast?_cons_of_ne_nil ht, hlf]
      rfl
    · exact hin.trans ⟨l ++ ['\n'], [], by simp⟩
  · rintro ⟨hcr, ht, hlast, hin⟩
    refine ⟨fun hlf => hlast ?_, ?_⟩
    · rw [List.getLast?_append, List.getLast?_cons_of_ne_nil ht] at hlf
      simpa [List.getLast?_eq_none_iff, ht] using hlf
    · rintro ⟨p, q, heq⟩
      rw [List.append_assoc] at heq
      obtain ⟨r, hp, hr⟩ | ⟨r, hp, hr⟩ := List.append_eq_append_iff.mp heq
      · cases r with
        | nil => simp at hr
        | cons x r =>
          cases r with
          | nil =>
            obtain ⟨rfl, -⟩ : x = '\r' ∧ _ := by simpa [eq_comm] using hr
            exact hcr (by simp [hp])
          | cons y r =>
            obtain ⟨-, rfl, -⟩ : x = '\r' ∧ y = '\n' ∧ _ := by simpa [eq_comm] using hr
            exact hl (by simp [hp])
      · cases r with
        | nil => simp at hr
        | cons x r =>
          obtain ⟨-, rfl⟩ : x = '\n' ∧ t = r ++ ['\r', '\n'] ++ q := by simpa [eq_comm] using hr
          exact hin ⟨r, q, rfl⟩

/-- The lines of a text are what is between its line breaks. -/
theorem lines_eq_splitOn_iff {text : Str} (hne : text ≠ []) : lines text = text.splitOn '\n' ↔
    Plain text := by
  induction text using lines_induction with
  | nil => exact absurd rfl hne
  | last l hl hne =>
    rw [lines_last hl hne, List.splitOn_eq_singleton hl]
    refine iff_of_true rfl ⟨fun hlf => hl (List.mem_of_getLast? hlf),
      fun hin => hl (hin.subset (by simp))⟩
  | line l t hl ih =>
    rw [lines_line hl, List.splitOn_append_cons_self_of_not_mem hl, List.cons.injEq, trimEol_lf_iff,
      plain_line hl]
    by_cases ht : t = []
    · subst ht
      simp [lines]
    · rw [ih ht, and_iff_right ht]

theorem joinLines_lines_iff {text : Str} (hne : text ≠ []) : joinLines (lines text) = text ↔
    Plain text := by
  rw [← lines_eq_splitOn_iff hne]
  constructor
  · intro h
    have hls : lines text ≠ [] := fun hnil => hne (by rw [← h, hnil]; rfl)
    have hsplit := List.splitOn_intercalate '\n' (fun l hl => notMem_of_mem_lines hl) hls
    rw [← hsplit]
    exact congrArg (List.splitOn '\n') h
  · intro h
    rw [h]
    exact List.intercalate_splitOn '\n'

theorem fromStr_plain {text : Str} (h : Plain text) :
    Buffer.fromStr text = some (.ofCaret (Editor.ofText text)) := by
  have hrows : (if text = [] then [[]] else lines text) = text.splitOn '\n' := by
    split
    · next hnil => rw [hnil]; rfl
    · next hne => exact (lines_eq_splitOn_iff hne).mpr h
  rw [Buffer.fromStr, hrows, Editor.ofText]
  obtain ⟨front, last, heq⟩ := (List.eq_nil_or_concat' (text.splitOn '\n')).resolve_left
      (List.splitOn_ne_nil _ _)
  rw [heq]
  simp [Caret.ofRows, Buffer.ofCaret, Caret.rows, Caret.line, Caret.place]

theorem plain_of_fromStr {text : Str} {b : Buffer} (hb : Buffer.fromStr text = some b)
    (h : b.content = text) : Plain text := by
  by_cases hne : text = []
  · subst hne
    exact ⟨by simp, by simp⟩
  · have hlines : b.lines = lines text := by
      simp only [Buffer.fromStr, hne, if_false, Option.bind_eq_bind] at hb
      split at hb
      · cases hb
      · obtain ⟨last, -, hlast⟩ := Option.bind_eq_some_iff.mp hb
        cases hlast
        rfl
    refine (joinLines_lines_iff hne).mp ?_
    rw [← hlines]
    exact h

/-! ## History -/

namespace History

def AtEnd (h : History) : Prop := h.cursor = h.entries.length

def ofRecall (r : Recall) : History := ⟨r.older.reverse ++ r.newer, r.older.length, r.draft⟩

variable (r : Recall)

theorem prev_ofRecall (current : Str) :
    (ofRecall r).prev current = some (ofRecall (r.up current).1, (r.up current).2) := by
  obtain ⟨older, newer, draft⟩ := r
  cases older with
  | nil => cases newer <;> simp [History.prev, ofRecall, Recall.up]
  | cons entry older => cases newer <;> simp [History.prev, ofRecall, Recall.up]

theorem next_ofRecall : (ofRecall r).next = some (ofRecall r.down.1, r.down.2) := by
  obtain ⟨older, newer, draft⟩ := r
  cases newer with
  | nil => simp [History.next, ofRecall, Recall.down]
  | cons entry newer => cases newer <;> simp [History.next, ofRecall, Recall.down]

theorem entries_ofRecall : (ofRecall r).entries = (r.newer.reverse ++ r.older).reverse :=
  by simp [ofRecall]

theorem push_ofRecall (line : Str) : (ofRecall r).push line = ofRecall (r.push line) := by
  have hlast : (ofRecall r).entries.getLast? = (r.newer.reverse ++ r.older).head? := by
    rw [entries_ofRecall, List.getLast?_reverse]
  rw [History.push, hlast, Recall.push]
  by_cases hblank : trim line = []
  · simp [hblank, ofRecall, Nat.add_comm]
  · by_cases hsame : (r.newer.reverse ++ r.older).head? = some (trim line)
    · simp only [hblank, hsame, if_false, if_true, or_true]
      simp [ofRecall, Nat.add_comm]
    · simp only [hblank, hsame, if_false, or_self]
      simp [ofRecall, Nat.add_comm, Nat.add_assoc]

theorem load_ofRecall (file : Option Str) :
    load file = ofRecall ⟨(load file).entries.reverse, [], []⟩ := by
  simp [ofRecall, load]

theorem atEnd_ofRecall {r : Recall} : (ofRecall r).AtEnd ↔ r.newer = [] := by
  simp [AtEnd, ofRecall, List.length_eq_zero_iff]

end History

end Crabtalk.Tui

import Crabtalk.Tui.Keys

/-!
# The box does as the editor

A step of the box is the editor's when it does not delete before the first
character and what it recalls reads back, and not otherwise; so is a run, and
then what was being typed is there again on the way back.
-/

open Basis
open Crabtalk.Store (Str)

namespace Crabtalk.Tui

/-! ## The box of an editor -/

namespace Input

def ofEditor (e : Editor) : Input := ⟨.ofCaret e.caret, .ofRecall e.past⟩

/-- The step does not go below zero, and what it recalls reads back. -/
def Sound (i : Input) : Step → Prop
  | .clear => True
  | .key k =>
    match k.code with
    | .backspace => i.buf.cursor ≠ (0, 0)
    | .up =>
      i.buf.cursor.1 = 0 → 0 < i.history.cursor → ∀ text, i.history.entries[i.history.cursor - 1]? =
        some text → Plain text
    | .down =>
      i.buf.cursor.1 + 1 = i.buf.lines.length →
        ∀ text, (i.history.entries ++ [i.history.stash])[i.history.cursor + 1]? = some text → Plain text
    | _ => True

def Follows (e : Editor) (after : Option Input) : Prop := ∃ i, after = some i ∧
    i.buf.content = e.text

variable (e : Editor)

theorem content_ofEditor : (ofEditor e).buf.content = e.text := rfl

theorem fill_ofEditor {recalled : Recall × Option Str}
    (h : ∀ text, recalled.2 = some text → Plain text) :
    (ofEditor e).fill (some (.ofRecall recalled.1, recalled.2)) =
    some (ofEditor (e.display recalled)) := by
  obtain ⟨r, text⟩ := recalled
  cases text with
  | none => rfl
  | some text => simp [fill, fromStr_plain (h text rfl), Editor.display, ofEditor]

theorem plain_of_fill {recalled : Recall × Option Str}
    (h : Follows (e.display recalled) ((ofEditor e).fill (some (.ofRecall recalled.1, recalled.2))))
    {text : Str} (htext : recalled.2 = some text) :
    Plain text := by
  obtain ⟨r, shown⟩ := recalled
  cases htext
  obtain ⟨i, hi, hcontent⟩ := h
  obtain ⟨b, hb, hfill⟩ := Option.bind_eq_some_iff.mp hi
  cases hfill
  exact plain_of_fromStr hb (hcontent.trans (Editor.text_ofText text r))

/-! ## Up and down -/

variable (ctrl shift : Bool)

theorem sound_up : (ofEditor e).Sound (.key ⟨.up, ctrl, shift⟩) ↔
    (e.caret.above = [] → ∀ text, (e.past.up e.text).2 = some text → Plain text) := by
  refine imp_congr (by simp [ofEditor, Buffer.ofCaret, Caret.place]) ?_
  cases hold : e.past.older with
  | nil => simp [ofEditor, History.ofRecall, Recall.up, hold]
  | cons entry older => simp [ofEditor, History.ofRecall, Recall.up, hold]

theorem sound_down : (ofEditor e).Sound (.key ⟨.down, ctrl, shift⟩) ↔
    (e.caret.below = [] → ∀ text, e.past.down.2 = some text → Plain text) := by
  refine imp_congr (by simp [ofEditor, Buffer.ofCaret, Caret.place, Buffer.length_rows]) ?_
  cases hnew : e.past.newer with
  | nil => simp [ofEditor, History.ofRecall, Recall.down, hnew]
  | cons entry newer => cases newer <;> simp [ofEditor, History.ofRecall, Recall.down, hnew]

/-- In the first line, the key is for the history. -/
theorem step_up : (ofEditor e).step (.key ⟨.up, ctrl, shift⟩) =
    if e.caret.above = [] then (ofEditor e).fill
    (some (.ofRecall (e.past.up e.text).1, (e.past.up e.text).2))
    else some (ofEditor { e with caret := e.caret.up }) := by
  have hlen := Buffer.length_rows e.caret
  by_cases habove : e.caret.above = []
  · have hstay : ¬ (1 < (ofEditor e).buf.lines.length ∧ 0 < (ofEditor e).buf.cursor.1) := fun hrow => by
      simp [ofEditor, Buffer.ofCaret, Caret.place, habove] at hrow
    have hprev : (ofEditor e).history.prev (ofEditor e).buf.content =
        some (.ofRecall (e.past.up e.text).1, (e.past.up e.text).2) :=
      History.prev_ofRecall e.past e.text
    simp [step, key, hstay, hprev, habove, Function.comp_def]
  · have hpos := List.length_pos_iff.mpr habove
    have hmove : 1 < (ofEditor e).buf.lines.length ∧ 0 < (ofEditor e).buf.cursor.1 := by
      simp only [ofEditor, Buffer.ofCaret, Caret.place]
      omega
    have hup : (ofEditor e).buf.up = some (.ofCaret e.caret.up) := Buffer.up_ofCaret e.caret
    simp [step, key, hmove, hup, habove]
    rfl

theorem step_down : (ofEditor e).step (.key ⟨.down, ctrl, shift⟩) =
    if e.caret.below = [] then (ofEditor e).fill (some (.ofRecall e.past.down.1, e.past.down.2))
    else some (ofEditor { e with caret := e.caret.down }) := by
  have hlen := Buffer.length_rows e.caret
  have hrow : (ofEditor e).buf.cursor.1 + 1 < (ofEditor e).buf.lines.length ↔
      e.caret.below ≠ [] := by
    rw [ne_eq, ← List.length_eq_zero_iff]
    simp only [ofEditor, Buffer.ofCaret, Caret.place]
    omega
  by_cases hbelow : e.caret.below = []
  · have hnext : (ofEditor e).history.next = some (.ofRecall e.past.down.1, e.past.down.2) :=
      History.next_ofRecall e.past
    simp [step, key, hrow, hbelow, hnext, Function.comp_def]
  · have hdown : (ofEditor e).buf.down = some (.ofCaret e.caret.down) := Buffer.down_ofCaret e.caret
    simp [step, key, hrow, hbelow, hdown]
    rfl

theorem editor_up : e.step (.key ⟨.up, ctrl, shift⟩) =
    if e.caret.above = [] then e.display (e.past.up e.text) else { e with caret := e.caret.up } := by
  by_cases habove : e.caret.above = []
  · simp [Editor.step, Editor.key, habove]
  · simp [Editor.step, Editor.key, habove]

theorem editor_down : e.step (.key ⟨.down, ctrl, shift⟩) =
    if e.caret.below = [] then e.display e.past.down else { e with caret := e.caret.down } := by
  by_cases hbelow : e.caret.below = []
  · simp [Editor.step, Editor.key, hbelow]
  · simp [Editor.step, Editor.key, hbelow]

theorem up_ofEditor (h : (ofEditor e).Sound (.key ⟨.up, ctrl, shift⟩)) :
    (ofEditor e).step (.key ⟨.up, ctrl, shift⟩) =
    some (ofEditor (e.step (.key ⟨.up, ctrl, shift⟩))) := by
  rw [step_up, editor_up]
  split
  · next habove => exact fill_ofEditor e ((sound_up e ctrl shift).mp h habove)
  · rfl

theorem down_ofEditor (h : (ofEditor e).Sound (.key ⟨.down, ctrl, shift⟩)) :
    (ofEditor e).step (.key ⟨.down, ctrl, shift⟩) =
    some (ofEditor (e.step (.key ⟨.down, ctrl, shift⟩))) := by
  rw [step_down, editor_down]
  split
  · next hbelow => exact fill_ofEditor e ((sound_down e ctrl shift).mp h hbelow)
  · rfl

/-! ## Other keys -/

/-- A key that is neither for a line nor for the history. -/
theorem edit_ofEditor {code : KeyCode} (hcode : code ≠ .enter ∧ code ≠ .up ∧ code ≠ .down)
    (h : (ofEditor e).Sound (.key ⟨code, ctrl, shift⟩)) :
    (ofEditor e).step (.key ⟨code, ctrl, shift⟩) =
    some (ofEditor (e.step (.key ⟨code, ctrl, shift⟩))) := by
  have hempty : (ofEditor e).buf.isEmpty = decide (e.caret.rows = [[]]) :=
    Buffer.isEmpty_ofCaret e.caret
  have hkey : (ofEditor e).buf.key code = some (.ofCaret (Editor.edit e.caret code)) :=
    Buffer.key_ofCaret e.caret fun hback => by
      subst hback
      exact h
  by_cases hc : code = .char 'c' ∧ ctrl = true
  · simp [step, key, Editor.step, Editor.key, hc]
  · by_cases hd : code = .char 'd' ∧ ctrl = true ∧ e.caret.rows = [[]]
    · simp [step, key, Editor.step, Editor.key, hd, hempty]
    · simp only [step, key, Editor.step, Editor.key, hc, hd, hempty, decide_eq_true_eq,
        if_false, or_self]
      cases code with
      | enter => exact absurd rfl hcode.1
      | up => exact absurd rfl hcode.2.1
      | down => exact absurd rfl hcode.2.2
      | _ => simp only [hkey, Option.map_some]; rfl

theorem enter_ofEditor :
    (ofEditor e).step (.key ⟨.enter, ctrl, shift⟩) =
    some (ofEditor (e.step (.key ⟨.enter, ctrl, shift⟩))) := by
  cases shift with
  | true =>
    have hsplit : (ofEditor e).buf.newline = some (.ofCaret e.caret.split) :=
      Buffer.newline_ofCaret e.caret
    simp [step, key, Editor.step, Editor.key, hsplit]
    rfl
  | false =>
    have hpush : (ofEditor e).history.push (ofEditor e).buf.content =
        .ofRecall (e.past.push e.text) := History.push_ofRecall e.past e.text
    simp [step, key, Editor.step, Editor.key, hpush]
    rfl

/-- A sound step does to the box what it does to the editor. -/
theorem step_ofEditor {s : Step} (h : (ofEditor e).Sound s) :
    (ofEditor e).step s = some (ofEditor (e.step s)) := by
  cases s with
  | clear => rfl
  | key k =>
    obtain ⟨code, ctrl, shift⟩ := k
    by_cases henter : code = .enter
    · subst henter
      exact enter_ofEditor e ctrl shift
    by_cases hup : code = .up
    · subst hup
      exact up_ofEditor e ctrl shift h
    by_cases hdown : code = .down
    · subst hdown
      exact down_ofEditor e ctrl shift h
    exact edit_ofEditor e ctrl shift ⟨henter, hup, hdown⟩ h

theorem sound_of_step {s : Step} (h : Follows (e.step s) ((ofEditor e).step s)) :
    (ofEditor e).Sound s := by
  cases s with
  | clear => trivial
  | key k =>
    obtain ⟨code, ctrl, shift⟩ := k
    cases code with
    | backspace =>
      intro (hplace : e.caret.place = (0, 0))
      obtain ⟨i, hi, -⟩ := h
      have hnone : (ofEditor e).buf.key .backspace = none := Buffer.backspace_none e.caret hplace
      simp [step, key, hnone] at hi
    | up =>
      rw [sound_up]
      intro habove text htext
      rw [step_up, editor_up, if_pos habove, if_pos habove] at h
      exact plain_of_fill e h htext
    | down =>
      rw [sound_down]
      intro hbelow text htext
      rw [step_down, editor_down, if_pos hbelow, if_pos hbelow] at h
      exact plain_of_fill e h htext
    | _ => trivial

/-! ## Runs -/

theorem run_cons (i : Input) (s : Step) (steps : List Step) :
    i.run (s :: steps) = (i.step s).bind (·.run steps) := by
  simp [run, List.foldlM_cons]

/-- Every step of a run is sound where it is taken. -/
def Meets (i : Input) (steps : List Step) : Prop := ∀ before s rest, steps = before ++ s :: rest →
    ∀ j, i.run before = some j → j.Sound s

theorem meets_cons {i : Input} {s : Step} {steps : List Step} :
    i.Meets (s :: steps) ↔ i.Sound s ∧ ∀ j, i.step s = some j → j.Meets steps := by
  constructor
  · intro h
    refine ⟨h [] s steps rfl i rfl, ?_⟩
    intro j hj before s' rest hsteps k hk
    refine h (s :: before) s' rest (by rw [hsteps, List.cons_append]) k ?_
    rw [run_cons, hj]
    exact hk
  · rintro ⟨hs, h⟩ before s' rest hsteps k hk
    cases before with
    | nil =>
      cases hsteps
      cases hk
      exact hs
    | cons b before =>
      cases hsteps
      rw [run_cons] at hk
      obtain ⟨j, hj, hk⟩ := Option.bind_eq_some_iff.mp hk
      exact h j hj before s' rest rfl k hk

theorem meets_front {i : Input} {before rest : List Step} (h : i.Meets (before ++ rest)) :
    i.Meets before := by
  intro front s back hbefore
  exact h front s (back ++ rest) (by rw [hbefore, List.append_assoc, List.cons_append])

variable {e}

theorem run_ofEditor {steps : List Step} (h : (ofEditor e).Meets steps) :
    (ofEditor e).run steps = some (ofEditor (e.run steps)) := by
  induction steps generalizing e with
  | nil => rfl
  | cons s steps ih =>
    obtain ⟨hs, hrest⟩ := meets_cons.mp h
    have hstep := step_ofEditor e hs
    rw [run_cons, hstep]
    exact ih (hrest _ hstep)

theorem meets_of_follows {steps : List Step}
    (h : ∀ before rest, steps = before ++ rest → Follows (e.run before) ((ofEditor e).run before)) :
    (ofEditor e).Meets steps := by
  induction steps generalizing e with
  | nil =>
    intro before s rest hsteps
    simp at hsteps
  | cons s steps ih =>
    have hfirst := h [s] steps rfl
    rw [run_cons] at hfirst
    have hs : (ofEditor e).Sound s := sound_of_step e (by simpa [run, Editor.run] using hfirst)
    have hstep := step_ofEditor e hs
    rw [meets_cons]
    refine ⟨hs, ?_⟩
    intro j hj
    rw [hstep] at hj
    cases hj
    refine ih fun before rest hsteps => ?_
    have hnext := h (s :: before) rest (by rw [hsteps, List.cons_append])
    rw [run_cons, hstep] at hnext
    exact hnext

/-! ## What is typed -/

def typed (file : Option Str) (steps : List Step) : Option Input := (new (.load file)).run steps

def edited (file : Option Str) (steps : List Step) : Editor := (Editor.new (.load file)).run steps

/-- Nothing fails, the cursor is in a line, the text is the editor's, and up and down again is where
it was. -/
def Edits (file : Option Str) (steps : List Step) : Prop :=
  ∀ before rest, steps = before ++ rest → ∃ i, typed file before = some i ∧ i.buf.InLine ∧
    i.buf.content = (edited file before).text ∧
    ∀ front moves j, before = front ++ moves → (∀ s ∈ moves, Editor.IsRecall s) →
    typed file front = some j →
      j.history.AtEnd → i.history.AtEnd → i.buf.content = j.buf.content

theorem edits_iff (file : Option Str) (steps : List Step) : Edits file steps ↔
    (new (.load file)).Meets steps := by
  have hstart : new (.load file) = ofEditor (Editor.new (.load file)) := by
    rw [new, ofEditor, Editor.new, ← History.load_ofRecall]
    rfl
  have hrun : ∀ before, (ofEditor (Editor.new (.load file))).Meets before →
      typed file before = some (ofEditor (edited file before)) := by
    intro before hmeets
    rw [typed, hstart]
    exact run_ofEditor hmeets
  rw [hstart]
  constructor
  · intro h
    refine meets_of_follows fun before rest hsteps => ?_
    obtain ⟨i, hi, -, hcontent, -⟩ := h before rest hsteps
    rw [typed, hstart] at hi
    exact ⟨i, hi, hcontent⟩
  · rintro h before rest rfl
    have hmeets := meets_front h
    refine ⟨_, hrun before hmeets, Buffer.inLine_ofCaret _, rfl, ?_⟩
    rintro front moves j rfl hmoves hj hend hback
    have hfront : j = ofEditor (edited file front) := by
      rw [hrun front (meets_front hmeets)] at hj
      exact (Option.some.inj hj).symm
    subst hfront
    have hrecalled : edited file (front ++ moves) = (edited file front).run moves :=
      List.foldl_append
    rw [content_ofEditor, content_ofEditor, hrecalled]
    refine Editor.text_recalled hmoves (History.atEnd_ofRecall.mp hend) ?_
    rw [← hrecalled]
    exact History.atEnd_ofRecall.mp hback

/-- A key before the first character, and a draft whose last line is empty. -/
theorem edits_lost : ¬ Edits none [.key ⟨.backspace, false, false⟩] ∧
    ¬ Edits (some ['b']) [.key ⟨.char 'a', false, false⟩, .key ⟨.enter, false, true⟩,
      .key ⟨.up, false, false⟩, .key ⟨.up, false, false⟩,
      .key ⟨.down, false, false⟩] := by
  constructor
  · intro h
    obtain ⟨i, hi, -⟩ := h _ [] (List.append_nil _).symm
    have hnone : typed none [.key ⟨.backspace, false, false⟩] = none := by decide
    rw [hnone] at hi
    cases hi
  · intro h
    obtain ⟨i, hi, -, hcontent, -⟩ := h _ [] (List.append_nil _).symm
    have hleft : typed (some ['b']) [.key ⟨.char 'a', false, false⟩, .key ⟨.enter, false, true⟩,
        .key ⟨.up, false, false⟩,
        .key ⟨.up, false, false⟩, .key ⟨.down, false, false⟩] =
        some ⟨⟨[['a']], (0, 1)⟩, ⟨[['b']], 1, ['a', '\n']⟩⟩ := by decide
    rw [hleft] at hi
    cases hi
    exact absurd hcontent (by decide)

end Input

end Crabtalk.Tui

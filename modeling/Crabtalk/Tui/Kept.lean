import Crabtalk.Tui.Item

/-!
# What the transcript keeps

The items account for the text that was pushed, but for what a block holds that
is not closed and for the line that is not ended. What flushes one of the two
has to know of the other.
-/

open Basis
open Crabtalk.Store (Str)

namespace Crabtalk.Tui

/-! ## What items stand for -/

namespace Item

def source : Item → Str
  | .text md _ => md
  | .code s => s
  | .table rows => rows
  | _ => []

def thought : Item → Str
  | .thinking s => s
  | _ => []

def FenceLine (s : Str) : Prop := ∃ line, "```".toList <+: line ∧ '\n' ∉ line ∧ s = line ++ ['\n']

/-- What an item stands for beside its source: the break of its line, or the fence that was around it. -/
def Drops : Item → Str → Prop
  | .text _ _, s | .blank, s => s = [] ∨ s = ['\n']
  | .border _, s => FenceLine s
  | .code _, s => s = [] ∨ FenceLine s
  | _, s => s = []

end Item

/-- The text is the sources of the items in order, with what they stand for beside them in
between. -/
def Accounts (items : List Item) (text : Str) : Prop :=
  ∃ dropped : List Str, List.Forall₂ Item.Drops items dropped ∧
    text = (List.zipWith (fun item d => item.source ++ d) items dropped).flatten

namespace Transcript

def textOf : Event → Str
  | .text chunk => chunk
  | _ => []

def thinkingOf : Event → Str
  | .thinking chunk => chunk
  | _ => []

/-! ## Care -/

def block (t : Transcript) : Str :=
  match t.state with
  | .code code => code
  | .table rows => rows
  | .normal | .thinking => []

def inTable (t : Transcript) : Bool :=
  match t.state with
  | .table _ => true
  | _ => false

section
variable [TuiStd]

/-- No thinking breaks into a block that holds text, no tool into the row of a table, and no label
is cut inside a character. -/
def Careful (t : Transcript) : Event → Prop
  | .thinking chunk => chunk = [] ∨ t.block = []
  | .toolStart calls =>
    (t.line = [] ∨ t.inTable = false) ∧ ∀ call ∈ calls, (label call.1 call.2 t.width).isSome
  | _ => True

/-- No turn ends in a table, nor behind a line break in a code block that holds text. -/
def CarefulEnd (t : Transcript) : Prop := t.inTable = false ∧ (t.block = [] ∨ t.line ≠ [])

/-- Each event is careful in the transcript it comes to, and so is the end. -/
def CarefulRun (t : Transcript) : List Event → Prop
  | [] => t.CarefulEnd
  | e :: events => t.Careful e ∧ ∀ t' ∈ t.perform e, t'.CarefulRun events

instance (t : Transcript) : (e : Event) → Decidable (t.Careful e)
  | .thinking chunk => inferInstanceAs (Decidable (chunk = [] ∨ t.block = []))
  | .toolStart calls =>
    inferInstanceAs (Decidable ((t.line = [] ∨ t.inTable = false) ∧
      ∀ call ∈ calls, (label call.1 call.2 t.width).isSome))
  | .start | .text _ | .toolResult _ | .toolDone => instDecidableTrue

instance (t : Transcript) : Decidable t.CarefulEnd := inferInstanceAs (Decidable (_ ∧ _))

instance decidableCarefulRun : (t : Transcript) → (events : List Event) →
    Decidable (t.CarefulRun events)
  | t, [] => inferInstanceAs (Decidable t.CarefulEnd)
  | t, e :: events =>
    have : DecidablePred fun t' : Transcript => t'.CarefulRun events :=
      fun t' => decidableCarefulRun t' events
    inferInstanceAs (Decidable (t.Careful e ∧ ∀ t' ∈ t.perform e, t'.CarefulRun events))

end

end Transcript

/-! ## Accounts -/

section
variable {items items' : List Item} {text d : Str}

theorem Accounts.nil : Accounts [] [] := ⟨[], .nil, rfl⟩

theorem Accounts.append (h : Accounts items text) (item : Item) (hd : item.Drops d) :
    Accounts (items ++ [item]) (text ++ item.source ++ d) := by
  obtain ⟨dropped, hall, rfl⟩ := h
  refine ⟨dropped ++ [d], List.rel_append hall (.cons hd .nil), ?_⟩
  rw [List.zipWith_append hall.length_eq, List.flatten_append]
  simp

def Item.Alike (a b : Item) : Prop := a.source = b.source ∧ a.thought = b.thought ∧
    ∀ d, a.Drops d ↔ b.Drops d

theorem Item.Alike.refl (a : Item) : a.Alike a := ⟨rfl, rfl, fun _ => .rfl⟩

theorem Accounts.alike (h : Accounts items text) (ha : List.Forall₂ Item.Alike items items') :
    Accounts items' text := by
  obtain ⟨dropped, hall, rfl⟩ := h
  refine ⟨dropped, ?_⟩
  induction ha generalizing dropped with
  | nil =>
    cases hall
    exact ⟨.nil, rfl⟩
  | cons hab _ ih =>
    cases hall with
    | cons hd hall =>
      obtain ⟨hall', heq⟩ := ih _ hall
      refine ⟨.cons ((hab.2.2 _).mp hd) hall', ?_⟩
      rw [List.zipWith_cons_cons, List.zipWith_cons_cons, List.flatten_cons,
        List.flatten_cons, heq, hab.1]

theorem thought_alike (ha : List.Forall₂ Item.Alike items items') :
    items'.flatMap Item.thought = items.flatMap Item.thought := by
  induction ha with
  | nil => rfl
  | cons hab _ ih => rw [List.flatMap_cons, List.flatMap_cons, ih, hab.2.1]

end

namespace Transcript

/-! ## The text -/

section
variable {t : Transcript} {text : Str}

@[simp] theorem push_items (t : Transcript) (item : Item) :
    (t.push item).items = t.items ++ [item] := rfl

@[simp] theorem push_state (t : Transcript) (item : Item) : (t.push item).state = t.state := rfl

@[simp] theorem push_line (t : Transcript) (item : Item) : (t.push item).line = t.line := rfl

@[simp] theorem push_thinking (t : Transcript) (item : Item) :
    (t.push item).thinking = t.thinking := rfl

@[simp] theorem push_block (t : Transcript) (item : Item) : (t.push item).block = t.block := rfl

/-- The items account for the text but for the open block and the open line. -/
structure Kept (t : Transcript) (text : Str) : Prop where
  told : ∃ told, Accounts t.items told ∧ text = told ++ t.block ++ t.line
  line : '\n' ∉ t.line

theorem Kept.congr {t' : Transcript} (h : Kept t text) (hitems : t'.items = t.items)
    (hblock : t'.block = t.block) (hline : t'.line = t.line) :
    Kept t' text := by
  obtain ⟨⟨told, ha, ht⟩, hn⟩ := h
  exact ⟨⟨told, hitems ▸ ha, by rw [ht, hblock, hline]⟩, hline ▸ hn⟩

theorem Kept.push (h : Kept t text) (item : Item) (hs : item.source = []) (hd : item.Drops []) :
    Kept (t.push item) text := by
  obtain ⟨⟨told, ha, ht⟩, hn⟩ := h
  have happ := ha.append item hd
  rw [hs, List.append_nil, List.append_nil] at happ
  exact ⟨⟨told, happ, ht⟩, hn⟩

theorem kept_flushThinking (h : Kept t text) : Kept t.flushThinking text := by
  unfold flushThinking
  have hflushed : Kept (if t.thinking = [] then t
      else { t.push (.thinking t.thinking) with thinking := [] }) text := by
    split
    · exact h
    · exact (h.push (.thinking t.thinking) rfl rfl).congr rfl rfl rfl
  dsimp only
  split
  · rename_i hstate
    refine hflushed.congr rfl ?_ rfl
    simp only [block, hstate]
  · exact hflushed

/-- An open line is told after the block that is open. In a table it cannot be. -/
theorem kept_flushLine (h : Kept t text) (ht : t.line = [] ∨ t.inTable = false) :
    Kept t.flushLine text ∧ t.flushLine.line = [] := by
  unfold flushLine
  split
  · exact ⟨h, by assumption⟩
  · rename_i hne
    obtain ⟨⟨told, ha, htext⟩, -⟩ := h
    have hrows := ht.resolve_left hne
    dsimp only
    cases hstate : t.state with
    | code code =>
      refine ⟨⟨⟨_, ha.append (.code (code ++ t.line)) (.inl rfl), ?_⟩, List.not_mem_nil⟩, rfl⟩
      simp [htext, block, hstate, Item.source]
    | table rows => simp [inTable, hstate] at hrows
    | normal =>
      refine ⟨⟨⟨_, ha.append (.text t.line t.marker) (.inl rfl), ?_⟩, List.not_mem_nil⟩, rfl⟩
      simp [htext, block, hstate, Item.source, Transcript.push]
    | thinking =>
      refine ⟨⟨⟨_, ha.append (.text t.line t.marker) (.inl rfl), ?_⟩, List.not_mem_nil⟩, rfl⟩
      simp [htext, block, hstate, Item.source, Transcript.push]

theorem kept_plainLine {line : Str} (h : Kept t text)
    (hstate : t.state = .normal ∨ t.state = .thinking) (hline : t.line = [])
    (hn : '\n' ∉ line) : Kept (t.plainLine line) (text ++ line ++ ['\n']) ∧
    (t.plainLine line).line = [] := by
  obtain ⟨⟨told, ha, htext⟩, -⟩ := h
  have hopen : '\n' ∉ t.line := hline ▸ List.not_mem_nil
  have hblock : t.block = [] := by
    rcases hstate with hs | hs <;> simp only [block, hs]
  rw [hblock, hline, List.append_nil, List.append_nil] at htext
  unfold plainLine
  split
  · rename_i hfence
    have hdrop : (Item.border (if trim (line.drop 3) = [] then "┌─".toList
        else "┌ ".toList ++ trim (line.drop 3) ++ " ─".toList)).Drops
        (line ++ ['\n']) := ⟨line, List.isPrefixOf_iff_prefix.mp hfence, hn, rfl⟩
    refine ⟨⟨⟨_, ha.append _ hdrop, ?_⟩, hopen⟩, hline⟩
    simp [htext, block, hline, openCode, Item.source]
  · split
    · refine ⟨⟨⟨told, ha, ?_⟩, hopen⟩, hline⟩
      simp [htext, block, hline]
    · split
      · rename_i hnil
        refine ⟨⟨⟨_, ha.append .blank (.inr rfl), ?_⟩, hopen⟩, hline⟩
        simp [htext, hblock, hline, hnil, Item.source]
      · refine ⟨⟨⟨_, ha.append (.text line t.marker) (.inr rfl), ?_⟩, hopen⟩, hline⟩
        simp [htext, hblock, hline, Item.source]

theorem kept_flushTable {rows : Str} (h : Kept t text) (hstate : t.state = .table rows) :
    Kept t.flushTable text := by
  obtain ⟨⟨told, ha, htext⟩, hn⟩ := h
  unfold flushTable
  rw [hstate]
  refine ⟨⟨_, ha.append (.table rows) rfl, ?_⟩, hn⟩
  simp [htext, block, hstate, Item.source]

/-- Whatever a line is to the block that is open, it is told or held. -/
theorem kept_takeLine {line : Str} (h : Kept t text) (hline : t.line = []) (hn : '\n' ∉ line) :
    Kept (t.takeLine line) (text ++ line ++ ['\n']) ∧ (t.takeLine line).line = [] := by
  have hopen : '\n' ∉ t.line := hline ▸ List.not_mem_nil
  unfold takeLine
  cases hstate : t.state with
  | normal => exact kept_plainLine h (.inl hstate) hline hn
  | thinking => exact kept_plainLine h (.inr hstate) hline hn
  | code code =>
    obtain ⟨⟨told, ha, htext⟩, -⟩ := h
    dsimp only
    split
    · rename_i hfence
      have hdrop : (Item.code code).Drops (line ++ ['\n']) :=
        .inr ⟨line, List.isPrefixOf_iff_prefix.mp hfence, hn, rfl⟩
      refine ⟨⟨⟨_, ha.append _ hdrop, ?_⟩, hopen⟩, hline⟩
      simp [htext, block, hstate, hline, Item.source]
    · refine ⟨⟨⟨told, ha, ?_⟩, hopen⟩, hline⟩
      simp [htext, block, hstate, hline]
  | table rows =>
    dsimp only
    split
    · obtain ⟨⟨told, ha, htext⟩, -⟩ := h
      refine ⟨⟨⟨told, ha, ?_⟩, hopen⟩, hline⟩
      simp [htext, block, hstate, hline]
    · have hflush := kept_flushTable h hstate
      refine kept_plainLine hflush (.inl ?_) ?_ hn
      · simp only [flushTable, hstate]
      · simp only [flushTable, hstate, push_line, hline]

theorem kept_pushChar (h : Kept t text) (ch : Char) : Kept (t.pushChar ch) (text ++ [ch]) := by
  obtain ⟨⟨told, ha, htext⟩, hn⟩ := h
  unfold pushChar
  split
  · rename_i hch
    refine ⟨⟨told, ha, ?_⟩, ?_⟩
    · simp [htext, block]
    · simpa [hn] using Ne.symm hch
  · rename_i hch
    have hch : ch = '\n' := not_not.mp hch
    have hopen : Kept { t with line := [] } (told ++ t.block) :=
      ⟨⟨told, ha, by simp [block]⟩, List.not_mem_nil⟩
    obtain ⟨hkept, -⟩ := kept_takeLine hopen rfl hn
    rw [hch, htext]
    dsimp only
    split
    · exact hkept.congr rfl rfl rfl
    · exact hkept

theorem kept_pushChars (h : Kept t text) (chunk : Str) :
    Kept (chunk.foldl pushChar t) (text ++ chunk) := by
  induction chunk generalizing t text with
  | nil => simpa using h
  | cons ch chunk ih =>
    have hrest := ih (kept_pushChar h ch)
    rwa [List.append_assoc] at hrest

theorem kept_openResponse (h : Kept t text) : Kept t.openResponse text := by
  unfold openResponse
  split
  · exact h
  · exact h.congr rfl rfl rfl

theorem kept_openAfterTool (h : Kept t text) : Kept t.openAfterTool text := by
  unfold openAfterTool
  split
  · exact h.congr rfl rfl rfl
  · exact h

theorem kept_pushText (h : Kept t text) (chunk : Str) : Kept (t.pushText chunk) (text ++ chunk) := by
  unfold pushText
  split
  · rename_i hnil
    rwa [hnil, List.append_nil]
  · refine kept_pushChars (kept_openAfterTool (kept_openResponse ?_)) chunk
    split
    · exact kept_flushThinking (h.congr rfl rfl rfl)
    · exact h.congr rfl rfl rfl

theorem kept_pushThinking (h : Kept t text) {chunk : Str} (hc : chunk = [] ∨ t.block = []) :
    Kept (t.pushThinking chunk) text := by
  unfold pushThinking
  split
  · exact h
  · rename_i hne
    exact h.congr rfl (hc.resolve_left hne).symm rfl

theorem alike_settleFirst (status : ToolStatus) (items : List Item) :
    List.Forall₂ Item.Alike items (settleFirst status items) := by
  induction items with
  | nil => exact .nil
  | cons item items ih =>
    unfold settleFirst
    split
    · rename_i heq
      cases heq
    · rename_i heq
      cases heq
      refine .cons ⟨rfl, rfl, fun d => .rfl⟩ ?_
      exact List.forall₂_same.mpr fun a _ => .refl a
    · rename_i heq
      cases heq
      exact .cons (.refl _) ih

theorem alike_pushToolDone (t : Transcript) :
    List.Forall₂ Item.Alike t.items t.pushToolDone.items := by
  have h := List.forall₂_reverse_iff.mpr
      (alike_settleFirst (if t.toolFailed then .failure else .success) t.items.reverse)
  rwa [List.reverse_reverse] at h

theorem kept_pushToolDone (h : Kept t text) : Kept t.pushToolDone text := by
  obtain ⟨⟨told, ha, htext⟩, hn⟩ := h
  exact ⟨⟨told, ha.alike (alike_pushToolDone t), htext⟩, hn⟩

theorem flushThinking_line (t : Transcript) : t.flushThinking.line = t.line := by
  unfold flushThinking
  by_cases hnil : t.thinking = [] <;> cases hs : t.state <;> simp [hnil, hs]

theorem flushThinking_state (t : Transcript) : t.flushThinking.state = if t.state = .thinking
    then .normal else t.state := by
  unfold flushThinking
  by_cases hnil : t.thinking = [] <;> cases hs : t.state <;> simp [hnil, hs]

theorem flushThinking_inTable (t : Transcript) : t.flushThinking.inTable = t.inTable := by
  unfold inTable
  rw [flushThinking_state]
  cases hs : t.state <;> simp

theorem flushThinking_block (t : Transcript) : t.flushThinking.block = t.block := by
  unfold block
  rw [flushThinking_state]
  cases hs : t.state <;> simp

theorem flushLine_block (hstate : t.inTable = false) (h : t.block = [] ∨ t.line ≠ []) :
    t.flushLine.block = [] := by
  unfold flushLine
  split
  · rename_i hnil
    exact h.resolve_right (not_not.mpr hnil)
  · cases hs : t.state with
    | normal => simp [block]
    | thinking => simp [block]
    | code code => rfl
    | table rows => simp [inTable, hs] at hstate

/-- At the end of a careful turn nothing is held. -/
theorem kept_finish (h : Kept t text) (he : t.CarefulEnd) : Accounts t.finish.items text := by
  have hthought : Kept t.pushToolDone.flushThinking text := kept_flushThinking (kept_pushToolDone h)
  have hstate : t.pushToolDone.flushThinking.inTable = false := by
    rw [flushThinking_inTable]
    exact he.1
  have hheld : t.pushToolDone.flushThinking.block = [] ∨ t.pushToolDone.flushThinking.line ≠ [] := by
    rw [flushThinking_block, flushThinking_line]
    exact he.2
  obtain ⟨⟨⟨told, ha, htext⟩, -⟩, hline⟩ := kept_flushLine hthought (.inr hstate)
  rw [flushLine_block hstate hheld, hline, List.append_nil, List.append_nil] at htext
  rw [htext]
  exact ha

theorem flushed_width (t : Transcript) : t.flushThinking.flushLine.width = t.width := by
  have hthinking : t.flushThinking.width = t.width := by
    unfold flushThinking
    by_cases hnil : t.thinking = [] <;> cases hs : t.state <;> simp [hnil, hs, Transcript.push]
  rw [← hthinking]
  unfold flushLine
  split
  · rfl
  · cases t.flushThinking.state <;> rfl

section
variable [TuiStd]

theorem pushToolStart_eq {t' : Transcript} {calls : List (Str × Str)}
    (h : t.pushToolStart calls = some t') :
    ∃ labels, t' = ({ t.flushThinking.flushLine with waiting := false, toolFailed := false }.push
      .blank).push (.tool labels .running) := by
  unfold pushToolStart at h
  obtain ⟨labels, -, hl⟩ := Option.bind_eq_some_iff.mp h
  exact ⟨labels, (Option.some.inj hl).symm⟩

theorem kept_pushToolStart {t' : Transcript} {calls : List (Str × Str)} (h : Kept t text)
    (hc : t.line = [] ∨ t.inTable = false) (hp : t.pushToolStart calls = some t') : Kept t' text := by
  obtain ⟨labels, rfl⟩ := pushToolStart_eq hp
  have hline : t.flushThinking.line = [] ∨ t.flushThinking.inTable = false := by
    rwa [flushThinking_line, flushThinking_inTable]
  obtain ⟨hflushed, -⟩ := kept_flushLine (kept_flushThinking h) hline
  have hkept : Kept { t.flushThinking.flushLine with waiting := false, toolFailed := false } text :=
    hflushed.congr rfl rfl rfl
  exact (hkept.push .blank rfl (.inl rfl)).push (.tool labels .running) rfl rfl

theorem kept_perform {t' : Transcript} {e : Event} (h : Kept t text) (hc : t.Careful e)
    (hp : t.perform e = some t') :
    Kept t' (text ++ textOf e) := by
  cases e with
  | start =>
    cases hp
    rw [show textOf .start = [] from rfl, List.append_nil]
    exact h.congr rfl rfl rfl
  | text chunk =>
    cases hp
    exact kept_pushText h chunk
  | thinking chunk =>
    cases hp
    rw [show textOf (.thinking chunk) = [] from rfl, List.append_nil]
    exact kept_pushThinking h hc
  | toolStart calls =>
    rw [show textOf (.toolStart calls) = [] from rfl, List.append_nil]
    exact kept_pushToolStart h hc.1 hp
  | toolResult output =>
    cases hp
    rw [show textOf (.toolResult output) = [] from rfl, List.append_nil]
    have hkept : Kept { t with toolFailed := t.toolFailed || failed output } text :=
      h.congr rfl rfl rfl
    exact (hkept.push (.result output (failed output)) rfl rfl).push .blank rfl (.inl rfl)
  | toolDone =>
    cases hp
    rw [show textOf .toolDone = [] from rfl, List.append_nil]
    exact kept_pushToolDone h

theorem Careful.perform {e : Event} (hc : t.Careful e) : ∃ t', t.perform e = some t' := by
  cases e with
  | toolStart calls =>
    obtain ⟨labels, hl⟩ := exists_mapM_iff.mpr fun call hmem =>
        Option.isSome_iff_exists.mp (hc.2 call hmem)
    rw [← flushed_width t] at hl
    refine ⟨_, (Option.bind_eq_some_iff.mpr ⟨labels, hl, rfl⟩)⟩
  | start => exact ⟨_, rfl⟩
  | text chunk => exact ⟨_, rfl⟩
  | thinking chunk => exact ⟨_, rfl⟩
  | toolResult output => exact ⟨_, rfl⟩
  | toolDone => exact ⟨_, rfl⟩

/-- A careful run comes to its end, and what is held there is told. -/
theorem kept_run {events : List Event} (h : Kept t text) (hc : t.CarefulRun events) :
    ∃ t', t.run events = some t' ∧ Accounts t'.finish.items (text ++ events.flatMap textOf) := by
  induction events generalizing t text with
  | nil =>
    refine ⟨t, rfl, ?_⟩
    rw [List.flatMap_nil, List.append_nil]
    exact kept_finish h hc
  | cons e events ih =>
    obtain ⟨t₁, hp⟩ := hc.1.perform
    obtain ⟨t', hr, hrest⟩ := ih (kept_perform h hc.1 hp) (hc.2 t₁ hp)
    rw [List.append_assoc] at hrest
    exact ⟨t', Option.bind_eq_some_iff.mpr ⟨t₁, hp, hr⟩, hrest⟩

end

end

/-! ## The thinking -/

section
variable {t : Transcript}

def thought (t : Transcript) : Str := t.items.flatMap Item.thought ++ t.thinking

theorem thought_push (item : Item) (h : item.thought = []) : (t.push item).thought = t.thought := by
  simp [thought, h]

theorem thought_flushThinking (t : Transcript) : t.flushThinking.thought = t.thought ∧
    t.flushThinking.thinking = [] := by
  unfold flushThinking
  by_cases hnil : t.thinking = [] <;> cases hs : t.state <;> simp [hnil, hs, thought, Item.thought]

theorem thought_flushLine (t : Transcript) : t.flushLine.thought = t.thought ∧
    t.flushLine.thinking = t.thinking := by
  unfold flushLine
  split
  · exact ⟨rfl, rfl⟩
  · cases hs : t.state <;> simp [thought, Item.thought]

theorem thought_plainLine (t : Transcript) (line : Str) : (t.plainLine line).thought = t.thought := by
  unfold plainLine
  split
  · exact thought_push (.border _) rfl
  · split
    · rfl
    · split
      · exact thought_push _ rfl
      · exact thought_push _ rfl

theorem thought_takeLine (t : Transcript) (line : Str) : (t.takeLine line).thought = t.thought := by
  unfold takeLine
  cases hs : t.state with
  | normal => exact thought_plainLine t line
  | thinking => exact thought_plainLine t line
  | code code =>
    dsimp only
    split
    · exact thought_push (.code code) rfl
    · rfl
  | table rows =>
    dsimp only
    split
    · rfl
    · rw [thought_plainLine, flushTable, hs]
      exact thought_push (.table rows) rfl

theorem thought_pushChar (t : Transcript) (ch : Char) : (t.pushChar ch).thought = t.thought := by
  unfold pushChar
  split
  · rfl
  · have htake := thought_takeLine { t with line := [] } t.line
    dsimp only
    split
    · exact htake
    · exact htake

theorem thought_pushChars (t : Transcript) (chunk : Str) :
    (chunk.foldl pushChar t).thought = t.thought := by
  induction chunk generalizing t with
  | nil => rfl
  | cons ch chunk ih => rw [List.foldl_cons, ih, thought_pushChar]

theorem thought_pushText (t : Transcript) (chunk : Str) : (t.pushText chunk).thought = t.thought := by
  unfold pushText
  split
  · rfl
  · have hopen : ∀ t : Transcript, t.openResponse.openAfterTool.thought = t.thought := by
      intro t
      unfold openAfterTool openResponse
      split <;> split <;> rfl
    dsimp only
    rw [thought_pushChars, hopen]
    split
    · exact (thought_flushThinking _).1
    · rfl

theorem thought_pushToolDone (t : Transcript) : t.pushToolDone.thought = t.thought := by
  unfold thought
  rw [thought_alike (alike_pushToolDone t)]
  rfl

theorem thought_finish (t : Transcript) : t.finish.items.flatMap Item.thought = t.thought := by
  have hdone := thought_pushToolDone t
  obtain ⟨hthought, hnil⟩ := thought_flushThinking t.pushToolDone
  obtain ⟨hline, hline'⟩ := thought_flushLine t.pushToolDone.flushThinking
  rw [hnil] at hline'
  have hall : t.pushToolDone.flushThinking.flushLine.items.flatMap Item.thought =
      t.pushToolDone.flushThinking.flushLine.thought := by
    rw [thought, hline', List.append_nil]
  rw [← hdone, ← hthought, ← hline, ← hall]
  rfl

variable [TuiStd]

theorem thought_perform {t' : Transcript} {e : Event} (hp : t.perform e = some t') :
    t'.thought = t.thought ++ thinkingOf e := by
  cases e with
  | start =>
    cases hp
    exact (List.append_nil _).symm
  | text chunk =>
    cases hp
    exact (thought_pushText t chunk).trans (List.append_nil _).symm
  | thinking chunk =>
    cases hp
    unfold pushThinking
    split
    · rename_i hnil
      rw [hnil]
      exact (List.append_nil _).symm
    · simp [thought, thinkingOf]
  | toolStart calls =>
    obtain ⟨labels, rfl⟩ := pushToolStart_eq hp
    refine Eq.trans ?_ (List.append_nil _).symm
    rw [thought_push _ rfl, thought_push _ rfl]
    exact (thought_flushLine _).1.trans (thought_flushThinking t).1
  | toolResult output =>
    cases hp
    refine Eq.trans ?_ (List.append_nil _).symm
    exact (thought_push _ rfl).trans (thought_push _ rfl)
  | toolDone =>
    cases hp
    exact (thought_pushToolDone t).trans (List.append_nil _).symm

theorem thought_run {events : List Event} {t' : Transcript} (hr : t.run events = some t') :
    t'.thought = t.thought ++ events.flatMap thinkingOf := by
  induction events generalizing t with
  | nil =>
    cases hr
    exact (List.append_nil _).symm
  | cons e events ih =>
    obtain ⟨t₁, hp, hr⟩ := Option.bind_eq_some_iff.mp
        (show (t.perform e >>= fun t => t.run events) = some t' from by rw [← hr]; rfl)
    rw [ih hr, thought_perform hp, List.append_assoc]
    rfl

/-! ## A turn -/

/-- The thinking of a turn is told in any case, and its text where every event of the turn is
careful, and its end. -/
theorem transcript_keeps (width : Nat) (events : List Event) :
    (∀ t, (new width).run events = some t → t.finish.items.flatMap Item.thought =
      events.flatMap thinkingOf) ∧
      ((new width).CarefulRun events → ∃ t, (new width).run events = some t ∧
        Accounts t.finish.items (events.flatMap textOf)) := by
  refine ⟨fun t hr => ?_, fun hc => ?_⟩
  · rw [thought_finish, thought_run hr]
    rfl
  · have hnew : Kept (new width) [] := ⟨⟨[], .nil, rfl⟩, List.not_mem_nil⟩
    exact kept_run hnew hc

end

instance lsTui : TuiStd where
  toUpperCamelCase
    | [] => []
    | c :: name => c.toUpper :: name
  fromStr args := if args = "\x7b\"command\":\"ls\"\x7d".toList
    then some (.obj [("command".toList, .str "ls".toList)]) else none

def turn : List Event :=
  [.start, .thinking "hm".toList, .text "so\n```sh\nls".toList, .text "\n```\nthe".toList,
    .toolStart [("bash".toList, "\x7b\"command\":\"ls\"\x7d".toList)],
    .toolResult "src".toList, .toolDone,
    .text "| a |\n| b |\n\n".toList, .thinking "ok".toList, .text "end".toList]

/-- Thinking, a code block and a table around a tool. -/
theorem transcript_keeps_turn :
    ∃ t, (new 40).run turn = some t ∧ Accounts t.finish.items (turn.flatMap textOf) ∧
      t.finish.items.flatMap Item.thought = turn.flatMap thinkingOf := by
  obtain ⟨t, hr, ha⟩ := (transcript_keeps 40 turn).2 (by decide +kernel)
  exact ⟨t, hr, ha, (transcript_keeps 40 turn).1 t hr⟩

/-- Items that are all thinking account for no text. -/
theorem eq_nil_of_thinking {items : List Item} {text : Str} (h : Accounts items text)
    (hs : ∀ item ∈ items, item.thought ≠ []) : text = [] := by
  obtain ⟨dropped, hall, rfl⟩ := h
  induction hall with
  | nil => rfl
  | @cons item d _ _ hd _ ih =>
    rw [List.zipWith_cons_cons, List.flatten_cons,
      ih fun item hm => hs item (List.mem_cons_of_mem _ hm), List.append_nil]
    cases item with
    | thinking s => exact hd
    | _ => exact absurd rfl (hs _ List.mem_cons_self)

/-- A table at the end of a turn, and one that thinking breaks into, are in no item. -/
theorem not_kept_table :
    (∃ t, (new 40).run [.start, .text "| a |\n".toList] = some t ∧
      ¬ Accounts t.finish.items "| a |\n".toList) ∧
      ∃ t, (new 40).run [.start, .text "| a |\n".toList, .thinking "hm".toList] = some t ∧
        ¬ Accounts t.finish.items "| a |\n".toList := by
  refine ⟨⟨_, rfl, fun h => ?_⟩, _, rfl, fun h => ?_⟩
  · have hnil := eq_nil_of_thinking h (by decide +kernel)
    cases hnil
  · have hnil := eq_nil_of_thinking h (by decide +kernel)
    cases hnil

end Transcript

end Crabtalk.Tui

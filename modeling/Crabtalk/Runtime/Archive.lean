import Crabtalk.Basis.Reachable
import Crabtalk.Store.Memory
import Crabtalk.Store.Plain

/-!
# Archives of a compaction

A compaction files its summary in memory, under the name of the session and
the next number. The number comes from the names that are listed under the
session's, which anyone may have written.
-/

open Basis

namespace Crabtalk.Runtime

open Store

/-! ## Names -/

section
variable [TextStd]

def senderSlug (s : Str) : Str :=
  ['-'].intercalate
    (((s.map fun c => if TextStd.isAlphanumeric c || c = '-' then c.toLower else '-').splitOn
    '-').filter fun p => !p.isEmpty)

def archiveStem (handle : Str) : Str := senderSlug handle ++ ['-']

end

/-- `&s[n..]`, which panics past the end and inside a character. -/
def sliceFrom : Nat → Str → Option Str
  | 0, s => some s
  | _ + 1, [] => none
  | n, c :: rest => if c.utf8Size ≤ n then sliceFrom (n - c.utf8Size) rest else none

def byteLength (s : Str) : Nat := (s.map Char.utf8Size).sum

def sequenceOf (suffix : Str) : Option Nat := (parseU32 suffix).filter fun n =>
    Nat.toDigits 10 n = suffix

/-- The next free sequence number, or a panic. Whether adding to the last `u32` is one is a matter
of how the program was built. -/
def nextSeq (checked : Bool) (stem : Str) (names : List Str) : Option Nat := do
  let suffixes ← names.mapM (sliceFrom (byteLength stem))
  let last := (suffixes.filterMap sequenceOf).max?.getD 0
  if last + 1 < 2 ^ 32 then some (last + 1) else if checked then none else some 0

def archiveName (stem : Str) (seq : Nat) : Str := stem ++ Nat.toDigits 10 seq

def archiveEntry (name summary now : Str) : MemoryEntry :=
  ⟨name, "archive".toList, summary, [], now⟩

def fileArchive (name summary now : Str) : MemoryM (Option Str) := do
  match ← (putMemory (archiveEntry name summary now)).attempt with
  | .ok _ => return some name
  | .error _ => return none

def writeArchive [TextStd] (checked : Bool) (handle summary now : Str) : MemoryM (Option Str) := do
  let names ← (memoryNamesUnder (archiveStem handle)).attempt
  match nextSeq checked (archiveStem handle) (names.toOption.getD []) with
  | none => .fail .panic
  | some seq => fileArchive (archiveName (archiveStem handle) seq) summary now

/-! ## Slugs and numbers -/

section
variable {c d : Char} {n : Nat} {stem suffix handle : Str} {names : List Str}

theorem mem_intercalate {l : List Str} (h : c ∈ [d].intercalate l) : c = d ∨ ∃ p ∈ l, c ∈ p := by
  induction l with
  | nil => cases h
  | cons p l ih =>
    cases l with
    | nil => exact .inr ⟨p, List.mem_cons_self, by simpa using h⟩
    | cons q l =>
      rw [List.intercalate_cons_cons, List.mem_append, List.mem_append, List.mem_singleton] at h
      rcases h with (h | h) | h
      · exact .inr ⟨p, List.mem_cons_self, h⟩
      · exact .inl h
      · exact (ih h).imp_right fun ⟨r, hr, hc⟩ => ⟨r, List.mem_cons_of_mem _ hr, hc⟩

theorem mem_of_mem_intercalate {l : List Str} {p : Str} (hp : p ∈ l) (hc : c ∈ p) :
    c ∈ [d].intercalate l := by
  induction l with
  | nil => cases hp
  | cons q l ih =>
    cases l with
    | nil =>
      rw [List.mem_singleton.mp hp] at hc
      simpa using hc
    | cons r l =>
      rw [List.intercalate_cons_cons, List.mem_append]
      rcases List.mem_cons.mp hp with rfl | hp
      · exact .inl (List.mem_append_left _ hc)
      · exact .inr (ih hp)

theorem lt_of_parseU32 {s : Str} (h : parseU32 s = some n) : n < 2 ^ 32 := by
  unfold parseU32 at h
  split at h
  · rename_i hs
    rw [← Option.some.inj h]
    exact hs.2.2
  · cases h

theorem sequenceOf_eq_some : sequenceOf suffix = some n ↔ suffix = Nat.toDigits 10 n ∧
    n < 2 ^ 32 := by
  rw [sequenceOf, Option.filter_eq_some_iff, decide_eq_true_eq]
  constructor
  · intro ⟨hparse, hsame⟩
    exact ⟨hsame.symm, lt_of_parseU32 hparse⟩
  · intro ⟨hsuffix, hn⟩
    rw [hsuffix]
    exact ⟨parseU32_toDigits hn, rfl⟩

@[simp] theorem sliceFrom_zero (s : Str) : sliceFrom 0 s = some s := by
  cases s <;> rfl

theorem sliceFrom_append (s rest : Str) : sliceFrom (byteLength s) (s ++ rest) = some rest := by
  induction s with
  | nil => exact sliceFrom_zero rest
  | cons c s ih =>
    have hpos := c.utf8Size_pos
    have hlen : byteLength (c :: s) = byteLength s + (c.utf8Size - 1) + 1 := by
      simp only [byteLength, List.map_cons, List.sum_cons]
      omega
    rw [hlen, List.cons_append, sliceFrom, if_pos (by omega), ← ih]
    · congr 1
      omega
    · omega

def numbers (stem : Str) (names : List Str) : List Nat :=
  (names.filterMap (sliceFrom (byteLength stem))).filterMap sequenceOf

def Sliced (stem : Str) (names : List Str) : Prop :=
  ∀ name ∈ names, (sliceFrom (byteLength stem) name).isSome = true

instance (stem : Str) (names : List Str) : Decidable (Sliced stem names) :=
  inferInstanceAs (Decidable (∀ name ∈ names, _))

theorem mapM_sliced (h : Sliced stem names) : names.mapM (sliceFrom (byteLength stem)) =
    some (names.filterMap (sliceFrom (byteLength stem))) := by
  induction names with
  | nil => rfl
  | cons name names ih =>
    obtain ⟨suffix, hs⟩ := Option.isSome_iff_exists.mp (h name List.mem_cons_self)
    rw [List.mapM_cons, hs, ih fun n hn => h n (List.mem_cons_of_mem _ hn), List.filterMap_cons, hs]
    rfl

theorem mapM_not_sliced (h : ¬ Sliced stem names) :
    names.mapM (sliceFrom (byteLength stem)) = none := by
  induction names with
  | nil => exact absurd (fun _ hn => absurd hn List.not_mem_nil) h
  | cons name names ih =>
    rw [List.mapM_cons]
    cases hs : sliceFrom (byteLength stem) name with
    | none => rfl
    | some suffix =>
      rw [ih]
      · rfl
      · intro hrest
        refine h fun n hn => ?_
        rcases List.mem_cons.mp hn with rfl | hn
        · rw [hs]
          rfl
        · exact hrest n hn

theorem nextSeq_not_sliced {checked : Bool} (h : ¬ Sliced stem names) :
    nextSeq checked stem names = none := by
  rw [nextSeq, mapM_not_sliced h]
  rfl

theorem lt_of_mem_numbers (h : n ∈ numbers stem names) : n < 2 ^ 32 := by
  obtain ⟨suffix, -, hs⟩ := List.mem_filterMap.mp h
  exact (sequenceOf_eq_some.mp hs).2

theorem le_last (h : n ∈ numbers stem names) : n ≤ (numbers stem names).max?.getD 0 := by
  cases hmax : (numbers stem names).max? with
  | none =>
    rw [List.max?_eq_none_iff.mp hmax] at h
    cases h
  | some m => exact (List.max?_eq_some_iff.mp hmax).2 n h

theorem last_lt (hfull : 2 ^ 32 - 1 ∉ numbers stem names) :
    (numbers stem names).max?.getD 0 + 1 < 2 ^ 32 := by
  cases hmax : (numbers stem names).max? with
  | none => decide
  | some m =>
    have hm := (List.max?_eq_some_iff.mp hmax).1
    have hlt := lt_of_mem_numbers hm
    have hne : m ≠ 2 ^ 32 - 1 := fun he => hfull (he ▸ hm)
    rw [Option.getD_some]
    omega

theorem nextSeq_sliced (checked : Bool) (h : Sliced stem names) : nextSeq checked stem names =
    if 2 ^ 32 - 1 ∈ numbers stem names then if checked then none else some 0
    else some ((numbers stem names).max?.getD 0 + 1) := by
  rw [nextSeq, mapM_sliced h, Option.bind_eq_bind, Option.bind_some]
  change (if (numbers stem names).max?.getD 0 + 1 < 2 ^ 32
    then some ((numbers stem names).max?.getD 0 + 1) else _) = _
  by_cases hfull : 2 ^ 32 - 1 ∈ numbers stem names
  · have := le_last hfull
    rw [if_pos hfull, if_neg (by omega)]
  · rw [if_neg hfull, if_pos (last_lt hfull)]

variable [TextStd]

theorem slash_notMem_senderSlug : '/' ∉ senderSlug handle := by
  intro h
  rcases mem_intercalate h with h | ⟨p, hp, hc⟩
  · cases h
  · have hmap := mem_of_mem_intercalate (d := '-') (List.mem_of_mem_filter hp) hc
    rw [List.intercalate_splitOn] at hmap
    obtain ⟨c, -, he⟩ := List.mem_map.mp hmap
    by_cases ha : (TextStd.isAlphanumeric c || c = '-') = true
    · rw [if_pos ha] at he
      have hs : '/' ∈ [c] := @TextStd.slash_toLowercase Plain.ascii [c]
          (List.mem_singleton.mpr he.symm)
      rw [← List.mem_singleton.mp hs] at ha
      simp [TextStd.slash_not_alphanumeric] at ha
    · rw [if_neg ha] at he
      cases he

theorem slash_notMem_archiveName : '/' ∉ archiveName (archiveStem handle) n := by
  unfold archiveName archiveStem
  simp only [List.mem_append, not_or]
  refine ⟨⟨slash_notMem_senderSlug, by decide⟩, fun h => ?_⟩
  exact absurd (Nat.isDigit_of_mem_toDigits (by decide) (by decide) h) (by decide)

end

/-! ## One archive -/

section
variable {F : Prop} {E : Error → Memories → Prop} {s s' : Memories} {name stem summary now : Str}
  {e : MemoryEntry}

theorem wp_memoryNamesUnder {Q : List Str → Memories → Prop} :
    Prog.wp F brain (memoryNamesUnder stem) Q E s ↔ Q (namesUnder s stem) s ∧
    (F → ∀ err, E err s) := by
  unfold memoryNamesUnder
  rw [Prog.wp_bind]
  exact Prog.wp_perform

theorem wp_putMemory {Q : Unit → Memories → Prop} : Prog.wp F brain (putMemory e) Q E s ↔
    (Q () (s.insert (.memory, memoryKey e.name) e) ∧
      (F → ∀ err, E err (s.insert (.memory, memoryKey e.name) e))) ∧ (F → ∀ err, E err s) := by
  unfold putMemory
  rw [Prog.wp_bind]
  exact Prog.wp_perform.trans (and_congr_left fun _ => Prog.wp_perform)

def Intact (s s' : Memories) : Prop := ∀ k e, s[((.memory, k) : Column × Str)]? = some e →
    s'[((.memory, k) : Column × Str)]? = some e

theorem intact_insert (hfree : s[((.memory, memoryKey name) : Column × Str)]? = none) :
    Intact s (s.insert (.memory, memoryKey name) e) := by
  intro k e' he
  rw [find_insert, if_neg]
  · exact he
  · intro hk
    rw [← hk, hfree] at he
    cases he

/-- What writing an archive should come to: a new entry under a new name, and every other as it
was. -/
structure Filed (s : Memories) (summary now : Str) (r : Except Error (Option Str)) (s' : Memories) :
    Prop where
  silent : r ≠ .error .panic
  intact : Intact s s'
  fresh : ∀ name, r = .ok (some name) → s[((.memory, memoryKey name) : Column × Str)]? = none
  loads : ∀ name, r = .ok (some name) → s'[((.memory, memoryKey name) : Column × Str)]? =
    some (archiveEntry name summary now)

theorem wp_fileArchive (hfree : s[((.memory, memoryKey name) : Column × Str)]? = none) :
    Prog.wp F brain (fileArchive name summary now) (fun r s' => Filed s summary now (.ok r) s')
    (fun _ _ => False) s := by
  have hput : Filed s summary now (.ok (some name))
      (s.insert (.memory, memoryKey name) (archiveEntry name summary now)) := by
    refine ⟨nofun, intact_insert hfree, fun n hn => ?_, fun n hn => ?_⟩
    · cases hn
      exact hfree
    · cases hn
      rw [find_insert, if_pos rfl]
  unfold fileArchive
  rw [Prog.wp_bind, Prog.wp_attempt, wp_putMemory]
  refine ⟨⟨hput, fun _ err => ?_⟩, fun _ err => ?_⟩
  · exact ⟨nofun, intact_insert hfree, nofun, nofun⟩
  · exact ⟨nofun, fun _ _ h => h, nofun, nofun⟩

variable [TextStd] {handle : Str} {checked : Bool}

/-- A compaction of a session files its archive as it should, whatever the store does. -/
def Sound (F : Prop) (checked : Bool) (handle : Str) (s : Memories) : Prop :=
  ∀ summary now r s', Prog.Runs F brain (writeArchive checked handle summary now) s r s' →
    Filed s summary now r s'

/-- Every name under the stem goes on where the stem ends, there is a number left, and where the
names may not be listed there is no first archive yet. -/
structure Safe (F : Prop) (checked : Bool) (handle : Str) (s : Memories) : Prop where
  sliced : Sliced (archiveStem handle) (namesUnder s (archiveStem handle))
  room : 2 ^ 32 - 1 ∈ numbers (archiveStem handle) (namesUnder s (archiveStem handle)) →
    checked = false ∧
    s[((.memory, memoryKey (archiveName (archiveStem handle) 0)) : Column × Str)]? = none
  listed : F → s[((.memory, memoryKey (archiveName (archiveStem handle) 1)) : Column × Str)]? = none

/-- A name that was filed has a number that is listed. -/
theorem mem_numbers {n : Nat} (hn : n < 2 ^ 32)
    (hs : s[((.memory, memoryKey (archiveName (archiveStem handle) n)) : Column × Str)]? = some e) :
    n ∈ numbers (archiveStem handle) (namesUnder s (archiveStem handle)) := by
  refine List.mem_filterMap.mpr ⟨Nat.toDigits 10 n, ?_, sequenceOf_eq_some.mpr ⟨rfl, hn⟩⟩
  refine List.mem_filterMap.mpr ⟨_, mem_namesUnder hs ⟨_, rfl⟩ slash_notMem_archiveName, ?_⟩
  exact sliceFrom_append _ _

theorem free_next (hroom : 2 ^ 32 - 1 ∉ numbers (archiveStem handle)
    (namesUnder s (archiveStem handle))) :
    s[((.memory, memoryKey (archiveName (archiveStem handle)
      ((numbers (archiveStem handle) (namesUnder s (archiveStem handle))).max?.getD 0 + 1))) :
      Column × Str)]? = none := by
  by_contra hne
  obtain ⟨e, he⟩ := Option.ne_none_iff_exists'.mp hne
  have := le_last (mem_numbers (last_lt hroom) he)
  omega

theorem sound_of_safe (h : Safe F checked handle s) : Sound F checked handle s := by
  intro summary now r s' hr
  have hwp : Prog.wp F brain (writeArchive checked handle summary now)
      (fun r s' => Filed s summary now (.ok r) s') (fun _ _ => False) s := by
    unfold writeArchive
    rw [Prog.wp_bind, Prog.wp_attempt, wp_memoryNamesUnder]
    constructor
    · rw [Except.toOption, Option.getD_some, nextSeq_sliced _ h.sliced]
      by_cases hfull : 2 ^ 32 - 1 ∈ numbers (archiveStem handle) (namesUnder s (archiveStem handle))
      · obtain ⟨rfl, hfree⟩ := h.room hfull
        rw [if_pos hfull]
        exact wp_fileArchive hfree
      · rw [if_neg hfull]
        exact wp_fileArchive (free_next hfull)
    · intro hF err
      exact wp_fileArchive (h.listed hF)
  have hends := hwp.runs hr
  cases r with
  | ok r => exact hends
  | error e => exact hends.elim

theorem interp_writeArchive (s : Memories) (checked : Bool) (handle summary now : Str) :
    Prog.interp brain (writeArchive checked handle summary now) s =
    match nextSeq checked (archiveStem handle) (namesUnder s (archiveStem handle)) with
    | none => .error .panic s
    | some seq =>
      .ok (some (archiveName (archiveStem handle) seq))
        (s.insert (.memory, memoryKey (archiveName (archiveStem handle) seq))
        (archiveEntry (archiveName (archiveStem handle) seq) summary now)) := by
  have hnames : Prog.interp brain (memoryNamesUnder (archiveStem handle)).attempt s =
      .ok (.ok (namesUnder s (archiveStem handle))) s := rfl
  unfold writeArchive
  rw [Prog.interp_bind, hnames]
  dsimp only [Except.toOption, Option.getD_some]
  cases nextSeq checked (archiveStem handle) (namesUnder s (archiveStem handle)) with
  | none => rfl
  | some seq => rfl

theorem panics_of_none (h : nextSeq checked (archiveStem handle)
    (namesUnder s (archiveStem handle)) = none) :
    Prog.Runs F brain (writeArchive checked handle summary now) s (.error .panic) s := by
  have hinterp := interp_writeArchive s checked handle summary now
  have hr := Prog.runs_interp F brain (writeArchive checked handle summary now) s
  rw [h] at hinterp
  rw [Basis.wp, hinterp] at hr
  exact hr

theorem safe_of_sound (h : Sound F checked handle s) : Safe F checked handle s := by
  have hsliced : Sliced (archiveStem handle) (namesUnder s (archiveStem handle)) := by
    by_contra hns
    exact (h [] [] _ _ (panics_of_none (nextSeq_not_sliced hns))).silent rfl
  refine ⟨hsliced, fun hfull => ?_, fun hF => ?_⟩
  · have hseq := nextSeq_sliced checked hsliced
    rw [if_pos hfull] at hseq
    cases checked with
    | true => exact absurd rfl (h [] [] _ _ (panics_of_none hseq)).silent
    | false =>
      have hinterp := interp_writeArchive s false handle [] []
      rw [hseq] at hinterp
      exact ⟨rfl, (h [] [] _ _ (Prog.runs_of_interp F hinterp)).fresh _ rfl⟩
  · have hr : Prog.Runs F brain (writeArchive checked handle [] []) s
        (.ok (some (archiveName (archiveStem handle) 1)))
        (s.insert (.memory, memoryKey (archiveName (archiveStem handle) 1))
          (archiveEntry (archiveName (archiveStem handle) 1) [] [])) :=
      .fault .io hF (Prog.runs_of_interp F rfl)
    exact (h [] [] _ _ hr).fresh _ rfl

/-! ## Runs of compactions -/

inductive MemoryAct
  | archive (handle summary now : Str)
  | remember (e : MemoryEntry)
  | forget (name : Str)

structure Ledger where
  store : Memories
  written : List MemoryEntry

def Ledger.log (w : Ledger) (summary now : Str) : Except Error (Option Str) → List MemoryEntry
  | .ok (some name) => archiveEntry name summary now :: w.written
  | _ => w.written

def Ledger.Step (F : Prop) (checked : Bool) (w : Ledger) : MemoryAct → Ledger → Prop
  | .archive handle summary now, w' => Safe F checked handle w.store ∧ ∃ r,
    Prog.Runs F brain (writeArchive checked handle summary now) w.store r w'.store ∧
    w'.written = w.log summary now r
  | .remember e, w' =>
    (∃ r, Prog.Runs F brain (putMemory e) w.store r w'.store) ∧
      w'.written = w.written.filter fun a => a.name ≠ e.name
  | .forget name, w' =>
    (∃ r, Prog.Runs F brain (removeMemory name) w.store r w'.store) ∧
      w'.written = w.written.filter fun a => a.name ≠ name

def Ledger.Loads (w : Ledger) : Prop :=
  ∀ e ∈ w.written, w.store[((.memory, memoryKey e.name) : Column × Str)]? = some e

def Beside (name : Str) (s s' : Memories) : Prop :=
  ∀ k, k ≠ memoryKey name → s'[((.memory, k) : Column × Str)]? = s[((.memory, k) : Column × Str)]?

omit [TextStd] in
theorem beside_putMemory {r : Except Error Unit} (hr : Prog.Runs F brain (putMemory e) s r s') :
    Beside e.name s s' := by
  have hinsert : Beside e.name s (s.insert (.memory, memoryKey e.name) e) := fun k hk => by
    rw [find_insert, if_neg fun h => hk (congrArg Prod.snd h).symm]
  have hwp : Prog.wp F brain (putMemory e) (fun _ => Beside e.name s)
      (fun _ => Beside e.name s) s :=
    wp_putMemory.mpr ⟨⟨hinsert, fun _ _ => hinsert⟩, fun _ _ _ _ => rfl⟩
  have hends := hwp.runs hr
  cases r with
  | ok _ => exact hends
  | error _ => exact hends

omit [TextStd] in
theorem beside_removeMemory {r : Except Error Bool}
    (hr : Prog.Runs F brain (removeMemory name) s r s') : Beside name s s' := by
  have herase : Beside name s (s.erase (.memory, memoryKey name)) := fun k hk => by
    rw [find_erase, if_neg fun h => hk (congrArg Prod.snd h).symm]
  have hwp : Prog.wp F brain (removeMemory name) (fun _ => Beside name s)
      (fun _ => Beside name s) s := by
    unfold removeMemory
    rw [Prog.wp_bind]
    refine Prog.wp_perform.mpr ⟨Prog.wp_perform.mpr ⟨herase, fun _ _ _ _ => rfl⟩,
      fun _ _ _ _ => rfl⟩
  have hends := hwp.runs hr
  cases r with
  | ok _ => exact hends
  | error _ => exact hends

omit [TextStd] in
theorem Ledger.loads_beside {w w' : Ledger} (hl : w.Loads) (hb : Beside name w.store w'.store)
    (hw : w'.written = w.written.filter fun a => a.name ≠ name) : w'.Loads := by
  intro e he
  rw [hw, List.mem_filter, decide_eq_true_eq] at he
  rw [hb _ fun h => he.2 (memoryKey_inj h)]
  exact hl e he.1

/-- A step keeps every archive that no tool touches. -/
theorem Ledger.step_loads {w w' : Ledger} {a : MemoryAct} (hl : w.Loads)
    (hs : w.Step F checked a w') : w'.Loads := by
  cases a with
  | archive handle summary now =>
    obtain ⟨hsafe, r, hr, hw⟩ := hs
    have hfiled := sound_of_safe hsafe _ _ _ _ hr
    intro e he
    rw [hw] at he
    cases r with
    | error err => exact hfiled.intact _ _ (hl e he)
    | ok answer =>
      cases answer with
      | none => exact hfiled.intact _ _ (hl e he)
      | some name =>
        rcases List.mem_cons.mp he with rfl | he
        · exact hfiled.loads name rfl
        · exact hfiled.intact _ _ (hl e he)
  | remember e =>
    obtain ⟨⟨r, hr⟩, hw⟩ := hs
    exact loads_beside hl (beside_putMemory hr) hw
  | forget name =>
    obtain ⟨⟨r, hr⟩, hw⟩ := hs
    exact loads_beside hl (beside_removeMemory hr) hw

/-- Compactions file their archives as they should just where it is safe, and in a run where each
is, whatever tools do in between, every archive they have not touched can be loaded. -/
theorem archives_filed (F : Prop) (checked : Bool) :
    (∀ handle s, Sound F checked handle s ↔ Safe F checked handle s) ∧
    ∀ w, Reachable (fun w => w.written = []) (Ledger.Step F checked) w →
      ∀ e ∈ w.written, Prog.interp brain (loadMemory e.name) w.store = .ok (some e) w.store := by
  refine ⟨fun handle s => ⟨safe_of_sound, sound_of_safe⟩, fun w hw e he => ?_⟩
  have hl : w.Loads := hw.invariant
      (fun w h₀ => by intro e he; rw [h₀] at he; cases he) fun _ _ _ => Ledger.step_loads
  show EStateM.Result.ok _ w.store = _
  rw [hl e he]

end

section
open Plain

@[irreducible] def filed (s : Memories) (handle summary : Str) : Memories :=
  match Prog.interp brain (writeArchive true handle summary []) s with
  | .ok _ s' => s'
  | .error _ s' => s'

theorem reachable_filed {w : Ledger} (handle summary : Str) {n : Nat}
    (hw : Reachable (fun w => w.written = []) (Ledger.Step True true) w)
    (hs : Safe True true handle w.store)
    (hseq : nextSeq true (archiveStem handle) (namesUnder w.store (archiveStem handle)) = some n) :
    Reachable (fun w => w.written = []) (Ledger.Step True true)
      ⟨filed w.store handle summary, archiveEntry (archiveName (archiveStem handle) n) summary [] ::
        w.written⟩ := by
  have hwrite := interp_writeArchive w.store true handle summary []
  rw [hseq] at hwrite
  refine .next (a := .archive handle summary []) hw
    ⟨hs, .ok (some (archiveName (archiveStem handle) n)), ?_, rfl⟩
  unfold filed
  rw [hwrite]
  exact Prog.runs_of_interp True hwrite

/-- A tool remembers what no archive is named after. -/
theorem reachable_remembered {w : Ledger} (e : MemoryEntry)
    (hw : Reachable (fun w => w.written = []) (Ledger.Step True true) w)
    (hn : ∀ a ∈ w.written, a.name ≠ e.name) : Reachable (fun w => w.written = [])
    (Ledger.Step True true)
      ⟨w.store.insert (.memory, memoryKey e.name) e, w.written⟩ := by
  refine .next (a := .remember e) hw ⟨⟨_, Prog.runs_of_interp True rfl⟩, ?_⟩
  rw [List.filter_eq_self.mpr fun a ha => decide_eq_true (hn a ha)]

def note (name : Str) : MemoryEntry := ⟨name, "note".toList, [], [], []⟩

def earlier : Memories :=
  ((∅ : Memories).insert (.memory, memoryKey "chat-2".toList)
    (archiveEntry "chat-2".toList "hello".toList [])).insert
    (.memory, memoryKey "diet".toList) (note "diet".toList)

/-- The archives of one run go on from where an earlier one left off, and both can be loaded at its end. -/
theorem first_archive_loads : ∃ w, Reachable (fun w => w.written = []) (Ledger.Step True true) w ∧
    Prog.interp brain (loadMemory "chat-3".toList) w.store =
    .ok (some (archiveEntry "chat-3".toList "talk".toList [])) w.store ∧
    Prog.interp brain (loadMemory "chat-4".toList) w.store =
    .ok (some (archiveEntry "chat-4".toList "more".toList [])) w.store := by
  have hfull : ∀ {p : Prop}, 2 ^ 32 - 1 ∈ numbers (archiveStem "chat".toList)
      (namesUnder earlier (archiveStem "chat".toList)) → p :=
    fun hmem => absurd hmem (by decide +kernel)
  have h₀ : Reachable (fun w => w.written = []) (Ledger.Step True true) ⟨earlier, []⟩ := .first rfl
  have h₁ := reachable_filed "chat".toList "talk".toList (n := 3) h₀
    ⟨by decide +kernel, hfull, fun _ => by decide +kernel⟩ (by decide +kernel)
  have h₂ := reachable_remembered (note "chat-book".toList) h₁ (by decide)
  have h₃ := reachable_filed "chat".toList "more".toList (n := 4) h₂
    ⟨by decide +kernel, fun hmem => absurd hmem (by decide +kernel), fun _ => by decide +kernel⟩
      (by decide +kernel)
  have hloads := (archives_filed True true).2 _ h₃
  exact ⟨_, h₃, hloads _ (List.mem_cons_of_mem _ List.mem_cons_self), hloads _ List.mem_cons_self⟩

def nestedNote : MemoryEntry := ⟨"chat-/x".toList, "note".toList, [], [], []⟩

def nestedNotes : Memories := (∅ : Memories).insert (.memory, memoryKey nestedNote.name) nestedNote

/-- A name that goes on with a segment of its own is listed by that segment, which cannot be cut
where the stem ends. -/
theorem nested_name_panics : ¬ Sound False true "chat".toList nestedNotes := by
  intro hsound
  have hunder : ((Column.memory, memoryKey nestedNote.name), nestedNote) ∈
      nestedNotes.under .memory (memoryKey (archiveStem "chat".toList)) :=
    ColMap.mem_under.mpr ⟨by rw [nestedNotes, find_insert, if_pos rfl], rfl, by decide⟩
  have hlisted : "x".toList ∈ namesUnder nestedNotes (archiveStem "chat".toList) :=
    List.mem_filterMap.mpr ⟨memoryKey nestedNote.name, List.mem_map.mpr ⟨_, hunder, rfl⟩, by decide⟩
  exact absurd ((safe_of_sound hsound).sliced _ hlisted) (by decide)

end

end Crabtalk.Runtime

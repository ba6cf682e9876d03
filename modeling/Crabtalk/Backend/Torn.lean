import Crabtalk.Backend.Isolated
import Crabtalk.Backend.Plain
import Crabtalk.Basis.Footprint

/-!
# A log that was cut short

A crash leaves some of the bytes of an append. The line it was writing has no
end then, and nothing gives it one: what is appended next goes on in it.
-/

open Basis

namespace Crabtalk.Backend

open Store

variable {μ : Type} [FileStd μ]

/-! ## Lines -/

section
variable {e : HistoryEntry μ} {log entries : List (HistoryEntry μ)} {line rest : Bytes} {n : Nat}

def entryLines (entries : List (HistoryEntry μ)) : Bytes := lines FileStd.entryJson entries

theorem entryLines_cons : entryLines (e :: entries) = FileStd.entryJson e ++ newline ::
    entryLines entries := terminated_cons

theorem entryLines_append : entryLines (log ++ entries) = entryLines log ++ entryLines entries := by
  simp [entryLines, lines]

def history (bytes : Bytes) : List (HistoryEntry μ) := parseLines FileStd.readEntry bytes

@[simp] theorem history_nil : (history [] : List (HistoryEntry μ)) = [] := by
  simp [history, parseLines]

theorem history_line (h : newline ∉ line) : (history line : List (HistoryEntry μ)) = if line = []
    then [] else (FileStd.readEntry line).toList := by
  have hsplit : line.splitOnP (fun b => decide (b = newline)) = [line] :=
    List.splitOnP_eq_singleton fun b hb => by simpa using fun he : b = newline => h (he ▸ hb)
  rw [history, parseLines, hsplit]
  by_cases hl : line = []
  · simp [hl]
  · cases hr : (FileStd.readEntry line : Option (HistoryEntry μ)) with
    | none => simp [hl, hr]
    | some e => simp [hl, hr]

theorem history_cons (h : newline ∉ line) :
    (history (line ++ newline :: rest) : List (HistoryEntry μ)) =
    (if line = [] then [] else (FileStd.readEntry line).toList) ++ history rest := by
  have hsplit : (line ++ newline :: rest).splitOnP (fun b => decide (b = newline)) =
      line :: rest.splitOnP fun b => decide (b = newline) :=
    List.splitOnP_append_cons_of_forall_mem
      (fun b hb => by simpa using fun he : b = newline => h (he ▸ hb)) newline (by simp) rest
  rw [history, history, parseLines, parseLines, hsplit, List.filterMap_cons]
  by_cases hl : line = []
  · simp [hl]
  · cases hr : (FileStd.readEntry line : Option (HistoryEntry μ)) with
    | none => simp [hl]
    | some e => simp [hl]

theorem entryJson_ne_nil (e : HistoryEntry μ) : FileStd.entryJson e ≠ [] :=
  (FileStd.object_entryJson e).ne_nil

theorem history_entryLines : history (entryLines log ++ rest) = log.map HistoryEntry.persist ++
    history rest := by
  induction log with
  | nil => rfl
  | cons e log ih =>
    rw [entryLines_cons, List.append_assoc, List.cons_append,
      history_cons (FileStd.newline_entryJson e), if_neg (entryJson_ne_nil e),
      FileStd.readEntry_entryJson, ih]
    rfl

/-! ## Lines that are cut -/

/-- Of the first `n` bytes of the lines, those on a line without its end. -/
def tornLine : Nat → List (HistoryEntry μ) → Bytes
  | _, [] => []
  | n, e :: rest =>
    if n ≤ (FileStd.entryJson e).length then (FileStd.entryJson e).take n
      else tornLine (n - ((FileStd.entryJson e).length + 1)) rest

def whole : Nat → List (HistoryEntry μ) → List (HistoryEntry μ)
  | _, [] => []
  | n, e :: rest =>
    if n ≤ (FileStd.entryJson e).length then []
      else e :: whole (n - ((FileStd.entryJson e).length + 1)) rest

def completed : Nat → List (HistoryEntry μ) → List (HistoryEntry μ)
  | _, [] => []
  | n, e :: rest =>
    if (FileStd.entryJson e).length ≤ n then e :: completed
      (n - ((FileStd.entryJson e).length + 1)) rest else []

theorem take_entryLines (n : Nat) (entries : List (HistoryEntry μ)) :
    (entryLines entries).take n = entryLines (whole n entries) ++ tornLine n entries := by
  induction entries generalizing n with
  | nil => simp [entryLines, lines, whole, tornLine]
  | cons e entries ih =>
    rw [entryLines_cons, whole, tornLine]
    by_cases h : n ≤ (FileStd.entryJson e).length
    · rw [if_pos h, if_pos h, List.take_append_of_le_length h]
      rfl
    · have hn : n = (FileStd.entryJson e).length + ((n - ((FileStd.entryJson e).length + 1)) + 1) := by omega
      rw [if_neg h, if_neg h, entryLines_cons]
      conv => lhs; rw [hn, List.take_length_add_append, List.take_succ_cons, ih]
      rw [List.append_assoc, List.cons_append]

theorem tornLine_start (n : Nat) (entries : List (HistoryEntry μ)) :
    tornLine n entries = [] ∨ ∃ e : HistoryEntry μ, tornLine n entries <+: FileStd.entryJson e := by
  induction entries generalizing n with
  | nil => exact .inl rfl
  | cons e entries ih =>
    rw [tornLine]
    by_cases h : n ≤ (FileStd.entryJson e).length
    · rw [if_pos h]
      exact .inr ⟨e, List.take_prefix n _⟩
    · rw [if_neg h]
      exact ih _

theorem newline_notMem_start {torn : Bytes} (h : torn <+: FileStd.entryJson e) : newline ∉ torn :=
  fun hm => FileStd.newline_entryJson e (h.subset hm)

theorem readEntry_cut {torn : Bytes} (h : torn <+: FileStd.entryJson e)
    (hne : torn ≠ FileStd.entryJson e) :
    (FileStd.readEntry torn : Option (HistoryEntry μ)) = none := by
  cases hr : (FileStd.readEntry torn : Option (HistoryEntry μ)) with
  | none => rfl
  | some e' =>
    exact absurd (FileStd.outline_of_readEntry torn e' hr) ((FileStd.object_entryJson e).cut h hne)

theorem readEntry_glued {torn : Bytes} (h : torn <+: FileStd.entryJson e) (hne : torn ≠ [])
    (next : HistoryEntry μ) :
    (FileStd.readEntry (torn ++ FileStd.entryJson next) : Option (HistoryEntry μ)) = none := by
  cases hr : (FileStd.readEntry (torn ++ FileStd.entryJson next) : Option (HistoryEntry μ)) with
  | none => rfl
  | some e' =>
    exact absurd (FileStd.outline_of_readEntry _ e' hr)
      ((FileStd.object_entryJson e).glued h hne (FileStd.object_entryJson next))

theorem completed_zero (entries : List (HistoryEntry μ)) : completed 0 entries = [] := by
  cases entries with
  | nil => rfl
  | cons e entries =>
    rw [completed, if_neg]
    intro h
    exact entryJson_ne_nil e (List.length_eq_zero_iff.mp (Nat.le_zero.mp h))

theorem whole_start (n : Nat) (entries : List (HistoryEntry μ)) :
    whole n entries <+: completed n entries := by
  induction entries generalizing n with
  | nil => exact List.prefix_refl _
  | cons e entries ih =>
    rw [whole, completed]
    by_cases h : n ≤ (FileStd.entryJson e).length
    · rw [if_pos h]
      exact List.nil_prefix
    · rw [if_neg h, if_pos (by omega)]
      exact List.cons_prefix_cons.mpr ⟨rfl, ih _⟩

/-- What of the cut lines can be read, as long as nothing is behind them. -/
theorem history_cut (n : Nat) (entries : List (HistoryEntry μ)) :
    history ((entryLines entries).take n) = (completed n entries).map HistoryEntry.persist := by
  induction entries generalizing n with
  | nil => simp [entryLines, lines, completed]
  | cons e entries ih =>
    rw [entryLines_cons, completed]
    by_cases h : n ≤ (FileStd.entryJson e).length
    · have htake := List.take_prefix n (FileStd.entryJson e)
      rw [List.take_append_of_le_length h, history_line (newline_notMem_start htake)]
      by_cases hn : n = (FileStd.entryJson e).length
      · subst hn
        rw [List.take_length, if_neg (entryJson_ne_nil e), FileStd.readEntry_entryJson,
          if_pos (Nat.le_refl _), Nat.sub_eq_zero_of_le (Nat.le_succ _),
          completed_zero]
        rfl
      · have hcut : (FileStd.entryJson e).take n ≠ FileStd.entryJson e := by
          intro he
          have := congrArg List.length he
          rw [List.length_take] at this
          omega
        rw [readEntry_cut htake hcut, Option.toList_none, ite_self, if_neg (by omega), List.map_nil]
    · have hn : n = (FileStd.entryJson e).length + ((n - ((FileStd.entryJson e).length + 1)) + 1) := by omega
      rw [if_pos (by omega)]
      conv => lhs; rw [hn, List.take_length_add_append, List.take_succ_cons]
      rw [history_cons (FileStd.newline_entryJson e), if_neg (entryJson_ne_nil e),
        FileStd.readEntry_entryJson, ih]
      rfl

/-- All is read just when no line was torn, or nothing was written behind it. -/
theorem history_torn (n : Nat) (log entries later : List (HistoryEntry μ)) :
    history (entryLines log ++ ((entryLines entries).take n ++ entryLines later)) =
      (log ++ (completed n entries ++ later)).map HistoryEntry.persist ↔ tornLine n entries = [] ∨
      later = [] := by
  rw [history_entryLines, List.map_append, List.append_right_inj]
  by_cases hlater : later = []
  · subst hlater
    rw [show entryLines [] = [] from rfl, List.append_nil, List.append_nil, history_cut]
    simp
  · obtain ⟨next, later, rfl⟩ := List.exists_cons_of_ne_nil hlater
    rw [or_iff_left hlater]
    constructor
    · intro hread
      by_contra htorn
      obtain ⟨e, he⟩ := (tornLine_start n entries).resolve_left htorn
      have hnl : newline ∉ tornLine n entries ++ FileStd.entryJson next := by
        rw [List.mem_append]
        intro hm
        exact hm.elim (newline_notMem_start he) (FileStd.newline_entryJson next)
      rw [take_entryLines, List.append_assoc, history_entryLines, entryLines_cons,
        ← List.append_assoc (tornLine n entries), history_cons hnl,
        readEntry_glued he htorn, ← List.append_nil (entryLines later), history_entryLines] at hread
      have hlen := congrArg List.length hread
      have hle := (whole_start n entries).length_le
      simp at hlen
      omega
    · intro htorn
      have hcut := history_cut n entries
      rw [take_entryLines, htorn, List.append_nil] at hcut ⊢
      rw [history_entryLines, ← List.append_nil (entryLines (next :: later)), history_entryLines]
      rw [← List.append_nil (entryLines (whole n entries)), history_entryLines] at hcut
      rw [history_nil, List.append_nil] at hcut ⊢
      rw [hcut, List.map_append]

end

/-! ## The crash -/

def cutAppend (n : Nat) (t : Disk) : FsOp → Option Disk
  | .append path bytes =>
    (t.locate path).bind fun loc => t.writeFile loc ((t.fileAt loc).getD [] ++ bytes.take n)
  | _ => none

/-- The disk after a crash in the first append of a program, of which `n` bytes went through. -/
def tear {α : Type} (n : Nat) : FileM α → Disk → Option Disk
  | .done _, _ => none
  | .fail _, _ => none
  | .call o k, t =>
    match cutAppend n t o with
    | some t' => some t'
    | none =>
      match disk o t with
      | .ok a t' => tear n (k (.ok a)) t'
      | .error e t' => tear n (k (.error e)) t'

def FsOp.isAppend : FsOp → Bool
  | .append _ _ => true
  | _ => false

section
variable {α β : Type} {n : Nat} {t t' : Disk} {h : Str} {bytes : Bytes}

/-- A program that appends nothing is not cut in an append. -/
theorem tear_quiet {p : FileM α} (hp : Prog.Footprint disk (fun o => o.isAppend = false) p) :
    tear n p t = none := by
  induction p generalizing t with
  | done a => rfl
  | fail e => rfl
  | call o k ih =>
    obtain ⟨ho, hok, herror⟩ := hp
    have hcut : cutAppend n t o = none := by
      cases o with
      | append path bytes => cases ho
      | _ => rfl
    rw [tear, hcut]
    dsimp only
    cases hd : disk o t with
    | ok a t' => exact ih _ (hok t a t' hd)
    | error e t' => exact ih _ (herror e)

theorem tear_bind {f : α → FileM β} {p : FileM α} : tear n (p >>= f) t = match tear n p t with
    | some t' => some t'
    | none => match Prog.interp disk p t with
      | .ok a t' => tear n (f a) t'
      | .error _ _ => none := by
  induction p generalizing t with
  | done a => rfl
  | fail e => rfl
  | call o k ih =>
    show tear n (.call o fun r => (k r).bind f) t = _
    rw [tear, tear]
    cases cutAppend n t o with
    | some t' => rfl
    | none =>
      simp only [Prog.interp]
      cases disk o t with
      | ok a t' => exact ih _
      | error e t' => exact ih _

theorem quiet_readJson (decode : Bytes → Option α) (path : FilePath) :
    Prog.Footprint disk (fun o => o.isAppend = false) (readJson decode path) := by
  refine Prog.Footprint.bind (Prog.Footprint.attempt (.perform rfl)) fun r => ?_
  cases r with
  | error e => trivial
  | ok bytes =>
    dsimp only
    split
    · trivial
    · trivial

theorem quiet_replace (path : FilePath) (bytes : Bytes) :
    Prog.Footprint disk (fun o => o.isAppend = false) (replace path bytes) :=
  Prog.Footprint.bind (.perform rfl) fun _ => Prog.Footprint.bind (.perform rfl)
    fun _ => .perform rfl

/-! ## The session after it -/

structure Log (μ : Type) [FileStd μ] (h : Str) (bytes : Bytes) (t : Disk) : Prop where
  opens : Opens t h
  readable : ∃ b m, fileOf t h "meta.json".toList = some b ∧ FileStd.readMeta μ b = some m
  bytes : (fileOf t h "messages.jsonl".toList).getD [] = bytes

theorem Log.grow (hl : Log μ h bytes t) {more : Bytes}
    (hw : t.writeFile (spot h ++ ["messages.jsonl".toList]) (bytes ++ more) = some t') :
    Log μ h (bytes ++ more) t' := by
  have ho : Opens t' h := hl.opens.mono fun l hd => by rw [FileTree.isDir_writeFile hw, hd]
  refine ⟨ho, ?_, ?_⟩
  · obtain ⟨b, m, hb, hm⟩ := hl.readable
    refine ⟨b, m, ?_, hm⟩
    rw [hl.opens.fileOf] at hb
    rw [ho.fileOf, FileTree.fileAt_writeFile hw, if_neg, hb]
    exact fun he => absurd (List.append_cancel_left he) (by decide)
  · rw [ho.fileOf, FileTree.fileAt_writeFile hw, if_pos rfl, Option.getD_some]

structure Ready (h : Str) (t : Disk) : Prop where
  files : ∀ name ∈ ["messages.jsonl".toList, "meta.json".toList, "meta.tmp".toList],
    t.isDir (spot h ++ [name]) = false
  dirs : ∀ dir ∈ storeDirs, t.isDir [dir.toList] = true

theorem Ready.congr (hr : Ready h t) (hd : ∀ l, t'.isDir l = t.isDir l) : Ready h t' :=
  ⟨fun name hn => by rw [hd, hr.files name hn], fun dir hm => by rw [hd, hr.dirs dir hm]⟩

theorem Log.old (hl : Log μ h bytes t) :
    (t.fileAt (spot h ++ ["messages.jsonl".toList])).getD [] = bytes := by
  rw [← hl.opens.fileOf, hl.bytes]

theorem Log.load (hl : Log μ h bytes t) : ∃ snap, loaded μ t h = .ok (some snap) ∧
    snap.history = history bytes := by
  obtain ⟨b, m, hb, hm⟩ := hl.readable
  rw [loaded_eq, snapshot, hb, Option.elim_some, hm, Option.elim_some]
  refine ⟨_, rfl, ?_⟩
  have hbytes := hl.bytes
  show (fileOf t h "messages.jsonl".toList).elim [] (parseLines FileStd.readEntry) = history bytes
  cases hf : fileOf t h "messages.jsonl".toList with
  | none =>
    rw [hf, Option.getD_none] at hbytes
    rw [← hbytes, history_nil]
    rfl
  | some b' =>
    rw [hf, Option.getD_some] at hbytes
    rw [hbytes]
    rfl

/-- Opening the store again leaves a log as it is. -/
theorem Log.reopen (hl : Log μ h bytes t) :
    Prog.wp False disk openStore (fun _ t' => Log μ h bytes t' ∧ (Ready h t → t' = t))
    (fun _ _ => ¬ Ready h t) t := by
  refine Prog.wp_forM (I := fun t' => Log μ h bytes t' ∧ (Ready h t → t' = t)) ⟨hl, fun _ => rfl⟩
    fun dir hdir u ⟨hl, hsame⟩ => ?_
  have hthere : Ready h t → u.makeDirs [] [.normal dir.toList] = some u := by
    intro hr
    have hd : u.isDir [dir.toList] = true := by rw [hsame hr]; exact hr.dirs dir hdir
    refine FileTree.makeDirs_opened (l := [dir.toList]) ?_ hd
    rw [FileTree.walk_cons, if_pos FileTree.isDir_nil]
    rfl
  rw [wp_createDirAll]
  refine ⟨?_, False.elim⟩
  cases hd : u.makeDirs [] [.normal dir.toList] with
  | none =>
    intro hr
    rw [hthere hr] at hd
    cases hd
  | some u' =>
    have ho : Opens u' h := hl.opens.mono fun l => FileTree.isDir_makeDirs hd
    have hfiles : ∀ name, fileOf u' h name = fileOf u h name := fun name => by
      rw [ho.fileOf, hl.opens.fileOf, FileTree.fileAt_makeDirs hd]
    refine ⟨⟨ho, by rw [hfiles]; exact hl.readable, by rw [hfiles, hl.bytes]⟩, fun hr => ?_⟩
    rw [hthere hr] at hd
    cases hd
    exact hsame hr

/-- Writing the metadata leaves the log as it is. -/
theorem Log.writeMeta (hl : Log μ h bytes t) (m : SessionMeta) :
    Prog.wp False disk (Backend.writeMeta (μ := μ) h m) (fun _ t' => Log μ h bytes t' ∧
      ∀ l, t'.isDir l = t.isDir l)
      (fun _ _ => ¬ Ready h t) t := by
  refine wp_replace hl.opens.makeDirs rfl (by decide) (by decide)
    (fun _ _ t' hfile hdir => ⟨?_, hdir⟩) fun hd _ hr => ?_
  · have ho : Opens t' h := hl.opens.mono fun l hd => by rw [hdir, hd]
    refine ⟨ho, ⟨_, m, ?_, FileStd.readMeta_metaJson m⟩, ?_⟩
    · rw [ho.fileOf, hfile]
      exact if_pos rfl
    · rw [ho.fileOf, hfile, if_neg, if_neg, hl.old]
      · exact fun he => absurd (List.append_cancel_left he) (by decide)
      · exact fun he => absurd (List.append_cancel_left he) (by decide)
  · rcases hd with hd | hd
    · exact absurd ((hr.files "meta.tmp".toList (by decide)).symm.trans hd) Bool.false_ne_true
    · exact absurd ((hr.files "meta.json".toList (by decide)).symm.trans hd) Bool.false_ne_true

/-- A file can be written, unless a directory is in the way. -/
theorem Log.written (hl : Log μ h bytes t) (hr : Ready h t) (b : Bytes) :
    ∃ t', t.writeFile (spot h ++ ["messages.jsonl".toList]) b = some t' :=
  FileTree.writeFile_some (by simp) (by rw [List.dropLast_concat]; exact hl.opens.2)
    (hr.files _ (by decide))
    (FileTree.lastFits_concat.trans (by decide)) b

/-- An append that goes through is behind what was there. -/
theorem Log.append (hl : Log μ h bytes t) (entries : List (HistoryEntry μ)) (now : Str) :
    Prog.wp False disk (appendSessionMessages h entries now)
      (fun _ t' => Log μ h (bytes ++ entryLines entries) t' ∧ ∀ l, t'.isDir l = t.isDir l)
      (fun _ _ => ¬ Ready h t) t := by
  unfold appendSessionMessages
  by_cases hempty : entries.isEmpty = true
  · rw [if_pos hempty, List.isEmpty_iff.mp hempty, show entryLines ([] : List (HistoryEntry μ)) = []
      from rfl, List.append_nil]
    exact ⟨hl, fun _ => rfl⟩
  · rw [if_neg hempty, Prog.wp_bind]
    obtain ⟨b, m, hb, hm⟩ := hl.readable
    have hmeta := sees_readJson (FileStd.readMeta μ) (metaPath h) t
    rw [show (t.locate (metaPath h)).bind t.fileAt = some b from hb, Option.elim_some, hm,
      Option.elim_some] at hmeta
    refine hmeta.wp ?_
    dsimp only
    unfold appendJson
    rw [if_neg hempty, Prog.wp_bind, Prog.wp_bind, wp_createDirAll, messagesPath, parent_concat,
      hl.opens.makeDirs]
    refine ⟨?_, False.elim⟩
    show Prog.wp False disk (Backend.append _ _) _ _ t
    rw [wp_append, locate_concat hl.opens.1 hl.opens.2, Option.bind_some, hl.old]
    refine ⟨?_, False.elim⟩
    cases hw : t.writeFile (spot h ++ ["messages.jsonl".toList])
      (bytes ++ lines FileStd.entryJson entries) with
    | none =>
      intro hr
      obtain ⟨t', hw'⟩ := hl.written hr (bytes ++ lines FileStd.entryJson entries)
      rw [hw] at hw'
      cases hw'
    | some t' =>
      have hdir : ∀ l, t'.isDir l = t.isDir l := fun l => FileTree.isDir_writeFile hw
      refine ((hl.grow hw).writeMeta _).mono (fun _ u hu => ⟨hu.1, fun l => by rw [hu.2, hdir]⟩)
        fun _ _ hno hr => ?_
      exact hno (hr.congr hdir)

def appendAll (h : Str) (later : List (List (HistoryEntry μ) × Str)) : FileM Unit :=
  forM later fun a => appendSessionMessages h a.1 a.2

theorem Log.appendAll (hl : Log μ h bytes t) (later : List (List (HistoryEntry μ) × Str)) :
    Prog.wp False disk (Backend.appendAll h later)
    (fun _ => Log μ h (bytes ++ entryLines (later.flatMap (·.1))))
      (fun _ _ => ¬ Ready h t) t := by
  unfold Backend.appendAll
  induction later generalizing t bytes with
  | nil =>
    rw [List.flatMap_nil, show entryLines ([] : List (HistoryEntry μ)) = [] from rfl,
      List.append_nil]
    exact hl
  | cons a later ih =>
    rw [List.forM_cons, Prog.wp_bind, List.flatMap_cons, entryLines_append, ← List.append_assoc]
    refine (hl.append a.1 a.2).mono (fun _ u hu => ?_) fun _ _ he => he
    exact (ih hu.1).mono (fun _ _ hl => hl) fun _ _ hno hr => hno (hr.congr hu.2)

/-- After a crash the store is opened again, and appended to. -/
theorem Log.later (hl : Log μ h bytes t) (later : List (List (HistoryEntry μ) × Str)) :
    Prog.wp False disk (do openStore; Backend.appendAll h later)
    (fun _ => Log μ h (bytes ++ entryLines (later.flatMap (·.1))))
      (fun _ _ => ¬ Ready h t) t := by
  rw [Prog.wp_bind]
  refine hl.reopen.mono (fun _ u hu => ?_) fun _ _ he => he
  exact (hu.1.appendAll later).mono (fun _ _ hl => hl) fun _ _ hno hr => hno (by rwa [hu.2 hr])

theorem tear_append (path : FilePath) (more : Bytes) :
    tear n (Backend.append path more) t = cutAppend n t (.append path more) := by
  show tear n (.call (.append path more) Prog.ofExcept) t = _
  rw [tear]
  cases cutAppend n t (.append path more) with
  | some t' => rfl
  | none =>
    dsimp only
    cases disk (.append path more) t with
    | ok a t' => rfl
    | error e t' => rfl

theorem tear_appendJson (hl : Log μ h bytes t) {entries : List (HistoryEntry μ)}
    (hne : ¬ entries.isEmpty = true) :
    tear n (appendJson FileStd.entryJson (messagesPath h) entries) t =
      t.writeFile (spot h ++ ["messages.jsonl".toList]) (bytes ++ (entryLines entries).take n) := by
  have hquiet : tear n (createDirAll (sessionDir h)) t = none :=
    tear_quiet (p := createDirAll (sessionDir h)) (.perform rfl)
  have hdirs : Prog.Sees disk (createDirAll (sessionDir h)) t (.ok ()) := by
    refine .perform ?_
    simp only [disk, hl.opens.makeDirs]
  unfold appendJson
  rw [if_neg hne, tear_bind, messagesPath, parent_concat, hquiet,
    show Prog.interp disk (createDirAll (sessionDir h)) t = .ok () t from hdirs]
  dsimp only
  rw [tear_append, cutAppend, locate_concat hl.opens.1 hl.opens.2, Option.bind_some, hl.old]
  rfl

theorem tear_session (hl : Log μ h bytes t) {entries : List (HistoryEntry μ)}
    (hne : ¬ entries.isEmpty = true) (now : Str) :
    tear n (appendSessionMessages h entries now) t =
      t.writeFile (spot h ++ ["messages.jsonl".toList]) (bytes ++ (entryLines entries).take n) := by
  obtain ⟨b, m, hb, hm⟩ := hl.readable
  have hmeta : Prog.interp disk (readJson (FileStd.readMeta μ) (metaPath h)) t = .ok (some m) t := by
    have hsees := sees_readJson (FileStd.readMeta μ) (metaPath h) t
    rw [show (t.locate (metaPath h)).bind t.fileAt = some b from hb, Option.elim_some, hm,
      Option.elim_some] at hsees
    exact hsees
  unfold appendSessionMessages
  rw [if_neg hne, tear_bind, sessionMeta, tear_quiet (quiet_readJson _ _), hmeta]
  dsimp only
  rw [tear_bind, tear_appendJson hl hne]
  cases t.writeFile (spot h ++ ["messages.jsonl".toList]) (bytes ++ (entryLines entries).take n) with
  | some t' => rfl
  | none =>
    dsimp only
    split
    · exact tear_quiet (quiet_replace _ _)
    · rfl

theorem log_of_append {entries : List (HistoryEntry μ)} {now : Str}
    (ht : tear n (appendSessionMessages h entries now) t = some t') :
    ¬ entries.isEmpty = true ∧ Log μ h ((fileOf t h "messages.jsonl".toList).getD []) t := by
  unfold appendSessionMessages at ht
  by_cases hempty : entries.isEmpty = true
  · rw [if_pos hempty] at ht
    cases ht
  · have hmeta : Prog.interp disk (readJson (FileStd.readMeta μ) (metaPath h)) t = _ :=
      sees_readJson (FileStd.readMeta μ) (metaPath h) t
    rw [if_neg hempty, tear_bind, sessionMeta, tear_quiet (quiet_readJson _ _), hmeta] at ht
    refine ⟨hempty, ?_⟩
    cases hb : fileOf t h "meta.json".toList with
    | none =>
      rw [show (t.locate (metaPath h)).bind t.fileAt = none from hb] at ht
      cases ht
    | some b =>
      rw [show (t.locate (metaPath h)).bind t.fileAt = some b from hb, Option.elim_some] at ht
      cases hm : FileStd.readMeta μ b with
      | none =>
        rw [hm] at ht
        cases ht
      | some m => exact ⟨opens_of_file (by rw [hb]; exact Option.some_ne_none b),
          ⟨b, m, hb, hm⟩, rfl⟩

/-- A crash in an append leaves the session with so many bytes of it. -/
theorem log_of_tear {entries : List (HistoryEntry μ)} {now : Str}
    (ht : tear n (appendSessionMessages h entries now) t = some t') :
    Log μ h ((fileOf t h "messages.jsonl".toList).getD [] ++ (entryLines entries).take n) t' := by
  obtain ⟨hne, hl⟩ := log_of_append ht
  rw [tear_session hl hne] at ht
  exact hl.grow ht

/-- Any crash happens to a session that was just created, and any appends go through after it. -/
theorem crash_happens (F : Prop) (hs : ¬ Special h) (hfits : storable h = true)
    {entries : List (HistoryEntry μ)} (hne : ¬ entries.isEmpty = true) (now : Str) (n : Nat)
    (later : List (List (HistoryEntry μ) × Str)) :
    ∃ t t₁ t₂, Reached μ F t ∧ (fileOf t h "messages.jsonl".toList).getD [] =
    entryLines ([] : List (HistoryEntry μ)) ∧
      tear n (appendSessionMessages h entries now) t = some t₁ ∧
      Prog.interp disk (do openStore; appendAll h later) t₁ = .ok () t₂ := by
  obtain ⟨t, hreached, hc⟩ := reached_created (μ := μ) (F := F) hfits
  have ho : Opens t h := by
    have hnode : t.node (spot h ++ ["meta.json".toList]) =
        some (.file (FileStd.metaJson μ ⟨⟨0⟩, [], [], [], [], 0, none, none⟩)) :=
      FileTree.fileAt_iff.mp hc.file
    refine ⟨?_, FileTree.isDir_parent hnode⟩
    have hsessions : t.isDir (Component.enter [] (.normal "sessions".toList)) = true :=
      hc.dirs "sessions" (by decide)
    rw [spot, sessionDir_normal hs, FileTree.locate, List.map_cons, FileTree.walk_cons,
      if_pos FileTree.isDir_nil, List.map_cons,
      FileTree.walk_cons, if_pos hsessions]
    rfl
  have hmessages : fileOf t h "messages.jsonl".toList = none := by
    rw [ho.fileOf]
    exact hc.files _ fun he => absurd (List.append_cancel_left he) (by decide)
  have hl : Log μ h [] t := by
    have hmeta := hc.file
    rw [← ho.fileOf] at hmeta
    exact ⟨ho, ⟨_, _, hmeta, FileStd.readMeta_metaJson _⟩, by rw [hmessages]; rfl⟩
  have hr : Ready h t := by
    refine ⟨fun name hname => ?_, hc.dirs⟩
    simp only [List.mem_cons, List.not_mem_nil, or_false] at hname
    rcases hname with rfl | rfl | rfl
    · exact hc.free "messages.jsonl" (by decide)
    · exact hc.free "meta.json" (by decide)
    · exact hc.free "meta.tmp" (by decide)
  obtain ⟨t₁, hw⟩ := hl.written hr ([] ++ (entryLines entries).take n)
  have hlast := Prog.wp_interp.mp ((hl.grow hw).later later)
  unfold Basis.wp at hlast
  cases hrun : Prog.interp disk (do openStore; appendAll h later) t₁ with
  | error e t₂ =>
    rw [hrun] at hlast
    exact absurd (hr.congr fun l => FileTree.isDir_writeFile hw) hlast
  | ok r t₂ => exact ⟨t, t₁, t₂, hreached, by rw [hmessages]; rfl,
      by rw [tear_session hl hne, hw], hrun⟩

/-- Everything is loaded after a crash just when it left no line without its end, or nothing is
appended again. -/
theorem torn_append {log entries : List (HistoryEntry μ)} {now : Str}
    {later : List (List (HistoryEntry μ) × Str)} {t₁ t₂ : Disk}
    (hlog : (fileOf t h "messages.jsonl".toList).getD [] = entryLines log)
    (htear : tear n (appendSessionMessages h entries now) t = some t₁)
    (hlater : Prog.interp disk (do openStore; appendAll h later) t₁ = .ok () t₂) :
    (∃ snap, loaded μ t₂ h = .ok (some snap) ∧
      snap.history = (log ++ (completed n entries ++ later.flatMap (·.1))).map
      HistoryEntry.persist) ↔
      tornLine n entries = [] ∨ later.flatMap (·.1) = [] := by
  have htorn := log_of_tear htear
  rw [hlog] at htorn
  have hlast := Prog.wp_interp.mp (htorn.later later)
  rw [Basis.wp, hlater, List.append_assoc] at hlast
  obtain ⟨snap, hload, hhistory⟩ := hlast.load
  rw [← history_torn, ← hhistory]
  constructor
  · rintro ⟨snap', hload', hread⟩
    rw [hload] at hload'
    cases hload'
    exact hread
  · intro hread
    exact ⟨snap, hload, hread⟩

end

section
open Store.Plain Backend.Plain

def said (text : String) : HistoryEntry Message := ⟨[], [], false, ⟨"user".toList, text.toList⟩⟩

/-- With its line ended before the crash, an entry is loaded with what is appended later. -/
theorem ended_line_kept : ∃ t t₁ t₂, Reached Message True t ∧
    tear 46 (appendSessionMessages "chat".toList [said "hello"] []) t = some t₁ ∧
    Prog.interp disk (do openStore; appendAll "chat".toList [([said "again"], [])]) t₁ = .ok () t₂ ∧
    ∃ snap, loaded Message t₂ "chat".toList = .ok (some snap) ∧
    snap.history = [said "hello", said "again"] := by
  obtain ⟨t, t₁, t₂, hreached, hlog, htear, hlater⟩ :=
    crash_happens (μ := Message) True (h := "chat".toList) (by decide) (by decide)
    (show ¬ [said "hello"].isEmpty = true by decide) [] 46 [([said "again"], [])]
  have hall := (torn_append hlog htear hlater).mpr (.inl (by decide))
  exact ⟨t, t₁, t₂, hreached, htear, hlater, hall⟩

/-- Without it, both are lost. -/
theorem torn_line_swallows : ∃ t t₁ t₂, Reached Message True t ∧
    tear 45 (appendSessionMessages "chat".toList [said "hello"] []) t = some t₁ ∧
    Prog.interp disk (do openStore; appendAll "chat".toList [([said "again"], [])]) t₁ = .ok () t₂ ∧
    completed 45 [said "hello"] = [said "hello"] ∧
    ∃ snap, loaded Message t₂ "chat".toList = .ok (some snap) ∧ snap.history = [] := by
  obtain ⟨t, t₁, t₂, hreached, hlog, htear, hlater⟩ :=
    crash_happens (μ := Message) True (h := "chat".toList) (by decide) (by decide)
    (show ¬ [said "hello"].isEmpty = true by decide) [] 45 [([said "again"], [])]
  have hlast := Prog.wp_interp.mp ((log_of_tear htear).later [([said "again"], [])])
  unfold Basis.wp at hlast
  rw [hlater] at hlast
  obtain ⟨snap, hload, hhistory⟩ := hlast.load
  refine ⟨t, t₁, t₂, hreached, htear, hlater, by decide, snap, hload, ?_⟩
  have htake : (entryLines [said "hello"]).take 45 = FileStd.entryJson (said "hello") := by decide
  have hnl : newline ∉ FileStd.entryJson (said "hello") ++ FileStd.entryJson (said "again") := by decide
  have hlines : entryLines ([([said "again"], ([] : Str))].flatMap (·.1)) =
      FileStd.entryJson (said "again") ++ newline :: [] := by
    simp [entryLines_cons, show entryLines ([] : List (HistoryEntry Message)) = [] from rfl]
  rw [hhistory, hlog, show entryLines ([] : List (HistoryEntry Message)) = [] from rfl,
    List.nil_append, htake, hlines, ← List.append_assoc,
    history_cons hnl, readEntry_glued (List.prefix_refl _) (entryJson_ne_nil _), history_nil]
  simp

end

end Crabtalk.Backend

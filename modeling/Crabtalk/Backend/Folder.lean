import Crabtalk.Backend.Files
import Crabtalk.Basis.Listing
import Crabtalk.Basis.Simulation

/-!
# Directories that are listed

What names the entries of a directory and removes a file, beside the
operations that read and write one. Entries come in no particular order.
-/

open Basis

namespace Crabtalk.Backend

open Store

inductive DirOp
  | fs (op : FsOp)
  | readDir (path : FilePath)
  | nextEntries (path : FilePath)
  | removeFile (path : FilePath)

def DirOp.Reply : DirOp → Type
  | .fs op => op.Reply
  | .readDir _ => Unit
  | .nextEntries _ => List Str
  | .removeFile _ => Unit

abbrev Shelf := Listed Str Bytes

abbrev DirM := Prog DirOp DirOp.Reply Error

def touched : FsOp → Disk → List (List Str)
  | .write path _ => fun t => (t.locate path).toList
  | .append path _ => fun t => (t.locate path).toList
  | .createDirAll path => fun _ => path.inits.map fun p => p.foldl Component.enter []
  | .rename _ dst => fun t => (t.locate dst).toList
  | _ => fun _ => []

theorem grows_settle {t : Disk} {m : EStateM Error Disk Unit} {r : Option Disk}
    {locs : List (List Str)} (hm : m t = settle t r)
    (h : ∀ t', r = some t' → Grows t t' locs) : Basis.wp m (fun _ t' => Grows t t' locs)
    (fun _ t' => Grows t t' locs) t :=
  (wp_settle hm).mpr (settled_of (.refl _) h)

theorem grows_leftDirs (path : FilePath) (t : Disk) :
    Grows t (leftDirs path t) (path.inits.map fun p => p.foldl Component.enter []) := by
  unfold leftDirs
  cases h : t.makeDirs [] (admitted path) with
  | none => exact Grows.refl _
  | some t' =>
    intro l hl
    refine (grows_makeDirs h l hl).imp_right fun hmem => ?_
    obtain ⟨p, hp, rfl⟩ := List.mem_map.mp hmem
    have hprefix := ((List.mem_inits p _).mp hp).trans (List.takeWhile_prefix _)
    exact List.mem_map.mpr ⟨p, (List.mem_inits p path).mpr hprefix, rfl⟩

theorem grows_disk (op : FsOp) (t : Disk) :
    Basis.wp (disk op) (fun _ t' => Grows t t' (touched op t))
    (fun _ t' => Grows t t' (touched op t)) t := by
  cases op with
  | read path =>
    unfold Basis.wp
    simp only [disk]
    cases (t.locate path).bind t.fileAt with
    | none => exact Grows.refl _
    | some b => exact Grows.refl _
  | write path bytes =>
    refine grows_settle rfl fun t' ht => ?_
    obtain ⟨loc, hloc, ht⟩ := Option.bind_eq_some_iff.mp ht
    simp only [touched, hloc]
    exact grows_writeFile ht
  | append path bytes =>
    refine grows_settle rfl fun t' ht => ?_
    obtain ⟨loc, hloc, ht⟩ := Option.bind_eq_some_iff.mp ht
    simp only [touched, hloc]
    exact grows_writeFile ht
  | createDirAll path =>
    refine wp_makeDirs.mpr ?_
    cases hmade : t.makeDirs [] path with
    | some t' => exact grows_makeDirs hmade
    | none => exact grows_leftDirs path t
  | rename src dst =>
    refine grows_settle rfl fun t' ht => ?_
    obtain ⟨a, -, ht⟩ := Option.bind_eq_some_iff.mp ht
    obtain ⟨b, hb, ht⟩ := Option.bind_eq_some_iff.mp ht
    simp only [touched, hb]
    exact grows_moveFile ht
  | removeDirAll path =>
    unfold Basis.wp
    simp only [disk]
    cases t.locate path with
    | none => exact Grows.refl _
    | some loc =>
      simp only [removeAll]
      by_cases hd : t.isDir loc = true
      · rw [if_pos hd]
        by_cases hn : loc ≠ [] ∧ endsInName path = true
        · rw [dif_pos hn]
          exact grows_remove hn.1 _
        · rw [dif_neg hn]
          exact grows_clear _
      · rw [if_neg hd]
        exact Grows.refl _

/-- `remove_file` -/
def removeAt (path : FilePath) : EStateM Error Disk Unit := fun t =>
  match t.locate path with
  | none => .error .io t
  | some loc =>
    if h : loc ≠ [] ∧ (t.fileAt loc).isSome then .ok () (t.remove loc h.1) else .error .io t

theorem grows_removeAt (path : FilePath) (t : Disk) :
    Basis.wp (removeAt path) (fun _ t' => Grows t t' []) (fun _ t' => Grows t t' []) t := by
  unfold Basis.wp
  simp only [removeAt]
  cases t.locate path with
  | none => exact Grows.refl _
  | some loc =>
    by_cases h : loc ≠ [] ∧ (t.fileAt loc).isSome
    · simp only [dif_pos h]
      exact grows_remove h.1 _
    · simp only [dif_neg h]
      exact Grows.refl _

def shelf (order : List Str → List Str) : (o : DirOp) → EStateM Error Shelf o.Reply
  | .fs op => Listed.lift (disk op) (touched op) (grows_disk op)
  | .readDir path =>
    fun s => if ((s.tree.locate path).any s.tree.isDir) = true then .ok () s else .error .io s
  | .nextEntries path => fun s =>
    match s.tree.locate path with
    | none => .error .io s
    | some loc => .ok (order (s.children loc)) s
  | .removeFile path => Listed.lift (removeAt path) (fun _ => []) (grows_removeAt path)

def torn (order : List Str → List Str) : DirOp → Shelf → Shelf → Prop
  | .fs (.write path bytes) =>
    fun s s' => ∃ n, shelf order (.fs (.write path (bytes.take n))) s = .ok () s'
  | .fs (.append path bytes) =>
    fun s s' => ∃ n, shelf order (.fs (.append path (bytes.take n))) s = .ok () s'
  | _ => fun _ _ => False

def files {α : Type} (p : FileM α) : DirM α := Prog.embed DirOp.fs (fun _ a => a) p

def readDir (path : FilePath) : DirM Unit := Prog.perform (DirOp.readDir path)

def nextEntries (path : FilePath) : DirM (List Str) := Prog.perform (DirOp.nextEntries path)

def removeFile (path : FilePath) : DirM Unit := Prog.perform (DirOp.removeFile path)

/-! ## Names in a directory -/

def sortNames (names : List Str) : List Str := names.insertionSort fun a b => compare a b ≠ .gt

def decoded (suffix : Str) (entries : List Str) : List Str := entries.filterMap fun name =>
    (name.dropSuffix? suffix).map decode

def namesIn (dir : FilePath) (suffix : Str) : DirM (List Str) := do
  match ← (readDir dir).attempt with
  | .error _ => return []
  | .ok _ =>
    let entries ← nextEntries dir
    return sortNames (decoded suffix entries)

/-! ## Rules -/

section
variable {F : Prop} {order : List Str → List Str} {α : Type} {I : Shelf → Prop} {s : Shelf}
  {path dir : FilePath} {loc : List Str}

theorem views_shelf (order : List Str → List Str) :
    Prog.Views disk (shelf order) DirOp.fs (fun _ a => a) Listed.tree := by
  intro op s
  refine Listed.wp_lift (grows_disk op) (Q := fun a t' => disk op s.tree = .ok a t')
    (E := fun e t' => disk op s.tree = .error e t') ?_
  unfold Basis.wp
  cases hr : disk op s.tree with
  | ok a t' => rfl
  | error e t' => rfl

theorem during_files {J : Disk → Prop} {p : FileM α} {Q : α → Disk → Prop} {E : Error → Disk → Prop}
    (hp : Prog.during F disk J p Q E s.tree) :
    Prog.during F (shelf order) (fun s' => J s'.tree) (files p) (fun a s' => Q a s'.tree)
    (fun e s' => E e s'.tree) s :=
  Prog.during_embed (views_shelf order) hp

theorem ok_tree {op : FsOp} {a : op.Reply} {s' : Shelf} (h : shelf order (.fs op) s = .ok a s') :
    disk op s.tree = .ok a s'.tree :=
  (views_shelf order op s).ok h

theorem settle_eq_ok {t t' : Disk} {r : Option Disk} (h : settle t r = .ok () t') :
    r = some t' := by
  cases r with
  | none => cases h
  | some u =>
    cases h
    rfl

section
variable {J : Disk → Prop} {Q : Unit → Disk → Prop} {E : Error → Disk → Prop} {t t' : Disk}

theorem during_createDirAll (hJ : J t) (ht : t.makeDirs [] path = some t') (hE : F → ∀ e, E e t)
    (hQ : Q () t') :
    Prog.during F disk J (createDirAll path) Q E t :=
  ⟨hJ, wp_makeDirs.mpr (by rw [ht]; exact hQ), hE⟩

theorem during_write {bytes : Bytes} (hJ : J t)
    (ht : (t.locate path).bind (fun loc => t.writeFile loc bytes) = some t')
    (hE : F → ∀ e, E e t) (hQ : Q () t') : Prog.during F disk J (write path bytes) Q E t :=
  ⟨hJ, (wp_settle (r := some t') (congrArg (settle t) ht)).mpr hQ, hE⟩

theorem during_write_none {bytes : Bytes} (hJ : J t)
    (ht : (t.locate path).bind (fun loc => t.writeFile loc bytes) = none)
    (hE : ∀ e, e = .io ∨ F → E e t) :
    Prog.during F disk J (write path bytes) Q E t :=
  ⟨hJ, (wp_settle (r := none) (congrArg (settle t) ht)).mpr (hE _ (.inl rfl)),
    fun hf e => hE e (.inr hf)⟩

theorem during_rename_none {dst : FilePath} (hJ : J t)
    (ht : (t.locate path).bind (fun a => (t.locate dst).bind fun b => t.moveFile a b) = none)
    (hE : ∀ e, e = .io ∨ F → E e t) :
    Prog.during F disk J (rename path dst) Q E t :=
  ⟨hJ, (wp_settle (r := none) (congrArg (settle t) ht)).mpr (hE _ (.inl rfl)),
    fun hf e => hE e (.inr hf)⟩

theorem during_rename {dst : FilePath} (hJ : J t)
    (ht : (t.locate path).bind (fun a => (t.locate dst).bind fun b => t.moveFile a b) = some t')
    (hE : F → ∀ e, E e t) (hQ : Q () t') :
    Prog.during F disk J (rename path dst) Q E t :=
  ⟨hJ, (wp_settle (r := some t') (congrArg (settle t) ht)).mpr hQ, hE⟩

end

theorem during_readDir {Q : Unit → Shelf → Prop} {E : Error → Shelf → Prop} (hI : I s)
    (hloc : s.tree.locate dir = some loc)
    (hd : s.tree.isDir loc = true) (hQ : Q () s) (hE : F → ∀ e, E e s) :
    Prog.during F (shelf order) I (readDir dir) Q E s := by
  refine ⟨hI, ?_, hE⟩
  have hr : shelf order (.readDir dir) s = .ok () s := by simp [shelf, hloc, hd]
  rw [Basis.wp, hr]
  exact hQ

theorem during_nextEntries {Q : List Str → Shelf → Prop} {E : Error → Shelf → Prop} (hI : I s)
    (hloc : s.tree.locate dir = some loc)
    (hQ : Q (order (s.children loc)) s) (hE : F → ∀ e, E e s) : Prog.during F (shelf order) I
    (nextEntries dir) Q E s := by
  refine ⟨hI, ?_, hE⟩
  have hr : shelf order (.nextEntries dir) s = .ok (order (s.children loc)) s := by
    simp [shelf, hloc]
  rw [Basis.wp, hr]
  exact hQ

/-- The names of a directory that can be opened, unless it cannot be read. -/
theorem during_namesIn {Q : List Str → Shelf → Prop} {E : Error → Shelf → Prop}
    {suffix : Str} (hI : I s)
    (hloc : s.tree.locate dir = some loc) (hd : s.tree.isDir loc = true)
    (hQ : Q (sortNames (decoded suffix (order (s.children loc)))) s) (hnone : F → Q [] s)
    (hE : F → ∀ e, E e s) :
    Prog.during F (shelf order) I (namesIn dir suffix) Q E s := by
  unfold namesIn
  rw [Prog.during_bind, Prog.during_attempt]
  refine during_readDir hI hloc hd ?_ fun hf _ => hnone hf
  show Prog.during F (shelf order) I (nextEntries dir >>= _) Q E s
  rw [Prog.during_bind]
  exact during_nextEntries hI hloc hQ hE

theorem during_removeFile {J : Disk → Prop} {Q : Except Error Unit → Disk → Prop}
    {E : Error → Shelf → Prop} (hJ : J s.tree)
    (hloc : s.tree.locate path = some loc)
    (hgone : ∀ t' b, s.tree.fileAt loc = some b →
      (∀ l, t'.node l = if loc <+: l then none else s.tree.node l) → Q (.ok ()) t')
    (hnone : s.tree.fileAt loc = none → Q (.error .io) s.tree)
    (hfault : F → ∀ e, Q (.error e) s.tree) :
    Prog.during F (shelf order) (fun s' => J s'.tree) (removeFile path).attempt
    (fun r s' => Q r s'.tree) E s := by
  rw [Prog.during_attempt]
  refine ⟨hJ, Listed.wp_lift (grows_removeAt path) (Q := fun a t' => Q (.ok a) t')
    (E := fun e t' => Q (.error e) t') ?_, hfault⟩
  unfold Basis.wp
  simp only [removeAt, hloc]
  by_cases hb : (s.tree.fileAt loc).isSome
  · obtain ⟨b, hb⟩ := Option.isSome_iff_exists.mp hb
    have hne : loc ≠ [] := by
      rintro rfl
      rw [FileTree.fileAt_dir FileTree.isDir_nil] at hb
      cases hb
    rw [dif_pos ⟨hne, by rw [hb]; rfl⟩]
    exact hgone _ b hb fun l => FileTree.node_remove
  · rw [dif_neg fun h => hb h.2]
    exact hnone (by simpa using hb)

end

end Crabtalk.Backend

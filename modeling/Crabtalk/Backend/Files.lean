import Crabtalk.Backend.Names
import Crabtalk.Basis.Effect
import Crabtalk.Basis.Terminated

/-!
# A store over a directory

Paths are below the directory the backend is rooted at. The programs are the
helpers every interface is written with: a document that is replaced through a
temporary file, and a file of JSON lines that is appended to.
-/

open Basis

namespace Crabtalk.Backend

open Store

inductive FsOp
  | read (path : FilePath)
  | write (path : FilePath) (bytes : Bytes)
  | append (path : FilePath) (bytes : Bytes)
  | createDirAll (path : FilePath)
  | rename (src dst : FilePath)
  | removeDirAll (path : FilePath)

def FsOp.Reply : FsOp → Type
  | .read _ => Bytes
  | .write _ _ => Unit
  | .append _ _ => Unit
  | .createDirAll _ => Unit
  | .rename _ _ => Unit
  | .removeDirAll _ => Unit

abbrev Disk := FileTree Str Bytes

abbrev FileM := Prog FsOp FsOp.Reply Error

def settle (t : Disk) : Option Disk → EStateM.Result Error Disk Unit
  | some t' => .ok () t'
  | none => .error .io t

/-- A directory is removed by its name. By `.` or `..` only what it holds is. -/
def endsInName (path : FilePath) : Bool :=
  match path.getLast? with
  | some (.normal _) => true
  | _ => false

def removeAll (path : FilePath) (loc : List Str) (t : Disk) : EStateM.Result Error Disk Unit :=
  if t.isDir loc then
    if h : loc ≠ [] ∧ endsInName path = true then .ok () (t.remove loc h.1)
      else .error .io (t.clear loc)
  else .error .io t

def admitted (path : FilePath) : FilePath := path.takeWhile fun c => c.name?.all NameLimit.fits

/-- What `create_dir_all` leaves where it fails: it makes the directories above a name that is refused. -/
def leftDirs (path : FilePath) (t : Disk) : Disk := (t.makeDirs [] (admitted path)).getD t

def disk : (o : FsOp) → EStateM Error Disk o.Reply
  | .read path => fun t =>
    match (t.locate path).bind t.fileAt with
    | some bytes => .ok bytes t
    | none => .error .io t
  | .write path bytes => fun t => settle t ((t.locate path).bind fun loc => t.writeFile loc bytes)
  | .append path bytes =>
    fun t => settle t ((t.locate path).bind fun loc =>
      t.writeFile loc ((t.fileAt loc).getD [] ++ bytes))
  | .createDirAll path => fun t =>
    match t.makeDirs [] path with
    | some t' => .ok () t'
    | none => .error .io (leftDirs path t)
  | .rename src dst => fun t => settle t ((t.locate src).bind fun a => (t.locate dst).bind fun b =>
      t.moveFile a b)
  | .removeDirAll path => fun t =>
    match t.locate path with
    | some loc => removeAll path loc t
    | none => .error .io t

def read (path : FilePath) : FileM Bytes := Prog.perform (FsOp.read path)

def write (path : FilePath) (bytes : Bytes) : FileM Unit := Prog.perform (FsOp.write path bytes)

def append (path : FilePath) (bytes : Bytes) : FileM Unit := Prog.perform (FsOp.append path bytes)

def createDirAll (path : FilePath) : FileM Unit := Prog.perform (FsOp.createDirAll path)

def rename (src dst : FilePath) : FileM Unit := Prog.perform (FsOp.rename src dst)

def removeDirAll (path : FilePath) : FileM Unit := Prog.perform (FsOp.removeDirAll path)

/-! ## Paths -/

def parent (path : FilePath) : FilePath := path.dropLast

def fileStem (name : Str) : Str :=
  match name.reverse.dropWhile (· ≠ '.') with
  | _ :: c :: rest => (c :: rest).reverse
  | _ => name

def withExtension (path : FilePath) (ext : Str) : FilePath :=
  match path.getLast? with
  | some (.normal name) => path.dropLast ++ [.normal (fileStem name ++ '.' :: ext)]
  | _ => path

theorem withExtension_concat (dir : FilePath) (name ext : Str) :
    withExtension (dir ++ [.normal name]) ext = dir ++ [.normal (fileStem name ++ '.' :: ext)] := by
  simp [withExtension]

theorem parent_concat (dir : FilePath) (c : Component Str) : parent (dir ++ [c]) = dir :=
  List.dropLast_concat

/-! ## Documents -/

section
variable {α : Type}

def readJson (decode : Bytes → Option α) (path : FilePath) : FileM (Option α) := do
  match ← (read path).attempt with
  | .error _ => return none
  | .ok bytes =>
    match decode bytes with
    | some value => return some value
    | none => .fail .decode

def replace (path : FilePath) (bytes : Bytes) : FileM Unit := do
  createDirAll (parent path)
  let tmp := withExtension path "tmp".toList
  write tmp bytes
  rename tmp path

def writeJson (json : α → Bytes) (path : FilePath) (value : α) : FileM Unit :=
  replace path (json value)

/-! ## Lines -/

def newline : UInt8 := 10

def lines (json : α → Bytes) (values : List α) : Bytes := terminated newline (values.map json)

def appendJson (json : α → Bytes) (path : FilePath) (values : List α) : FileM Unit := do
  if values.isEmpty then pure ()
  else
    createDirAll (parent path)
    append path (lines json values)

def parseLines (decode : Bytes → Option α) (bytes : Bytes) : List α :=
  (bytes.splitOnP (· = newline)).filterMap fun line => if line.isEmpty then none else decode line

def readLines (decode : Bytes → Option α) (path : FilePath) : FileM (List α) := do
  match ← (read path).attempt with
  | .error _ => return []
  | .ok bytes => return parseLines decode bytes

def writeLines (json : α → Bytes) (path : FilePath) (values : List α) : FileM Unit :=
  replace path (lines json values)

end

/-! ## What each operation does -/

section
variable {F : Prop} {E : Error → Disk → Prop} {t : Disk} {path src dst : FilePath} {bytes : Bytes}

def settled (Q : Unit → Disk → Prop) (E : Error → Disk → Prop) (t : Disk) : Option Disk → Prop
  | some t' => Q () t'
  | none => E .io t

theorem settled_of {r : Option Disk} {P : Disk → Prop} (ht : P t) (h : ∀ t', r = some t' → P t') :
    settled (fun _ => P) (fun _ => P) t r := by
  cases r with
  | none => exact ht
  | some t' => exact h t' rfl

theorem wp_settle {m : EStateM Error Disk Unit} {r : Option Disk} {Q : Unit → Disk → Prop}
    (hm : m t = settle t r) :
    Basis.wp m Q E t ↔ settled Q E t r := by
  unfold Basis.wp
  cases r with
  | none =>
    rw [show m t = .error .io t from hm]
    rfl
  | some t' =>
    rw [show m t = .ok () t' from hm]
    rfl

theorem wp_write {Q : Unit → Disk → Prop} : Prog.wp F disk (write path bytes) Q E t ↔
    settled Q E t ((t.locate path).bind fun loc => t.writeFile loc bytes) ∧ (F → ∀ e, E e t) :=
  Prog.wp_perform.trans (and_congr_left fun _ => wp_settle rfl)

theorem wp_append {Q : Unit → Disk → Prop} : Prog.wp F disk (append path bytes) Q E t ↔
    settled Q E t ((t.locate path).bind fun loc =>
      t.writeFile loc ((t.fileAt loc).getD [] ++ bytes)) ∧ (F → ∀ e, E e t) :=
  Prog.wp_perform.trans (and_congr_left fun _ => wp_settle rfl)

theorem wp_makeDirs {Q : Unit → Disk → Prop} :
    Basis.wp (disk (.createDirAll path)) Q E t ↔
    settled Q E (leftDirs path t) (t.makeDirs [] path) := by
  unfold Basis.wp
  simp only [disk]
  cases t.makeDirs [] path with
  | none => rfl
  | some t' => rfl

theorem wp_createDirAll {Q : Unit → Disk → Prop} : Prog.wp F disk (createDirAll path) Q E t ↔
    settled Q E (leftDirs path t) (t.makeDirs [] path) ∧ (F → ∀ e, E e t) :=
  Prog.wp_perform.trans (and_congr_left fun _ => wp_makeDirs)

theorem fileAt_leftDirs (l : List Str) : (leftDirs path t).fileAt l = t.fileAt l := by
  unfold leftDirs
  cases h : t.makeDirs [] (admitted path) with
  | none => rfl
  | some t' => exact FileTree.fileAt_makeDirs h

/-- Whether or not all are made, the files are as they were. -/
theorem settled_makeDirs {P : Disk → Prop}
    (h : ∀ t' : Disk, (∀ l, t'.fileAt l = t.fileAt l) → P t') :
    settled (fun _ => P) (fun _ => P) (leftDirs path t) (t.makeDirs [] path) := by
  cases hmade : t.makeDirs [] path with
  | none => exact h _ fileAt_leftDirs
  | some t' => exact h t' fun _ => FileTree.fileAt_makeDirs hmade

theorem wp_rename {Q : Unit → Disk → Prop} : Prog.wp F disk (rename src dst) Q E t ↔
    settled Q E t ((t.locate src).bind fun a => (t.locate dst).bind fun b => t.moveFile a b) ∧
    (F → ∀ e, E e t) :=
  Prog.wp_perform.trans (and_congr_left fun _ => wp_settle rfl)

/-! ## A document in its place -/

def tmpName (name : Str) : Str := fileStem name ++ ".tmp".toList

theorem fileStem_prefix (name : Str) : fileStem name <+: name := by
  unfold fileStem
  split
  · rename_i c c' rest h
    have hsuffix : c' :: rest <:+ name.reverse :=
      (List.suffix_cons c (c' :: rest)).trans (h ▸ List.dropWhile_suffix _)
    simpa using List.reverse_prefix.mpr hsuffix
  · exact List.prefix_refl _

theorem length_tmpName (name : Str) : (utf8 (tmpName name)).length ≤ (utf8 name).length + 4 := by
  obtain ⟨rest, hrest⟩ := fileStem_prefix name
  have hlen : (utf8 (fileStem name)).length ≤ (utf8 name).length := by
    have hcut := congrArg (fun s => (utf8 s).length) hrest
    simp only [utf8_append, List.length_append] at hcut
    omega
  rw [tmpName, utf8_append, List.length_append]
  exact Nat.add_le_add_right hlen 4

variable {t₁ : Disk} {dir : FilePath} {d : List Str} {name : Str}

theorem locate_concat (hdir : t.locate dir = some d) (hd : t.isDir d = true) (name : Str) :
    t.locate (dir ++ [.normal name]) = some (d ++ [name]) := by
  show t.walk [] (dir ++ [.normal name]) = _
  rw [FileTree.walk_append, show t.walk [] dir = some d from hdir, Option.bind_some,
    FileTree.walk_cons, if_pos hd]
  rfl

/-- A document is replaced unless a directory is in the way. -/
theorem wp_replace {Q : Unit → Disk → Prop} (hdirs : t.makeDirs [] dir = some t₁)
    (hd : dir.foldl Component.enter [] = d)
    (hname : NameLimit.fits name = true) (htmp : NameLimit.fits (tmpName name) = true)
    (hQ : t₁.isDir (d ++ [tmpName name]) = false → t₁.isDir (d ++ [name]) = false → ∀ t',
      (∀ l, t'.fileAt l = if l = d ++ [name] then some bytes else if l = d ++ [tmpName name]
        then none else t.fileAt l) →
      (∀ l, t'.isDir l = t₁.isDir l) → Q () t')
    (hE : t₁.isDir (d ++ [tmpName name]) = true ∨ t₁.isDir (d ++ [name]) = true → ∀ t', E .io t') :
    Prog.wp False disk (replace (dir ++ [.normal name]) bytes) Q E t := by
  obtain ⟨hloc, hdir⟩ := FileTree.walk_makeDirs hdirs FileTree.isDir_nil
  rw [hd] at hloc hdir
  have hup : ∀ n, t₁.isDir (d ++ [n]).dropLast = true := fun n => by rw [List.dropLast_concat, hdir]
  unfold replace
  rw [parent_concat, withExtension_concat, Prog.wp_bind, wp_createDirAll, hdirs]
  refine ⟨?_, False.elim⟩
  show Prog.wp False disk _ Q E t₁
  rw [Prog.wp_bind, wp_write, locate_concat hloc hdir]
  refine ⟨?_, False.elim⟩
  show settled _ E t₁ (t₁.writeFile (d ++ [tmpName name]) bytes)
  -- a directory under the temporary name fails the write
  cases hfree : t₁.isDir (d ++ [tmpName name]) with
  | true =>
    have hnone : t₁.writeFile (d ++ [tmpName name]) bytes = none := by
      simp [FileTree.writeFile, hfree]
    rw [hnone]
    exact hE (.inl hfree) t₁
  | false =>
    obtain ⟨t₂, h₂⟩ := FileTree.writeFile_some (by simp) (hup _) hfree
        (FileTree.lastFits_concat.trans htmp) bytes
    rw [h₂]
    show Prog.wp False disk (rename _ _) Q E t₂
    have hdir₂ : t₂.isDir d = true := by rw [FileTree.isDir_writeFile h₂, hdir]
    have hloc₂ : t₂.locate dir = some d :=
      (FileTree.walk_congr fun l => FileTree.isDir_writeFile h₂).trans hloc
    rw [wp_rename, show fileStem name ++ '.' :: "tmp".toList = tmpName name from rfl,
      locate_concat hloc₂ hdir₂,
      locate_concat hloc₂ hdir₂]
    refine ⟨?_, False.elim⟩
    show settled Q E t₂ (t₂.moveFile (d ++ [tmpName name]) (d ++ [name]))
    have hsrc : t₂.fileAt (d ++ [tmpName name]) = some bytes := by
      rw [FileTree.fileAt_writeFile h₂, if_pos rfl]
    cases hdst : t₁.isDir (d ++ [name]) with
    | true =>
      have hnone : t₂.moveFile (d ++ [tmpName name]) (d ++ [name]) = none := by
        cases hm : t₂.moveFile (d ++ [tmpName name]) (d ++ [name]) with
        | none => rfl
        | some t₃ =>
          obtain ⟨-, -, hfree, -⟩ := FileTree.moveFile_node hm
          rw [FileTree.isDir_writeFile h₂, hdst] at hfree
          cases hfree
      rw [hnone]
      exact hE (.inr hdst) t₂
    | false =>
      have hup₂ : t₂.isDir (d ++ [name]).dropLast = true := by rw [FileTree.isDir_writeFile h₂, hup]
      obtain ⟨t₃, h₃⟩ := FileTree.moveFile_some hsrc
          (List.append_ne_nil_of_right_ne_nil d (List.cons_ne_nil name [])) hup₂
        (by rw [FileTree.isDir_writeFile h₂, hdst]) (FileTree.lastFits_concat.trans hname)
      rw [h₃]
      refine hQ hfree hdst t₃ (fun l => ?_) fun l => by
        rw [FileTree.isDir_moveFile h₃, FileTree.isDir_writeFile h₂]
      rw [FileTree.fileAt_moveFile h₃, hsrc]
      by_cases hl : l = d ++ [name]
      · rw [if_pos hl, if_pos hl]
      · rw [if_neg hl, if_neg hl]
        by_cases hl' : l = d ++ [tmpName name]
        · rw [if_pos hl', if_pos hl']
        · rw [if_neg hl', if_neg hl', FileTree.fileAt_writeFile h₂, if_neg hl',
            FileTree.fileAt_makeDirs hdirs]

end

end Crabtalk.Backend

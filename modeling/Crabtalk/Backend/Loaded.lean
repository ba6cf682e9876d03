import Crabtalk.Backend.Sessions

/-! # What a session is on disk -/

open Basis

namespace Crabtalk.Backend

open Store

def fileOf (t : Disk) (handle name : Str) : Option Bytes :=
  (t.locate (sessionDir handle ++ [.normal name])).bind t.fileAt

def spot (handle : Str) : List Str := (sessionDir handle).foldl Component.enter []

def Opens (t : Disk) (handle : Str) : Prop := t.locate (sessionDir handle) = some (spot handle) ∧
    t.isDir (spot handle) = true

section
variable {t t' : Disk} {h : Str}

theorem Opens.fileOf (ho : Opens t h) (name : Str) :
    fileOf t h name = t.fileAt (spot h ++ [name]) := by
  rw [Backend.fileOf, locate_concat ho.1 ho.2, Option.bind_some]

theorem opens_of_file {name : Str} (hf : fileOf t h name ≠ none) : Opens t h := by
  unfold Backend.fileOf at hf
  have hwalk : t.locate (sessionDir h ++ [.normal name]) = (t.locate (sessionDir h)).bind fun l =>
      t.walk l [.normal name] :=
    FileTree.walk_append
  cases hl : t.locate (sessionDir h) with
  | none =>
    rw [hwalk, hl] at hf
    exact absurd rfl hf
  | some l =>
    have hspot : l = spot h := FileTree.walk_eq hl
    subst hspot
    refine ⟨hl, ?_⟩
    by_contra hd
    rw [hwalk, hl, Option.bind_some, FileTree.walk_cons, if_neg hd] at hf
    exact hf rfl

theorem Opens.mono (ho : Opens t h) (hd : ∀ l, t.isDir l = true → t'.isDir l = true) : Opens t' h :=
  ⟨FileTree.walk_mono hd ho.1, hd _ ho.2⟩

theorem Opens.makeDirs (ho : Opens t h) : t.makeDirs [] (sessionDir h) = some t :=
  FileTree.makeDirs_opened ho.1 ho.2

end

section
variable {μ : Type} [FileStd μ] {t t' : Disk} {h g : Str}

def loaded (μ : Type) [FileStd μ] (t : Disk) (handle : Str) :
    Except Error (Option (SessionSnapshot μ)) :=
  match Prog.interp disk (loadSession (μ := μ) handle) t with
  | .ok r _ => .ok r
  | .error e _ => .error e

theorem sees_read (path : FilePath) (t : Disk) :
    Prog.Sees disk (read path) t (((t.locate path).bind t.fileAt).elim (.error .io) .ok) := by
  cases hf : (t.locate path).bind t.fileAt with
  | none => exact .perform_error (by simp [disk, hf])
  | some bytes => exact .perform (by simp [disk, hf])

theorem sees_readJson {α : Type} (decode : Bytes → Option α) (path : FilePath) (t : Disk) :
    Prog.Sees disk (readJson decode path) t
      (((t.locate path).bind t.fileAt).elim (.ok none) fun bytes =>
        (decode bytes).elim (.error Error.decode) fun v => .ok (some v)) := by
  have hread := (sees_read path t).attempt
  cases hf : (t.locate path).bind t.fileAt with
  | none =>
    rw [hf] at hread
    exact hread.next (.pure none t)
  | some bytes =>
    rw [hf] at hread
    refine hread.next ?_
    dsimp only [Option.elim]
    cases decode bytes with
    | none => exact .fail Error.decode t
    | some value => exact .pure (some value) t

theorem sees_readLines {α : Type} (decode : Bytes → Option α) (path : FilePath) (t : Disk) :
    Prog.Sees disk (readLines decode path) t
    (.ok (((t.locate path).bind t.fileAt).elim [] (parseLines decode))) := by
  have hread := (sees_read path t).attempt
  cases hf : (t.locate path).bind t.fileAt with
  | none =>
    rw [hf] at hread
    exact hread.next (.pure [] t)
  | some bytes =>
    rw [hf] at hread
    exact hread.next (.pure _ t)

def snapshot (μ : Type) [FileStd μ] (files : Str → Option Bytes) :
    Except Error (Option (SessionSnapshot μ)) :=
  (files "meta.json".toList).elim (.ok none) fun bytes =>
    (FileStd.readMeta μ bytes).elim (.error .decode) fun m =>
      .ok (some ⟨m, (files "messages.jsonl".toList).elim [] (parseLines FileStd.readEntry),
        (files "archive".toList).bind fun bytes => (fromUtf8 bytes).map (trim (μ := μ))⟩)

theorem sees_loadSession (h : Str) (t : Disk) :
    Prog.Sees disk (loadSession (μ := μ) h) t (snapshot μ (fileOf t h)) := by
  have hmeta := sees_readJson (FileStd.readMeta μ) (metaPath h) t
  unfold snapshot
  cases hf : fileOf t h "meta.json".toList with
  | none =>
    rw [show (t.locate (metaPath h)).bind t.fileAt = none from hf] at hmeta
    exact hmeta.next (.pure none t)
  | some bytes =>
    rw [show (t.locate (metaPath h)).bind t.fileAt = some bytes from hf] at hmeta
    dsimp only [Option.elim] at hmeta ⊢
    cases hm : FileStd.readMeta μ bytes with
    | none =>
      rw [hm] at hmeta
      exact hmeta.stop
    | some m =>
      rw [hm] at hmeta
      refine hmeta.next ((sees_readLines _ _ t).next ?_)
      have hread := (sees_read (archivePath h) t).attempt
      cases ha : fileOf t h "archive".toList with
      | none =>
        rw [show (t.locate (archivePath h)).bind t.fileAt = none from ha] at hread
        exact hread.next (.pure _ t)
      | some bytes =>
        rw [show (t.locate (archivePath h)).bind t.fileAt = some bytes from ha] at hread
        exact hread.next (.pure _ t)

theorem loaded_eq (t : Disk) (h : Str) : loaded μ t h = snapshot μ (fileOf t h) := by
  unfold loaded
  rw [sees_loadSession]
  cases snapshot μ (fileOf t h) with
  | ok r => rfl
  | error e => rfl

theorem loaded_congr (hf : ∀ name, fileOf t' h name = fileOf t h name) :
    loaded μ t' h = loaded μ t h := by
  rw [loaded_eq, loaded_eq, snapshot, snapshot, hf, hf, hf]

end

end Crabtalk.Backend

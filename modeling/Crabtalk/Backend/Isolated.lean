import Crabtalk.Backend.Loaded
import Crabtalk.Backend.Plain
import Crabtalk.Backend.Work

/-!
# Sessions beside each other

Every operation of a session stays in its directory. Whether that is a
directory of its own depends on the handle: three of them are encoded to names
that are places in every directory.
-/

open Basis

namespace Crabtalk.Backend

open Store

/-! ## Where an operation works -/

/-- What the operation may change lies in the directory. -/
def FsOp.In (dir : FilePath) : FsOp → Prop
  | .read _ => True
  | .write path _ => ∃ name, path = dir ++ [.normal name]
  | .append path _ => ∃ name, path = dir ++ [.normal name]
  | .createDirAll path => path = dir
  | .rename src dst => (∃ name, src = dir ++ [.normal name]) ∧ ∃ name, dst = dir ++ [.normal name]
  | .removeDirAll path => path = dir

theorem FsOp.Of.in_dir {μ : Type} [FileStd μ] {dir : FilePath} {o : FsOp} (ho : o.Of μ dir) : o.In dir := by
  cases ho with
  | read path => exact trivial
  | createDir => exact rfl
  | writeMeta m => exact ⟨_, rfl⟩
  | moveMeta => exact ⟨⟨_, rfl⟩, _, rfl⟩
  | writeLog log => exact ⟨_, rfl⟩
  | moveLog => exact ⟨⟨_, rfl⟩, _, rfl⟩
  | append entries => exact ⟨_, rfl⟩
  | events events => exact ⟨_, rfl⟩
  | archive archive => exact ⟨_, rfl⟩
  | delete => exact rfl

/-! ## What it leaves alone -/

section
variable {names l : List Str} {t t' : Disk}

theorem foldl_enter_names (loc : List Str) :
    (names.map Component.normal).foldl Component.enter loc = loc ++ names := by
  induction names generalizing loc with
  | nil => simp
  | cons name names ih => simp [Component.enter, ih]

theorem locate_in {name : Str} {loc : List Str}
    (h : t.locate (names.map .normal ++ [.normal name]) = some loc) : loc = names ++ [name] := by
  rw [FileTree.walk_eq h, List.foldl_append, foldl_enter_names]
  rfl

def Below (dir l : List Str) : Prop := dir <+: l ∧ l ≠ dir

theorem below_concat (dir : List Str) (name : Str) : Below dir (dir ++ [name]) :=
  ⟨List.prefix_append _ _, by simp⟩

/-- An operation in a directory keeps every file that is not below it. -/
theorem In.keeps {o : FsOp} (ho : o.In (names.map .normal)) (hl : ¬ Below names l)
    {b : Option Bytes} (ht : t.fileAt l = b) :
    Basis.wp (disk o) (fun _ t' => t'.fileAt l = b) (fun _ t' => t'.fileAt l = b) t := by
  have hwrite : ∀ (path : FilePath) (bytes : Disk → List Str → Bytes),
      (∃ name, path = names.map .normal ++ [.normal name]) →
      ∀ t', ((t.locate path).bind fun loc => t.writeFile loc (bytes t loc)) = some t' →
      t'.fileAt l = b := by
    intro path bytes ⟨name, hpath⟩ t' h
    subst hpath
    obtain ⟨loc, hloc, hw⟩ := Option.bind_eq_some_iff.mp h
    rw [FileTree.fileAt_writeFile hw, if_neg, ht]
    intro he
    exact hl (he ▸ locate_in hloc ▸ below_concat names name)
  -- A path in the session's directory leads below it, whatever is done there.
  cases o with
  | read path =>
    unfold Basis.wp disk
    dsimp only
    cases (t.locate path).bind t.fileAt with
    | none => exact ht
    | some bytes => exact ht
  | write path bytes =>
    exact (wp_settle rfl).mpr (settled_of ht (hwrite path (fun _ _ => bytes) ho))
  | append path bytes =>
    exact (wp_settle rfl).mpr (settled_of ht
      (hwrite path (fun t loc => (t.fileAt loc).getD [] ++ bytes) ho))
  | createDirAll path => exact wp_makeDirs.mpr (settled_makeDirs fun t' hfile => (hfile l).trans ht)
  | rename src dst =>
    obtain ⟨⟨a, rfl⟩, b', rfl⟩ := ho
    refine (wp_settle rfl).mpr (settled_of ht fun t' h => ?_)
    obtain ⟨x, hx, h⟩ := Option.bind_eq_some_iff.mp h
    obtain ⟨y, hy, h⟩ := Option.bind_eq_some_iff.mp h
    rw [FileTree.fileAt_moveFile h, if_neg, if_neg, ht]
    · intro he
      exact hl (he ▸ locate_in hx ▸ below_concat names a)
    · intro he
      exact hl (he ▸ locate_in hy ▸ below_concat names b')
  | removeDirAll path =>
    unfold Basis.wp disk
    dsimp only
    cases hloc : t.locate path with
    | none => exact ht
    | some loc =>
      have hnames : loc = names := by
        rw [FileTree.walk_eq hloc, show path = names.map .normal from ho, foldl_enter_names]
        rfl
      subst hnames
      dsimp only
      unfold removeAll
      by_cases hd : t.isDir loc = true
      · rw [if_pos hd]
        by_cases h : loc ≠ [] ∧ endsInName path = true
        · rw [dif_pos h]
          dsimp only
          by_cases hp : loc <+: l
          · have heq : l = loc := by
              by_contra hne
              exact hl ⟨hp, hne⟩
            rw [FileTree.fileAt, FileTree.node_remove, if_pos hp, ← ht, heq, FileTree.fileAt_dir hd]
          · rw [FileTree.fileAt, FileTree.node_remove, if_neg hp]
            exact ht
        · rw [dif_neg h]
          dsimp only
          rw [FileTree.fileAt, FileTree.node_clear, if_neg (show ¬ (loc <+: l ∧ l ≠ loc) from hl)]
          exact ht
      · rw [if_neg hd]
        exact ht

end

/-! ## Two handles -/

def parentName : Str := ['.', '.']

def place (handle : Str) : List Str := "sessions".toList :: if Special handle then []
    else [encode handle]

theorem sessionDir_normal {h : Str} (hh : ¬ Special h) :
    sessionDir h = ["sessions".toList, encode h].map .normal := by
  rw [sessionDir, components_of_not_special fun he => hh (special_encode he)]
  rfl

theorem fileOf_place {t : Disk} {g : Str} (hg : g ≠ parentName) (name : Str) :
    fileOf t g name = t.fileAt (place g ++ [name]) := by
  unfold fileOf place
  by_cases hs : Special g
  · rw [if_pos hs]
    rcases hs with rfl | rfl | rfl
    · exact FileTree.locate_file ["sessions".toList, name]
    · have hfile := FileTree.locate_file (t := t) ["sessions".toList, name]
      -- the walk stops at the directory once more
      have hwalk : t.locate (sessionDir ['.'] ++ [.normal name]) =
          t.locate (["sessions".toList, name].map .normal) := by
        show (if t.isDir [] then if t.isDir ["sessions".toList] then if t.isDir ["sessions".toList]
            then _ else none else none else none) =
          if t.isDir [] then if t.isDir ["sessions".toList] then _ else none else none
        split
        · split
          · rfl
          · rfl
        · rfl
      rw [hwalk, hfile]
      rfl
    · exact absurd rfl hg
  · rw [if_neg hs, sessionDir_normal hs]
    exact FileTree.locate_file ["sessions".toList, encode g, name]

/-- The files of another session are not below the directory of this one. -/
theorem not_below_place {h g : Str} (hne : h ≠ g) (name : Str) :
    ¬ Below ["sessions".toList, encode h] (place g ++ [name]) := by
  intro ⟨hp, hproper⟩
  unfold place at hp hproper
  by_cases hs : Special g
  · rw [if_pos hs] at hp hproper
    exact hproper (hp.eq_of_length rfl).symm
  · rw [if_neg hs] at hp
    have henc : encode h = encode g := by simpa using List.prefix_iff_eq_take.mp hp
    exact hne (encode_inj henc)

section
variable {μ : Type} [FileStd μ] {F : Prop} {h g : Str} {t t' : Disk}

/-- Any run of an act on one session leaves the files of the other. -/
theorem runs_apart (hh : ¬ Special h) (hg : g ≠ parentName) (hne : h ≠ g) {act : FileAct μ}
    {r : Except Error Unit}
    (hr : Prog.Runs F disk (act.exec h) t r t') (name : Str) : fileOf t' g name = fileOf t g name := by
  have hworks := works_exec h act
  rw [sessionDir_normal hh] at hworks
  have hwp : Prog.wp F disk (act.exec h) (fun _ t' => t'.fileAt (place g ++ [name]) =
      t.fileAt (place g ++ [name]))
      (fun _ t' => t'.fileAt (place g ++ [name]) = t.fileAt (place g ++ [name])) t :=
    hworks.wp (fun o ho s hs => In.keeps ho.in_dir (not_below_place hne name) hs) rfl
  rw [fileOf_place hg, fileOf_place hg]
  have hends := hwp.runs hr
  cases r with
  | ok a => exact hends
  | error e => exact hends

end

/-! ## Runs of a store -/

/-- No act on the one session is seen by the other. -/
def Spares (μ : Type) [FileStd μ] (F : Prop) (h g : Str) : Prop :=
  ∀ t, Reached μ F t → ∀ (act : FileAct μ) r t', Prog.Runs F disk (act.exec h) t r t' →
    (∀ name, fileOf t' g name = fileOf t g name) ∧ loaded μ t' g = loaded μ t g

structure Bare (dirs : List String) (t : Disk) : Prop where
  files : ∀ l, t.fileAt l = none
  dirs : ∀ l, t.isDir l = true ↔ l = [] ∨ ∃ dir ∈ dirs, l = [dir.toList]

theorem wp_open (rest : List String) (hrest : ∀ dir ∈ rest, NameLimit.fits dir.toList = true)
    {t : Disk} {dirs : List String}
    (ht : Bare dirs t) :
    Prog.wp False disk (forM rest fun dir => createDirAll [.normal dir.toList])
    (fun _ => Bare (dirs ++ rest)) (fun _ _ => False) t := by
  induction rest generalizing t dirs with
  | nil =>
    rw [List.append_nil]
    exact ht
  | cons dir rest ih =>
    have hname : ∀ name, .normal name ∈ ([.normal dir.toList] : FilePath) →
        NameLimit.fits name = true := by
      intro name hn
      cases List.mem_singleton.mp hn
      exact hrest dir List.mem_cons_self
    obtain ⟨t', ht'⟩ : ∃ t', t.makeDirs [] [.normal dir.toList] = some t' :=
      FileTree.makeDirs_some FileTree.isDir_nil hname fun p _ => ht.files _
    rw [List.forM_cons, Prog.wp_bind, wp_createDirAll, ht']
    refine ⟨?_, False.elim⟩
    rw [List.append_cons]
    refine ih (fun d hd => hrest d (List.mem_cons_of_mem dir hd))
      ⟨fun l => by rw [FileTree.fileAt_makeDirs ht', ht.files], fun l => ?_⟩
    obtain ⟨u, hu, hmade⟩ := Option.bind_eq_some_iff.mp ht'
    cases hmade
    rw [FileTree.isDir_makeDir hu, Bool.or_eq_true, decide_eq_true_eq, ht.dirs]
    constructor
    · intro hl
      rcases hl with rfl | rfl | ⟨d, hd, rfl⟩
      · exact .inr ⟨dir, by simp, rfl⟩
      · exact .inl rfl
      · exact .inr ⟨d, List.mem_append_left _ hd, rfl⟩
    · intro hl
      rcases hl with rfl | ⟨d, hd, rfl⟩
      · exact .inr (.inl rfl)
      · rcases List.mem_append.mp hd with hd | hd
        · exact .inr (.inr ⟨d, hd, rfl⟩)
        · rw [List.mem_singleton.mp hd]
          exact .inl rfl

def storeDirs : List String := ["agents", "sessions", "memory", "skills", "harnesses"]

theorem fits_storeDirs : ∀ dir ∈ storeDirs, NameLimit.fits dir.toList = true := by decide

theorem open_bare (F : Prop) : ∃ t, Prog.Runs F disk openStore emptyDisk (.ok ()) t ∧
    Bare storeDirs t := by
  have hempty : Bare [] emptyDisk := by
    refine ⟨fun l => ?_, fun l => ?_⟩
    · unfold FileTree.fileAt emptyDisk
      by_cases hl : l = []
      · simp [hl]
      · simp [hl]
    · unfold FileTree.isDir emptyDisk
      by_cases hl : l = []
      · simp [hl]
      · simp [hl]
  obtain ⟨_, t, hr, ht⟩ := (wp_open storeDirs fits_storeDirs hempty).run F
  exact ⟨t, hr, ht⟩

/-! ## Handles that are not apart -/

theorem spot_eq {h : Str} (hh : h ≠ parentName) : spot h = place h := by
  unfold spot place
  by_cases hs : Special h
  · rw [if_pos hs]
    rcases hs with rfl | rfl | rfl
    · rfl
    · rfl
    · exact absurd rfl hh
  · rw [if_neg hs, sessionDir_normal hs, foldl_enter_names, List.nil_append]

theorem length_components (name : Str) : (components name).length ≤ 1 := by
  unfold components
  split
  · exact Nat.zero_le 1
  · exact Nat.le_refl 1
  · exact Nat.le_refl 1
  · exact Nat.le_refl 1

theorem spot_of_prefix {h : Str} {p : FilePath} (hp : p <+: sessionDir h) :
    p.foldl Component.enter [] = [] ∨ p.foldl Component.enter [] = ["sessions".toList] ∨
    p.foldl Component.enter [] = spot h := by
  cases p with
  | nil => exact .inl rfl
  | cons c p =>
    have hcons : c :: p <+: .normal "sessions".toList :: components (encode h) := hp
    obtain ⟨rfl, hp'⟩ := List.cons_prefix_cons.mp hcons
    cases p with
    | nil => exact .inr (.inl rfl)
    | cons c' p =>
      have hlen := length_components (encode h)
      have hle := hp'.length_le
      rw [List.length_cons] at hle
      have heq : c' :: p = components (encode h) :=
        hp'.eq_of_length (by rw [List.length_cons]; omega)
      rw [heq]
      exact .inr (.inr rfl)

section
variable {μ : Type} [FileStd μ] {h g : Str} {t : Disk}

theorem fits_sessionDir (hg : storable g = true) (name : Str)
    (hname : .normal name ∈ sessionDir g) : NameLimit.fits name = true := by
  rcases List.mem_cons.mp hname with hs | hc
  · cases hs
    decide
  · exact fits_components hg hc

theorem wp_createSession (agent : AgentId) (createdBy : Str) (root : Option Str) (now : Str)
    (hg : storable g = true) (hfree : t.fileAt ["sessions".toList] = none)
    (hspot : t.fileAt (spot g) = none)
    (hdir : ∀ name, name = "meta.tmp".toList ∨ name = "meta.json".toList →
      t.isDir (spot g ++ [name]) = false) :
    Prog.wp False disk (createSession (μ := μ) g agent createdBy root now)
      (fun _ t' => (∀ l, t'.fileAt l =
        if l = spot g ++ ["meta.json".toList]
        then some (FileStd.metaJson μ ⟨agent, createdBy, now, [], now, 0, none, root⟩)
        else if l = spot g ++ ["meta.tmp".toList] then none else t.fileAt l) ∧
          (∀ l, t.isDir l = true → t'.isDir l = true) ∧
        ∀ name, name ≠ "sessions".toList → t.isDir (spot g ++ [name]) = false →
          t'.isDir (spot g ++ [name]) = false)
      (fun _ _ => False) t := by
  obtain ⟨t₁, h₁⟩ : ∃ t₁, t.makeDirs [] (sessionDir g) = some t₁ :=
    FileTree.makeDirs_some FileTree.isDir_nil (fits_sessionDir hg) fun p hp => by
    rcases spot_of_prefix hp with he | he | he
    · rw [he, FileTree.fileAt_dir FileTree.isDir_nil]
    · rw [he, hfree]
    · rw [he, hspot]
  -- the directories made are those of the path, none under a file's name
  have hclear : ∀ name, name ≠ "sessions".toList → t.isDir (spot g ++ [name]) = false →
      t₁.isDir (spot g ++ [name]) = false := by
    intro name hname hfree
    cases hd : t₁.isDir (spot g ++ [name]) with
    | false => rfl
    | true =>
      exfalso
      have hlast : (spot g ++ [name]).getLast? = some name := by simp
      rcases FileTree.isDir_of_makeDirs h₁ hd with hd | ⟨p, hp, he⟩
      · rw [hfree] at hd
        cases hd
      · rcases spot_of_prefix hp with hs | hs | hs
        · rw [he, hs] at hlast
          cases hlast
        · rw [he, hs] at hlast
          exact hname (Option.some.inj hlast).symm
        · rw [hs] at he
          have := congrArg List.length he
          simp at this
  have hfree : ∀ name, name = "meta.tmp".toList ∨ name = "meta.json".toList →
      t₁.isDir (spot g ++ [name]) = false := fun name hname =>
    hclear name (by rcases hname with rfl | rfl <;> decide) (hdir name hname)
  refine wp_replace h₁ rfl (by decide) (by decide)
    (fun _ _ t' hfile hdirs => ⟨hfile, fun l hl => ?_, fun name hname hn => ?_⟩) fun hd => ?_
  · rw [hdirs, FileTree.isDir_makeDirs h₁ hl]
  · rw [hdirs, hclear name hname hn]
  · rcases hd with hd | hd
    · rw [show tmpName "meta.json".toList = "meta.tmp".toList from rfl] at hd
      rw [show (sessionDir g).foldl Component.enter [] = spot g from rfl, hfree _ (.inl rfl)] at hd
      cases hd
    · rw [show (sessionDir g).foldl Component.enter [] = spot g from rfl, hfree _ (.inr rfl)] at hd
      cases hd

theorem wp_deleteSession {d : List Str} (hloc : t.locate (sessionDir h) = some d)
    (hd : t.isDir d = true) :
    Prog.wp False disk (deleteSession h)
      (fun _ t' => t' = if hn : d ≠ [] ∧ endsInName (sessionDir h) = true then t.remove d hn.1
        else t.clear d) (fun _ _ => False) t := by
  unfold deleteSession
  rw [Prog.wp_bind, Prog.wp_attempt]
  unfold removeDirAll
  refine Prog.wp_perform.mpr ⟨?_, False.elim⟩
  unfold Basis.wp disk
  dsimp only
  rw [hloc]
  dsimp only
  rw [removeAll, if_pos hd]
  by_cases hn : d ≠ [] ∧ endsInName (sessionDir h) = true
  · rw [dif_pos hn, dif_pos hn]
    exact rfl
  · rw [dif_neg hn, dif_neg hn]
    exact rfl

/-! ## Which are apart -/

variable {F : Prop}

theorem bare_free {dirs : List String} (ht : Bare dirs t) (d : List Str) {name : String}
    (hname : name ∉ dirs) :
    t.isDir (d ++ [name.toList]) = false := by
  cases hd : t.isDir (d ++ [name.toList]) with
  | false => rfl
  | true =>
    exfalso
    rcases (ht.dirs _).mp hd with hl | ⟨dir, hdir, hl⟩
    · simp at hl
    · have hlast := congrArg List.getLast? hl
      have hn : name.toList = dir.toList := by simpa using hlast
      exact hname (String.toList_inj.mp hn ▸ hdir)

structure Created (μ : Type) [FileStd μ] (g : Str) (t : Disk) : Prop where
  file : t.fileAt (spot g ++ ["meta.json".toList]) =
    some (FileStd.metaJson μ ⟨⟨0⟩, [], [], [], [], 0, none, none⟩)
  files : ∀ l, l ≠ spot g ++ ["meta.json".toList] → t.fileAt l = none
  dirs : ∀ dir ∈ storeDirs, t.isDir [dir.toList] = true
  free : ∀ name, name ∉ storeDirs → t.isDir (spot g ++ [name.toList]) = false

theorem reached_created (hg : storable g = true) : ∃ t, Reached μ F t ∧ Created μ g t := by
  obtain ⟨t₀, hopen, hbare⟩ := open_bare F
  have hdir : ∀ name, name = "meta.tmp".toList ∨ name = "meta.json".toList →
      t₀.isDir (spot g ++ [name]) = false := by
    intro name hname
    rcases hname with rfl | rfl
    · exact bare_free hbare (spot g) (by decide)
    · exact bare_free hbare (spot g) (by decide)
  obtain ⟨_, t, hr, hfile, hdirs, hfree⟩ :=
    (wp_createSession (μ := μ) (g := g) ⟨0⟩ [] none [] hg (hbare.files _) (hbare.files _) hdir).run F
  refine ⟨t, .next (.first hopen) (a := (g, .op (.create ⟨0⟩ [] none []))) ⟨_, hr⟩, ?_,
    fun l hl => ?_, fun dir hd => ?_, fun name hn => ?_⟩
  · rw [hfile, if_pos rfl]
  · rw [hfile, if_neg hl, hbare.files, ite_self]
  · exact hdirs _ ((hbare.dirs _).mpr (.inr ⟨dir, hd, rfl⟩))
  · refine hfree _ (fun he => hn ?_) (bare_free hbare (spot g) hn)
    rw [String.toList_inj.mp he]
    decide

theorem runs_delete {d : List Str} (hloc : t.locate (sessionDir h) = some d)
    (hd : t.isDir d = true) :
    Prog.Runs F disk (FileAct.exec (μ := μ) h (.op .delete)) t (.ok ())
      (if hn : d ≠ [] ∧ endsInName (sessionDir h) = true then t.remove d hn.1 else t.clear d) := by
  have hwp : Prog.wp False disk (FileAct.exec (μ := μ) h (.op .delete))
      (fun _ t' => t' = if hn : d ≠ [] ∧ endsInName (sessionDir h) = true then t.remove d hn.1
        else t.clear d) (fun _ _ => False) t := by
    unfold FileAct.exec
    rw [Prog.wp_bind]
    exact (wp_deleteSession hloc hd).mono (fun _ _ ht => ht) fun _ _ he => he
  obtain ⟨_, _, hr, rfl⟩ := hwp.run F
  exact hr

theorem locate_special (hs : Special h) (hd : t.isDir ["sessions".toList] = true) :
    t.locate (sessionDir h) = some (spot h) ∧ t.isDir (spot h) = true := by
  have hroot : t.isDir [] = true := FileTree.isDir_nil
  rcases hs with rfl | rfl | rfl
  · refine ⟨?_, hd⟩
    show (if t.isDir [] then _ else none) = _
    rw [if_pos hroot]
    rfl
  · refine ⟨?_, hd⟩
    show (if t.isDir [] then if t.isDir ["sessions".toList] then _ else none else none) = _
    rw [if_pos hroot, if_pos hd]
    rfl
  · refine ⟨?_, hroot⟩
    show (if t.isDir [] then if t.isDir ["sessions".toList] then _ else none else none) = _
    rw [if_pos hroot, if_pos hd]
    rfl

/-- Deleting one of the three takes the sessions of all others with it. -/
theorem special_removes (hs : Special h) (hfits : storable g = true) (hg : g ≠ parentName)
    (hne : h ≠ g) : ¬ Spares μ F h g := by
  intro hspares
  obtain ⟨t, ht, hcreated⟩ := reached_created (μ := μ) (F := F) hfits
  have hfile : t.fileAt (spot g ++ ["meta.json".toList]) ≠ none := by
    rw [hcreated.file]; exact Option.some_ne_none _
  obtain ⟨hloc, hd⟩ := locate_special hs (hcreated.dirs "sessions" (by decide))
  have hkept := (hspares t ht (.op .delete) _ _ (runs_delete (μ := μ) hloc hd)).1 "meta.json".toList
  rw [fileOf_place hg, fileOf_place hg, ← spot_eq hg] at hkept
  have hbelow : Below (spot h) (spot g ++ ["meta.json".toList]) := by
    rw [spot_eq hg]
    rcases hs with rfl | rfl | rfl
    · rw [show spot [] = ["sessions".toList] from rfl]
      exact ⟨⟨_, rfl⟩, by simp [place]⟩
    · rw [show spot ['.'] = ["sessions".toList] from rfl]
      exact ⟨⟨_, rfl⟩, by simp [place]⟩
    · rw [show spot ['.', '.'] = [] from rfl]
      exact ⟨List.nil_prefix, by simp⟩
  rw [← hkept] at hfile
  apply hfile
  by_cases hn : spot h ≠ [] ∧ endsInName (sessionDir h) = true
  · rw [dif_pos hn, FileTree.fileAt, FileTree.node_remove, if_pos hbelow.1]
  · rw [dif_neg hn, FileTree.fileAt, FileTree.node_clear, if_pos ⟨hbelow.1, hbelow.2⟩]

theorem fileOf_parent (name : Str) : fileOf t parentName name = if t.isDir ["sessions".toList]
    then t.fileAt [name] else none := by
  show (if t.isDir [] then (if t.isDir ["sessions".toList]
      then (if t.isDir [] then some [name] else none) else none) else none :
    Option (List Str)).bind _ = _
  rw [FileTree.isDir_nil, if_pos rfl, if_pos rfl]
  by_cases hd : t.isDir ["sessions".toList] = true
  · rw [if_pos hd, if_pos hd]
    rfl
  · rw [if_neg hd, if_neg hd]
    rfl

/-- No session is created under a name that is too long, but the directory it would be in. -/
theorem wp_createSession_unfit (agent : AgentId) (createdBy : Str) (root : Option Str) (now : Str)
    (hh : storable h = false) :
    Prog.wp False disk (createSession (μ := μ) h agent createdBy root now) (fun _ _ => False)
      (fun _ t' => t' = leftDirs (sessionDir h) t) t := by
  have hspecial : ¬ Special h := fun hs =>
      Bool.false_ne_true (hh.symm.trans (storable_of_special hs))
  have hmade : t.makeDirs [] (sessionDir h) = none := by
    rw [sessionDir_normal hspecial]
    show (t.makeDir ["sessions".toList]).bind
        (fun u => (u.makeDir ["sessions".toList, encode h]).bind some) = none
    rw [Option.bind_eq_none_iff]
    intro u _
    have hunfit : u.makeDir ["sessions".toList, encode h] = none := FileTree.makeDir_unfit hh
    rw [hunfit]
    rfl
  unfold createSession writeMeta writeJson replace
  rw [metaPath, parent_concat, Prog.wp_bind, wp_createDirAll, hmade]
  exact ⟨rfl, False.elim⟩

theorem isDir_leftDirs_unfit (hh : storable h = false)
    (hfree : t.fileAt ["sessions".toList] = none) :
    (leftDirs (sessionDir h) t).isDir ["sessions".toList] = true := by
  have hspecial : ¬ Special h := fun hs =>
      Bool.false_ne_true (hh.symm.trans (storable_of_special hs))
  have hunfit : NameLimit.fits (encode h) = false := hh
  have hadmitted : admitted (sessionDir h) = [.normal "sessions".toList] := by
    rw [sessionDir_normal hspecial, admitted, List.map_cons, List.map_singleton,
      List.takeWhile_cons_of_pos (by decide),
      List.takeWhile_cons_of_neg (by simp [Component.name?, hunfit])]
  obtain ⟨t', ht'⟩ : ∃ t', t.makeDir ["sessions".toList] = some t' :=
    FileTree.makeDir_some (by simp) FileTree.isDir_nil hfree (by decide)
  have hmade : t.makeDirs [] (admitted (sessionDir h)) = some t' := by
    rw [hadmitted]
    show (t.makeDir ["sessions".toList]).bind some = some t'
    rw [ht']
    rfl
  rw [leftDirs, hmade, Option.getD_some, FileTree.isDir_makeDir ht', decide_eq_true rfl, Bool.true_or]

/-- Where the sessions' directory is gone, creating any session brings it back and leaves the top alone. -/
theorem runs_create (hne : h ≠ parentName)
    (hgone : ∀ l, ["sessions".toList] <+: l → t.node l = none) :
    ∃ r t', Prog.Runs F disk (FileAct.exec (μ := μ) h (.op (.create ⟨0⟩ [] none []))) t r t' ∧
      t'.isDir ["sessions".toList] = true ∧ ∀ name, t'.fileAt [name] = t.fileAt [name] := by
  have hnofile : ∀ l, ["sessions".toList] <+: l → t.fileAt l = none := fun l hl => by
    rw [FileTree.fileAt, hgone l hl]
  have hplace : ["sessions".toList] <+: place h := ⟨_, rfl⟩
  cases hh : storable h with
  | false =>
    obtain ⟨e, _, hr, rfl⟩ := (wp_createSession_unfit (μ := μ) (t := t) ⟨0⟩ [] none [] hh).failed F
    exact ⟨.error e, _, hr, isDir_leftDirs_unfit hh (hnofile _ (List.prefix_refl _)),
      fun name => fileAt_leftDirs _⟩
  | true =>
    obtain ⟨_, t', hr, hfiles, -⟩ := (wp_createSession (μ := μ) (g := h) (t := t) ⟨0⟩ [] none [] hh
      (hnofile _ (List.prefix_refl _)) (hnofile _ (by rw [spot_eq hne]; exact hplace))
      fun name _ => by
        rw [FileTree.isDir, hgone]
        rw [spot_eq hne]
        exact hplace.trans (List.prefix_append _ _)).run F
    have hplain : ∀ name file : Str, [name] ≠ spot h ++ [file] := by
      intro name file he
      rw [spot_eq hne] at he
      simp [place] at he
    refine ⟨.ok (), t', hr, ?_, fun name =>
      by rw [hfiles, if_neg (hplain _ _), if_neg (hplain _ _)]⟩
    have hmeta : t'.fileAt (spot h ++ ["meta.json".toList]) ≠ none := by
      rw [hfiles, if_pos rfl]
      exact Option.some_ne_none _
    cases hn : t'.node (spot h ++ ["meta.json".toList]) with
    | none => exact absurd (by rw [FileTree.fileAt, hn]) hmeta
    | some x =>
      rw [spot_eq hne, place, List.cons_append, ← List.singleton_append] at hn
      cases hrest : (if Special h then [] else [encode h]) ++ ["meta.json".toList] with
      | nil => simp at hrest
      | cons c rest =>
        rw [hrest] at hn
        exact FileTree.isDir_above hn

/-- A session at the top is read through the directory of the sessions, which comes and goes with
the others. -/
theorem parent_depends (hne : h ≠ parentName) : ¬ Spares μ F h parentName := by
  intro hspares
  obtain ⟨t, ht, hcreated⟩ := reached_created (μ := μ) (F := F) (g := parentName) (by decide)
  have hfile : t.fileAt (spot parentName ++ ["meta.json".toList]) ≠ none := by
    rw [hcreated.file]; exact Option.some_ne_none _
  have hdir : t.isDir ["sessions".toList] = true := hcreated.dirs "sessions" (by decide)
  -- the empty handle takes the directory away
  obtain ⟨hloc, hd⟩ := locate_special (h := []) (.inl rfl) hdir
  have hgone := runs_delete (μ := μ) (F := F) hloc hd
  have hname : spot [] ≠ [] ∧ endsInName (sessionDir []) = true := by decide
  rw [dif_pos hname] at hgone
  have ht₁ : Reached μ F (t.remove (spot []) hname.1) :=
    .next ht (a := ([], .op .delete)) ⟨_, hgone⟩
  have hunder : ∀ l, ["sessions".toList] <+: l → (t.remove (spot []) hname.1).node l = none := fun l hl => by
    rw [FileTree.node_remove, if_pos (show spot [] <+: l from hl)]
  -- and creating any session brings it back
  obtain ⟨r, t₂, hr, hsessions, hfiles⟩ := runs_create (μ := μ) (F := F) hne hunder
  have hkept := (hspares _ ht₁ (.op (.create ⟨0⟩ [] none [])) _ _ hr).1 "meta.json".toList
  have hbefore : fileOf (t.remove (spot []) hname.1) parentName "meta.json".toList = none := by
    rw [fileOf_parent, if_neg]
    rw [FileTree.isDir, hunder _ (List.prefix_refl _)]
    exact Bool.false_ne_true
  rw [hbefore, fileOf_parent, if_pos hsessions, hfiles, FileTree.fileAt, FileTree.node_remove,
    if_neg (by decide)] at hkept
  exact hfile hkept

/-- There are no files under a name that is too long. -/
theorem fileOf_unfit (hg : storable g = false) (name : Str) : fileOf t g name = none := by
  have hspecial : ¬ Special g := fun hs =>
      Bool.false_ne_true (hg.symm.trans (storable_of_special hs))
  rw [fileOf_place fun he => hspecial (.inr (.inr he)), place, if_neg hspecial]
  cases hf : t.fileAt (["sessions".toList] ++ [encode g] ++ [name]) with
  | none => exact hf
  | some b =>
    have hfits := t.name_fits (t.parent_dir (FileTree.fileAt_iff.mp hf))
    exact absurd (hg.symm.trans hfits) Bool.false_ne_true

/-- Two handles are apart just when neither is a place that others are in, or the other can have no
session at all. -/
theorem handles_apart (hne : h ≠ g) : Spares μ F h g ↔ storable g = false ∨ ¬ Special h ∧
    g ≠ parentName := by
  constructor
  · intro hspares
    cases hfits : storable g with
    | false => exact .inl rfl
    | true =>
      have hg : g ≠ parentName := by
        intro hg
        subst hg
        exact parent_depends hne hspares
      exact .inr ⟨fun hs => special_removes hs hfits hg hne hspares, hg⟩
  · rintro (hg | ⟨hh, hg⟩) t _ act r t' hr
    · have hfiles : ∀ name, fileOf t' g name = fileOf t g name := fun name => by
        rw [fileOf_unfit hg, fileOf_unfit hg]
      exact ⟨hfiles, loaded_congr hfiles⟩
    · have hfiles := runs_apart hh hg hne hr
      exact ⟨hfiles, loaded_congr hfiles⟩

end

section
open Store.Plain Backend.Plain

theorem two_letters_apart : Spares Message True "a".toList "b".toList :=
  (handles_apart (by decide)).mpr (.inr (by decide))

/-- Deleting the conversation without a name deletes every other. -/
theorem empty_handle_removes : ¬ Spares Message True [] "chat".toList :=
  special_removes (.inl rfl) (by decide) (by decide) (by decide)

end

end Crabtalk.Backend

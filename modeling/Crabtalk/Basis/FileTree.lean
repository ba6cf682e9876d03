import Crabtalk.Basis.FileSystem

/-!
# A tree of files that is written to

A location is the list of names below the top of the tree; a path is walked
component by component, through directories only. There are no links, and no
names the file system does not take. What changes a tree is `put`, which fills
one location in a directory, and `prune`, which keeps a part that is closed
upwards.
-/

namespace Basis

inductive Entry (β : Type)
  | dir
  | file (content : β)

class NameLimit (ν : Type) where
  fits : ν → Bool

structure FileTree (ν β : Type) [NameLimit ν] where
  node : List ν → Option (Entry β)
  root_dir : node [] = some .dir
  parent_dir : ∀ {loc name x}, node (loc ++ [name]) = some x → node loc = some .dir
  name_fits : ∀ {loc name x}, node (loc ++ [name]) = some x → NameLimit.fits name = true

variable {ν β : Type}

def Component.enter (loc : List ν) : Component ν → List ν
  | .rootDir => []
  | .curDir => loc
  | .parentDir => loc.dropLast
  | .normal name => loc ++ [name]

namespace FileTree

variable [NameLimit ν]

def isDir (t : FileTree ν β) (loc : List ν) : Bool :=
  match t.node loc with
  | some .dir => true
  | _ => false

def fileAt (t : FileTree ν β) (loc : List ν) : Option β :=
  match t.node loc with
  | some (.file b) => some b
  | _ => none

def walk (t : FileTree ν β) : List ν → List (Component ν) → Option (List ν)
  | loc, [] => some loc
  | loc, c :: rest => if t.isDir loc then t.walk (c.enter loc) rest else none

def locate (t : FileTree ν β) (path : List (Component ν)) : Option (List ν) := t.walk [] path

variable {t t' : FileTree ν β} {loc l : List ν} {path : List (Component ν)} {b : β}

theorem isDir_iff : t.isDir loc = true ↔ t.node loc = some .dir := by
  unfold isDir
  split
  · simp [*]
  · rename_i h
    simpa using h

theorem fileAt_iff : t.fileAt loc = some b ↔ t.node loc = some (.file b) := by
  unfold fileAt
  split
  · rename_i h
    simp [h]
  · rename_i h
    constructor
    · intro hb
      cases hb
    · intro hb
      exact absurd hb (h b)

theorem fileAt_dir (h : t.isDir loc = true) : t.fileAt loc = none := by
  rw [fileAt, isDir_iff.mp h]

theorem fileAt_congr (h : t'.node l = t.node l) : t'.fileAt l = t.fileAt l := by
  rw [fileAt, fileAt, h]

theorem isDir_nil : t.isDir [] = true := isDir_iff.mpr t.root_dir

theorem isDir_parent {name : ν} {x : Entry β} (h : t.node (loc ++ [name]) = some x) :
    t.isDir loc = true := isDir_iff.mpr (t.parent_dir h)

theorem isDir_above {names : List ν} {name : ν} {x : Entry β}
    (h : t.node (loc ++ name :: names) = some x) : t.isDir loc = true := by
  induction names generalizing loc name with
  | nil => exact isDir_parent h
  | cons m names ih =>
    have hm : t.isDir (loc ++ [name]) = true :=
      ih (by rwa [List.append_assoc, List.singleton_append])
    exact isDir_parent (isDir_iff.mp hm)

/-! ## Walks -/

@[simp] theorem walk_nil : t.walk loc [] = some loc := rfl

theorem walk_cons {c : Component ν} : t.walk loc (c :: path) = if t.isDir loc
    then t.walk (c.enter loc) path else none := rfl

theorem walk_append {p q : List (Component ν)} : t.walk loc (p ++ q) = (t.walk loc p).bind fun l =>
    t.walk l q := by
  induction p generalizing loc with
  | nil => rfl
  | cons c p ih =>
    rw [List.cons_append, walk_cons, walk_cons]
    by_cases h : t.isDir loc = true
    · rw [if_pos h, if_pos h, ih]
    · rw [if_neg h, if_neg h]
      rfl

theorem walk_eq (h : t.walk loc path = some l) : l = path.foldl Component.enter loc := by
  induction path generalizing loc with
  | nil =>
    cases h
    rfl
  | cons c path ih =>
    rw [walk_cons] at h
    by_cases hd : t.isDir loc = true
    · rw [if_pos hd] at h
      exact ih h
    · rw [if_neg hd] at h
      cases h

theorem walk_congr (h : ∀ l, t'.isDir l = t.isDir l) : t'.walk loc path = t.walk loc path := by
  induction path generalizing loc with
  | nil => rfl
  | cons c path ih => rw [walk_cons, walk_cons, h, ih]

theorem walk_mono (h : ∀ l, t.isDir l = true → t'.isDir l = true) (hw : t.walk loc path = some l) :
    t'.walk loc path = some l := by
  induction path generalizing loc with
  | nil => exact hw
  | cons c path ih =>
    rw [walk_cons] at hw ⊢
    by_cases hd : t.isDir loc = true
    · rw [if_pos hd] at hw
      rw [if_pos (h loc hd)]
      exact ih hw
    · rw [if_neg hd] at hw
      cases hw

/-- There is a file at the end of a path of names just when there is one at that location. -/
theorem walk_file {names : List ν} : (t.walk loc (names.map .normal)).bind t.fileAt =
    t.fileAt (loc ++ names) := by
  induction names generalizing loc with
  | nil => simp
  | cons name names ih =>
    rw [List.map_cons, walk_cons]
    by_cases hd : t.isDir loc = true
    · rw [if_pos hd]
      show (t.walk (loc ++ [name]) _).bind t.fileAt = _
      rw [ih, List.append_assoc, List.singleton_append]
    · rw [if_neg hd]
      cases hf : t.fileAt (loc ++ name :: names) with
      | none => rfl
      | some b => exact absurd (isDir_above (fileAt_iff.mp hf)) hd

theorem locate_file (names : List ν) : (t.locate (names.map .normal)).bind t.fileAt =
    t.fileAt names := walk_file

/-! ## Changes -/

section
variable [DecidableEq ν]

def lastFits (loc : List ν) : Bool := loc.getLast?.all NameLimit.fits

omit [DecidableEq ν] in
theorem lastFits_concat {name : ν} : lastFits (loc ++ [name]) = NameLimit.fits name := by
  simp [lastFits]

def put (t : FileTree ν β) (loc : List ν) (x : Entry β) (hloc : loc ≠ [])
    (hdir : t.node loc.dropLast = some .dir)
    (hx : x = .dir ∨ t.node loc ≠ some .dir) (hname : lastFits loc = true) : FileTree ν β where
  node := Function.update t.node loc (some x)
  root_dir := by rw [Function.update_of_ne (Ne.symm hloc), t.root_dir]
  parent_dir := by
    intro up name y hy
    have hup : t.node up = some .dir := by
      by_cases h : up ++ [name] = loc
      · rw [← h, List.dropLast_concat] at hdir
        exact hdir
      · rw [Function.update_of_ne h] at hy
        exact t.parent_dir hy
    by_cases h : up = loc
    · subst h
      rw [Function.update_self, hx.resolve_right fun hn => hn hup]
    · rw [Function.update_of_ne h, hup]
  name_fits := by
    intro up name y hy
    by_cases h : up ++ [name] = loc
    · rw [← h, lastFits_concat] at hname
      exact hname
    · rw [Function.update_of_ne h] at hy
      exact t.name_fits hy

def prune (t : FileTree ν β) (p : List ν → Prop) [DecidablePred p] (hroot : p [])
    (hp : ∀ loc name, p (loc ++ [name]) → p loc) :
    FileTree ν β where
  node loc := if p loc then t.node loc else none
  root_dir := by rw [if_pos hroot, t.root_dir]
  parent_dir := by
    intro loc name x h
    by_cases hl : p (loc ++ [name])
    · rw [if_pos hl] at h
      rw [if_pos (hp loc name hl), t.parent_dir h]
    · rw [if_neg hl] at h
      cases h
  name_fits := by
    intro loc name x h
    by_cases hl : p (loc ++ [name])
    · rw [if_pos hl] at h
      exact t.name_fits h
    · rw [if_neg hl] at h
      cases h

/-- `write` with `create`: a file in a directory, where there is no directory. -/
def writeFile (t : FileTree ν β) (loc : List ν) (b : β) : Option (FileTree ν β) :=
  if hloc : loc ≠ [] then
    if hdir : t.isDir loc.dropLast = true then
      if hx : t.isDir loc = true then none
      else
        if hname : lastFits loc = true then
          some (t.put loc (.file b) hloc (isDir_iff.mp hdir)
            (.inr fun h => hx (isDir_iff.mpr h)) hname)
        else none
    else none
  else none

def makeDir (t : FileTree ν β) (loc : List ν) : Option (FileTree ν β) :=
  if t.isDir loc then some t
  else
    if hloc : loc ≠ [] then
      if hdir : t.isDir loc.dropLast = true then
        if (t.node loc).isSome then none
        else
          if hname : lastFits loc = true
            then some (t.put loc .dir hloc (isDir_iff.mp hdir) (.inl rfl) hname)
          else none
      else none
    else none

def makeDirs : FileTree ν β → List ν → List (Component ν) → Option (FileTree ν β)
  | t, _, [] => some t
  | t, loc, c :: rest => (t.makeDir (c.enter loc)).bind fun t => makeDirs t (c.enter loc) rest

omit [NameLimit ν] [DecidableEq ν] in
theorem not_prefix_of_append {name : ν} (h : ¬ l <+: loc ++ [name]) : ¬ l <+: loc :=
  fun hp => h (hp.trans (List.prefix_append _ _))

def remove (t : FileTree ν β) (loc : List ν) (hloc : loc ≠ []) : FileTree ν β :=
  t.prune (fun l => ¬ loc <+: l) (fun h => hloc (List.prefix_nil.mp h)) fun _ _ =>
    not_prefix_of_append

def clear (t : FileTree ν β) (loc : List ν) : FileTree ν β :=
  t.prune (fun l => loc <+: l → l = loc) (fun h => (List.prefix_nil.mp h).symm) fun l name h hp => by
    have heq := h (hp.trans (List.prefix_append _ _))
    have hlen := hp.length_le
    have := congrArg List.length heq
    rw [List.length_append, List.length_singleton] at this
    omega

/-- `rename` of a file. -/
def moveFile (t : FileTree ν β) (src dst : List ν) : Option (FileTree ν β) :=
  match t.fileAt src with
  | none => none
  | some b => if h : src ≠ [] then (t.remove src h).writeFile dst b else none

/-! ## What is there afterwards -/

theorem node_put {x : Entry β} {hloc : loc ≠ []} {hdir : t.node loc.dropLast = some .dir}
    {hx : x = .dir ∨ t.node loc ≠ some .dir}
    {hname : lastFits loc = true} : (t.put loc x hloc hdir hx hname).node l = if l = loc then some x
    else t.node l :=
  Function.update_apply _ _ _ _

theorem writeFile_some (hloc : loc ≠ []) (hdir : t.isDir loc.dropLast = true)
    (hx : t.isDir loc = false)
    (hname : lastFits loc = true) (b : β) : ∃ t', t.writeFile loc b = some t' := by
  unfold writeFile
  rw [dif_pos hloc, dif_pos hdir, dif_neg (by simp [hx]), dif_pos hname]
  exact ⟨_, rfl⟩

theorem writeFile_unfit (hname : lastFits loc = false) (b : β) : t.writeFile loc b = none := by
  simp [writeFile, hname]

theorem writeFile_node (h : t.writeFile loc b = some t') :
    t.isDir loc = false ∧ ∀ l, t'.node l = if l = loc then some (.file b) else t.node l := by
  unfold writeFile at h
  by_cases hloc : loc ≠ []
  · rw [dif_pos hloc] at h
    by_cases hdir : t.isDir loc.dropLast = true
    · rw [dif_pos hdir] at h
      by_cases hx : t.isDir loc = true
      · rw [dif_pos hx] at h
        cases h
      · rw [dif_neg hx] at h
        by_cases hname : lastFits loc = true
        · rw [dif_pos hname] at h
          cases h
          exact ⟨by simpa using hx, fun l => node_put⟩
        · rw [dif_neg hname] at h
          cases h
    · rw [dif_neg hdir] at h
      cases h
  · rw [dif_neg hloc] at h
    cases h

theorem fileAt_writeFile (h : t.writeFile loc b = some t') :
    t'.fileAt l = if l = loc then some b else t.fileAt l := by
  have hnode := (writeFile_node h).2 l
  by_cases hl : l = loc
  · rw [if_pos hl] at hnode ⊢
    rw [fileAt, hnode]
  · rw [if_neg hl] at hnode ⊢
    exact fileAt_congr hnode

theorem isDir_writeFile (h : t.writeFile loc b = some t') : t'.isDir l = t.isDir l := by
  obtain ⟨hfree, hnode⟩ := writeFile_node h
  by_cases hl : l = loc
  · subst hl
    rw [hfree, isDir, hnode l, if_pos rfl]
  · rw [isDir, isDir, hnode l, if_neg hl]

theorem makeDir_some (hloc : loc ≠ []) (hdir : t.isDir loc.dropLast = true)
    (hfile : t.fileAt loc = none)
    (hname : lastFits loc = true) : ∃ t', t.makeDir loc = some t' := by
  unfold makeDir
  by_cases hd : t.isDir loc = true
  · rw [if_pos hd]
    exact ⟨t, rfl⟩
  · have hnone : (t.node loc).isSome = false := by
      cases hn : t.node loc with
      | none => rfl
      | some x =>
        cases x with
        | dir => exact absurd (isDir_iff.mpr hn) hd
        | file b =>
          rw [fileAt, hn] at hfile
          cases hfile
    rw [if_neg hd, dif_pos hloc, dif_pos hdir, if_neg (by simp [hnone]), dif_pos hname]
    exact ⟨_, rfl⟩

omit [DecidableEq ν] in
theorem lastFits_of_node {x : Entry β} (h : t.node loc = some x) : lastFits loc = true := by
  rcases List.eq_nil_or_concat loc with rfl | ⟨up, name, rfl⟩
  · rfl
  · rw [List.concat_eq_append] at h ⊢
    rw [lastFits_concat, t.name_fits h]

theorem makeDir_unfit (hname : lastFits loc = false) : t.makeDir loc = none := by
  have hd : t.isDir loc = false := by
    by_contra hdir
    have := lastFits_of_node (isDir_iff.mp (by simpa using hdir))
    rw [hname] at this
    cases this
  simp [makeDir, hd, hname]

theorem makeDir_node (h : t.makeDir loc = some t') :
    t.fileAt loc = none ∧ ∀ l, t'.node l = if l = loc then some .dir else t.node l := by
  unfold makeDir at h
  by_cases hd : t.isDir loc = true
  · rw [if_pos hd] at h
    cases h
    refine ⟨fileAt_dir hd, fun l => ?_⟩
    by_cases hl : l = loc
    · rw [if_pos hl, hl, isDir_iff.mp hd]
    · rw [if_neg hl]
  · rw [if_neg hd] at h
    by_cases hloc : loc ≠ []
    · rw [dif_pos hloc] at h
      by_cases hdir : t.isDir loc.dropLast = true
      · rw [dif_pos hdir] at h
        cases hn : t.node loc with
        | none =>
          rw [hn, if_neg (by simp)] at h
          by_cases hname : lastFits loc = true
          · rw [dif_pos hname] at h
            cases h
            exact ⟨by rw [fileAt, hn], fun l => node_put⟩
          · rw [dif_neg hname] at h
            cases h
        | some x =>
          rw [hn, Option.isSome_some, if_pos rfl] at h
          cases h
      · rw [dif_neg hdir] at h
        cases h
    · rw [dif_neg hloc] at h
      cases h

theorem fileAt_makeDir (h : t.makeDir loc = some t') : t'.fileAt l = t.fileAt l := by
  obtain ⟨hfile, hnode⟩ := makeDir_node h
  by_cases hl : l = loc
  · subst hl
    rw [hfile, fileAt, hnode l, if_pos rfl]
  · refine fileAt_congr ?_
    rw [hnode l, if_neg hl]

theorem isDir_makeDir (h : t.makeDir loc = some t') :
    t'.isDir l = (decide (l = loc) || t.isDir l) := by
  have hnode := (makeDir_node h).2 l
  by_cases hl : l = loc
  · rw [if_pos hl] at hnode
    simp [hl, isDir_iff, hl ▸ hnode]
  · rw [if_neg hl] at hnode
    simp [hl, isDir, hnode]

theorem fileAt_makeDirs (h : t.makeDirs loc path = some t') : t'.fileAt l = t.fileAt l := by
  induction path generalizing t loc with
  | nil =>
    cases h
    rfl
  | cons c path ih =>
    obtain ⟨u, hu, h⟩ := Option.bind_eq_some_iff.mp h
    rw [ih h, fileAt_makeDir hu]

theorem isDir_makeDirs (h : t.makeDirs loc path = some t') (hl : t.isDir l = true) :
    t'.isDir l = true := by
  induction path generalizing t loc with
  | nil =>
    cases h
    exact hl
  | cons c path ih =>
    obtain ⟨u, hu, h⟩ := Option.bind_eq_some_iff.mp h
    refine ih h ?_
    rw [isDir_makeDir hu, hl, Bool.or_true]

theorem walk_makeDirs (h : t.makeDirs loc path = some t') (hloc : t.isDir loc = true) :
    t'.walk loc path = some (path.foldl Component.enter loc) ∧
    t'.isDir (path.foldl Component.enter loc) = true := by
  induction path generalizing t loc with
  | nil =>
    cases h
    exact ⟨rfl, hloc⟩
  | cons c path ih =>
    have h' := h
    obtain ⟨u, hu, h⟩ := Option.bind_eq_some_iff.mp h
    have hc : u.isDir (c.enter loc) = true := by
      rw [isDir_makeDir hu]
      simp
    rw [walk_cons, if_pos (isDir_makeDirs h' hloc)]
    exact ih h hc

/-- Nothing is made of a path that leads to a directory. -/
theorem makeDirs_opened (h : t.walk loc path = some l) (hl : t.isDir l = true) :
    t.makeDirs loc path = some t := by
  induction path generalizing loc with
  | nil => rfl
  | cons c path ih =>
    rw [walk_cons] at h
    by_cases hd : t.isDir loc = true
    · rw [if_pos hd] at h
      have hc : t.isDir (c.enter loc) = true := by
        cases path with
        | nil =>
          cases h
          exact hl
        | cons c' path =>
          rw [walk_cons] at h
          by_cases hc : t.isDir (c.enter loc) = true
          · exact hc
          · rw [if_neg hc] at h
            cases h
      show (t.makeDir (c.enter loc)).bind _ = _
      rw [makeDir, if_pos hc]
      exact ih h
    · rw [if_neg hd] at h
      cases h

theorem makeDirs_some (hloc : t.isDir loc = true)
    (hnames : ∀ name, .normal name ∈ path → NameLimit.fits name = true)
    (hfree : ∀ p, p <+: path → t.fileAt (p.foldl Component.enter loc) = none) :
    ∃ t', t.makeDirs loc path = some t' := by
  induction path generalizing t loc with
  | nil => exact ⟨t, rfl⟩
  | cons c path ih =>
    have hmake : ∃ u, t.makeDir (c.enter loc) = some u := by
      have hfile : t.fileAt (c.enter loc) = none := hfree [c] (List.prefix_append [c] path)
      cases c with
      | rootDir =>
        rw [Component.enter, makeDir, if_pos isDir_nil]
        exact ⟨t, rfl⟩
      | curDir =>
        rw [Component.enter, makeDir, if_pos hloc]
        exact ⟨t, rfl⟩
      | parentDir =>
        have hup : t.isDir loc.dropLast = true := by
          rcases List.eq_nil_or_concat loc with rfl | ⟨up, name, rfl⟩
          · exact hloc
          · rw [List.concat_eq_append] at hloc ⊢
            rw [List.dropLast_concat]
            exact isDir_parent (isDir_iff.mp hloc)
        rw [Component.enter, makeDir, if_pos hup]
        exact ⟨t, rfl⟩
      | normal name =>
        refine makeDir_some (by simp [Component.enter]) ?_ hfile ?_
        · rw [Component.enter, List.dropLast_concat, hloc]
        · exact lastFits_concat.trans (hnames name List.mem_cons_self)
    obtain ⟨u, hu⟩ := hmake
    have hdir : u.isDir (c.enter loc) = true := by
      rw [isDir_makeDir hu]
      simp
    obtain ⟨t', ht'⟩ := ih hdir (fun name hn => hnames name (List.mem_cons_of_mem c hn)) fun p hp => by
      rw [fileAt_makeDir hu]
      exact hfree (c :: p) (List.cons_prefix_cons.mpr ⟨rfl, hp⟩)
    refine ⟨t', ?_⟩
    show (t.makeDir (c.enter loc)).bind _ = _
    rw [hu]
    exact ht'

/-- The directories are those there were and those on the way. -/
theorem isDir_of_makeDirs (h : t.makeDirs loc path = some t') (hl : t'.isDir l = true) :
    t.isDir l = true ∨ ∃ p, p <+: path ∧ l = p.foldl Component.enter loc := by
  induction path generalizing t loc with
  | nil =>
    cases h
    exact .inl hl
  | cons c path ih =>
    obtain ⟨u, hu, h⟩ := Option.bind_eq_some_iff.mp h
    rcases ih h with hd | ⟨p, hp, rfl⟩
    · rw [isDir_makeDir hu, Bool.or_eq_true, decide_eq_true_eq] at hd
      rcases hd with rfl | hd
      · exact .inr ⟨[c], List.prefix_append [c] path, rfl⟩
      · exact .inl hd
    · exact .inr ⟨c :: p, List.cons_prefix_cons.mpr ⟨rfl, hp⟩, rfl⟩

theorem node_remove {hloc : loc ≠ []} : (t.remove loc hloc).node l = if loc <+: l then none
    else t.node l := by
  show (if ¬ loc <+: l then t.node l else none) = _
  by_cases h : loc <+: l
  · rw [if_neg (not_not_intro h), if_pos h]
  · rw [if_pos h, if_neg h]

theorem node_clear : (t.clear loc).node l = if loc <+: l ∧ l ≠ loc then none else t.node l := by
  show (if loc <+: l → l = loc then t.node l else none) = _
  by_cases h : loc <+: l → l = loc
  · rw [if_pos h, if_neg fun hn => hn.2 (h hn.1)]
  · rw [if_neg h, if_pos (by simpa using h)]

omit [DecidableEq ν] in
theorem node_below_file (hf : t.fileAt loc = some b) (hl : loc <+: l) (hne : l ≠ loc) :
    t.node l = none := by
  obtain ⟨rest, rfl⟩ := hl
  cases rest with
  | nil => exact absurd (List.append_nil loc) hne
  | cons name rest =>
    cases hn : t.node (loc ++ name :: rest) with
    | none => rfl
    | some x =>
      rw [fileAt_dir (isDir_above hn)] at hf
      cases hf

theorem isDir_remove_file {src : List ν} {hs : src ≠ []} (hb : t.fileAt src = some b) :
    (t.remove src hs).isDir l = t.isDir l := by
  by_cases hp : src <+: l
  · have hgone : (t.remove src hs).isDir l = false := by rw [isDir, node_remove, if_pos hp]
    rw [hgone]
    by_cases hl : l = src
    · rw [hl, isDir, fileAt_iff.mp hb]
    · rw [isDir, node_below_file hb hp hl]
  · rw [isDir, isDir, node_remove, if_neg hp]

theorem moveFile_node {src dst : List ν} (h : t.moveFile src dst = some t') :
    ∃ b, t.fileAt src = some b ∧ t.isDir dst = false ∧
      ∀ l, t'.node l = if l = dst then some (.file b) else if l = src then none else t.node l := by
  unfold moveFile at h
  cases hb : t.fileAt src with
  | none =>
    rw [hb] at h
    cases h
  | some b =>
    rw [hb] at h
    dsimp only at h
    by_cases hs : src ≠ []
    · rw [dif_pos hs] at h
      obtain ⟨hdst, hnode⟩ := writeFile_node h
      refine ⟨b, rfl, by rwa [isDir_remove_file hb] at hdst, fun l => ?_⟩
      rw [hnode l, node_remove]
      by_cases hl : l = src
      · rw [hl, if_pos (List.prefix_refl _), if_pos rfl]
      · rw [if_neg hl]
        by_cases hp : src <+: l
        · rw [if_pos hp, node_below_file hb hp hl]
        · rw [if_neg hp]
    · rw [dif_neg hs] at h
      cases h

theorem fileAt_moveFile {src dst : List ν} (h : t.moveFile src dst = some t') :
    t'.fileAt l = if l = dst then t.fileAt src else if l = src then none else t.fileAt l := by
  obtain ⟨b, hb, -, hnode⟩ := moveFile_node h
  rw [hb]
  by_cases hd : l = dst
  · rw [if_pos hd, fileAt, hnode l, if_pos hd]
  · rw [if_neg hd]
    by_cases hs : l = src
    · rw [if_pos hs, fileAt, hnode l, if_neg hd, if_pos hs]
    · rw [if_neg hs, fileAt, fileAt, hnode l, if_neg hd, if_neg hs]

theorem isDir_moveFile {src dst : List ν} (h : t.moveFile src dst = some t') :
    t'.isDir l = t.isDir l := by
  obtain ⟨b, hb, hdst, hnode⟩ := moveFile_node h
  by_cases hd : l = dst
  · rw [hd, hdst, isDir, hnode dst, if_pos rfl]
  · by_cases hs : l = src
    · rw [isDir, isDir, hnode l, if_neg hd, if_pos hs, hs, fileAt_iff.mp hb]
    · rw [isDir, isDir, hnode l, if_neg hd, if_neg hs]

theorem moveFile_some {src dst : List ν} (hb : t.fileAt src = some b) (hdst : dst ≠ [])
    (hdir : t.isDir dst.dropLast = true)
    (hx : t.isDir dst = false) (hname : lastFits dst = true) : ∃ t', t.moveFile src dst = some t' := by
  have hs : src ≠ [] := by
    intro hs
    rw [hs, fileAt_dir isDir_nil] at hb
    cases hb
  unfold moveFile
  rw [hb]
  dsimp only
  rw [dif_pos hs]
  exact writeFile_some hdst (by rw [isDir_remove_file hb, hdir])
    (by rw [isDir_remove_file hb, hx]) hname b

theorem moveFile_unfit {src dst : List ν} (hname : lastFits dst = false) :
    t.moveFile src dst = none := by
  cases h : t.moveFile src dst with
  | none => rfl
  | some t' =>
    obtain ⟨b, -, -, hnode⟩ := moveFile_node h
    have hfits := lastFits_of_node ((hnode dst).trans (if_pos rfl))
    rw [hname] at hfits
    cases hfits

end

end FileTree

end Basis

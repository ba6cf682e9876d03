import Mathlib.Data.List.Basic
import Mathlib.Tactic.Common

/-!
# Files, directories and symbolic links

A location is the list of names below the root of the tree. A path is walked
component by component from a directory, and a link on the way is replaced by
its target. A walk follows at most `maxLinks` links. When it may create, its
last component may be missing; so may that of the target of a last link.
Beside that a system refuses paths for their length: resolving one refuses when
what its links expand to is too long, and opening one when its own text is.
-/

namespace Basis

inductive Component (ν : Type)
  | rootDir
  | curDir
  | parentDir
  | normal (name : ν)
  deriving DecidableEq

inductive Node (ν β : Type)
  | dir
  | file (content : β)
  | link (target : List (Component ν))

structure FileSystem (ν β : Type) where
  node : List ν → Option (Node ν β)
  cwd : List ν
  maxLinks : Nat
  unresolved : List (Component ν) → Bool
  unopened : List (Component ν) → Bool
  root_dir : node [] = some .dir
  cwd_dir : node cwd = some .dir
  parent_dir : ∀ {loc name x}, node (loc ++ [name]) = some x → node loc = some .dir

variable {ν β : Type}

def toPath (loc : List ν) : List (Component ν) := .rootDir :: loc.map .normal

def Component.name? : Component ν → Option ν
  | .normal name => some name
  | _ => none

namespace FileSystem

variable (fs : FileSystem ν β)

def isDir (loc : List ν) : Bool :=
  match fs.node loc with
  | some .dir => true
  | _ => false

/-- A walk along the components of one path, where `follow` goes on from a link. -/
def walkFrom (follow : List ν → List (Component ν) → Option (List ν)) (create : Bool) :
    List ν → List (Component ν) → Option (List ν)
  | loc, [] => some loc
  | _, .rootDir :: rest => walkFrom follow create [] rest
  | loc, .curDir :: rest => if fs.isDir loc then walkFrom follow create loc rest else none
  | loc, .parentDir :: rest =>
    if fs.isDir loc then walkFrom follow create loc.dropLast rest else none
  | loc, .normal name :: rest =>
    if fs.isDir loc then
      match fs.node (loc ++ [name]) with
      | none => if create && rest.isEmpty then some (loc ++ [name]) else none
      | some (.link target) => follow loc (target ++ rest)
      | some _ => walkFrom follow create (loc ++ [name]) rest
    else none

/-- Where a path leads from a location, with `links` links to spend. -/
def walk (create : Bool) : Nat → List ν → List (Component ν) → Option (List ν)
  | 0 => fs.walkFrom (fun _ _ => none) create
  | links + 1 => fs.walkFrom (walk create links) create

def stat (path : List (Component ν)) : Option (List ν) :=
  if path.isEmpty then none else fs.walk false fs.maxLinks fs.cwd path

def canonicalize (path : List (Component ν)) : Option (List ν) :=
  if fs.unresolved path then none else fs.stat path

def Opens (path : List (Component ν)) : Prop := path ≠ [] ∧ fs.unopened path = false

instance (path : List (Component ν)) : Decidable (fs.Opens path) :=
  match path with
  | [] => .isFalse fun h => h.1 rfl
  | c :: rest => decidable_of_iff (fs.unopened (c :: rest) = false) ⟨fun h =>
      ⟨List.cons_ne_nil c rest, h⟩, And.right⟩

def reach (create : Bool) (path : List (Component ν)) : Option (List ν) :=
  if fs.Opens path then fs.walk create fs.maxLinks fs.cwd path else none

def Real (loc : List ν) : Prop := ∃ x, fs.node loc = some x ∧ ∀ target, x ≠ .link target

variable {fs} {create : Bool} {links : Nat} {loc dir : List ν} {name : ν}

theorem stat_of_canonicalize {path : List (Component ν)} (h : fs.canonicalize path = some loc) :
    fs.stat path = some loc := by
  unfold canonicalize at h
  split at h
  · cases h
  · exact h

theorem stat_ne_nil {path : List (Component ν)} (h : fs.stat path = some loc) : path ≠ [] := by
  rintro rfl
  cases h

theorem walk_of_stat {path : List (Component ν)} (h : fs.stat path = some loc) :
    fs.walk false fs.maxLinks fs.cwd path = some loc := by
  unfold stat at h
  split at h
  · cases h
  · exact h

theorem isDir_iff : fs.isDir loc = true ↔ fs.node loc = some .dir := by
  unfold isDir
  split
  · simp [*]
  · rename_i h
    simpa using h

theorem real_of_isDir (h : fs.isDir loc = true) : fs.Real loc :=
  ⟨.dir, isDir_iff.mp h, fun _ he => by cases he⟩

theorem isDir_of_append {names : List ν} (h : fs.Real (loc ++ name :: names)) :
    fs.isDir loc = true := by
  rw [isDir_iff]
  induction names generalizing loc name with
  | nil =>
    obtain ⟨x, hx, -⟩ := h
    exact fs.parent_dir hx
  | cons m names ih =>
    have h' : fs.Real ((loc ++ [name]) ++ m :: names) := by
      rwa [List.append_assoc, List.singleton_append]
    exact fs.parent_dir (ih h')

theorem isDir_dropLast (h : fs.isDir loc = true) : fs.isDir loc.dropLast = true := by
  rcases List.eq_nil_or_concat loc with rfl | ⟨l, n, rfl⟩
  · exact h
  · rw [List.concat_eq_append] at h ⊢
    rw [List.dropLast_concat]
    exact isDir_iff.mpr (fs.parent_dir (isDir_iff.mp h))

theorem real_or_link (loc : List ν) : fs.node loc = none ∨ fs.Real loc ∨
    ∃ target, fs.node loc = some (.link target) := by
  cases h : fs.node loc with
  | none => exact .inl rfl
  | some x =>
    cases x with
    | dir => exact .inr (.inl ⟨_, h, fun _ he => by cases he⟩)
    | file content => exact .inr (.inl ⟨_, h, fun _ he => by cases he⟩)
    | link target => exact .inr (.inr ⟨target, rfl⟩)

/-! ## One component -/

section
variable {rest : List (Component ν)}

@[simp] theorem walk_nil : fs.walk create links loc [] = some loc := by
  cases links <;> rfl

@[simp] theorem walk_rootDir : fs.walk create links loc (.rootDir :: rest) =
    fs.walk create links [] rest := by
  cases links <;> rfl

theorem walk_curDir : fs.walk create links loc (.curDir :: rest) = if fs.isDir loc
    then fs.walk create links loc rest else none := by
  cases links <;> rfl

theorem walk_parentDir :
    fs.walk create links loc (.parentDir :: rest) = if fs.isDir loc
    then fs.walk create links loc.dropLast rest else none := by
  cases links <;> rfl

theorem walk_normal : fs.walk create links loc (.normal name :: rest) =
    if fs.isDir loc then
      match fs.node (loc ++ [name]) with
      | none => if create && rest.isEmpty then some (loc ++ [name]) else none
      | some (.link target) =>
        match links with
        | 0 => none
        | links + 1 => fs.walk create links loc (target ++ rest)
      | some _ => fs.walk create links (loc ++ [name]) rest
    else none := by
  cases links <;> rfl

theorem walk_not_dir (hd : fs.isDir loc = false) :
    fs.walk create links loc (.normal name :: rest) = none := by
  rw [walk_normal, hd]
  rfl

theorem walk_missing (hd : fs.isDir loc = true) (hn : fs.node (loc ++ [name]) = none) :
    fs.walk create links loc (.normal name :: rest) = if create && rest.isEmpty
    then some (loc ++ [name]) else none := by
  rw [walk_normal, if_pos hd, hn]

theorem walk_real (hr : fs.Real (loc ++ [name])) :
    fs.walk create links loc (.normal name :: rest) = fs.walk create links (loc ++ [name]) rest := by
  have hd := isDir_of_append hr
  obtain ⟨x, hx, hl⟩ := hr
  rw [walk_normal, if_pos hd, hx]
  cases x with
  | dir => rfl
  | file content => rfl
  | link target => exact absurd rfl (hl target)

theorem walk_link_zero {target : List (Component ν)}
    (hn : fs.node (loc ++ [name]) = some (.link target)) :
    fs.walk create 0 loc (.normal name :: rest) = none := by
  rw [walk_normal, hn]
  split <;> rfl

theorem walk_link_succ {target : List (Component ν)}
    (hn : fs.node (loc ++ [name]) = some (.link target)) :
    fs.walk create (links + 1) loc (.normal name :: rest) = fs.walk create links loc
    (target ++ rest) := by
  rw [walk_normal, if_pos (isDir_iff.mpr (fs.parent_dir hn)), hn]

end

/-! ## Walks in two parts -/

/-- A walk along `a ++ b` is one along `a`, and then one along `b` with the links that are left. -/
theorem walk_append : ∀ {links : Nat} {loc dir : List ν} {a : List (Component ν)},
    fs.walk false links loc a = some dir →
    ∃ left, ∀ create b, fs.walk create links loc (a ++ b) = fs.walk create left dir b
  | links, loc, dir, [], h => by
    rw [walk_nil] at h
    cases h
    exact ⟨links, fun _ _ => rfl⟩
  | links, loc, dir, .rootDir :: a, h => by
    rw [walk_rootDir] at h
    simp only [List.cons_append, walk_rootDir]
    exact walk_append h
  | links, loc, dir, .curDir :: a, h => by
    rw [walk_curDir] at h
    split at h
    · rename_i hd
      simp only [List.cons_append, walk_curDir, if_pos hd]
      exact walk_append h
    · cases h
  | links, loc, dir, .parentDir :: a, h => by
    rw [walk_parentDir] at h
    split at h
    · rename_i hd
      simp only [List.cons_append, walk_parentDir, if_pos hd]
      exact walk_append h
    · cases h
  | links, loc, dir, .normal name :: a, h => by
    by_cases hd : fs.isDir loc = true
    · rcases fs.real_or_link (loc ++ [name]) with hn | hr | ⟨target, ht⟩
      · rw [walk_missing hd hn] at h
        cases h
      · rw [walk_real hr] at h
        simp only [List.cons_append, walk_real hr]
        exact walk_append h
      · cases links with
        | zero =>
          rw [walk_link_zero ht] at h
          cases h
        | succ links =>
          rw [walk_link_succ ht] at h
          simp only [List.cons_append, walk_link_succ ht, ← List.append_assoc]
          exact walk_append h
    · rw [walk_not_dir (by simpa using hd)] at h
      cases h
termination_by links _ _ a => (links, a.length)

theorem walk_front : ∀ {links : Nat} {loc dir : List ν} {a b : List (Component ν)},
    fs.walk false links loc (a ++ b) = some dir →
    ∃ mid, fs.walk false links loc a = some mid
  | links, loc, dir, [], b, h => ⟨loc, walk_nil⟩
  | links, loc, dir, .rootDir :: a, b, h => by
    rw [List.cons_append, walk_rootDir] at h
    rw [walk_rootDir]
    exact walk_front h
  | links, loc, dir, .curDir :: a, b, h => by
    rw [List.cons_append, walk_curDir] at h
    rw [walk_curDir]
    split at h
    · rw [if_pos ‹_›]
      exact walk_front h
    · cases h
  | links, loc, dir, .parentDir :: a, b, h => by
    rw [List.cons_append, walk_parentDir] at h
    rw [walk_parentDir]
    split at h
    · rw [if_pos ‹_›]
      exact walk_front h
    · cases h
  | links, loc, dir, .normal name :: a, b, h => by
    rw [List.cons_append] at h
    by_cases hd : fs.isDir loc = true
    · rcases fs.real_or_link (loc ++ [name]) with hn | hr | ⟨target, ht⟩
      · rw [walk_missing hd hn] at h
        cases h
      · rw [walk_real hr] at h ⊢
        exact walk_front h
      · cases links with
        | zero =>
          rw [walk_link_zero ht] at h
          cases h
        | succ links =>
          rw [walk_link_succ ht] at h ⊢
          rw [← List.append_assoc] at h
          exact walk_front h
    · rw [walk_not_dir (by simpa using hd)] at h
      cases h
termination_by links _ _ a => (links, a.length)

/-- A walk that may not create ends at something that is not a link. -/
theorem real_of_walk : ∀ {links : Nat} {loc dir : List ν} {a : List (Component ν)}, fs.Real loc →
    fs.walk false links loc a = some dir → fs.Real dir
  | links, loc, dir, [], hl, h => by
    rw [walk_nil] at h
    cases h
    exact hl
  | links, loc, dir, .rootDir :: a, hl, h => by
    rw [walk_rootDir] at h
    exact real_of_walk (real_of_isDir (isDir_iff.mpr fs.root_dir)) h
  | links, loc, dir, .curDir :: a, hl, h => by
    rw [walk_curDir] at h
    split at h
    · exact real_of_walk hl h
    · cases h
  | links, loc, dir, .parentDir :: a, hl, h => by
    rw [walk_parentDir] at h
    split at h
    · exact real_of_walk (real_of_isDir (isDir_dropLast ‹_›)) h
    · cases h
  | links, loc, dir, .normal name :: a, hl, h => by
    by_cases hd : fs.isDir loc = true
    · rcases fs.real_or_link (loc ++ [name]) with hn | hr | ⟨target, ht⟩
      · rw [walk_missing hd hn] at h
        cases h
      · rw [walk_real hr] at h
        exact real_of_walk hr h
      · cases links with
        | zero =>
          rw [walk_link_zero ht] at h
          cases h
        | succ links =>
          rw [walk_link_succ ht] at h
          exact real_of_walk hl h
    · rw [walk_not_dir (by simpa using hd)] at h
      cases h
termination_by links _ _ a => (links, a.length)

/-- No link is met on the way to a real location. -/
theorem walk_names {names : List ν} {rest : List (Component ν)} (h : fs.Real (loc ++ names)) :
    fs.walk create links loc (names.map .normal ++ rest) = fs.walk create links
    (loc ++ names) rest := by
  induction names generalizing loc with
  | nil => simp
  | cons name names ih =>
    have hstep : fs.Real (loc ++ [name]) := by
      cases names with
      | nil => exact h
      | cons m names =>
        have h' : fs.Real ((loc ++ [name]) ++ m :: names) := by
          rwa [List.append_assoc, List.singleton_append]
        exact real_of_isDir (isDir_of_append h')
    have h' : fs.Real ((loc ++ [name]) ++ names) := by
      rwa [List.append_assoc, List.singleton_append]
    rw [List.map_cons, List.cons_append, walk_real hstep, ih h', List.append_assoc,
      List.singleton_append]

/-- A walk that meets no link stays below the directory it starts in. -/
theorem walk_unlinked {names : List ν}
    (hn : ∀ pre name post, names = pre ++ name :: post →
      ∀ target, fs.node (loc ++ pre ++ [name]) ≠ some (.link target))
    (hw : fs.walk create links loc (names.map .normal) = some dir) : dir = loc ++ names := by
  induction names generalizing loc with
  | nil =>
    rw [List.map_nil, walk_nil] at hw
    rw [List.append_nil, Option.some.inj hw]
  | cons name names ih =>
    have hfirst : ∀ target, fs.node (loc ++ [name]) ≠ some (.link target) := by
      have := hn [] name names rfl
      rwa [List.append_nil] at this
    rw [List.map_cons] at hw
    by_cases hd : fs.isDir loc = true
    · rcases fs.real_or_link (loc ++ [name]) with hmissing | hr | ⟨target, ht⟩
      · rw [walk_missing hd hmissing] at hw
        split at hw
        · rename_i hlast
          cases names with
          | nil => exact (Option.some.inj hw).symm
          | cons m names => simp at hlast
        · cases hw
      · rw [walk_real hr] at hw
        have hrest := ih (fun pre m post he target => by
          have := hn (name :: pre) m post (by rw [he]; rfl) target
          simpa using this) hw
        rw [hrest, List.append_assoc, List.singleton_append]
      · exact absurd ht (hfirst target)
    · rw [walk_not_dir (by simpa using hd)] at hw
      cases hw

theorem walk_toPath {rest : List (Component ν)} (h : fs.Real dir) :
    fs.walk create links loc (toPath dir ++ rest) = fs.walk create links dir rest := by
  rw [toPath, List.cons_append, walk_rootDir, walk_names (by rwa [List.nil_append]),
    List.nil_append]

end FileSystem

end Basis

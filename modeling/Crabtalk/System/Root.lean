import Crabtalk.Basis.FileSystem
import Crabtalk.System.Berm

/-! # The boundary files are granted within

A path is joined to the root, freed of `..` as text, canonicalised as far as it
exists, and refused when it does not start with the root. What the check lets
through is then opened, and opening follows links again.
-/

open Basis

namespace Crabtalk.System.Bound

open Store

abbrev FilePath := List (Component Str)

abbrev Files := FileSystem Str (List UInt8)

/-! ## Paths as text -/

def parseName : Str → Component Str
  | [] => .curDir
  | ['.'] => .curDir
  | ['.', '.'] => .parentDir
  | name => .normal name

def parsePath (text : Str) : FilePath :=
  if text.isEmpty then []
  else
    let names := (text.splitOnP (· = '/')).map parseName
    if text.head? = some '/' then .rootDir :: names else names

def isAbsolute (path : FilePath) : Bool := path.head? = some .rootDir

def pop (path : FilePath) : FilePath :=
  match path.getLast? with
  | some (.normal _) => path.dropLast
  | _ => path

def push (out : FilePath) : Component Str → FilePath
  | .curDir => out
  | .parentDir => pop out
  | .rootDir => [.rootDir]
  | .normal name => out ++ [.normal name]

def normalize (path : FilePath) : FilePath := path.foldl push []

/-! ## Resolving -/

section
variable (fs : Files)

/-- The loop of `settle`, over what may exist, last component first. -/
def settleFrom (path : FilePath) : FilePath → List Str → FilePath
  | [], _ => path
  | last :: parent, missing =>
    match fs.canonicalize (last :: parent).reverse with
    | some real => toPath real ++ missing.map .normal
    | none =>
      match last with
      | .normal name => settleFrom path parent (name :: missing)
      | _ => path

def settle (path : FilePath) : FilePath := settleFrom fs path path.reverse []

def anchor (root : FilePath) : FilePath :=
  match fs.canonicalize root with
  | some real => toPath real
  | none => normalize root

def asked (root : FilePath) (path : Str) : FilePath :=
  normalize (if isAbsolute (parsePath path) then parsePath path else anchor fs root ++
    parsePath path)

def resolve (root : FilePath) (path : Str) : Except Str FilePath :=
  let resolved := settle fs (asked fs root path)
  if (anchor fs root).isPrefixOf resolved then .ok resolved
  else .error (path ++ " is outside the harness root".toList)

end

/-! ## Normal paths -/

inductive Plain : FilePath → Prop
  | nil : Plain []
  | root : Plain [.rootDir]
  | snoc {path : FilePath} (name : Str) : Plain path → Plain (path ++ [.normal name])

theorem plain_pop {path : FilePath} (h : Plain path) : Plain (pop path) := by
  cases h with
  | nil => exact .nil
  | root => exact .root
  | snoc name h =>
    unfold pop
    rw [List.getLast?_concat, List.dropLast_concat]
    exact h

theorem plain_push {out : FilePath} (h : Plain out) (c : Component Str) : Plain (push out c) := by
  cases c with
  | rootDir => exact .root
  | curDir => exact h
  | parentDir => exact plain_pop h
  | normal name => exact .snoc name h

theorem plain_normalize (path : FilePath) : Plain (normalize path) := by
  have hfold : ∀ (l out : FilePath), Plain out → Plain (l.foldl push out) := by
    intro l
    induction l with
    | nil => exact fun _ h => h
    | cons c l ih => exact fun out h => ih _ (plain_push h c)
  exact hfold path [] .nil

theorem Plain.last {path : FilePath} {c : Component Str} (h : Plain (path ++ [c])) :
    (∃ name, c = .normal name ∧ Plain path) ∨ (path = [] ∧ c = .rootDir) := by
  generalize hp : path ++ [c] = p at h
  cases h with
  | nil => simp at hp
  | root =>
    rw [List.append_eq_singleton_iff] at hp
    rcases hp with ⟨hp, hc⟩ | ⟨-, hc⟩
    · exact .inr ⟨hp, (List.cons.inj hc).1⟩
    · cases hc
  | snoc name h =>
    obtain ⟨rfl, hc⟩ := List.append_inj' hp rfl
    exact .inl ⟨name, (List.cons.inj hc).1, h⟩

/-! ## Where a path stops to resolve -/

/-- `front` is the longest part of a path that canonicalises, to `dir`, or no part of it does. -/
structure Stops (fs : Files) (path front : FilePath) (dir : List Str) (tail : FilePath) : Prop where
  split : path = front ++ tail
  located : front = [] ∧ dir = fs.cwd ∨ fs.canonicalize front = some dir
  stuck : ∀ c more rest, tail = c :: more ++ rest → fs.canonicalize (front ++ c :: more) = none

def stopped (front : FilePath) (dir : List Str) (tail : FilePath) : FilePath :=
  if front.isEmpty then tail else toPath dir ++ tail

variable {fs : Files} {path front tail : FilePath} {dir : List Str}

theorem canonicalize_ne_nil (h : fs.canonicalize path = some dir) : path ≠ [] :=
  FileSystem.stat_ne_nil (FileSystem.stat_of_canonicalize h)

theorem settleFrom_stops : ∀ {existing : FilePath} {missing : List Str}, path =
    existing.reverse ++ missing.map .normal →
    Plain existing.reverse →
    (∀ c more rest, missing.map .normal = c :: more ++ rest →
      fs.canonicalize (existing.reverse ++ c :: more) = none) →
    ∃ front dir tail, Stops fs path front dir tail ∧ settleFrom fs path existing missing =
    stopped front dir tail
  | [], missing, hp, _, hs => by
    refine ⟨[], fs.cwd, missing.map .normal, ⟨hp, .inl ⟨rfl, rfl⟩, hs⟩, ?_⟩
    simpa [settleFrom, stopped] using hp
  | last :: parent, missing, hp, hplain, hs => by
    unfold settleFrom
    cases hc : fs.canonicalize (last :: parent).reverse with
    | some real =>
      refine ⟨(last :: parent).reverse, real, missing.map .normal, ⟨hp, .inr hc, hs⟩, ?_⟩
      simp [stopped]
    | none =>
      -- the last component joins what is missing
      have hstuck : ∀ c more rest, last :: missing.map .normal = c :: more ++ rest →
          fs.canonicalize (parent.reverse ++ c :: more) = none := by
        intro c more rest he
        rw [List.cons_append, List.cons.injEq] at he
        obtain ⟨rfl, he⟩ := he
        cases more with
        | nil => rwa [List.reverse_cons] at hc
        | cons c' more =>
          have := hs c' more rest he
          rwa [List.reverse_cons, List.append_assoc, List.singleton_append] at this
      rw [List.reverse_cons] at hplain hp
      rcases hplain.last with ⟨name, rfl, hparent⟩ | ⟨hnil, rfl⟩
      · exact settleFrom_stops (by simpa using hp) hparent hstuck
      · rw [hnil] at hp hstuck
        refine ⟨[], fs.cwd, path, ⟨rfl, .inl ⟨rfl, rfl⟩, ?_⟩, by simp [stopped]⟩
        intro c more rest he
        exact hstuck c more rest (hp.symm.trans he)

theorem settle_stops (h : Plain path) : ∃ front dir tail, Stops fs path front dir tail ∧
    settle fs path = stopped front dir tail := by
  refine settleFrom_stops (by simp) (by rwa [List.reverse_reverse]) ?_
  intro c more rest hn
  cases hn

theorem Stops.not_longer {front' tail' : FilePath} {dir' : List Str} {more : FilePath}
    (h : Stops fs path front dir tail)
    (h' : Stops fs path front' dir' tail') (hf : front' = front ++ more) : more = [] := by
  cases more with
  | nil => rfl
  | cons c more =>
    have hsplit := h.split.symm.trans h'.split
    rw [hf, List.append_assoc, List.append_cancel_left_eq] at hsplit
    have hnone := h.stuck c more tail' hsplit
    rw [← hf] at hnone
    rcases h'.located with ⟨hnil, -⟩ | hsome
    · rw [hf] at hnil
      simp at hnil
    · rw [hnone] at hsome
      cases hsome

theorem Stops.unique {front' tail' : FilePath} {dir' : List Str} (h : Stops fs path front dir tail)
    (h' : Stops fs path front' dir' tail') : front = front' ∧ dir = dir' ∧ tail = tail' := by
  have hfront : front = front' := by
    rcases List.append_eq_append_iff.mp (h.split.symm.trans h'.split)
      with ⟨more, hf, -⟩ | ⟨more, hf, -⟩
    · rw [hf, h.not_longer h' hf, List.append_nil]
    · rw [hf, h'.not_longer h hf, List.append_nil]
  subst hfront
  have htail := h.split.symm.trans h'.split
  rw [List.append_cancel_left_eq] at htail
  refine ⟨rfl, ?_, htail⟩
  rcases h.located with ⟨hnil, hd⟩ | hd <;> rcases h'.located with ⟨hnil', hd'⟩ | hd'
  · rw [hd, hd']
  · exact absurd hnil (canonicalize_ne_nil hd')
  · exact absurd hnil' (canonicalize_ne_nil hd)
  · exact Option.some.inj (hd.symm.trans hd')

/-! ## What is inside -/

def ahead (dir : List Str) : FilePath → List Str
  | .rootDir :: rest => rest.filterMap Component.name?
  | path => dir ++ path.filterMap Component.name?

/-- The canonical root. One that leads nowhere stands for the location it spells. -/
def rooted (fs : Files) (root : FilePath) : List Str :=
  (fs.stat root).getD (ahead fs.cwd (normalize root))

def Inside (fs : Files) (root : FilePath) (loc : List Str) : Prop := rooted fs root <+: loc

theorem filterMap_names (names : List Str) :
    (names.map Component.normal).filterMap Component.name? = names := by
  rw [List.filterMap_map]
  exact List.filterMap_some

theorem ahead_names (names : List Str) : ahead dir (names.map .normal) = dir ++ names := by
  cases names with
  | nil => simp [ahead]
  | cons name names =>
    show dir ++ ((name :: names).map Component.normal).filterMap Component.name? =
        dir ++ name :: names
    rw [filterMap_names]

theorem ahead_prefix {p q : FilePath} (hp : p ≠ []) (h : p <+: q) :
    ahead dir p <+: ahead dir q := by
  cases p with
  | nil => exact absurd rfl hp
  | cons c rest =>
    obtain ⟨more, rfl⟩ := h
    have hrest := (List.prefix_append rest more).filterMap Component.name?
    cases c with
    | rootDir => exact hrest
    | _ =>
      refine (List.prefix_append_right_inj dir).mpr ?_
      exact (List.prefix_append (_ :: rest) more).filterMap Component.name?

/-- A root with a canonical form is compared in it. -/
theorem rooted_eq {root : FilePath} (h : (fs.canonicalize root).isSome ∨ fs.stat root = none) :
    rooted fs root = ahead fs.cwd (anchor fs root) := by
  unfold rooted anchor
  cases hc : fs.canonicalize root with
  | some real =>
    rw [FileSystem.stat_of_canonicalize hc]
    show real = (real.map Component.normal).filterMap Component.name?
    rw [filterMap_names]
  | none =>
    rw [hc] at h
    rw [h.resolve_left (by simp)]
    rfl

theorem resolve_ok {root : FilePath} {text : Str} {p : FilePath} :
    resolve fs root text = .ok p ↔ settle fs (asked fs root text) = p ∧ anchor fs root <+: p := by
  unfold resolve
  simp only [List.isPrefixOf_iff_prefix]
  constructor
  · intro h
    split at h
    · cases h
      exact ⟨rfl, ‹_›⟩
    · cases h
  · rintro ⟨rfl, h⟩
    rw [if_pos h]

/-- Opening what `settle` returns goes on from where the path stopped to resolve. -/
theorem Stops.reach (h : Stops fs path front dir tail) {create : Bool}
    (hp : fs.Opens (stopped front dir tail)) :
    fs.reach create (stopped front dir tail) = fs.walk create fs.maxLinks dir tail := by
  unfold FileSystem.reach
  rw [if_pos hp]
  rcases h.located with ⟨rfl, rfl⟩ | hdir
  · rfl
  · have hne := canonicalize_ne_nil hdir
    have hreal : fs.Real dir := FileSystem.real_of_walk
        (FileSystem.real_of_isDir (FileSystem.isDir_iff.mpr fs.cwd_dir))
      (FileSystem.walk_of_stat (FileSystem.stat_of_canonicalize hdir))
    unfold stopped
    rw [if_neg (by simpa using hne)]
    exact FileSystem.walk_toPath hreal

/-! ## Confinement -/

/-- Whatever is opened under a path `resolve` returned is inside the root. -/
def Confined (fs : Files) (root : FilePath) (text : Str) : Prop :=
  ∀ p, resolve fs root text = .ok p → ∀ create loc, fs.reach create p = some loc →
    Inside fs root loc

/-- A link stands behind the place where the path stops. -/
def Linked (fs : Files) (dir : List Str) (tail : FilePath) : Prop :=
  ∃ pre name post target, tail = pre ++ .normal name :: post ∧
    fs.node (ahead dir (pre ++ [.normal name])) = some (.link target)

/-- The root has no canonical form although it leads somewhere, or it is no path at all. -/
def Unanchored (fs : Files) (root : FilePath) : Prop :=
  fs.canonicalize root = none ∧ ((fs.stat root).isSome ∨ normalize root = [])

/-- The path stops to resolve in front of a link, or the root is not anchored,
and what is opened from there is outside. -/
def Strays (fs : Files) (root : FilePath) (text : Str) : Prop :=
  ∃ front dir tail create loc, Stops fs (asked fs root text) front dir tail ∧
    anchor fs root <+: stopped front dir tail ∧
    (Unanchored fs root ∨ Linked fs dir tail) ∧ fs.Opens (stopped front dir tail) ∧
    fs.walk create fs.maxLinks dir tail = some loc ∧ ¬ Inside fs root loc

/-- What is behind the front of a normal path are names, behind the root directory when the front is empty. -/
theorem Plain.split (h : Plain path) : (∃ names : List Str, path = names.map .normal) ∨
    ∃ names : List Str, path = .rootDir :: names.map .normal := by
  induction h with
  | nil => exact .inl ⟨[], rfl⟩
  | root => exact .inr ⟨[], rfl⟩
  | snoc name _ ih =>
    rcases ih with ⟨names, rfl⟩ | ⟨names, rfl⟩
    · exact .inl ⟨names ++ [name], by simp⟩
    · exact .inr ⟨names ++ [name], by simp⟩

theorem Stops.tail_names (h : Stops fs path front dir tail) (hp : Plain path) (hf : front ≠ []) :
    ∃ names : List Str, tail = names.map .normal := by
  cases front with
  | nil => exact absurd rfl hf
  | cons c front =>
    have hs := h.split
    rcases hp.split with ⟨names, hn⟩ | ⟨names, hn⟩
    · rw [hn] at hs
      obtain ⟨a, b, -, -, hb⟩ := List.map_eq_append_iff.mp hs
      exact ⟨b, hb.symm⟩
    · rw [hn, List.cons_append, List.cons.injEq] at hs
      obtain ⟨a, b, -, -, hb⟩ := List.map_eq_append_iff.mp hs.2
      exact ⟨b, hb.symm⟩

/-- Where no link is left to follow, opening ends where the path says. -/
theorem walk_ahead {create : Bool} {loc : List Str} (hp : Plain path)
    (h : Stops fs path front dir tail)
    (hlink : ¬ Linked fs dir tail) (hw : fs.walk create fs.maxLinks dir tail = some loc) : loc =
    ahead dir tail := by
  have hnames : (∃ names : List Str, tail = names.map .normal) ∨
      ∃ names : List Str, tail = .rootDir :: names.map .normal := by
    by_cases hf : front = []
    · have hs := h.split
      rw [hf, List.nil_append] at hs
      rw [← hs]
      exact hp.split
    · exact .inl (h.tail_names hp hf)
  rcases hnames with ⟨names, rfl⟩ | ⟨names, rfl⟩
  · rw [ahead_names]
    refine FileSystem.walk_unlinked ?_ hw
    rintro pre name post rfl target ht
    refine hlink ⟨pre.map .normal, name, post.map .normal, target, by simp, ?_⟩
    have hdir : ahead dir ((pre ++ [name]).map .normal) = dir ++ (pre ++ [name]) := ahead_names _
    rw [List.map_append, List.map_singleton, ← List.append_assoc] at hdir
    rw [hdir]
    exact ht
  · rw [FileSystem.walk_rootDir] at hw
    have hloc : loc = [] ++ names := FileSystem.walk_unlinked ?_ hw
    · rw [hloc, List.nil_append]
      exact (filterMap_names names).symm
    · rintro pre name post rfl target ht
      refine hlink ⟨.rootDir :: pre.map Component.normal, name, post.map .normal,
        target, by simp, ?_⟩
      have hdir : ahead dir (.rootDir :: pre.map Component.normal ++ [.normal name]) =
          pre ++ [name] := by
        show (pre.map Component.normal ++ [Component.normal name]).filterMap Component.name? = pre ++ [name]
        rw [← List.map_singleton, ← List.map_append, filterMap_names]
      rw [hdir]
      exact ht

theorem inside_of_stopped {root : FilePath} {create : Bool} {loc : List Str} (hplain : Plain path)
    (h : Stops fs path front dir tail) (hp : anchor fs root <+: stopped front dir tail)
    (hroot : ¬ Unanchored fs root)
    (hlink : ¬ Linked fs dir tail) (hw : fs.walk create fs.maxLinks dir tail = some loc) :
    Inside fs root loc := by
  have hloc := walk_ahead hplain h hlink hw
  have hrooted : rooted fs root = ahead fs.cwd (anchor fs root) := by
    apply rooted_eq
    cases hc : fs.canonicalize root with
    | some real => exact .inl rfl
    | none =>
      refine .inr (Option.not_isSome_iff_eq_none.mp fun hs => ?_)
      exact hroot ⟨hc, .inl hs⟩
  have hanchor : anchor fs root ≠ [] := by
    unfold anchor
    cases hc : fs.canonicalize root with
    | some real => simp [toPath]
    | none => exact fun hn => hroot ⟨hc, .inr hn⟩
  unfold Inside
  rw [hrooted, hloc]
  have hahead : ahead fs.cwd (stopped front dir tail) = ahead dir tail := by
    rcases h.located with ⟨rfl, rfl⟩ | hdir
    · rfl
    · have hf := canonicalize_ne_nil hdir
      obtain ⟨names, rfl⟩ := h.tail_names hplain hf
      rw [ahead_names, stopped, if_neg (by simpa using hf)]
      show (dir.map Component.normal ++ names.map Component.normal).filterMap Component.name? = dir ++ names
      rw [← List.map_append, filterMap_names]
  rw [← hahead]
  exact ahead_prefix hanchor hp

theorem confined_iff (fs : Files) (root : FilePath) (text : Str) : Confined fs root text ↔
    ¬ Strays fs root text := by
  have hplain : Plain (asked fs root text) := plain_normalize _
  obtain ⟨front, dir, tail, hstop, hsettle⟩ : ∃ front dir tail, Stops fs _ front dir tail ∧ _ :=
    settle_stops hplain
  constructor
  · rintro hc ⟨front', dir', tail', create, loc, hstop', hp, -, hopen, hw, hout⟩
    obtain ⟨rfl, rfl, rfl⟩ := hstop.unique hstop'
    exact hout (hc _ (resolve_ok.mpr ⟨hsettle, hp⟩) create loc (by rwa [hstop.reach hopen]))
  · intro hs p hp create loc hr
    obtain ⟨rfl, hpre⟩ := resolve_ok.mp hp
    rw [hsettle] at hpre hr
    have hopen : fs.Opens (stopped front dir tail) := by
      by_contra hn
      rw [FileSystem.reach, if_neg hn] at hr
      cases hr
    rw [hstop.reach hopen] at hr
    by_cases hcause : Unanchored fs root ∨ Linked fs dir tail
    · by_contra hout
      exact hs ⟨front, dir, tail, create, loc, hstop, hpre, hcause, hopen, hr, hout⟩
    · exact inside_of_stopped hplain hstop hpre (fun h => hcause (.inl h))
        (fun h => hcause (.inr h)) hr

theorem root_inside {root : FilePath} {text : Str} (hs : ¬ Strays fs root text) :
    Confined fs root text :=
  (confined_iff fs root text).mpr hs

/-! ## What a guest may call -/

def maxFileSize : Nat := 50 * 1024 * 1024

def content (fs : Files) (path : FilePath) : Option (List UInt8) :=
  match (fs.reach false path).bind fs.node with
  | some (.file bytes) => some bytes
  | _ => none

def read (fs : Files) (root : FilePath) (text : Str) : Except Error (List UInt8) :=
  match resolve fs root text with
  | .error e => .error (.bail e)
  | .ok path =>
    let size := ((content fs path).map List.length).getD 0
    if size > maxFileSize then
      .error (.bail ("file is too large (".toList ++ Nat.toDigits 10 size ++
        " bytes, max 52428800)".toList))
    else
      match content fs path with
      | some bytes => .ok bytes
      | none => .error .io

def write (fs : Files) (root : FilePath) (text : Str) : Except Error (List Str) :=
  match resolve fs root text with
  | .error e => .error (.bail e)
  | .ok path =>
    match fs.reach true path with
    | some loc => if fs.isDir loc then .error .io else .ok loc
    | none => .error .io

theorem read_inside {root : FilePath} {text : Str} {bytes : List UInt8} (hs : ¬ Strays fs root text)
    (h : read fs root text = .ok bytes) : ∃ loc, Inside fs root loc ∧
    fs.node loc = some (.file bytes) := by
  unfold read at h
  split at h
  · cases h
  · rename_i p hp
    dsimp only at h
    split at h
    · cases h
    · split at h
      · rename_i b hb
        cases h
        unfold content at hb
        split at hb
        · rename_i found hf
          cases hb
          obtain ⟨loc, hr, hn⟩ := Option.bind_eq_some_iff.mp hf
          exact ⟨loc, (root_inside hs) p hp false loc hr, hn⟩
        · cases hb
      · cases h

theorem write_inside {root : FilePath} {text : Str} {loc : List Str} (hs : ¬ Strays fs root text)
    (h : write fs root text = .ok loc) : Inside fs root loc := by
  unfold write at h
  split at h
  · cases h
  · rename_i p hp
    split at h
    · rename_i l hl
      split at h
      · cases h
      · cases h
        exact (root_inside hs) p hp true loc hl
    · cases h

structure Contained (fs : Files) (root : FilePath) (text : Str) : Prop where
  opened : Confined fs root text
  read : ∀ bytes, read fs root text = .ok bytes → ∃ loc, Inside fs root loc ∧
    fs.node loc = some (.file bytes)
  write : ∀ loc, write fs root text = .ok loc → Inside fs root loc

/-- A path is contained unless it strays. -/
theorem root_confines (fs : Files) (root : FilePath) (text : Str) : Contained fs root text ↔
    ¬ Strays fs root text := by
  constructor
  · intro hc
    exact (confined_iff fs root text).mp hc.opened
  · intro hs
    exact ⟨root_inside hs, fun bytes h => read_inside hs h, fun loc h => write_inside hs h⟩

def danglingLink : Files where
  node loc :=
    if loc = [] then some .dir
    else if loc = ["r".toList] then some .dir
    else if loc = ["r".toList, "link".toList] then some (.link [.rootDir, .normal "out".toList])
    else none
  cwd := []
  maxLinks := 40
  unresolved _ := false
  unopened _ := false
  root_dir := rfl
  cwd_dir := rfl
  parent_dir := by
    intro loc name x h
    split at h
    · rename_i hnil
      simp at hnil
    · split at h
      · rename_i hr
        have hloc : loc = [] := by simpa using congrArg List.dropLast hr
        rw [hloc]
        rfl
      · split at h
        · rename_i hl
          have hloc : loc = ["r".toList] := by simpa using congrArg List.dropLast hl
          rw [hloc]
          rfl
        · cases h

theorem link_escapes : ¬ Contained danglingLink (parsePath "/r".toList) "link".toList := by
  intro h
  have hin := h.opened [.rootDir, .normal "r".toList, .normal "link".toList]
      (by rw [resolve_ok]; decide) true ["out".toList] (by decide)
  revert hin
  unfold Inside
  decide

/-! ## Session roots -/

def renderPath : FilePath → Str
  | .rootDir :: rest => '/' :: List.intercalate ['/'] (rest.filterMap Component.name?)
  | path => List.intercalate ['/'] (path.filterMap Component.name?)

def resolveText (fs : Files) (bound session : Str) : Except Str Str :=
  (resolve fs (parsePath bound) session).map renderPath

/-- A session root is bound to what `resolve` returned inside the declared one, unless that is fixed. -/
theorem bind_resolves {ε : Type} {machine : Machine ε} (hm : machine.resolve = resolveText fs)
    {declared : Option Root}
    {session bound : Str} (h : System.bind machine declared (some session) = .ok (some bound)) :
    (∃ path, declared = some (.fixed path)) ∨
    ∃ outer p, (declared = some (.session outer) ∨ declared = some .home ∧
      machine.home = some outer) ∧
      resolve fs (parsePath outer) session = .ok p ∧ bound = renderPath p := by
  have hnarrow : ∀ outer, System.bind.narrow machine (some session) outer = .ok (some bound) →
      ∃ p, resolve fs (parsePath outer) session = .ok p ∧ bound = renderPath p := by
    intro outer hn
    unfold System.bind.narrow at hn
    simp only [hm, resolveText] at hn
    cases hr : resolve fs (parsePath outer) session with
    | error e =>
      rw [hr] at hn
      cases hn
    | ok p =>
      rw [hr] at hn
      cases hn
      exact ⟨p, rfl, rfl⟩
  unfold System.bind at h
  split at h
  · cases h
  · exact .inl ⟨_, rfl⟩
  · rename_i outer
    obtain ⟨p, hp, hb⟩ := hnarrow outer h
    exact .inr ⟨outer, p, .inl rfl, hp, hb⟩
  · split at h
    · rename_i outer hhome
      obtain ⟨p, hp, hb⟩ := hnarrow outer h
      exact .inr ⟨outer, p, .inr ⟨rfl, hhome⟩, hp, hb⟩
    · cases h

end Crabtalk.System.Bound

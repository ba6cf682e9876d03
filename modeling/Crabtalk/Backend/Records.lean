import Crabtalk.Backend.Folder
import Crabtalk.Basis.Codes
import Crabtalk.Basis.Service

/-!
# Documents in a directory

A document has a file of its own, and the file the document's name. It is
replaced through a temporary file whose name no document has, so it is whole
wherever a process dies, and a directory that lists its documents needs no
index of them.
-/

open Basis Std

namespace Crabtalk.Backend

open Store

abbrev Docs (α : Type) := ExtTreeMap Str α compare

/-- Documents of one kind, where they are and how they are written. No temporary file looks like one
of them. -/
structure Records (α : Type) where
  dir : Str
  suffix : Str
  json : α → Bytes
  parse : Bytes → Option α
  parse_json : ∀ v, parse (json v) = some v
  tmp_apart : ∀ name stem, tmpName name ≠ stem ++ suffix

namespace Records

variable {α : Type} (c : Records α)

def path (name : Str) : FilePath := [.normal c.dir, .normal (encode name ++ c.suffix)]

def load (name : Str) : DirM (Option α) := files (readJson c.parse (c.path name))

def save (name : Str) (v : α) : DirM Unit := files (writeJson c.json (c.path name) v)

def forget (name : Str) : DirM Bool := do
  let r ← (removeFile (c.path name)).attempt
  return r.isOk

def names : DirM (List Str) := namesIn [.normal c.dir] c.suffix

/-- The files a document is written to and through have names that are taken. -/
def Fits (name : Str) : Prop :=
  NameLimit.fits (encode name ++ c.suffix) = true ∧
    NameLimit.fits (tmpName (encode name ++ c.suffix)) = true

instance (name : Str) : Decidable (c.Fits name) := inferInstanceAs (Decidable (_ ∧ _))

theorem fits_of_length {name : Str} (h : 3 * (utf8 name).length + (utf8 c.suffix).length ≤ 251) :
    c.Fits name := by
  have hname : (utf8 (encode name ++ c.suffix)).length ≤ 251 := by
    have hlen := length_encode name
    rw [utf8_append, List.length_append]
    omega
  have htmp := length_tmpName (encode name ++ c.suffix)
  exact ⟨decide_eq_true (by omega), decide_eq_true (by omega)⟩

structure Shelved (m : Docs α) (t : Disk) : Prop where
  opened : t.isDir [c.dir] = true
  flat : ∀ name, t.isDir [c.dir, name] = false
  doc : ∀ name, t.fileAt [c.dir, encode name ++ c.suffix] = m[name]?.map c.json
  named : ∀ stem b, t.fileAt [c.dir, stem ++ c.suffix] = some b → ∃ name, stem = encode name

/-! ## Places -/

theorem tmpName_ne {suffix : Str} (h : suffix.getLast? ≠ some 'p') (hne : suffix ≠ [])
    (name stem : Str) : tmpName name ≠ stem ++ suffix := by
  intro he
  have hlast := congrArg List.getLast? he
  rw [tmpName, List.getLast?_append_of_ne_nil _ (by decide), List.getLast?_append_of_ne_nil _ hne] at hlast
  exact h hlast.symm

variable {c} {m : Docs α} {t t' : Disk} {name : Str}

theorem locate_dir : t.locate [.normal c.dir] = some [c.dir] := by
  show t.walk [] _ = _
  rw [FileTree.walk_cons, if_pos FileTree.isDir_nil]
  rfl

theorem Shelved.locate (h : c.Shelved m t) (file : Str) :
    t.locate [.normal c.dir, .normal file] = some [c.dir, file] :=
  locate_concat locate_dir h.opened file

/-- What leaves the directories and the files of documents alone. -/
theorem Shelved.congr (h : c.Shelved m t) (hdir : ∀ l, t'.isDir l = t.isDir l)
    (hfile : ∀ stem, t'.fileAt [c.dir, stem ++ c.suffix] = t.fileAt [c.dir, stem ++ c.suffix]) :
    c.Shelved m t' where
  opened := by rw [hdir, h.opened]
  flat name := by rw [hdir, h.flat]
  doc name := by rw [hfile, h.doc]
  named stem b hb := h.named stem b (by rw [← hfile, hb])

theorem Shelved.insert (h : c.Shelved m t) {v : α} (hdir : ∀ l, t'.isDir l = t.isDir l)
    (hfile : ∀ stem, t'.fileAt [c.dir, stem ++ c.suffix] =
      if stem = encode name then some (c.json v) else t.fileAt [c.dir, stem ++ c.suffix]) :
      c.Shelved (m.insert name v) t' where
  opened := by rw [hdir, h.opened]
  flat name := by rw [hdir, h.flat]
  doc a := by
    rw [hfile, find_insert]
    by_cases ha : name = a
    · rw [if_pos ha, if_pos (by rw [ha]), Option.map_some]
    · rw [if_neg ha, if_neg fun he => ha (encode_inj he.symm), h.doc]
  named stem b hb := by
    rw [hfile] at hb
    by_cases hs : stem = encode name
    · exact ⟨name, hs⟩
    · rw [if_neg hs] at hb
      exact h.named stem b hb

theorem Shelved.erase (h : c.Shelved m t)
    (hnode : ∀ l, t'.node l = if [c.dir, encode name ++ c.suffix] <+: l then none else t.node l) :
    c.Shelved (m.erase name) t' := by
  have hat : ∀ stem, t'.fileAt [c.dir, stem ++ c.suffix] = if stem = encode name then none
      else t.fileAt [c.dir, stem ++ c.suffix] := by
    intro stem
    have hn := hnode [c.dir, stem ++ c.suffix]
    by_cases hs : stem = encode name
    · rw [hs, if_pos (List.prefix_refl _)] at hn
      rw [if_pos hs, hs, FileTree.fileAt, hn]
    · rw [if_neg (by simpa [List.prefix_cons_iff] using Ne.symm hs)] at hn
      rw [if_neg hs]
      exact FileTree.fileAt_congr hn
  refine ⟨?_, fun file => ?_, fun a => ?_, fun stem b hb => ?_⟩
  · rw [FileTree.isDir, hnode, if_neg (by simp [List.prefix_cons_iff])]
    exact h.opened
  · have hflat := h.flat file
    rw [FileTree.isDir] at hflat ⊢
    rw [hnode [c.dir, file]]
    by_cases hp : [c.dir, encode name ++ c.suffix] <+: [c.dir, file]
    · rw [if_pos hp]
    · rw [if_neg hp]
      exact hflat
  · rw [hat, find_erase, h.doc]
    by_cases ha : name = a
    · rw [if_pos ha, if_pos (by rw [ha]), Option.map_none]
    · rw [if_neg ha, if_neg fun he => ha (encode_inj he.symm)]
  · rw [hat] at hb
    by_cases hs : stem = encode name
    · exact ⟨name, hs⟩
    · rw [if_neg hs] at hb
      exact h.named stem b hb

/-- Other files than documents and temporary ones are as they were. -/
def Beside (c : Records α) (t t' : Disk) : Prop :=
  ∀ file, (∀ stem, file ≠ stem ++ c.suffix) → (∀ name, file ≠ tmpName name) →
    t'.fileAt [c.dir, file] = t.fileAt [c.dir, file]

/-! ## Reading -/

section
variable {F : Prop} {order : List Str → List Str} {I : Disk → Prop} {s : Shelf}

theorem during_readJson {t : Disk} {path : FilePath} {found : Option α} {Q : Option α → Disk → Prop}
    {E : Error → Disk → Prop} (hI : I t)
    (hfile : (t.locate path).bind t.fileAt = found.map c.json) (hQ : Q found t)
    (hnone : F → Q none t) :
    Prog.during F disk I (readJson c.parse path) Q E t := by
  unfold readJson
  rw [Prog.during_bind, Prog.during_attempt]
  refine ⟨hI, ?_, fun hf _ => hnone hf⟩
  unfold Basis.wp
  simp only [disk, hfile]
  cases found with
  | none => exact hQ
  | some v =>
    show Prog.during F disk I _ Q E t
    simp only [c.parse_json]
    exact hQ

/-- What is read is the document, or a file that could not be read is taken for one that is not there. -/
theorem during_load (hI : I s.tree) (h : c.Shelved m s.tree) :
    Prog.during F (shelf order) (fun s' => I s'.tree) (c.load name)
      (fun found s' => s'.tree = s.tree ∧ (found = m[name]? ∨ F ∧ found = none))
      (fun _ _ => False) s := by
  refine during_files (Q := fun found t => t = s.tree ∧ (found = m[name]? ∨ F ∧ found = none))
    (E := fun _ _ => False) ?_
  refine during_readJson hI ?_ ⟨rfl, .inl rfl⟩ fun hf => ⟨rfl, .inr ⟨hf, rfl⟩⟩
  rw [path, h.locate, Option.bind_some, h.doc]

/-! ## Writing -/

def tmpPath (c : Records α) (name : Str) : FilePath :=
  [.normal c.dir, .normal (tmpName (encode name ++ c.suffix))]

theorem Shelved.write_tmp (h : c.Shelved m t) {bytes : Bytes}
    (hw : (t.locate (c.tmpPath name)).bind (fun loc => t.writeFile loc bytes) = some t') :
    c.Shelved m t' := by
  rw [tmpPath, h.locate, Option.bind_some] at hw
  refine h.congr (fun l => FileTree.isDir_writeFile hw) fun stem => ?_
  rw [FileTree.fileAt_writeFile hw, if_neg]
  intro he
  exact c.tmp_apart _ stem (by simpa using he.symm)

/-- A document is in place, or the one before it still is and its name is too long or an operation failed. -/
theorem during_save {v : α} (h : c.Shelved m s.tree) (hI : ∀ t, c.Shelved m t → I t) :
    Prog.during F (shelf order) (fun s' => I s'.tree) (c.save name v)
      (fun _ s' => c.Fits name ∧ c.Shelved (m.insert name v) s'.tree ∧ c.Beside s.tree s'.tree)
      (fun e s' => (¬ c.Fits name ∧ e = .io ∨ F) ∧ c.Shelved m s'.tree) s := by
  refine during_files (Q := fun _ t => c.Fits name ∧ c.Shelved (m.insert name v) t ∧
    c.Beside s.tree t)
    (E := fun e t => (¬ c.Fits name ∧ e = .io ∨ F) ∧ c.Shelved m t) ?_
  have hmake : s.tree.makeDirs [] [.normal c.dir] = some s.tree :=
    FileTree.makeDirs_opened (l := [c.dir]) locate_dir h.opened
  show Prog.during F disk I (createDirAll [.normal c.dir] >>= fun _ =>
      Backend.write (c.tmpPath name) (c.json v) >>= fun _ =>
    rename (c.tmpPath name) (c.path name)) _ _ s.tree
  rw [Prog.during_bind]
  refine during_createDirAll (hI _ h) hmake (fun hf _ => ⟨.inr hf, h⟩) ?_
  rw [Prog.during_bind]
  cases htmp : NameLimit.fits (tmpName (encode name ++ c.suffix)) with
  | false =>
    have hunfit : FileTree.lastFits [c.dir, tmpName (encode name ++ c.suffix)] = false := htmp
    have hw : (s.tree.locate (c.tmpPath name)).bind (fun loc => s.tree.writeFile loc (c.json v)) = none := by
      rw [tmpPath, h.locate]
      exact FileTree.writeFile_unfit hunfit _
    have hnot : ¬ c.Fits name := fun hfits => Bool.false_ne_true (htmp.symm.trans hfits.2)
    exact during_write_none (hI _ h) hw fun e he => ⟨he.imp_left fun he => ⟨hnot, he⟩, h⟩
  | true =>
    obtain ⟨t₁, h₁⟩ : ∃ t₁, s.tree.writeFile [c.dir, tmpName (encode name ++ c.suffix)]
        (c.json v) = some t₁ :=
      FileTree.writeFile_some (by simp) h.opened (h.flat _) htmp _
    have hw : (s.tree.locate (c.tmpPath name)).bind (fun loc => s.tree.writeFile loc (c.json v)) =
        some t₁ := by
      rw [tmpPath, h.locate]
      exact h₁
    have ht := h.write_tmp hw
    refine during_write (hI _ h) hw (fun hf _ => ⟨.inr hf, h⟩) ?_
    have hsrc : t₁.fileAt [c.dir, tmpName (encode name ++ c.suffix)] = some (c.json v) := by
      rw [FileTree.fileAt_writeFile h₁, if_pos rfl]
    cases hname : NameLimit.fits (encode name ++ c.suffix) with
    | false =>
      have hunfit : FileTree.lastFits [c.dir, encode name ++ c.suffix] = false := hname
      have hm : (t₁.locate (c.tmpPath name)).bind
          (fun a => (t₁.locate (c.path name)).bind fun b => t₁.moveFile a b) = none := by
        rw [tmpPath, path, ht.locate, ht.locate]
        exact FileTree.moveFile_unfit hunfit
      have hnot : ¬ c.Fits name := fun hfits => Bool.false_ne_true (hname.symm.trans hfits.1)
      -- what was written stays, under a name that is no document's
      exact during_rename_none (hI _ ht) hm fun e he => ⟨he.imp_left fun he => ⟨hnot, he⟩, ht⟩
    | true =>
      obtain ⟨t₂, h₂⟩ : ∃ t₂, t₁.moveFile [c.dir, tmpName (encode name ++ c.suffix)]
          [c.dir, encode name ++ c.suffix] = some t₂ :=
        FileTree.moveFile_some hsrc (by simp) ht.opened (ht.flat _) hname
      have hm : (t₁.locate (c.tmpPath name)).bind
          (fun a => (t₁.locate (c.path name)).bind fun b => t₁.moveFile a b) = some t₂ := by
        rw [tmpPath, path, ht.locate, ht.locate]
        exact h₂
      refine during_rename (hI _ ht) hm (fun hf _ => ⟨.inr hf, ht⟩)
        ⟨⟨hname, htmp⟩, ht.insert (fun l => FileTree.isDir_moveFile h₂) fun stem => ?_,
          fun file hdoc hother => ?_⟩
      · rw [FileTree.fileAt_moveFile h₂, hsrc]
        by_cases hs : stem = encode name
        · rw [if_pos hs, if_pos (by rw [hs])]
        · rw [if_neg hs, if_neg (by simpa using hs), if_neg]
          intro he
          exact c.tmp_apart _ stem (by simpa using he.symm)
      · have hne₁ : ([c.dir, file] : List Str) ≠ [c.dir, encode name ++ c.suffix] := by
          simpa using hdoc _
        have hne₂ : ([c.dir, file] : List Str) ≠ [c.dir, tmpName (encode name ++ c.suffix)] := by
          simpa using hother _
        rw [FileTree.fileAt_moveFile h₂, if_neg hne₁, if_neg hne₂,
          FileTree.fileAt_writeFile h₁, if_neg hne₂]

/-! ## Removing -/

theorem during_forget {E : Error → Shelf → Prop} (h : c.Shelved m s.tree) (hI : I s.tree) :
    Prog.during F (shelf order) (fun s' => I s'.tree) (c.forget name)
      (fun was s' => (was = m[name]?.isSome ∧ c.Shelved (m.erase name) s'.tree ∧
        c.Beside s.tree s'.tree) ∨ F ∧ was = false ∧ s'.tree = s.tree)
      E s := by
  unfold forget
  rw [Prog.during_bind]
  refine during_removeFile (Q :=
    fun r t => (r.isOk = m[name]?.isSome ∧ c.Shelved (m.erase name) t ∧ c.Beside s.tree t) ∨ F ∧
    r.isOk = false ∧ t = s.tree)
    hI (h.locate _) (fun t' b hb hnode => .inl ⟨?_, h.erase hnode, fun file hfile _ => ?_⟩)
      (fun hb => .inl ?_) fun hf _ => .inr ⟨hf, rfl, rfl⟩
  · have hdoc := h.doc name
    rw [hb, eq_comm, Option.map_eq_some_iff] at hdoc
    obtain ⟨v, hv, -⟩ := hdoc
    rw [hv]
    rfl
  · refine FileTree.fileAt_congr ((hnode _).trans (if_neg ?_))
    simpa [List.prefix_cons_iff] using Ne.symm (hfile _)
  · have hdoc := h.doc name
    rw [hb, eq_comm, Option.map_eq_none_iff] at hdoc
    rw [hdoc, erase_of_none hdoc]
    exact ⟨rfl, h, fun _ _ _ => rfl⟩

/-! ## Listing -/

theorem mem_children (h : c.Shelved m s.tree) {file : Str} : file ∈ s.children [c.dir] ↔
    ∃ b, s.tree.fileAt [c.dir, file] = some b := by
  have hflat := h.flat file
  rw [Listed.mem_children]
  show s.tree.node [c.dir, file] ≠ none ↔ _
  constructor
  · intro hn
    obtain ⟨x, hx⟩ := Option.ne_none_iff_exists'.mp hn
    cases x with
    | dir =>
      rw [FileTree.isDir_iff.mpr hx] at hflat
      cases hflat
    | file b => exact ⟨b, FileTree.fileAt_iff.mpr hx⟩
  · rintro ⟨b, hb⟩
    rw [FileTree.fileAt_iff.mp hb]
    exact fun he => by cases he

/-- A file that counts as a document's is the document's. -/
theorem decoded_file (h : c.Shelved m s.tree) {file : Str} (hfile : file ∈ s.children [c.dir])
    (hname : (file.dropSuffix? c.suffix).map decode = some name) : file = encode name ++ c.suffix := by
  obtain ⟨b, hb⟩ := (mem_children h).mp hfile
  obtain ⟨stem, hstem, hdecode⟩ := Option.map_eq_some_iff.mp hname
  obtain ⟨suffix, rfl, hs⟩ := List.dropSuffix?_eq_some_iff.mp hstem
  obtain rfl := eq_of_beq hs
  obtain ⟨name', rfl⟩ := h.named stem b hb
  rw [decode_encode] at hdecode
  rw [hdecode]

theorem mem_decoded (h : c.Shelved m s.tree) (hperm : ∀ l, (order l).Perm l) :
    name ∈ decoded c.suffix (order (s.children [c.dir])) ↔ name ∈ m.keys := by
  rw [decoded, List.mem_filterMap, ExtTreeMap.mem_keys, ← ExtTreeMap.isSome_getElem?_iff_mem]
  have hdoc := h.doc name
  constructor
  · rintro ⟨file, hfile, hname⟩
    rw [(hperm _).mem_iff] at hfile
    obtain rfl := decoded_file h hfile hname
    obtain ⟨b, hb⟩ := (mem_children h).mp hfile
    rw [hb, eq_comm, Option.map_eq_some_iff] at hdoc
    obtain ⟨v, hv, -⟩ := hdoc
    rw [hv]
    rfl
  · intro hm
    obtain ⟨v, hv⟩ := Option.isSome_iff_exists.mp hm
    rw [hv] at hdoc
    refine ⟨encode name ++ c.suffix, (hperm _).mem_iff.mpr ((mem_children h).mpr ⟨_, hdoc⟩), ?_⟩
    rw [List.dropSuffix?_eq_some_iff.mpr ⟨c.suffix, rfl, by simp⟩, Option.map_some, decode_encode]

theorem nodup_decoded (h : c.Shelved m s.tree) (hperm : ∀ l, (order l).Perm l) :
    (decoded c.suffix (order (s.children [c.dir]))).Nodup := by
  refine List.pairwise_filterMap.mpr (((hperm _).nodup_iff.mpr (s.nodup_children _)).imp_of_mem
    fun {a b} ha hb hne x hx y hy hxy => hne ?_)
  rw [(hperm _).mem_iff] at ha hb
  rw [decoded_file h ha hx, decoded_file h hb hy, hxy]

theorem sortNames_eq {l : List Str} (hl : l.Nodup) (hmem : ∀ n, n ∈ l ↔ n ∈ m.keys) :
    sortNames l = m.keys := by
  have total : Std.Total fun a b : Str => compare a b ≠ .gt := ⟨total_cmp⟩
  have trans : IsTrans Str fun a b => compare a b ≠ .gt := ⟨fun _ _ _ => trans_cmp⟩
  have irr : Std.Irrefl fun a b : Str => compare a b = .lt := ⟨lt_irrefl_cmp⟩
  have anti : Std.Antisymm fun a b : Str => compare a b = .lt :=
    ⟨fun _ _ h h' => absurd h' (lt_asymm_cmp h)⟩
  have hperm : (sortNames l).Perm l := List.perm_insertionSort _ l
  have hstrict : (sortNames l).Pairwise fun a b => compare a b = .lt := by
    refine ((List.pairwise_insertionSort (fun a b => compare a b ≠ .gt) l).and
      (hperm.nodup_iff.mpr hl)).imp fun {a b} hab => ?_
    cases hc : compare a b with
    | lt => rfl
    | eq => exact absurd (LawfulEqCmp.eq_of_compare hc) hab.2
    | gt => exact absurd hc hab.1
  exact hstrict.eq_of_mem_iff ExtTreeMap.ordered_keys fun {n} => hperm.mem_iff.trans (hmem n)

theorem during_names {J : Shelf → Prop} (h : c.Shelved m s.tree)
    (hperm : ∀ l, (order l).Perm l) (hJ : J s) :
    Prog.during F (shelf order) J c.names (fun names s' => s' = s ∧
      (names = m.keys ∨ F ∧ names = [])) (fun _ s' => F ∧ s' = s) s := by
  refine during_namesIn hJ locate_dir h.opened ⟨rfl, .inl ?_⟩ (fun hf => ⟨rfl, .inr ⟨hf, rfl⟩⟩)
    fun hf _ => ⟨hf, rfl⟩
  exact sortNames_eq (nodup_decoded h hperm) fun n => mem_decoded h hperm

end

/-! ## What the operations ask for -/

/-- Nothing is written but through a document's temporary file. -/
def Modest (c : Records α) : DirOp → Prop
  | .fs (.write path _) => ∃ name, path = c.tmpPath name
  | .fs (.append _ _) => False
  | _ => True

theorem modest_load (order : List Str → List Str) (name : Str) :
    Prog.Footprint (shelf order) c.Modest (c.load name) := by
  refine Prog.Footprint.embed (views_shelf order) (P := fun o => c.Modest (.fs o)) (fun _ ho => ho)
    (.bind (.attempt (.perform trivial)) fun r => ?_)
  cases r with
  | error e => trivial
  | ok bytes =>
    dsimp only
    split
    · trivial
    · trivial

theorem modest_save (order : List Str → List Str) (name : Str) (v : α) :
    Prog.Footprint (shelf order) c.Modest (c.save name v) :=
  Prog.Footprint.embed (views_shelf order) (P := fun o => c.Modest (.fs o)) (fun _ ho => ho)
    (.bind (.perform trivial) fun _ => .bind (.perform ⟨name, rfl⟩) fun _ => .perform trivial)

theorem modest_forget (order : List Str → List Str) (name : Str) :
    Prog.Footprint (shelf order) c.Modest (c.forget name) :=
  .bind (.attempt (.perform trivial)) fun _ => trivial

theorem modest_names (order : List Str → List Str) :
    Prog.Footprint (shelf order) c.Modest c.names := by
  refine .bind (.attempt (.perform trivial)) fun r => ?_
  cases r with
  | error e => trivial
  | ok _ => exact .bind (.perform trivial) fun _ => trivial

theorem bails_load (order : List Str → List Str) (name : Str) :
    Prog.Bails (Backend.torn order) (c.load name) := by
  refine Prog.Bails.embed (.bind (.attempt fun _ _ ht => ht) fun r => ?_)
  cases r with
  | error e => trivial
  | ok bytes =>
    dsimp only
    split
    · trivial
    · trivial

theorem bails_save (order : List Str → List Str) (name : Str) (v : α) :
    Prog.Bails (Backend.torn order) (c.save name v) :=
  Prog.Bails.embed (.bind (.perform _) fun _ => .bind (.perform _) fun _ => .perform _)

theorem bails_forget (order : List Str → List Str) (name : Str) :
    Prog.Bails (Backend.torn order) (c.forget name) :=
  .bind (.attempt fun _ _ ht => ht) fun _ => trivial

theorem bails_names (order : List Str → List Str) : Prog.Bails (Backend.torn order) c.names := by
  refine .bind (.attempt fun _ _ ht => ht) fun r => ?_
  cases r with
  | error e => trivial
  | ok _ => exact .bind (.perform _) fun _ => trivial

theorem Shelved.torn {order : List Str → List Str} {o : DirOp} {s s' : Shelf}
    (h : c.Shelved m s.tree) (ho : c.Modest o)
    (ht : torn order o s s') : c.Shelved m s'.tree := by
  cases o with
  | fs op =>
    cases op with
    | write path bytes =>
      obtain ⟨name, rfl⟩ := ho
      obtain ⟨n, hn⟩ := ht
      exact h.write_tmp (settle_eq_ok (ok_tree hn))
    | append path bytes => exact ho.elim
    | _ => exact ht.elim
  | _ => exact ht.elim

end Records

end Crabtalk.Backend

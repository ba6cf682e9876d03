import Crabtalk.Backend.Isolated
import Crabtalk.Backend.Plain
import Crabtalk.Backend.Records
import Crabtalk.Backend.Search
import Crabtalk.Store.Memory

/-!
# Memory entries, one file each

What a process does to the entries of a directory is done to a map from names
to entries. An operation of the file system may fail and the process may die
anywhere: an entry that is found is one that was put, whole, and a change that
is not answered for was made or was not.
-/

open Basis Std

namespace Crabtalk.Backend

open Store Backend.Search

inductive MemoryRequest
  | memory (name : Str)
  | memoryNames
  | memoryNamesUnder (stem : Str)
  | putMemory (entry : MemoryEntry)
  | removeMemory (name : Str)
  | searchMemory (query : Str) (limit : Nat)

inductive MemoryAnswer
  | entry (found : Option MemoryEntry)
  | names (names : List Str)
  | put
  | removed (was : Bool)
  deriving DecidableEq

section
variable {R : Type} [Field R] [LinearOrder R] [TextStd] (ln : R → R)

def hits (docs : List (Str × MemoryEntry)) (query : Str) (limit : Nat) : List Str :=
  (rank ln (docs.map fun e => ⟨e.2.document, 1⟩) query limit).filterMap fun hit =>
    (docs.map (·.1))[hit.1]?

/-! ## The interface over the directory -/

variable (c : Records MemoryEntry)

def readEntries : List Str → DirM (List (Str × MemoryEntry))
  | [] => return []
  | name :: names => do
    let found ← c.load name
    let rest ← readEntries names
    return (found.map fun e => (name, e)).toList ++ rest

def searchMemory (query : Str) (limit : Nat) : DirM (List Str) := do
  let docs ← readEntries c (← c.names)
  return hits ln docs query limit

def MemoryRequest.exec : MemoryRequest → DirM MemoryAnswer
  | memory name => do
    let found ← c.load name
    return .entry found
  | memoryNames => do
    let names ← c.names
    return .names names
  | memoryNamesUnder stem => do
    let names ← c.names
    return .names (names.filter fun name => stem.isPrefixOf name)
  | putMemory entry => do
    c.save entry.name entry
    return .put
  | removeMemory name => do
    let was ← c.forget name
    return .removed was
  | searchMemory query limit => do
    let names ← Backend.searchMemory ln c query limit
    return .names names

/-! ## What it stands for -/

def MemoryRequest.answer (m : Docs MemoryEntry) : MemoryRequest → MemoryAnswer
  | memory name => .entry m[name]?
  | memoryNames => .names m.keys
  | memoryNamesUnder stem => .names (m.keys.filter fun name => stem.isPrefixOf name)
  | putMemory _ => .put
  | removeMemory name => .removed m[name]?.isSome
  | searchMemory query limit => .names (hits ln m.toList query limit)

def MemoryRequest.change (m : Docs MemoryEntry) : MemoryRequest → Docs MemoryEntry
  | putMemory entry => m.insert entry.name entry
  | removeMemory name => m.erase name
  | _ => m

/-- The name an entry is put under, if the request puts one, is a file's. -/
def MemoryRequest.Fits : MemoryRequest → Prop
  | putMemory entry => c.Fits entry.name
  | _ => True

/-- The answers: the exact one, the refusal of a name that is too long, and where the file system
fails one that knows less and leaves the entries as they are. -/
inductive Told (F : Prop) (m : Docs MemoryEntry) : MemoryRequest → Except Error MemoryAnswer →
    Docs MemoryEntry → Prop
  | exact {q : MemoryRequest} : q.Fits c → Told F m q (.ok (q.answer ln m)) (q.change m)
  | refused {entry : MemoryEntry} : ¬ c.Fits entry.name → Told F m (.putMemory entry) (.error .io) m
  | unread (name : Str) : F → Told F m (.memory name) (.ok (.entry none)) m
  | unlisted : F → Told F m .memoryNames (.ok (.names [])) m
  | unlistedUnder (stem : Str) : F → Told F m (.memoryNamesUnder stem) (.ok (.names [])) m
  | unremoved (name : Str) : F → Told F m (.removeMemory name) (.ok (.removed false)) m
  | partly (query : Str) (limit : Nat) {docs : List (Str × MemoryEntry)} : F →
      docs.Sublist m.toList →
      Told F m (.searchMemory query limit) (.ok (.names (hits ln docs query limit))) m
  | failed {q : MemoryRequest} (e : Error) : F → (∀ name, q ≠ .memory name) →
      (∀ name, q ≠ .removeMemory name) → Told F m q (.error e) m

end

/-! ## Requests -/

section
variable {R : Type} [Field R] [LinearOrder R] [TextStd] {ln : R → R} {c : Records MemoryEntry}
  {F : Prop} {order : List Str → List Str}
  {I : Disk → Prop} {m : Docs MemoryEntry} {s : Shelf}

def entriesOf (m : Docs MemoryEntry) (names : List Str) : List (Str × MemoryEntry) :=
  names.filterMap fun name => m[name]?.map fun e => (name, e)

omit [TextStd] in
theorem entriesOf_keys (m : Docs MemoryEntry) : entriesOf m m.keys = m.toList := by
  rw [entriesOf, ← ExtTreeMap.map_fst_toList_eq_keys, List.filterMap_map]
  have hself : ∀ e ∈ m.toList, ((fun name => m[name]?.map fun e => (name, e)) ∘ Prod.fst) e = some e := by
    intro e he
    simp [ExtTreeMap.mem_toList_iff_getElem?_eq_some.mp he]
  rw [List.filterMap_congr hself, List.filterMap_some]

omit [TextStd] in
theorem during_readEntries {E : Error → Shelf → Prop} (hI : I s.tree) (h : c.Shelved m s.tree)
    (names : List Str) :
    Prog.during F (shelf order) (fun s' => I s'.tree) (readEntries c names)
      (fun docs s' => s'.tree = s.tree ∧
        (docs = entriesOf m names ∨ F ∧ docs.Sublist (entriesOf m names))) E s := by
  induction names generalizing s with
  | nil => exact ⟨rfl, .inl rfl⟩
  | cons name names ih =>
    unfold readEntries
    rw [Prog.during_bind]
    refine (Records.during_load hI h).mono (fun _ hi => hi) (fun found s₁ hs => ?_)
      fun _ _ he => he.elim
    obtain ⟨hs, hfound⟩ := hs
    rw [Prog.during_bind]
    refine (ih (s := s₁) (by rw [hs]; exact hI) (by rw [hs]; exact h)).mono (fun _ hi => hi)
      (fun docs s₂ hd => ?_) fun _ _ he => he
    obtain ⟨hs₂, hdocs⟩ := hd
    have hcons : entriesOf m (name :: names) = (m[name]?.map fun e => (name, e)).toList ++
        entriesOf m names := by
      cases hm : m[name]? with
      | none => simp [entriesOf, hm]
      | some e => simp [entriesOf, hm]
    refine ⟨hs₂.trans hs, ?_⟩
    rw [hcons]
    rcases hfound with rfl | ⟨hf, rfl⟩
    · rcases hdocs with rfl | ⟨hf, hdocs⟩
      · exact .inl rfl
      · exact .inr ⟨hf, hdocs.append_left _⟩
    · refine .inr ⟨hf, List.Sublist.trans ?_ (List.sublist_append_right _ _)⟩
      rcases hdocs with rfl | ⟨-, hdocs⟩
      · exact .refl _
      · exact hdocs

theorem during_searchMemory (hI : I s.tree) (h : c.Shelved m s.tree) (hperm : ∀ l, (order l).Perm l)
    (query : Str) (limit : Nat) :
    Prog.during F (shelf order) (fun s' => I s'.tree) (searchMemory ln c query limit)
      (fun names s' => s'.tree = s.tree ∧ (names = hits ln m.toList query limit ∨
        F ∧ ∃ docs : List (Str × MemoryEntry), docs.Sublist m.toList ∧
        names = hits ln docs query limit))
      (fun _ s' => F ∧ s' = s) s := by
  unfold searchMemory
  rw [Prog.during_bind]
  refine (Records.during_names h hperm hI).mono (fun _ hi => hi) (fun names s₁ hn => ?_)
    fun _ _ he => he
  obtain ⟨rfl, hnames⟩ := hn
  rw [Prog.during_bind]
  refine (during_readEntries hI h names).mono (fun _ hi => hi) (fun docs s₂ hd => ⟨hd.1, ?_⟩)
    fun _ _ he => he
  rcases hnames with rfl | ⟨hf, rfl⟩
  · rw [entriesOf_keys] at hd
    rcases hd.2 with rfl | ⟨hf, hdocs⟩
    · exact .inl rfl
    · exact .inr ⟨hf, docs, hdocs, rfl⟩
  · refine .inr ⟨hf, docs, ?_, rfl⟩
    rcases hd.2 with rfl | ⟨-, hdocs⟩
    · exact List.nil_sublist _
    · rw [List.sublist_nil.mp hdocs]
      exact List.nil_sublist _

end

/-! ## Lives of a store -/

section
variable {R : Type} [Field R] [LinearOrder R] [TextStd] (ln : R → R) (c : Records MemoryEntry)
  (F : Prop) (order : List Str → List Str)

omit [Field R] [LinearOrder R] [TextStd] in
theorem modest_readEntries (names : List Str) :
    Prog.Footprint (shelf order) c.Modest (readEntries c names) := by
  induction names with
  | nil => trivial
  | cons name names ih =>
    exact .bind (Records.modest_load order name) fun _ => .bind ih fun _ => trivial

omit [Field R] [LinearOrder R] [TextStd] in
theorem bails_readEntries (names : List Str) : Prog.Bails (torn order) (readEntries c names) := by
  induction names with
  | nil => trivial
  | cons name names ih =>
    exact .bind (Records.bails_load order name) fun _ => .bind ih fun _ => trivial

theorem bails_exec (q : MemoryRequest) : Prog.Bails (torn order) (q.exec ln c) := by
  cases q with
  | memory name => exact .bind (Records.bails_load order name) fun _ => trivial
  | memoryNames => exact .bind (Records.bails_names order) fun _ => trivial
  | memoryNamesUnder stem => exact .bind (Records.bails_names order) fun _ => trivial
  | putMemory entry => exact .bind (Records.bails_save order entry.name entry) fun _ => trivial
  | removeMemory name => exact .bind (Records.bails_forget order name) fun _ => trivial
  | searchMemory query limit =>
    exact .bind (.bind (Records.bails_names order) fun names =>
      .bind (bails_readEntries c order names) fun _ => trivial) fun _ => trivial

theorem modest_exec (q : MemoryRequest) : Prog.Footprint (shelf order) c.Modest (q.exec ln c) := by
  cases q with
  | memory name => exact .bind (Records.modest_load order name) fun _ => trivial
  | memoryNames => exact .bind (Records.modest_names order) fun _ => trivial
  | memoryNamesUnder stem => exact .bind (Records.modest_names order) fun _ => trivial
  | putMemory entry => exact .bind (Records.modest_save order entry.name entry) fun _ => trivial
  | removeMemory name => exact .bind (Records.modest_forget order name) fun _ => trivial
  | searchMemory query limit =>
    exact .bind (.bind (Records.modest_names order) fun names =>
      .bind (modest_readEntries c order names) fun _ => trivial) fun _ => trivial

variable {c order}

theorem serves_memory (hperm : ∀ l, (order l).Perm l) :
    Serves (shelf order) (torn order) (MemoryRequest.exec ln c) (Told ln c)
    (fun s m => c.Shelved m s.tree) fun _ => c.Modest where
  footprint := modest_exec ln c order
  bails := bails_exec ln c order
  torn ho h ht := h.torn ho ht
  request F {q s m} h := by
    let I : Disk → Prop := fun t => c.Shelved m t ∨ ∃ r m', Told ln c F m q r m' ∧ c.Shelved m' t
    show Prog.during F (shelf order) (fun s' => I s'.tree) _ _ _ s
    have hI : ∀ t, c.Shelved m t → I t := fun t ht => .inl ht
    have same : ∀ s' : Shelf, s'.tree = s.tree → c.Shelved m s'.tree := fun s' hs => by
      rw [hs]; exact h
    -- Each request is answered exactly, or told from less where one of its operations failed.
    cases q with
    | memory name =>
      refine Prog.during_bind.mpr ((Records.during_load (hI _ h) h).mono (fun _ hi => hi)
        (fun found s' hs => ?_) fun _ _ he => he.elim)
      obtain ⟨hs, rfl | ⟨hf, rfl⟩⟩ := hs
      · exact ⟨m, .exact trivial, same s' hs⟩
      · exact ⟨m, .unread name hf, same s' hs⟩
    | memoryNames =>
      refine Prog.during_bind.mpr ((Records.during_names h hperm (hI _ h)).mono (fun _ hi => hi)
        (fun names s' hs => ?_) fun e s' he => ?_)
      · obtain ⟨rfl, rfl | ⟨hf, rfl⟩⟩ := hs
        · exact ⟨m, .exact trivial, h⟩
        · exact ⟨m, .unlisted hf, h⟩
      · obtain ⟨hf, rfl⟩ := he
        exact ⟨m, .failed e hf (by simp) (by simp), h⟩
    | memoryNamesUnder stem =>
      refine Prog.during_bind.mpr ((Records.during_names h hperm (hI _ h)).mono (fun _ hi => hi)
        (fun names s' hs => ?_) fun e s' he => ?_)
      · obtain ⟨rfl, rfl | ⟨hf, rfl⟩⟩ := hs
        · exact ⟨m, .exact trivial, h⟩
        · exact ⟨m, .unlistedUnder stem hf, h⟩
      · obtain ⟨hf, rfl⟩ := he
        exact ⟨m, .failed e hf (by simp) (by simp), h⟩
    | putMemory entry =>
      refine Prog.during_bind.mpr ((Records.during_save h hI).mono (fun _ hi => hi)
        (fun _ s' hs => ?_) fun e s' he => ?_)
      · exact ⟨m.insert entry.name entry, .exact hs.1, hs.2.1⟩
      · obtain ⟨⟨hname, rfl⟩ | hf, hm⟩ := he
        · exact ⟨m, .refused hname, hm⟩
        · exact ⟨m, .failed e hf (by simp) (by simp), hm⟩
    | removeMemory name =>
      refine Prog.during_bind.mpr ((Records.during_forget h (hI _ h)).mono (fun _ hi => hi)
        (fun was s' hs => ?_) fun _ _ he => he)
      rcases hs with ⟨rfl, hs, -⟩ | ⟨hf, rfl, hs⟩
      · exact ⟨m.erase name, .exact trivial, hs⟩
      · exact ⟨m, .unremoved name hf, same s' hs⟩
    | searchMemory query limit =>
      refine Prog.during_bind.mpr ((during_searchMemory (hI _ h) h hperm query limit).mono
        (fun _ hi => hi) (fun names s' hs => ?_)
        fun e s' he => ?_)
      · obtain ⟨hs, rfl | ⟨hf, docs, hdocs, rfl⟩⟩ := hs
        · exact ⟨m, .exact trivial, same s' hs⟩
        · exact ⟨m, .partly query limit hf hdocs, same s' hs⟩
      · obtain ⟨hf, rfl⟩ := he
        exact ⟨m, .failed e hf (by simp) (by simp), h⟩

/-! ### Runs of a put -/

variable {s : Shelf} {m : Docs MemoryEntry}

variable (order) in
theorem runs_put (h : c.Shelved m s.tree) (entry : MemoryEntry) (hname : c.Fits entry.name) :
    ∃ s', Prog.Runs False (shelf order) ((MemoryRequest.putMemory entry).exec ln c) s
    (.ok .put) s' ∧
      c.Shelved (m.insert entry.name entry) s'.tree := by
  have hput : Prog.wp False (shelf order) ((MemoryRequest.putMemory entry).exec ln c)
      (fun a s' => a = .put ∧ c.Shelved (m.insert entry.name entry) s'.tree) (fun _ _ => False) s :=
    Prog.wp_bind.mpr ((Records.during_save (I := fun _ => True) h fun _ _ => trivial).mono
      (fun _ _ => trivial)
      (fun _ s' hs => ⟨rfl, hs.2.1⟩) fun _ _ he => he.1.elim (fun hno => hno.1 hname) id)
  obtain ⟨_, s', hr, rfl, hs⟩ := hput.run False
  exact ⟨s', hr, hs⟩

variable (order) in
theorem runs_refused (h : c.Shelved m s.tree) {entry : MemoryEntry} (hname : ¬ c.Fits entry.name) :
    ∃ s', Prog.Runs False (shelf order) ((MemoryRequest.putMemory entry).exec ln c) s
    (.error .io) s' ∧ c.Shelved m s'.tree := by
  have hput : Prog.wp False (shelf order) ((MemoryRequest.putMemory entry).exec ln c)
      (fun _ _ => False)
      (fun e s' => e = .io ∧ c.Shelved m s'.tree) s :=
    Prog.wp_bind.mpr ((Records.during_save (I := fun _ => True) h fun _ _ => trivial).mono
      (fun _ _ => trivial)
      (fun _ s' hs => hname hs.1) fun _ _ he => ⟨he.1.elim (fun hno => hno.2) False.elim, he.2⟩)
  obtain ⟨_, s', hr, rfl, hs⟩ := hput.failed False
  exact ⟨s', hr, hs⟩

/-! ### From an open store on -/

omit [Field R] [LinearOrder R] [TextStd] in
theorem Records.shelved_bare {α : Type} (c : Records α) (dir : String) (hdir : c.dir = dir.toList)
    (hmem : dir ∈ storeDirs) {t : Disk}
    (h : Bare storeDirs t) : c.Shelved ∅ t where
  opened := (h.dirs _).mpr (.inr ⟨dir, hmem, by rw [hdir]⟩)
  flat name := by
    refine Bool.eq_false_iff.mpr fun hd => ?_
    rcases (h.dirs _).mp hd with he | ⟨d, -, he⟩
    · cases he
    · simp at he
  doc name := by simp [h.files]
  named stem b hb := by
    rw [h.files] at hb
    cases hb

end

section
variable {order : List Str → List Str} {s : Shelf}

def blank : Shelf where
  tree := emptyDisk
  names := [[]]
  covers l hl := by
    by_cases h : l = []
    · exact List.mem_singleton.mpr h
    · exact absurd (if_neg h) hl

theorem bare_blank : Bare [] blank.tree := by
  refine ⟨fun l => ?_, fun l => ?_⟩
  · unfold FileTree.fileAt blank emptyDisk
    by_cases hl : l = []
    · simp [hl]
    · simp [hl]
  · unfold FileTree.isDir blank emptyDisk
    by_cases hl : l = []
    · simp [hl]
    · simp [hl]

theorem during_open (order : List Str → List Str) :
    Prog.wp False (shelf order) (files openStore) (fun _ s => Bare storeDirs s.tree)
    (fun _ _ => False) blank :=
  during_files (wp_open storeDirs fits_storeDirs bare_blank)

theorem bare_opened (hopen : Prog.interp (shelf order) (files openStore) blank = .ok () s) :
    Bare storeDirs s.tree :=
  (Prog.wp_interp.mp (during_open order)).ok hopen

end

section
variable {R : Type} [Field R] [LinearOrder R] [TextStd] {ln : R → R} {F : Prop}
  {order : List Str → List Str} {json : MemoryEntry → Bytes}
  {parse : Bytes → Option MemoryEntry}

def memoryRecords (json : MemoryEntry → Bytes) (parse : Bytes → Option MemoryEntry)
    (hparse : ∀ e, parse (json e) = some e) :
    Records MemoryEntry where
  dir := "memory".toList
  suffix := ".json".toList
  json := json
  parse := parse
  parse_json := hparse
  tmp_apart := Records.tmpName_ne (by decide) (by decide)

omit [Field R] [LinearOrder R] [TextStd] in
theorem shelved_opened (hparse : ∀ e, parse (json e) = some e) {s : Shelf}
    (hopen : Prog.interp (shelf order) (files openStore) blank = .ok () s) :
    (memoryRecords json parse hparse).Shelved ∅ s.tree :=
  Records.shelved_bare _ "memory" rfl (by decide) (bare_opened hopen)

/-- Every life of an opened store is a life of a map from names to entries. -/
theorem memory_stands (hparse : ∀ e, parse (json e) = some e) (hperm : ∀ l, (order l).Perm l) {s s' : Shelf}
    (hopen : Prog.interp (shelf order) (files openStore) blank = .ok () s)
    {es : List (Trial MemoryRequest (Except Error MemoryAnswer))}
    (hc : Course (Attends (shelf order) (torn order)
      (MemoryRequest.exec ln (memoryRecords json parse hparse))) s es s') :
    ∃ m, Course (Accounts (Told ln (memoryRecords json parse hparse))) ∅ es m ∧
    (memoryRecords json parse hparse).Shelved m s'.tree :=
  (serves_memory ln hperm).course hc (shelved_opened hparse hopen)

end

/-! ## Entries as JSON -/

namespace Plain

def itemsText : List Str → Str
  | [] => []
  | [item] => "    ".toList ++ (quote item ++ "\n".toList)
  | item :: items => "    ".toList ++ (quote item ++ (",\n".toList ++ itemsText items))

def itemsOf : Nat → Str → Option (List Str × Str)
  | 0, _ => none
  | n + 1, text => do
    let (item, rest) ← field "    \"" text
    match expect ",\n".toList rest with
    | some rest => (itemsOf n rest).map fun p => (item :: p.1, p.2)
    | none => return ([item], ← expect "\n".toList rest)

def arrayText (items : List Str) : Str :=
  if items = [] then "[]".toList else "[\n".toList ++ (itemsText items ++ "  ]".toList)

def arrayOf (text : Str) : Option (List Str × Str) :=
  match expect "[]".toList text with
  | some rest => some ([], rest)
  | none => do
    let rest ← expect "[\n".toList text
    let (items, rest) ← itemsOf rest.length rest
    return (items, ← expect "  ]".toList rest)

def memoryText (e : MemoryEntry) : Str :=
  "\x7b\n  \"name\": \"".toList ++ (escaped e.name ++ '"' ::
    (",\n  \"kind\": \"".toList ++ (escaped e.kind ++ '"' ::
      (",\n  \"content\": \"".toList ++ (escaped e.content ++ '"' ::
        (",\n  \"aliases\": ".toList ++ (arrayText e.aliases ++
          (",\n  \"created_at\": \"".toList ++
            (escaped e.createdAt ++ '"' :: "\n\x7d".toList)))))))))

def parseMemory (text : Str) : Option MemoryEntry := do
  let (name, rest) ← field "\x7b\n  \"name\": \"" text
  let (kind, rest) ← field ",\n  \"kind\": \"" rest
  let (content, rest) ← field ",\n  \"content\": \"" rest
  let rest ← expect ",\n  \"aliases\": ".toList rest
  let (aliases, rest) ← arrayOf rest
  let (createdAt, _) ← field ",\n  \"created_at\": \"" rest
  return { name, kind, content, aliases, createdAt }

theorem itemsText_single (item rest : Str) :
    itemsText [item] ++ rest = "    \"".toList ++ (escaped item ++ '"' :: ("\n".toList ++ rest)) := by
  simp [itemsText, quote]

theorem itemsText_cons (item next : Str) (tail : List Str) (text : Str) :
    itemsText (item :: next :: tail) ++ text = "    \"".toList ++
    (escaped item ++ '"' :: (",\n".toList ++ (itemsText (next :: tail) ++ text))) := by
  simp [itemsText, quote]

theorem itemsOf_itemsText (items : List Str) (hne : items ≠ []) (n : Nat) (hn : items.length ≤ n)
    (rest : Str) :
    itemsOf n (itemsText items ++ rest) = some (items, rest) := by
  induction items generalizing n with
  | nil => exact absurd rfl hne
  | cons item items ih =>
    cases n with
    | zero => cases hn
    | succ n =>
      cases items with
      | nil =>
        have hcomma : expect ",\n".toList ("\n".toList ++ rest) = none := rfl
        simp only [itemsOf, itemsText_single, field_append, Option.bind_eq_bind, Option.bind_some,
          hcomma, expect_append]
        rfl
      | cons next items =>
        have hrest := ih (by simp) n (by simpa using hn)
        simp only [itemsOf, itemsText_cons, field_append, Option.bind_eq_bind, Option.bind_some,
          expect_append, hrest]
        rfl

theorem length_le_itemsText (items : List Str) : items.length ≤ (itemsText items).length := by
  induction items with
  | nil => exact Nat.le_refl _
  | cons item items ih =>
    cases items with
    | nil => simp [itemsText]
    | cons next items =>
      have hindent : "    ".toList.length = 4 := rfl
      simp only [itemsText, List.length_append, List.length_cons] at ih ⊢
      omega

theorem arrayOf_arrayText (items : List Str) (rest : Str) :
    arrayOf (arrayText items ++ rest) = some (items, rest) := by
  unfold arrayText
  by_cases hne : items = []
  · rw [if_pos hne, hne, arrayOf, expect_append]
  · rw [if_neg hne, List.append_assoc, List.append_assoc]
    have hempty : expect "[]".toList ("[\n".toList ++ (itemsText items ++ ("  ]".toList ++ rest))) =
        none := rfl
    have hfuel : items.length ≤ (itemsText items ++ ("  ]".toList ++ rest)).length := by
      have := length_le_itemsText items
      rw [List.length_append]
      omega
    simp only [arrayOf, hempty, expect_append, Option.bind_eq_bind, Option.bind_some,
      itemsOf_itemsText items hne _ hfuel]
    rfl

theorem parse_memoryText (e : MemoryEntry) : parseMemory (memoryText e) = some e := by
  unfold parseMemory memoryText
  simp only [field_append, expect_append, arrayOf_arrayText, Option.bind_eq_bind, Option.bind_some]
  rfl

/-! ### One life -/

def keepsake (name : String) : MemoryEntry :=
  ⟨name.toList, "note".toList, "the deploy key".toList, ["ops".toList, "keys".toList], "t0".toList⟩

def fromJson (bytes : Bytes) : Option MemoryEntry := (fromUtf8 bytes).bind parseMemory

theorem fromJson_utf8 (e : MemoryEntry) : fromJson (utf8 (memoryText e)) = some e := by
  rw [fromJson, fromUtf8_utf8, Option.bind_some, parse_memoryText]

def longName : String := String.ofList (List.replicate 300 'x')

/-- An entry is put, is not found where its file cannot be read, and is listed. A name of 300
letters is refused. -/
def oneLife : List (Trial MemoryRequest (Except Error MemoryAnswer)) :=
  [.served (.putMemory (keepsake "a/b")) (.ok .put), .died (.putMemory (keepsake "a/b")),
    .faulted (.memory "a/b".toList) (.ok (.entry none)),
    .served (.putMemory (keepsake longName)) (.error .io),
    .served .memoryNames (.ok (.names ["a/b".toList]))]

open Store.Plain

theorem memory_stands_oneLife : ∃ (s s' : Shelf) (m : Docs MemoryEntry), Prog.interp
    (shelf List.reverse) (files openStore) blank = .ok () s ∧
    Course (Accounts (Told Real.log
      (memoryRecords (fun e => utf8 (memoryText e)) fromJson fromJson_utf8))) ∅ oneLife m ∧
      (memoryRecords (fun e => utf8 (memoryText e)) fromJson fromJson_utf8).Shelved m s'.tree := by
  let c := memoryRecords (fun e => utf8 (memoryText e)) fromJson fromJson_utf8
  have hperm : ∀ l : List Str, l.reverse.Perm l := List.reverse_perm
  have hfits : c.Fits (keepsake "a/b").name := by decide
  have hlong : ¬ c.Fits (keepsake longName).name := by decide +kernel
  obtain ⟨_, s, hopen, -⟩ := (during_open List.reverse).answers
  have h₀ : c.Shelved ∅ s.tree := shelved_opened fromJson_utf8 hopen
  obtain ⟨s₁, hrun₁, h₁⟩ := runs_put Real.log List.reverse h₀ (keepsake "a/b") hfits
  have hfault : Prog.Falters (shelf List.reverse) (torn List.reverse)
      ((MemoryRequest.memory "a/b".toList).exec Real.log c) s₁
      (.ok (.entry none)) s₁ := .step (.fault .io trivial) (.done _ _)
  obtain ⟨s₂, hrun₂, h₂⟩ := runs_refused Real.log List.reverse h₁ hlong
  have hnames : Prog.wp False (shelf List.reverse) (MemoryRequest.memoryNames.exec Real.log c)
      (fun a s' => a = .names ["a/b".toList] ∧ s' = s₂) (fun _ _ => False) s₂ :=
    Prog.wp_bind.mpr ((Records.during_names (J := fun _ => True) h₂ hperm trivial).mono
      (fun _ _ => trivial)
      (fun names s' hs => by
        obtain ⟨rfl, rfl | ⟨hf, -⟩⟩ := hs
        · exact ⟨rfl, rfl⟩
        · exact hf.elim)
      fun _ _ he => he.1)
  obtain ⟨_, s₃, hrun₃, rfl, -⟩ := hnames.run False
  obtain ⟨m, hm, hs⟩ := memory_stands fromJson_utf8 hperm hopen
      (.cons (.served hrun₁) (.cons (.died (.here _ _))
    (.cons (.faulted hfault) (.cons (.served hrun₂) (.cons (.served hrun₃) (.nil _))))))
  exact ⟨s, s₃, m, hopen, hm, hs⟩

end Plain

end Crabtalk.Backend

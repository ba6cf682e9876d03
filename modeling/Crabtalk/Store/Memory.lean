import Crabtalk.Store.Keys
import Crabtalk.Store.Search

/-!
# Memory entries

The brain of an agent: entries under their names, in a column of their own.
What indexes their texts is in another, and no entry is looked up there.
-/

open Basis

namespace Crabtalk.Store

structure MemoryEntry where
  name : Str
  kind : Str
  content : Str
  aliases : List Str
  createdAt : Str
  deriving DecidableEq

inductive MemoryOp
  | get (key : Str)
  | put (key : Str) (entry : MemoryEntry)
  | delete (key : Str)
  | scanKeys (stem : Str)
  | indexText (key text : Str)
  | dropText (key : Str)

def MemoryOp.Reply : MemoryOp → Type
  | .get _ => Option MemoryEntry
  | .put _ _ => Unit
  | .delete _ => Bool
  | .scanKeys _ => List Str
  | .indexText _ _ => Unit
  | .dropText _ => Unit

abbrev Memories := ColMap Column Char MemoryEntry

abbrev MemoryM := Prog MemoryOp MemoryOp.Reply Error

def brain : (o : MemoryOp) → EStateM Error Memories o.Reply
  | .get key => fun s => .ok s[(Column.memory, key)]? s
  | .put key entry => fun s => .ok () (s.insert (Column.memory, key) entry)
  | .delete key => fun s => .ok s[(Column.memory, key)]?.isSome (s.erase (Column.memory, key))
  | .scanKeys stem => fun s => .ok ((s.under Column.memory stem).map fun e => e.1.2) s
  | .indexText _ _ => fun s => .ok () s
  | .dropText _ => fun s => .ok () s

def memoryKey (name : Str) : Str := key ["memory".toList, name]

def lastSegment (key : Str) : Option Str := (rsplit key).head?

def readEntry (key : Str) : MemoryM (Option MemoryEntry) := Prog.perform (MemoryOp.get key)

def writeEntry (key : Str) (e : MemoryEntry) : MemoryM Unit := Prog.perform (MemoryOp.put key e)

def deleteEntry (key : Str) : MemoryM Bool := Prog.perform (MemoryOp.delete key)

def scanEntries (stem : Str) : MemoryM (List Str) := Prog.perform (MemoryOp.scanKeys stem)

def indexEntry (key text : Str) : MemoryM Unit := Prog.perform (MemoryOp.indexText key text)

def dropEntry (key : Str) : MemoryM Unit := Prog.perform (MemoryOp.dropText key)

def loadMemory (name : Str) : MemoryM (Option MemoryEntry) := readEntry (memoryKey name)

def memoryNamesUnder (stem : Str) : MemoryM (List Str) := do
  let keys ← scanEntries (memoryKey stem)
  return keys.filterMap lastSegment

def MemoryEntry.document (e : MemoryEntry) : Str :=
  if e.aliases.isEmpty then e.content else [' '].intercalate e.aliases ++ '\n' :: e.content

def putMemory (e : MemoryEntry) : MemoryM Unit := do
  writeEntry (memoryKey e.name) e
  indexEntry (memoryKey e.name) e.document

def removeMemory (name : Str) : MemoryM Bool := do
  dropEntry (memoryKey name)
  deleteEntry (memoryKey name)

/-! ## Names -/

def namesUnder (s : Memories) (stem : Str) : List Str :=
  ((s.under Column.memory (memoryKey stem)).map fun e => e.1.2).filterMap lastSegment

section
variable {s : Memories} {name stem : Str} {e : MemoryEntry}

theorem memoryKey_inj {a b : Str} (h : memoryKey a = memoryKey b) : a = b := by
  have happ : ∀ n, memoryKey n = (realm ++ '/' :: "memory".toList) ++ '/' :: n := fun n => by
    simp [memoryKey, key]
  rw [happ, happ] at h
  exact (List.cons.inj (List.append_cancel_left h)).2

theorem lastSegment_memoryKey (h : '/' ∉ name) : lastSegment (memoryKey name) = some name := by
  have hc : components (memoryKey name) = [realm, "memory".toList, name] := by
    rw [memoryKey, components_key]
    simp only [List.flatMap_cons, List.flatMap_nil, components_of_notMem h, List.append_nil]
    rfl
  rw [lastSegment, rsplit, show (memoryKey name).splitOn '/' = components (memoryKey name) from rfl, hc]
  rfl

/-- An entry whose name is one segment is listed. -/
theorem memoryKey_prefix_iff (stem name : Str) : memoryKey stem <+: memoryKey name ↔
    stem <+: name := by
  have hcut (n : Str) : memoryKey n = keysUnder ["memory".toList] ++ n := by
    simp [memoryKey, keysUnder, key]
  rw [hcut, hcut, List.prefix_append_right_inj]

theorem mem_namesUnder (hs : s[((.memory, memoryKey name) : Column × Str)]? = some e)
    (hstem : stem <+: name) (hname : '/' ∉ name) :
    name ∈ namesUnder s stem := by
  refine List.mem_filterMap.mpr ⟨memoryKey name,
    List.mem_map.mpr ⟨((.memory, memoryKey name), e), ?_, rfl⟩, lastSegment_memoryKey hname⟩
  exact ColMap.mem_under.mpr ⟨hs, rfl, (memoryKey_prefix_iff stem name).mpr hstem⟩

theorem keysUnder_memory (name : Str) : keysUnder ["memory".toList] <+: memoryKey name :=
  ⟨name, by simp [memoryKey, keysUnder, key]⟩

theorem lastSegment_clean {k : Str} (h : lastSegment k = some name) : '/' ∉ name := by
  rw [lastSegment, rsplit] at h
  exact notMem_splitOn (List.mem_reverse.mp (List.mem_of_head? h))

end

end Crabtalk.Store

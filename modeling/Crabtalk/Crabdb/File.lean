import Crabtalk.Basis.Wp
import Crabtalk.Crabdb.Format

/-!
# The files a store works on

A disk holds a byte string per path. `budget` bounds how much of an operation
reaches the disk: a write spends one unit a byte, a sync, a truncation, a
rename or an in-place header rewrite spends one, and the first effect that
does not fit fails, leaving the bytes that did. `none` is a device that never
refuses. A run with a finite budget is a run cut at that point, which is how
crashes are stated.

A handle is the path it was opened at: nothing else holds these files.
-/

open Basis

namespace Crabtalk.Crabdb

/-- A path as `with_extension` sees it: the file name split into its stem and
its extension. -/
structure PathBuf where
  parent : String
  stem : String
  extension : Option String
  deriving DecidableEq

def PathBuf.withExtension (p : PathBuf) (ext : String) : PathBuf := { p with extension := some ext }

/-- How many entries of an index there is room for, once so many bytes of a
snapshot are in memory: as many as these bytes can hold, and perhaps more. -/
structure Memory where
  room : Nat → Nat
  le_room : ∀ n, n ≤ room n

def Memory.plain : Memory := ⟨fun n => n + 2 ^ 24, fun n => Nat.le_add_right n _⟩

structure World where
  disk : PathBuf → Option Bytes
  budget : Option Nat
  memory : Memory

abbrev Io := EStateM Error World

namespace World

def bytes (w : World) (path : PathBuf) : Bytes := (w.disk path).getD []

def store (w : World) (path : PathBuf) (bs : Option Bytes) : World :=
  { w with disk := fun p => if p = path then bs else w.disk p }

@[simp] theorem store_self (w : World) (path : PathBuf) (bs : Option Bytes) :
    (w.store path bs).disk path = bs := by
  simp [store]

/-- The crash point, if there is one, lies behind the next `n` units. -/
def covers (w : World) (n : Nat) : Prop := ∀ b, w.budget = some b → n ≤ b

theorem store_other (w : World) {path p : PathBuf} (bs : Option Bytes) (h : p ≠ path) :
    (w.store path bs).disk p = w.disk p := by
  simp [store, h]

@[simp] theorem bytes_store_self (w : World) (path : PathBuf) (bs : Bytes) :
    (w.store path (some bs)).bytes path = bs := by
  simp [bytes]

end World

/-- Offsets are signed 64-bit in the system calls under `seek` and `write`. -/
def maxOffset : Nat := 2 ^ 63 - 1

def spend : Io Unit := fun w =>
  match w.budget with
  | none => .ok () w
  | some 0 => .error .io w
  | some (n + 1) => .ok () { w with budget := some n }

def openFile (path : PathBuf) (truncate : Bool) : Io Unit := do
  spend
  modify fun w => if truncate then w.store path (some []) else w.store path (some (w.bytes path))

def setLen0 (path : PathBuf) : Io Unit := do
  spend
  modify fun w => w.store path (some [])

def syncAll : Io Unit := spend

def rename (src dst : PathBuf) : Io Unit := do
  spend
  modify fun w => (w.store src none).store dst (w.disk src)

/-- `seek` to `pos` and `write_all`. A write the budget cuts short leaves the bytes that went through. -/
def writeAll (path : PathBuf) (pos : Nat) (bs : Bytes) : Io Unit := fun w =>
  if maxOffset < pos + bs.length then .error .io w
  else
    match w.budget with
    | none => .ok () (w.store path (some (overlay (w.bytes path) pos bs)))
    | some n =>
      if bs.length ≤ n then
        .ok ()
          { w.store path (some (overlay (w.bytes path) pos bs)) with budget := some (n - bs.length) }
      else .error .io
        { w.store path (some (overlay (w.bytes path) pos (bs.take n))) with budget := some 0 }

/-- The in-place rewrite of the 32 bytes at the start of the file, which lie in one sector and go
through whole. -/
def rewriteHeader (path : PathBuf) (bs : Bytes) : Io Unit := do
  spend
  modify fun w => w.store path (some (overlay (w.bytes path) 0 bs))

def readAt (buf : Bytes) (pos len : Nat) : Option Bytes := (take buf pos len).map (·.1)

def readExact (path : PathBuf) (pos len : Nat) : Io Bytes := do
  match readAt ((← get).bytes path) pos len with
  | some bs => return bs
  | none => throw .eof

def readToEnd (path : PathBuf) (pos : Nat) : Io Bytes := return ((← get).bytes path).drop pos

theorem readAt_append (a b c : Bytes) : readAt (a ++ (b ++ c)) a.length b.length = some b := by
  rw [readAt, take_append, Option.map_some]

/-! ## What each effect does -/

section
variable {Q : Unit → World → Prop} {E : Error → World → Prop} {w : World}

/-- A device that never refuses does not fail here. -/
theorem wp_spend_of (hQ : ∀ b, Q () { w with budget := b }) (hE : w.budget ≠ none → E .io w) :
    wp spend Q E w := by
  unfold wp spend
  cases hb : w.budget with
  | none => have := hQ none; rw [← hb] at this; exact this
  | some n =>
    cases n with
    | zero => exact hE (by rw [hb]; exact Option.some_ne_none _)
    | succ n => exact hQ (some n)

theorem wp_spend (hQ : ∀ b, Q () { w with budget := b }) (hE : E .io w) : wp spend Q E w :=
  wp_spend_of hQ fun _ => hE

theorem wp_openFile_of {path : PathBuf} {truncate : Bool}
    (hQ : ∀ b, Q ()
      { w.store path (some (if truncate then [] else w.bytes path)) with budget := b })
    (hE : w.budget ≠ none → E .io w) : wp (openFile path truncate) Q E w := by
  rw [openFile, wp_bind]
  refine wp_spend_of (fun b => ?_) hE
  rw [wp_modify]
  cases truncate <;> exact hQ b

theorem wp_openFile {path : PathBuf} {truncate : Bool}
    (hQ : ∀ b, Q ()
      { w.store path (some (if truncate then [] else w.bytes path)) with budget := b })
    (hE : E .io w) : wp (openFile path truncate) Q E w := wp_openFile_of hQ fun _ => hE

theorem wp_setLen0 {path : PathBuf} (hQ : ∀ b, Q () { w.store path (some []) with budget := b })
    (hE : E .io w) :
    wp (setLen0 path) Q E w := by
  rw [setLen0, wp_bind]
  exact wp_spend (fun b => hQ b) hE

theorem wp_rename {src dst : PathBuf}
    (hQ : ∀ b, Q () { (w.store src none).store dst (w.disk src) with budget := b }) (hE : E .io w) :
    wp (rename src dst) Q E w := by
  rw [rename, wp_bind]
  exact wp_spend (fun b => hQ b) hE

theorem wp_rewriteHeader {path : PathBuf} {bs : Bytes}
    (hQ : ∀ b, Q () { w.store path (some (overlay (w.bytes path) 0 bs)) with budget := b })
    (hE : E .io w) :
    wp (rewriteHeader path bs) Q E w := by
  rw [rewriteHeader, wp_bind]
  exact wp_spend (fun b => hQ b) hE

/-- A write goes through, or fails with a strict prefix of it on the disk, or
runs into the largest offset and leaves nothing. -/
theorem wp_writeAll {path : PathBuf} {pos : Nat} {bs : Bytes}
    (hQ : ∀ b, w.covers bs.length → pos + bs.length ≤ maxOffset →
      Q () { w.store path (some (overlay (w.bytes path) pos bs)) with budget := b })
    (hE : ∀ n < bs.length, ¬ w.covers bs.length →
      E .io { w.store path (some (overlay (w.bytes path) pos (bs.take n))) with budget := some 0 })
    (hE' : maxOffset < pos + bs.length → E .io w) : wp (writeAll path pos bs) Q E w := by
  unfold wp writeAll
  by_cases hmax : maxOffset < pos + bs.length
  · rw [if_pos hmax]
    exact hE' hmax
  · rw [if_neg hmax]
    rw [Nat.not_lt] at hmax
    cases hb : w.budget with
    | none =>
      have := hQ none (fun b hb' => by rw [hb] at hb'; cases hb') hmax
      rw [← hb] at this
      exact this
    | some n =>
      by_cases hn : bs.length ≤ n
      · simp only [if_pos hn]
        exact hQ _ (fun b hb' => by rw [hb] at hb'; cases hb'; exact hn) hmax
      · simp only [if_neg hn]
        exact hE n (Nat.not_le.mp hn) fun hc => hn (hc n hb)

theorem wp_readExact {path : PathBuf} {pos len : Nat} {bs : Bytes} {Q : Bytes → World → Prop}
    (h : readAt (w.bytes path) pos len = some bs) : wp (readExact path pos len) Q E w ↔ Q bs w := by
  rw [readExact, wp_bind, wp_get, h, wp_pure]

end

end Crabtalk.Crabdb

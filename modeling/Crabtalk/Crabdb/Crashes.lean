import Crabtalk.Crabdb.Runs

/-!
# Crashes

A record torn by a crash is skipped by the next open and overwritten, never
cut off the file: what a shorter record leaves of it is read as records by the
open after that. A snapshot is only skipped through the header, so one that is
on the disk while the header still names the old one is read as records too.
The two theorems below are what holds in spite of that.
-/

open Basis

namespace Crabtalk.Crabdb

section
variable (m : Contents) (s : Db)

instance : Decidable (Skippable s) := inferInstanceAs (Decidable (_ = _))

instance : Decidable (Clean s) := inferInstanceAs (Decidable (_ ≤ _))

instance : ∀ c, Decidable (Readable s c)
  | .reopen _ => inferInstanceAs (Decidable (Skippable s))
  | .put _ _ _ | .delete _ _ | .get _ _ | .scan _ _ | .scanKeys _
      _ | .len | .checkpoint | .compact =>
    inferInstanceAs (Decidable True)

instance (options : Options) : Decidable (PackQuiet m options) :=
  inferInstanceAs (Decidable (_ → _))

instance : Decidable (SnapshotQuiet s) := inferInstanceAs (Decidable (_ → _))

instance (c : Call) : Decidable (Quiet m s c) := inferInstanceAs (Decidable ((_ → _) ∧ (_ → _)))

instance (c : Call) (n : Nat) : Decidable (Mendable m s c n) :=
  decidable_of_iff (Readable s c ∧ (Clean s ∨ Skippable (crashed c n s)) ∧
    (n < c.recordLen m ∨ Quiet m (s.limit (some n)) c ∧ s.inner.endAt + c.recordLen m ≤ maxOffset))
    ⟨fun ⟨h₁, h₂, h₃⟩ => ⟨h₁, h₂, h₃⟩, fun ⟨h₁, h₂, h₃⟩ => ⟨h₁, h₂, h₃⟩⟩

instance : ∀ e, Decidable (Safe m s e)
  | .call c => inferInstanceAs (Decidable (Readable s c))
  | .crash c n _ => inferInstanceAs (Decidable (Mendable m s c n))

end

/-- Every crash cuts a record, and every file that is read again ends in bytes
a replay skips. The first crash on a clean file does so by itself. -/
def Torn (m : Contents) (s : Db) : Event → Prop
  | .call c => Readable s c
  | .crash c n _ => n < c.recordLen m ∧ (Clean s ∨ Skippable (crashed c n s))

instance (m : Contents) (s : Db) : ∀ e, Decidable (Torn m s e)
  | .call c => inferInstanceAs (Decidable (Readable s c))
  | .crash _ _ _ => inferInstanceAs (Decidable (_ ∧ _))

section
variable {P : Contents → Db → Event → Prop} [∀ m s e, Decidable (P m s e)]

instance instDecidableAlong : ∀ m es s, Decidable (Along P m es s)
  | _, [], _ => inferInstanceAs (Decidable True)
  | m, e :: es, s => by
    unfold Along
    have := instDecidableAlong (m.event e).1 es
    cases e.exec s <;> infer_instance

instance (path : PathBuf) (options : Options) (es : List Event) (w : World) :
    Decidable (AlongSession P path options es w) := by
  unfold AlongSession
  cases openWith path options w <;> infer_instance

end

/-! ## Torn records -/

/-- Through any number of torn records and reopens, every open succeeds and
every answer is the one of the map without the torn calls. -/
theorem torn_session_answers {path : PathBuf} {options : Options} {es : List Event} {w : World}
    (hext : path.extension ≠ some "tmp") (hfresh : (w.bytes path).length < headerLen)
    (hf : FitsRun ∅ es)
    (htorn : AlongSession Torn path options es w) (hio : .error .io ∉ session path options es w) :
    session path options es w = .ok .done :: (Contents.run ∅ es).map .ok := by
  refine session_eq (P := Torn) (fun m s e h => ?_) hext hfresh hf htorn hio
  cases e with
  | call c => exact h
  | crash c n _ =>
    refine ⟨?_, h.2, .inl h.1⟩
    cases c with
    | reopen => exact absurd h.1 (Nat.not_lt_zero n)
    | _ => trivial

theorem torn_session_answers_instance :
    session ⟨"/", "store", some "crmem"⟩ .default
      [.call (.put 1 [7] [1, 2]), .crash (.put 1 [8] [5, 5, 5, 5]) 12 .default,
        .call (.put 1 [9] [1, 1, 1, 1]),
        .call (.reopen .default), .call (.scan 1 [])] ⟨fun _ => none, none, .plain⟩ =
      .ok .done :: (Contents.run ∅ [.call (.put 1 [7] [1, 2]),
        .crash (.put 1 [8] [5, 5, 5, 5]) 12 .default,
        .call (.put 1 [9] [1, 1, 1, 1]), .call (.reopen .default), .call (.scan 1 [])]).map .ok :=
  torn_session_answers (by decide) (by decide) (by decide +kernel) (by decide +kernel)
    (by decide +kernel)

/-- A record torn after 25 bytes, a shorter one over it, and the file no
longer opens. -/
theorem torn_tail_unreadable :
    session ⟨"/", "store", some "crmem"⟩ .default
      [.crash (.put 1 [1] (List.replicate 20 9)) 25 .default, .call (.put 1 [2] []),
        .call (.reopen .default)]
      ⟨fun _ => none, none, .plain⟩ =
    [.ok .done, .ok .done, .ok .done, .error (.bail "crabdb: unknown record op 9")] := by
  decide +kernel

/-! ## Snapshots and compactions cut short -/

/-- Through crashes anywhere inside checkpoints, compactions and the calls that
start them, every open succeeds and every answer is the map's. -/
theorem crash_session_answers {path : PathBuf} {options : Options} {es : List Event} {w : World}
    (hext : path.extension ≠ some "tmp") (hfresh : (w.bytes path).length < headerLen)
    (hf : FitsRun ∅ es)
    (hsafe : AlongSession Safe path options es w) (hio : .error .io ∉ session path options es w) :
    session path options es w = .ok .done :: (Contents.run ∅ es).map .ok :=
  session_eq (P := Safe) (fun _ _ _ h => h) hext hfresh hf hsafe hio

theorem crash_session_answers_instance :
    session ⟨"/", "store", some "crmem"⟩ .default
      [.call (.put 1 [7] [1, 2]), .crash .checkpoint 10 .default, .crash .compact 60 .default,
        .call (.reopen .default), .call (.scan 1 [])] ⟨fun _ => none, none, .plain⟩ =
      .ok .done :: (Contents.run ∅ [.call (.put 1 [7] [1, 2]), .crash .checkpoint 10 .default,
        .crash .compact 60 .default, .call (.reopen .default), .call (.scan 1 [])]).map .ok :=
  crash_session_answers (by decide) (by decide) (by decide +kernel) (by decide +kernel)
    (by decide +kernel)

/-- One byte of the snapshot of two keys, and the file no longer opens. -/
theorem snapshot_prefix_unreadable :
    session ⟨"/", "store", some "crmem"⟩ .default
      [.call (.put 1 [1] [5]), .call (.put 1 [2] [6]), .crash .checkpoint 1 .default]
      ⟨fun _ => none, none, .plain⟩ =
    [.ok .done, .ok .done, .ok .done, .error (.bail "crabdb: unknown record op 2")] := by
  decide +kernel

end Crabtalk.Crabdb

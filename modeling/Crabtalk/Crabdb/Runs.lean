import Crabtalk.Crabdb.Refine

/-!
# Runs, and runs through crashes

From one call to every sequence of calls: as long as each file that is read
again ends in bytes a replay skips, a store answers as the map does, also
across processes that died in the middle of a call.
-/

open Basis

namespace Crabtalk.Crabdb

section
variable {m : Contents} {l : Layout} {s : Db}

/-- A crash that can be read over: it is the first to touch its file or the
bytes it leaves past the append position are skipped, and either the call's
record was cut or no snapshot reads as a record. -/
structure Mendable (m : Contents) (s : Db) (c : Call) (n : Nat) : Prop where
  readable : Readable s c
  skippable : Clean s ∨ Skippable (crashed c n s)
  quiet : n < c.recordLen m ∨ Quiet m (s.limit (some n)) c ∧
    s.inner.endAt + c.recordLen m ≤ maxOffset

theorem crashed_stored (h : Holds m l s) {c : Call} {n : Nat} (hf : c.Fits m)
    (hc : Mendable m s c n) :
    (crashed c n s).inner.path = s.inner.path ∧
    ∃ l' ix, Stored (if n < c.recordLen m then m else (m.step c).1) l' ix ∧
      (crashed c n s).world.disk s.inner.path = some l'.bytes ∧
      decodeRecord l'.junk = .ok none := by
  obtain ⟨hr, hk, hq⟩ := hc
  rw [h.clean] at hk
  have hcov : ∀ r, (s.limit (some n)).world.covers r ↔ r ≤ n := fun r =>
    ⟨fun hc => hc n rfl, fun hr b hb => Option.some.inj hb ▸ hr⟩
  have hspec : wp (exec c) _ _ (s.limit (some n)) :=
    wp_exec (h.limit (some n)) c hf (by cases c <;> exact hr)
  unfold wp at hspec
  unfold crashed at hk ⊢
  cases hx : exec c (s.limit (some n)) with
  | ok a s' =>
    rw [hx] at hspec hk
    obtain ⟨-, hcov', l', hl', hclean, hp⟩ := hspec
    rw [hcov] at hcov'
    rw [if_neg (by omega)]
    exact ⟨hp, l', _, hl'.stored, hp ▸ hl'.disk,
      hk.elim (fun hj => decodeRecord_nil (hclean hj)) (hl'.limit none).skippable.mp⟩
  | error e s' =>
    rw [hx] at hspec hk
    simp only [hcov] at hspec
    rcases hspec with ⟨-, ⟨hle, hp, l', ix, hs, hd, hj⟩ | ⟨hcut, hp, l', ix, hs, hd, hj⟩⟩
    · rw [if_neg (by omega)]
      refine ⟨hp, l', ix, hs, hd, hj hk ?_⟩
      rcases hq with hlt | ⟨hq, -⟩
      · omega
      · exact hq
    · have hlt : n < c.recordLen m := by
        rcases hq with hlt | ⟨-, hroom⟩
        · exact hlt
        · have hend : (s.limit (some n)).inner.endAt = s.inner.endAt := rfl
          rw [hend] at hcut
          omega
      rw [if_pos hlt]
      exact ⟨hp, l', ix, hs, hd, hj hk trivial⟩

/-- The conditions under which an event can be read over. -/
def Safe (m : Contents) (s : Db) : Event → Prop
  | .call c => Readable s c
  | .crash c n _ => Mendable m s c n

theorem wp_event (h : Holds m l s) (e : Event) (hf : e.Fits m) (hs : Safe m s e) :
    wp e.exec (fun a s' => a = (m.event e).2 ∧ ∃ l', Holds (m.event e).1 l' s')
    (fun e _ => e = .io) s := by
  cases e with
  | call c =>
    exact (wp_exec h c hf hs).mono (fun _ _ ⟨ha, _, l', hl', _⟩ => ⟨ha, l', hl'⟩) fun _ _ he => he.1
  | crash c n options =>
    obtain ⟨hp, l', ix, hst, hd, hj⟩ := crashed_stored h hf hs
    rw [Event.exec, wp_bind, wp_modify, exec, wp_bind, reopen, wp_bind, wp_get, wp_bind, wp_io]
    rw [← hp] at hd
    refine (wp_openWith options hst hd hj).mono ?_ fun _ _ he => he.1
    rintro i w' ⟨hd', hp', rfl, he⟩
    exact ⟨rfl, l', hst, by rw [hp']; exact hd', he, by rw [hp', hp]; exact h.ext⟩

end

/-- A run whose files can all be read over answers as the map, up to the first
operation the device refuses. -/
theorem run_eq {P : Contents → Db → Event → Prop} (hP : ∀ m s e, P m s e → Safe m s e) :
    ∀ (es : List Event) (m : Contents) (l : Layout) (s : Db), Holds m l s → FitsRun m es →
    Along P m es s →
      .error .io ∉ run es s → run es s = (Contents.run m es).map .ok
  | [], _, _, _, _, _, _, _ => rfl
  | e :: es, m, l, s, h, hf, hs, hio => by
    have hspec := wp_event h e hf.1 (hP _ _ _ hs.1)
    unfold wp at hspec
    have hmore := hs.2
    rw [run] at hio ⊢
    cases hx : e.exec s with
    | ok a s' =>
      rw [hx] at hspec hio hmore
      obtain ⟨rfl, l', hl'⟩ := hspec
      simp only [Contents.run, List.map_cons]
      rw [run_eq hP es _ l' s' hl' hf.2 hmore fun hmem => hio (List.mem_cons_of_mem _ hmem)]
    | error err s' =>
      rw [hx] at hspec hio
      obtain rfl : err = .io := hspec
      exact absurd List.mem_cons_self hio

theorem session_eq {P : Contents → Db → Event → Prop} (hP : ∀ m s e, P m s e → Safe m s e)
    {path : PathBuf}
    {options : Options} {es : List Event} {w : World} (hext : path.extension ≠ some "tmp")
    (hfresh : (w.bytes path).length < headerLen) (hf : FitsRun ∅ es)
    (hs : AlongSession P path options es w)
    (hio : .error .io ∉ session path options es w) :
    session path options es w = .ok .done :: (Contents.run ∅ es).map .ok := by
  have hspec := wp_openWith_fresh options hfresh hext
  unfold wp at hspec
  unfold session AlongSession at *
  cases hx : openWith path options w with
  | ok i w' =>
    simp only [hx] at hspec hio hs ⊢
    rw [run_eq hP es _ _ _ hspec hf hs fun hmem => hio (List.mem_cons_of_mem _ hmem)]
  | error e w' =>
    simp only [hx] at hspec hio
    rw [hspec] at hio
    exact absurd List.mem_cons_self hio

/-! ## Runs without crashes -/

/-- A file that only ever saw whole calls is clean, so nothing has to be skipped. -/
theorem along_clean : ∀ (cs : List Call) (m : Contents) (l : Layout) (s : Db), Holds m l s → l.junk = [] →
    FitsRun m (cs.map .call) → Along Safe m (cs.map .call) s
  | [], _, _, _, _, _, _ => trivial
  | c :: cs, m, l, s, h, hj, hf => by
    have hr : Readable s c := by
      cases c with
      | reopen => exact h.skippable.mpr (decodeRecord_nil hj)
      | _ => trivial
    have hspec := wp_exec h c hf.1 hr
    unfold wp at hspec
    refine ⟨hr, ?_⟩
    cases hx : (Event.call c).exec s with
    | ok a s' =>
      rw [show exec c s = .ok a s' from hx] at hspec
      obtain ⟨-, -, l', hl', hj', -⟩ := hspec
      exact along_clean cs _ l' s' hl' (hj' hj) hf.2
    | error e s' => trivial

/-- Over every sequence of calls, reopens included, and every choice of
options, each answer is the map's. -/
theorem session_answers {path : PathBuf} {options : Options} {cs : List Call} {w : World}
    (hext : path.extension ≠ some "tmp") (hfresh : (w.bytes path).length < headerLen)
    (hf : FitsRun ∅ (cs.map .call)) (hio : .error .io ∉ session path options (cs.map .call) w) :
    session path options (cs.map .call) w = .ok .done :: (Contents.run ∅ (cs.map .call)).map .ok := by
  refine session_eq (P := Safe) (fun _ _ _ h => h) hext hfresh hf ?_ hio
  have hspec := wp_openWith_fresh options hfresh hext
  unfold wp at hspec
  unfold AlongSession
  cases hx : openWith path options w with
  | ok i w' =>
    simp only [hx] at hspec ⊢
    exact along_clean cs _ _ _ hspec rfl hf
  | error e w' => trivial

theorem session_answers_instance :
    session ⟨"/", "store", some "crmem"⟩ ⟨.finite 0, true⟩
      ([.put 1 [7] [1, 2], .put 1 [7, 8] [3], .delete 1 [9], .reopen .default, .put 1 [7] [4],
        .scan 1 [7], .len].map
        .call) ⟨fun _ => none, none, .plain⟩ =
      .ok .done :: (Contents.run ∅ ([.put 1 [7] [1, 2], .put 1 [7, 8] [3], .delete 1 [9],
        .reopen .default,
        .put 1 [7] [4], .scan 1 [7], .len].map .call)).map .ok :=
  session_answers (by decide) (by decide) (by decide +kernel) (by decide +kernel)

end Crabtalk.Crabdb

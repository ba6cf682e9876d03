import Crabtalk.Crabdb.Spec

/-!
# The store refines the map

`Holds m l s`: the file of `s` has the layout `l`, which stores `m` under the
index `s` keeps in memory. Each operation is specified by what it makes of
that when it succeeds and, in the error clause, by what it leaves on the disk
when the device stops half way (`Left`).
-/

open Basis

namespace Crabtalk.Crabdb

structure Holds (m : Contents) (l : Layout) (s : Db) : Prop where
  stored : Stored m l s.inner.index
  disk : s.world.disk s.inner.path = some l.bytes
  endAt : s.inner.endAt = l.endAt
  ext : s.inner.path.extension ≠ some "tmp"

namespace Holds

variable {m : Contents} {l : Layout} {s : Db}

theorem bytes (h : Holds m l s) : s.world.bytes s.inner.path = l.bytes := by
  rw [World.bytes, h.disk]; rfl

theorem limit (h : Holds m l s) (budget : Option Nat) : Holds m l (s.limit budget) :=
  ⟨h.stored, h.disk, h.endAt, h.ext⟩

/-- The bytes past the append position are the junk. -/
theorem skippable (h : Holds m l s) : Skippable s ↔ decodeRecord l.junk = .ok none := by
  rw [Skippable, h.bytes, h.endAt, l.drop_endAt]

theorem clean (h : Holds m l s) : Clean s ↔ l.junk = [] := by
  rw [Clean, ← List.drop_eq_nil_iff, h.bytes, h.endAt, l.drop_endAt]

end Holds

/-- The file a failed operation leaves stores `m`. It can be read again if
`q` holds, and if the operation started on a clean file or what is now past
the append position can be skipped. -/
def Left (clean q : Prop) (m : Contents) (path : PathBuf) (s : Db) : Prop :=
  s.inner.path = path ∧ ∃ l ix, Stored m l ix ∧ s.world.disk path = some l.bytes ∧
    (clean ∨ Skippable s → q → decodeRecord l.junk = .ok none)

theorem Left.mono {clean clean' q q' : Prop} {m : Contents} {path : PathBuf} {s : Db}
    (h : Left clean q m path s)
    (hc : clean' → clean) (hq : q' → q) : Left clean' q' m path s := by
  obtain ⟨hp, l, ix, hs, hd, hj⟩ := h
  exact ⟨hp, l, ix, hs, hd, fun hk hq' => hj (hk.imp_left hc) (hq hq')⟩

theorem Holds.left {clean q : Prop} {m : Contents} {l : Layout} {s : Db} (h : Holds m l s)
    (hc : clean → decodeRecord l.junk = .ok none) : Left clean q m s.inner.path s :=
  ⟨rfl, l, _, h.stored, h.disk, fun hk _ => hk.elim hc h.skippable.mp⟩

theorem decodeRecord_nil {bs : Bytes} (h : bs = []) : decodeRecord bs = .ok none := by rw [h]; rfl

/-! ## Reading -/

section
variable {Q : Option Bytes → World → Prop} {E : Error → World → Prop} {w : World}

/-- The fields of a record, where they stand in the file. -/
theorem RecAt.split {l : Layout} {k : Key} {off : Nat} {v : Bytes} (h : RecAt l.body k off v) :
    ∃ a b, a.length = off ∧ l.bytes =
      a ++ ((0 :: k.1 :: le 4 k.2.length) ++ (k.2 ++ (le 4 v.length ++ (v ++ b)))) := by
  obtain ⟨a, b, hbody, hoff⟩ := h
  refine ⟨l.header.encode ++ a, b ++ l.junk, by simp [hoff], ?_⟩
  simp only [Layout.bytes, hbody, encodeRecord, Op.toByte, List.cons_append, List.append_assoc]

theorem wp_readValue {path : PathBuf} {l : Layout} {k : Key} {off : Nat} {v : Bytes}
    (hd : w.disk path = some l.bytes) (hr : RecAt l.body k off v) (hf : Fits k.2 v)
    (hQ : Q (some v) w) :
    wp (readValue path off) Q E w := by
  obtain ⟨a, b, hoff, hl⟩ := hr.split
  have hb : w.bytes path = l.bytes := by rw [World.bytes, hd]; rfl
  have h1 : readAt (w.bytes path) off 6 = some (0 :: k.1 :: le 4 k.2.length) := by
    rw [hb, hl, ← hoff]
    exact readAt_append _ _ _
  have h2 : readAt (w.bytes path) (off + 6 + k.2.length) 4 = some (le 4 v.length) := by
    have := readAt_append (a ++ ((0 :: k.1 :: le 4 k.2.length) ++ k.2)) (le 4 v.length) (v ++ b)
    simp only [List.length_append, List.length_cons, length_le, List.append_assoc, hoff] at this
    rw [hb, hl, Nat.add_assoc]
    exact this
  have h3 : readAt (w.bytes path) (off + 6 + k.2.length + 4) v.length = some v := by
    have := readAt_append (a ++ ((0 :: k.1 :: le 4 k.2.length) ++ (k.2 ++ le 4 v.length))) v b
    simp only [List.length_append, List.length_cons, length_le, List.append_assoc, hoff] at this
    rw [hb, hl, Nat.add_assoc, Nat.add_assoc, Nat.add_comm k.2.length 4, Nat.add_comm 4 k.2.length]
    exact this
  have hk : ofLe (List.drop 2 (0 :: k.1 :: le 4 k.2.length)) = k.2.length := ofLe_le_of_lt hf.1
  rw [readValue, wp_bind, wp_readExact h1]
  simp only [hk]
  rw [wp_bind, wp_readExact h2]
  simp only [ofLe_le_of_lt hf.2]
  rw [wp_bind, wp_readExact h3, wp_pure]
  exact hQ

theorem wp_readFound {path : PathBuf} {l : Layout} (hd : w.disk path = some l.bytes) :
    ∀ (found : List (Key × Nat)) (es : List (Key × Bytes)),
      List.Forall₂ (fun e x => e.1 = x.1 ∧ RecAt l.body e.1 e.2 x.2) found es →
      (∀ e ∈ es, Fits e.1.2 e.2) →
      wp (readFound path found) (fun r w' => r = es.map (fun e => (e.1.2, e.2)) ∧ w' = w)
      (fun _ _ => False) w
  | [], _, .nil, _ => ⟨rfl, rfl⟩
  | (k, off) :: found, (k', v) :: es, .cons ⟨hk, hr⟩ hes, hf => by
    simp only at hk hr
    subst hk
    rw [readFound, wp_bind]
    refine wp_readValue hd hr (hf _ List.mem_cons_self) ?_
    refine wp_bind.mpr ((wp_readFound hd found es hes fun e he =>
      hf e (List.mem_cons_of_mem _ he)).mono ?_
      fun _ _ h => h)
    rintro _ _ ⟨rfl, rfl⟩
    exact ⟨rfl, rfl⟩

end

/-! ## Writing -/

section
variable {m : Contents} {l : Layout} {s : Db}

theorem wp_io {α : Type} {m : Io α} {Q : α → Db → Prop} {E : Error → Db → Prop} {s : Db} :
    wp (io m) Q E s ↔ wp m (fun a w => Q a { s with world := w })
    (fun e w => E e { s with world := w }) s.world :=
  wp_zoom

/-- The record goes behind the body, or a strict prefix of it becomes junk. -/
theorem wp_append {op : Op} {col : UInt8} {key value : Bytes} {Q : Nat → Db → Prop}
    {E : Error → Db → Prop}
    (hd : s.world.disk s.inner.path = some l.bytes) (he : s.inner.endAt = l.endAt)
    (hQ : ∀ b, s.world.covers (10 + key.length + value.length) →
      l.endAt + (10 + key.length + value.length) ≤ maxOffset →
      Q l.endAt ⟨{ s.inner with endAt := l.endAt + (10 + key.length + value.length) },
        { s.world.store s.inner.path (some (⟨l.header, l.body ++ encodeRecord op col key value,
            l.junk.drop (10 + key.length + value.length)⟩ : Layout).bytes) with budget := b }⟩)
    (hf : Fits key value)
    (hE : ∀ j, (l.junk = [] → decodeRecord j = .ok none) →
      ¬ s.world.covers (10 + key.length + value.length) ∨
        maxOffset < l.endAt + (10 + key.length + value.length) →
      ∀ w, w.disk s.inner.path = some ({ l with junk := j } : Layout).bytes →
        E .io { s with world := w }) :
    wp (append op col key value) Q E s := by
  have hb : s.world.bytes s.inner.path = l.bytes := by rw [World.bytes, hd]; rfl
  have hlen := length_encodeRecord op col key value
  rw [append, wp_bind, wp_get, wp_bind, wp_io]
  refine wp_writeAll (fun b hc hroom => ?_) (fun n hn hc => ?_) fun hroom => ?_
  · rw [hlen, he] at hroom
    rw [hlen] at hc
    have := hQ b hc hroom
    rw [he, hb, l.overlay_end, hlen]
    simp only [wp_bind, inner, wp_modify, wp_pure, he]
    exact this
  · rw [he, hb, l.overlay_cut _ n (Nat.le_of_lt hn)]
    rw [hlen] at hc
    refine hE ((encodeRecord op col key value).take n ++ l.junk.drop n) (fun hj => ?_)
      (.inl hc) _ (by simp)
    rw [hj, List.drop_nil, List.append_nil]
    exact decodeRecord_take hf hn
  · rw [hlen, he] at hroom
    exact hE l.junk decodeRecord_nil (.inr hroom) s.world hd

theorem wp_chargeDead {off : Nat} {Q : Unit → Db → Prop} {E : Error → Db → Prop}
    (hQ : ∀ d, Q () { s with inner := { s.inner with dead := d } }) : wp (chargeDead off) Q E s := by
  rw [chargeDead, wp_bind, wp_get]
  split
  · exact hQ _
  · exact hQ s.inner.dead

/-- What a mutation keeps of the store besides what it stores. -/
def Keeps (s s' : Db) : Prop := s'.inner.path = s.inner.path ∧ s'.inner.options = s.inner.options

theorem wp_putRecord (h : Holds m l s) {col : UInt8} {key value : Bytes} (hf : Fits key value)
    (hn : (m.insert (col, key) value).size < 256 ^ 4) :
    wp (putRecord col key value)
      (fun _ s' => s.world.covers (10 + key.length + value.length) ∧ Keeps s s' ∧
        ∃ l', Holds (m.insert (col, key) value) l' s' ∧ (l.junk = [] → l'.junk = []))
      (fun e s' => e = .io ∧ (¬ s.world.covers (10 + key.length + value.length) ∨
        maxOffset < s.inner.endAt + (10 + key.length + value.length)) ∧
        Left (l.junk = []) True m s.inner.path s') s := by
  rw [putRecord, wp_bind]
  refine wp_append h.disk h.endAt (fun b hc hroom => ?_) hf fun j hclean hcut w hw => ?_
  · have hlen := length_encodeRecord .put col key value
    let l' : Layout := ⟨l.header, l.body ++ encodeRecord .put col key value,
      l.junk.drop (10 + key.length + value.length)⟩
    have hst : Stored (m.insert (col, key) value) l' (s.inner.index.insert (col, key) l.endAt) :=
      h.stored.put (k := (col, key)) hf hn _ (by rw [hlen]; exact hroom)
    have hend : l.endAt + (10 + key.length + value.length) = l'.endAt := by
      simp only [l', Layout.endAt, List.length_append, hlen]
      omega
    have hjunk : l.junk = [] → l'.junk = [] := fun hj => by simp only [l', hj, List.drop_nil]
    rw [wp_bind, wp_get, wp_bind, inner, wp_modify]
    have hH : ∀ d, Holds (m.insert (col, key) value) l' ⟨{ s.inner with
        index := s.inner.index.insert (col, key) l.endAt,
        endAt := l.endAt + (10 + key.length + value.length), dead := d },
        { s.world.store s.inner.path (some l'.bytes) with budget := b }⟩ := fun d =>
      ⟨hst, by simp, hend, h.ext⟩
    split
    · exact wp_chargeDead fun d => ⟨hc, ⟨rfl, rfl⟩, l', hH d, hjunk⟩
    · exact ⟨hc, ⟨rfl, rfl⟩, l', hH s.inner.dead, hjunk⟩
  · rw [h.endAt]
    have hH : Holds m { l with junk := j } { s with world := w } :=
      ⟨h.stored.junk j, hw, h.endAt, h.ext⟩
    exact ⟨rfl, hcut, hH.left hclean⟩

theorem wp_deleteRecord (h : Holds m l s) {col : UInt8} {key : Bytes} {stale : Nat}
    (hk : s.inner.index[(col, key)]? = some stale) :
    wp (deleteRecord col key stale)
      (fun _ s' => s.world.covers (10 + key.length) ∧ Keeps s s' ∧
        ∃ l', Holds (m.erase (col, key)) l' s' ∧ (l.junk = [] → l'.junk = []))
      (fun e s' => e = .io ∧ (¬ s.world.covers (10 + key.length) ∨
        maxOffset < s.inner.endAt + (10 + key.length)) ∧ Left (l.junk = []) True m s.inner.path s') s := by
  have hm : m[(col, key)]?.isSome := by rw [← h.stored.isSome, hk]; rfl
  obtain ⟨v, hv⟩ := Option.isSome_iff_exists.mp hm
  have hf : Fits key [] := ⟨(h.stored.fits _ v hv).1, by decide⟩
  rw [deleteRecord, wp_bind, inner, wp_modify, wp_bind]
  refine wp_append h.disk h.endAt (fun b hc hroom => ?_) hf fun j hclean hcut w hw => ?_
  · have hlen := length_encodeRecord .delete col key []
    let l' : Layout := ⟨l.header, l.body ++ encodeRecord .delete col key [],
        l.junk.drop (10 + key.length + 0)⟩
    have hst : Stored (m.erase (col, key)) l' (s.inner.index.erase (col, key)) :=
      h.stored.delete (k := (col, key)) hm _ (by rw [hlen]; exact hroom)
    have hend : l.endAt + (10 + key.length + 0) = l'.endAt := by
      simp only [l', Layout.endAt, List.length_append, hlen, List.length_nil]
      omega
    have hjunk : l.junk = [] → l'.junk = [] := fun hj => by simp only [l', hj, List.drop_nil]
    exact wp_chargeDead fun d => ⟨hc, ⟨rfl, rfl⟩, l', ⟨hst, by simp [l'], hend, h.ext⟩, hjunk⟩
  · rw [h.endAt]
    refine ⟨rfl, hcut, rfl, { l with junk := j }, _, h.stored.junk j, hw,
      fun hk _ => hk.elim hclean fun hk => ?_⟩
    have hskip : decodeRecord ((w.bytes s.inner.path).drop l.endAt) = .ok none := hk
    have hb : w.bytes s.inner.path = ({ l with junk := j } : Layout).bytes := by rw [World.bytes, hw]; rfl
    rw [hb] at hskip
    have hdrop := ({ l with junk := j } : Layout).drop_endAt
    rw [← hdrop]
    exact hskip

/-- A crash leaves the file as it was, or with a piece of the snapshot behind
the body, or with the snapshot and a header that names it. -/
theorem wp_snapshot (h : Holds m l s) :
    wp snapshot
      (fun _ s' => Keeps s s' ∧ ∃ l', Holds m l' s' ∧ (l.junk = [] → l'.junk = []))
      (fun e s' => e = .io ∧ Left (l.junk = []) (SnapshotQuiet s) m s.inner.path s') s := by
  rw [snapshot, wp_bind, wp_get]
  refine wp_ite (fun hsnap => ?_) fun _ => ?_
  · let enc := encodeIndex s.inner.index.toList
    let full : Layout := { l with junk := enc ++ l.junk.drop enc.length }
    let l' : Layout := ⟨⟨l.endAt, enc.length⟩, l.body ++ enc, l.junk.drop enc.length⟩
    have hfull : full.bytes = (⟨l.header, l.body ++ enc, l.junk.drop enc.length⟩ : Layout).bytes := by
      simp only [full, Layout.bytes, List.append_assoc]
    rw [wp_bind, wp_io]
    refine wp_writeAll (fun b hc hroom => ?_) (fun n hn hc => ?_) fun _ =>
      ⟨rfl, h.left decodeRecord_nil⟩
    · have hroom' : l.endAt + enc.length ≤ maxOffset := by rw [← h.endAt]; exact hroom
      -- The snapshot is on the disk, and the header still names the old one.
      have written : ∀ (i : Inner) (w : World), i.path = s.inner.path →
          w.disk s.inner.path = some full.bytes →
          Left (l.junk = []) (SnapshotQuiet s) m s.inner.path ⟨i, w⟩ := fun i w hi hw => by
        refine ⟨hi, full, _, h.stored.junk _, hw, fun _ hq => ?_⟩
        have := hq hsnap
        rw [h.bytes, h.endAt, ← List.drop_drop, l.drop_endAt] at this
        exact this
      rw [h.bytes, h.endAt, l.overlay_end, ← hfull]
      rw [wp_bind, inner, wp_modify, wp_bind, wp_io]
      refine wp_spend (fun b' => ?_) ⟨rfl, written _ _ rfl (by simp)⟩
      rw [wp_bind, wp_io]
      refine wp_rewriteHeader (fun b' => ?_) ⟨rfl, written _ _ rfl (by simp)⟩
      have hover : ∀ w : World, w.disk s.inner.path = some full.bytes →
          overlay (w.bytes s.inner.path) 0 (Header.encode ⟨l.endAt, enc.length⟩) = l'.bytes := fun w hw => by
        rw [World.bytes, hw, Option.getD_some, hfull]
        exact Layout.overlay_header _ _
      have hH : ∀ w : World, w.disk s.inner.path = some l'.bytes →
          Holds m l' ⟨{ s.inner with endAt := l.endAt + enc.length }, w⟩ := fun w hw =>
        ⟨h.stored.snapshot _ hroom', hw, by simp only [l', Layout.endAt, List.length_append]; omega, h.ext⟩
      rw [wp_io]
      refine wp_spend (fun b' => ⟨⟨rfl, rfl⟩, l', hH _ ?_, fun hj => ?_⟩) ⟨rfl, (hH _ ?_).left ?_⟩
      · exact (World.store_self ..).trans (congrArg some (hover _ (World.store_self ..)))
      · simp only [l', hj, List.drop_nil]
      · exact (World.store_self ..).trans (congrArg some (hover _ (World.store_self ..)))
      · exact fun hj => decodeRecord_nil (by simp only [l', hj, List.drop_nil])
    · rw [h.bytes, h.endAt, l.overlay_cut _ n (Nat.le_of_lt hn)]
      have hH : Holds m { l with junk := enc.take n ++ l.junk.drop n }
          { s with world := { s.world.store s.inner.path
              (some ({ l with junk := enc.take n ++ l.junk.drop n } : Layout).bytes) with budget := some 0 } } :=
        ⟨h.stored.junk _, by simp, h.endAt, h.ext⟩
      refine ⟨rfl, rfl, _, _, hH.stored, hH.disk,
        fun hk hq => hk.elim (fun hj => ?_) hH.skippable.mp⟩
      have := hq hsnap
      rw [h.bytes, h.endAt, ← List.drop_drop, l.drop_endAt, hj, List.drop_nil, List.append_nil] at this
      simp only [hj, List.drop_nil, List.append_nil]
      exact decodeRecord_of_isPrefix (List.take_prefix ..) this
  · rw [wp_io]
    exact wp_spend (fun b => ⟨⟨rfl, rfl⟩, l, h.limit b, id⟩) ⟨rfl, h.left decodeRecord_nil⟩

/-- The copy reads the old file and leaves it alone; the new one holds the
entries copied so far, and no junk. -/
theorem wp_copyLive {path tmp : PathBuf} (hne : tmp ≠ path) :
    ∀ (live : List (Key × Nat)) (es : List (Key × Bytes)) (copied : Contents) (body : Bytes)
    (moved : Index) (w : World),
      List.Forall₂ (fun e x => e.1 = x.1 ∧ RecAt l.body e.1 e.2 x.2) live es →
      (∀ e ∈ es, Fits e.1.2 e.2) →
      copied.size + es.length < 256 ^ 4 → Stored copied ⟨.default, body, []⟩ moved →
      w.disk path = some l.bytes → w.disk tmp = some (⟨.default, body, []⟩ : Layout).bytes →
      wp (copyLive path tmp live moved (headerLen + body.length))
        (fun r w' => w'.disk path = some l.bytes ∧ r.1 = pack es moved (headerLen + body.length) ∧
          ∃ body', r.2 = headerLen + body'.length ∧
          w'.disk tmp = some (⟨.default, body', []⟩ : Layout).bytes ∧
            Stored (es.foldl (fun m e => m.insert e.1 e.2) copied) ⟨.default, body', []⟩ r.1)
        (fun e w' => e = .io ∧ w'.disk path = some l.bytes) w := by
  -- Induction on the entries copied so far: `copied` and `moved` belong to the bytes of `tmp`.
  intro live
  induction live with
  | nil =>
    intro es copied body moved w hlive _ _ hs hd ht
    cases hlive
    exact ⟨hd, rfl, body, rfl, ht, hs⟩
  | cons e live ih =>
    intro es copied body moved w hlive hf hn hs hd ht
    obtain ⟨⟨col, key⟩, off⟩ := e
    obtain ⟨⟨k', v⟩, es, ⟨hk, hr⟩, hes, rfl⟩ := List.forall₂_cons_left_iff.mp hlive
    simp only at hk hr
    subst hk
    have hfit := hf _ List.mem_cons_self
    have hsize : (copied.insert (col, key) v).size ≤ copied.size + 1 :=
      Std.ExtTreeMap.size_insert_le
    have hb : w.bytes tmp = (⟨.default, body, []⟩ : Layout).bytes := by rw [World.bytes, ht]; rfl
    have hlen := length_encodeRecord .put col key v
    rw [List.length_cons] at hn
    rw [copyLive, wp_bind]
    refine wp_readValue hd hr hfit ?_
    simp only
    rw [wp_bind]
    refine wp_writeAll (fun b _ hroom => ?_) (fun n _ _ => ?_) fun _ => ⟨rfl, hd⟩
    -- the record goes to the end, behind what was copied before
    · have hover := Layout.overlay_end ⟨.default, body, []⟩ (encodeRecord .put col key v)
      simp only [Layout.endAt, List.drop_nil] at hover
      have ih := ih es (copied.insert (col, key) v) (body ++ encodeRecord .put col key v)
        (moved.insert (col, key) (headerLen + body.length))
        { w.store tmp (some (overlay (w.bytes tmp) (headerLen + body.length) (encodeRecord .put col key v)))
          with budget := b } hes (fun e he => hf e (List.mem_cons_of_mem _ he)) (by omega)
        (hs.put (k := (col, key)) hfit (Nat.lt_of_le_of_lt hsize (by omega)) [] hroom)
        ((World.store_other _ _ hne.symm).trans hd) (by simp [hb, hover])
      rw [List.length_append, ← Nat.add_assoc] at ih
      rw [pack, ← hlen]
      exact ih
    · exact ⟨rfl, (World.store_other _ _ hne.symm).trans hd⟩

/-- A crash before the rename leaves the old file; one after it leaves the new
one, with the crash of a snapshot. -/
theorem wp_compact (h : Holds m l s) :
    wp compact
      (fun _ s' => Keeps s s' ∧ ∃ l', Holds m l' s' ∧ l'.junk = [])
      (fun e s' => e = .io ∧ Left (l.junk = []) (PackQuiet m s.inner.options) m s.inner.path s') s := by
  have hne : s.inner.path.withExtension "tmp" ≠ s.inner.path := fun he => h.ext (by rw [← he]; rfl)
  -- Until the rename nothing the store has of its file changes.
  have old : ∀ w : World, w.disk s.inner.path = some l.bytes →
      Left (l.junk = []) (PackQuiet m s.inner.options) m s.inner.path { s with world := w } := fun w hw =>
    (⟨h.stored, hw, h.endAt, h.ext⟩ : Holds m l { s with world := w }).left decodeRecord_nil
  rw [compact, wp_bind, wp_get]
  simp only
  rw [wp_bind, wp_io]
  refine wp_openFile (fun b₁ => ?_) ⟨rfl, h.left decodeRecord_nil⟩
  rw [wp_bind, wp_io]
  have hd₁ : (s.world.store (s.inner.path.withExtension "tmp") (some [])).disk s.inner.path =
      some l.bytes :=
    (World.store_other _ _ hne.symm).trans h.disk
  refine wp_writeAll (fun b₂ _ _ => ?_) (fun n _ _ => ⟨rfl, old _ ?_⟩) fun _ => ⟨rfl, old _ hd₁⟩
  · have hfit : ∀ e ∈ m.toList, Fits e.1.2 e.2 := fun e he =>
      h.stored.fits e.1 e.2 (Std.ExtTreeMap.mem_toList_iff_getElem?_eq_some.mp he)
    have hcount : (∅ : Contents).size + m.toList.length < 256 ^ 4 := by
      rw [Std.ExtTreeMap.length_toList, Std.ExtTreeMap.size_empty, Nat.zero_add]
      exact h.stored.count
    rw [wp_bind, wp_io]
    refine (wp_copyLive hne s.inner.index.toList m.toList ∅ [] ∅ _ h.stored.toList hfit hcount
      .empty ?_ ?_).mono ?_
      fun e w' he => ⟨he.1, old w' he.2⟩
    · exact (World.store_other _ _ hne.symm).trans hd₁
    · simp [Layout.bytes, overlay, World.bytes]
    · rintro ⟨moved, endAt⟩ w₃ ⟨hd₃, hpack, body', hend, ht, hs⟩
      rw [foldl_insert_toList] at hs
      simp only at hpack hend hs ⊢
      rw [wp_bind, wp_io]
      refine wp_spend (fun b₄ => ?_) ⟨rfl, old _ hd₃⟩
      rw [wp_bind, wp_io]
      refine wp_rename (fun b₅ => ?_) ⟨rfl, old _ hd₃⟩
      rw [wp_bind, inner, wp_modify]
      have hH : Holds m ⟨.default, body', []⟩ ⟨{ s.inner with index := moved, endAt, dead := 0 },
          { (w₃.store (s.inner.path.withExtension "tmp") none).store s.inner.path
              (w₃.disk (s.inner.path.withExtension "tmp")) with budget := b₅ }⟩ :=
        ⟨hs, (World.store_self ..).trans ht, hend, h.ext⟩
      refine (wp_snapshot hH).mono ?_ fun e s' hcut =>
        ⟨hcut.1, hcut.2.mono (fun _ => rfl) fun hq hsnap => ?_⟩
      · rintro _ s' ⟨hk, l', hl', hj⟩
        exact ⟨hk, l', hl', hj rfl⟩
      rw [hH.bytes, hH.endAt, ← List.drop_drop, Layout.drop_endAt, List.drop_nil, List.append_nil]
      simp only [hpack]
      exact hq hsnap
  · exact (World.store_other _ _ hne.symm).trans hd₁

theorem wp_maybeCompact (h : Holds m l s) :
    wp maybeCompact
      (fun _ s' => ∃ l', Holds m l' s' ∧ (l.junk = [] → l'.junk = []) ∧
        s'.inner.path = s.inner.path)
      (fun e s' => e = .io ∧ compactDue s.inner = true ∧
        Left (l.junk = []) (PackQuiet m s.inner.options) m s.inner.path s') s := by
  rw [maybeCompact, wp_bind, wp_get]
  refine wp_ite (fun hdue => ?_) fun _ => ⟨l, h, id, rfl⟩
  exact (wp_compact h).mono (fun _ _ ⟨hk, l', hl', hj⟩ => ⟨l', hl', fun _ => hj, hk.1⟩)
    fun _ _ ⟨he, hleft⟩ => ⟨he, hdue, hleft⟩

end

/-! ## Opening -/

section
variable {m : Contents} {l : Layout} {path : PathBuf} (options : Options) {w : World}

/-- Opening a file with a header makes of it what loading its snapshot and replaying the rest
gives. -/
theorem wp_openWith_read {Q : Inner → World → Prop} {E : Error → World → Prop}
    (hd : w.disk path = some l.bytes) (ha : l.header.indexAt < 256 ^ 8)
    (hl : l.header.indexLen < 256 ^ 8)
    (hQ : ∀ b, match loadSnapshot w.memory l.bytes l.header with
      | .error e => E e { w.store path (some l.bytes) with budget := b }
      | .ok (index, replayFrom) =>
        match replay (l.bytes.drop replayFrom).length index 0 replayFrom (l.bytes.drop
          replayFrom) with
        | .ok (index, dead, endAt) =>
          Q ⟨path, index, endAt, dead, options⟩ { w.store path (some l.bytes) with budget := b }
        | .error e => E e { w.store path (some l.bytes) with budget := b })
    (hE : w.budget ≠ none → E .io w) : wp (openWith path options) Q E w := by
  have hb : w.bytes path = l.bytes := by rw [World.bytes, hd]; rfl
  have hlen : ¬ l.bytes.length < headerLen := by simp [Layout.bytes]
  have hread : readAt l.bytes 0 headerLen = some l.header.encode := by
    have := readAt_append [] l.header.encode (l.body ++ l.junk)
    rwa [Header.length_encode] at this
  rw [openWith, wp_bind]
  refine wp_openFile_of (fun b => ?_) hE
  let w₁ : World := { w.store path (some l.bytes) with budget := b }
  have hb₁ : w₁.bytes path = l.bytes := World.bytes_store_self ..
  show wp _ _ _ { w.store path (some (w.bytes path)) with budget := b }
  rw [hb]
  show wp _ _ _ w₁
  rw [wp_bind, wp_get]
  simp only [hb₁]
  rw [if_neg hlen, wp_bind, wp_readExact (by rw [hb₁]; exact hread)]
  rw [Header.decode_encode _ ha hl]
  simp only
  rw [wp_bind, wp_get, wp_bind, wp_get, hb₁]
  have hstep := hQ b
  cases hload : loadSnapshot w.memory l.bytes l.header with
  | error e =>
    rw [show loadSnapshot w₁.memory l.bytes l.header = .error e from hload]
    rw [hload] at hstep
    exact hstep
  | ok r =>
    obtain ⟨index, replayFrom⟩ := r
    rw [show loadSnapshot w₁.memory l.bytes l.header = .ok (index, replayFrom) from hload]
    rw [hload] at hstep
    simp only at hstep ⊢
    rw [wp_bind, readToEnd, wp_bind, wp_get, hb₁, wp_pure]
    split at hstep
    · rename_i hr
      rw [hr]
      exact hstep
    · rename_i hr
      rw [hr]
      exact hstep

/-- Opening a file whose junk can be skipped finds the index it was written under. -/
theorem wp_openWith {ix : Index} (hs : Stored m l ix) (hd : w.disk path = some l.bytes)
    (hj : decodeRecord l.junk = .ok none) :
    wp (openWith path options)
      (fun i w' => w'.disk path = some l.bytes ∧ i.path = path ∧ i.index = ix ∧ i.endAt = l.endAt)
      (fun e w' => e = .io ∧ w'.disk path = some l.bytes) w := by
  obtain ⟨index, replayFrom, dead, hload, hreplay⟩ := hs.log.load w.memory hj
  refine wp_openWith_read options hd hs.header_lt.1 hs.header_lt.2 (fun b => ?_) fun _ => ⟨rfl, hd⟩
  rw [hload]
  dsimp only
  rw [hreplay]
  exact ⟨World.store_self .., rfl, rfl, rfl⟩

/-- Opening a path that holds no file, or less than a header, writes a header and nothing else. -/
theorem wp_openWith_new (hfresh : (w.bytes path).length < headerLen) :
    wp (openWith path options)
      (fun i w' => i = { path, index := ∅, endAt := headerLen, dead := 0, options } ∧
        w'.disk path = some (⟨.default, [], []⟩ : Layout).bytes)
      (fun e _ => e = .io) w := by
  rw [openWith, wp_bind]
  refine wp_openFile (fun b => ?_) rfl
  rw [wp_bind, wp_get]
  show wp (if (World.bytes { w.store path (some (w.bytes path)) with budget := b } path).length < headerLen
    then _ else _) _ _ _
  rw [if_pos (by simpa [World.bytes] using hfresh), wp_bind]
  refine wp_setLen0 (fun b => ?_) rfl
  rw [wp_bind]
  refine wp_writeAll (fun b _ _ => ?_) (fun _ _ _ => rfl) fun _ => rfl
  rw [wp_bind]
  refine wp_spend (fun b => ?_) rfl
  exact ⟨rfl, by simp [Layout.bytes, overlay, World.bytes]⟩

theorem wp_openWith_fresh (hfresh : (w.bytes path).length < headerLen)
    (hext : path.extension ≠ some "tmp") :
    wp (openWith path options) (fun i w' => Holds ∅ ⟨.default, [], []⟩ ⟨i, w'⟩)
    (fun e _ => e = .io) w := by
  refine (wp_openWith_new options hfresh).mono (fun i w' ⟨hi, hd⟩ => ?_) fun _ _ he => he
  rw [hi]
  exact ⟨.empty, hd, rfl, hext⟩

end

/-! ## The calls -/

section
variable {m : Contents} {l : Layout} {s : Db}

/-- A call whose record is written may compact the file, which leaves the map after it. -/
theorem wp_written (c : Call) {s₁ : Db} {l₁ : Layout} (hk : Keeps s s₁)
    (hl₁ : Holds (m.step c).1 l₁ s₁) (hj₁ : l.junk = [] → l₁.junk = [])
    (hdue : compactDue s₁.inner = true → compacts s c = true) :
    wp maybeCompact
      (fun _ s' => ∃ l', Holds (m.step c).1 l' s' ∧ (l.junk = [] → l'.junk = []) ∧
        s'.inner.path = s.inner.path)
      (fun e s' => e = .io ∧ Left (l.junk = []) (Quiet m s c) (m.step c).1 s.inner.path s') s₁ := by
  refine (wp_maybeCompact hl₁).mono ?_ ?_
  · rintro _ s₂ ⟨l₂, hl₂, hj₂, hp⟩
    exact ⟨l₂, hl₂, hj₂ ∘ hj₁, hp.trans hk.1⟩
  · rintro e s₂ ⟨he, hcompact, hleft⟩
    rw [hk.1, hk.2] at hleft
    exact ⟨he, hleft.mono hj₁ fun hq => hq.2 (hdue hcompact)⟩

/-- A call does to the stored map what the map's step says. If the device
stops it, it leaves the map before the call as long as the call's record is
not whole, and the map after it from then on. -/
theorem wp_exec (h : Holds m l s) (c : Call) (hf : c.Fits m) (hr : Readable s c) :
    wp (exec c)
      (fun a s' => a = (m.step c).2 ∧ s.world.covers (c.recordLen m) ∧
        ∃ l', Holds (m.step c).1 l' s' ∧ (l.junk = [] → l'.junk = []) ∧
        s'.inner.path = s.inner.path)
      (fun e s' => e = .io ∧
        (s.world.covers (c.recordLen m) ∧
          Left (l.junk = []) (Quiet m s c) (m.step c).1 s.inner.path s' ∨
          (¬ s.world.covers (c.recordLen m) ∨ maxOffset < s.inner.endAt + c.recordLen m) ∧
            Left (l.junk = []) True m s.inner.path s')) s := by
  have free : s.world.covers 0 := fun _ _ => Nat.zero_le _
  cases c with
  | put col key value =>
    rw [exec, wp_bind, put, wp_bind]
    refine (wp_putRecord h hf.1 hf.2).result.mono ?_ fun e s' hcut => ⟨hcut.1, .inr hcut.2⟩
    rintro _ s₁ ⟨hrun, hc, hk, l₁, hl₁, hj₁⟩
    -- a compaction that the record makes due is part of the same call
    have hdue : compactDue s₁.inner = true → compacts s (.put col key value) = true :=
      fun hcompact => by
      rw [compacts, hrun]
      exact hcompact
    exact (wp_written (m := m) (.put col key value) hk hl₁ hj₁ hdue).mono
      (fun _ _ hheld => ⟨rfl, hc, hheld⟩)
      fun _ _ hcut => ⟨hcut.1, .inl ⟨hc, hcut.2⟩⟩
  | delete col key =>
    rw [exec, wp_bind, delete, wp_bind, wp_get]
    cases hi : s.inner.index[(col, key)]? with
    | none =>
      -- nothing is written for a key that is not there
      have hm := h.stored.none_iff.mp hi
      refine ⟨?_, ?_, l, ?_, id, rfl⟩
      · simp [Contents.step, hm]
      · rw [Call.recordLen, hm]; exact free
      · show Holds (m.erase (col, key)) l s
        rw [erase_of_none hm]; exact h
    | some stale =>
      have hm : m[(col, key)]?.isSome := by rw [← h.stored.isSome, hi]; rfl
      have hrec : Call.recordLen m (.delete col key) = 10 + key.length := if_pos hm
      rw [hrec, wp_bind]
      refine (wp_deleteRecord h hi).result.mono ?_ fun e s' hcut => ⟨hcut.1, .inr hcut.2⟩
      rintro _ s₁ ⟨hrun, hc, hk, l₁, hl₁, hj₁⟩
      have hdue : compactDue s₁.inner = true → compacts s (.delete col key) = true :=
        fun hcompact => by
        simp only [compacts, hi, hrun]
        exact hcompact
      rw [wp_bind]
      refine (wp_written (m := m) (.delete col key) hk hl₁ hj₁ hdue).mono
        (fun _ _ hheld => ⟨?_, hc, hheld⟩)
        fun _ _ hcut => ⟨hcut.1, .inl ⟨hc, hcut.2⟩⟩
      show _ = Answer.present m[(col, key)]?.isSome
      rw [hm]
  | get col key =>
    rw [exec, wp_bind, getKey, wp_bind, wp_get]
    cases hi : s.inner.index[(col, key)]? with
    | none => exact ⟨by simp [Contents.step, h.stored.none_iff.mp hi], free, l, h, id, rfl⟩
    | some off =>
      obtain ⟨v, hv, hrec⟩ := h.stored.recAt hi
      simp only
      rw [wp_io]
      refine wp_readValue h.disk hrec (h.stored.fits _ v hv) ?_
      exact ⟨by simp [Contents.step, hv], free, l, h, id, rfl⟩
  | scan col stem =>
    rw [exec, wp_bind, scan, wp_bind, wp_get, wp_io, ColMap.range_eq_under]
    refine (wp_readFound h.disk _ _ (h.stored.under col stem) fun e he =>
      h.stored.fits e.1 e.2 (ColMap.mem_under.mp he).1).mono ?_
      fun _ _ h => h.elim
    rintro _ _ ⟨rfl, rfl⟩
    exact ⟨rfl, free, l, h, id, rfl⟩
  | scanKeys col stem =>
    rw [exec, wp_bind, scanKeys, wp_bind, wp_get, ColMap.range_eq_under]
    refine ⟨?_, free, l, h, id, rfl⟩
    simp only [Contents.step, (h.stored.under_keys col stem)]
  | len =>
    refine ⟨?_, free, l, h, id, rfl⟩
    show Answer.count s.inner.index.size = Answer.count m.size
    rw [h.stored.size_eq]
  | checkpoint =>
    rw [exec, wp_bind, checkpoint]
    refine (wp_snapshot h).mono ?_ fun _ _ hcut =>
      ⟨hcut.1, .inl ⟨free, hcut.2.mono id fun hq => hq.1 rfl⟩⟩
    rintro _ _ ⟨hk, l', hl', hj⟩
    exact ⟨rfl, free, l', hl', hj, hk.1⟩
  | compact =>
    rw [exec, wp_bind]
    refine (wp_compact h).mono ?_ fun _ _ hcut =>
      ⟨hcut.1, .inl ⟨free, hcut.2.mono id fun hq => hq.2 rfl⟩⟩
    rintro _ _ ⟨hk, l', hl', hj⟩
    exact ⟨rfl, free, l', hl', fun _ => hj, hk.1⟩
  | reopen options =>
    -- a reopen sees the bytes of the disk and nothing else
    rw [exec, wp_bind, reopen, wp_bind, wp_get, wp_bind, wp_io]
    refine (wp_openWith options h.stored h.disk (h.skippable.mp hr)).mono ?_ ?_
    · rintro i w' ⟨hd, hp, hi, he⟩
      exact ⟨rfl, free, l, ⟨by rw [hi]; exact h.stored, by rw [hp]; exact hd, he,
        by rw [hp]; exact h.ext⟩, id, hp⟩
    · rintro e w' ⟨he, hd⟩
      exact ⟨he, .inl ⟨free, (⟨h.stored, hd, h.endAt, h.ext⟩ :
        Holds m l { s with world := w' }).left decodeRecord_nil⟩⟩

end

end Crabtalk.Crabdb

import Crabtalk.Basis.Fields
import Crabtalk.System.Stdio
import Mathlib.Data.Char

/-!
# Merge patches

An update of an agent is a patch of its configuration: objects merge key by
key, a null removes, anything else replaces. Where the stored value has no
object to merge into, the patch stays there as it came, nulls and all.
-/

open Basis

namespace Crabtalk.System

open Store

namespace Json

def isNull : Json → Bool
  | null => true
  | _ => false

def isObject : Json → Bool
  | obj _ => true
  | _ => false

def members : Json → List (Str × Json)
  | obj fields => fields
  | _ => []

def under (v : Json) : List Str → Option Json
  | [] => some v
  | key :: path => (Fields.find key v.members).bind fun w => w.under path

inductive Valid : Json → Prop
  | null : Valid null
  | bool (b : Bool) : Valid (bool b)
  | num (n : Int) : Valid (num n)
  | real (text : Str) : Valid (real text)
  | str (s : Str) : Valid (str s)
  | arr {items : List Json} : (∀ v ∈ items, Valid v) → Valid (arr items)
  | obj {fields : List (Str × Json)} : Fields.Sorted fields → (∀ f ∈ fields, Valid f.2) →
      Valid (obj fields)

/-! ## The code -/

mutual

def merge : Json → Json → Json
  | .obj base, .obj patch => .obj (mergeFields base patch)
  | _, patch => patch

def mergeFields : List (Str × Json) → List (Str × Json) → List (Str × Json)
  | base, [] => base
  | base, f :: rest => mergeFields (mergeField base f) rest

def mergeField : List (Str × Json) → Str × Json → List (Str × Json)
  | base, (key, value) =>
    if value.isNull then Fields.drop key base else Fields.put key
      (merge ((Fields.find key base).getD .null) value) base

end

example : merge (.obj [("a".toList, .num 1), ("b".toList, .null)])
    (.obj [("a".toList, .null), ("c".toList, .obj [("d".toList, .num 2)])]) =
    .obj [("b".toList, .null), ("c".toList, .obj [("d".toList, .num 2)])] := rfl

/-! ## The specification -/

mutual

def mergePatch : Option Json → Json → Json
  | target, .obj patch => .obj (patchFields ((target.getD .null).members) patch)
  | _, patch => patch

def patchFields : List (Str × Json) → List (Str × Json) → List (Str × Json)
  | target, [] => target
  | target, f :: rest => patchFields (patchField target f) rest

def patchField : List (Str × Json) → Str × Json → List (Str × Json)
  | target, (name, value) =>
    if value.isNull then Fields.drop name target else Fields.put name
      (mergePatch (Fields.find name target) value) target

end

/-! ## Keys of a patched object -/

def apply (m : Option Json → Json → Json) : List (Str × Json) → List (Str × Json) →
    List (Str × Json)
  | target, [] => target
  | target, f :: rest =>
    apply m (if f.2.isNull then Fields.drop f.1 target
      else Fields.put f.1 (m (Fields.find f.1 target) f.2) target) rest

section
variable {m : Option Json → Json → Json} {base patch : List (Str × Json)} {b p v : Json} {key : Str}
  {path : List Str}

theorem mergeFields_eq : mergeFields base patch = apply (fun old v => merge (old.getD .null) v)
    base patch := by
  induction patch generalizing base with
  | nil => rfl
  | cons f rest ih =>
    obtain ⟨key, value⟩ := f
    rw [mergeFields, mergeField, apply, ih]

theorem patchFields_eq : patchFields base patch = apply mergePatch base patch := by
  induction patch generalizing base with
  | nil => rfl
  | cons f rest ih =>
    obtain ⟨name, value⟩ := f
    rw [patchFields, patchField, apply, ih]

theorem find_apply (hs : Fields.Sorted patch) : Fields.find key (apply m base patch) =
    (Fields.find key patch).elim (Fields.find key base) fun v => if v.isNull then none
    else some (m (Fields.find key base) v) := by
  induction patch generalizing base with
  | nil => rfl
  | cons f rest ih =>
    obtain ⟨hf, hrest⟩ := List.pairwise_cons.mp hs
    rw [apply, ih hrest, Fields.find]
    by_cases hk : key = f.1
    · have hnone : Fields.find key rest = none := Fields.find_eq_none_iff.mpr fun g hg => by
        rw [hk]; exact ne_of_gt (hf g hg)
      rw [if_pos hk, hnone, Option.elim_none, Option.elim_some, ← hk]
      by_cases hv : f.2.isNull = true
      · rw [if_pos hv, if_pos hv, Fields.find_drop, if_pos rfl]
      · rw [if_neg hv, if_neg hv, Fields.find_put, if_pos rfl]
    · have hsame : Fields.find key (if f.2.isNull then Fields.drop f.1 base
          else Fields.put f.1 (m (Fields.find f.1 base) f.2) base) =
          Fields.find key base := by
        by_cases hv : f.2.isNull = true
        · rw [if_pos hv, Fields.find_drop, if_neg hk]
        · rw [if_neg hv, Fields.find_put, if_neg hk]
      rw [if_neg hk, hsame]

theorem sorted_apply (hs : Fields.Sorted base) : Fields.Sorted (apply m base patch) := by
  induction patch generalizing base with
  | nil => exact hs
  | cons f rest ih =>
    refine ih ?_
    by_cases hv : f.2.isNull = true
    · rw [if_pos hv]
      exact Fields.sorted_drop hs
    · rw [if_neg hv]
      exact Fields.sorted_put hs

theorem merge_obj : merge (.obj base) (.obj patch) =
    .obj (apply (fun old v => merge (old.getD .null) v) base patch) := by
  rw [← mergeFields_eq]
  rfl

theorem mergePatch_obj (target : Option Json) :
    mergePatch target (.obj patch) = .obj (apply mergePatch (target.getD .null).members patch) := by
  rw [← patchFields_eq]
  rfl

theorem merge_other (h : ¬ (b.isObject = true ∧ p.isObject = true)) : merge b p = p := by
  cases b <;> cases p <;> first | rfl | exact absurd ⟨rfl, rfl⟩ h

theorem merge_null : merge .null v = v := merge_other fun hboth => Bool.false_ne_true hboth.1

theorem mergePatch_other (target : Option Json) (h : ¬ p.isObject = true) :
    mergePatch target p = p := by
  cases p <;> first | rfl | exact absurd rfl h

theorem mergePatch_none : mergePatch none p = mergePatch (some .null) p := by
  cases p <;> rfl

theorem members_of_not_object (h : ¬ b.isObject = true) : b.members = [] := by
  cases b <;> first | rfl | exact absurd rfl h

theorem isNull_iff : v.isNull = true ↔ v = .null := by
  cases v <;> simp [isNull]

theorem sizeOf_member {fields : List (Str × Json)} (h : Fields.find key fields = some v) :
    sizeOf v < sizeOf (obj fields) := by
  have hmem := List.sizeOf_lt_of_mem (Fields.mem_of_find h)
  simp only [Prod.mk.sizeOf_spec] at hmem
  simp only [obj.sizeOf_spec]
  omega

theorem objects {P : Json → Prop} (other : ∀ v, ¬ v.isObject = true → P v)
    (step : ∀ fields, (∀ key v, Fields.find key fields = some v → P v) → P (obj fields)) : ∀ v, P v
  | .obj fields => step fields fun _ v _ => objects other step v
  | .null => other _ Bool.false_ne_true
  | .bool _ => other _ Bool.false_ne_true
  | .num _ => other _ Bool.false_ne_true
  | .real _ => other _ Bool.false_ne_true
  | .str _ => other _ Bool.false_ne_true
  | .arr _ => other _ Bool.false_ne_true
termination_by v => sizeOf v
decreasing_by exact sizeOf_member ‹_›

theorem under_cons : v.under (key :: path) = (Fields.find key v.members).bind fun w =>
    w.under path := rfl

theorem under_append {rest : List Str} : v.under (path ++ rest) = (v.under path).bind fun w =>
    w.under rest := by
  induction path generalizing v with
  | nil => rfl
  | cons key path ih =>
    rw [List.cons_append, under_cons, under_cons]
    cases Fields.find key v.members with
    | none => rfl
    | some w => exact ih

theorem under_of_not_object (h : ¬ v.isObject = true) : v.under (key :: path) = none := by
  rw [under_cons, members_of_not_object h]
  rfl

theorem under_concat_of_not_object (h : ¬ v.isObject = true) : v.under (path ++ [key]) = none := by
  cases path with
  | nil => exact under_of_not_object h
  | cons k path => exact under_of_not_object h

/-! ## Where the two are the same -/

/-- Wherever the patch removes a key, the base has an object. -/
def Fits (b p : Json) : Prop := ∀ path key, p.under (path ++ [key]) = some .null →
    ∃ fields, b.under path = some (.obj fields)

theorem fits_of_not_object (h : ¬ p.isObject = true) : Fits b p := by
  intro path key hnull
  rw [under_concat_of_not_object h] at hnull
  cases hnull

theorem fits_obj : Fits (.obj base) (.obj patch) ↔
    ∀ key v, Fields.find key patch = some v → ¬ v.isNull = true →
    Fits ((Fields.find key base).getD .null) v := by
  constructor
  · intro hfits key v hfind _ path last hnull
    have hdown : (obj patch).under (key :: path ++ [last]) = some .null := by
      rw [List.cons_append, under_cons, members, hfind]
      exact hnull
    obtain ⟨fields, hbase⟩ := hfits (key :: path) last hdown
    rw [under_cons, members] at hbase
    cases hf : Fields.find key base with
    | none =>
      rw [hf] at hbase
      cases hbase
    | some w =>
      rw [hf] at hbase
      exact ⟨fields, hbase⟩
  · intro hfits path last hnull
    cases path with
    | nil => exact ⟨base, rfl⟩
    | cons key path =>
      rw [List.cons_append, under_cons, members] at hnull
      obtain ⟨v, hfind, hnull⟩ := Option.bind_eq_some_iff.mp hnull
      have hv : ¬ v.isNull = true := by
        intro hv
        rw [isNull_iff.mp hv, under_concat_of_not_object (v := null) Bool.false_ne_true] at hnull
        cases hnull
      obtain ⟨fields, hbase⟩ := hfits key v hfind hv path last hnull
      cases hf : Fields.find key base with
      | none =>
        rw [hf] at hbase
        cases path with
        | nil => cases hbase
        | cons k path => cases hbase
      | some w =>
        rw [hf] at hbase
        exact ⟨fields, by rw [under_cons, members, hf]; exact hbase⟩

theorem fits_other (h : ¬ b.isObject = true) :
    Fits b (.obj patch) ↔ ∀ key v, Fields.find key patch = some v → ¬ v.isNull = true ∧
    Fits .null v := by
  have hnone : ∀ path fields, b.under path ≠ some (.obj fields) := by
    intro path fields hu
    cases path with
    | nil =>
      cases hu
      exact h rfl
    | cons key path =>
      rw [under_of_not_object h] at hu
      cases hu
  constructor
  · intro hfits key v hfind
    constructor
    · intro hv
      have hnull : (obj patch).under ([] ++ [key]) = some .null := by
        rw [List.nil_append, under_cons, members, hfind, isNull_iff.mp hv]
        rfl
      obtain ⟨fields, hbase⟩ := hfits [] key hnull
      exact hnone _ _ hbase
    · intro path last hnull
      have hdown : (obj patch).under (key :: path ++ [last]) = some .null := by
        rw [List.cons_append, under_cons, members, hfind]
        exact hnull
      obtain ⟨fields, hbase⟩ := hfits (key :: path) last hdown
      exact absurd hbase (hnone _ _)
  · intro hall path last hnull
    exfalso
    cases path with
    | nil =>
      rw [List.nil_append, under_cons, members] at hnull
      obtain ⟨v, hfind, hnull⟩ := Option.bind_eq_some_iff.mp hnull
      exact (hall last v hfind).1 (isNull_iff.mpr (Option.some.inj hnull))
    | cons key path =>
      rw [List.cons_append, under_cons, members] at hnull
      obtain ⟨v, hfind, hnull⟩ := Option.bind_eq_some_iff.mp hnull
      obtain ⟨fields, hbase⟩ := (hall key v hfind).2 path last hnull
      cases path with
      | nil => cases hbase
      | cons k path => cases hbase

theorem Valid.sorted (h : Valid (.obj base)) : Fields.Sorted base := by
  cases h
  assumption

theorem Valid.member (h : Valid (.obj base)) (hfind : Fields.find key base = some v) : Valid v := by
  cases h with
  | obj _ hall => exact hall _ (Fields.mem_of_find hfind)

theorem Valid.getD (h : Valid (.obj base)) (key : Str) :
    Valid ((Fields.find key base).getD .null) := by
  cases hf : Fields.find key base with
  | none => exact .null
  | some v => exact h.member hf

/-- Two patches of the same members come to the same when they do for each. -/
theorem apply_eq_iff {m' : Option Json → Json → Json} {base' : List (Str × Json)}
    (hpatch : Fields.Sorted patch) (hb : Fields.Sorted base)
    (hb' : Fields.Sorted base') (hsame : ∀ key, Fields.find key patch = none →
      Fields.find key base = Fields.find key base') :
    apply m base patch = apply m' base' patch ↔
      ∀ key v, Fields.find key patch = some v → ¬ v.isNull = true →
      m (Fields.find key base) v = m' (Fields.find key base') v := by
  constructor
  · intro heq key v hfind hv
    have hkey := congrArg (Fields.find key) heq
    rw [find_apply hpatch, find_apply hpatch, hfind, Option.elim_some, Option.elim_some, if_neg hv,
      if_neg hv] at hkey
    exact Option.some.inj hkey
  · intro hall
    refine Fields.ext (sorted_apply hb) (sorted_apply hb') fun key => ?_
    rw [find_apply hpatch, find_apply hpatch]
    cases hfind : Fields.find key patch with
    | none => exact hsame key hfind
    | some v =>
      rw [Option.elim_some, Option.elim_some]
      by_cases hv : v.isNull = true
      · rw [if_pos hv, if_pos hv]
      · rw [if_neg hv, if_neg hv, hall key v hfind hv]

theorem mergePatch_getD (target : Option Json) :
    mergePatch target p = mergePatch (some (target.getD .null)) p := by
  cases target with
  | none => exact mergePatch_none
  | some t => rfl

/-- The code merges as it should just when the two fit. -/
theorem merge_eq_iff (hp : Valid p) (hb : Valid b) : merge b p = mergePatch (some b) p ↔ Fits b p := by
  induction p using objects generalizing b with
  | other p h =>
    rw [merge_other fun hboth => h hboth.2, mergePatch_other _ h]
    exact iff_of_true rfl (fits_of_not_object h)
  | step patch ih =>
    have hpatch := hp.sorted
    by_cases hobj : b.isObject = true
    · cases b with
      | obj base =>
        rw [merge_obj, mergePatch_obj, fits_obj, Json.obj.injEq, Option.getD_some, members,
          apply_eq_iff hpatch hb.sorted hb.sorted fun _ _ => rfl]
        refine forall₂_congr fun key v => forall₂_congr fun hfind _ => ?_
        rw [mergePatch_getD, ih key v hfind (hp.member hfind) (hb.getD key)]
      | _ => cases hobj
    · rw [fits_other hobj, mergePatch_obj, merge_other fun hboth => hobj hboth.1, Option.getD_some,
        members_of_not_object hobj, Json.obj.injEq]
      constructor
      · intro heq key v hfind
        have hkey := congrArg (Fields.find key) heq
        rw [find_apply hpatch, hfind, Option.elim_some, Fields.find_nil] at hkey
        by_cases hv : v.isNull = true
        · rw [if_pos hv] at hkey
          cases hkey
        · rw [if_neg hv, mergePatch_none] at hkey
          refine ⟨hv, (ih key v hfind (hp.member hfind) .null).mp ?_⟩
          rw [merge_null]
          exact Option.some.inj hkey
      · intro hall
        refine Fields.ext hpatch (sorted_apply List.Pairwise.nil) fun key => ?_
        rw [find_apply hpatch]
        cases hfind : Fields.find key patch with
        | none => rfl
        | some v =>
          obtain ⟨hv, hfits⟩ := hall key v hfind
          have heq := (ih key v hfind (hp.member hfind) .null).mpr hfits
          rw [merge_null] at heq
          rw [Option.elim_some, if_neg hv, Fields.find_nil, mergePatch_none, ← heq]

/-! ## Patched values -/

theorem valid_apply (hpatch : Fields.Sorted patch) (hb : Valid (.obj base))
    (hm : ∀ key v, Fields.find key patch = some v → Valid (m (Fields.find key base) v)) :
    Valid (.obj (apply m base patch)) := by
  refine .obj (sorted_apply hb.sorted) fun f hf => ?_
  have hfind := (Fields.find_iff (sorted_apply hb.sorted)).mpr hf
  rw [find_apply hpatch] at hfind
  cases hp : Fields.find f.1 patch with
  | none =>
    rw [hp] at hfind
    exact hb.member hfind
  | some v =>
    rw [hp, Option.elim_some] at hfind
    by_cases hv : v.isNull = true
    · rw [if_pos hv] at hfind
      cases hfind
    · rw [if_neg hv] at hfind
      rw [← Option.some.inj hfind]
      exact hm f.1 v hp

theorem valid_merge (hp : Valid p) (hb : Valid b) : Valid (merge b p) := by
  induction p using objects generalizing b with
  | other p h =>
    rw [merge_other fun hboth => h hboth.2]
    exact hp
  | step patch ih =>
    by_cases hobj : b.isObject = true
    · cases b with
      | obj base =>
        rw [merge_obj]
        exact valid_apply hp.sorted hb fun key v hfind =>
          ih key v hfind (hp.member hfind) (hb.getD key)
      | _ => cases hobj
    · rw [merge_other fun hboth => hobj hboth.1]
      exact hp

theorem valid_members (hb : Valid b) : Valid (.obj b.members) := by
  cases b with
  | obj base => exact hb
  | _ => exact .obj List.Pairwise.nil fun _ hf => absurd hf List.not_mem_nil

theorem valid_mergePatch (hp : Valid p) (hb : Valid b) : Valid (mergePatch (some b) p) := by
  induction p using objects generalizing b with
  | other p h =>
    rw [mergePatch_other _ h]
    exact hp
  | step patch ih =>
    rw [mergePatch_obj, Option.getD_some]
    refine valid_apply hp.sorted (valid_members hb) fun key v hfind => ?_
    rw [mergePatch_getD]
    exact ih key v hfind (hp.member hfind) ((valid_members hb).getD key)

theorem mergePatch_twice (hp : Valid p) (hb : Valid b) :
    mergePatch (some (mergePatch (some b) p)) p = mergePatch (some b) p := by
  induction p using objects generalizing b with
  | other p h => rw [mergePatch_other _ h, mergePatch_other _ h]
  | step patch ih =>
    have hpatch := hp.sorted
    have hbase := (valid_members hb).sorted
    rw [mergePatch_obj, mergePatch_obj, Option.getD_some, Option.getD_some, members]
    refine congrArg obj (Fields.ext (sorted_apply (sorted_apply hbase)) (sorted_apply hbase) fun key => ?_)
    rw [find_apply hpatch, find_apply hpatch]
    cases hfind : Fields.find key patch with
    | none => rfl
    | some v =>
      rw [Option.elim_some, Option.elim_some]
      by_cases hv : v.isNull = true
      · rw [if_pos hv, if_pos hv]
      · rw [if_neg hv, if_neg hv, mergePatch_getD (Fields.find key b.members),
          ih key v hfind (hp.member hfind) ((valid_members hb).getD key)]

/-- What the patch has an object at, the result has. -/
theorem mergePatch_object (hp : Valid p) {path : List Str} {fields : List (Str × Json)}
    (h : p.under path = some (.obj fields)) :
    ∃ fields', (mergePatch (some b) p).under path = some (.obj fields') := by
  induction p using objects generalizing b path with
  | other p hother =>
    cases path with
    | nil =>
      cases h
      exact absurd rfl hother
    | cons key path =>
      rw [under_of_not_object hother] at h
      cases h
  | step patch ih =>
    rw [mergePatch_obj]
    cases path with
    | nil => exact ⟨_, rfl⟩
    | cons key path =>
      rw [under_cons, members] at h ⊢
      obtain ⟨v, hfind, h⟩ := Option.bind_eq_some_iff.mp h
      have hv : ¬ v.isNull = true := by
        intro hv
        rw [isNull_iff.mp hv] at h
        cases path with
        | nil => cases h
        | cons k path => cases h
      rw [find_apply hp.sorted, hfind, Option.elim_some, if_neg hv, mergePatch_getD]
      exact ih key v hfind (hp.member hfind) h

theorem fits_patched (hp : Valid p) : Fits (mergePatch (some b) p) p := by
  intro path key hnull
  rw [under_append] at hnull
  obtain ⟨v, hv, hnull⟩ := Option.bind_eq_some_iff.mp hnull
  cases v with
  | obj fields => exact mergePatch_object hp hv
  | _ => cases hnull

/-- A null under a key of what is patched was there before. -/
theorem mergePatch_nulls (hp : Valid p)
    (h : (mergePatch (some b) p).under (key :: path) = some .null) :
    b.under (key :: path) = some .null := by
  induction p using objects generalizing b key path with
  | other p hother =>
    rw [mergePatch_other _ hother, under_of_not_object hother] at h
    cases h
  | step patch ih =>
    rw [mergePatch_obj, under_cons, members, find_apply hp.sorted] at h
    obtain ⟨w, hw, h⟩ := Option.bind_eq_some_iff.mp h
    cases hfind : Fields.find key patch with
    | none =>
      rw [hfind] at hw
      rw [under_cons, show Fields.find key b.members = some w from hw]
      exact h
    | some v =>
      rw [hfind, Option.elim_some] at hw
      by_cases hv : v.isNull = true
      · rw [if_pos hv] at hw
        cases hw
      · rw [if_neg hv, mergePatch_getD] at hw
        cases hw
        cases path with
        | nil =>
          -- an object stays one, and anything else is the patch's own
          by_cases ho : v.isObject = true
          · cases v with
            | obj inner =>
              rw [mergePatch_obj] at h
              cases h
            | _ => cases ho
          · rw [mergePatch_other _ ho] at h
            exact absurd (isNull_iff.mpr (Option.some.inj h)) hv
        | cons k path =>
          have hback := ih key v hfind (hp.member hfind) h
          cases hb : Fields.find key b.members with
          | none =>
            rw [Option.getD_some, hb] at hback
            cases hback
          | some w =>
            rw [Option.getD_some, hb] at hback
            rw [under_cons, hb]
            exact hback

end

end Json

/-- A JSON value as it is parsed: in every object the keys are in order, each once. -/
structure JsonValue where
  json : Json
  valid : json.Valid

namespace JsonValue

def merge (base patch : JsonValue) : JsonValue :=
  ⟨base.json.merge patch.json, Json.valid_merge patch.valid base.valid⟩

def mergePatch (target patch : JsonValue) : JsonValue :=
  ⟨Json.mergePatch (some target.json) patch.json, Json.valid_mergePatch patch.valid target.valid⟩

/-- A patch goes in as it should, leaves none of its nulls under a key, and going in again changes nothing. -/
structure MergesWell (base patch : JsonValue) : Prop where
  computes : base.merge patch = base.mergePatch patch
  nulls : ∀ key path, (base.merge patch).json.under (key :: path) = some .null →
    base.json.under (key :: path) = some .null
  twice : (base.merge patch).merge patch = base.merge patch

theorem ext {v w : JsonValue} (h : v.json = w.json) : v = w := by
  cases v
  cases w
  cases h
  rfl

/-- An update merges as it should just when the patch removes keys only where the base has an object. -/
theorem merge_computes (base patch : JsonValue) : base.MergesWell patch ↔
    base.json.Fits patch.json := by
  constructor
  · intro hwell
    exact (Json.merge_eq_iff patch.valid base.valid).mp (congrArg json hwell.computes)
  · intro hfits
    have hcomputes := (Json.merge_eq_iff patch.valid base.valid).mpr hfits
    refine ⟨ext hcomputes, fun key path h => ?_, ext ?_⟩
    · change (base.json.merge patch.json).under (key :: path) = some .null at h
      rw [hcomputes] at h
      exact Json.mergePatch_nulls patch.valid h
    · change (base.json.merge patch.json).merge patch.json = base.json.merge patch.json
      rw [hcomputes, (Json.merge_eq_iff patch.valid
        (Json.valid_mergePatch patch.valid base.valid)).mpr (Json.fits_patched patch.valid)]
      exact Json.mergePatch_twice patch.valid base.valid

/-- A removal under a key that is not there stays in the configuration. -/
theorem nested_null_stays : ¬ MergesWell ⟨.obj [], .obj List.Pairwise.nil (by simp)⟩
    ⟨.obj [("limits".toList, .obj [("depth".toList, .null)])],
      .obj (List.pairwise_singleton _ _)
      (by simpa using .obj (List.pairwise_singleton _ _) (by simpa using .null))⟩ := by
  intro hwell
  have hnull := hwell.nulls "limits".toList ["depth".toList] rfl
  cases hnull

end JsonValue

end Crabtalk.System

import Crabtalk.Basis.LittleEndian
import Crabtalk.Basis.Terminated
import Crabtalk.System.Berm

/-! # The digest that names an image

The hash is over the fields of what an image is built from, each followed by a
zero byte, with nothing to say how long a field is or how many there are.
-/

open Basis

namespace Crabtalk.System

open Store

variable {δ : Type} {sha : Bytes → δ}

def utf8 (s : Str) : Bytes := s.flatMap String.utf8EncodeChar

/-- What the hasher is given, update by update. An absent path is as no bytes. -/
def preimage (elf : Bytes) (declaration : HarnessConfig) (root session : Option Bytes)
    (scope : Scope) : Bytes :=
  elf ++ [0] ++ root.getD [] ++ [0] ++ session.getD [] ++ [0] ++ declaration.hosts.flatMap
    (fun host => utf8 host ++ [0]) ++ [0] ++
    utf8 scope.agent.toStr ++ [0] ++ scope.skills.flatMap fun skill => utf8 skill ++ [0]

def digest (sha : Bytes → δ) (elf : Bytes) (declaration : HarnessConfig)
    (root session : Option Bytes) (scope : Scope) : δ :=
  sha (preimage elf declaration root session scope)

structure Source where
  elf : Bytes
  root : Option Bytes
  session : Option Bytes
  hosts : List Str
  agent : AgentId
  skills : List Str
  deriving DecidableEq

namespace Source

variable {s s' : Source}

/-- The digest of a declaration under any name that comes to these grants. -/
def digest (sha : Bytes → δ) (s : Source) : δ :=
  System.digest sha s.elf ⟨[], none, s.hosts⟩ s.root s.session ⟨s.skills, s.agent⟩

/-! ## Strings and bytes -/

theorem utf8_inj {a b : Str} (h : utf8 a = utf8 b) : a = b := by
  have hbytes : (String.ofList a).toByteArray = (String.ofList b).toByteArray := by
    rw [String.toByteArray_ofList, String.toByteArray_ofList]
    exact congrArg List.toByteArray h
  exact String.ofList_injective (String.toByteArray_inj.mp hbytes)

theorem zero_ne_ofNat {n : Nat} (h₀ : 0 < n) (h : n < 256) : (0 : UInt8) ≠ UInt8.ofNat n := by
  intro heq
  have hn : 0 = n % 256 := by simpa using congrArg UInt8.toNat heq
  omega

theorem zero_notMem_utf8EncodeChar {c : Char} (hc : c ≠ '\x00') : 0 ∉ String.utf8EncodeChar c := by
  have hpos : 0 < c.val.toNat := by
    rcases Nat.eq_zero_or_pos c.val.toNat with h | h
    · exact absurd (Char.ext (UInt32.toNat.inj h)) hc
    · exact h
  unfold String.utf8EncodeChar
  dsimp only
  split
  · simp only [List.mem_singleton]
    exact zero_ne_ofNat hpos (by omega)
  · split
    · simp only [List.mem_cons, List.not_mem_nil, or_false, not_or]
      exact ⟨zero_ne_ofNat (by omega) (by omega), zero_ne_ofNat (by omega) (by omega)⟩
    · split
      · simp only [List.mem_cons, List.not_mem_nil, or_false, not_or]
        exact ⟨zero_ne_ofNat (by omega) (by omega), zero_ne_ofNat (by omega) (by omega),
          zero_ne_ofNat (by omega) (by omega)⟩
      · simp only [List.mem_cons, List.not_mem_nil, or_false, not_or]
        exact ⟨zero_ne_ofNat (by omega) (by omega), zero_ne_ofNat (by omega) (by omega),
          zero_ne_ofNat (by omega) (by omega),
          zero_ne_ofNat (by omega) (by omega)⟩

theorem zero_notMem_utf8 {a : Str} (h : '\x00' ∉ a) : 0 ∉ utf8 a := by
  intro hm
  obtain ⟨c, hc, hm⟩ := List.mem_flatMap.mp hm
  exact zero_notMem_utf8EncodeChar (fun heq => h (heq ▸ hc)) hm

theorem utf8_split (a b : Str) : utf8 (a ++ '\x00' :: b) = utf8 a ++ 0 :: utf8 b := by
  unfold utf8
  rw [List.flatMap_append, List.flatMap_cons]
  rfl

theorem zero_notMem_agent (agent : AgentId) : 0 ∉ utf8 agent.toStr := by
  have hdigit : ∀ n < 32, crockford.getD n '0' ≠ '\x00' := by decide
  have hbase : ∀ w n, '\x00' ∉ base32 w n := by
    intro w
    induction w with
    | zero => exact fun n => List.not_mem_nil
    | succ w ih =>
      intro n h
      rcases List.mem_append.mp h with h | h
      · exact ih _ h
      · exact hdigit (n % 32) (Nat.mod_lt _ (by omega)) (List.mem_singleton.mp h).symm
  exact zero_notMem_utf8 (hbase _ _)

theorem utf8_agent_ne_nil (agent : AgentId) : utf8 agent.toStr ≠ [] := by
  intro h
  have hnil : agent.toStr = [] := utf8_inj h
  have hlen := congrArg List.length hnil
  rw [show agent.toStr = base32 26 agent.ulid.val from rfl, length_base32] at hlen
  cases hlen

/-! ## Fields -/

def fields (s : Source) : List Bytes :=
  [s.elf, s.root.getD [], s.session.getD []] ++ s.hosts.map utf8 ++ [[], utf8 s.agent.toStr] ++
    s.skills.map utf8

theorem preimage_eq (s : Source) :
    preimage s.elf ⟨[], none, s.hosts⟩ s.root s.session ⟨s.skills, s.agent⟩ =
    terminated 0 s.fields := by
  have hmap : ∀ l : List Str, l.flatMap (fun a => utf8 a ++ [0]) = terminated 0 (l.map utf8) := by
    intro l
    unfold terminated
    rw [List.flatMap_map]
  unfold preimage fields
  simp only [hmap, terminated_append, terminated_cons, terminated_nil]
  simp

theorem digest_eq_iff (hsha : Function.Injective sha) : s.digest sha = s'.digest sha ↔
    terminated 0 s.fields = terminated 0 s'.fields := by
  unfold digest System.digest
  rw [hsha.eq_iff, preimage_eq, preimage_eq]

/-! ## One digest, one source -/

/-- Every field is there, none contains a zero byte, no host is granted, and there is one skill at most. -/
structure Unmistakable (s : Source) : Prop where
  elf : 0 ∉ s.elf
  root : ∃ root, s.root = some root ∧ root ≠ [] ∧ 0 ∉ root
  session : ∃ session, s.session = some session ∧ session ≠ [] ∧ 0 ∉ session
  hosts : s.hosts = []
  skills : s.skills = [] ∨ ∃ skill, s.skills = [skill] ∧ '\x00' ∉ skill

theorem utf8_skills {ks : List Str} {p : List Bytes} (hks : ks = [] ∨ ∃ k, ks = [k] ∧ '\x00' ∉ k)
    {ks' : List Str}
    (hlen : ks'.length ≤ p.length) (hp : p = ks.map utf8)
    (heq : terminated 0 p = terminated 0 (ks'.map utf8)) : ks' = ks := by
  subst hp
  rcases hks with rfl | ⟨k, rfl, -⟩
  · exact List.length_eq_zero_iff.mp (Nat.le_zero.mp hlen)
  · match ks', hlen, heq with
    | [], _, heq => simp at heq
    | [k'], _, heq => rw [utf8_inj (terminated_singleton_inj heq)]
    | _ :: _ :: _, hlen, _ => simp at hlen

theorem option_of_getD {o : Option Bytes} {b : Bytes} (hb : b ≠ []) (h : o.getD [] = b) :
    o = some b := by
  cases o with
  | none => exact absurd h.symm hb
  | some _ => exact congrArg some h

/-- The lone empty field is the fourth, so that the three before it are the ELF and the two
paths. -/
theorem pieces_placed {α : Type} {e r t a a' : List α} {pe pr pt ph pk k : List (List α)}
    (h : pe ++ (pr ++ (pt ++ (ph ++ [] :: a' :: pk))) = e :: r :: t :: [] :: a :: k) (ha : a ≠ [])
    (hk : k.length ≤ 1)
    (he : 1 ≤ pe.length) (hr : 1 ≤ pr.length) (ht : 1 ≤ pt.length) :
    pe = [e] ∧ pr = [r] ∧ pt = [t] ∧ ph = [] ∧ a' = a ∧ pk = k := by
  have hlen := congrArg List.length h
  simp only [List.length_append, List.length_cons] at hlen
  have hshort : pe.length + pr.length + pt.length + ph.length = 3 := by
    by_contra hne
    have hfour : pe.length + pr.length + pt.length + ph.length = 4 := by omega
    have hget := congrArg (fun l => l[4]?) h
    rw [← List.append_assoc, ← List.append_assoc, ← List.append_assoc] at hget
    rw [List.getElem?_append_right (by simp only [List.length_append]; omega)] at hget
    simp only [List.length_append, hfour, Nat.sub_self, List.getElem?_cons_zero,
      List.getElem?_cons_succ, Option.some.injEq] at hget
    exact ha hget.symm
  obtain ⟨e', rfl⟩ := List.length_eq_one_iff.mp (show pe.length = 1 by omega)
  obtain ⟨r', rfl⟩ := List.length_eq_one_iff.mp (show pr.length = 1 by omega)
  obtain ⟨t', rfl⟩ := List.length_eq_one_iff.mp (show pt.length = 1 by omega)
  have hph : ph = [] := by simpa using hshort
  subst hph
  simp only [List.singleton_append, List.nil_append, List.cons.injEq, true_and] at h
  obtain ⟨rfl, rfl, rfl, rfl, rfl⟩ := h
  exact ⟨rfl, rfl, rfl, rfl, rfl, rfl⟩

theorem Unmistakable.eq (h : s.Unmistakable)
    (heq : terminated 0 s'.fields = terminated 0 s.fields) : s' = s := by
  obtain ⟨root, hroot, hroot₀, hrootz⟩ := h.root
  obtain ⟨session, hsession, hsession₀, hsessionz⟩ := h.session
  have hskills : ∀ p ∈ s.skills.map utf8, 0 ∉ p := by
    rcases h.skills with hk | ⟨k, hk, hkz⟩
    · simp [hk]
    · simp [hk, zero_notMem_utf8 hkz]
  have hone : (s.skills.map utf8).length ≤ 1 := by
    rcases h.skills with hk | ⟨k, hk, -⟩
    · simp [hk]
    · simp [hk]
  obtain ⟨pe, hpe, hpe', hle⟩ := exists_pieces 0 [s'.elf]
  obtain ⟨pr, hpr, hpr', hlr⟩ := exists_pieces 0 [s'.root.getD []]
  obtain ⟨pt, hpt, hpt', hlt⟩ := exists_pieces 0 [s'.session.getD []]
  obtain ⟨ph, hph, hph', hlh⟩ := exists_pieces 0 (s'.hosts.map utf8)
  obtain ⟨pk, hpk, hpk', hlk⟩ := exists_pieces 0 (s'.skills.map utf8)
  -- every field is read as pieces that end in a zero byte and hold no other
  have hleft : ∀ p ∈ pe ++ (pr ++ (pt ++ (ph ++ [] :: utf8 s'.agent.toStr :: pk))), 0 ∉ p := by
    simp only [List.forall_mem_append, List.forall_mem_cons]
    exact ⟨hpe, hpr, hpt, hph, List.not_mem_nil, zero_notMem_agent _, hpk⟩
  have hright : ∀ p ∈ s.elf :: root :: session :: [] :: utf8 s.agent.toStr :: s.skills.map utf8, 0 ∉ p := by
    simp only [List.forall_mem_cons]
    exact ⟨h.elf, hrootz, hsessionz, List.not_mem_nil, zero_notMem_agent _, hskills⟩
  have hpieces : terminated 0 (pe ++ (pr ++ (pt ++ (ph ++ [] :: utf8 s'.agent.toStr :: pk)))) =
      terminated 0 (s.elf :: root :: session :: [] :: utf8 s.agent.toStr :: s.skills.map utf8) := by
    unfold fields at heq
    rw [hroot, hsession, h.hosts] at heq
    simp only [terminated_append, terminated_cons, terminated_nil, hpe', hpr', hpt', hph', hpk'] at heq ⊢
    simpa using heq
  -- the agent's piece is the only one behind an empty one, so the pieces fall into place
  obtain ⟨rfl, rfl, rfl, rfl, hagent, rfl⟩ :=
    pieces_placed (terminated_inj hleft hright hpieces) (utf8_agent_ne_nil _) hone hle hlr hlt
  have helf := terminated_singleton_inj hpe'
  have hroot' := option_of_getD hroot₀ (terminated_singleton_inj hpr').symm
  have hsession' := option_of_getD hsession₀ (terminated_singleton_inj hpt').symm
  have hhosts' : s'.hosts = [] := by simpa using hlh
  have hagent' := AgentId.toStr_inj (utf8_inj hagent)
  have hskills' := utf8_skills h.skills (by simpa using hlk) rfl hpk'
  cases s with
  | mk elf root session hosts agent skills =>
    cases s' with
    | mk elf' root' session' hosts' agent' skills' =>
      simp only [Source.mk.injEq]
      exact ⟨helf.symm, hroot'.trans hroot.symm, hsession'.trans hsession.symm,
        hhosts'.trans h.hosts.symm, hagent', hskills'⟩

section
variable (h : ∀ s', terminated 0 s'.fields = terminated 0 s.fields → s' = s)
include h

/-- No path and the empty path are written alike. -/
theorem root_of_alone : ∃ root, s.root = some root ∧ root ≠ [] ∧ 0 ∉ root := by
  cases hr : s.root with
  | none =>
    have hrival := congrArg Source.root (h { s with root := some [] } (by simp [fields, hr]))
    rw [hr] at hrival
    cases hrival
  | some root =>
    refine ⟨root, rfl, fun hnil => ?_, fun hz => ?_⟩
    · have hrival := congrArg Source.root (h { s with root := none } (by simp [fields, hr, hnil]))
      rw [hr] at hrival
      cases hrival
    · obtain ⟨x, y, rfl⟩ := List.append_of_mem hz
      have hrival := congrArg Source.elf
          (h { s with elf := s.elf ++ 0 :: x, root := some y } (by simp [fields, hr]))
      simp at hrival

theorem session_of_alone : ∃ session, s.session = some session ∧ session ≠ [] ∧ 0 ∉ session := by
  cases hr : s.session with
  | none =>
    have hrival := congrArg Source.session (h { s with session := some [] } (by simp [fields, hr]))
    rw [hr] at hrival
    cases hrival
  | some session =>
    refine ⟨session, rfl, fun hnil => ?_, fun hz => ?_⟩
    · have hrival := congrArg Source.session
          (h { s with session := none } (by simp [fields, hr, hnil]))
      rw [hr] at hrival
      cases hrival
    · obtain ⟨x, y, rfl⟩ := List.append_of_mem hz
      have hrival := congrArg (fun s => (s.root.getD []).length)
        (h { s with root := some (s.root.getD [] ++ 0 :: x), session := some y }
          (by simp [fields, hr]))
      simp at hrival

theorem elf_of_alone : 0 ∉ s.elf := by
  intro hz
  obtain ⟨x, y, hx⟩ := List.append_of_mem hz
  have hrival := congrArg Source.elf
      (h { s with elf := x, root := some (y ++ 0 :: s.root.getD []) } (by simp [fields, hx]))
  rw [hx] at hrival
  simp at hrival

/-- A host is written like a session root, if the fields before it move up by one. -/
theorem hosts_of_alone : s.hosts = [] := by
  cases hh : s.hosts with
  | nil => rfl
  | cons host hosts =>
    have hrival := congrArg Source.hosts
      (h { s with elf := s.elf ++ 0 :: s.root.getD [], root := some (s.session.getD []),
                  session := some (utf8 host), hosts } (by simp [fields, hh]))
    rw [hh] at hrival
    simp at hrival

theorem skills_of_alone : s.skills = [] ∨ ∃ skill, s.skills = [skill] ∧ '\x00' ∉ skill := by
  match hk : s.skills with
  | [] => exact .inl rfl
  | [skill] =>
    refine .inr ⟨skill, rfl, fun hz => ?_⟩
    obtain ⟨x, y, rfl⟩ := List.append_of_mem hz
    have hrival := congrArg Source.skills
        (h { s with skills := [x, y] } (by simp [fields, hk, utf8_split]))
    rw [hk] at hrival
    simp at hrival
  | x :: y :: rest =>
    have hrival := congrArg Source.skills
        (h { s with skills := (x ++ '\x00' :: y) :: rest } (by simp [fields, hk, utf8_split]))
    rw [hk] at hrival
    simp at hrival

end

/-! ## One ELF -/

/-- Paths and hosts are not empty, and no field but the ELF contains a zero byte. -/
structure Plain (s : Source) : Prop where
  root : ∀ root, s.root = some root → root ≠ [] ∧ 0 ∉ root
  session : ∀ session, s.session = some session → session ≠ [] ∧ 0 ∉ session
  hosts : ∀ host ∈ s.hosts, host ≠ [] ∧ '\x00' ∉ host
  skills : ∀ skill ∈ s.skills, '\x00' ∉ skill

theorem utf8_ne_nil {a : Str} (h : a ≠ []) : utf8 a ≠ [] := fun hu => h (utf8_inj hu)

theorem getD_inj {o o' : Option Bytes} (h : ∀ b, o = some b → b ≠ [] ∧ 0 ∉ b)
    (h' : ∀ b, o' = some b → b ≠ [] ∧ 0 ∉ b)
    (heq : o.getD [] = o'.getD []) : o = o' := by
  cases o with
  | none =>
    cases o' with
    | none => rfl
    | some b => exact absurd heq.symm (h' b rfl).1
  | some b =>
    cases o' with
    | none => exact absurd heq (h b rfl).1
    | some b' => exact congrArg some heq

theorem items_inj {α : Type} {xs ys s t : List (List α)} (hx : ∀ x ∈ xs, x ≠ [])
    (hy : ∀ y ∈ ys, y ≠ [])
    (h : xs ++ [] :: s = ys ++ [] :: t) : xs = ys ∧ s = t :=
  cut_inj (fun hm => hx [] hm rfl) (fun hm => hy [] hm rfl) h

theorem Plain.fields (h : s.Plain) :
    ∀ x ∈ s.root.getD [] :: s.session.getD [] ::
    (s.hosts.map utf8 ++ [] :: utf8 s.agent.toStr :: s.skills.map utf8),
    0 ∉ x := by
  have hpath : ∀ o : Option Bytes, (∀ b, o = some b → b ≠ [] ∧ 0 ∉ b) → 0 ∉ o.getD [] := by
    intro o ho
    cases o with
    | none => exact List.not_mem_nil
    | some b => exact (ho b rfl).2
  simp only [List.forall_mem_cons, List.forall_mem_append, List.forall_mem_map]
  exact ⟨hpath _ h.root, hpath _ h.session, fun host hh => zero_notMem_utf8 (h.hosts host hh).2,
    List.not_mem_nil,
    zero_notMem_agent _, fun skill hk => zero_notMem_utf8 (h.skills skill hk)⟩

/-- Among plain grants to one ELF no two have the same digest. -/
theorem Plain.digest_inj (hsha : Function.Injective sha) (h : s.Plain) (h' : s'.Plain)
    (helf : s.elf = s'.elf)
    (heq : s.digest sha = s'.digest sha) : s = s' := by
  rw [digest_eq_iff hsha] at heq
  unfold Source.fields at heq
  simp only [List.cons_append, List.nil_append, List.append_assoc, terminated_cons, helf,
    List.append_cancel_left_eq, List.cons.injEq,
    true_and] at heq
  rw [← terminated_cons, ← terminated_cons, ← terminated_cons, ← terminated_cons] at heq
  have hfields := terminated_inj h.fields h'.fields heq
  simp only [List.cons.injEq] at hfields
  obtain ⟨hroot, hsession, hrest⟩ := hfields
  obtain ⟨hhosts, hrest⟩ := items_inj
      (by simpa using fun host hh => utf8_ne_nil (h.hosts host hh).1)
    (by simpa using fun host hh => utf8_ne_nil (h'.hosts host hh).1) hrest
  obtain ⟨hagent, hskills⟩ := List.cons.inj hrest
  have hinj : Function.Injective utf8 := fun _ _ => utf8_inj
  cases s with
  | mk elf root session hosts agent skills =>
    cases s' with
    | mk elf' root' session' hosts' agent' skills' =>
      simp only [Source.mk.injEq]
      exact ⟨helf, getD_inj h.root h'.root hroot, getD_inj h.session h'.session hsession,
        hinj.list_map hhosts,
        AgentId.toStr_inj (utf8_inj hagent), hinj.list_map hskills⟩

/-- With a hash that never collides, a source has its digest for itself exactly when its fields
leave no doubt, and no two plain grants to one ELF have the same. -/
theorem digest_alone_iff (hsha : Function.Injective sha) :
    (∀ s : Source, (∀ s' : Source, s'.digest sha = s.digest sha → s' = s) ↔ s.Unmistakable) ∧
      ∀ s s' : Source, s.Plain → s'.Plain → s.elf = s'.elf →
      s.digest sha = s'.digest sha → s = s' := by
  refine ⟨fun s => ⟨fun h => ?_, fun h s' hs => h.eq ((digest_eq_iff hsha).mp hs)⟩,
    fun s s' h h' => h.digest_inj hsha h'⟩
  have h' : ∀ s', terminated 0 s'.fields = terminated 0 s.fields → s' = s :=
    fun s' hs => h s' ((digest_eq_iff hsha).mpr hs)
  exact ⟨elf_of_alone h', root_of_alone h', session_of_alone h', hosts_of_alone h',
    skills_of_alone h'⟩

def lone : Source := ⟨[127, 69], some [47], some [47], [], ⟨1⟩, [['r']]⟩

def hosted : Source := ⟨[127, 69, 76, 70, 2, 1, 1, 0], some [47], none, ["example.com".toList], ⟨1⟩,
    [['r'], ['s']]⟩

theorem hosted_plain : hosted.Plain := by
  refine ⟨fun root hroot => ?_, fun session hsession => ?_, by decide, by decide⟩
  · cases hroot
    decide
  · cases hsession

theorem digest_alone_instance :
    (∀ s' : Source, s'.digest (id : Bytes → Bytes) = lone.digest id → s' = lone) ∧
    (¬ ∀ s' : Source, s'.digest (id : Bytes → Bytes) = hosted.digest id → s' = hosted) ∧
    ∀ s' : Source, s'.Plain → s'.elf = hosted.elf → s'.digest (id : Bytes → Bytes) =
    hosted.digest id → s' = hosted := by
  have hid : Function.Injective (id : Bytes → Bytes) := Function.injective_id
  have halone := digest_alone_iff hid
  refine ⟨(halone.1 lone).mpr ?_, fun h => ?_,
    fun s' h helf heq => halone.2 s' hosted h hosted_plain helf heq⟩
  · exact ⟨by decide, ⟨[47], rfl, by decide⟩, ⟨[47], rfl, by decide⟩, rfl,
      .inr ⟨['r'], rfl, by decide⟩⟩
  · exact absurd ((halone.1 hosted).mp h).elf (by decide)

/-- An image that may touch no file, and one bounded by the empty path. -/
theorem no_root_as_empty_root :
    ∃ s s' : Source, (∀ (δ : Type) (sha : Bytes → δ), s.digest sha = s'.digest sha) ∧ s ≠ s' :=
  ⟨{ lone with root := none }, { lone with root := some [] }, fun _ _ => rfl, by decide⟩

end Source

end Crabtalk.System

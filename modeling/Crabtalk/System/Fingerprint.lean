import Crabtalk.System.Digest
import Crabtalk.System.Mcp

/-!
# What a fingerprint tells apart

The hasher is given the fields of a config one after another. Nothing says how
many pairs the environment has. What says it is where the stream ends: a mark
follows every string and nothing else has one in it, and the pairs are an even
number of strings.
-/

open Basis Std

namespace Crabtalk.System

open Store

/-! ## The stream -/

/-- A string is followed by a byte that is in no string. -/
def hashStr (s : Str) : Bytes := utf8 s ++ [0xff]

def hashStrs (xs : List Str) : Bytes := le 8 xs.length ++ xs.flatMap hashStr

def hashOption : Option Str → Bytes
  | none => le 8 0
  | some s => le 8 1 ++ hashStr s

def hashStream : Str × List Str × List (Str × Str) × Option Str × Option Str → Bytes
  | (command, args, env, url, auth) =>
    hashStr command ++ hashStrs args ++ env.flatMap (fun e => hashStr e.1 ++ hashStr e.2) ++
      hashOption url ++ hashOption auth

def identity (cfg : McpServerConfig) :
    Str × List Str × List (Str × Str) × Option Str × Option Str :=
  (cfg.command, cfg.args, cfg.env, cfg.url, cfg.auth)

/-! ## Reading the stream back -/

theorem lt_of_mem_utf8 {a : Str} {b : UInt8} (h : b ∈ utf8 a) : b.toNat < 248 := by
  obtain ⟨c, -, hb⟩ := List.mem_flatMap.mp h
  unfold String.utf8EncodeChar at hb
  dsimp only at hb
  split at hb
  · rw [List.mem_singleton] at hb
    rw [hb, UInt8.toNat_ofNat']
    omega
  · split at hb
    · simp only [List.mem_cons, List.not_mem_nil, or_false] at hb
      rcases hb with rfl | rfl <;> (rw [UInt8.toNat_ofNat']; omega)
    · split at hb
      · simp only [List.mem_cons, List.not_mem_nil, or_false] at hb
        rcases hb with rfl | rfl | rfl <;> (rw [UInt8.toNat_ofNat']; omega)
      · simp only [List.mem_cons, List.not_mem_nil, or_false] at hb
        rcases hb with rfl | rfl | rfl | rfl <;> (rw [UInt8.toNat_ofNat']; omega)

theorem mark_notMem_utf8 (a : Str) : 0xff ∉ utf8 a := fun h => absurd (lt_of_mem_utf8 h) (by decide)

theorem mark_notMem_none : 0xff ∉ le 8 0 := by decide

theorem mark_notMem_some : 0xff ∉ le 8 1 := by decide

theorem flatMap_hashStr (xs : List Str) : xs.flatMap hashStr = terminated 0xff (xs.map utf8) := by
  unfold terminated
  rw [List.flatMap_map]
  rfl

def envStrs (env : List (Str × Str)) : List Str := env.flatMap fun e => [e.1, e.2]

theorem flatMap_env (env : List (Str × Str)) : (env.flatMap fun e => hashStr e.1 ++ hashStr e.2) =
    terminated 0xff ((envStrs env).map utf8) := by
  rw [← flatMap_hashStr, envStrs, List.flatMap_assoc]
  simp

theorem length_envStrs (env : List (Str × Str)) : (envStrs env).length = 2 * env.length := by
  unfold envStrs
  induction env with
  | nil => rfl
  | cons e env ih =>
    rw [List.flatMap_cons, List.length_append, ih, List.length_cons]
    simp only [List.length_cons, List.length_nil]
    omega

theorem envStrs_inj {env env' : List (Str × Str)} (h : envStrs env = envStrs env') :
    env = env' := by
  induction env generalizing env' with
  | nil =>
    cases env' with
    | nil => rfl
    | cons e env' => cases h
  | cons e env ih =>
    cases env' with
    | nil => cases h
    | cons e' env' =>
      simp only [envStrs, List.flatMap_cons, List.cons_append, List.nil_append, List.cons.injEq] at h
      rw [ih h.2.2, Prod.ext h.1 h.2.1]

def tailFields : Option Str → Option Str → List Bytes
  | none, none => []
  | some url, none => [le 8 1 ++ utf8 url]
  | none, some auth => [le 8 0 ++ le 8 1 ++ utf8 auth]
  | some url, some auth => [le 8 1 ++ utf8 url, le 8 1 ++ utf8 auth]

def tailRest : Option Str → Option Str → Bytes
  | none, none => le 8 0 ++ le 8 0
  | some _, none => le 8 0
  | _, some _ => []

theorem tail_eq (url auth : Option Str) : hashOption url ++ hashOption auth =
    terminated 0xff (tailFields url auth) ++ tailRest url auth := by
  cases url <;> cases auth <;> simp [hashOption, hashStr, tailFields, tailRest]

theorem mark_notMem_tailFields (url auth : Option Str) : ∀ x ∈ tailFields url auth, 0xff ∉ x := by
  cases url <;> cases auth <;> simp [tailFields, mark_notMem_utf8, mark_notMem_none,
    mark_notMem_some]

theorem mark_notMem_tailRest (url auth : Option Str) : 0xff ∉ tailRest url auth := by
  cases url <;> cases auth <;> simp [tailRest, mark_notMem_none]

/-- Which options there are is told by what follows the last mark and by how many fields there
are. -/
theorem tail_shape {n n' : Nat} {url url' auth auth' : Option Str}
    (hrest : tailRest url auth = tailRest url' auth')
    (hlen : 2 * n + (tailFields url auth).length = 2 * n' + (tailFields url' auth').length) :
    n = n' ∧ url.isSome = url'.isSome ∧ auth.isSome = auth'.isSome := by
  have hrest := congrArg List.length hrest
  cases url <;> cases auth <;> cases url' <;> cases auth' <;> simp [tailRest, tailFields]
    at hrest hlen ⊢ <;> omega

theorem tailFields_inj {url url' auth auth' : Option Str} (hurl : url.isSome = url'.isSome)
    (hauth : auth.isSome = auth'.isSome)
    (h : tailFields url auth = tailFields url' auth') : url = url' ∧ auth = auth' := by
  cases url <;> cases auth <;> cases url' <;> cases auth' <;> simp [tailFields] at hurl hauth h ⊢
  · exact Source.utf8_inj h
  · exact Source.utf8_inj h
  · exact ⟨Source.utf8_inj h.1, Source.utf8_inj h.2⟩

/-- The end of the stream gives the environment and both options back. -/
theorem tail_inj {env env' : List (Str × Str)} {url url' auth auth' : Option Str}
    (h : terminated 0xff ((envStrs env).map utf8) ++ (hashOption url ++ hashOption auth) =
      terminated 0xff ((envStrs env').map utf8) ++ (hashOption url' ++ hashOption auth')) :
    env = env' ∧ url = url' ∧ auth = auth' := by
  have hfree : ∀ (env : List (Str × Str)) (url auth : Option Str),
      ∀ x ∈ (envStrs env).map utf8 ++ tailFields url auth, 0xff ∉ x := by
    intro env url auth x hx
    rcases List.mem_append.mp hx with hx | hx
    · obtain ⟨a, -, rfl⟩ := List.mem_map.mp hx
      exact mark_notMem_utf8 a
    · exact mark_notMem_tailFields url auth x hx
  rw [tail_eq, tail_eq, ← List.append_assoc, ← List.append_assoc, ← terminated_append,
    ← terminated_append] at h
  obtain ⟨hfields, hrest⟩ := terminated_append_inj (hfree _ _ _) (hfree _ _ _)
      (mark_notMem_tailRest _ _) (mark_notMem_tailRest _ _) h
  have hlen := congrArg List.length hfields
  simp only [List.length_append, List.length_map, length_envStrs] at hlen
  obtain ⟨hn, hurl, hauth⟩ := tail_shape hrest hlen
  obtain ⟨henv, htail⟩ := List.append_inj hfields
      (by simp only [List.length_map, length_envStrs, hn])
  exact ⟨envStrs_inj (List.map_injective_iff.mpr (fun _ _ => Source.utf8_inj) henv),
    tailFields_inj hurl hauth htail⟩

theorem hashStr_append_inj {a b : Str} {s t : Bytes} (h : hashStr a ++ s = hashStr b ++ t) :
    a = b ∧ s = t := by
  simp only [hashStr, List.append_assoc, List.cons_append, List.nil_append] at h
  obtain ⟨hab, hst⟩ := cut_inj (mark_notMem_utf8 a) (mark_notMem_utf8 b) h
  exact ⟨Source.utf8_inj hab, hst⟩

theorem hashStrs_append_inj {xs ys : List Str} {s t : Bytes} (hx : xs.length < 2 ^ 64)
    (hy : ys.length < 2 ^ 64)
    (h : hashStrs xs ++ s = hashStrs ys ++ t) : xs = ys ∧ s = t := by
  simp only [hashStrs, List.append_assoc] at h
  obtain ⟨hle, hrest⟩ := List.append_inj h (by simp only [length_le])
  have hlen := congrArg ofLe hle
  rw [ofLe_le_of_lt (hx.trans_le (by decide)), ofLe_le_of_lt (hy.trans_le (by decide))] at hlen
  rw [flatMap_hashStr, flatMap_hashStr] at hrest
  have hfree : ∀ (xs : List Str), ∀ x ∈ xs.map utf8, 0xff ∉ x := by
    intro xs x hm
    obtain ⟨a, -, rfl⟩ := List.mem_map.mp hm
    exact mark_notMem_utf8 a
  obtain ⟨hxy, hst⟩ := terminated_length_inj (hfree xs) (hfree ys)
      (by simpa only [List.length_map] using hlen) hrest
  exact ⟨List.map_injective_iff.mpr (fun _ _ => Source.utf8_inj) hxy, hst⟩

theorem hashStream_inj {a b : Str × List Str × List (Str × Str) × Option Str × Option Str}
    (ha : a.2.1.length < 2 ^ 64)
    (hb : b.2.1.length < 2 ^ 64) (h : hashStream a = hashStream b) : a = b := by
  obtain ⟨command, args, env, url, auth⟩ := a
  obtain ⟨command', args', env', url', auth'⟩ := b
  simp only [hashStream, List.append_assoc] at h
  obtain ⟨hcommand, hrest⟩ := hashStr_append_inj h
  obtain ⟨hargs, htail⟩ := hashStrs_append_inj ha hb hrest
  rw [flatMap_env, flatMap_env] at htail
  obtain ⟨henv, hurl, hauth⟩ := tail_inj htail
  subst hcommand henv hurl hauth
  exact congrArg (fun args => (command, args, env, url, auth)) hargs

/-! ## Who shares a peer -/

abbrev Declaring := McpHandler × (OwnerKey → Option McpServerConfig)

def announce (declared : OwnerKey → Option McpServerConfig) : McpHandler.Section → OwnerKey →
    Option McpServerConfig
  | .register agent cfg => Function.update declared (agent, cfg.name) (some cfg)
  | .unregister agent name => Function.update declared (agent, name) none
  | _ => declared

/-- A section that registers nothing but configs of these. -/
def Announced (hash : Str × List Str × List (Str × Str) × Option Str × Option Str → Fingerprint)
    (configs : Set McpServerConfig)
    (w : Declaring) (x : McpHandler.Section) (w' : Declaring) : Prop :=
  (∀ agent cfg, x = .register agent cfg → cfg ∈ configs) ∧ w' = (x.perform hash w.1, announce w.2 x)

section
variable {hash : Str × List Str × List (Str × Str) × Option Str × Option Str → Fingerprint}
  {configs : Set McpServerConfig}

/-- An owner stands at the peer of what it has declared. -/
def Peered (hash : Str × List Str × List (Str × Str) × Option Str × Option Str → Fingerprint)
    (configs : Set McpServerConfig) (w : Declaring) : Prop :=
  ∀ (key : OwnerKey) (fp : Fingerprint), w.1.byOwner[key]? = some fp →
    ∃ cfg ∈ configs, w.2 key = some cfg ∧ fingerprint hash cfg = fp

theorem Peered.perform {w w' : Declaring} (hw : Peered hash configs w) {x : McpHandler.Section}
    (hx : Announced hash configs w x w') :
    Peered hash configs w' := by
  obtain ⟨hcfg, rfl⟩ := hx
  intro key fp hfp
  cases x with
  | register agent cfg =>
    rw [show McpHandler.Section.perform hash w.1 (.register agent cfg) =
      (w.1.registerForAgent (fingerprint hash cfg) (agent, cfg.name) cfg).2
      from rfl, McpHandler.registerForAgent_byOwner] at hfp
    by_cases hkey : (agent, cfg.name) = key
    · rw [if_pos hkey] at hfp
      exact ⟨cfg, hcfg agent cfg rfl, by simp only [announce, hkey, Function.update_self],
        Option.some.inj hfp⟩
    · rw [if_neg hkey] at hfp
      obtain ⟨c, hc, hdeclared, hprint⟩ := hw key fp hfp
      exact ⟨c, hc, by simp only [announce, Function.update_of_ne (Ne.symm hkey), hdeclared], hprint⟩
  | unregister agent name =>
    rw [show McpHandler.Section.perform hash w.1 (.unregister agent name) =
      (w.1.unregisterForAgent (agent, name)).2 from rfl,
      McpHandler.unregisterForAgent_byOwner] at hfp
    by_cases hkey : (agent, name) = key
    · rw [if_pos hkey] at hfp
      cases hfp
    · rw [if_neg hkey] at hfp
      obtain ⟨c, hc, hdeclared, hprint⟩ := hw key fp hfp
      exact ⟨c, hc, by simp only [announce, Function.update_of_ne (Ne.symm hkey), hdeclared], hprint⟩
  | startConnect p => exact hw key fp ((McpHandler.alike_startConnect w.1 p).byOwner ▸ hfp)
  | settle p state now => exact hw key fp ((McpHandler.alike_settle w.1 p state now).byOwner ▸ hfp)
  | reapIdle idleTimeout now =>
    exact hw key fp ((McpHandler.alike_reapIdle w.1 idleTimeout now).byOwner ▸ hfp)
  | resetPeer p => exact hw key fp ((McpHandler.alike_resetPeer w.1 p).byOwner ▸ hfp)
  | touch p now => exact hw key fp ((McpHandler.alike_touch w.1 p now).byOwner ▸ hfp)
  | markFailed p error => exact hw key fp ((McpHandler.alike_markFailed w.1 p error).byOwner ▸ hfp)

theorem peered_reachable {w : Declaring}
    (hr : Reachable (· = (McpHandler.empty, fun _ => none)) (Announced hash configs) w) :
    w.1.Owned ∧ w.1.Sound hash ∧ Peered hash configs w := by
  refine hr.invariant (I := fun w => w.1.Owned ∧ w.1.Sound hash ∧ Peered hash configs w)
    (fun w hw => ?_) fun w x w' hi hx => ?_
  · rw [hw]
    refine ⟨fun key fp => ?_, fun fp e he => ?_, fun key fp hfp => ?_⟩
    · simp [McpHandler.empty, McpHandler.Lists]
    · simp [McpHandler.empty] at he
    · simp [McpHandler.empty] at hfp
  · have hnext := McpHandler.consistent_perform hi.1 hi.2.1 x
    have hplaced := hi.2.2.perform hx
    obtain ⟨-, rfl⟩ := hx
    exact ⟨hnext.1, hnext.2, hplaced⟩

end

/-- With a hasher that tells the streams of these configs apart, so do the fingerprints, and who
shares a peer has declared the same server. A vector in memory has fewer than 2⁶⁴ elements. -/
theorem fingerprint_separates (finish : Bytes → Fingerprint) (configs : Set McpServerConfig)
    (hvec : ∀ cfg ∈ configs, cfg.args.length < 2 ^ 64)
    (hinj : Set.InjOn finish ((fun cfg => hashStream (identity cfg)) '' configs)) :
    (∀ a ∈ configs, ∀ b ∈ configs, fingerprint (finish ∘ hashStream) a =
      fingerprint (finish ∘ hashStream) b → identity a = identity b) ∧
      ∀ w, Reachable (· = (McpHandler.empty, fun _ => none))
      (Announced (finish ∘ hashStream) configs) w →
        ∀ (fp : Fingerprint) (e : PeerEntry), w.1.peers[fp]? = some e →
        ∀ key ∈ e.refs, ∀ key' ∈ e.refs,
          ∃ a b, w.2 key = some a ∧ w.2 key' = some b ∧ identity a = identity b := by
  have hsame : ∀ a ∈ configs, ∀ b ∈ configs, fingerprint (finish ∘ hashStream) a =
      fingerprint (finish ∘ hashStream) b → identity a = identity b := by
    intro a ha b hb h
    exact hashStream_inj (hvec a ha) (hvec b hb)
      (hinj (Set.mem_image_of_mem _ ha) (Set.mem_image_of_mem _ hb) h)
  refine ⟨hsame, fun w hr fp e he key hkey key' hkey' => ?_⟩
  obtain ⟨howned, -, hplaced⟩ := peered_reachable hr
  obtain ⟨a, ha, hdeclared, hprint⟩ := hplaced key fp ((howned key fp).mpr ⟨e, he, hkey⟩)
  obtain ⟨b, hb, hdeclared', hprint'⟩ := hplaced key' fp ((howned key' fp).mpr ⟨e, he, hkey'⟩)
  exact ⟨a, b, hdeclared, hdeclared', hsame a ha b hb (hprint.trans hprint'.symm)⟩

/-- Two agents that declare one server under names of their own, and a third that declares
another. -/
theorem fingerprint_separates_three :
    let finish (b : Bytes) : Fingerprint :=
    UInt64.ofNat (b.foldl (fun n x => (n * 257 + x.toNat) % 2 ^ 64) 0)
    let cfg (name : Str) (url : Option Str) : McpServerConfig :=
      ⟨name, ['x'], [['y']], [(['k'], ['v'])], true, url, none⟩
    let register (w : Declaring) (agent : Str) (cfg : McpServerConfig) : Declaring :=
      (McpHandler.Section.perform (finish ∘ hashStream) w.1 (.register agent cfg),
        announce w.2 (.register agent cfg))
    let w := register (register (register (McpHandler.empty, fun _ => none) ['a'] (cfg ['s'] none))
        ['b'] (cfg ['t'] none)) ['c']
      (cfg ['s'] (some ['u']))
    w.1.byOwner.size = 3 ∧ w.1.peers.size = 2 ∧
      ∃ a b, w.2 (['a'], ['s']) = some a ∧ w.2 (['b'], ['t']) = some b ∧
      identity a = identity b := by
  intro finish cfg register w
  have hvec : ∀ c ∈ ({cfg ['s'] none, cfg ['t'] none, cfg ['s'] (some ['u'])} :
      Set McpServerConfig), c.args.length < 2 ^ 64 := by
    intro c hc
    rcases hc with rfl | rfl | rfl <;> decide
  have hinj : Set.InjOn finish ((fun c => hashStream (identity c)) ''
      {cfg ['s'] none, cfg ['t'] none, cfg ['s'] (some ['u'])}) := by
    intro x hx y hy h
    obtain ⟨a, ha, rfl⟩ := hx
    obtain ⟨b, hb, rfl⟩ := hy
    rcases ha with rfl | rfl | rfl <;> rcases hb with rfl | rfl | rfl <;>
      first | rfl | exact absurd h (by decide +kernel)
  have hr : Reachable (· = (McpHandler.empty, fun _ => none))
      (Announced (finish ∘ hashStream) {cfg ['s'] none, cfg ['t'] none, cfg ['s'] (some ['u'])}) w := by
    refine .next (a := .register ['c'] _)
      (.next (a := .register ['b'] _) (.next (a := .register ['a'] _) (.first rfl) ⟨?_, rfl⟩)
      ⟨?_, rfl⟩) ⟨?_, rfl⟩
    · intro agent c hc
      cases hc
      exact .inl rfl
    · intro agent c hc
      cases hc
      exact .inr (.inl rfl)
    · intro agent c hc
      cases hc
      exact .inr (.inr rfl)
  refine ⟨by decide +kernel, by decide +kernel, ?_⟩
  obtain ⟨-, hshared⟩ := fingerprint_separates finish _ hvec hinj
  have hpeer : ∃ e, w.1.peers[fingerprint (finish ∘ hashStream) (cfg ['s'] none)]? = some e ∧
      ((['a'], ['s']) : OwnerKey) ∈ e.refs ∧ ((['b'], ['t']) : OwnerKey) ∈ e.refs := by
    decide +kernel
  obtain ⟨e, he, ha, hb⟩ := hpeer
  exact hshared w hr _ e he _ ha _ hb

end Crabtalk.System

import Crabtalk.Store.Kv
import Mathlib.Data.List.Sort

/-!
# Listing conversations

Sessions are numbered within the pair of their agent and their sender, in the
order they were created in. The number is not stored: a listing counts. Those
two are all a listing filters by, so that what it leaves out is counted apart.
-/

open Basis
open Crabtalk.Store

namespace Crabtalk.Runtime

abbrev Summary := Str × SessionMeta

structure ConversationInfo where
  agentId : Str
  agentName : Str
  sender : Str
  seq : Nat
  title : Str
  filePath : Str
  messageCount : Nat
  aliveSecs : Nat
  date : Str
  deriving DecidableEq

/-- Seconds between two instants, which are counted in nanoseconds; 0 marks "unknown". -/
def rfc3339DiffSecs (parse : Str → Option Int) (start stop : Str) : Nat :=
  if start.isEmpty || stop.isEmpty then 0
  else
    match parse start, parse stop with
    | some s, some e => ((e - s).tdiv (10 ^ 9)).toNat
    | _, _ => 0

abbrev Pair := AgentId × Str

def Summary.pair (x : Summary) : Pair := (x.2.agent, x.2.createdBy)

def creation (a b : Summary) : Ordering :=
  (compare a.2.createdAt b.2.createdAt).then (compare a.1 b.1)

def seqEntry : Option Nat → Nat
  | some n => (n + 1) % 2 ^ 32
  | none => 1

section
variable (parse : Str → Option Int) (names : AgentId → Option Str)

def conversationInfo (x : Summary) (seq : Nat) : ConversationInfo where
  agentId := x.2.agent.toStr
  agentName := (names x.2.agent).getD []
  sender := x.2.createdBy
  seq
  title := x.2.title
  filePath := x.1
  messageCount := x.2.messageCount
  aliveSecs := rfc3339DiffSecs parse x.2.createdAt x.2.updatedAt
  date := x.2.createdAt

def numbered : (Pair → Option Nat) → List Summary → List ConversationInfo
  | _, [] => []
  | seqs, x :: rest =>
    let seq := seqEntry (seqs x.pair)
    conversationInfo parse names x seq :: numbered (Function.update seqs x.pair (some seq)) rest

def listConversations (agent : Option AgentId) (sender : Str)
    (sessions : Except Error (List Summary)) : List ConversationInfo :=
  match sessions with
  | .error _ => []
  | .ok summaries =>
    let matched := (summaries.filter fun x => agent.all (x.2.agent = ·)).filter fun x =>
        sender.isEmpty || x.2.createdBy = sender
    let matched := matched.insertionSort fun a b => creation a b ≠ .gt
    (numbered parse names (fun _ => none) matched).insertionSort
      fun a b => (compare b.seq a.seq).then (compare a.agentName b.agentName) ≠ .gt

end

/-! ## What the numbers count -/

/-- Created before, and of two that were created at once, the one with the lower handle. -/
def Earlier (a b : Summary) : Prop :=
  compare a.2.createdAt b.2.createdAt = .lt ∨ a.2.createdAt = b.2.createdAt ∧ compare a.1 b.1 = .lt

def Matches (agent : Option AgentId) (sender : Str) (x : Summary) : Prop :=
  (∀ id, agent = some id → x.2.agent = id) ∧ (sender = [] ∨ x.2.createdBy = sender)

/-- The numbers a listing gives a session: none, or one for each row the session has. -/
def seqsOf (listing : List ConversationInfo) (handle : Str) : List Nat :=
  (listing.filter fun c => c.filePath = handle).map (·.seq)

instance : DecidableRel Earlier := fun _ _ => inferInstanceAs (Decidable (_ ∨ _))

def rank (l : List Summary) (x : Summary) : Nat := l.countP fun y => y.pair = x.pair ∧ Earlier y x

theorem earlier_iff {a b : Summary} : Earlier a b ↔ creation a b = .lt := by
  unfold Earlier creation
  rw [Ordering.then_eq_lt, Std.LawfulEqCmp.compare_eq_iff_eq]

instance : Std.TransCmp creation :=
  inferInstanceAs (Std.TransCmp (compareLex (compareOn fun x : Summary => x.2.createdAt)
    (compareOn fun x => x.1)))

theorem not_earlier_self (a : Summary) : ¬ Earlier a a := by
  rw [earlier_iff, (Std.ReflCmp.compare_self : creation a a = .eq)]
  exact fun h => (by cases h)

theorem Earlier.asymm {a b : Summary} (h : Earlier a b) : ¬ Earlier b a := by
  rw [earlier_iff] at h ⊢
  rw [(Std.OrientedCmp.eq_swap : creation b a = (creation a b).swap), h]
  exact fun h => (by cases h)

theorem handle_of_creation {a b : Summary} (h : creation a b = .eq) : a.1 = b.1 := by
  unfold creation at h
  exact Std.LawfulEqCmp.compare_eq_iff_eq.mp (Ordering.then_eq_eq.mp h).2

instance : Std.Total fun a b => creation a b ≠ .gt := ⟨total_cmp⟩

instance : IsTrans Summary fun a b => creation a b ≠ .gt := ⟨fun _ _ _ => trans_cmp⟩

/-- Sessions that are each listed once stand in the order they were created in. -/
theorem pairwise_earlier {l : List Summary} (h : (l.map (·.1)).Nodup) :
    (l.insertionSort fun a b => creation a b ≠ .gt).Pairwise Earlier := by
  have hperm := (List.perm_insertionSort (fun a b => creation a b ≠ .gt) l).map (·.1)
  have hnodup : (l.insertionSort fun a b => creation a b ≠ .gt).Pairwise fun a b => a.1 ≠ b.1 :=
    List.pairwise_map.mp (hperm.nodup_iff.mpr h)
  refine ((List.pairwise_insertionSort (fun a b => creation a b ≠ .gt) l).and hnodup).imp
    fun {a b} hab => ?_
  rw [earlier_iff]
  cases hc : creation a b with
  | lt => rfl
  | eq => exact absurd (handle_of_creation hc) hab.2
  | gt => exact absurd hc hab.1

theorem rank_perm {l l' : List Summary} (h : l.Perm l') (x : Summary) : rank l x = rank l' x := h.countP_eq _

section
variable {parse : Str → Option Int} {names : AgentId → Option Str}

theorem filePath_numbered (seqs : Pair → Option Nat) (l : List Summary) :
    (numbered parse names seqs l).map (·.filePath) = l.map (·.1) := by
  induction l generalizing seqs with
  | nil => rfl
  | cons x l ih =>
    rw [numbered, List.map_cons, ih]
    rfl

theorem seqEntry_eq (o : Option Nat) : seqEntry o = (o.getD 0 + 1) % 2 ^ 32 := by
  cases o <;> rfl

/-- A session gets the number after those of its pair that came before it. -/
theorem seqsOf_numbered (seqs : Pair → Option Nat) {l : List Summary} (h : l.Pairwise Earlier)
    (hnodup : (l.map (·.1)).Nodup)
    {x : Summary} (hx : x ∈ l) :
    seqsOf (numbered parse names seqs l) x.1 = [((seqs x.pair).getD 0 + rank l x + 1) % 2 ^ 32] := by
  induction l generalizing seqs with
  | nil => cases hx
  | cons y l ih =>
    obtain ⟨hfirst, htail⟩ := List.pairwise_cons.mp h
    rw [List.map_cons, List.nodup_cons] at hnodup
    rw [numbered, seqsOf, List.filter_cons]
    cases hx with
    | head =>
      have hnone : (numbered parse names
          (Function.update seqs x.pair (some (seqEntry (seqs x.pair)))) l).filter
          (fun c => c.filePath = x.1) = [] := by
        refine List.filter_eq_nil_iff.mpr fun c hc hpath => hnodup.1 ?_
        rw [← filePath_numbered _ l]
        exact List.mem_map.mpr ⟨c, hc, of_decide_eq_true hpath⟩
      have hzero : rank (x :: l) x = 0 := by
        refine List.countP_eq_zero.mpr fun z hz hearlier => ?_
        have hearlier := (of_decide_eq_true hearlier).2
        cases hz with
        | head => exact not_earlier_self x hearlier
        | tail _ hz => exact (hfirst z hz).asymm hearlier
      rw [hnone, hzero]
      simp [conversationInfo, seqEntry_eq]
    | tail _ hx =>
      have hne : y.1 ≠ x.1 := fun he => hnodup.1 (he ▸ List.mem_map_of_mem hx)
      have hskip : ¬ (conversationInfo parse names y (seqEntry (seqs y.pair))).filePath = x.1 := hne
      rw [if_neg (by simpa using hskip)]
      have hrest := ih (Function.update seqs y.pair (some (seqEntry (seqs y.pair))))
          htail hnodup.2 hx
      rw [seqsOf] at hrest
      rw [hrest]
      unfold rank
      rw [List.countP_cons]
      by_cases hpair : y.pair = x.pair
      · rw [hpair, Function.update_self, seqEntry_eq]
        simp only [hfirst x hx, and_true, decide_true, if_pos, Option.getD_some, List.cons.injEq]
        omega
      · rw [Function.update_of_ne (Ne.symm hpair)]
        simp [hpair]

instance (agent : Option AgentId) (sender : Str) : DecidablePred (Matches agent sender) :=
  fun _ => inferInstanceAs (Decidable (_ ∧ _))

theorem Matches.of_pair {agent : Option AgentId} {sender : Str} {x y : Summary}
    (h : y.pair = x.pair) (hx : Matches agent sender x) :
    Matches agent sender y := by
  obtain ⟨hagent, hsender⟩ := Prod.ext_iff.mp h
  refine ⟨fun id hid => hagent.trans (hx.1 id hid), hx.2.imp_right hsender.trans⟩

theorem rank_filter {agent : Option AgentId} {sender : Str} {l : List Summary} {x : Summary}
    (hx : Matches agent sender x) :
    rank (l.filter fun y => Matches agent sender y) x = rank l x := by
  unfold rank
  rw [List.countP_filter]
  refine List.countP_congr fun y _ => ?_
  simp only [decide_eq_true_eq, Bool.and_eq_true]
  exact ⟨fun h => h.1, fun h => ⟨h, .of_pair h.1 hx⟩⟩

theorem seqsOf_perm {l l' : List ConversationInfo} (h : l.Perm l') {handle : Str} {n : Nat}
    (hn : seqsOf l handle = [n]) :
    seqsOf l' handle = [n] := by
  have hp : (seqsOf l handle).Perm (seqsOf l' handle) := (h.filter _).map _
  rw [hn] at hp
  exact List.perm_singleton.mp hp.symm

theorem seqsOf_nil {l : List ConversationInfo} {handle : Str} : seqsOf l handle = [] ↔
    handle ∉ l.map (·.filePath) := by
  unfold seqsOf
  rw [List.map_eq_nil_iff, List.filter_eq_nil_iff]
  simp

variable (parse names)

theorem listConversations_ok (agent : Option AgentId) (sender : Str) (summaries : List Summary) :
    ∃ l : List Summary, l.Perm (summaries.filter fun x => Matches agent sender x) ∧
    (((summaries.map (·.1)).Nodup) → l.Pairwise Earlier) ∧
      (listConversations parse names agent sender (.ok summaries)).Perm
      (numbered parse names (fun _ => none) l) := by
  have hfilter : ((summaries.filter fun x => agent.all (x.2.agent = ·)).filter fun x =>
      sender.isEmpty || x.2.createdBy = sender) =
      summaries.filter fun x => Matches agent sender x := by
    rw [List.filter_filter]
    refine List.filter_congr fun x _ => ?_
    unfold Matches
    cases agent <;> cases sender <;> simp [Bool.and_comm]
  refine ⟨_, List.perm_insertionSort (fun a b => creation a b ≠ .gt) _,
    fun hnodup => pairwise_earlier ?_, ?_⟩
  · exact hnodup.sublist (List.filter_sublist.map _)
  · rw [listConversations, hfilter]
    exact List.perm_insertionSort _ _

/-- The number of a session, in any listing it is in. -/
theorem seqsOf_listConversations {summaries : List Summary} (hnodup : (summaries.map (·.1)).Nodup)
    {x : Summary} (hx : x ∈ summaries)
    (agent : Option AgentId) (sender : Str) :
    seqsOf (listConversations parse names agent sender (.ok summaries)) x.1 =
      if Matches agent sender x then [(rank summaries x + 1) % 2 ^ 32] else [] := by
  obtain ⟨l, hl, hsorted, hperm⟩ := listConversations_ok parse names agent sender summaries
  have hlnodup : (l.map (·.1)).Nodup :=
    (hl.map _).nodup_iff.mpr (hnodup.sublist (List.filter_sublist.map _))
  split
  · rename_i hm
    have hxl : x ∈ l := hl.mem_iff.mpr (List.mem_filter.mpr ⟨hx, decide_eq_true hm⟩)
    refine seqsOf_perm hperm.symm ?_
    rw [seqsOf_numbered _ (hsorted hnodup) hlnodup hxl, rank_perm hl, rank_filter hm]
    simp
  · rename_i hm
    rw [seqsOf_nil]
    intro hmem
    rw [(hperm.map _).mem_iff, filePath_numbered, (hl.map _).mem_iff] at hmem
    obtain ⟨y, hy, hyx⟩ := List.mem_map.mp hmem
    obtain ⟨hys, hym⟩ := List.mem_filter.mp hy
    rw [List.inj_on_of_nodup_map hnodup hys hx hyx] at hym
    exact hm (of_decide_eq_true hym)

/-- The sessions of a pair have the numbers from 1 on, in the order they were created in, and a
listing by agent or sender gives those it is about the same numbers. -/
structure Numbered (summaries : List Summary) : Prop where
  counted : ∀ (p : Pair) (order : List Summary), order.Perm (summaries.filter fun x => x.pair = p) →
    order.Pairwise Earlier →
    order.map (fun x => seqsOf (listConversations parse names none [] (.ok summaries)) x.1) =
      (List.range' 1 order.length).map fun n => [n]
  filtered : ∀ (agent : Option AgentId) (sender : Str), ∀ x ∈ summaries,
    seqsOf (listConversations parse names agent sender (.ok summaries)) x.1 =
      if Matches agent sender x then seqsOf (listConversations parse names none [] (.ok summaries))
      x.1 else []

variable {parse names}

theorem map_rank {p : Pair} {order : List Summary} (hp : ∀ x ∈ order, x.pair = p)
    (h : order.Pairwise Earlier) :
    order.map (rank order) = List.range order.length := by
  induction order with
  | nil => rfl
  | cons y l ih =>
    obtain ⟨hfirst, htail⟩ := List.pairwise_cons.mp h
    have hy : rank (y :: l) y = 0 := by
      refine List.countP_eq_zero.mpr fun z hz hearlier => ?_
      have hearlier := (of_decide_eq_true hearlier).2
      cases hz with
      | head => exact not_earlier_self y hearlier
      | tail _ hz => exact (hfirst z hz).asymm hearlier
    have hrest : ∀ x ∈ l, rank (y :: l) x = (rank l x).succ := by
      intro x hx
      have hpair : y.pair = x.pair :=
        (hp y List.mem_cons_self).trans (hp x (List.mem_cons_of_mem _ hx)).symm
      unfold rank
      rw [List.countP_cons, if_pos (decide_eq_true ⟨hpair, hfirst x hx⟩)]
    rw [List.map_cons, hy, List.map_congr_left hrest, List.length_cons, List.range_succ_eq_map,
      ← ih (fun x hx => hp x (List.mem_cons_of_mem _ hx)) htail, List.map_map]
    rfl

/-- The numbers of a pair, in the order its sessions were created in. -/
theorem seqs_order {summaries : List Summary} (hnodup : (summaries.map (·.1)).Nodup) {p : Pair}
    {order : List Summary}
    (hperm : order.Perm (summaries.filter fun x => x.pair = p)) (h : order.Pairwise Earlier) :
    order.map (fun x => seqsOf (listConversations parse names none [] (.ok summaries)) x.1) =
      (List.range' 1 order.length).map fun n => [n % 2 ^ 32] := by
  have hmem : ∀ x ∈ order, x ∈ summaries ∧ x.pair = p := by
    intro x hx
    obtain ⟨hs, hp⟩ := List.mem_filter.mp (hperm.mem_iff.mp hx)
    exact ⟨hs, of_decide_eq_true hp⟩
  have hrank : ∀ x ∈ order, seqsOf (listConversations parse names none [] (.ok summaries)) x.1 =
      [(rank order x + 1) % 2 ^ 32] := by
    intro x hx
    have hall : Matches none [] x := ⟨fun _ h => (by cases h), .inl rfl⟩
    rw [seqsOf_listConversations parse names hnodup (hmem x hx).1, if_pos hall, rank_perm hperm]
    have hsame : rank (summaries.filter fun y => y.pair = p) x = rank summaries x := by
      unfold rank
      rw [List.countP_filter]
      refine List.countP_congr fun y _ => ?_
      simp only [decide_eq_true_eq, Bool.and_eq_true]
      exact ⟨fun hy => hy.1, fun hy => ⟨hy, hy.1.trans (hmem x hx).2⟩⟩
    rw [hsame]
  have hcomp : order.map (fun x => [(rank order x + 1) % 2 ^ 32]) = (order.map (rank order)).map
      fun n => [(n + 1) % 2 ^ 32] := by
    rw [List.map_map]
    rfl
  rw [List.map_congr_left hrank, hcomp, map_rank (fun x hx => (hmem x hx).2) h,
    List.range'_eq_map_range, List.map_map]
  refine List.map_congr_left fun n _ => ?_
  simp only [Function.comp_apply, Nat.add_comm]

theorem Numbered.short {summaries : List Summary} (hnodup : (summaries.map (·.1)).Nodup)
    (h : Numbered parse names summaries) (p : Pair) :
    (summaries.filter fun x => x.pair = p).length < 2 ^ 32 := by
  by_contra hlong
  have hperm := List.perm_insertionSort (fun a b => creation a b ≠ .gt)
      (summaries.filter fun x => x.pair = p)
  have hsorted := pairwise_earlier
      (hnodup.sublist ((List.filter_sublist : (summaries.filter fun x => x.pair = p).Sublist _).map (·.1)))
  have hseqs := h.counted p _ hperm hsorted
  rw [seqs_order hnodup hperm hsorted, hperm.length_eq] at hseqs
  have hlast := List.map_inj_left.mp hseqs (2 ^ 32) (List.mem_range'_1.mpr (by omega))
  rw [Nat.mod_self, List.cons.injEq] at hlast
  exact absurd hlast.1 (by decide)

/-- The numbers are right as long as no agent has had 2³² sessions with one sender. -/
theorem numbered_iff (parse : Str → Option Int) (names : AgentId → Option Str)
    {summaries : List Summary}
    (hnodup : (summaries.map (·.1)).Nodup) :
    Numbered parse names summaries ↔
    ∀ p : Pair, (summaries.filter fun x => x.pair = p).length < 2 ^ 32 := by
  refine ⟨fun h p => h.short hnodup p,
    fun h => ⟨fun p order hperm horder => ?_, fun agent sender x hx => ?_⟩⟩
  · rw [seqs_order hnodup hperm horder]
    refine List.map_congr_left fun n hn => ?_
    have hlen := h p
    rw [← hperm.length_eq] at hlen
    rw [List.mem_range'_1] at hn
    rw [Nat.mod_eq_of_lt (by omega)]
  · have hall : Matches none [] x := ⟨fun _ h => (by cases h), .inl rfl⟩
    rw [seqsOf_listConversations parse names hnodup hx,
      seqsOf_listConversations parse names hnodup hx, if_pos hall]

end

def sessionOf (agent : Nat) (sender date : Str) (handle : Nat) : Summary :=
  (base32 26 handle, ⟨⟨Fin.ofNat (2 ^ 128) agent⟩, sender, date, [], date, 0, none, none⟩)

/-- Two senders, and two sessions of one of them that were created at once. -/
theorem numbered_three :
    Numbered (fun _ => none) (fun _ => none)
      [sessionOf 1 "ann".toList "2026-01-02".toList 7,
        sessionOf 1 "bob".toList "2026-01-01".toList 8,
        sessionOf 1 "ann".toList "2026-01-02".toList 3] :=
  (numbered_iff _ _ (by decide +kernel)).mpr fun _ =>
    (List.length_filter_le _ _).trans_lt (by decide)

/-- The sessions that one sender has had with one agent, up to a number of them. -/
def longListing (n : Nat) : List Summary := (List.range n).map (sessionOf 1 [] [])

theorem nodup_longListing {n : Nat} (hn : n ≤ 32 ^ 26) : ((longListing n).map (·.1)).Nodup := by
  unfold longListing
  rw [List.map_map]
  refine List.Nodup.map_on (fun a ha b hb hab => ?_) List.nodup_range
  have hmod := base32_inj 26 a b hab
  rwa [Nat.mod_eq_of_lt ((List.mem_range.mp ha).trans_le hn),
    Nat.mod_eq_of_lt ((List.mem_range.mp hb).trans_le hn)] at hmod

/-- The last of them has the number 0. -/
theorem not_numbered_longListing :
    ¬ Numbered (fun _ => none) (fun _ => none) (longListing (2 ^ 32)) := by
  intro h
  have hshort := h.short (nodup_longListing (by decide)) (⟨Fin.ofNat (2 ^ 128) 1⟩, [])
  have hall : (longListing (2 ^ 32)).filter (fun x => x.pair = (⟨Fin.ofNat (2 ^ 128) 1⟩, [])) =
      longListing (2 ^ 32) := by
    refine List.filter_eq_self.mpr fun x hx => ?_
    obtain ⟨n, -, rfl⟩ := List.mem_map.mp hx
    exact decide_eq_true rfl
  rw [hall, longListing, List.length_map, List.length_range] at hshort
  exact Nat.lt_irrefl _ hshort

end Crabtalk.Runtime

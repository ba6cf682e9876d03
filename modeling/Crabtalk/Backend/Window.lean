import Crabtalk.Backend.Sessions
import Crabtalk.Store.Views
import Crabtalk.Store.Written

/-!
# The messages around a match

Both stores walk up from the first message asked for and stop when the window
is full. With enough messages asked for before it, that is just below the match.
-/

open Basis

namespace Crabtalk.Backend

open Store

variable {μ : Type} [Wire μ] [SearchStd μ]

/-! ## The file backend -/

def windowItems : List (HistoryEntry μ × Nat) → List WindowItem → List WindowItem
  | [], out => out
  | (entry, idx) :: rest, out =>
    if maxWindowItems ≤ out.length then out else windowItems rest (out ++ [windowItem idx entry])

def window (history : List (HistoryEntry μ)) (idx : Nat) (opts : SearchOptions) : List WindowItem :=
  let first := idx - min opts.contextBefore maxWindowItems
  let last := min (idx + min opts.contextAfter maxWindowItems) (history.length - 1)
  windowItems ((history.zipIdx.take (last + 1)).drop first) []

/-! ## What a window holds -/

structure Around (len idx : Nat) (items : List WindowItem) : Prop where
  matched : idx ∈ items.map (·.msgIdx)
  bounded : items.length ≤ maxWindowItems
  consecutive : ∃ first, items.map (·.msgIdx) = List.range' first items.length ∧
    first + items.length ≤ len

def Stored (h : Str) (history : List (HistoryEntry μ)) (s : Kv μ) : Prop :=
  ∀ i, s[((.session, messageKey h i) : Cell)]? = history[i]?.map .entry

def firstItem (idx : Nat) (opts : SearchOptions) : Nat :=
  idx - min opts.contextBefore maxWindowItems

def itemCount (len idx : Nat) (opts : SearchOptions) : Nat :=
  min maxWindowItems (min (idx + min opts.contextAfter maxWindowItems + 1) len - firstItem idx opts)

section
variable {s : Kv μ} {h : Str} {history : List (HistoryEntry μ)} {opts : SearchOptions}
  {len idx : Nat} {items : List WindowItem}

theorem windowItems_eq (rest : List (HistoryEntry μ × Nat)) (out : List WindowItem)
    (ho : out.length ≤ maxWindowItems) :
    windowItems rest out = (out ++ rest.map fun x => windowItem x.2 x.1).take maxWindowItems := by
  induction rest generalizing out with
  | nil => rw [windowItems, List.map_nil, List.append_nil, List.take_of_length_le ho]
  | cons x rest ih =>
    rw [windowItems]
    by_cases hfull : maxWindowItems ≤ out.length
    · rw [if_pos hfull, List.take_append_of_le_length hfull, List.take_of_length_le ho]
    · rw [if_neg hfull, ih _ (by simp; omega), List.append_assoc, List.map_cons,
        List.singleton_append]

theorem reads_windowItems (hl : Stored h history s) (idxs : List Nat) (out : List WindowItem)
    (ho : out.length ≤ maxWindowItems) :
    Reads (Store.windowItems h idxs out) s
    (.ok ((out ++ idxs.filterMap fun i => history[i]?.map (windowItem i)).take maxWindowItems)) := by
  induction idxs generalizing out with
  | nil =>
    rw [List.filterMap_nil, List.append_nil, List.take_of_length_le ho]
    exact .pure out
  | cons i rest ih =>
    unfold Store.windowItems
    by_cases hfull : maxWindowItems ≤ out.length
    · rw [if_pos hfull, List.take_append_of_le_length hfull, List.take_of_length_le ho]
      exact .pure out
    · rw [if_neg hfull]
      have hread := reads_getJson (s := s) Value.asEntry .session (messageKey h i)
      rw [Store.readJson, hl i] at hread
      rw [List.filterMap_cons]
      cases he : history[i]? with
      | none =>
        rw [he] at hread
        exact hread.next (ih out ho)
      | some e =>
        rw [he] at hread
        refine hread.next ?_
        have := ih (out ++ [windowItem i e]) (by simp; omega)
        rwa [List.append_assoc, List.singleton_append] at this

def shown (history : List (HistoryEntry μ)) (first count : Nat) : List WindowItem :=
  ((history.zipIdx.drop first).take count).map fun x => windowItem x.2 x.1

theorem shown_eq (history : List (HistoryEntry μ)) (first count : Nat) :
    shown history first count = (List.range' first count).filterMap fun i =>
    history[i]?.map (windowItem i) := by
  unfold shown
  induction count generalizing first with
  | zero => simp
  | succ count ih =>
    rw [List.range'_succ, List.filterMap_cons]
    by_cases hlt : first < history.length
    · have hdrop : history.zipIdx.drop first = (history[first], first) :: history.zipIdx.drop
          (first + 1) := by
        rw [List.drop_eq_getElem_cons (by simpa using hlt)]
        simp
      rw [hdrop, List.take_succ_cons, List.map_cons, ih, List.getElem?_eq_getElem hlt]
      rfl
    · have hdrop : history.zipIdx.drop first = [] := List.drop_eq_nil_of_le (by simpa using hlt)
      have hdrop' : history.zipIdx.drop (first + 1) = [] := List.drop_eq_nil_of_le (by simp; omega)
      rw [List.getElem?_eq_none (by omega), Option.map_none, ← ih, hdrop, hdrop']
      simp

theorem shown_indices (history : List (HistoryEntry μ)) (first count : Nat) :
    (shown history first count).map (·.msgIdx) =
    (List.range' first (min count (history.length - first))).map msgIdx := by
  have hsnd : ((history.zipIdx.drop first).take count).map Prod.snd =
      List.range' first (min count (history.length - first)) := by
    rw [List.map_take, List.map_drop, List.zipIdx_map_snd, List.drop_range',
      Nat.zero_add, Nat.mul_one]
    by_cases hle : count ≤ history.length - first
    · rw [List.take_range'_of_length_ge hle, Nat.min_eq_left hle]
    · rw [List.take_range'_of_length_le (by omega), Nat.min_eq_right (by omega)]
  rw [← hsnd, shown, List.map_map, List.map_map]
  rfl

theorem take_shown (history : List (HistoryEntry μ)) (first count n : Nat) :
    (shown history first count).take n = shown history first (min n count) := by
  rw [shown, ← List.map_take, List.take_take]
  rfl

theorem window_eq (history : List (HistoryEntry μ)) (idx : Nat) (opts : SearchOptions) :
    window history idx opts =
    shown history (firstItem idx opts)
      (min maxWindowItems (min (idx + min opts.contextAfter maxWindowItems) (history.length - 1) +
        1 - firstItem idx opts)) := by
  rw [window, windowItems_eq _ _ (Nat.zero_le _), List.nil_append, List.drop_take, ← take_shown]
  rfl

theorem reads_window (hl : Stored h history s) (idx : Nat) (opts : SearchOptions) :
    Reads (Store.window h idx opts) s
    (.ok (shown history (firstItem idx opts)
      (min maxWindowItems (idx + min opts.contextAfter maxWindowItems + 1 -
      firstItem idx opts)))) := by
  have hread := reads_windowItems hl
    (List.range' (firstItem idx opts)
      (idx + min opts.contextAfter maxWindowItems + 1 - firstItem idx opts)) [] (Nat.zero_le _)
  rw [List.nil_append, ← shown_eq, take_shown, List.range'_eq_map_range] at hread
  exact hread

end

/-! ## When it is one -/

/-- The window begins close enough below the match, and its indices fit in 32 bits. -/
def Roomy (len idx : Nat) (opts : SearchOptions) : Prop :=
  (opts.contextBefore < maxWindowItems ∨ idx < maxWindowItems) ∧
    firstItem idx opts + itemCount len idx opts ≤ 2 ^ 32

instance (len idx : Nat) (opts : SearchOptions) : Decidable (Roomy len idx opts) :=
  inferInstanceAs (Decidable (_ ∧ _))

theorem around_iff {len idx : Nat} {opts : SearchOptions} {items : List WindowItem}
    (hidx : idx < len)
    (hitems : items.map (·.msgIdx) =
      (List.range' (firstItem idx opts) (itemCount len idx opts)).map msgIdx) :
    Around len idx items ↔ Roomy len idx opts := by
  have hlen : items.length = itemCount len idx opts := by
    have := congrArg List.length hitems
    simpa using this
  have hbound : firstItem idx opts + itemCount len idx opts ≤ len ∧ firstItem idx opts ≤ idx ∧
      itemCount len idx opts ≤ maxWindowItems := by
    unfold itemCount firstItem maxWindowItems
    omega
  obtain ⟨hend, hfirst, hmax⟩ := hbound
  constructor
  · intro ha
    obtain ⟨j, hj, hidx'⟩ := List.mem_map.mp (hitems ▸ ha.matched)
    obtain ⟨first, hrange, -⟩ := ha.consecutive
    have hat : ∀ i < itemCount len idx opts, msgIdx (firstItem idx opts + i) = first + i := by
      intro i hi
      have hget := congrArg (·[i]?) (hitems.symm.trans hrange)
      simpa [hlen, hi] using hget
    -- past 32 bits the indices start again at 0
    have hfits : firstItem idx opts + itemCount len idx opts ≤ 2 ^ 32 := by
      by_contra hpast
      have hlow : idx < 2 ^ 32 := by rw [← hidx']; exact Nat.mod_lt _ (by decide)
      have h₀ := hat 0 (by omega)
      have h₁ := hat (2 ^ 32 - firstItem idx opts) (by omega)
      rw [Nat.add_zero, msgIdx, Nat.mod_eq_of_lt (by omega)] at h₀
      rw [show firstItem idx opts + (2 ^ 32 - firstItem idx opts) = 2 ^ 32 by omega, msgIdx,
        Nat.mod_self] at h₁
      omega
    refine ⟨?_, hfits⟩
    have hj' := List.mem_range'_1.mp hj
    rw [msgIdx, Nat.mod_eq_of_lt (by omega)] at hidx'
    have hwithin : idx < firstItem idx opts + maxWindowItems := by omega
    unfold firstItem maxWindowItems at hwithin
    unfold maxWindowItems
    omega
  · rintro ⟨hnear, hfits⟩
    have hplain : items.map (·.msgIdx) = List.range' (firstItem idx opts)
        (itemCount len idx opts) := by
      rw [hitems]
      refine (List.map_congr_left fun i hi => ?_).trans (List.map_id _)
      have := List.mem_range'_1.mp hi
      exact Nat.mod_eq_of_lt (by omega)
    refine ⟨?_, by omega, firstItem idx opts, by rw [hplain, hlen], by omega⟩
    rw [hplain, List.mem_range'_1]
    refine ⟨hfirst, ?_⟩
    unfold itemCount firstItem maxWindowItems at *
    omega

variable {s : Kv μ} {h : Str} {history : List (HistoryEntry μ)}

theorem stored_window_around (hl : Stored h history s) {idx : Nat} (hidx : idx < history.length)
    (opts : SearchOptions) :
    (∃ items, Prog.interp memory (Store.window h idx opts) s = .ok items s ∧
      Around history.length idx items) ↔
      Roomy history.length idx opts := by
  have hread := reads_window hl idx opts
  have hindices := shown_indices history (firstItem idx opts)
    (min maxWindowItems (idx + min opts.contextAfter maxWindowItems + 1 - firstItem idx opts))
  have hcount : min (min maxWindowItems
      (idx + min opts.contextAfter maxWindowItems + 1 - firstItem idx opts))
      (history.length - firstItem idx opts) = itemCount history.length idx opts := by
    unfold itemCount
    omega
  rw [hcount] at hindices
  rw [← around_iff hidx hindices]
  constructor
  · intro ⟨items, hitems, ha⟩
    rw [show Prog.interp memory (Store.window h idx opts) s = _ from hread] at hitems
    cases hitems
    exact ha
  · intro ha
    exact ⟨_, hread, ha⟩

theorem window_around {idx : Nat} (hidx : idx < history.length) (opts : SearchOptions) :
    Around history.length idx (window history idx opts) ↔ Roomy history.length idx opts := by
  refine around_iff hidx ?_
  rw [window_eq, shown_indices]
  congr 2
  unfold itemCount
  omega

/-- The window of a match is around it, in either store, just when it is roomy. -/
theorem windows_around (hl : Stored h history s) {idx : Nat} (hidx : idx < history.length)
    (opts : SearchOptions) :
    ((∃ items, Prog.interp memory (Store.window h idx opts) s = .ok items s ∧
      Around history.length idx items) ↔
      Roomy history.length idx opts) ∧
    (Around history.length idx (window history idx opts) ↔ Roomy history.length idx opts) :=
  ⟨stored_window_around hl hidx opts, window_around hidx opts⟩

theorem exists_stored {μ : Type} (h : Str) (history : List (HistoryEntry μ)) :
    ∃ s : Kv μ, Stored h history s := by
  induction history using List.reverseRecOn with
  | nil => exact ⟨∅, fun i => by simp⟩
  | append_singleton history e ih =>
    obtain ⟨s, hs⟩ := ih
    refine ⟨s.insert (.session, messageKey h history.length) (.entry e), fun i => ?_⟩
    rw [find_insert]
    by_cases hi : i = history.length
    · rw [hi, if_pos rfl, List.getElem?_concat_length]
      rfl
    · rw [if_neg fun he => hi (messageKey_inj (congrArg Prod.snd he)).symm, hs,
        List.getElem?_append]
      by_cases hlt : i < history.length
      · rw [if_pos hlt]
      · rw [if_neg hlt, List.getElem?_eq_none (by omega), List.getElem?_eq_none (by simp; omega)]

section
open Store.Plain

def manyMessages : List (HistoryEntry Message) :=
  List.replicate 17 ⟨[], [], false, ⟨"user".toList, "needle".toList⟩⟩

theorem close_window : ∃ s : Kv Message,
    (∃ items, Prog.interp memory (Store.window "chat".toList 16 ⟨5, 4, 4, none, none⟩) s = .ok items s ∧
    Around 17 16 items) ∧ Around 17 16 (window manyMessages 16 ⟨5, 4, 4, none, none⟩) := by
  obtain ⟨s, hs⟩ := exists_stored "chat".toList manyMessages
  have hall := windows_around hs (show 16 < manyMessages.length by decide) ⟨5, 4, 4, none, none⟩
  exact ⟨s, hall.1.mpr (by decide), hall.2.mpr (by decide)⟩

/-- With sixteen messages asked for before it, a match is not in its own window. -/
theorem wide_window_misses : ∃ s : Kv Message, Stored "chat".toList manyMessages s ∧
    ¬ (∃ items, Prog.interp memory (Store.window "chat".toList 16 ⟨5, 16, 4, none, none⟩) s =
      .ok items s ∧ Around 17 16 items) ∧
    ¬ Around 17 16 (window manyMessages 16 ⟨5, 16, 4, none, none⟩) := by
  obtain ⟨s, hs⟩ := exists_stored "chat".toList manyMessages
  refine ⟨s, hs, fun ha => ?_, fun ha => ?_⟩
  · exact absurd ((stored_window_around hs (by decide) _).mp ha) (by decide)
  · exact absurd ((window_around (show 16 < manyMessages.length by decide) _).mp ha) (by decide)

end

end Crabtalk.Backend

import Crabtalk.Basis.LittleEndian

/-!
# Length-prefixed frames

A frame is the length of its data, in four bytes with the high one first, and
the data. A reader takes bytes off a wire until its frame is whole. Each byte
carries a stamp, which says whose it is and which no reader sees.
-/

namespace Basis

variable {τ : Type} {t : τ} {data : Bytes} {buf rest rest' : List (τ × UInt8)} {max : Nat}

def stamp (t : τ) (b : Bytes) : List (τ × UInt8) := b.map fun x => (t, x)

def bare (w : List (τ × UInt8)) : Bytes := w.map (·.2)

@[simp] theorem length_stamp : (stamp t data).length = data.length := List.length_map _

@[simp] theorem bare_stamp (t : τ) (data : Bytes) : bare (stamp t data) = data := by
  unfold bare stamp
  rw [List.map_map]
  exact List.map_id _

theorem bare_append (w w' : List (τ × UInt8)) : bare (w ++ w') = bare w ++ bare w' :=
  List.map_append

def header (n : Nat) : Bytes := (le 4 n).reverse

def ofHeader (b : Bytes) : Nat := ofLe b.reverse

@[simp] theorem length_header (n : Nat) : (header n).length = 4 := by simp [header]

theorem ofHeader_header {n : Nat} (h : n < 2 ^ 32) : ofHeader (header n) = n := by
  unfold ofHeader header
  rw [List.reverse_reverse, ofLe_le_of_lt h]

def frame (t : τ) (data : Bytes) : List (τ × UInt8) := stamp t (header data.length ++ data)

@[simp] theorem length_frame : (frame t data).length = 4 + data.length := by simp [frame]

inductive Progress
  | more
  | tooLarge
  | whole (data : Bytes)

def progress (max : Nat) (buf : List (τ × UInt8)) : Progress :=
  if buf.length < 4 then .more
  else
    let len := ofHeader ((bare buf).take 4)
    if max < len then .tooLarge
    else if buf.length < 4 + len then .more
    else .whole ((bare buf).drop 4)

/-- With a header read, the reader knows the length of the frame it is in. -/
theorem header_of_append (h : buf ++ rest = frame t data ++ rest') (h32 : data.length < 2 ^ 32)
    (hbuf : ¬ buf.length < 4) :
    ofHeader ((bare buf).take 4) = data.length := by
  have htake : ((bare (buf ++ rest)).take 4) = header data.length := by
    rw [h]
    unfold frame
    rw [bare_append, bare_stamp, List.append_assoc, List.take_left' (length_header _)]
  have hbare : 4 ≤ (bare buf).length := by simpa [bare] using hbuf
  rw [bare_append, List.take_append_of_le_length hbare] at htake
  rw [htake, ofHeader_header h32]

theorem progress_ne_tooLarge (h : buf ++ rest = frame t data ++ rest') (h32 : data.length < 2 ^ 32)
    (hmax : data.length ≤ max) :
    progress max buf ≠ .tooLarge := by
  unfold progress
  split
  · exact fun h => (by cases h)
  · rename_i hbuf
    rw [header_of_append h h32 hbuf]
    dsimp only
    rw [if_neg (by omega)]
    split <;> exact fun h => (by cases h)

/-- A reader that is done has read the first frame and nothing else, if it has not read past it. -/
theorem progress_whole {d : Bytes} (h : buf ++ rest = frame t data ++ rest')
    (h32 : data.length < 2 ^ 32)
    (hshort : buf.length ≤ 4 + data.length) (hw : progress max buf = .whole d) : buf =
    frame t data ∧ rest = rest' ∧ d = data := by
  unfold progress at hw
  split at hw
  · cases hw
  · rename_i hbuf
    rw [header_of_append h h32 hbuf] at hw
    dsimp only at hw
    split at hw
    · cases hw
    · split at hw
      · cases hw
      · rename_i hlen
        have heq : buf.length = (frame t data).length := by
          rw [length_frame]
          omega
        obtain ⟨hb, hr⟩ := List.append_inj h heq
        refine ⟨hb, hr, ?_⟩
        rw [hb] at hw
        cases hw
        unfold frame
        rw [bare_stamp, List.drop_left' (length_header _)]

/-- While a reader wants more, it is short of the frame. -/
theorem progress_more (h : buf ++ rest = frame t data ++ rest') (h32 : data.length < 2 ^ 32)
    (hmax : data.length ≤ max)
    (hm : progress max buf = .more) : buf.length < 4 + data.length := by
  unfold progress at hm
  split at hm
  · omega
  · rename_i hbuf
    rw [header_of_append h h32 hbuf] at hm
    dsimp only at hm
    rw [if_neg (by omega)] at hm
    split at hm
    · assumption
    · cases hm

def owner [DecidableEq τ] : List (τ × UInt8) → Option τ
  | [] => none
  | (t, _) :: rest => if ∀ b ∈ rest, b.1 = t then some t else none

theorem owner_frame [DecidableEq τ] (t : τ) (data : Bytes) : owner (frame t data) = some t := by
  have hall : ∀ b ∈ frame t data, b.1 = t := by
    intro b hb
    obtain ⟨x, -, rfl⟩ := List.mem_map.mp hb
    rfl
  have hlen : (frame t data).length ≠ 0 := by
    rw [length_frame]
    omega
  match hf : frame t data with
  | [] => exact absurd (congrArg List.length hf) hlen
  | (t', x) :: rest =>
    rw [hf] at hall
    have ht : t' = t := hall (t', x) List.mem_cons_self
    subst ht
    unfold owner
    exact if_pos fun b hb => hall b (List.mem_cons_of_mem _ hb)

end Basis

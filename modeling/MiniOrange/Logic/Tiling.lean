import Mathlib

/-!
# Lists of pieces that tile an interval

A piece begins with a header of fixed length, behind which come its cells; it is free or not. A list of pieces
tiles an interval if each piece begins where the one before it ends. Pieces can be cut in two, joined and freed; a list
is kept apart if no two free pieces are neighbours.
-/

namespace MiniOrange

/-- A piece: where it begins, how many cells are behind its header, and if it is free. -/
structure Piece where
  address : Nat
  size : Nat
  free : Bool
  deriving DecidableEq, Repr

/-- The pieces tile the interval from `a` to `e`, with headers of length `n`. -/
def Tiles (n : Nat) : Nat → List Piece → Nat → Prop
  | a, [], e => a = e
  | a, b :: bs, e => b.address = a ∧ Tiles n (a + n + b.size) bs e

/-- No two free pieces are neighbours. -/
def Apart (bs : List Piece) : Prop := bs.IsChain fun b c => b.free = true → c.free = false

variable {n a e : Nat} {b c : Piece} {bs xs ys : List Piece}

theorem tiles_append : Tiles n a (xs ++ ys) e ↔ ∃ c, Tiles n a xs c ∧ Tiles n c ys e := by
  induction xs generalizing a with
  | nil => exact ⟨fun h => ⟨a, rfl, h⟩, fun ⟨c, hc, h⟩ => hc ▸ h⟩
  | cons x xs ih =>
    simp only [List.cons_append, Tiles, ih]
    exact ⟨fun ⟨hx, c, hxs, hys⟩ => ⟨c, ⟨hx, hxs⟩, hys⟩, fun ⟨c, ⟨hx, hxs⟩, hys⟩ => ⟨hx, c, hxs, hys⟩⟩

theorem tiles_middle : Tiles n a (xs ++ b :: ys) e ↔
    Tiles n a xs b.address ∧ Tiles n (b.address + n + b.size) ys e := by
  rw [tiles_append]
  refine ⟨fun ⟨c, hxs, hb, hys⟩ => ⟨hb ▸ hxs, hb ▸ hys⟩, fun ⟨hxs, hys⟩ => ⟨b.address, hxs, rfl, hys⟩⟩

namespace Tiles

variable (h : Tiles n a bs e)
include h

theorem le : a ≤ e := by
  induction bs generalizing a with
  | nil => exact Nat.le_of_eq h
  | cons b bs ih =>
    have := ih h.2
    omega

theorem end_unique {e' : Nat} (h' : Tiles n a bs e') : e = e' := by
  induction bs generalizing a with
  | nil => exact h.symm.trans h'
  | cons b bs ih => exact ih h.2 h'.2

theorem start_unique {a' e' : Nat} (h' : Tiles n a' bs e') (hne : bs ≠ []) : a = a' := by
  cases bs with
  | nil => exact absurd rfl hne
  | cons b bs => exact h.1.symm.trans h'.1

/-- There are not more pieces than headers fit. -/
theorem length_mul_le : a + bs.length * n ≤ e := by
  induction bs generalizing a with
  | nil =>
    rw [List.length_nil, Nat.zero_mul]
    exact Nat.le_of_eq h
  | cons b bs ih =>
    have := ih h.2
    rw [List.length_cons, Nat.add_mul]
    omega

/-- A piece lies in the interval. -/
theorem mem (hb : b ∈ bs) : a ≤ b.address ∧ b.address + n + b.size ≤ e := by
  obtain ⟨xs, ys, rfl⟩ := List.append_of_mem hb
  obtain ⟨hxs, hys⟩ := tiles_middle.1 h
  exact ⟨hxs.le, hys.le⟩

/-- Where the headers and the pieces are multiples of a number, so are the addresses. -/
theorem dvd {k : Nat} (hn : k ∣ n) (ha : k ∣ a) (hsize : ∀ b ∈ bs, k ∣ b.size) (hb : b ∈ bs) :
    k ∣ b.address := by
  induction bs generalizing a with
  | nil => cases hb
  | cons c bs ih =>
    obtain ⟨hc, hsizes⟩ := List.forall_mem_cons.1 hsize
    cases hb with
    | head => exact h.1 ▸ ha
    | tail _ hb => exact ih h.2 (Nat.dvd_add (Nat.dvd_add ha hn) hc) hsizes hb

/-- Two pieces are the same or do not overlap. -/
theorem disjoint (hb : b ∈ bs) (hc : c ∈ bs) :
    b = c ∨ b.address + n + b.size ≤ c.address ∨ c.address + n + c.size ≤ b.address := by
  obtain ⟨xs, ys, rfl⟩ := List.append_of_mem hb
  obtain ⟨hxs, hys⟩ := tiles_middle.1 h
  rcases List.mem_append.1 hc with hc | hc
  · exact .inr (.inr (hxs.mem hc).2)
  · cases hc with
    | head => exact .inl rfl
    | tail _ hc => exact .inr (.inl (hys.mem hc).1)

end Tiles

/-! ### Lists that are kept apart -/

theorem apart_middle : Apart (xs ++ b :: ys) ↔
    Apart xs ∧ Apart ys ∧ (∀ x ∈ xs.getLast?, x.free = true → b.free = false) ∧
      ∀ y ∈ ys.head?, b.free = true → y.free = false := by
  unfold Apart
  rw [List.isChain_append, List.isChain_cons]
  simp only [List.head?_cons, Option.mem_def, Option.some.injEq, forall_eq']
  tauto

/-- A piece takes in the next one if that is free. -/
def join (n : Nat) (b : Piece) : List Piece → List Piece
  | [] => [b]
  | c :: ys => if c.free = true then ⟨b.address, b.size + n + c.size, b.free⟩ :: ys else b :: c :: ys

/-- The pieces that are not free. -/
def live (bs : List Piece) : List Piece := bs.filter fun b => !b.free

theorem join_eq (n : Nat) (b : Piece) (ys : List Piece) :
    ∃ b' zs, join n b ys = b' :: zs ∧ b'.address = b.address ∧ b'.free = b.free := by
  cases ys with
  | nil => exact ⟨b, [], rfl, rfl, rfl⟩
  | cons c ys =>
    rw [join]
    split
    · exact ⟨_, ys, rfl, rfl, rfl⟩
    · exact ⟨b, c :: ys, rfl, rfl, rfl⟩

theorem Apart.join (h : Apart ys) : Apart (join n b ys) := by
  cases ys with
  | nil => exact List.isChain_singleton _
  | cons c ys =>
    rw [MiniOrange.join]
    have hys := List.isChain_cons.1 h
    split
    · next hc => exact List.isChain_cons.2 ⟨fun y hy _ => hys.1 y hy hc, hys.2⟩
    · next hc => exact List.isChain_cons_cons.2 ⟨fun _ => by simpa using hc, h⟩

@[simp] theorem live_append (xs ys : List Piece) : live (xs ++ ys) = live xs ++ live ys := List.filter_append ..

theorem live_cons_free (hb : b.free = true) : live (b :: ys) = live ys := List.filter_cons_of_neg (by simp [hb])

theorem live_cons (hb : b.free = false) : live (b :: ys) = b :: live ys := List.filter_cons_of_pos (by simp [hb])

theorem live_join (hb : b.free = true) : live (join n b ys) = live ys := by
  cases ys with
  | nil => exact live_cons_free hb
  | cons c ys =>
    rw [join]
    split
    · next hc => exact (live_cons_free (b := ⟨b.address, b.size + n + c.size, b.free⟩) hb).trans (live_cons_free hc).symm
    · rw [live_cons_free hb]

theorem mem_live : b ∈ live bs ↔ b ∈ bs ∧ b.free = false := by
  unfold live
  rw [List.mem_filter, Bool.not_eq_true']

/-- If all pieces are free, there is one. -/
theorem Apart.eq_singleton (h : Apart bs) (hfree : ∀ b ∈ bs, b.free = true) (hne : bs ≠ []) : ∃ b, bs = [b] := by
  cases bs with
  | nil => exact absurd rfl hne
  | cons b bs =>
    cases bs with
    | nil => exact ⟨b, rfl⟩
    | cons c bs =>
      have hc := (List.isChain_cons_cons.1 h).1 (hfree b (by simp))
      rw [hfree c (by simp)] at hc
      cases hc

end MiniOrange

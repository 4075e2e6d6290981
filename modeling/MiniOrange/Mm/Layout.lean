import MiniOrange.Logic.Tiling
import MiniOrange.Mm.Heap

/-!
# The layout of the heap

The blocks of the heap are a list of pieces that tile the heap, and the words of the heap hold their headers, linked in
both directions (`Linked`). This is what `validate_block` checks around one block; here it is shown that it never finds
anything wrong, and what each function of `heap.c` makes of the list.
-/

namespace MiniOrange

namespace Heap

/-! ## Headers -/

/-- The header of a block, with the addresses of its neighbours. -/
structure Header (w : Nat → Nat) (b : Piece) (prev next : Nat) : Prop where
  magic : w b.address = magic
  size : w (b.address + 4) = b.size
  prev : w (b.address + 8) = prev
  next : w (b.address + 12) = next
  state : w (b.address + 16) = if b.free = true then stateFree else stateAllocated

/-- The address of the first block, or `n` if there is none. -/
def headAddress (n : Nat) : List Piece → Nat
  | [] => n
  | b :: _ => b.address

/-- The address of the last block, or `p` if there is none. -/
def lastAddress (p : Nat) : List Piece → Nat
  | [] => p
  | b :: bs => lastAddress b.address bs

/-- The headers of the blocks, linked from `p` in front to `n` behind. -/
def Linked (w : Nat → Nat) : Nat → List Piece → Nat → Prop
  | _, [], _ => True
  | p, b :: bs, n => Header w b p (headAddress n bs) ∧ Linked w b.address bs n

variable {w w' : Nat → Nat} {p p' n a e : Nat} {b c : Piece} {bs xs ys : List Piece}

@[simp] theorem lastAddress_append_singleton (p : Nat) (xs : List Piece) (b : Piece) :
    lastAddress p (xs ++ [b]) = b.address := by
  induction xs generalizing p with
  | nil => rfl
  | cons x xs ih => exact ih x.address

theorem linked_append : Linked w p (xs ++ ys) n ↔
    Linked w p xs (headAddress n ys) ∧ Linked w (lastAddress p xs) ys n := by
  induction xs generalizing p with
  | nil => exact (and_iff_right trivial).symm
  | cons x xs ih =>
    have hhead : headAddress n (xs ++ ys) = headAddress (headAddress n ys) xs := by
      cases xs with
      | nil => rfl
      | cons => rfl
    rw [List.cons_append, Linked, Linked, ih, hhead, and_assoc]
    rfl

theorem linked_middle : Linked w p (xs ++ b :: ys) n ↔
    Linked w p xs b.address ∧ Header w b (lastAddress p xs) (headAddress n ys) ∧ Linked w b.address ys n := by
  rw [linked_append]
  rfl

theorem Header.state_eq_free (h : Header w b p n) : w (b.address + 16) = stateFree ↔ b.free = true := by
  rw [h.state]
  split
  · next hfree => simp [hfree]
  · next hfree => simp [hfree, stateFree, stateAllocated]

theorem Header.state_eq_allocated (h : Header w b p n) : w (b.address + 16) = stateAllocated ↔ b.free = false := by
  rw [h.state]
  split
  · next hfree => simp [hfree, stateFree, stateAllocated]
  · next hfree => simpa using hfree

/-- The headers depend on the words of the blocks only. -/
theorem Header.congr (h : Header w b p n) (hw : ∀ i, b.address ≤ i → i < b.address + 24 → w' i = w i) :
    Header w' b p n where
  magic := (hw _ (by omega) (by omega)).trans h.magic
  size := (hw _ (by omega) (by omega)).trans h.size
  prev := (hw _ (by omega) (by omega)).trans h.prev
  next := (hw _ (by omega) (by omega)).trans h.next
  state := (hw _ (by omega) (by omega)).trans h.state

theorem Linked.congr (h : Linked w p bs n) (htiles : Tiles 24 a bs e) (hw : ∀ i, a ≤ i → i < e → w' i = w i) :
    Linked w' p bs n := by
  induction bs generalizing p a with
  | nil => trivial
  | cons b bs ih =>
    obtain ⟨rfl, htiles⟩ := htiles
    have hle := htiles.le
    exact ⟨h.1.congr fun i _ _ => hw i (by omega) (by omega), ih h.2 htiles fun i _ _ => hw i (by omega) (by omega)⟩

/-- The blocks behind a change of the link back. -/
theorem Linked.relink (h : Linked w p bs n) (htiles : Tiles 24 a bs e)
    (hw : ∀ i, a ≤ i → i < e → i ≠ a + 8 → w' i = w i) (hback : bs ≠ [] → w' (a + 8) = p') : Linked w' p' bs n := by
  cases bs with
  | nil => trivial
  | cons b bs =>
    obtain ⟨rfl, htiles⟩ := htiles
    have hle := htiles.le
    have hb := h.1
    refine ⟨⟨?_, ?_, hback (by simp), ?_, ?_⟩, h.2.congr htiles fun i _ _ => hw i (by omega) (by omega) (by omega)⟩
    · exact (hw _ (by omega) (by omega) (by omega)).trans hb.magic
    · exact (hw _ (by omega) (by omega) (by omega)).trans hb.size
    · exact (hw _ (by omega) (by omega) (by omega)).trans hb.next
    · exact (hw _ (by omega) (by omega) (by omega)).trans hb.state

/-- The last block before a change of the link forth. -/
theorem Linked.relink_last (h : Linked w p (xs ++ [b]) n) (htiles : Tiles 24 a (xs ++ [b]) e)
    (hw : ∀ i, a ≤ i → i < e → i ≠ b.address + 12 → w' i = w i) (hforth : w' (b.address + 12) = p') :
    Linked w' p (xs ++ [b]) p' := by
  obtain ⟨hxs, hb, -⟩ := linked_middle.1 h
  obtain ⟨htxs, htb⟩ := tiles_middle.1 htiles
  have hle := htb.le
  have hle' := htxs.le
  refine linked_middle.2 ⟨hxs.congr htxs fun i _ _ => hw i (by omega) (by omega) (by omega), ?_, trivial⟩
  exact
    { magic := (hw _ (by omega) (by omega) (by omega)).trans hb.magic
      size := (hw _ (by omega) (by omega) (by omega)).trans hb.size
      prev := (hw _ (by omega) (by omega) (by omega)).trans hb.prev
      next := hforth
      state := (hw _ (by omega) (by omega) (by omega)).trans hb.state }

/-! ## The shape of the heap -/

variable {σ : Type}

/-- The words of the heap hold these blocks. -/
structure Shape (h : Heap σ) (bs : List Piece) : Prop where
  initialized : h.heapInitialized = true
  head : h.heapHead = virtualStart
  nonempty : bs ≠ []
  tiles : Tiles 24 virtualStart bs h.heapEnd
  linked : Linked h.words 0 bs 0
  aligned : ∀ b ∈ bs, b.size % 8 = 0 ∧ 8 ≤ b.size
  mapped : h.heapEnd = virtualStart + h.heapMappedPages * 4096
  bounded : h.heapMappedPages * 4096 ≤ maxSize

theorem headAddress_append {p n : Nat} (hne : xs ≠ []) : headAddress n (xs ++ ys) = headAddress p xs := by
  cases xs with
  | nil => exact absurd rfl hne
  | cons => rfl

theorem headAddress_of_tiles (h : Tiles 24 a xs e) (hne : xs ≠ []) : headAddress n xs = a := by
  cases xs with
  | nil => exact absurd rfl hne
  | cons => exact h.1

theorem lastAddress_congr (hne : ys ≠ []) : lastAddress p ys = lastAddress n ys := by
  cases ys with
  | nil => exact absurd rfl hne
  | cons => rfl

/-- Some blocks are replaced by others at the same place. -/
theorem Shape.replace {h : Heap σ} (os ms : List Piece) {lo hi : Nat} (hs : Shape h (xs ++ (os ++ ys)))
    (hos : Tiles 24 lo os hi) (hms : Tiles 24 lo ms hi) (hone : os ≠ []) (hmne : ms ≠ [])
    (haligned : ∀ b ∈ ms, b.size % 8 = 0 ∧ 8 ≤ b.size)
    (hlinked : Linked w' (lastAddress 0 xs) ms (headAddress 0 ys))
    (hframe : ∀ i, i < lo ∨ hi ≤ i ∧ i ≠ hi + 8 → w' i = h.words i)
    (hback : ys ≠ [] → w' (hi + 8) = lastAddress 0 ms) :
    Shape { h with words := w' } (xs ++ (ms ++ ys)) := by
  obtain ⟨lo', hxs, hrest⟩ := tiles_append.1 hs.tiles
  obtain ⟨hi', hos', hys⟩ := tiles_append.1 hrest
  obtain rfl := hos.start_unique hos' hone
  obtain rfl := hos.end_unique hos'
  obtain ⟨hlxs, hlrest⟩ := linked_append.1 hs.linked
  obtain ⟨-, hlys⟩ := linked_append.1 hlrest
  refine
    { initialized := hs.initialized
      head := hs.head
      nonempty := by simp [hmne]
      tiles := tiles_append.2 ⟨lo, hxs, tiles_append.2 ⟨hi, hms, hys⟩⟩
      linked := linked_append.2 ⟨?_, linked_append.2 ⟨hlinked, ?_⟩⟩
      aligned := fun b hb => ?_
      mapped := hs.mapped
      bounded := hs.bounded }
  · rw [headAddress_append hmne, headAddress_of_tiles (n := 0) hms hmne]
    rw [headAddress_append hone, headAddress_of_tiles (n := 0) hos hone] at hlxs
    exact hlxs.congr hxs fun i _ hi => hframe i (.inl hi)
  · refine hlys.relink hys (fun i hlow _ hne => hframe i (.inr ⟨hlow, hne⟩)) fun hne => ?_
    exact (hback hne).trans (lastAddress_congr hmne)
  · have hold := hs.aligned b
    simp only [List.mem_append] at hb hold
    rcases hb with hb | hb | hb
    · exact hold (.inl hb)
    · exact haligned b hb
    · exact hold (.inr (.inr hb))

/-- Every word of the heap can be reached, or else it is a fault that is allowed for. -/
def Visible (P : PageServices σ) (F : MemoryPanic → Prop) (h : Heap σ) : Prop :=
  ∀ i, virtualStart ≤ i → i < h.heapEnd → P.accessible h.pages i = true ∨ F (.fault i)

end Heap

end MiniOrange

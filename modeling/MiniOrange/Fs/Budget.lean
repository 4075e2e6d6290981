import MiniOrange.Fs.Grow

/-!
# The budget of a file

A file of `k` blocks takes `needs k` blocks of the volume, with its indirect block. What a file has and what is free stay
together the same while the file is written (`Settled.budget_eq`): the file's budget. `Reach` says how far a write gets with it,
and two writes get as far as one (`Reach.append`).
-/

namespace MiniOrange

/-- The blocks of the volume that a file of `k` blocks takes. -/
def needs (k : Nat) : Nat := k + if 10 < k then 1 else 0

theorem needs_le {k k' : Nat} (h : k ≤ k') : needs k ≤ needs k' := by
  unfold needs
  split
  · rw [if_pos (by omega)]
    omega
  · split
    · omega
    · omega

theorem needs_lt_succ (k : Nat) : needs k < needs (k + 1) := by
  unfold needs
  split
  · rw [if_pos (by omega)]
    omega
  · split
    · omega
    · omega

/-- From `offset` on, `done` of `length` bytes can be written with this budget, and no more. -/
structure Reach (budget offset length done : Nat) : Prop where
  le : done ≤ length
  fits : needs (blocksOf (offset + done)) ≤ budget
  ends : done < length → budget < needs (blocksOf (offset + done + 1))

namespace Reach

variable {budget offset length a b d d' : Nat}

theorem blocksOf_mono {size size' : Nat} (h : size ≤ size') : blocksOf size ≤ blocksOf size' :=
  blocksOf_le.2 (h.trans (blocksOf_le.1 le_rfl))

/-- How far a write gets is given by the budget. -/
theorem unique (h : Reach budget offset length d) (h' : Reach budget offset length d') : d = d' := by
  have hle : ∀ {x y}, Reach budget offset length x → Reach budget offset length y → y ≤ x := by
    intro x y hx hy
    by_contra hlt
    have hends := hx.ends (Nat.lt_of_lt_of_le (Nat.not_le.1 hlt) hy.le)
    have hmono := needs_le (blocksOf_mono (show offset + x + 1 ≤ offset + y by omega))
    exact absurd (hmono.trans hy.fits) (Nat.not_le.2 hends)
  exact Nat.le_antisymm (hle h' h) (hle h h')

/-- A write behind one that has written all of its bytes. -/
theorem append (h : Reach budget (offset + a) b d) : Reach budget offset (a + b) (a + d) where
  le := Nat.add_le_add_left h.le a
  fits := by
    rw [← Nat.add_assoc]
    exact h.fits
  ends hlt := by
    rw [← Nat.add_assoc]
    exact h.ends (by omega)

/-- A write that has not written all of its bytes gets no further with more of them. -/
theorem extend (h : Reach budget offset a d) (hlt : d < a) : Reach budget offset (a + b) d :=
  ⟨h.le.trans (Nat.le_add_right a b), h.fits, fun _ => h.ends hlt⟩

end Reach

namespace Vol

variable {v v' : Vol} {sb : Superblock} {L : Finset Nat} {n : Nat}

/-- The data blocks that are free. -/
def free (v : Vol) (sb : Superblock) : Finset Nat := {b ∈ Finset.Ico sb.dataStart sb.totalBlocks | v.bmap b = false}

/-- The slots of a file of `k` blocks. -/
def slotsOf (k : Nat) : Finset Slot := (Finset.range k).image .data ∪ if 10 < k then {.indirect} else ∅

/-- What a file has, and what it can still get. -/
def budget (v : Vol) (sb : Superblock) (n : Nat) : Nat := needs (blocksOf (v.ino n).size) + (v.free sb).card

theorem mem_free {b : Nat} : b ∈ v.free sb ↔ (sb.dataStart ≤ b ∧ b < sb.totalBlocks) ∧ v.bmap b = false := by
  rw [free, Finset.mem_filter, Finset.mem_Ico]

theorem free_eq_empty : v.free sb = ∅ ↔ ∀ b, sb.dataStart ≤ b → b < sb.totalBlocks → v.bmap b = true := by
  rw [Finset.eq_empty_iff_forall_notMem]
  simp [mem_free]

theorem mem_slotsOf {i : Inode} {t : Slot} : t ∈ slotsOf (blocksOf i.size) ↔ i.Needs t := by
  unfold slotsOf Inode.Needs
  cases t with
  | data k =>
    split
    · simp
    · simp
  | indirect =>
    split
    · next h => simp [h]
    · next h => simp [h]

theorem card_slotsOf (k : Nat) : (slotsOf k).card = needs k := by
  have hdata : ((Finset.range k).image Slot.data).card = k := by
    rw [Finset.card_image_of_injective _ fun a b h => Slot.data.inj h, Finset.card_range]
  unfold slotsOf needs
  split
  · rw [Finset.card_union_of_disjoint, hdata, Finset.card_singleton]
    rw [Finset.disjoint_singleton_right]
    simp
  · rw [Finset.union_empty, hdata, Nat.add_zero]

/-- The blocks that were free and are not are those in the new slots of the file. -/
theorem Settled.free_eq (h : Settled v v' sb n) (hown : v.Owns sb L) (hn : n ∈ L) :
    v.free sb = v'.free sb ∪ (slotsOf (blocksOf (v'.ino n).size) \ slotsOf (blocksOf (v.ino n).size)).image (v'.slotBlock n) := by
  ext b
  simp only [Finset.mem_union, Finset.mem_image, Finset.mem_sdiff, mem_slotsOf, mem_free]
  constructor
  · rintro ⟨hvalid, hfree⟩
    cases hb : v'.bmap b with
    | false => exact .inl ⟨hvalid, rfl⟩
    | true =>
      rcases h.tight b hb with hold | ⟨t, ht, rfl⟩
      · rw [hfree] at hold
        cases hold
      · refine .inr ⟨t, ⟨ht, fun hold => ?_⟩, rfl⟩
        have hmarked := hown.slot_marked hn hold
        rw [← h.slot t hold, hfree] at hmarked
        cases hmarked
  · rintro (⟨hvalid, hfree⟩ | ⟨t, ⟨ht, hnew⟩, rfl⟩)
    · refine ⟨hvalid, Bool.eq_false_iff.2 fun hb => ?_⟩
      rw [h.mark b hb] at hfree
      cases hfree
    · exact ⟨(h.toGrown.owns hown hn).slot_valid hn ht, h.fresh t ht hnew⟩

/-- A write takes from what is free what it gives to the file. -/
theorem Settled.budget_eq (h : Settled v v' sb n) (hown : v.Owns sb L) (hn : n ∈ L) : v'.budget sb n = v.budget sb n := by
  have hsub : slotsOf (blocksOf (v.ino n).size) ⊆ slotsOf (blocksOf (v'.ino n).size) := fun t ht =>
    mem_slotsOf.2 (needs_mono h.size (mem_slotsOf.1 ht))
  have hinj : Set.InjOn (v'.slotBlock n)
      (slotsOf (blocksOf (v'.ino n).size) \ slotsOf (blocksOf (v.ino n).size) : Finset Slot) := by
    intro t ht u hu heq
    rw [Finset.mem_coe, Finset.mem_sdiff, mem_slotsOf] at ht hu
    exact h.apart t u ht.1 hu.1 heq
  have hdisjoint : Disjoint (v'.free sb)
      ((slotsOf (blocksOf (v'.ino n).size) \ slotsOf (blocksOf (v.ino n).size)).image (v'.slotBlock n)) := by
    rw [Finset.disjoint_left]
    intro b hb hslot
    obtain ⟨t, ht, rfl⟩ := Finset.mem_image.1 hslot
    rw [Finset.mem_sdiff, mem_slotsOf] at ht
    have hmarked := (h.toGrown.owns hown hn).slot_marked hn ht.1
    rw [(mem_free.1 hb).2] at hmarked
    cases hmarked
  have hcard := congrArg Finset.card (h.free_eq hown hn)
  rw [Finset.card_union_of_disjoint hdisjoint, Finset.card_image_of_injOn hinj, Finset.card_sdiff_of_subset hsub, card_slotsOf,
    card_slotsOf] at hcard
  have hle := Finset.card_le_card hsub
  rw [card_slotsOf, card_slotsOf] at hle
  unfold budget
  omega

end Vol

end MiniOrange

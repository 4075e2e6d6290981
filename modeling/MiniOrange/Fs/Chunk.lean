import MiniOrange.Fs.Write

/-!
# The four ways to write a chunk

`write_chunk_locked` writes inside one block of a file, which is a block the file has or the next
one. It does so in place, with a direct block more, with a pointer more in the indirect block, or
with a new indirect block. Each of the four leaves the file settled with the bytes spliced in; this
module proves it of the volumes, and `MiniOrange.Fs.WriteChunk` of the code.
-/

namespace MiniOrange

/-- One pointer of an indirect block is changed. -/
theorem Block.pointer_writeLe32 {b : Block} {j m x : Nat} (hj : j < 1024) (hx : x < 2 ^ 32) :
    (b.writeLe32 (j * 4) x).pointer m = if m = j then x else b.pointer m := by
  unfold Block.pointer
  by_cases hmj : m = j
  · rw [if_pos hmj, hmj, readLe32_writeLe32 x (by omega), Nat.mod_eq_of_lt hx]
  · rw [if_neg hmj]
    exact readLe32_copyBytes (by omega)

@[simp] theorem Block.pointer_zero (m : Nat) : Block.zero.pointer m = 0 :=
  readLe32_eq_zero.2 fun _ _ => Block.byte_zero _

namespace Vol

variable {v v' v'' : Vol} {sb : Superblock} {n b i offset length links size : Nat} {L : Finset Nat}
  {source : Bytes} {F : Finset Nat}

/-- A file with the same pointers has the same blocks. -/
theorem fileBlock_setIno {inode : Inode} (hd : inode.direct = (v.ino n).direct)
    (hi : inode.indirect = (v.ino n).indirect) (k : Nat) :
    (v.setIno n inode).fileBlock n k = v.fileBlock n k := by
  simp only [fileBlock, setIno_self, setIno_data, Inode.directAt, hd, hi]

/-- Taking blocks leaves an owned file as it was. -/
theorem Taken.grown (h : Taken v v' sb F) (hown : v.Owns sb L) (hn : n ∈ L) : Grown v v' sb n := by
  have hkept : Kept v v' n := h.kept fun t ht => hown.slot_marked hn ht
  have howns' : ∀ b, v.bmap b = true → v'.bmap b = true := by
    intro b hb
    have hF : b ∉ F := fun hF => by
      rw [h.free b hF] at hb
      cases hb
    rw [h.bmap b hF, hb]
  refine
    { imap := h.imap
      other := fun m _ => congrFun h.ino m
      ok := by rw [h.ino]; exact hown.ok n hn
      mode := by rw [h.ino]
      size := by rw [h.ino]
      slot := hkept.slot
      fresh := fun t ht hnot => absurd (by rwa [h.ino] at ht) hnot
      block := fun t ht => ?_
      apart := fun t u ht hu heq => ?_
      mark := howns'
      data := fun b hb _ => h.data b hb }
  · rw [h.ino] at ht
    have hblock := hown.block n hn t ht
    rw [hkept.slot t ht]
    unfold blockAllocated at hblock ⊢
    rw [hkept.marked t ht]
    exact hblock
  · rw [h.ino] at ht hu
    rw [hkept.slot t ht, hkept.slot u hu] at heq
    exact (hown.exclusive n hn n hn t u ht hu heq).2

/-- A change in free blocks takes none. -/
theorem Loose.taken (h : Loose v v') : Taken v v' sb ∅ where
  imap := h.imap
  ino := h.ino
  valid b hb := absurd hb (Finset.notMem_empty b)
  free b hb := absurd hb (Finset.notMem_empty b)
  taken b hb := absurd hb (Finset.notMem_empty b)
  bmap b _ := congrFun h.bmap b
  data := h.data

/-- A change in free blocks leaves an owned file settled. -/
theorem Loose.settled (h : Loose v v') (hown : v.Owns sb L) (hn : n ∈ L) (hend : v.PointersEnd n) :
    Settled v v' sb n where
  toGrown := h.taken.grown hown hn
  tight b hb := .inl (by rwa [h.bmap] at hb)
  pointer_zero := by
    rw [h.ino]
    intro hmany k hk hpast
    have hmarked : v.bmap (v.ino n).indirect = true := hown.slot_marked (t := .indirect) hn hmany
    rw [h.data _ hmarked]
    exact hend hmany k hk hpast

/-! ## In place -/

/-- The bytes of a patched file. -/
theorem byteAt_patch (hown : v.Owns sb L) (hn : n ∈ L) (hk : offset / 4096 < blocksOf (v.ino n).size)
    (hlen : offset % 4096 + length ≤ 4096) {o : Nat} (ho : o / 4096 < blocksOf (v.ino n).size) :
    (v.patch n offset source length).byteAt n o =
      if offset ≤ o ∧ o < offset + length then source (o - offset) else v.byteAt n o := by
  have hne : (v.ino n).Needs .indirect → (v.ino n).indirect ≠ v.fileBlock n (offset / 4096) := by
    intro hi heq
    have hslot := (hown.exclusive n hn n hn .indirect (.data _) hi hk heq).2
    cases hslot
  have hfile : (v.patch n offset source length).fileBlock n (o / 4096) = v.fileBlock n (o / 4096) :=
    slotBlock_setData_of_ne (t := .data (o / 4096)) hne ho
  rw [byteAt, byteAt, hfile]
  unfold patch
  by_cases hblock : o / 4096 = offset / 4096
  · rw [hblock, setData_self, Block.byte_copyBytes]
    by_cases hin : offset ≤ o ∧ o < offset + length
    · rw [if_pos hin, if_pos (by omega)]
      congr 1
      omega
    · rw [if_neg hin, if_neg (by omega)]
  · have hother : v.fileBlock n (o / 4096) ≠ v.fileBlock n (offset / 4096) := by
      intro heq
      have hslot := (hown.exclusive n hn n hn (.data _) (.data _) ho hk heq).2
      exact hblock (Slot.data.inj hslot)
    rw [setData_of_ne hother, if_neg (by omega)]

/-- A patched file is settled. -/
theorem settled_patch (hown : v.Owns sb L) (hn : n ∈ L) (hend : v.PointersEnd n)
    (hk : offset / 4096 < blocksOf (v.ino n).size) :
    Settled v (v.patch n offset source length) sb n where
  toGrown := (Grown.refl hown hn).setData_block hk
  tight _ hb := .inl hb
  pointer_zero := by
    intro hmany k hk' hpast
    have hne : (v.ino n).indirect ≠ v.fileBlock n (offset / 4096) := by
      intro heq
      have hslot := (hown.exclusive n hn n hn .indirect (.data _) hmany hk heq).2
      cases hslot
    unfold patch
    rw [setData_ino, setData_of_ne hne]
    exact hend hmany k hk' hpast

/-- The record of a settled file may change in its link count and in a size with the same blocks. -/
theorem Settled.resize (h : Settled v v' sb n) {inode : Inode} (hok : inode.Ok)
    (hmode : inode.mode = (v'.ino n).mode) (hsize : (v'.ino n).size ≤ inode.size)
    (hblocks : blocksOf inode.size = blocksOf (v'.ino n).size)
    (hd : inode.direct = (v'.ino n).direct) (hi : inode.indirect = (v'.ino n).indirect) :
    Settled v (v'.setIno n inode) sb n := by
  have hslot : ∀ t, (v'.setIno n inode).slotBlock n t = v'.slotBlock n t := by
    intro t
    cases t with
    | data k => exact fileBlock_setIno hd hi k
    | indirect => simp only [slotBlock, setIno_self, hi]
  have hneeds : ∀ t, inode.Needs t → (v'.ino n).Needs t := by
    intro t ht
    cases t with
    | data k => exact Nat.lt_of_lt_of_eq ht hblocks
    | indirect => exact Nat.lt_of_lt_of_eq ht hblocks
  refine
    { h.toGrown.setIno hok hmode hsize (fun t _ => hslot t) fun t ht hnot =>
        absurd (hneeds t ht) hnot with
      tight := fun b hb => ?_
      pointer_zero := ?_ }
  · rcases h.tight b hb with hold | ⟨t, ht, heq⟩
    · exact .inl hold
    · refine .inr ⟨t, ?_, by rw [hslot t, heq]⟩
      rw [setIno_self]
      exact needs_mono hsize ht
  · rw [setIno_self, hblocks, hi]
    exact h.pointer_zero

/-! ## With a block more -/

/-- The bytes of a file with a block more. -/
theorem spliced_append {k : Nat} (hgrown : Grown v v' sb n) (hoffset : offset = k * 4096)
    (hk : blocksOf (v.ino n).size = k) (hsize : (v'.ino n).size = offset + length)
    (hlen : length ≤ 4096) (hblock : v'.fileBlock n k = b)
    (hnew : v'.data b = Block.zero.copyBytes (offset % 4096) source length)
    (hold : ∀ j < k, v'.data (v.fileBlock n j) = v.data (v.fileBlock n j)) :
    Spliced v v' n offset source length := by
  intro o ho
  rw [hsize] at ho
  rcases Nat.lt_or_ge o offset with hlt | hge
  · have hj : o / 4096 < k := by omega
    have hfile : v'.fileBlock n (o / 4096) = v.fileBlock n (o / 4096) :=
      hgrown.slot (.data _) (show o / 4096 < blocksOf (v.ino n).size by omega)
    rw [if_neg (by omega), byteAt, byteAt, hfile, hold _ hj]
  · rw [if_pos ⟨hge, ho⟩, byteAt, show o / 4096 = k by omega, hblock, hnew,
      Block.byte_copyBytes_of_mem (by omega) (by omega) (by omega)]
    congr 1
    omega

/-- The blocks a growing file takes are in no slot of it yet. -/
theorem Taken.slot_ne (h : Taken v v' sb F) (hown : v.Owns sb L) (hn : n ∈ L) (hb : b ∈ F) {t : Slot}
    (ht : (v.ino n).Needs t) : v.slotBlock n t ≠ b := by
  rintro rfl
  have hfree := h.free _ hb
  rw [hown.slot_marked hn ht] at hfree
  cases hfree

/-- A taken block is an allocated data block. -/
theorem Taken.allocated (h : Taken v v' sb F) (hb : b ∈ F) : v'.blockAllocated sb b = true := by
  unfold blockAllocated
  rw [dataBlockValid_iff.2 (h.valid b hb), h.taken b hb, Bool.and_self]

/-- A record with the taken blocks in new slots `N` leaves the file settled. -/
theorem Grown.place {w : Vol} {inode : Inode} {N : Set Slot} (hmid : Grown v w sb n) (hown : v.Owns sb L) (hn : n ∈ L)
    (h : Taken v v' sb F) (hino : w.ino n = v.ino n) (hbmap : w.bmap = v'.bmap) (hok : inode.Ok)
    (hmode : inode.mode = (v.ino n).mode) (hblocks : blocksOf (v.ino n).size < blocksOf inode.size)
    (hold : ∀ t, (v.ino n).Needs t → (w.setIno n inode).slotBlock n t = w.slotBlock n t)
    (hneeds : ∀ t, inode.Needs t ↔ (v.ino n).Needs t ∨ t ∈ N)
    (hnew : Set.BijOn ((w.setIno n inode).slotBlock n) N F)
    (hzero : 10 < blocksOf inode.size → ∀ k < 1024, blocksOf inode.size ≤ k + 10 → (w.data inode.indirect).pointer k = 0) :
    Settled v (w.setIno n inode) sb n := by
  -- an old slot holds none of the taken blocks
  have hapart : ∀ t, (v.ino n).Needs t → (w.setIno n inode).slotBlock n t ∉ F := by
    intro t ht hmem
    rw [hold t ht, hmid.slot t ht] at hmem
    exact h.slot_ne hown hn hmem ht rfl
  have hgrown : Grown v (w.setIno n inode) sb n := by
    refine hmid.setIno hok (by rw [hino, hmode]) ?_ (by rwa [hino]) ?_
    · rw [hino]
      have hbelow : (v.ino n).size ≤ blocksOf (v.ino n).size * 4096 := blocksOf_le.1 le_rfl
      have habove : blocksOf (v.ino n).size * 4096 < inode.size := lt_blocksOf.1 hblocks
      omega
    · rw [hino]
      intro t ht hnot
      have htN := ((hneeds t).1 ht).resolve_left hnot
      have hmem := hnew.mapsTo htN
      refine ⟨h.free _ hmem, ?_, fun u hu heq => ?_⟩
      · have hallocated := h.allocated hmem
        unfold blockAllocated at hallocated ⊢
        rwa [hbmap]
      · rcases (hneeds u).1 hu with hu | hu
        · exact absurd (heq ▸ hmem) (hapart u hu)
        · exact hnew.injOn hu htN heq
  refine { hgrown with tight := fun c hc => ?_, pointer_zero := by rwa [setIno_self] }
  by_cases hcF : c ∈ F
  · obtain ⟨t, ht, rfl⟩ := hnew.surjOn hcF
    exact .inr ⟨t, by rw [setIno_self]; exact (hneeds t).2 (.inr ht), rfl⟩
  · rw [setIno_bmap, hbmap, h.bmap c hcF] at hc
    exact .inl hc

/-- One taken block is in one new slot. -/
theorem bijOn_slot {t : Slot} (h : v.slotBlock n t = b) : Set.BijOn (v.slotBlock n) {t} ({b} : Finset Nat) := by
  rw [Finset.coe_singleton, Set.bijOn_singleton, h]

/-- A direct pointer more leaves the file settled. -/
theorem settled_growDirect {k : Fin 10} (hown : v.Owns sb L) (hn : n ∈ L)
    (h : Taken v v' sb {b}) (hk : k.val = blocksOf (v.ino n).size)
    (hsize : blocksOf size = blocksOf (v.ino n).size + 1)
    (hok : (({ v.ino n with linkCount := links } : Inode).growDirect k b size).Ok) :
    Settled v (v'.setIno n (({ v.ino n with linkCount := links } : Inode).growDirect k b size))
      sb n := by
  generalize hinode : ({ v.ino n with linkCount := links } : Inode).growDirect k b size = inode at *
  have hlt := k.isLt
  have hino : v'.ino n = v.ino n := congrFun h.ino n
  have hblocks : blocksOf inode.size = blocksOf (v.ino n).size + 1 := by rw [← hinode, ← hsize]; rfl
  refine (h.grown hown hn).place (N := {.data k}) hown hn h hino rfl hok (by rw [← hinode]; rfl) (by omega) ?_ ?_ (bijOn_slot ?_) ?_
  · intro t ht
    cases t with
    | indirect =>
      have hten : 10 < blocksOf (v.ino n).size := ht
      omega
    | data j =>
      have hj : j < blocksOf (v.ino n).size := ht
      have hj' : j < 10 := by omega
      simp only [slotBlock, fileBlock, setIno_self, if_pos hj', Inode.directAt, dif_pos hj', hino]
      rw [← hinode]
      exact Function.update_of_ne (fun heq => by have := congrArg Fin.val heq; simp at this; omega) ..
  · intro t
    cases t with
    | indirect => simp only [Inode.Needs, Set.mem_singleton_iff, reduceCtorEq, or_false, hblocks]; omega
    | data j => simp only [Inode.Needs, Set.mem_singleton_iff, Slot.data.injEq, hblocks]; omega
  · simp only [slotBlock, fileBlock, setIno_self, if_pos hlt, Inode.directAt, dif_pos hlt]
    rw [← hinode]
    exact Function.update_self ..
  · omega

/-- A pointer more in the indirect block leaves the file settled. -/
theorem settled_growPointer {k : Nat} (hown : v.Owns sb L) (hn : n ∈ L) (hend : v.PointersEnd n)
    (h : Taken v v' sb {b}) (hb : b < 2 ^ 32) (hk : k = blocksOf (v.ino n).size) (hten : 10 < k)
    (hmax : k < 1034) (hsize : blocksOf size = k + 1) (hi : i = (v.ino n).indirect)
    (hok : (({ v.ino n with linkCount := links } : Inode).growIndirect i size).Ok) :
    Grown v (v'.setPointer i k b) sb n ∧ Settled v ((v'.setPointer i k b).setIno n
      (({ v.ino n with linkCount := links } : Inode).growIndirect i size)) sb n := by
  unfold setPointer
  generalize hinode : ({ v.ino n with linkCount := links } : Inode).growIndirect i size = inode at *
  have hino : v'.ino n = v.ino n := congrFun h.ino n
  have hblocks : blocksOf inode.size = k + 1 := by rw [← hinode, ← hsize]; rfl
  have hineeds : (v.ino n).Needs .indirect := show 10 < blocksOf (v.ino n).size by omega
  have hptr : ∀ m, ((v'.data i).writeLe32 ((k - 10) * 4) b).pointer m =
      if m = k - 10 then b else (v'.data i).pointer m :=
    fun m => Block.pointer_writeLe32 (by omega) hb
  have hmid : Grown v (v'.setData i ((v'.data i).writeLe32 ((k - 10) * 4) b)) sb n := by
    have hset : Grown v (v'.setData (v'.ino n).indirect
        ((v'.data i).writeLe32 ((k - 10) * 4) b)) sb n := by
      refine (h.grown hown hn).setData_indirect (by rwa [hino]) fun j hj => ?_
      rw [hino] at hj
      rw [hino, ← hi, hptr, if_neg (by omega)]
    rwa [hino, ← hi] at hset
  refine ⟨hmid, ?_⟩
  have hd : inode.direct = (v'.ino n).direct := by rw [← hinode, hino]; rfl
  have hii : inode.indirect = (v'.ino n).indirect := by rw [← hinode, hino, ← hi]; rfl
  refine hmid.place (N := {.data k}) hown hn h hino rfl hok (by rw [← hinode]; rfl) (by omega) ?_ ?_ (bijOn_slot ?_) ?_
  · intro t _
    cases t with
    | data j => exact fileBlock_setIno (v := v'.setData i _) hd hii j
    | indirect => simp only [slotBlock, setIno_self, hii, setData_ino]
  · intro t
    cases t with
    | indirect => simp only [Inode.Needs, Set.mem_singleton_iff, reduceCtorEq, or_false, hblocks]; omega
    | data j => simp only [Inode.Needs, Set.mem_singleton_iff, Slot.data.injEq, hblocks]; omega
  · simp only [slotBlock, fileBlock, if_neg (show ¬ k < 10 by omega), setIno_self, setIno_data, hii, hino, ← hi,
      setData_self, hptr, if_true]
  · intro _ m hm hpast
    have hmarked : v.bmap (v.ino n).indirect = true := hown.slot_marked (t := .indirect) hn hineeds
    rw [hii, hino, ← hi, setData_self, hptr, if_neg (by omega), hi, h.data _ hmarked]
    exact hend (by omega) m hm (by omega)

/-- A new indirect block with its first pointer leaves the file settled. -/
theorem settled_growFirst (hown : v.Owns sb L) (hn : n ∈ L) (hbi : b ≠ i)
    (h : Taken v v' sb {b, i}) (hb : b < 2 ^ 32) (hzero : v'.data i = .zero)
    (hten : blocksOf (v.ino n).size = 10) (hsize : blocksOf size = 11)
    (hok : (({ v.ino n with linkCount := links } : Inode).growIndirect i size).Ok) :
    Grown v (v'.setPointer i 10 b) sb n ∧ Settled v ((v'.setPointer i 10 b).setIno n
      (({ v.ino n with linkCount := links } : Inode).growIndirect i size)) sb n := by
  generalize hinode : ({ v.ino n with linkCount := links } : Inode).growIndirect i size = inode at *
  have hino : v'.ino n = v.ino n := congrFun h.ino n
  have hblocks : blocksOf inode.size = 11 := by rw [← hinode, ← hsize]; rfl
  have hmemi : i ∈ ({b, i} : Finset Nat) := Finset.mem_insert_of_mem (Finset.mem_singleton_self i)
  have hptr : ∀ m, ((v'.data i).writeLe32 ((10 - 10) * 4) b).pointer m = if m = 0 then b else 0 := by
    intro m
    rw [Block.pointer_writeLe32 (by omega) hb, hzero, Block.pointer_zero]
  have hmid : Grown v (v'.setPointer i 10 b) sb n := by
    refine (h.grown hown hn).setData_free (h.free i hmemi) fun t ht => ?_
    rw [hino] at ht
    rw [(h.grown hown hn).slot t ht]
    exact h.slot_ne hown hn hmemi ht
  refine ⟨hmid, ?_⟩
  generalize hw : v'.setPointer i 10 b = w at *
  have hwino : w.ino n = v.ino n := by rw [← hw]; exact hino
  have hwdata : w.data i = (v'.data i).writeLe32 ((10 - 10) * 4) b := by rw [← hw, setPointer, setData_self]
  have hii : inode.indirect = i := by rw [← hinode]; rfl
  have hdata : (w.setIno n inode).slotBlock n (.data 10) = b := by
    simp only [slotBlock, fileBlock, setIno_self, setIno_data, if_neg (Nat.lt_irrefl 10), hii, hwdata,
      hptr, if_true]
  have hindirect : (w.setIno n inode).slotBlock n .indirect = i := by
    simp only [slotBlock, setIno_self, hii]
  refine hmid.place (N := {.data 10, .indirect}) hown hn h hwino (by rw [← hw]; rfl) hok (by rw [← hinode]; rfl) (by omega) ?_ ?_ ?_ ?_
  · intro t ht
    cases t with
    | indirect =>
      have hmany : 10 < blocksOf (v.ino n).size := ht
      omega
    | data j =>
      have hj : j < 10 := hten ▸ ht
      simp only [slotBlock, fileBlock, setIno_self, if_pos hj, Inode.directAt, dif_pos hj, hwino]
      rw [← hinode]
      rfl
  · intro t
    cases t with
    | indirect => simp [Inode.Needs, hblocks]
    | data j =>
      simp only [Inode.Needs, Set.mem_insert_iff, Set.mem_singleton_iff, Slot.data.injEq, reduceCtorEq, or_false, hblocks, hten]
      omega
  · rw [Finset.coe_pair]
    refine ⟨?_, ?_, ?_⟩
    · rintro t (rfl | rfl)
      · exact .inl hdata
      · exact .inr hindirect
    · rintro t (rfl | rfl) u (rfl | rfl) heq
      · rfl
      · exact absurd (hdata.symm.trans (heq.trans hindirect)) hbi
      · exact absurd (hdata.symm.trans (heq.symm.trans hindirect)) hbi
      · rfl
    · rintro c (rfl | rfl)
      · exact ⟨_, .inl rfl, hdata⟩
      · exact ⟨_, .inr rfl, hindirect⟩
  · intro _ m _ hpast
    rw [hii, hwdata, hptr, if_neg (by omega)]

end Vol

end MiniOrange

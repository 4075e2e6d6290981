import MiniOrange.Fs.Grow

/-!
# Writing inside a file

`write_chunk_locked` on a block the file has: the bytes are patched, and the size grows if the chunk
ends past it. The inode in memory may differ from the one on disk in its link count, which is how
`directory_append_locked` publishes an entry and a link at once. When the inode cannot be written
the patched block stays, so the error end has two cases.
-/

namespace MiniOrange

namespace Vol

/-- The volume with `length` bytes of file `n` replaced from `offset`, inside one block. -/
def patch (v : Vol) (n offset : Nat) (source : Bytes) (length : Nat) : Vol :=
  let b := v.fileBlock n (offset / 4096)
  v.setData b ((v.data b).copyBytes (offset % 4096) source length)

end Vol

variable {size b : Nat} {inode : Inode} {v' : Vol} {F : Finset Nat} {k : Fin 10}

/-- A size that ends in the same block needs the same blocks. -/
theorem blocksOf_extend {offset length : Nat} (hk : offset / 4096 < blocksOf size)
    (hlen : offset % 4096 + length ≤ 4096) (hgrow : size < offset + length) :
    blocksOf (offset + length) = blocksOf size := by
  have hlt := lt_blocksOf.1 hk
  refine Nat.le_antisymm (blocksOf_le.2 ?_) (blocksOf_le.2 ?_)
  · have hone : offset / 4096 + 1 ≤ blocksOf size := hk
    have hmul := Nat.mul_le_mul_right 4096 hone
    omega
  · have hself : blocksOf (offset + length) ≤ blocksOf (offset + length) := le_rfl
    have hfit := blocksOf_le.1 hself
    omega

/-- An inode keeps the shape of its pointers under a size with the same blocks. -/
theorem inodePointerShapeValid_size
    (h : inodePointerShapeValid inode = true) (hsize : blocksOf size = blocksOf inode.size) :
    inodePointerShapeValid { inode with size := size } = true := by
  rw [inodePointerShapeValid_iff] at h ⊢
  simpa only [hsize] using h

variable {E : Env} {ℓ : Level} {v : Vol} {aux cmp : Block} {s : Machine} {L : Finset Nat}

/-- The end of a write inside a block the file has. -/
def Patched (E : Env) (ℓ : Level) (v : Vol) (n : Nat) (inode : Inode) (offset : Nat) (source : Bytes)
    (length : Nat) (aux cmp : Block) (r : Except Errno Inode) (s : Machine) : Prop :=
  (inode.size < offset + length ∧ r = .ok { inode with size := offset + length } ∧
    On E ℓ ((v.patch n offset source length).setIno n { inode with size := offset + length })
      aux cmp s) ∨
  (offset + length ≤ inode.size ∧ r = .ok inode ∧
    On E ℓ (v.patch n offset source length) aux cmp s) ∨
  (r = .error .eio ∧ ℓ = .single ∧
    (On E .quiet v aux cmp s ∨
      (inode.size < offset + length ∧ On E .quiet (v.patch n offset source length) aux cmp s)))

/-- `write_chunk_locked` on a block the file has. -/
theorem On.writeChunkInPlace {n offset length links : Nat} {source : Bytes}
    (h : On E ℓ v aux cmp s) (hℓ : ℓ ≠ .any) (hown : v.Owns E.sb L) (hn : n ∈ L)
    (hfits : (v.ino n).Fits) (hlinks : links < 2 ^ 16)
    (hk : offset / 4096 < blocksOf (v.ino n).size) (hlen : offset % 4096 + length ≤ 4096)
    (hsafe : E.safe (v.patch n offset source length))
    (hsafe' : (v.ino n).size < offset + length → E.safe ((v.patch n offset source length).setIno n
      { v.ino n with linkCount := links, size := offset + length })) :
    wp (writeChunkInPlace n { v.ino n with linkCount := links } offset source length)
      (Patched E ℓ v n { v.ino n with linkCount := links } offset source length aux cmp) s := by
  have hblock := hown.inodeBlockAt hn hk
  obtain ⟨hb, hb'⟩ := hown.slot_valid hn (t := .data (offset / 4096)) hk
  simp only [Vol.slotBlock] at hb hb'
  -- the link count plays no part in finding the block
  have hfind : v.inodeBlockAt E.sb { v.ino n with linkCount := links } (offset / 4096) =
      .ok (v.fileBlock n (offset / 4096)) := hblock
  unfold MiniOrange.writeChunkInPlace
  refine wp.bind (Reads.inodeBlockAt (P := fun _ => True) _ _ h trivial) ?_
  rw [hfind]
  rintro r s₁ (⟨rfl, h₁, -⟩ | ⟨rfl, hne, h₁⟩)
  case inr =>
    obtain rfl := Level.eq_single hne hℓ
    exact .inr (.inr ⟨rfl, rfl, .inl h₁⟩)
  refine wp.bind (Reads.dataBlock (P := fun _ => True) hb hb' h₁ trivial) ?_
  rintro r s₂ (⟨rfl, h₂, hio⟩ | ⟨rfl, hne, h₂⟩)
  case inr =>
    obtain rfl := Level.eq_single hne hℓ
    exact .inr (.inr ⟨rfl, rfl, .inl h₂⟩)
  have hget : s₂.buffers.get .ioBlock = v.data (v.fileBlock n (offset / 4096)) := hio
  dsimp only
  rw [wp_bind, wp_getBuffer, wp_bind, wp_setBuffer, hget]
  refine wp.bind ((h₂.setIo _).writeData .ioBlock hℓ hb hb' hsafe) ?_
  rintro r s₃ ⟨⟨rfl, h₃⟩ | ⟨rfl, rfl, h₃⟩, -⟩
  case inr => exact .inr (.inr ⟨rfl, rfl, .inl h₃⟩)
  change On E ℓ (v.patch n offset source length) aux cmp s₃ at h₃
  dsimp only
  by_cases hgrow : offset + length > (v.ino n).size
  · rw [if_pos hgrow]
    have hshape : inodePointerShapeValid { v.ino n with linkCount := links } = true :=
      (Inode.ok_iff.1 (hown.ok n hn)).2
    have hshape' : inodePointerShapeValid
        { v.ino n with linkCount := links, size := offset + length } = true :=
      inodePointerShapeValid_size hshape (blocksOf_extend hk hlen hgrow)
    have hsize : offset + length < 2 ^ 32 := by
      have hle := hown.blocks_le hn
      have hextend := blocksOf_extend hk hlen hgrow
      have hfit := blocksOf_le.1 (Nat.le_of_eq hextend)
      have hmul := Nat.mul_le_mul_right 4096 hle
      omega
    have hfits' : Inode.Fits { v.ino n with linkCount := links, size := offset + length } :=
      { hfits with linkCount := hlinks, size := hsize }
    refine wp.bind (h₃.writeInode hℓ (hown.inode_lt n hn) hshape' hfits' (hsafe' hgrow)) ?_
    rintro r s₄ (⟨rfl, h₄⟩ | ⟨rfl, rfl, h₄⟩)
    · exact .inl ⟨hgrow, rfl, h₄⟩
    · exact .inr (.inr ⟨rfl, rfl, .inr ⟨hgrow, h₄⟩⟩)
  · rw [if_neg hgrow]
    exact .inr (.inl ⟨Nat.not_lt.1 hgrow, rfl, h₃⟩)

/-! ## Taking blocks and giving them back -/

/-- `v'` has taken the blocks of `F`, which were free in `v`, and changed nothing else that is
marked. -/
structure Vol.Taken (v v' : Vol) (sb : Superblock) (F : Finset Nat) : Prop where
  imap : v'.imap = v.imap
  ino : v'.ino = v.ino
  valid : ∀ b ∈ F, sb.dataStart ≤ b ∧ b < sb.totalBlocks
  free : ∀ b ∈ F, v.bmap b = false
  taken : ∀ b ∈ F, v'.bmap b = true
  bmap : ∀ b, b ∉ F → v'.bmap b = v.bmap b
  data : ∀ b, v.bmap b = true → v'.data b = v.data b

namespace Vol.Taken

variable {v' : Vol} {sb : Superblock} {F : Finset Nat} {b : Nat} {block : Block}

theorem refl (v : Vol) (sb : Superblock) : Vol.Taken v v sb ∅ where
  imap := rfl
  ino := rfl
  valid b hb := absurd hb (Finset.notMem_empty b)
  free b hb := absurd hb (Finset.notMem_empty b)
  taken b hb := absurd hb (Finset.notMem_empty b)
  bmap _ _ := rfl
  data _ _ := rfl

/-- A block that is free after the taking was free before it. -/
theorem free_before (h : Vol.Taken v v' sb F) (hb : v'.bmap b = false) :
    b ∉ F ∧ v.bmap b = false := by
  have hF : b ∉ F := fun hF => by
    rw [h.taken b hF] at hb
    cases hb
  exact ⟨hF, by rw [← h.bmap b hF]; exact hb⟩

/-- One more block is taken. -/
theorem setB (h : Vol.Taken v v' sb F) (hvalid : sb.dataStart ≤ b ∧ b < sb.totalBlocks)
    (hfree : v'.bmap b = false) : Vol.Taken v (v'.setB b true) sb (insert b F) where
  imap := h.imap
  ino := h.ino
  valid c hc := by
    rcases Finset.mem_insert.1 hc with rfl | hc
    · exact hvalid
    · exact h.valid c hc
  free c hc := by
    rcases Finset.mem_insert.1 hc with rfl | hc
    · exact (h.free_before hfree).2
    · exact h.free c hc
  taken c hc := by
    by_cases hcb : c = b
    · rw [hcb, Vol.setB_self]
    · rw [Vol.setB_of_ne hcb]
      exact h.taken c (Finset.mem_of_mem_insert_of_ne hc hcb)
  bmap c hc := by
    have hcb : c ≠ b := fun hcb => hc (hcb ▸ Finset.mem_insert_self _ _)
    rw [Vol.setB_of_ne hcb]
    exact h.bmap c fun hF => hc (Finset.mem_insert_of_mem hF)
  data := h.data

/-- The data of a taken block may change. -/
theorem setData (h : Vol.Taken v v' sb F) (hb : b ∈ F) : Vol.Taken v (v'.setData b block) sb F where
  imap := h.imap
  ino := h.ino
  valid := h.valid
  free := h.free
  taken := h.taken
  bmap := h.bmap
  data c hc := by
    have hcb : c ≠ b := by
      rintro rfl
      rw [h.free c hb] at hc
      cases hc
    rw [Vol.setData_of_ne hcb]
    exact h.data c hc

/-- A taken block is given back. -/
theorem giveBack (h : Vol.Taken v v' sb F) (hb : b ∈ F) :
    Vol.Taken v (v'.setB b false) sb (F.erase b) where
  imap := h.imap
  ino := h.ino
  valid c hc := h.valid c (Finset.mem_of_mem_erase hc)
  free c hc := h.free c (Finset.mem_of_mem_erase hc)
  taken c hc := by
    rw [Vol.setB_of_ne (Finset.ne_of_mem_erase hc)]
    exact h.taken c (Finset.mem_of_mem_erase hc)
  bmap c hc := by
    by_cases hcb : c = b
    · rw [hcb, Vol.setB_self, h.free b hb]
    · rw [Vol.setB_of_ne hcb]
      exact h.bmap c fun hF => hc (Finset.mem_erase.2 ⟨hcb, hF⟩)
  data := h.data

/-- Once every block is back, only free blocks have changed. -/
theorem loose (h : Vol.Taken v v' sb ∅) : Vol.Loose v v' where
  bmap := funext fun b => h.bmap b (Finset.notMem_empty b)
  imap := h.imap
  ino := h.ino
  data := h.data

/-- Files in marked blocks are kept while blocks are taken. -/
theorem kept (h : Vol.Taken v v' sb F) {n : Nat}
    (hmarked : ∀ t, (v.ino n).Needs t → v.bmap (v.slotBlock n t) = true) : Vol.Kept v v' n := by
  refine .of_marked hmarked (congrFun h.imap n) (congrFun h.ino n) (fun b hb => ?_) h.data
  have hF : b ∉ F := fun hF => by
    rw [h.free b hF] at hb
    cases hb
  rw [h.bmap b hF, hb]

end Vol.Taken

/-- The new blocks behind an indirect block that is new, or 0. -/
def newBlock (i : Nat) : Finset Nat := if i = 0 then ∅ else {i}

/-- One `free_block` of an undo: the block is back, or the fault is spent on it. -/
theorem On.giveBack (h : On E ℓ v' aux cmp s) (hℓ : ℓ ≠ .any) (htaken : Vol.Taken v v' E.sb F) (hb : b ∈ F)
    (hsafe : ∀ v' F, Vol.Taken v v' E.sb F → E.safe v') :
    wp (MiniOrange.freeBlock b) (fun _ s' =>
      (∃ v'', Vol.Taken v v'' E.sb (F.erase b) ∧ On E ℓ v'' aux cmp s') ∨
      (ℓ = .single ∧ On E .quiet v' aux cmp s')) s := by
  obtain ⟨hvalid, hvalid'⟩ := htaken.valid b hb
  refine (h.freeBlock hℓ hvalid hvalid' (hsafe _ _ (htaken.giveBack hb))).mono ?_
  rintro r s' (⟨-, h'⟩ | ⟨-, hs, h'⟩)
  · exact .inl ⟨_, htaken.giveBack hb, h'⟩
  · exact .inr ⟨hs, h'⟩

/-- The undo of an indirect block, which is new unless it is 0. -/
theorem On.freeIndirect {i : Nat} (h : On E ℓ v' aux cmp s) (hℓ : ℓ ≠ .any)
    (htaken : Vol.Taken v v' E.sb (newBlock i)) (hsafe : ∀ v' F, Vol.Taken v v' E.sb F → E.safe v') :
    wp (onlyIf (i ≠ 0) (MiniOrange.freeBlock i)) (fun _ s' =>
      (∃ v'', Vol.Loose v v'' ∧ On E ℓ v'' aux cmp s') ∨ (ℓ = .single ∧ On E .quiet v' aux cmp s')) s := by
  unfold newBlock at htaken
  unfold onlyIf
  by_cases hi : i = 0
  · rw [if_pos hi] at htaken
    rw [if_neg (not_not.2 hi)]
    exact .inl ⟨v', htaken.loose, h⟩
  · rw [if_neg hi] at htaken
    rw [if_pos hi]
    refine (h.giveBack hℓ htaken (Finset.mem_singleton_self i) hsafe).mono ?_
    rintro r s' (⟨v'', htaken', h'⟩ | h')
    · rw [Finset.erase_singleton] at htaken'
      exact .inl ⟨v'', htaken'.loose, h'⟩
    · exact .inr h'

/-- The undo of `write_chunk_locked` after a failed transfer: the fault is spent, so both blocks
are given back. -/
theorem On.freeFresh {i : Nat} (h : On E .quiet v' aux cmp s)
    (htaken : Vol.Taken v v' E.sb (insert b (newBlock i))) (hne : b ≠ i)
    (hsafe : ∀ v' F, Vol.Taken v v' E.sb F → E.safe v') :
    wp (MiniOrange.freeFresh b i) (fun _ s' => ∃ v'', Vol.Loose v v'' ∧ On E .quiet v'' aux cmp s') s := by
  have hnot : b ∉ newBlock i := by
    unfold newBlock
    split <;> simp [hne]
  unfold MiniOrange.freeFresh
  refine wp.bind (h.giveBack nofun htaken (Finset.mem_insert_self b _) hsafe) ?_
  rintro r s₁ (⟨v₁, htaken₁, h₁⟩ | ⟨hs, -⟩)
  case inr => cases hs
  rw [Finset.erase_insert hnot] at htaken₁
  refine wp.bind (h₁.freeIndirect nofun htaken₁ hsafe) ?_
  rintro r s₂ (h₂ | ⟨hs, -⟩)
  · exact h₂
  · cases hs

/-! ## Growing by a block -/

/-- The inode with a direct pointer more. -/
def Inode.growDirect (inode : Inode) (k : Fin 10) (b size : Nat) : Inode :=
  { inode with direct := Function.update inode.direct k b, size := size }

/-- A direct pointer more is the shape of a block more. -/
theorem Inode.shape_growDirect (h : inodePointerShapeValid inode = true) (hk : k.val = blocksOf inode.size)
    (hsize : blocksOf size = blocksOf inode.size + 1) (hb : b ≠ 0) :
    inodePointerShapeValid (inode.growDirect k b size) = true := by
  have hlt := k.isLt
  rw [inodePointerShapeValid_iff] at h ⊢
  obtain ⟨hdirect, hindirect⟩ := h
  simp only [Inode.growDirect, hsize]
  refine ⟨fun j => ?_, ?_⟩
  · by_cases hjk : j = k
    · rw [hjk, Function.update_self]
      exact ⟨fun _ => by omega, fun _ => hb⟩
    · have hne : j.val ≠ k.val := fun heq => hjk (Fin.ext heq)
      rw [Function.update_of_ne hjk, hdirect j]
      omega
  · rw [hindirect]
    omega

/-- The end of committing a new block: the file has it, or the transfer that failed has been
undone. -/
def Committed (E : Env) (ℓ : Level) (v final : Vol) (inode : Inode) (cmp : Block)
    (r : Except Errno Inode) (s : Machine) : Prop :=
  (r = .ok inode ∧ ∃ aux', On E ℓ final aux' cmp s) ∨
  (r = .error .eio ∧ ℓ = .single ∧ ∃ v' aux', Vol.Loose v v' ∧ On E .quiet v' aux' cmp s)

/-- `write_chunk_locked` past the last block of a file with direct blocks only: the inode is
committed with the new pointer. -/
theorem On.commitDirect {n : Nat} (h : On E ℓ v' aux cmp s) (hℓ : ℓ ≠ .any) (htaken : Vol.Taken v v' E.sb {b})
    (hn : n < E.sb.totalInodes) (hshape : inodePointerShapeValid inode = true)
    (hfits : inode.Fits) (hk : k.val = blocksOf inode.size)
    (hsize : blocksOf size = blocksOf inode.size + 1) (hsize' : size < 2 ^ 32)
    (hsafe : ∀ v' F, Vol.Taken v v' E.sb F → E.safe v')
    (hsafe' : E.safe (v'.setIno n (inode.growDirect k b size))) :
    wp (writeChunkCommit n inode k.val b 0 size)
      (Committed E ℓ v (v'.setIno n (inode.growDirect k b size)) (inode.growDirect k b size)
        cmp) s := by
  obtain ⟨hb, hb'⟩ := htaken.valid b (Finset.mem_singleton_self b)
  have hgeo := E.geometry
  have hb0 : b ≠ 0 := by
    obtain ⟨h1, h2, h3, h4, -⟩ := hgeo
    omega
  have htotal := hgeo.totalBlocks_lt
  have hfits' : (inode.growDirect k b size).Fits := by
    refine { hfits with size := hsize', direct := fun j => ?_ }
    change Function.update inode.direct k b j < 2 ^ 32
    by_cases hjk : j = k
    · rw [hjk, Function.update_self]
      omega
    · rw [Function.update_of_ne hjk]
      exact hfits.direct j
  unfold writeChunkCommit
  rw [dif_pos k.isLt]
  refine wp.bind (h.writeInode hℓ hn (Inode.shape_growDirect hshape hk hsize hb0) hfits' hsafe') ?_
  rintro r s₁ (⟨rfl, h₁⟩ | ⟨rfl, rfl, h₁⟩)
  · exact .inl ⟨rfl, _, h₁⟩
  · refine wp.bind (h₁.freeFresh (v := v) (i := 0) htaken hb0 hsafe) ?_
    rintro r s₂ ⟨v₂, hloose, h₂⟩
    exact .inr ⟨rfl, rfl, v₂, aux, hloose, h₂⟩

/-- Writing a word and then zero where there was zero changes nothing. -/
theorem Block.writeLe32_undo {b : Block} {off x : Nat} (h : readLe32 (b.ptr off) = 0) :
    (b.writeLe32 off x).writeLe32 off 0 = b := by
  rw [readLe32_eq_zero] at h
  ext i hi
  unfold Block.writeLe32
  by_cases hin : off ≤ i ∧ i < off + 4
  · have hzero := h (i - off) (by omega)
    rw [Block.ptr_apply, show off + (i - off) = i by omega] at hzero
    rw [Block.byte_copyBytes_of_mem hin.1 hin.2 hi, hzero]
    simp [leByte]
  · rw [Block.byte_copyBytes_of_not_mem (by omega), Block.byte_copyBytes_of_not_mem (by omega)]

/-- `read_volume_block_into` `auxiliary_block`, of a data block. -/
theorem On.readAuxiliary (h : On E ℓ v aux cmp s) (hb : E.sb.dataStart ≤ b) (hb' : b < E.sb.totalBlocks) :
    wp (readVolumeBlockInto b .auxiliaryBlock) (fun r s' =>
      (r = .ok () ∧ On E ℓ v (v.data b) cmp s') ∨
      (r = .error .eio ∧ ℓ ≠ .quiet ∧ ∃ aux', On E ℓ.after v aux' cmp s')) s := by
  have hdata : s.volume b = v.data b := by rw [← h.volume, Vol.data_ofDisk hb hb']
  refine (h.read hb').mono ?_
  rintro r s' (⟨rfl, ho, hs⟩ | ⟨rfl, hℓ, ho, block, hs⟩)
  · refine .inl ⟨rfl, ?_⟩
    rw [hs]
    exact { h with auxiliary := hdata, compare := h.compare, outcome := ho }
  · refine .inr ⟨rfl, hℓ, block, ?_⟩
    rw [hs]
    exact { h with auxiliary := rfl, compare := h.compare, outcome := ho }

/-- `writePointer`: the indirect block is the buffer with one pointer changed. -/
theorem On.writePointer {i index p : Nat} (h : On E ℓ v aux cmp s) (hℓ : ℓ ≠ .any)
    (hi : E.sb.dataStart ≤ i) (hi' : i < E.sb.totalBlocks)
    (hsafe : E.safe (v.setData i (aux.writeLe32 (index * 4) p))) :
    wp (writePointer i index p) (Wrote E ℓ v (v.setData i (aux.writeLe32 (index * 4) p))
      (aux.writeLe32 (index * 4) p) cmp) s := by
  have haux : s.buffers.get .auxiliaryBlock = aux := h.auxiliary
  unfold MiniOrange.writePointer
  rw [wp_bind, wp_getBuffer, wp_bind, wp_setBuffer, haux]
  exact ((h.setAuxiliary _).writeData .auxiliaryBlock hℓ hi hi' hsafe).mono fun _ _ hr => hr.1

/-- The volume with `b` as block `k` of a file, in its indirect block `i`. -/
def Vol.setPointer (v : Vol) (i k b : Nat) : Vol := v.setData i ((v.data i).writeLe32 ((k - 10) * 4) b)

/-- The inode with its indirect block, new or old, and a larger size. -/
def Inode.growIndirect (inode : Inode) (i size : Nat) : Inode :=
  { inode with indirect := i, size := size }

/-- `write_chunk_locked` past the last block of a file with an indirect block `i`: the pointer is
written, then the inode. When `i` was just allocated it is `ni`, and is given back by the undo;
otherwise `ni` is 0 and the undo clears the pointer, which was zero. -/
theorem On.commitIndirect {n i ni k : Nat} (h : On E ℓ v' aux cmp s) (hℓ : ℓ ≠ .any)
    (htaken : Vol.Taken v v' E.sb (insert b (newBlock ni))) (hne : b ≠ ni)
    (hni : ni ≠ 0 → ni = i) (hzero : ni = 0 → (v'.data i).pointer (k - 10) = 0)
    (hi : E.sb.dataStart ≤ i) (hi' : i < E.sb.totalBlocks) (hk : 10 ≤ k) (hk' : k < 1034)
    (hn : n < E.sb.totalInodes)
    (hshape : inodePointerShapeValid (inode.growIndirect i size) = true)
    (hfits : (inode.growIndirect i size).Fits)
    (hsafe : ∀ v' F, Vol.Taken v v' E.sb F → E.safe v')
    (hsafe₁ : E.safe (v'.setPointer i k b))
    (hsafe₂ : E.safe ((v'.setPointer i k b).setIno n (inode.growIndirect i size))) :
    wp (writeChunkCommit n { inode with indirect := i } k b ni size)
      (Committed E ℓ v ((v'.setPointer i k b).setIno n (inode.growIndirect i size)) (inode.growIndirect i size) cmp) s := by
  unfold writeChunkCommit
  rw [dif_neg (Nat.not_lt.2 hk)]
  dsimp only
  rw [if_neg (by omega)]
  -- the undo of a transfer that failed before the pointer was written
  have hundo : ∀ {aux' s'}, On E .quiet v' aux' cmp s' → ℓ = .single →
      wp (do MiniOrange.freeFresh b ni; return .error .eio) (Committed E ℓ v
        ((v'.setPointer i k b).setIno n (inode.growIndirect i size)) (inode.growIndirect i size) cmp) s' := by
    rintro aux' s' h' hs
    refine wp.bind (h'.freeFresh htaken hne hsafe) ?_
    rintro r s'' ⟨v'', hloose, h''⟩
    exact .inr ⟨rfl, hs, v'', _, hloose, h''⟩
  refine wp.bind (h.readAuxiliary hi hi') ?_
  rintro r s₁ (⟨rfl, h₁⟩ | ⟨rfl, hq, aux', h₁⟩)
  case inr =>
    obtain rfl := Level.eq_single hq hℓ
    exact hundo h₁ rfl
  refine wp.bind (h₁.writePointer hℓ hi hi' hsafe₁) ?_
  rintro r s₂ (⟨rfl, h₂⟩ | ⟨rfl, rfl, h₂⟩)
  case inr => exact hundo h₂ rfl
  replace h₂ : On E ℓ (v'.setPointer i k b) _ cmp s₂ := h₂
  refine wp.bind (h₂.writeInode hℓ hn hshape hfits hsafe₂) ?_
  rintro r s₃ (⟨rfl, h₃⟩ | ⟨rfl, rfl, h₃⟩)
  · exact .inl ⟨rfl, _, h₃⟩
  dsimp only
  by_cases h0 : ni = 0
  · -- the old indirect block gets its zero back
    have hclear : onlyIf (ni = 0) (MiniOrange.writePointer i (k - 10) 0) =
        MiniOrange.writePointer i (k - 10) 0 := if_pos h0
    have hback : (v'.setPointer i k b).setData i
        (((v'.data i).writeLe32 ((k - 10) * 4) b).writeLe32 ((k - 10) * 4) 0) = v' := by
      rw [Block.writeLe32_undo (hzero h0)]
      unfold Vol.setPointer Vol.setData
      rw [Function.update_idem, Function.update_eq_self]
    rw [hclear]
    refine wp.bind (h₃.writePointer nofun hi hi' (by rw [hback]; exact h.safe)) ?_
    rintro r s₄ (⟨rfl, h₄⟩ | ⟨-, hs, -⟩)
    · rw [hback] at h₄
      exact hundo h₄ rfl
    · cases hs
  · -- the new indirect block is given back with what it holds
    have hskip : onlyIf (ni = 0) (MiniOrange.writePointer i (k - 10) 0) = pure (.ok ()) := if_neg h0
    have hmem : i ∈ insert b (newBlock ni) := by
      rw [newBlock, if_neg h0, ← hni h0]
      exact Finset.mem_insert_of_mem (Finset.mem_singleton_self ni)
    rw [hskip, wp_bind, wp_pure]
    refine wp.bind (h₃.freeFresh (htaken.setData hmem) hne hsafe) ?_
    rintro r s₄ ⟨v₄, hloose, h₄⟩
    exact .inr ⟨rfl, rfl, v₄, _, hloose, h₄⟩

end MiniOrange

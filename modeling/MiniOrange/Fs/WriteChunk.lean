import MiniOrange.Fs.Budget
import MiniOrange.Fs.Chunk

/-!
# `write_chunk_locked`

What the function returns and which volume it leaves (`Chunked`): the file settled with the bytes
spliced in; `ENOSPC` with the blocks it had taken given back; or, after a failed transfer, `EIO` with
the record as it was. A fault can also hit the undo of `ENOSPC` itself, and then a block is lost
(`Refused`). Every volume on the way has grown from the first one, with the old bytes or the new
ones (`Vol.Between`), which is what a crash can leave.
-/

namespace MiniOrange

namespace Vol

/-- A call of `write_chunk_locked` on file `n`, with a link count that may be new. -/
structure WriteAt (v : Vol) (sb : Superblock) (L : Finset Nat) (n offset length links : Nat) :
    Prop where
  own : v.Owns sb L
  mem : n ∈ L
  ends : v.PointersEnd n
  links_ne : links ≠ 0
  links_lt : links < 2 ^ 16
  offset_le : offset ≤ (v.ino n).size
  pos : 0 < length
  within : offset % 4096 + length ≤ 4096
  max : offset + length ≤ 1034 * 4096
  dir : (v.ino n).mode = 2 → (offset + length) % 64 = 0

/-- A volume between the writes of a chunk: the file has its old bytes; or the new ones with its old
record; or the new ones with the new record. -/
def Between (v v' : Vol) (n offset : Nat) (source : Bytes) (length links : Nat) : Prop :=
  SameBytes v v' n ∨
  (v'.ino n = v.ino n ∧ Spliced v v' n offset source length) ∨
  ((v.ino n).size < offset + length ∧ (v'.ino n).size = offset + length ∧
    (v'.ino n).linkCount = links ∧ Spliced v v' n offset source length)

variable {v v' : Vol} {sb : Superblock} {L F : Finset Nat} {n b i k offset length links : Nat}
  {source : Bytes}

/-- A patch leaves the records. -/
@[simp] theorem patch_ino : (v.patch n offset source length).ino = v.ino := rfl

/-- The patched file with the size that ends in the chunk, and its link count. -/
def patched (v : Vol) (n offset : Nat) (source : Bytes) (length links : Nat) : Vol :=
  (v.patch n offset source length).setIno n
    { v.ino n with linkCount := links, size := offset + length }

/-- The record of the patched file. -/
@[simp] theorem patched_ino : (v.patched n offset source length links).ino n =
    { v.ino n with linkCount := links, size := offset + length } := setIno_self ..

/-- A file with the same bytes has none replaced. -/
theorem SameBytes.spliced (h : SameBytes v v' n) : Spliced v v' n offset source 0 := by
  intro o ho
  rw [h.1] at ho
  rw [if_neg (by omega), h.2 o ho]

namespace WriteAt

variable (hc : v.WriteAt sb L n offset length links)
include hc

/-- A chunk that is not on a block of the file is on the next one. -/
theorem div_eq (hin : ¬ offset / 4096 < blocksOf (v.ino n).size) :
    offset / 4096 = blocksOf (v.ino n).size := by
  have hle := hc.offset_le
  have hsize : (v.ino n).size ≤ blocksOf (v.ino n).size * 4096 := blocksOf_le.1 le_rfl
  have hdiv : offset / 4096 ≤ blocksOf (v.ino n).size :=
    Nat.div_le_of_le_mul (by rw [Nat.mul_comm]; exact hle.trans hsize)
  exact Nat.le_antisymm hdiv (Nat.not_lt.1 hin)

/-- A chunk past the last block starts where the file ends, at a block boundary. -/
theorem append_offset
    (hk : offset / 4096 = blocksOf (v.ino n).size) :
    offset = (v.ino n).size ∧ offset = blocksOf (v.ino n).size * 4096 ∧ length ≤ 4096 ∧
      blocksOf (offset + length) = blocksOf (v.ino n).size + 1 ∧ blocksOf (v.ino n).size < 1034 := by
  have hle := hc.offset_le
  have hpos := hc.pos
  have hwithin := hc.within
  have hmax := hc.max
  have hsize : (v.ino n).size ≤ blocksOf (v.ino n).size * 4096 := blocksOf_le.1 le_rfl
  generalize blocksOf (v.ino n).size = k at *
  have heq : offset = k * 4096 := by omega
  have hlen : length ≤ 4096 := by omega
  have hupper : offset + length ≤ (k + 1) * 4096 := by
    rw [Nat.succ_mul, ← heq]
    exact Nat.add_le_add_left hlen offset
  have hlower : k * 4096 < offset + length := by omega
  exact ⟨by omega, heq, hlen,
    Nat.le_antisymm (blocksOf_le.2 hupper) (lt_blocksOf.2 hlower), by omega⟩

/-- A chunk past the last block is past the end. -/
theorem size_lt (hk : offset / 4096 = blocksOf (v.ino n).size) : (v.ino n).size < offset + length := by
  have hpos := hc.pos
  obtain ⟨hend, -⟩ := hc.append_offset hk
  omega

/-- The record with a direct pointer more is well formed. -/
theorem ok_growDirect {k : Fin 10} (hb : b ≠ 0)
    (hk : k.val = blocksOf (v.ino n).size)
    (hsize : blocksOf (offset + length) = blocksOf (v.ino n).size + 1) :
    (({ v.ino n with linkCount := links } : Inode).growDirect k b (offset + length)).Ok := by
  have hok := hc.own.ok n hc.mem
  have hshape : inodePointerShapeValid ({ v.ino n with linkCount := links } : Inode) = true :=
    (Inode.ok_iff.1 hok).2
  obtain ⟨hdirect, hindirect⟩ :=
    inodePointerShapeValid_iff.1 (Inode.shape_growDirect hshape hk hsize hb)
  have hpos : offset + length ≠ 0 := by
    have := hc.pos
    omega
  exact ⟨hok.mode, hc.links_ne, hc.max, hok.reserved, fun hmode => ⟨hpos, hc.dir hmode⟩, hdirect,
    hindirect⟩

/-- The record with a block more behind the indirect block is well formed. -/
theorem ok_growIndirect (hi : i ≠ 0)
    (hk : 10 ≤ blocksOf (v.ino n).size)
    (hsize : blocksOf (offset + length) = blocksOf (v.ino n).size + 1) :
    (({ v.ino n with linkCount := links } : Inode).growIndirect i (offset + length)).Ok := by
  have hok := hc.own.ok n hc.mem
  have hpos : offset + length ≠ 0 := by
    have := hc.pos
    omega
  refine ⟨hok.mode, hc.links_ne, hc.max, hok.reserved, fun hmode => ⟨hpos, hc.dir hmode⟩,
    fun j => ?_, ?_⟩
  · have hj := j.isLt
    refine iff_of_true ((hok.direct j).2 (by omega)) ?_
    show j.val < blocksOf (offset + length)
    omega
  · refine iff_of_true hi ?_
    show 10 < blocksOf (offset + length)
    omega

/-- The bytes of the patched file, under its old size. -/
theorem spliced_patch
    (hk : offset / 4096 < blocksOf (v.ino n).size) :
    Spliced v (v.patch n offset source length) n offset source length :=
  fun _ ho => byteAt_patch hc.own hc.mem hk hc.within (div_lt_blocksOf ho)

/-- The patched file with the size that ends in the chunk. -/
theorem patch_grow
    (hk : offset / 4096 < blocksOf (v.ino n).size) (hlt : (v.ino n).size < offset + length) :
    Settled v (v.patched n offset source length links) sb n ∧
      Spliced v (v.patched n offset source length links) n offset source length := by
  have hok := hc.own.ok n hc.mem
  have hblocks := blocksOf_extend hk hc.within hlt
  have hpatch : Settled v (v.patch n offset source length) sb n :=
    settled_patch hc.own hc.mem hc.ends hk
  have hnew : ({ v.ino n with linkCount := links, size := offset + length } : Inode).Ok := by
    obtain ⟨hdirect, hindirect⟩ :=
      inodePointerShapeValid_iff.1 (inodePointerShapeValid_size (Inode.ok_iff.1 hok).2 hblocks)
    exact ⟨hok.mode, hc.links_ne, hc.max, hok.reserved,
      fun hmode => ⟨Nat.ne_of_gt (Nat.zero_lt_of_lt hlt), hc.dir hmode⟩, hdirect, hindirect⟩
  have hfile : ∀ k, (v.patched n offset source length links).fileBlock n k =
      (v.patch n offset source length).fileBlock n k :=
    fileBlock_setIno (by rw [patch_ino]) (by rw [patch_ino])
  refine ⟨hpatch.resize hnew ?_ ?_ ?_ ?_ ?_, fun o ho => ?_⟩
  · rw [patch_ino]
  · rw [patch_ino]
    exact Nat.le_of_lt hlt
  · rw [patch_ino]
    exact hblocks
  · rw [patch_ino]
  · rw [patch_ino]
  · rw [patched, setIno_self] at ho
    have hin : o / 4096 < blocksOf (v.ino n).size := by
      rw [← hblocks]
      exact div_lt_blocksOf ho
    rw [← byteAt_patch hc.own hc.mem hk hc.within hin, byteAt, byteAt, hfile]
    rfl

end WriteAt

end Vol

variable {E : Env} {ℓ : Level} {v v' : Vol} {aux cmp : Block} {s : Machine} {L : Finset Nat}
  {n offset length links : Nat} {source : Bytes}

/-- A record with its reserved word clear fits the inode table. -/
theorem On.fits (h : On E ℓ v aux cmp s) (hr : (v.ino n).reserved = 0) : (v.ino n).Fits := by
  rw [← h.volume] at hr ⊢
  simp only [Vol.ofDisk] at hr ⊢
  split at hr
  · next hn =>
    rw [if_pos hn]
    exact Inode.fits_ofBytes hr
  · next hn =>
    rw [if_neg hn]
    exact ⟨by decide, by decide, by decide, fun _ => Nat.two_pow_pos 32, by decide, by decide,
      by decide, rfl⟩

/-- The end of `ENOSPC`: what was taken is back, or the one fault has hit the undo and it is lost. -/
def Refused (E : Env) (ℓ : Level) (v : Vol) (cmp : Block) (s : Machine) : Prop :=
  (∃ v' aux', Vol.Loose v v' ∧ On E ℓ v' aux' cmp s) ∨
  (ℓ = .single ∧ ∃ v' aux' F, Vol.Taken v v' E.sb F ∧ On E .quiet v' aux' cmp s)

/-- The end of `write_chunk_locked`. -/
def Chunked (E : Env) (ℓ : Level) (v : Vol) (n offset : Nat) (source : Bytes) (length links : Nat)
    (cmp : Block) (r : Except Errno Inode) (s : Machine) : Prop :=
  (∃ v' aux', r = .ok { v'.ino n with linkCount := links } ∧ Vol.Settled v v' E.sb n ∧
    Vol.Spliced v v' n offset source length ∧
    (v'.ino n).size = max (v.ino n).size (offset + length) ∧
    ((v.ino n).size < offset + length → (v'.ino n).linkCount = links) ∧
    (offset + length ≤ (v.ino n).size → v'.ino n = v.ino n) ∧ On E ℓ v' aux' cmp s) ∨
  (r = .error .enospc ∧ (v.ino n).size < offset + length ∧ Refused E ℓ v cmp s) ∨
  (r = .error .eio ∧ ℓ = .single ∧ ∃ v' aux', Vol.Settled v v' E.sb n ∧ v'.ino = v.ino ∧
    (Vol.Spliced v v' n offset source 0 ∨
      ((v.ino n).size < offset + length ∧ Vol.Spliced v v' n offset source length)) ∧
    On E .quiet v' aux' cmp s)

/-- The end of `write_chunk_locked`, which runs out of space only when the budget is spent. -/
def Budgeted (E : Env) (ℓ : Level) (v : Vol) (n offset : Nat) (source : Bytes) (length links : Nat)
    (cmp : Block) (r : Except Errno Inode) (s : Machine) : Prop :=
  Chunked E ℓ v n offset source length links cmp r s ∧
    (r = .error .enospc → v.budget E.sb n < needs (blocksOf (offset + 1)))

/-- An undone write is one of the ends. -/
theorem Budgeted.undone (hc : v.WriteAt E.sb L n offset length links) (hloose : Vol.Loose v v')
    (h : On E .quiet v' aux cmp s) :
    Budgeted E .single v n offset source length links cmp (.error .eio) s := by
  have hsame : Vol.SameBytes v v' n :=
    (hloose.kept fun t ht => hc.own.slot_marked hc.mem ht).sameBytes
  exact ⟨.inr (.inr ⟨rfl, rfl, v', aux, hloose.settled hc.own hc.mem hc.ends, hloose.ino,
    .inl hsame.spliced, h⟩), nofun⟩

/-- A committed block is one of the ends. -/
theorem Budgeted.of_committed {final : Vol} {inode : Inode} {r : Except Errno Inode}
    (hc : v.WriteAt E.sb L n offset length links) (hend : offset = (v.ino n).size)
    (hr : Committed E ℓ v final inode cmp r s) (hinode : final.ino n = inode)
    (hlinks : inode.linkCount = links) (hsize : inode.size = offset + length)
    (hsettled : Vol.Settled v final E.sb n) (hspliced : Vol.Spliced v final n offset source length) :
    Budgeted E ℓ v n offset source length links cmp r s := by
  have hpos := hc.pos
  rcases hr with ⟨rfl, aux', h⟩ | ⟨rfl, rfl, v', aux', hloose, h⟩
  · refine ⟨.inl ⟨final, aux', ?_, hsettled, hspliced, ?_, fun _ => ?_, fun hle => ?_, h⟩, nofun⟩
    · rw [hinode, ← hlinks]
    · rw [hinode, hsize]
      omega
    · rw [hinode, hlinks]
    · omega
  · exact .undone hc hloose h

/-- The budget is spent if what is free does not do for the next block. -/
theorem Vol.WriteAt.spent {F : Finset Nat} (hc : v.WriteAt E.sb L n offset length links)
    (hk : offset / 4096 = blocksOf (v.ino n).size) (hfree : v.free E.sb ⊆ F)
    (hF : needs (blocksOf (v.ino n).size) + F.card < needs (blocksOf (v.ino n).size + 1)) :
    v.budget E.sb n < needs (blocksOf (offset + 1)) := by
  obtain ⟨-, halign, -, -, -⟩ := hc.append_offset hk
  have hnext : blocksOf (offset + 1) = blocksOf (v.ino n).size + 1 :=
    Nat.le_antisymm (blocksOf_le.2 (by omega)) (lt_blocksOf.2 (by omega))
  have hcard := Finset.card_le_card hfree
  rw [hnext, Vol.budget]
  omega

/-- What is free is taken, if nothing is free behind it. -/
theorem Vol.Taken.free_subset {F : Finset Nat} {sb : Superblock} (h : Vol.Taken v v' sb F) (hfull : v'.free sb = ∅) :
    v.free sb ⊆ F := by
  intro b hb
  obtain ⟨hvalid, hfree⟩ := Vol.mem_free.1 hb
  by_contra hF
  have hmem : b ∈ v'.free sb := Vol.mem_free.2 ⟨hvalid, by rw [h.bmap b hF, hfree]⟩
  rw [hfull] at hmem
  exact Finset.notMem_empty b hmem

/-- A new record fits the inode table. -/
theorem Vol.WriteAt.fits (hc : v.WriteAt E.sb L n offset length links) (h : On E ℓ v' aux cmp s)
    (hino : v'.ino n = v.ino n) :
    ({ v.ino n with linkCount := links } : Inode).Fits ∧ offset + length < 2 ^ 32 := by
  have hfits := h.fits (n := n) (by rw [hino]; exact (hc.own.ok n hc.mem).reserved)
  rw [hino] at hfits
  have hmax := hc.max
  exact ⟨{ hfits with linkCount := hc.links_lt }, by omega⟩

section
variable (hℓ : ℓ ≠ .any) (hc : v.WriteAt E.sb L n offset length links)
  (hsafe : ∀ v', Vol.Grown v v' E.sb n → v.Between v' n offset source length links → E.safe v')
include hc hsafe

/-- Taking blocks is on the way. -/
theorem Vol.WriteAt.safe_taken (v' : Vol) (F : Finset Nat) (h : Vol.Taken v v' E.sb F) : E.safe v' :=
  hsafe v' (h.grown hc.own hc.mem)
    (.inl (h.kept fun _ ht => hc.own.slot_marked hc.mem ht).sameBytes)

include hℓ

/-! ## On a block the file has -/

/-- `write_chunk_locked` on a block the file has. -/
theorem On.writeChunk_inPlace (h : On E ℓ v aux cmp s)
    (hk : offset / 4096 < blocksOf (v.ino n).size) :
    wp (MiniOrange.writeChunkInPlace n { v.ino n with linkCount := links } offset source length)
      (Budgeted E ℓ v n offset source length links cmp) s := by
  have hok := hc.own.ok n hc.mem
  have hpatch : Vol.Settled v (v.patch n offset source length) E.sb n :=
    Vol.settled_patch hc.own hc.mem hc.ends hk
  have hspliced : Vol.Spliced v (v.patch n offset source length) n offset source length :=
    hc.spliced_patch hk
  have hgrow : (v.ino n).size < offset + length →
      Vol.Settled v (v.patched n offset source length links) E.sb n ∧
      Vol.Spliced v (v.patched n offset source length links) n offset source length :=
    hc.patch_grow hk
  have hsafe' : (v.ino n).size < offset + length →
      E.safe (v.patched n offset source length links) := by
    intro hlt
    refine hsafe _ (hgrow hlt).1.toGrown (.inr (.inr ⟨hlt, ?_, ?_, (hgrow hlt).2⟩))
    · rw [Vol.patched_ino]
    · rw [Vol.patched_ino]
  refine (h.writeChunkInPlace hℓ hc.own hc.mem (h.fits hok.reserved) hc.links_lt hk hc.within
    (hsafe _ hpatch.toGrown (.inr (.inl ⟨by rw [Vol.patch_ino], hspliced⟩))) hsafe').mono ?_
  rintro r s' (⟨hlt, rfl, h'⟩ | ⟨hle, rfl, h'⟩ | ⟨rfl, rfl, h' | ⟨hlt, h'⟩⟩)
  · have hlt : (v.ino n).size < offset + length := hlt
    refine ⟨.inl ⟨v.patched n offset source length links, aux, ?_, (hgrow hlt).1, (hgrow hlt).2, ?_,
      fun _ => ?_, fun hle => absurd hle (Nat.not_le.2 hlt), h'⟩, nofun⟩
    · rw [Vol.patched_ino]
    · rw [Vol.patched_ino]
      exact (Nat.max_eq_right (Nat.le_of_lt hlt)).symm
    · rw [Vol.patched_ino]
  · have hle : offset + length ≤ (v.ino n).size := hle
    refine ⟨.inl ⟨v.patch n offset source length, aux, ?_, hpatch, hspliced, ?_,
      fun hlt => absurd hlt (Nat.not_lt.2 hle), fun _ => ?_, h'⟩, nofun⟩
    · rw [Vol.patch_ino]
    · rw [Vol.patch_ino]
      exact (Nat.max_eq_left hle).symm
    · rw [Vol.patch_ino]
  · exact .undone hc (.refl v) h'
  · exact ⟨.inr (.inr ⟨rfl, rfl, v.patch n offset source length, aux, hpatch, Vol.patch_ino,
      .inr ⟨hlt, hspliced⟩, h'⟩), nofun⟩

/-! ## On the next block -/

variable (hk : offset / 4096 = blocksOf (v.ino n).size)
include hk

/-- `write_chunk_locked` past the last block: a block is taken and written, and the commit ends as
the two ways not to get there do. -/
theorem On.writeChunkAppend {v₀ : Vol} {ni : Nat} {inode : Inode} (h : On E ℓ v₀ aux cmp s)
    (htaken : Vol.Taken v v₀ E.sb (newBlock ni))
    (hneeds : needs (blocksOf (v.ino n).size) + (newBlock ni).card < needs (blocksOf (v.ino n).size + 1))
    (hcommit : ∀ b v₂ s₂, Vol.Taken v v₂ E.sb (insert b (newBlock ni)) → b ≠ ni →
      v₂.data b = Block.zero.copyBytes (offset % 4096) source length →
      (∀ c, c ≠ b → v₂.data c = v₀.data c) → On E ℓ v₂ .zero cmp s₂ →
      wp (writeChunkCommit n inode (offset / 4096) b ni (offset + length))
        (Budgeted E ℓ v n offset source length links cmp) s₂) :
    wp (MiniOrange.writeChunkAppend n inode ni offset source length)
      (Budgeted E ℓ v n offset source length links cmp) s := by
  have hsafeT := hc.safe_taken hsafe
  unfold MiniOrange.writeChunkAppend
  refine wp.bind (h.allocateBlock hℓ fun b hb hb' hfree => ?_) ?_
  · have hset := htaken.setB ⟨hb, hb'⟩ hfree
    exact ⟨hsafeT _ _ hset, hsafeT _ _ (hset.setData (Finset.mem_insert_self b _))⟩
  rintro r s₁ ⟨⟨b, rfl, hb, hb', hfree, h₁⟩ | ⟨rfl, h₁⟩ | ⟨rfl, rfl, aux', h₁⟩, hfull⟩
  · -- the block is taken; it was free once `ni` was taken, so it is another one
    have hne : b ≠ ni := by
      rintro rfl
      have hpos := E.geometry.dataStart_pos
      rw [htaken.taken b (by simp [newBlock, show b ≠ 0 by omega])] at hfree
      cases hfree
    have htook : Vol.Taken v (v₀.take b) E.sb (insert b (newBlock ni)) :=
      (htaken.setB ⟨hb, hb'⟩ hfree).setData (Finset.mem_insert_self b _)
    have hput : ∀ block, Vol.Taken v ((v₀.take b).setData b block) E.sb (insert b (newBlock ni)) :=
      fun _ => htook.setData (Finset.mem_insert_self b _)
    dsimp only
    rw [wp_bind, wp_setBuffer]
    refine wp.bind ((h₁.setIo _).writeData .ioBlock hℓ hb hb' (hsafeT _ _ (hput _))) ?_
    rintro r s₂ ⟨⟨rfl, h₂⟩ | ⟨rfl, rfl, h₂⟩, -⟩
    · refine hcommit b _ s₂ (hput _) hne (Vol.setData_self ..) (fun c hc => ?_) h₂
      rw [Vol.setData_of_ne hc, Vol.take, Vol.setData_of_ne hc, Vol.setB_data]
    · refine wp.bind (h₂.freeFresh htook hne hsafeT) ?_
      rintro r s₃ ⟨v₃, hloose, h₃⟩
      exact .undone hc hloose h₃
  · -- no block is free
    have hspent := hc.spent hk (htaken.free_subset (Vol.free_eq_empty.2 (hfull rfl))) hneeds
    dsimp only
    refine wp.bind (h₁.freeIndirect hℓ htaken hsafeT) ?_
    rintro r s₂ (⟨v₂, hloose, h₂⟩ | ⟨hs, h₂⟩)
    · exact ⟨.inr (.inl ⟨rfl, hc.size_lt hk, .inl ⟨v₂, _, hloose, h₂⟩⟩), fun _ => hspent⟩
    · exact ⟨.inr (.inl ⟨rfl, hc.size_lt hk, .inr ⟨hs, v₀, _, _, htaken, h₂⟩⟩), fun _ => hspent⟩
  · -- the one fault is spent, so the undo succeeds
    dsimp only
    refine wp.bind (h₁.freeIndirect (by simp) htaken hsafeT) ?_
    rintro r s₂ (⟨v₂, hloose, h₂⟩ | ⟨hs, -⟩)
    · exact .undone hc hloose h₂
    · cases hs

/-- `write_chunk_locked` on the next block of a file with direct blocks only. -/
theorem On.writeChunk_direct (h : On E ℓ v aux cmp s)
    (hten : offset / 4096 < 10) :
    wp (MiniOrange.writeChunkAppend n { v.ino n with linkCount := links } 0 offset source length)
      (Budgeted E ℓ v n offset source length links cmp) s := by
  obtain ⟨hend, halign, hlen, hblocks, -⟩ := hc.append_offset hk
  rw [← hk] at halign
  have hshape : inodePointerShapeValid ({ v.ino n with linkCount := links } : Inode) = true :=
    (Inode.ok_iff.1 (hc.own.ok n hc.mem)).2
  refine h.writeChunkAppend hℓ hc hsafe hk (Vol.Taken.refl v E.sb) (needs_lt_succ _) fun b v₂ s₂ htaken hb0 hdata _ h₂ => ?_
  replace htaken : Vol.Taken v v₂ E.sb {b} := htaken
  have hino : v₂.ino n = v.ino n := congrFun htaken.ino n
  obtain ⟨hfits, hsize⟩ := hc.fits h₂ hino
  have hk' : (⟨offset / 4096, hten⟩ : Fin 10).val = blocksOf (v.ino n).size := hk
  have hok := hc.ok_growDirect hb0 hk' hblocks
  have hsettled := Vol.settled_growDirect hc.own hc.mem htaken hk' hblocks hok
  have hspliced : Vol.Spliced v (v₂.setIno n (Inode.growDirect { v.ino n with linkCount := links }
      ⟨offset / 4096, hten⟩ b (offset + length))) n offset source length := by
    refine Vol.spliced_append hsettled.toGrown halign hk.symm ?_ hlen ?_ hdata fun j hj => ?_
    · rw [Vol.setIno_self]
      rfl
    · simp only [Vol.fileBlock, Vol.setIno_self, if_pos hten, Inode.directAt, dif_pos hten]
      exact Function.update_self ..
    · exact htaken.data _ (hc.own.slot_marked hc.mem (t := .data j) (show j < blocksOf (v.ino n).size from hk ▸ hj))
  refine (h₂.commitDirect hℓ htaken (hc.own.inode_lt n hc.mem) hshape hfits hk' hblocks hsize
    (hc.safe_taken hsafe) ?_).mono fun r s' hr => ?_
  · refine hsafe _ hsettled.toGrown (.inr (.inr ⟨hc.size_lt hk, ?_, ?_, hspliced⟩))
    · rw [Vol.setIno_self]
      rfl
    · rw [Vol.setIno_self]
      rfl
  · exact .of_committed hc hend hr (Vol.setIno_self ..) rfl rfl hsettled hspliced

/-- The commit of the next block `b` behind the indirect block `i`, which is `ni` if it is new. -/
theorem On.writeChunk_behind {v₂ : Vol} {b i ni : Nat} (h : On E ℓ v₂ aux cmp s)
    (hten : 10 ≤ offset / 4096) (htaken : Vol.Taken v v₂ E.sb (insert b (newBlock ni)))
    (hbni : b ≠ ni) (hni : ni ≠ 0 → ni = i) (hzero : ni = 0 → (v₂.data i).pointer (offset / 4096 - 10) = 0)
    (hi : E.sb.dataStart ≤ i ∧ i < E.sb.totalBlocks) (hbi : b ≠ i)
    (hapart : ∀ j < offset / 4096, v.fileBlock n j ≠ i)
    (hdata : v₂.data b = Block.zero.copyBytes (offset % 4096) source length)
    (hgrown : (({ v.ino n with linkCount := links } : Inode).growIndirect i (offset + length)).Ok →
      Vol.Grown v (v₂.setPointer i (offset / 4096) b) E.sb n ∧
      Vol.Settled v ((v₂.setPointer i (offset / 4096) b).setIno n
        (({ v.ino n with linkCount := links } : Inode).growIndirect i (offset + length))) E.sb n) :
    wp (writeChunkCommit n { v.ino n with linkCount := links, indirect := i } (offset / 4096) b ni
      (offset + length)) (Budgeted E ℓ v n offset source length links cmp) s := by
  obtain ⟨hend, halign, hlen, hblocks, hmax⟩ := hc.append_offset hk
  rw [← hk] at halign hmax
  have htotal := E.geometry.totalBlocks_lt
  have hstart := E.geometry.dataStart_pos
  have hb : b < E.sb.totalBlocks := (htaken.valid b (Finset.mem_insert_self b _)).2
  have hino : v₂.ino n = v.ino n := congrFun htaken.ino n
  obtain ⟨hfits, hsize⟩ := hc.fits h hino
  have hok := hc.ok_growIndirect (i := i) (by omega) (hk ▸ hten) hblocks
  obtain ⟨hmid, hsettled⟩ := hgrown hok
  -- neither the pointer nor the new block is in an old data block
  have hold : ∀ j < offset / 4096, (v₂.setPointer i (offset / 4096) b).data (v.fileBlock n j) =
      v.data (v.fileBlock n j) := by
    intro j hj
    rw [Vol.setPointer, Vol.setData_of_ne (hapart j hj)]
    exact htaken.data _ (hc.own.slot_marked hc.mem (t := .data j) (show j < blocksOf (v.ino n).size from hk ▸ hj))
  have hspliced : Vol.Spliced v ((v₂.setPointer i (offset / 4096) b).setIno n
      (Inode.growIndirect { v.ino n with linkCount := links } i (offset + length)))
      n offset source length := by
    refine Vol.spliced_append hsettled.toGrown (b := b) halign hk.symm ?_ hlen ?_ ?_ hold
    · rw [Vol.setIno_self]
      rfl
    · simp only [Vol.fileBlock, Vol.setIno_self, if_neg (Nat.not_lt.2 hten), Inode.growIndirect,
        Vol.setIno_data, Vol.setPointer, Vol.setData_self]
      rw [Block.pointer_writeLe32 (by omega) (by omega), if_pos rfl]
    · rw [Vol.setIno_data, Vol.setPointer, Vol.setData_of_ne hbi, hdata]
  have hfits' : (Inode.growIndirect { v.ino n with linkCount := links } i (offset + length)).Fits :=
    { hfits with size := hsize, indirect := show i < 2 ^ 32 by omega }
  refine (h.commitIndirect hℓ htaken hbni hni hzero hi.1 hi.2 hten hmax (hc.own.inode_lt n hc.mem)
    (Inode.ok_iff.1 hok).2 hfits' (hc.safe_taken hsafe) ?_ ?_).mono fun r s' hr => ?_
  · refine hsafe _ hmid (.inl ⟨hino, fun o ho => ?_⟩)
    have hj : o / 4096 < offset / 4096 := by
      rw [hk]
      exact Vol.div_lt_blocksOf ho
    have hfile : (v₂.setPointer i (offset / 4096) b).fileBlock n (o / 4096) =
        v.fileBlock n (o / 4096) := hmid.slot (.data _) (Vol.div_lt_blocksOf ho)
    rw [Vol.byteAt, Vol.byteAt, hfile]
    exact congrArg (fun x => Block.byte x (o % 4096)) (hold _ hj)
  · refine hsafe _ hsettled.toGrown (.inr (.inr ⟨hc.size_lt hk, ?_, ?_, hspliced⟩))
    · rw [Vol.setIno_self]
      rfl
    · rw [Vol.setIno_self]
      rfl
  · exact .of_committed hc hend hr (Vol.setIno_self ..) rfl rfl hsettled hspliced

/-- `write_chunk_locked` on the next block of a file with an indirect block. -/
theorem On.writeChunk_pointer (h : On E ℓ v aux cmp s)
    (hten : 10 < offset / 4096) :
    wp (MiniOrange.writeChunkAppend n { v.ino n with linkCount := links } 0 offset source length)
      (Budgeted E ℓ v n offset source length links cmp) s := by
  obtain ⟨-, -, -, hblocks, hmax⟩ := hc.append_offset hk
  rw [← hk] at hblocks hmax
  have hneeds : (v.ino n).Needs .indirect := show 10 < blocksOf (v.ino n).size from hk ▸ hten
  refine h.writeChunkAppend hℓ hc hsafe hk (Vol.Taken.refl v E.sb) (needs_lt_succ _) fun b v₂ s₂ htaken hb0 hdata _ h₂ => ?_
  have hbvalid := htaken.valid b (by simp)
  have htotal := E.geometry.totalBlocks_lt
  have htaken' : Vol.Taken v v₂ E.sb {b} := htaken
  have hsame : v₂.data (v.ino n).indirect = v.data (v.ino n).indirect :=
    htaken.data _ (hc.own.slot_marked hc.mem hneeds)
  refine h₂.writeChunk_behind hℓ hc hsafe hk (Nat.le_of_lt hten) htaken hb0 (fun h0 => absurd rfl h0) (fun _ => ?_)
    (hc.own.slot_valid hc.mem hneeds) (fun heq => ?_) (fun j hj heq => ?_) hdata fun hok => ?_
  · rw [hsame]
    exact hc.ends hneeds _ (by omega) (by omega)
  · exact htaken'.slot_ne hc.own hc.mem (Finset.mem_singleton_self b) hneeds heq.symm
  · have hj' : (v.ino n).Needs (.data j) := show j < blocksOf (v.ino n).size from hk ▸ hj
    have hslot := (hc.own.exclusive n hc.mem n hc.mem (.data j) .indirect hj' hneeds heq).2
    cases hslot
  · exact Vol.settled_growPointer hc.own hc.mem hc.ends htaken' (by omega) hk hten hmax hblocks rfl hok

/-- `write_chunk_locked` on the first block behind a new indirect block `i`. -/
theorem On.writeChunk_first {v₀ : Vol} {i : Nat} (h : On E ℓ v₀ aux cmp s)
    (hten : offset / 4096 = 10) (hi0 : i ≠ 0) (htook : Vol.Taken v v₀ E.sb {i})
    (hzero : v₀.data i = .zero) :
    wp (MiniOrange.writeChunkAppend n { v.ino n with linkCount := links, indirect := i } i offset source
      length) (Budgeted E ℓ v n offset source length links cmp) s := by
  obtain ⟨-, -, -, hblocks, -⟩ := hc.append_offset hk
  rw [← hk, hten] at hblocks
  have hnew : newBlock i = {i} := if_neg hi0
  refine h.writeChunkAppend hℓ hc hsafe hk (by rwa [hnew]) ?_ fun b v₂ s₂ htaken hbi hdata hother h₂ => ?_
  · rw [← hk, hten, hnew, Finset.card_singleton]
    decide
  have htaken' : Vol.Taken v v₂ E.sb {b, i} := by rwa [hnew] at htaken
  have hbvalid := htaken'.valid b (Finset.mem_insert_self b {i})
  have htotal := E.geometry.totalBlocks_lt
  have hclear : v₂.data i = .zero := by rw [hother i hbi.symm, hzero]
  refine h₂.writeChunk_behind hℓ hc hsafe hk (Nat.le_of_eq hten.symm) htaken hbi (fun _ => rfl)
    (fun h0 => absurd h0 hi0) (htook.valid i (Finset.mem_singleton_self i)) hbi
    (fun j hj => htook.slot_ne hc.own hc.mem (t := .data j) (Finset.mem_singleton_self i) ?_) hdata
    fun hok => ?_
  · show j < blocksOf (v.ino n).size
    omega
  · rw [hten]
    exact Vol.settled_growFirst hc.own hc.mem hbi htaken' (by omega) hclear (hk.symm.trans hten) hblocks hok

omit hk in
/-- `write_chunk_locked`. -/
theorem On.writeChunkLocked (h : On E ℓ v aux cmp s) :
    wp (writeChunkLocked n { v.ino n with linkCount := links } offset source length)
      (Budgeted E ℓ v n offset source length links cmp) s := by
  unfold MiniOrange.writeChunkLocked
  dsimp only
  by_cases hin : offset / 4096 < blocksOf (v.ino n).size
  · rw [if_pos hin]
    exact h.writeChunk_inPlace hℓ hc hsafe hin
  rw [if_neg hin]
  have hk : offset / 4096 = blocksOf (v.ino n).size := hc.div_eq hin
  rw [if_neg (not_not.2 hk)]
  have hindirect := (hc.own.ok n hc.mem).indirect
  by_cases hfirst : offset / 4096 ≥ 10 ∧ (v.ino n).indirect = 0
  · -- the file fills its direct blocks: an indirect block is allocated first
    have hten : offset / 4096 = 10 := by
      have hnot : ¬ 10 < blocksOf (v.ino n).size := fun hlt => (hindirect.2 hlt) hfirst.2
      rw [← hk] at hnot
      omega
    have hsafeT := hc.safe_taken hsafe
    rw [if_pos hfirst]
    refine wp.bind (h.allocateBlock hℓ fun b hb hb' hfree => ?_) ?_
    · have hset := (Vol.Taken.refl v E.sb).setB ⟨hb, hb'⟩ hfree
      exact ⟨hsafeT _ _ hset, hsafeT _ _ (hset.setData (Finset.mem_insert_self b _))⟩
    rintro r s₁ ⟨⟨i, rfl, hi, hi', hfree, h₁⟩ | ⟨rfl, h₁⟩ | ⟨rfl, rfl, aux', h₁⟩, hfull⟩
    · have hi0 : i ≠ 0 := by
        obtain ⟨h1, h2, h3, h4, -⟩ := E.geometry
        omega
      have htook : Vol.Taken v (v.take i) E.sb {i} :=
        ((Vol.Taken.refl v E.sb).setB ⟨hi, hi'⟩ hfree).setData (Finset.mem_insert_self i _)
      exact h₁.writeChunk_first hℓ hc hsafe hk hten hi0 htook (Vol.setData_self ..)
    · exact ⟨.inr (.inl ⟨rfl, hc.size_lt hk, .inl ⟨v, aux, .refl v, h₁⟩⟩),
        fun _ => hc.spent hk (Vol.free_eq_empty.2 (hfull rfl)).subset (needs_lt_succ _)⟩
    · exact .undone hc (.refl v) h₁
  · rw [if_neg hfirst]
    rcases Nat.lt_or_ge (offset / 4096) 10 with hten | hten
    · exact h.writeChunk_direct hℓ hc hsafe hk hten
    · have hmany : 10 < offset / 4096 := by
        rw [hk]
        exact hindirect.1 fun h0 => hfirst ⟨hten, h0⟩
      exact h.writeChunk_pointer hℓ hc hsafe hk hmany

end

end MiniOrange

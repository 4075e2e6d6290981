import MiniOrange.Fs.Session

/-!
# What the helpers of MiniFS do to a volume

One specification for each function of `minifs.c` below the directory layer. The two bitmaps are
two instances of a region of bits (`BitRegion`), so the bitmap functions are specified once. A read
returns a function of the volume (`Vol.readInode`, `Vol.inodeBlockAt`); a write is one update of it;
`allocateBlock` is the one helper that undoes its own work when a write fails.
-/

namespace MiniOrange

/-! ## Geometry -/

variable {b n k : Nat} {P : Machine → Prop} {sb : Superblock}

namespace Superblock.Geometry

variable {sb : Superblock}

/-- A block number has a bit. -/
theorem block_lt (hg : sb.Geometry) (hb : b < sb.totalBlocks) :
    b < sb.blockBitmapBlocks * 32768 := by
  have hblock : b / 32768 < divideRoundUp sb.totalBlocks 32768 := (lt_divideRoundUp (by omega)).2 (by omega)
  rw [← hg.blockBitmapBlocks] at hblock
  omega

/-- An inode number has a bit. -/
theorem inode_lt (hg : sb.Geometry) (hn : n < sb.totalInodes) :
    n < sb.inodeBitmapBlocks * 32768 := by
  have hblock : n / 32768 < divideRoundUp sb.totalInodes 32768 := (lt_divideRoundUp (by omega)).2 (by omega)
  rw [← hg.inodeBitmapBlocks] at hblock
  omega

/-- The bitmaps are large enough. -/
theorem bits_le (hg : sb.Geometry) :
    sb.totalBlocks ≤ sb.blockBitmapBlocks * 32768 ∧ sb.totalInodes ≤ sb.inodeBitmapBlocks * 32768 := by
  refine ⟨Nat.not_lt.1 fun hlt => ?_, Nat.not_lt.1 fun hlt => ?_⟩
  · exact Nat.lt_irrefl _ (hg.block_lt hlt)
  · exact Nat.lt_irrefl _ (hg.inode_lt hlt)

/-- An inode number has a record. -/
theorem record_lt (hg : sb.Geometry) (hn : n < sb.totalInodes) :
    n < sb.inodeTableBlocks * 64 := by
  have hblock : n / 64 < divideRoundUp (sb.totalInodes * 64) 4096 := (lt_divideRoundUp (by omega)).2 (by omega)
  rw [← hg.inodeTableBlocks] at hblock
  omega

end Superblock.Geometry

/-! ## Bitmaps -/

/-- A bitmap of the volume: its blocks, and its bits as the volume has them. -/
structure BitRegion (sb : Superblock) where
  start : Nat
  count : Nat
  get : Vol → Nat → Bool
  set : Vol → Nat → Bool → Vol
  start_pos : 0 < start
  within : start + count ≤ sb.totalBlocks
  get_ofDisk : ∀ d k, get (.ofDisk sb d) k =
    (decide (k < count * 32768) && (d (start + k / 32768)).bit (k % 32768))
  set_ofDisk : ∀ d k value, k < count * 32768 →
    Vol.ofDisk sb (Function.update d (start + k / 32768)
      ((d (start + k / 32768)).withBit (k % 32768) value)) = set (.ofDisk sb d) k value

/-- The block bitmap. -/
def Env.blockBits (E : Env) : BitRegion E.sb where
  start := E.sb.blockBitmapStart
  count := E.sb.blockBitmapBlocks
  get := Vol.bmap
  set := Vol.setB
  start_pos := by rw [E.geometry.blockBitmapStart]; omega
  within := by obtain ⟨h1, h2, h3, h4, -, -, -, h5, -⟩ := E.geometry; omega
  get_ofDisk _ _ := rfl
  set_ofDisk _ _ _ hk := Vol.ofDisk_writeBlockBit E.geometry hk

/-- The inode bitmap. -/
def Env.inodeBits (E : Env) : BitRegion E.sb where
  start := E.sb.inodeBitmapStart
  count := E.sb.inodeBitmapBlocks
  get := Vol.imap
  set := Vol.setI
  start_pos := by rw [E.geometry.inodeBitmapStart]; omega
  within := by obtain ⟨h1, h2, h3, h4, -, -, -, h5, -⟩ := E.geometry; omega
  get_ofDisk _ _ := rfl
  set_ofDisk _ _ _ hk := Vol.ofDisk_writeInodeBit E.geometry hk

@[simp] theorem Env.blockBits_get (E : Env) : E.blockBits.get = Vol.bmap := rfl

@[simp] theorem Env.blockBits_set (E : Env) : E.blockBits.set = Vol.setB := rfl

@[simp] theorem Env.inodeBits_get (E : Env) : E.inodeBits.get = Vol.imap := rfl

@[simp] theorem Env.inodeBits_set (E : Env) : E.inodeBits.set = Vol.setI := rfl

variable {E : Env} {ℓ : Level} {v v' : Vol} {aux cmp : Block} {s : Machine}

/-- `bitmap_bit_set` reads a bit. -/
theorem Reads.bitmapBitSet (R : BitRegion E.sb) (k : Nat) :
    Reads E v P (bitmapBitSet R.start R.count k) (R.get v k) false fun _ => True := by
  intro ℓ aux cmp s h _
  have hget := R.get_ofDisk s.volume k
  rw [h.volume] at hget
  have hwithin := R.within
  unfold MiniOrange.bitmapBitSet
  by_cases hk : k / 32768 ≥ R.count
  · simp only [if_pos hk, wp_pure]
    rw [decide_eq_false (by omega), Bool.false_and] at hget
    exact .inl ⟨hget.symm, h, trivial⟩
  · simp only [if_neg hk]
    refine wp.bind (h.readBlock (by omega)) ?_
    rintro r s' (⟨rfl, h', -, hio⟩ | ⟨rfl, hℓ, h'⟩)
    · refine .inl ⟨?_, h', trivial⟩
      rw [hget, decide_eq_true (by omega), Bool.true_and, ← hio]
      rfl
    · exact .inr ⟨rfl, hℓ, h'⟩

/-- `bitmap_update` changes a bit. -/
theorem On.bitmapUpdate (h : On E ℓ v aux cmp s) (hℓ : ℓ ≠ .any) (R : BitRegion E.sb)
    {value : Bool} (hk : k < R.count * 32768) (hsafe : E.safe (R.set v k value)) :
    wp (bitmapUpdate R.start R.count k value) (Wrote E ℓ v (R.set v k value) aux cmp) s := by
  have hwithin := R.within
  have hpos := R.start_pos
  unfold MiniOrange.bitmapUpdate
  simp only [if_neg (show ¬ k / 32768 ≥ R.count by omega)]
  refine wp.bind (h.readBlock (by omega)) ?_
  rintro r s' (⟨rfl, h', hvol, hio⟩ | ⟨rfl, hne, h'⟩)
  · have hset := R.set_ofDisk s'.volume k value hk
    rw [h'.volume] at hset
    have hv : Vol.ofDisk E.sb (Function.update s'.volume (R.start + k / 32768)
        (s'.buffers.ioBlock.withBit (k % 32768) value)) = R.set v k value := by
      rw [← hset, hio, hvol]
    exact ((h'.setIo _).write .ioBlock hℓ (by omega) (by omega) hv hsafe).mono fun _ _ hr => hr.1
  · obtain rfl := Level.eq_single hne hℓ
    exact .inr ⟨rfl, rfl, h'⟩

/-- The end of an allocation in a bitmap from `first`: the first clear bit below `limit` is taken,
there is none, or a transfer has failed. -/
def Allocated (E : Env) (R : BitRegion E.sb) (ℓ : Level) (v : Vol) (aux cmp : Block)
    (first limit : Nat) (r : Except Errno Nat) (s : Machine) : Prop :=
  (∃ k, r = .ok k ∧ first ≤ k ∧ k < limit ∧ R.get v k = false ∧
    (∀ j, first ≤ j → j < k → R.get v j = true) ∧ On E ℓ (R.set v k true) aux cmp s) ∨
  (r = .error .enospc ∧ (∀ j, first ≤ j → j < limit → R.get v j = true) ∧ On E ℓ v aux cmp s) ∨
  (r = .error .eio ∧ ℓ = .single ∧ On E .quiet v aux cmp s)

/-- `allocate_bitmap_bit`, up to the write of the first clear bit, in the states of `I`, where the bitmap is `bits`. -/
theorem allocateBitmapBit_rule {start blocks first limit : Nat} {bits : Nat → Bool} {I : Machine → Prop}
    {Q : Except Errno Nat → Machine → Prop} (hfirst : first < limit) (hlimit : limit ≤ blocks * 32768)
    (hbits : ∀ k s, k < limit → I s → bits k = regionBit s.volume start k)
    (hread : ∀ q s, q < blocks → I s → wp (readVolumeBlock (start + q)) (fun r s' =>
      r = .ok () ∧ I s' ∧ s'.buffers.ioBlock = s'.volume (start + q) ∨ r = .error .eio ∧ Q (.error .eio) s') s)
    (hnone : ∀ s, (∀ j, first ≤ j → j < limit → bits j = true) → I s → Q (.error .enospc) s)
    (htake : ∀ k s, first ≤ k → k < limit → bits k = false → (∀ j, first ≤ j → j < k → bits j = true) → I s →
      s.buffers.ioBlock = s.volume (start + k / 32768) →
      wp (setBuffer .ioBlock (s.buffers.ioBlock.withBit (k % 32768) true) >>= fun _ =>
        writeVolumeBlockFrom (start + k / 32768) .ioBlock) (fun r => Q (match r with
        | .error _ => .error .eio
        | .ok () => .ok k)) s) (hs : I s) : wp (allocateBitmapBit start blocks first limit) Q s := by
  -- a block that counts as loaded is in `io_block`
  have hloop : ∀ (count bit : Nat) (loaded : Option Nat) (s : Machine), first ≤ bit → bit + count = limit →
      (∀ j, first ≤ j → j < bit → bits j = true) → I s →
      (∀ q, loaded = some q → s.buffers.ioBlock = s.volume (start + q)) →
      wp (allocateBitmapBitFrom start blocks count bit loaded) Q s := by
    intro count
    induction count with
    | zero => exact fun bit _ s _ hbit hset h _ => hnone s (hbit ▸ hset) h
    | succ count ih =>
      intro bit loaded s hle hbit hset h hio
      have hq : bit / 32768 < blocks := by omega
      have hload : wp (onlyIf (loaded ≠ some (bit / 32768)) (readVolumeBlock (start + bit / 32768))) (fun r s' =>
          r = .ok () ∧ I s' ∧ s'.buffers.ioBlock = s'.volume (start + bit / 32768) ∨
            r = .error .eio ∧ Q (.error .eio) s') s := by
        unfold onlyIf
        split
        · exact hread _ s hq h
        · next heq => exact .inl ⟨rfl, h, hio _ (not_not.1 heq)⟩
      unfold allocateBitmapBitFrom
      simp only [if_neg (Nat.not_le.2 hq)]
      refine wp.bind hload ?_
      rintro r s' (⟨rfl, h', hio'⟩ | ⟨rfl, hQ⟩)
      · have hget := hbits bit s' (by omega) h'
        rw [regionBit, ← hio'] at hget
        rw [wp_bind, wp_getBuffer]
        split
        · next hclear =>
          have hwrite := htake bit s' hle (by omega) (hget.trans hclear) hset h' hio'
          rw [wp_bind, wp_setBuffer] at hwrite ⊢
          refine wp.bind hwrite fun r s'' hQ => ?_
          cases r with
          | error e => exact hQ
          | ok => exact hQ
        · next hclear =>
          refine ih (bit + 1) _ s' (by omega) (by omega) (fun j hj hj' => ?_) h' fun q hq => ?_
          · rcases Nat.lt_succ_iff_lt_or_eq.1 hj' with hlt | rfl
            · exact hset j hj hlt
            · exact hget.trans (Bool.eq_true_of_not_eq_false hclear)
          · cases hq
            exact hio'
      · exact hQ
  unfold allocateBitmapBit
  rw [if_neg (by omega)]
  exact hloop _ _ _ s le_rfl (by omega) (fun j hj hj' => absurd hj (by omega)) hs (by simp)

/-- The bits of a region are those of its blocks. -/
theorem BitRegion.get_eq (R : BitRegion E.sb) (hk : k < R.count * 32768) (h : On E ℓ v aux cmp s) :
    R.get v k = regionBit s.volume R.start k := by
  rw [← h.volume, R.get_ofDisk, decide_eq_true hk, Bool.true_and]
  rfl

/-- A block of a region is loaded. -/
theorem On.readRegion (R : BitRegion E.sb) {q : Nat} (hq : q < R.count) (h : On E ℓ v aux cmp s) :
    wp (readVolumeBlock (R.start + q)) (Ended E ℓ v aux cmp (.ok ()) (.error .eio) fun s' =>
      s'.buffers.ioBlock = s'.volume (R.start + q)) s := by
  have hwithin := R.within
  refine (h.readBlock (by omega)).mono ?_
  rintro r s' (⟨rfl, h', hvol, hio⟩ | h')
  · exact .inl ⟨rfl, h', hio.trans (by rw [hvol])⟩
  · exact .inr h'

/-- `allocate_bitmap_bit`. -/
theorem On.allocateBitmapBit (h : On E ℓ v aux cmp s) (R : BitRegion E.sb) (hℓ : ℓ ≠ .any)
    {first limit : Nat} (hfirst : first < limit) (hlimit : limit ≤ R.count * 32768)
    (hsafe : ∀ k, first ≤ k → k < limit → R.get v k = false → E.safe (R.set v k true)) :
    wp (allocateBitmapBit R.start R.count first limit) (Allocated E R ℓ v aux cmp first limit) s := by
  have hwithin := R.within
  have hpos := R.start_pos
  refine allocateBitmapBit_rule hfirst hlimit (fun k s hk => R.get_eq (by omega)) (fun q s hq h => ?_)
    (fun s hset h => .inr (.inl ⟨rfl, hset, h⟩)) (fun k s hk hk' hfree hset h hio => ?_) h
  · refine (h.readRegion R hq).mono ?_
    rintro r s' (⟨rfl, h', hio⟩ | ⟨rfl, hne, h'⟩)
    · exact .inl ⟨rfl, h', hio⟩
    · obtain rfl := Level.eq_single hne hℓ
      exact .inr ⟨rfl, .inr (.inr ⟨rfl, rfl, h'⟩)⟩
  · have htaken := R.set_ofDisk s.volume k true (by omega)
    rw [h.volume, ← hio] at htaken
    rw [wp_bind, wp_setBuffer]
    refine ((h.setIo _).write .ioBlock hℓ (by omega) (by omega) htaken (hsafe k hk hk' hfree)).mono ?_
    rintro r s' ⟨⟨rfl, h'⟩ | ⟨rfl, hs, h'⟩, -⟩
    · exact .inl ⟨k, rfl, hk, hk', hfree, hset, h'⟩
    · exact .inr (.inr ⟨rfl, hs, h'⟩)

/-! ### A bitmap on any disk -/

/-- The blocks of a region are within reach, and no transfer fails. -/
structure Machine.Reaches (s : Machine) (start blocks : Nat) : Prop where
  volume : start + blocks ≤ s.superblock.totalBlocks
  request : start + blocks ≤ s.layout.blockCount
  device : s.layout.startBlock + (start + blocks) ≤ s.deviceBlockCount
  quiet : ∀ k, s.outcome k = none

namespace Machine.Reaches

variable {start blocks first limit q k : Nat} {value : Bool}

variable (h : s.Reaches start blocks)
include h

theorem onDevice (hq : q < blocks) :
    ¬ (start + q ≥ s.superblock.totalBlocks ∨ start + q ≥ s.layout.blockCount) ∧
      ¬ s.layout.startBlock + (start + q) ≥ s.deviceBlockCount := by
  obtain ⟨hvolume, hrequest, hdevice, -⟩ := h
  omega

theorem read (hq : q < blocks) : wp (readVolumeBlock (start + q)) (fun r s' =>
    r = .ok () ∧ (s'.Reaches start blocks ∧ s'.volume = s.volume) ∧ s'.buffers.ioBlock = s'.volume (start + q)) s := by
  obtain ⟨hin, hreq⟩ := h.onDevice hq
  unfold readVolumeBlock readVolumeBlockInto blockRead
  simp only [wp_bind, wp_get, if_neg hin, if_neg hreq]
  rw [h.quiet 0]
  exact ⟨rfl, ⟨{ h with quiet := fun k => h.quiet (k + 1) }, rfl⟩, rfl⟩

/-- The block in the buffer is written back with one bit changed. -/
theorem write (hk : k < blocks * 32768)
    (hio : s.buffers.ioBlock = s.volume (start + k / 32768)) :
    wp (setBuffer .ioBlock (s.buffers.ioBlock.withBit (k % 32768) value) >>= fun _ =>
      writeVolumeBlockFrom (start + k / 32768) .ioBlock) (fun r s' =>
        r = .ok () ∧ s'.Reaches start blocks ∧ SetsBit s.volume s'.volume start k value) s := by
  obtain ⟨hin, hreq⟩ := h.onDevice (q := k / 32768) (by omega)
  unfold writeVolumeBlockFrom blockWrite
  simp only [wp_bind, wp_setBuffer, wp_get, if_neg hin, if_neg hreq]
  rw [h.quiet 0, hio]
  exact ⟨rfl, { h with quiet := fun k => h.quiet (k + 1) }, setsBit_update s.volume start k value⟩

theorem bitmapUpdate (value : Bool) (hk : k < blocks * 32768) :
    wp (bitmapUpdate start blocks k value) (fun r s' =>
      r = .ok () ∧ s'.Reaches start blocks ∧ SetsBit s.volume s'.volume start k value) s := by
  unfold MiniOrange.bitmapUpdate
  simp only [if_neg (show ¬ k / 32768 ≥ blocks by omega)]
  refine wp.bind (h.read (by omega)) ?_
  rintro r s' ⟨rfl, ⟨h', hvolume⟩, hio⟩
  rw [← hvolume]
  exact h'.write hk hio

theorem allocateBitmapBit (hfirst : first < limit) (hlimit : limit ≤ blocks * 32768) :
    wp (allocateBitmapBit start blocks first limit) (fun r s' =>
      (∃ k, r = .ok k ∧ first ≤ k ∧ k < limit ∧ regionBit s.volume start k = false ∧
        (∀ j, first ≤ j → j < k → regionBit s.volume start j = true) ∧ SetsBit s.volume s'.volume start k true) ∨
      r = .error .enospc ∧ (∀ j, first ≤ j → j < limit → regionBit s.volume start j = true) ∧ s'.volume = s.volume) s := by
  refine allocateBitmapBit_rule (I := fun s' => s'.Reaches start blocks ∧ s'.volume = s.volume) hfirst hlimit
    (fun k s' _ h' => by rw [h'.2]) (fun q s' hq h' => ?_) (fun s' hset h' => .inr ⟨rfl, hset, h'.2⟩)
    (fun k s' hk hk' hfree hset h' hio => ?_) ⟨h, rfl⟩
  · refine (h'.1.read hq).mono fun r s'' ⟨hr, h'', hio⟩ => .inl ⟨hr, ⟨h''.1, h''.2.trans h'.2⟩, hio⟩
  · refine (h'.1.write (by omega) hio).mono ?_
    rintro r s'' ⟨rfl, -, hbit⟩
    exact .inl ⟨k, rfl, hk, hk', hfree, hset, h'.2 ▸ hbit⟩

end Machine.Reaches

/-- `allocate_bitmap_bit` takes the first clear bit of a range, and `bitmap_update` changes one bit. -/
theorem allocateBitmapBit_first (s : Machine) (start blocks first limit : Nat) (h : s.Reaches start blocks)
    (hfirst : first < limit) (hlimit : limit ≤ blocks * 32768) :
    ((∃ k, (allocateBitmapBit start blocks first limit s).1 = .ok k ∧ first ≤ k ∧ k < limit ∧
        regionBit s.volume start k = false ∧ (∀ j, first ≤ j → j < k → regionBit s.volume start j = true) ∧
        SetsBit s.volume (allocateBitmapBit start blocks first limit s).2.volume start k true) ∨
      (allocateBitmapBit start blocks first limit s).1 = .error .enospc ∧
        (allocateBitmapBit start blocks first limit s).2.volume = s.volume) ∧
    ((allocateBitmapBit start blocks first limit s).1 = .error .enospc ↔
      ∀ j, first ≤ j → j < limit → regionBit s.volume start j = true) ∧
    (∀ bit value, bit < blocks * 32768 → (bitmapUpdate start blocks bit value s).1 = .ok () ∧
      SetsBit s.volume (bitmapUpdate start blocks bit value s).2.volume start bit value) ∧
    ∀ bit k, bit < blocks * 32768 →
      (allocateBitmapBit start blocks first limit (bitmapUpdate start blocks bit false s).2).1 = .ok k →
      first ≤ k ∧ k < limit := by
  refine ⟨?_, ?_, fun bit value hbit => ?_, fun bit k hbit hk => ?_⟩
  · rcases h.allocateBitmapBit hfirst hlimit with htaken | ⟨hr, -, hsame⟩
    · exact .inl htaken
    · exact .inr ⟨hr, hsame⟩
  · rcases h.allocateBitmapBit hfirst hlimit with ⟨k, hr, hk, hk', hfree, -⟩ | ⟨hr, hset, -⟩
    · rw [hr]
      exact ⟨nofun, fun hset => absurd (hset k hk hk') (by simp [hfree])⟩
    · exact ⟨fun _ => hset, fun _ => hr⟩
  · obtain ⟨hr, -, hbits⟩ := h.bitmapUpdate value hbit
    exact ⟨hr, hbits⟩
  · obtain ⟨-, h', -⟩ := h.bitmapUpdate false hbit
    rcases h'.allocateBitmapBit hfirst hlimit with ⟨k', hr, hle, hlt, -⟩ | ⟨hr, -⟩
    · obtain rfl := Except.ok.inj (hr.symm.trans hk)
      exact ⟨hle, hlt⟩
    · cases hr.symm.trans hk

/-- On a disk of zeros the first bit of the range is taken. -/
theorem allocateBitmapBit_first_zero : ∃ s : Machine, (allocateBitmapBit 1 2 32767 40000 s).1 = .ok 32767 := by
  let s : Machine := ⟨⟨0, 3⟩, 3, fun _ => .zero, ⟨.zero, .zero, .zero⟩, { Superblock.clear with totalBlocks := 3 }, true,
    false, true, fun _ => none, []⟩
  have hclear : regionBit s.volume 1 32767 ≠ true := show regionBit (fun _ => .zero) 1 32767 ≠ true by decide
  refine ⟨s, ?_⟩
  obtain ⟨⟨k, hr, hk, -, -, hset, -⟩ | ⟨hr, -⟩, hfull, -⟩ := allocateBitmapBit_first s 1 2 32767 40000
    ⟨le_rfl, le_rfl, le_rfl, fun _ => rfl⟩ (by decide) (by decide)
  · rcases Nat.eq_or_lt_of_le hk with rfl | hlt
    · exact hr
    · exact absurd (hset _ le_rfl hlt) hclear
  · exact absurd (hfull.1 hr _ le_rfl (by decide)) hclear

/-! ## Inode records -/

/-- What `read_inode_internal` returns on a volume. -/
def Vol.readInode (v : Vol) (sb : Superblock) (number : Nat) : Except Errno Inode :=
  if number ≥ sb.totalInodes then .error .einval
  else if v.imap number = false then .error .eio
  else if (v.ino number).valid && inodePointerShapeValid (v.ino number) then .ok (v.ino number)
  else .error .eio

/-- `read_inode_internal` succeeds on allocated, well-formed inodes only. -/
theorem Vol.readInode_eq_ok {v : Vol} {i : Inode} :
    v.readInode sb n = .ok i ↔
      n < sb.totalInodes ∧ v.imap n = true ∧ (v.ino n).Ok ∧ i = v.ino n := by
  rw [Inode.ok_iff, ← Bool.and_eq_true]
  unfold Vol.readInode
  split
  · next h => exact ⟨nofun, fun h' => absurd h'.1 (by omega)⟩
  · next h =>
    split
    · next hfree => exact ⟨nofun, fun h' => absurd h'.2.1 (by rw [hfree]; exact nofun)⟩
    · next hused =>
      split
      · next hok =>
        refine ⟨fun h' => ⟨by omega, Bool.eq_true_of_not_eq_false hused, hok, ?_⟩, fun h' => ?_⟩
        · cases h'; rfl
        · rw [h'.2.2.2]
      · next hbad => exact ⟨nofun, fun h' => absurd h'.2.2.1 hbad⟩

/-- `read_inode_internal`. -/
theorem Reads.readInode (n : Nat) :
    Reads E v P (readInodeInternal n) (v.readInode E.sb n) (.error .eio) fun _ => True := by
  intro ℓ aux cmp s h _
  unfold readInodeInternal Vol.readInode
  rw [wp_bind, wp_get, h.superblock]
  dsimp only
  rcases Nat.lt_or_ge n E.sb.totalInodes with hn | hn
  case inr =>
    rw [if_pos hn, if_pos hn]
    exact .inl ⟨rfl, h, trivial⟩
  rw [if_neg (Nat.not_le.2 hn), if_neg (Nat.not_le.2 hn)]
  have hrec := E.geometry.record_lt hn
  have hgeo := E.geometry
  have hblock : E.sb.inodeTableStart + n / 64 < E.sb.totalBlocks := by
    have h1 := hgeo.dataStart
    have h2 := hgeo.dataStart_lt
    omega
  refine wp.bind (Reads.bitmapBitSet E.inodeBits (P := fun _ => True) n h trivial) ?_
  rintro r s₁ (⟨rfl, h₁, -⟩ | ⟨rfl, hne, h₁⟩)
  · rw [Env.inodeBits_get]
    cases v.imap n with
    | false => exact .inl ⟨rfl, h₁, trivial⟩
    | true =>
      simp only [Bool.not_true, Bool.false_eq_true, if_false, Bool.true_eq_false,
        if_neg (show ¬ n / 64 ≥ E.sb.inodeTableBlocks by omega)]
      refine wp.bind (h₁.readBlock hblock) ?_
      rintro r s₂ (⟨rfl, h₂, -, hio⟩ | ⟨rfl, hne, h₂⟩)
      · have hino : Inode.ofBytes ((s₂.buffers.get .ioBlock).ptr (n % 64 * 64)) = v.ino n := by
          rw [Buffers.get, hio, ← h₁.volume]
          exact (if_pos hrec).symm
        rw [wp_bind, wp_getBuffer, decodeInode, hino]
        cases (v.ino n).valid with
        | false => exact .inl ⟨rfl, h₂, trivial⟩
        | true => exact .inl ⟨rfl, h₂, trivial⟩
      · exact .inr ⟨rfl, hne, h₂⟩
  · exact .inr ⟨rfl, hne, h₁⟩

/-- A block of the inode table is in the volume, and is not its first block. -/
theorem Env.tableBlock (E : Env) (hn : n < E.sb.totalInodes) :
    n / 64 < E.sb.inodeTableBlocks ∧ E.sb.inodeTableStart + n / 64 < E.sb.totalBlocks ∧
      E.sb.inodeTableStart + n / 64 ≠ 0 := by
  have hrec := E.geometry.record_lt hn
  obtain ⟨h1, h2, h3, h4, -, -, -, h5, -⟩ := E.geometry
  omega

section

variable (h : On E ℓ v aux cmp s)
include h

/-- A read of a block of the inode table followed by a write of its changed image. -/
theorem On.rewriteTable (image : Block → Block) (hℓ : ℓ ≠ .any) (hn : n < E.sb.totalInodes)
    (hv : ∀ d, Vol.ofDisk E.sb d = v → Vol.ofDisk E.sb (Function.update d
      (E.sb.inodeTableStart + n / 64) (image (d (E.sb.inodeTableStart + n / 64)))) = v')
    (hsafe : E.safe v') :
    wp (readVolumeBlock (E.sb.inodeTableStart + n / 64) >>= fun r => match r with
      | .error _ => pure (.error .eio)
      | .ok () => do
        setBuffer .ioBlock (image (← getBuffer .ioBlock))
        writeVolumeBlockFrom (E.sb.inodeTableStart + n / 64) .ioBlock)
      (Wrote E ℓ v v' aux cmp) s := by
  obtain ⟨-, hblock, hne0⟩ := E.tableBlock hn
  refine wp.bind (h.readBlock hblock) ?_
  rintro r s' (⟨rfl, h', hvol, hio⟩ | ⟨rfl, hne, h'⟩)
  · have hvol' : Vol.ofDisk E.sb (Function.update s'.volume (E.sb.inodeTableStart + n / 64)
        (image s'.buffers.ioBlock)) = v' := by
      rw [hio, ← hvol]
      exact hv _ h'.volume
    exact ((h'.setIo _).write .ioBlock hℓ hne0 hblock hvol' hsafe).mono fun _ _ hr => hr.1
  · obtain rfl := Level.eq_single hne hℓ
    exact .inr ⟨rfl, rfl, h'⟩

/-- `write_inode_internal` on an inode whose pointers have the shape of its size. -/
theorem On.writeInode {inode : Inode} (hℓ : ℓ ≠ .any)
    (hn : n < E.sb.totalInodes) (hshape : inodePointerShapeValid inode = true)
    (hfits : inode.Fits) (hsafe : E.safe (v.setIno n inode)) :
    wp (writeInodeInternal n inode) (Wrote E ℓ v (v.setIno n inode) aux cmp) s := by
  have hbad : ¬ (n ≥ E.sb.totalInodes ∨ inodePointerShapeValid inode = false) := by
    rw [hshape]
    rintro (hge | hfalse)
    · omega
    · cases hfalse
  unfold writeInodeInternal
  rw [wp_bind, wp_get, h.superblock]
  dsimp only
  rw [if_neg hbad, if_neg (Nat.not_le.2 (E.tableBlock hn).1)]
  refine h.rewriteTable (fun b => encodeInode b (n % 64 * 64) inode) hℓ hn ?_ hsafe
  rintro d rfl
  exact Vol.ofDisk_writeInode E.geometry (E.geometry.record_lt hn) hfits

/-- `clear_inode_record`. -/
theorem On.clearInodeRecord (hℓ : ℓ ≠ .any)
    (hroot : n ≠ E.sb.rootInode) (hn : n < E.sb.totalInodes) (hsafe : E.safe (v.setIno n .zero)) :
    wp (clearInodeRecord n) (Wrote E ℓ v (v.setIno n .zero) aux cmp) s := by
  have hbad : ¬ (n = E.sb.rootInode ∨ n ≥ E.sb.totalInodes) := by omega
  unfold MiniOrange.clearInodeRecord
  rw [wp_bind, wp_get, h.superblock]
  dsimp only
  rw [if_neg hbad, if_neg (Nat.not_le.2 (E.tableBlock hn).1)]
  refine h.rewriteTable (fun b => b.clearBytes (n % 64 * 64) 64) hℓ hn ?_ hsafe
  rintro d rfl
  exact Vol.ofDisk_clearInode E.geometry (E.geometry.record_lt hn)

/-- `allocate_inode` takes the first free inode from 1 on. -/
theorem On.allocateInode (hℓ : ℓ ≠ .any) (hmore : 1 < E.sb.totalInodes)
    (hsafe : ∀ n < E.sb.totalInodes, v.imap n = false → E.safe (v.setI n true)) :
    wp allocateInode (Allocated E E.inodeBits ℓ v aux cmp 1 E.sb.totalInodes) s := by
  unfold MiniOrange.allocateInode
  rw [wp_bind, wp_get, h.superblock]
  exact h.allocateBitmapBit E.inodeBits hℓ hmore E.geometry.bits_le.2 fun n _ => hsafe n

/-- `free_inode`. -/
theorem On.freeInode (hℓ : ℓ ≠ .any)
    (hroot : n ≠ E.sb.rootInode) (hn : n < E.sb.totalInodes) (hsafe : E.safe (v.setI n false)) :
    wp (freeInode n) (Wrote E ℓ v (v.setI n false) aux cmp) s := by
  have hbad : ¬ (n = E.sb.rootInode ∨ n ≥ E.sb.totalInodes) := by omega
  unfold MiniOrange.freeInode
  rw [wp_bind, wp_get, h.superblock]
  dsimp only
  rw [if_neg hbad]
  exact h.bitmapUpdate hℓ E.inodeBits (E.geometry.inode_lt hn) hsafe

end

/-! ## Data blocks -/

theorem dataBlockValid_iff :
    dataBlockValid sb b = true ↔ sb.dataStart ≤ b ∧ b < sb.totalBlocks := by
  simp [dataBlockValid]

/-- What `data_block_allocated` returns on a volume. -/
def Vol.blockAllocated (v : Vol) (sb : Superblock) (b : Nat) : Bool :=
  dataBlockValid sb b && v.bmap b

/-- `data_block_allocated`. -/
theorem Reads.dataBlockAllocated (b : Nat) :
    Reads E v P (dataBlockAllocated b) (v.blockAllocated E.sb b) false fun _ => True := by
  intro ℓ aux cmp s h _
  unfold MiniOrange.dataBlockAllocated Vol.blockAllocated
  rw [wp_bind, wp_get, h.superblock]
  dsimp only
  cases dataBlockValid E.sb b with
  | false => exact .inl ⟨rfl, h, trivial⟩
  | true => exact Reads.bitmapBitSet E.blockBits (P := fun _ => True) b h trivial

/-- `free_block`. -/
theorem On.freeBlock (h : On E ℓ v aux cmp s) (hℓ : ℓ ≠ .any) (hb : E.sb.dataStart ≤ b)
    (hb' : b < E.sb.totalBlocks) (hsafe : E.safe (v.setB b false)) :
    wp (freeBlock b) (Wrote E ℓ v (v.setB b false) aux cmp) s := by
  unfold MiniOrange.freeBlock
  rw [wp_bind, wp_get, h.superblock]
  dsimp only
  rw [if_pos (dataBlockValid_iff.2 ⟨hb, hb'⟩)]
  exact h.bitmapUpdate hℓ E.blockBits (E.geometry.block_lt hb') hsafe

/-- Writing a data block from a buffer. -/
theorem On.writeData (h : On E ℓ v aux cmp s) (buffer : Buffer) (hℓ : ℓ ≠ .any)
    (hb : E.sb.dataStart ≤ b) (hb' : b < E.sb.totalBlocks)
    (hsafe : E.safe (v.setData b (s.buffers.get buffer))) :
    wp (writeVolumeBlockFrom b buffer) (fun r s' =>
      Wrote E ℓ v (v.setData b (s.buffers.get buffer)) aux cmp r s' ∧ s'.buffers = s.buffers) s := by
  have hpos : b ≠ 0 := Nat.ne_of_gt (Nat.lt_of_lt_of_le E.geometry.dataStart_pos hb)
  refine h.write buffer hℓ hpos hb' ?_ hsafe
  rw [Vol.ofDisk_writeData E.geometry hb hb', h.volume]

/-- Clearing a bit that was clear before it was set. -/
theorem Vol.setB_setB_false (hb : v.bmap b = false) : (v.setB b true).setB b false = v := by
  unfold Vol.setB
  simp only [Function.update_idem]
  rw [← hb, Function.update_eq_self]

/-- The volume with a zeroed block taken. -/
def Vol.take (v : Vol) (b : Nat) : Vol := (v.setB b true).setData b .zero

/-- The end of `allocate_block`: a free data block is taken, there is none, or a transfer has
failed and the block, if it was taken, is free again. -/
def Took (E : Env) (ℓ : Level) (v : Vol) (aux cmp : Block) (r : Except Errno Nat) (s : Machine) :
    Prop :=
  (∃ b, r = .ok b ∧ E.sb.dataStart ≤ b ∧ b < E.sb.totalBlocks ∧ v.bmap b = false ∧
    On E ℓ (v.take b) .zero cmp s) ∨
  (r = .error .enospc ∧ On E ℓ v aux cmp s) ∨
  (r = .error .eio ∧ ℓ = .single ∧ ∃ aux', On E .quiet v aux' cmp s)

/-- `allocate_block`, which finds a block if one is free. -/
theorem On.allocateBlock (h : On E ℓ v aux cmp s) (hℓ : ℓ ≠ .any)
    (hsafe : ∀ b, E.sb.dataStart ≤ b → b < E.sb.totalBlocks → v.bmap b = false →
      E.safe (v.setB b true) ∧ E.safe (v.take b)) :
    wp allocateBlock (fun r s' => Took E ℓ v aux cmp r s' ∧ (r = .error .enospc →
      ∀ b, E.sb.dataStart ≤ b → b < E.sb.totalBlocks → v.bmap b = true)) s := by
  unfold MiniOrange.allocateBlock
  rw [wp_bind, wp_get, h.superblock]
  dsimp only
  refine wp.bind (h.allocateBitmapBit E.blockBits hℓ E.geometry.dataStart_lt E.geometry.bits_le.1
    fun b hb hb' hfree => (hsafe b hb hb' hfree).1) ?_
  rintro r s₁ (⟨b, rfl, hb, hb', hfree, -, h₁⟩ | ⟨rfl, hfull, h₁⟩ | ⟨rfl, hs, h₁⟩)
  · rw [Env.blockBits_get] at hfree
    rw [wp_bind, wp_setBuffer]
    refine wp.bind ((h₁.setAuxiliary .zero).writeData .auxiliaryBlock hℓ hb hb'
      (hsafe b hb hb' hfree).2) ?_
    rintro r s₂ ⟨⟨rfl, h₂⟩ | ⟨rfl, rfl, h₂⟩, -⟩
    · exact ⟨.inl ⟨b, rfl, hb, hb', hfree, h₂⟩, nofun⟩
    · -- the fault is spent, so giving the block back succeeds
      have hback : (v.setB b true).setB b false = v := Vol.setB_setB_false hfree
      refine wp.bind (h₂.bitmapUpdate nofun E.blockBits (E.geometry.block_lt hb') ?_) ?_
      · rw [Env.blockBits_set, hback]
        exact h.safe
      · rintro r s₃ (⟨rfl, h₃⟩ | ⟨-, hs, -⟩)
        · rw [Env.blockBits_set, hback] at h₃
          exact ⟨.inr (.inr ⟨rfl, rfl, _, h₃⟩), nofun⟩
        · cases hs
  · exact ⟨.inr (.inl ⟨rfl, h₁⟩), fun _ => hfull⟩
  · exact ⟨.inr (.inr ⟨rfl, hs, _, h₁⟩), nofun⟩

/-! ## The blocks of a file -/

/-- What `inode_block_at` returns on a volume. -/
def Vol.inodeBlockAt (v : Vol) (sb : Superblock) (inode : Inode) (fileBlock : Nat) :
    Except Errno Nat :=
  if fileBlock ≥ blocksOf inode.size then .error .einval
  else if fileBlock < 10 then
    if v.blockAllocated sb (inode.directAt fileBlock) then .ok (inode.directAt fileBlock)
    else .error .eio
  else if v.blockAllocated sb inode.indirect = false then .error .eio
  else if fileBlock - 10 ≥ 1024 then .error .eio
  else
    let block := (v.data inode.indirect).pointer (fileBlock - 10)
    if v.blockAllocated sb block then .ok block else .error .eio

/-- The test that ends both branches of `inode_block_at`. -/
theorem Reads.checkedBlock (block : Nat) :
    Reads E v P (do
      if !(← MiniOrange.dataBlockAllocated block) then return .error .eio
      return .ok block : Fs (Except Errno Nat))
      (if v.blockAllocated E.sb block then .ok block else .error .eio) (.error .eio)
      fun _ => True := by
  refine Reads.bind (Reads.dataBlockAllocated block) ?_ rfl
  cases v.blockAllocated E.sb block with
  | false => exact Reads.pure
  | true => exact Reads.pure

/-- `inode_block_at`. -/
theorem Reads.inodeBlockAt (inode : Inode) (fileBlock : Nat) :
    Reads E v P (inodeBlockAt inode fileBlock) (v.inodeBlockAt E.sb inode fileBlock) (.error .eio)
      fun _ => True := by
  unfold MiniOrange.inodeBlockAt Vol.inodeBlockAt
  by_cases hsize : fileBlock ≥ blocksOf inode.size
  · rw [if_pos hsize, if_pos hsize]
    exact Reads.pure.drop
  rw [if_neg hsize, if_neg hsize]
  by_cases hdirect : fileBlock < 10
  · rw [if_pos hdirect, if_pos hdirect]
    exact Reads.checkedBlock _
  rw [if_neg hdirect, if_neg hdirect]
  refine Reads.bind (Reads.dataBlockAllocated inode.indirect) ?_ rfl
  cases halloc : v.blockAllocated E.sb inode.indirect with
  | false => exact Reads.pure
  | true =>
    simp only [Bool.not_true, Bool.false_eq_true, Bool.true_eq_false, if_false]
    by_cases hindex : fileBlock - 10 ≥ 1024
    · rw [if_pos hindex, if_pos hindex]
      exact Reads.pure
    rw [if_neg hindex, if_neg hindex]
    obtain ⟨hb, hb'⟩ := dataBlockValid_iff.1 (Bool.and_eq_true _ _ ▸ halloc).1
    refine Reads.bind (Reads.dataBlock hb hb') ?_ rfl
    intro ℓ aux cmp s h hio
    rw [wp_bind, wp_getBuffer, show s.buffers.get .ioBlock = v.data inode.indirect from hio]
    exact Reads.checkedBlock (P := fun _ => True) _ h trivial

end MiniOrange

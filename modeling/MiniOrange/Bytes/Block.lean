import Mathlib

/-!
# Byte blocks

The buffers and disk blocks of the file system are arrays of 4096 bytes. `Block.byte` reads one of
them at an offset, `Block.copyBytes` and `Block.clearBytes` overwrite a range, and the little-endian
words of `readLe16`, `readLe32`, `Block.writeLe16` and `Block.writeLe32` are the ones every on-disk
structure is made of. A pointer into a buffer is the function of the bytes it leads to (`Bytes`).
-/

namespace MiniOrange

/-- The bytes a pointer leads to, by offset. -/
abbrev Bytes := Nat → UInt8

/-- A buffer of `MINIFS_BLOCK_SIZE` bytes. -/
def Block := Fin 4096 → UInt8

variable {b : Block} {off value k : Nat} {src : Bytes} {x : UInt8}

namespace Block

/-- The byte at an offset. -/
def byte (b : Block) (i : Nat) : UInt8 := if h : i < 4096 then b ⟨i, h⟩ else 0

/-- The pointer `&b[off]`. -/
def ptr (b : Block) (off : Nat) : Bytes := fun i => b.byte (off + i)

/-- The block of zeros. -/
def zero : Block := fun _ => 0

/-- `copy_bytes(&b[off], src, len)`. -/
def copyBytes (b : Block) (off : Nat) (src : Bytes) (len : Nat) : Block :=
  fun i => if off ≤ i.val ∧ i.val < off + len then src (i.val - off) else b i

/-- `clear_bytes(&b[off], len)`. -/
def clearBytes (b : Block) (off len : Nat) : Block := b.copyBytes off (fun _ => 0) len

@[ext] theorem ext {a b : Block} (h : ∀ i, i < 4096 → a.byte i = b.byte i) : a = b := by
  funext i
  have := h i.val i.isLt
  simpa [byte, i.isLt] using this

@[simp] theorem byte_zero (i : Nat) : zero.byte i = 0 := by
  unfold byte zero; split <;> rfl

/-- A byte after `copyBytes`: of the source inside the range, the old one outside. -/
theorem byte_copyBytes (b : Block) (off : Nat) (src : Bytes) (len i : Nat) :
    (b.copyBytes off src len).byte i =
      if off ≤ i ∧ i < off + len ∧ i < 4096 then src (i - off) else b.byte i := by
  unfold byte copyBytes
  by_cases hi : i < 4096
  · simp [hi]
  · simp [hi]

theorem byte_copyBytes_of_mem {len i : Nat} (h : off ≤ i)
    (h' : i < off + len) (hi : i < 4096) : (b.copyBytes off src len).byte i = src (i - off) := by
  rw [byte_copyBytes, if_pos ⟨h, h', hi⟩]

theorem byte_copyBytes_of_not_mem {len i : Nat}
    (h : i < off ∨ off + len ≤ i) : (b.copyBytes off src len).byte i = b.byte i := by
  rw [byte_copyBytes, if_neg (by omega)]

@[simp] theorem ptr_apply (b : Block) (off i : Nat) : b.ptr off i = b.byte (off + i) := rfl

end Block

/-! ## Little-endian words -/

/-- `read_le16`. -/
def readLe16 (source : Bytes) : Nat := (source 0).toNat ||| (source 1).toNat <<< 8

/-- `read_le32`. -/
def readLe32 (source : Bytes) : Nat :=
  (source 0).toNat ||| (source 1).toNat <<< 8 ||| (source 2).toNat <<< 16 |||
    (source 3).toNat <<< 24

/-- The byte `(uint8_t)(value >> 8 * i)`. -/
def leByte (value : Nat) : Bytes := fun i => UInt8.ofNat (value >>> (8 * i))

/-- `write_le16(&b[off], value)`. -/
def Block.writeLe16 (b : Block) (off value : Nat) : Block := b.copyBytes off (leByte value) 2

/-- `write_le32(&b[off], value)`. -/
def Block.writeLe32 (b : Block) (off value : Nat) : Block := b.copyBytes off (leByte value) 4

/-- Joining a low part below `2 ^ i` is adding it. -/
theorem or_shiftLeft_eq_add {a i : Nat} (b : Nat) (h : a < 2 ^ i) :
    a ||| b <<< i = a + b * 2 ^ i := by
  rw [Nat.or_comm, ← Nat.shiftLeft_add_eq_or_of_lt h, Nat.shiftLeft_eq, Nat.add_comm]

theorem readLe16_eq (p : Bytes) : readLe16 p = (p 0).toNat + (p 1).toNat * 256 :=
  or_shiftLeft_eq_add _ (p 0).toNat_lt

theorem readLe32_eq (p : Bytes) : readLe32 p =
    (p 0).toNat + (p 1).toNat * 256 + (p 2).toNat * 65536 + (p 3).toNat * 16777216 := by
  have h0 := (p 0).toNat_lt
  have h1 := (p 1).toNat_lt
  have h2 := (p 2).toNat_lt
  have h16 : (p 0).toNat + (p 1).toNat * 2 ^ 8 < 2 ^ 16 := by omega
  have h24 : (p 0).toNat + (p 1).toNat * 2 ^ 8 + (p 2).toNat * 2 ^ 16 < 2 ^ 24 := by omega
  rw [readLe32, or_shiftLeft_eq_add _ h0, or_shiftLeft_eq_add _ h16, or_shiftLeft_eq_add _ h24]
  rfl

theorem readLe16_lt (p : Bytes) : readLe16 p < 2 ^ 16 := by
  have h0 := (p 0).toNat_lt
  have h1 := (p 1).toNat_lt
  rw [readLe16_eq]; omega

theorem readLe32_lt (p : Bytes) : readLe32 p < 2 ^ 32 := by
  have h0 := (p 0).toNat_lt
  have h1 := (p 1).toNat_lt
  have h2 := (p 2).toNat_lt
  have h3 := (p 3).toNat_lt
  rw [readLe32_eq]; omega

theorem leByte_toNat (value i : Nat) : (leByte value i).toNat = value / 2 ^ (8 * i) % 256 := by
  simp [leByte, Nat.shiftRight_eq_div_pow]

variable {p : Bytes}

/-- Reading back a 16-bit word. -/
theorem readLe16_leByte (h : ∀ i < 2, p i = leByte value i) :
    readLe16 p = value % 2 ^ 16 := by
  rw [readLe16_eq, h 0 (by omega), h 1 (by omega), leByte_toNat, leByte_toNat]
  omega

/-- Reading back a 32-bit word. -/
theorem readLe32_leByte (h : ∀ i < 4, p i = leByte value i) :
    readLe32 p = value % 2 ^ 32 := by
  rw [readLe32_eq, h 0 (by omega), h 1 (by omega), h 2 (by omega), h 3 (by omega)]
  simp only [leByte_toNat]
  omega

theorem readLe16_congr {q : Bytes} (h : ∀ i < 2, p i = q i) : readLe16 p = readLe16 q := by
  rw [readLe16, readLe16, h 0 (by omega), h 1 (by omega)]

theorem readLe32_congr {q : Bytes} (h : ∀ i < 4, p i = q i) : readLe32 p = readLe32 q := by
  rw [readLe32, readLe32, h 0 (by omega), h 1 (by omega), h 2 (by omega), h 3 (by omega)]

/-- A 16-bit word determines its bytes. -/
theorem readLe16_inj {q : Bytes} : readLe16 p = readLe16 q ↔ ∀ i < 2, p i = q i := by
  refine ⟨fun h i hi => UInt8.toNat_inj.1 ?_, readLe16_congr⟩
  have hp := (p 0).toNat_lt
  have hq := (q 0).toNat_lt
  rw [readLe16_eq, readLe16_eq] at h
  interval_cases i <;> omega

/-- A 32-bit word determines its bytes. -/
theorem readLe32_inj {q : Bytes} : readLe32 p = readLe32 q ↔ ∀ i < 4, p i = q i := by
  refine ⟨fun h i hi => UInt8.toNat_inj.1 ?_, readLe32_congr⟩
  have hp0 := (p 0).toNat_lt
  have hp1 := (p 1).toNat_lt
  have hp2 := (p 2).toNat_lt
  have hq0 := (q 0).toNat_lt
  have hq1 := (q 1).toNat_lt
  have hq2 := (q 2).toNat_lt
  rw [readLe32_eq, readLe32_eq] at h
  interval_cases i <;> omega

/-- A 16-bit word is zero exactly when its bytes are. -/
theorem readLe16_eq_zero : readLe16 p = 0 ↔ ∀ i < 2, p i = 0 :=
  @readLe16_inj p fun _ => 0

/-- A 32-bit word is zero exactly when its bytes are. -/
theorem readLe32_eq_zero : readLe32 p = 0 ↔ ∀ i < 4, p i = 0 :=
  @readLe32_inj p fun _ => 0

namespace Block

/-! ## Words of a block -/

theorem readLe16_writeLe16 (value : Nat) (h : off + 2 ≤ 4096) :
    readLe16 ((b.writeLe16 off value).ptr off) = value % 2 ^ 16 := by
  refine readLe16_leByte fun i hi => ?_
  rw [ptr_apply, writeLe16, byte_copyBytes_of_mem (by omega) (by omega) (by omega)]
  congr 1; omega

theorem readLe32_writeLe32 (value : Nat) (h : off + 4 ≤ 4096) :
    readLe32 ((b.writeLe32 off value).ptr off) = value % 2 ^ 32 := by
  refine readLe32_leByte fun i hi => ?_
  rw [ptr_apply, writeLe32, byte_copyBytes_of_mem (by omega) (by omega) (by omega)]
  congr 1; omega

/-- A word outside an overwritten range is the old one. -/
theorem readLe16_copyBytes {len p : Nat} (h : p + 2 ≤ off ∨ off + len ≤ p) :
    readLe16 ((b.copyBytes off src len).ptr p) = readLe16 (b.ptr p) := by
  refine readLe16_congr fun i hi => ?_
  rw [ptr_apply, ptr_apply, byte_copyBytes_of_not_mem (by omega)]

/-- A word outside an overwritten range is the old one. -/
theorem readLe32_copyBytes {len p : Nat} (h : p + 4 ≤ off ∨ off + len ≤ p) :
    readLe32 ((b.copyBytes off src len).ptr p) = readLe32 (b.ptr p) := by
  refine readLe32_congr fun i hi => ?_
  rw [ptr_apply, ptr_apply, byte_copyBytes_of_not_mem (by omega)]

/-- Writing the words `f k` at `off + 4 * k` for `k` in `ks`, in order. -/
def writeWords (b : Block) (off : Nat) (f : Nat → Nat) (ks : List Nat) : Block :=
  ks.foldl (fun b k => b.writeLe32 (off + 4 * k) (f k)) b

theorem writeWords_append (b : Block) (off : Nat) (f : Nat → Nat) (ks : List Nat) (k : Nat) :
    b.writeWords off f (ks ++ [k]) = (b.writeWords off f ks).writeLe32 (off + 4 * k) (f k) := by
  simp [writeWords]

variable {f : Nat → Nat} {ks : List Nat}

/-- A word after `writeWords`: the written one, or the old one. -/
theorem readLe32_writeWords {j : Nat} (hj : off + 4 * j + 4 ≤ 4096) :
    readLe32 ((b.writeWords off f ks).ptr (off + 4 * j)) =
      if j ∈ ks then f j % 2 ^ 32 else readLe32 (b.ptr (off + 4 * j)) := by
  induction ks using List.reverseRecOn with
  | nil => simp [writeWords]
  | append_singleton ks k ih =>
    rw [writeWords_append]
    by_cases hk : j = k
    · subst hk
      rw [readLe32_writeLe32 _ hj, if_pos (by simp)]
    · rw [writeLe32, readLe32_copyBytes (by omega), ih]
      simp [hk]

/-- A byte outside the written words is the old one. -/
theorem byte_writeWords {n i : Nat} (hk : ∀ k ∈ ks, k < n) (hi : i < off ∨ off + 4 * n ≤ i) :
    (b.writeWords off f ks).byte i = b.byte i := by
  induction ks using List.reverseRecOn with
  | nil => rfl
  | append_singleton ks k ih =>
    have := hk k (by simp)
    rw [writeWords_append, writeLe32, byte_copyBytes_of_not_mem (by omega),
      ih fun k' hk' => hk k' (by simp [hk'])]

end Block

/-! ## Bits of a byte -/

/-- `x & (1 << k)` is not zero. -/
def bitSet (x : UInt8) (k : Nat) : Bool := x &&& (1 <<< UInt8.ofNat k) != 0

/-- `x | (1 << k)` or `x & ~(1 << k)`. -/
def withBit (x : UInt8) (k : Nat) (value : Bool) : UInt8 :=
  if value then x ||| (1 <<< UInt8.ofNat k) else x &&& ~~~(1 <<< UInt8.ofNat k)

theorem toBitVec_one_shiftLeft (hk : k < 8) : (1 <<< UInt8.ofNat k : UInt8).toBitVec = 1#8 <<< k := by
  interval_cases k <;> rfl

/-- `bitSet` reads a bit of the byte. -/
theorem bitSet_eq (hk : k < 8) : bitSet x k = x.toBitVec.getLsbD k := by
  have h : ∀ x : BitVec 8, (x &&& (1#8 <<< k) != 0#8) = x.getLsbD k := by
    interval_cases k <;> decide
  rw [← h, ← toBitVec_one_shiftLeft hk, ← UInt8.toBitVec_and, bitSet, bne, bne,
    Bool.not_inj_iff, Bool.eq_iff_iff, beq_iff_eq, beq_iff_eq, ← UInt8.toBitVec_inj]
  rfl

/-- Setting a bit changes that bit only. -/
theorem bitSet_withBit {j : Nat} {value : Bool} (hk : k < 8) (hj : j < 8) :
    bitSet (withBit x k value) j = if j = k then value else bitSet x j := by
  rw [bitSet_eq hj, bitSet_eq hj]
  have h1 : (1#8 <<< k).getLsbD j = decide (j = k) := by
    interval_cases k <;> interval_cases j <;> rfl
  cases value with
  | true =>
    simp only [withBit, if_true, UInt8.toBitVec_or, BitVec.getLsbD_or, toBitVec_one_shiftLeft hk, h1]
    by_cases hjk : j = k <;> simp [hjk]
  | false =>
    simp only [withBit, Bool.false_eq_true, if_false, UInt8.toBitVec_and, UInt8.toBitVec_not,
      BitVec.getLsbD_and, BitVec.getLsbD_not, toBitVec_one_shiftLeft hk, h1]
    by_cases hjk : j = k <;> simp [hjk, hj]

@[simp] theorem bitSet_zero (k : Nat) : bitSet 0 k = false := by
  simp [bitSet]

end MiniOrange

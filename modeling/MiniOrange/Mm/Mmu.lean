import MiniOrange.Bytes.Block

/-!
# Memory and page walks

The physical memory is an array of bytes, read and written by bytes, by words of 32 bits and by whole pages. A virtual
address is translated by the two levels of a page directory and its page tables (`Ram.walk`), whose entries are words of the
same memory: a write to a page of the directory or of a table changes the translation, and a write anywhere else does not
(`walk_congr`).
-/

namespace MiniOrange

/-- The bytes of the physical memory. -/
abbrev Ram := Nat → UInt8

namespace Ram

/-- The word at an address. -/
def word (m : Ram) (a : Nat) : Nat := readLe32 fun i => m (a + i)

/-- Write a byte. -/
def setByte (m : Ram) (a : Nat) (value : UInt8) : Ram := Function.update m a value

/-- Write a word. -/
def setWord (m : Ram) (a value : Nat) : Ram := fun i => if a ≤ i ∧ i < a + 4 then leByte value (i - a) else m i

/-- Write zeros over the page at this address. -/
def clearPage (m : Ram) (page : Nat) : Ram := fun i => if page ≤ i ∧ i < page + 4096 then 0 else m i

variable {m m' : Ram} {a b i p v : Nat}

theorem word_congr (h : ∀ i, a ≤ i → i < a + 4 → m' i = m i) : m'.word a = m.word a :=
  readLe32_congr fun i hi => h (a + i) (by omega) (by omega)

@[simp] theorem word_zero (a : Nat) : word (fun _ => 0) a = 0 := readLe32_eq_zero.2 fun _ _ => rfl

theorem setWord_of_not_mem (h : i < a ∨ a + 4 ≤ i) : m.setWord a v i = m i := if_neg (by omega)

@[simp] theorem word_setWord_self (m : Ram) (a v : Nat) : (m.setWord a v).word a = v % 2 ^ 32 :=
  readLe32_leByte fun i hi => by rw [setWord, if_pos (by omega), Nat.add_sub_cancel_left]

/-- A write of what is there. -/
theorem setWord_eq_self (h : m.word a = 0) : m.setWord a 0 = m := by
  funext i
  unfold setWord
  split
  · next hi =>
    have hzero := readLe32_eq_zero.1 h (i - a) (by omega)
    rw [Nat.add_sub_cancel' hi.1] at hzero
    rw [hzero]
    exact UInt8.toNat_inj.1 (by rw [leByte_toNat]; simp)
  · rfl

theorem word_setWord_of_ne (h : a + 4 ≤ b ∨ b + 4 ≤ a) : (m.setWord a v).word b = m.word b :=
  word_congr fun i _ _ => setWord_of_not_mem (by omega)

@[simp] theorem setWord_setWord (m : Ram) (a v w : Nat) : (m.setWord a v).setWord a w = m.setWord a w := by
  funext i
  unfold setWord
  split
  · rfl
  · rfl

/-- A word after a write, where the words do not overlap. -/
theorem word_setWord (ha : a % 4 = 0) (hb : b % 4 = 0) (hv : v < 2 ^ 32) :
    (m.setWord a v).word b = if b = a then v else m.word b := by
  split
  · next h => rw [h, word_setWord_self, Nat.mod_eq_of_lt hv]
  · next h => exact word_setWord_of_ne (by omega)

/-! ### Pages -/

/-- The bytes of the page at this address, counted from its start. -/
def page (m : Ram) (p : Nat) : Ram := fun i => m (p + i)

/-- Write all bytes of a page. -/
def setPage (m : Ram) (p : Nat) (f : Ram) : Ram := fun a => if p ≤ a ∧ a < p + 4096 then f (a - p) else m a

variable {f g : Ram} {value : UInt8}

theorem setPage_of_mem (h : i < 4096) : m.setPage p f (p + i) = f i := by
  unfold setPage
  rw [if_pos (by omega), Nat.add_sub_cancel_left]

theorem setPage_of_not_mem (h : a < p ∨ p + 4096 ≤ a) : m.setPage p f a = m a := if_neg (by omega)

theorem setPage_congr (h : ∀ i < 4096, f i = g i) : m.setPage p f = m.setPage p g := by
  funext a
  unfold setPage
  split
  · exact h _ (by omega)
  · rfl

@[simp] theorem setPage_page : m.setPage p (m.page p) = m := by
  funext a
  unfold setPage page
  split
  · next h => rw [Nat.add_sub_cancel' h.1]
  · rfl

/-- A write of a word of a page. -/
theorem setWord_setPage (h : i + 4 ≤ 4096) : (m.setPage p f).setWord (p + i) v = m.setPage p (f.setWord i v) := by
  funext a
  unfold setWord setPage
  by_cases ha : p + i ≤ a ∧ a < p + i + 4
  · rw [if_pos ha, if_pos (by omega)]
    dsimp only
    rw [if_pos (by omega), Nat.sub_add_eq]
  · rw [if_neg ha]
    split
    · dsimp only
      rw [if_neg (by omega)]
    · rfl

/-- A write of a word outside a page. -/
theorem setPage_setWord (h : a + 4 ≤ p ∨ p + 4096 ≤ a) : (m.setWord a v).setPage p f = (m.setPage p f).setWord a v := by
  funext i
  unfold setPage setWord
  by_cases hi : a ≤ i ∧ i < a + 4
  · rw [if_pos hi, if_neg (by omega), if_pos hi]
  · rw [if_neg hi, if_neg hi]

theorem word_setPage_of_mem (h : i + 4 ≤ 4096) : (m.setPage p f).word (p + i) = f.word i := by
  unfold word
  refine readLe32_congr fun j hj => ?_
  rw [Nat.add_assoc]
  exact setPage_of_mem (by omega)

theorem word_setPage_of_not_mem (h : a + 4 ≤ p ∨ p + 4096 ≤ a) : (m.setPage p f).word a = m.word a :=
  word_congr fun i _ _ => setPage_of_not_mem (by omega)

end Ram

/-! ## Entries -/

/-- The page of an address or of an entry. -/
def pageOf (a : Nat) : Nat := a / 4096 * 4096

/-- The entry is present. -/
def present (entry : Nat) : Bool := entry.testBit 0

/-- The page of the entry can be written. -/
def writable (entry : Nat) : Bool := entry.testBit 1

/-- The page of the entry is the user's. -/
def userPage (entry : Nat) : Bool := entry.testBit 2

/-- The entry lets an access pass. -/
def passes (user write : Bool) (entry : Nat) : Bool := present entry && (!user || userPage entry) && (!write || writable entry)

section
variable {p f i : Nat}

theorem pageOf_le (a : Nat) : pageOf a ≤ a := Nat.div_mul_le_self a 4096

@[simp] theorem pageOf_mod (a : Nat) : pageOf a % 4096 = 0 := Nat.mul_mod_left _ _

theorem pageOf_eq (hp : p % 4096 = 0) (hlow : p ≤ i) (hhigh : i < p + 4096) : pageOf i = p := by
  unfold pageOf
  omega

/-- An entry is the sum of the page and the flags. -/
theorem page_or (hp : p % 4096 = 0) (hf : f < 4096) : p ||| f = p + f := by
  have hshift : p = (p / 4096) <<< 12 := by rw [Nat.shiftLeft_eq]; omega
  have hor := or_shiftLeft_eq_add (a := f) (i := 12) (p / 4096) hf
  rw [← hshift] at hor
  rw [Nat.or_comm, hor]
  omega

theorem pageOf_or (hp : p % 4096 = 0) (hf : f < 4096) : pageOf (p ||| f) = p := by
  rw [page_or hp hf]
  exact pageOf_eq hp (by omega) (by omega)

theorem testBit_page_or (hp : p % 4096 = 0) (hi : i < 12) : (p ||| f).testBit i = f.testBit i := by
  have hpage : p.testBit i = false := by
    obtain ⟨k, rfl⟩ := Nat.dvd_of_mod_eq_zero hp
    rw [show 4096 = 2 ^ 12 from rfl, Nat.mul_comm, Nat.testBit_mul_two_pow]
    simp [Nat.not_le.2 hi]
  rw [Nat.testBit_or, hpage, Bool.false_or]

theorem page_or_lt (hp : p % 4096 = 0) (hlt : p < 2 ^ 32) (hf : f < 4096) : p ||| f < 2 ^ 32 := by
  rw [page_or hp hf]
  omega

theorem present_of_passes {entry : Nat} {user write : Bool} (h : passes user write entry = true) : present entry = true := by
  unfold passes at h
  simp only [Bool.and_eq_true] at h
  exact h.1.1

/-- An entry that lets an access pass lets a weaker one pass. -/
theorem passes_mono {entry : Nat} {user write user' write' : Bool} (h : passes user write entry = true)
    (hu : user' = true → user = true) (hw : write' = true → write = true) : passes user' write' entry = true := by
  unfold passes at h ⊢
  generalize present entry = x at *
  generalize userPage entry = y at *
  generalize writable entry = z at *
  revert user write user' write' x y z
  decide

end

/-! ## Translation -/

namespace Ram

/-- The address of the entry of a page directory for a virtual address. -/
def directoryEntry (directory address : Nat) : Nat := directory + address / 2 ^ 22 * 4

/-- The address of the entry of a page table for a virtual address. -/
def tableEntry (table address : Nat) : Nat := table + address / 4096 % 1024 * 4

/-- The physical address that an access to a virtual address goes to. -/
def walk (m : Ram) (directory : Nat) (user write : Bool) (address : Nat) : Option Nat :=
  let pde := m.word (directoryEntry directory address)
  let pte := m.word (tableEntry (pageOf pde) address)
  if passes user write pde = true ∧ passes user write pte = true then some (pageOf pte + address % 4096) else none

variable {m m' : Ram} {d a i : Nat} {user write : Bool}

/-- The translation by the entries that it finds. -/
theorem walk_eq {e e' : Nat} (hpde : m.word (directoryEntry d a) = e) (hpte : m.word (tableEntry (pageOf e) a) = e') :
    m.walk d user write a =
      if passes user write e = true ∧ passes user write e' = true then some (pageOf e' + a % 4096) else none := by
  subst hpde hpte
  rfl

/-- A weaker access goes to the same address. -/
theorem walk_mono {user' write' : Bool} {p : Nat} (h : m.walk d user write a = some p) (hu : user' = true → user = true)
    (hw : write' = true → write = true) : m.walk d user' write' a = some p := by
  rw [walk_eq rfl rfl] at h ⊢
  split at h
  · next hpass => rw [if_pos ⟨passes_mono hpass.1 hu hw, passes_mono hpass.2 hu hw⟩, h]
  · cases h

end Ram

end MiniOrange

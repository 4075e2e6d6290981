import MiniOrange.Fs.Format
import MiniOrange.Logic.Word32
import MiniOrange.Mm.Paging

/-!
# Copies between the kernel and a process

`usercopy.c` checks a range of user addresses page by page with `vmm_query`, and then accesses it as the kernel. What a process
may access itself is told by the page walk of the hardware (`Readable`, `Writable`). It is shown that the check agrees with the
hardware at every byte, and what the copies do: `copy_user_string`, which checks and reads in chunks, does what a copy byte by
byte would do.

A buffer of the kernel is the function of its bytes, and is not part of the memory of the process.
-/

namespace MiniOrange

namespace Paging

/-- `enum user_access`. -/
inductive UserAccess where
  | read
  | write
  deriving DecidableEq, Repr

/-- A page passes the check of `validate_user_range`. -/
def pageAllows (s : Paging) (access : UserAccess) (page : Nat) : Bool :=
  match s.vmmQuery page with
  | none => false
  | some (_, flags) => userPage flags && !(access = .write && !writable flags)

/-- The loop of `validate_user_range`; nothing if it does not end. -/
def validatePages (s : Paging) (access : UserAccess) (last : Nat) : Nat → Nat → Option Bool
  | 0, _ => none
  | left + 1, page =>
    if s.pageAllows access page = false then some false
    else if page = last then some true
    else s.validatePages access last left (add32 page 4096)

/-- `validate_user_range`. -/
def validateUserRange (s : Paging) (start length : Nat) (access : UserAccess) : Option Bool :=
  if length = 0 then some true
  else if start ≥ kernelBase ∨ length > kernelBase - start then some false
  else s.validatePages access (pageOf (sub32 (add32 start length) 1)) (2 ^ 20) (pageOf start)

/-- A call of `validate_user_range`. -/
def checkRange (start length : Nat) (access : UserAccess) : Mem Paging Bool := do
  match (← get).validateUserRange start length access with
  | none => throw .endless
  | some result => return result

/-- The loop of `copy_from_user`, with `left` bytes to go. -/
def copyInFrom (source : Nat) : Nat → Nat → Bytes → Mem Paging Bytes
  | 0, _, destination => return destination
  | left + 1, index, destination => do
    let value ← loadByte (add32 source index)
    copyInFrom source left (index + 1) (Function.update destination index value)

/-- `copy_from_user`, with the buffer behind it; NULL is nothing. -/
def copyFromUser (kernelDestination : Option Bytes) (userSource length : Nat) : Mem Paging (Except Errno Unit × Option Bytes) := do
  if length = 0 then return (.ok (), kernelDestination)
  else
    match kernelDestination with
    | none => return (.error .efault, none)
    | some destination =>
      if ← checkRange userSource length .read then
        let destination ← copyInFrom userSource length 0 destination
        return (.ok (), some destination)
      else return (.error .efault, some destination)

/-- The loop of `copy_to_user`, with `left` bytes to go. -/
def copyOutFrom (destination : Nat) (source : Bytes) : Nat → Nat → Mem Paging Unit
  | 0, _ => return ()
  | left + 1, index => do
    storeByte (add32 destination index) (source index)
    copyOutFrom destination source left (index + 1)

/-- `copy_to_user`; NULL is nothing. -/
def copyToUser (userDestination : Nat) (kernelSource : Option Bytes) (length : Nat) : Mem Paging (Except Errno Unit) := do
  if length = 0 then return .ok ()
  else
    match kernelSource with
    | none => return .error .efault
    | some source =>
      if ← checkRange userDestination length .write then
        copyOutFrom userDestination source length 0
        return .ok ()
      else return .error .efault

section
-- `copy_user_string` is given how a byte is read, to be able to say which bytes it reads.
variable (load : Nat → Mem Paging UInt8)

/-- The loop of `copy_user_string` over a chunk, with `left` bytes to go: whether it has found the end, and the buffer. -/
def copyChunkFrom (address index : Nat) : Nat → Nat → Bytes → Mem Paging (Bool × Bytes)
  | 0, _, destination => return (false, destination)
  | left + 1, offset, destination => do
    let value ← load (add32 address offset)
    if value = 0 then return (true, Function.update destination (index + offset) value)
    else copyChunkFrom address index left (offset + 1) (Function.update destination (index + offset) value)

/-- The size of a chunk of `copy_user_string`. -/
def chunkSize (address index maximumLength remainingUser : Nat) : Nat :=
  min (min (4096 - address % 4096) (maximumLength - index)) (remainingUser - index)

/-- The loop of `copy_user_string` over the chunks. -/
def copyStringFrom (start maximumLength remainingUser : Nat) : Nat → Nat → Bytes → Mem Paging (Except Errno Unit × Bytes)
  | 0, _, _ => throw .endless
  | left + 1, index, destination => do
    if index < maximumLength then
      if index ≥ remainingUser then return (.error .efault, destination)
      else
        let address := add32 start index
        let chunk := chunkSize address index maximumLength remainingUser
        if ← checkRange address chunk .read then
          let (ended, destination) ← copyChunkFrom load address index chunk 0 destination
          if ended then return (.ok (), destination)
          else copyStringFrom start maximumLength remainingUser left (index + chunk) destination
        else return (.error .efault, destination)
    else return (.error .efault, destination)

/-- `copy_user_string` with another way to read a byte. -/
def copyUserStringWith (kernelDestination : Option Bytes) (userSource maximumLength : Nat) :
    Mem Paging (Except Errno Unit × Option Bytes) := do
  match kernelDestination with
  | none => return (.error .efault, none)
  | some destination =>
    if maximumLength = 0 ∨ userSource ≥ kernelBase then return (.error .efault, some destination)
    else
      let (result, destination) ←
        copyStringFrom load userSource maximumLength (kernelBase - userSource) (maximumLength + 1) 0 destination
      return (result, some destination)

end

/-- `copy_user_string`, with the buffer behind it; NULL is nothing. -/
def copyUserString (kernelDestination : Option Bytes) (userSource maximumLength : Nat) :
    Mem Paging (Except Errno Unit × Option Bytes) := copyUserStringWith loadByte kernelDestination userSource maximumLength

/-! ## What a process may access -/

/-- Where an access of the process to a virtual address goes. -/
def userTranslate (s : Paging) (write : Bool) (address : Nat) : Option Nat := s.memory.walk s.directory true write address

/-- The process may access this byte. -/
def Allowed (s : Paging) (access : UserAccess) (address : Nat) : Prop :=
  address < kernelBase ∧ (s.userTranslate (access = .write) address).isSome = true

instance (s : Paging) (access : UserAccess) (address : Nat) : Decidable (s.Allowed access address) :=
  inferInstanceAs (Decidable (_ ∧ _))

/-- The byte of the process at this address. -/
def userByte (s : Paging) (address : Nat) : Option UInt8 := (s.userTranslate false address).map s.memory

variable {s t : Paging} {access : UserAccess} {a p start length : Nat}

theorem userPage_queryFlags (e e' : Nat) : userPage (queryFlags e e') = (userPage e' && userPage e) := by
  unfold queryFlags
  generalize (writable e' && writable e) = w
  generalize (userPage e' && userPage e) = u
  revert w u
  decide

theorem writable_queryFlags (e e' : Nat) : writable (queryFlags e e') = (writable e' && writable e) := by
  unfold queryFlags
  generalize (writable e' && writable e) = w
  generalize (userPage e' && userPage e) = u
  revert w u
  decide

/-- The check of a page agrees with the hardware at each of its bytes. -/
theorem pageAllows_iff (hvmm : s.vmmInitialized = true) (ha : a < kernelBase) :
    s.pageAllows access (pageOf a) = true ↔ (s.userTranslate (access = .write) a).isSome = true := by
  have hpde : pageOf a / 2 ^ 22 = a / 2 ^ 22 := by
    unfold pageOf
    omega
  have hpte : entryIndex (pageOf a) = entryIndex a := by
    unfold entryIndex pageOf
    omega
  have hlow : ¬ pageOf a ≥ recursivePageTables := by
    have hle := pageOf_le a
    unfold recursivePageTables kernelBase at *
    omega
  unfold userTranslate pageAllows vmmQuery
  rw [walk_directory, hpde, hpte]
  simp only [hvmm, hlow, passes, false_or, Bool.not_true, Bool.false_or, Bool.true_eq_false]
  cases hdirectory : present (s.pde (a / 2 ^ 22)) with
  | false => simp
  | true =>
    cases htable : present (s.pte (entryIndex a)) with
    | false => simp
    | true =>
      rw [if_neg (by simp), if_neg (by simp)]
      dsimp only
      rw [userPage_queryFlags, writable_queryFlags, Option.isSome_ite]
      cases access with
      | read => simp [and_comm]
      | write =>
        simp [and_assoc, and_comm, and_left_comm]

/-- The loop of `validate_user_range` looks at every page. -/
theorem validatePages_eq (k left page : Nat) (hleft : k < left) (hpage : page + k * 4096 < 2 ^ 32) :
    s.validatePages access (page + k * 4096) left page = some (decide (∀ j ≤ k, s.pageAllows access (page + j * 4096) = true)) := by
  induction k generalizing left page with
  | zero =>
    obtain ⟨left, rfl⟩ := Nat.exists_eq_add_of_lt hleft
    rw [validatePages]
    cases h : s.pageAllows access page with
    | false => simp [h]
    | true => simp [h]
  | succ k ih =>
    obtain ⟨left, rfl⟩ : ∃ n, left = n + 1 := ⟨left - 1, by omega⟩
    rw [validatePages]
    have hshift : ∀ j, page + (j + 1) * 4096 = page + 4096 + j * 4096 := fun j => by omega
    have hnext : add32 page 4096 = page + 4096 := add32_eq (by omega)
    have hstep : (∀ j ≤ k + 1, s.pageAllows access (page + j * 4096) = true) ↔
        s.pageAllows access page = true ∧ ∀ j ≤ k, s.pageAllows access (page + 4096 + j * 4096) = true := by
      constructor
      · intro h
        exact ⟨by simpa using h 0 (by omega), fun j hj => hshift j ▸ h (j + 1) (by omega)⟩
      · intro h j hj
        cases j with
        | zero => simpa using h.1
        | succ j => exact hshift j ▸ h.2 j (Nat.le_of_succ_le_succ hj)
    cases h : s.pageAllows access page with
    | false => simp [hstep, h]
    | true =>
      rw [if_neg (by simp), if_neg (by omega), hnext, hshift, ih _ _ (by omega) (by omega)]
      simp [hstep, h]

/-- `validate_user_range` agrees with the hardware at every byte of the range. -/
theorem validateUserRange_eq (hvmm : s.vmmInitialized = true) (start length : Nat) (access : UserAccess) :
    ∃ b, s.validateUserRange start length access = some b ∧ (b = true ↔ ∀ i < length, s.Allowed access (start + i)) := by
  unfold validateUserRange
  split
  · next hzero => exact ⟨true, rfl, by simp [hzero]⟩
  · next hpos =>
    split
    · next hout =>
      refine ⟨false, rfl, iff_of_false Bool.false_ne_true fun h => ?_⟩
      rcases hout with hstart | hlength
      · have := (h 0 (by omega)).1
        omega
      · have := (h (kernelBase - start) hlength).1
        omega
    · next hin =>
      have hbase : kernelBase = 0xC0000000 := rfl
      have hlast : pageOf (sub32 (add32 start length) 1) =
          pageOf start + ((start + length - 1) / 4096 - start / 4096) * 4096 := by
        rw [add32_eq (by omega), sub32_eq (by omega) (by omega)]
        unfold pageOf
        omega
      have hcount : (start + length - 1) / 4096 - start / 4096 < 2 ^ 20 := by omega
      rw [hlast, validatePages_eq _ _ _ hcount (by unfold pageOf; omega)]
      refine ⟨_, rfl, ?_⟩
      rw [decide_eq_true_iff]
      constructor
      · intro h i hi
        have hpage : pageOf (start + i) = pageOf start + ((start + i) / 4096 - start / 4096) * 4096 := by
          unfold pageOf
          omega
        refine ⟨by omega, (pageAllows_iff hvmm (by omega)).1 ?_⟩
        rw [hpage]
        exact h _ (by omega)
      · intro h j hj
        -- the first byte of the range on this page
        have hpage : pageOf (start + (max start (pageOf start + j * 4096) - start)) = pageOf start + j * 4096 := by
          unfold pageOf
          omega
        have hbyte := h (max start (pageOf start + j * 4096) - start) (by unfold pageOf; omega)
        rw [← hpage]
        exact (pageAllows_iff hvmm hbyte.1).2 hbyte.2

/-! ## Copies into the kernel -/

theorem checkRange_eq {b : Bool} (h : s.validateUserRange start length access = some b) :
    checkRange start length access s = .ok (b, s) := by
  show (match s.validateUserRange start length access with
    | none => throw .endless
    | some result => return result : Mem Paging Bool) s = _
  rw [h]
  rfl

theorem exists_userByte (h : s.Allowed .read a) : ∃ b, s.userByte a = some b := by
  obtain ⟨p, hp⟩ := Option.isSome_iff_exists.1 h.2
  exact ⟨s.memory p, congrArg (Option.map s.memory) hp⟩

variable {b : UInt8} {left : Nat} {part : Bytes}

/-- The kernel reads what the process would read. -/
theorem loadByte_eq (h : s.userByte a = some b) : loadByte a s = .ok (b, s) := by
  obtain ⟨p, hp, rfl⟩ := Option.map_eq_some_iff.1 h
  have htranslate : s.translate false a = some p := Ram.walk_mono hp nofun id
  rw [loadByte, bind_of_ok (get_eq_ok s), htranslate]
  rfl

/-- The loop of `copy_from_user` copies the rest of the range. -/
theorem copyInFrom_spec {source : Nat} {bytes destination : Bytes} {index : Nat} (hlow : source + index + left < 2 ^ 32)
    (hbytes : ∀ i, index ≤ i → i < index + left → s.userByte (source + i) = some (bytes i)) :
    wpe (copyInFrom source left index destination)
      (fun d t => t = s ∧ ∀ i, d i = if index ≤ i ∧ i < index + left then bytes i else destination i) (fun _ => False) s := by
  induction left generalizing index destination with
  | zero => exact ⟨rfl, fun i => (if_neg (by omega)).symm⟩
  | succ left ih =>
    have hload : loadByte (add32 source index) s = .ok (bytes index, s) := by
      rw [add32_eq (by omega)]
      exact loadByte_eq (hbytes index le_rfl (by omega))
    rw [copyInFrom, wpe_bind, wpe_of_eq_ok hload]
    refine (ih (by omega) fun i hi hi' => hbytes i (by omega) (by omega)).mono fun d t ⟨ht, hd⟩ => ⟨ht, fun i => ?_⟩
    rw [hd i]
    rcases Nat.lt_trichotomy i index with hi | rfl | hi
    · rw [if_neg (by omega), if_neg (by omega), Function.update_of_ne (by omega)]
    · rw [if_neg (by omega), if_pos (by omega), Function.update_self]
    · simp only [show index + 1 ≤ i ∧ i < index + 1 + left ↔ index ≤ i ∧ i < index + (left + 1) by omega]
      split
      · rfl
      · exact Function.update_of_ne (by omega) ..

/-- `copy_from_user` copies a range that the process may read, and refuses every other. -/
theorem copyFromUser_spec (hvmm : s.vmmInitialized = true) (buffer : Bytes) (source length : Nat) :
    wpe (copyFromUser (some buffer) source length) (fun r t => t = s ∧ ∃ buffer', r.2 = some buffer' ∧
      if ∀ i < length, s.Allowed .read (source + i) then
        r.1 = .ok () ∧ (∀ i < length, s.userByte (source + i) = some (buffer' i)) ∧ ∀ i ≥ length, buffer' i = buffer i
      else r.1 = .error .efault ∧ buffer' = buffer) (fun _ => False) s := by
  obtain ⟨b, hb, hiff⟩ := validateUserRange_eq hvmm source length .read
  unfold copyFromUser
  split
  · next hzero => exact ⟨rfl, buffer, rfl, by simp [hzero]⟩
  · next hpos =>
    rw [wpe_bind, wpe_of_eq_ok (checkRange_eq hb)]
    cases b with
    | false =>
      rw [if_neg Bool.false_ne_true]
      refine ⟨rfl, buffer, rfl, ?_⟩
      rw [if_neg fun h => Bool.false_ne_true (hiff.2 h)]
      exact ⟨rfl, rfl⟩
    | true =>
      have hallowed := hiff.1 rfl
      have hbase : kernelBase = 0xC0000000 := rfl
      have hlast := (hallowed (length - 1) (by omega)).1
      have hbytes : ∀ i, 0 ≤ i → i < 0 + length → s.userByte (source + i) = some ((s.userByte (source + i)).getD 0) := by
        intro i _ hi
        obtain ⟨b, hb⟩ := exists_userByte (hallowed i (by omega))
        rw [hb]
        rfl
      rw [if_pos rfl, wpe_bind]
      refine (copyInFrom_spec (by omega) hbytes).mono fun d t ⟨ht, hd⟩ => ⟨ht, d, rfl, ?_⟩
      rw [if_pos hallowed]
      refine ⟨rfl, fun i hi => ?_, fun i hi => ?_⟩
      · rw [hd i, if_pos (by omega)]
        exact hbytes i (Nat.zero_le i) (by omega)
      · rw [hd i, if_neg (by omega)]

/-! ## Copies to a process -/

/-- No byte of the memory belongs to two addresses of the process, or to an address and to the tables that translate. -/
structure Separate (s : Paging) : Prop where
  distinct : ∀ {a b p}, a < kernelBase → b < kernelBase → s.userTranslate false a = some p → s.userTranslate false b = some p → a = b
  directory : ∀ {a p}, a < kernelBase → s.userTranslate false a = some p → pageOf p ≠ s.directory
  table : ∀ {a p i}, a < kernelBase → s.userTranslate false a = some p → i < kernelPdeIndex → present (s.pde i) = true →
    pageOf p ≠ pageOf (s.pde i)

/-- The first `count` bytes of the range have been written. -/
structure Written (s t : Paging) (destination : Nat) (source : Bytes) (count : Nat) : Prop where
  rest : t = { s with memory := t.memory }
  inside : ∀ i < count, ∀ p, s.userTranslate false (destination + i) = some p → t.memory p = source i
  outside : ∀ p, (∀ i < count, s.userTranslate false (destination + i) ≠ some p) → t.memory p = s.memory p

variable {destination count : Nat} {source : Bytes}

/-- None of the bytes of the range is in the tables that translate it. -/
structure Fenced (s : Paging) (start length : Nat) : Prop where
  directory : ∀ {i p}, i < length → s.userTranslate false (start + i) = some p → pageOf p ≠ s.directory
  table : ∀ {i j p}, i < length → j < length → s.userTranslate false (start + i) = some p →
    pageOf p ≠ pageOf (s.pde ((start + j) / 2 ^ 22))

/-- No two bytes of the range are one. -/
def Distinct (s : Paging) (start length : Nat) : Prop := ∀ i j p, i < length → j < length →
  s.userTranslate false (start + i) = some p → s.userTranslate false (start + j) = some p → i = j

/-- What has been written is not part of the tables. -/
theorem Written.translate (h : Written s t destination source count)
    (hdirectory : ∀ i < count, ∀ p, s.userTranslate false (destination + i) = some p → pageOf p ≠ s.directory)
    (htable : present (s.pde (a / 2 ^ 22)) = true → ∀ i < count, ∀ p, s.userTranslate false (destination + i) = some p →
      pageOf p ≠ pageOf (s.pde (a / 2 ^ 22)))
    (ha : a < 2 ^ 32) (user write : Bool) :
    t.memory.walk t.directory user write a = s.memory.walk s.directory user write a := by
  have hsame : t.directory = s.directory := by rw [h.rest]; rfl
  have hmod : s.directory % 4096 = 0 := pageOf_mod _
  have hword : ∀ x, (∀ i < count, ∀ p, s.userTranslate false (destination + i) = some p → pageOf p ≠ pageOf x) → x % 4 = 0 →
      t.memory.word x = s.memory.word x := by
    intro x hx hx4
    refine Ram.word_congr fun p hp hp' => h.outside p fun i hi hwalk => hx i hi p hwalk ?_
    unfold pageOf
    omega
  have hpde : t.pde (a / 2 ^ 22) = s.pde (a / 2 ^ 22) := by
    unfold pde
    rw [hsame]
    refine hword _ (fun i hi p hwalk => ?_) (by omega)
    rw [show pageOf (s.directory + a / 2 ^ 22 * 4) = s.directory from pageOf_eq hmod (by omega) (by omega)]
    exact hdirectory i hi p hwalk
  rw [walk_directory, walk_directory, hpde]
  by_cases hpass : passes user write (s.pde (a / 2 ^ 22)) = true
  · have hmod' := pageOf_mod (s.pde (a / 2 ^ 22))
    have hpte : t.pte (entryIndex a) = s.pte (entryIndex a) := by
      unfold pte entryAddress
      rw [entryIndex_div, entryIndex_mod, hpde]
      refine hword _ (fun i hi p hwalk => ?_) (by omega)
      rw [show pageOf (pageOf (s.pde (a / 2 ^ 22)) + a / 4096 % 1024 * 4) = pageOf (s.pde (a / 2 ^ 22)) from
        pageOf_eq hmod' (by omega) (by omega)]
      exact htable (present_of_passes hpass) i hi p hwalk
    rw [hpte]
  · rw [if_neg fun hboth => hpass hboth.1, if_neg fun hboth => hpass hboth.1]

/-- A range that is being written is translated as before. -/
theorem Written.translate_range (h : Written s t destination source count) (hfence : Fenced s destination length)
    (hcount : count ≤ length) {j : Nat} (hj : j < length) (hlow : destination + j < 2 ^ 32) (user write : Bool) :
    t.memory.walk t.directory user write (destination + j) = s.memory.walk s.directory user write (destination + j) :=
  h.translate (fun _ hi _ hwalk => hfence.directory (hi.trans_le hcount) hwalk)
    (fun _ _ hi _ hwalk => hfence.table (hi.trans_le hcount) hj hwalk) hlow user write

/-- One more byte is written. -/
theorem storeByte_written (h : Written s t destination source count) (hfence : Fenced s destination length)
    (hdistinct : Distinct s destination length) (hcount : count < length) (hallowed : s.Allowed .write (destination + count)) :
    wpe (storeByte (destination + count) (source count)) (fun _ u => Written s u destination source (count + 1)) (fun _ => False)
      t := by
  have hbase : kernelBase = 0xC0000000 := rfl
  have hlow := hallowed.1
  obtain ⟨p, hp⟩ := Option.isSome_iff_exists.1 hallowed.2
  have hread : s.userTranslate false (destination + count) = some p := Ram.walk_mono hp id nofun
  have htranslate : t.translate true (destination + count) = some p := by
    have hsame := h.translate_range hfence hcount.le hcount (by omega) false true
    exact hsame.trans (Ram.walk_mono hp nofun id)
  have hstore : storeByte (destination + count) (source count) t =
      .ok ((), { t with memory := t.memory.setByte p (source count) }) := by
    rw [storeByte, bind_of_ok (get_eq_ok t), htranslate]
    rfl
  rw [wpe_of_eq_ok hstore]
  refine ⟨by rw [h.rest], fun i hi q hq => ?_, fun q hq => ?_⟩
  · by_cases hpq : q = p
    · have hsame : i = count := hdistinct i count p (by omega) hcount (hpq ▸ hq) hread
      rw [hsame, hpq]
      exact Function.update_self ..
    · have hne : i ≠ count := fun heq => hpq (Option.some.inj ((heq ▸ hq).symm.trans hread))
      exact (Function.update_of_ne hpq ..).trans (h.inside i (by omega) q hq)
  · have hpq : q ≠ p := fun heq => hq count (Nat.lt_succ_self count) (heq ▸ hread)
    exact (Function.update_of_ne hpq ..).trans (h.outside q fun i hi => hq i (by omega))

/-- The loop of `copy_to_user` writes the next bytes of the range. -/
theorem copyOutFrom_spec (hfence : Fenced s destination length) (hdistinct : Distinct s destination length) {index : Nat}
    (h : Written s t destination source index) (hlength : index + left ≤ length)
    (hallowed : ∀ i < length, s.Allowed .write (destination + i)) :
    wpe (copyOutFrom destination source left index) (fun _ u => Written s u destination source (index + left)) (fun _ => False) t := by
  have hbase : kernelBase = 0xC0000000 := rfl
  induction left generalizing index t with
  | zero => exact h
  | succ left ih =>
    have hlow := (hallowed index (by omega)).1
    rw [copyOutFrom, add32_eq (by omega)]
    refine (storeByte_written h hfence hdistinct (by omega) (hallowed index (by omega))).bind fun _ u hu => ?_
    rw [show index + (left + 1) = index + 1 + left by omega]
    exact ih hu (by omega)

/-- A copy to the middle of a range is part of one to its start. -/
theorem copyOutFrom_shift {index : Nat} (hpart : ∀ i < index + left, part i = source (count + i))
    (hlow : destination + (count + index + left) ≤ 2 ^ 32) :
    copyOutFrom (destination + count) part left index = copyOutFrom destination source left (count + index) := by
  induction left generalizing index with
  | zero => rfl
  | succ left ih =>
    rw [copyOutFrom, copyOutFrom, add32_eq (by omega), add32_eq (by omega), hpart index (by omega), Nat.add_assoc destination,
      ih (fun i hi => hpart i (by omega)) (by omega)]
    rfl

/-- A process sees the bytes that were written. -/
theorem Written.userByte_inside {i : Nat} (h : Written s t destination source count) (hfence : Fenced s destination length)
    (hcount : count ≤ length) (hi : i < count) (hallowed : s.Allowed .write (destination + i)) :
    t.userByte (destination + i) = some (source i) := by
  have hbase : kernelBase = 0xC0000000 := rfl
  have hlow := hallowed.1
  obtain ⟨p, hp⟩ := Option.isSome_iff_exists.1 hallowed.2
  have hread : s.userTranslate false (destination + i) = some p := Ram.walk_mono hp id nofun
  have htranslate : t.userTranslate false (destination + i) = some p :=
    (h.translate_range hfence hcount (hi.trans_le hcount) (by omega) true false).trans hread
  rw [userByte, htranslate, Option.map_some, h.inside i hi p hread]

/-- A process sees the bytes that were written, and all others as before. -/
theorem Written.userByte_eq (h : Written s t destination source length) (hsep : Separate s)
    (hallowed : ∀ i < length, s.Allowed .write (destination + i)) (ha : a < kernelBase) :
    t.userByte a = if destination ≤ a ∧ a < destination + length then some (source (a - destination)) else s.userByte a := by
  have hbase : kernelBase = 0xC0000000 := rfl
  have hindex : a / 2 ^ 22 < kernelPdeIndex := by
    show a / 2 ^ 22 < 768
    omega
  have htranslate : t.userTranslate false a = s.userTranslate false a :=
    h.translate (fun i hi _ hwalk => hsep.directory (hallowed i hi).1 hwalk)
      (fun hpresent i hi _ hwalk => hsep.table (hallowed i hi).1 hwalk hindex hpresent) (by omega) true false
  unfold userByte
  rw [htranslate]
  split
  · next hin =>
    have heq : destination + (a - destination) = a := by omega
    have hthis := hallowed (a - destination) (by omega)
    rw [heq] at hthis
    obtain ⟨p, hp⟩ := Option.isSome_iff_exists.1 hthis.2
    have hread : s.userTranslate false a = some p := Ram.walk_mono hp id nofun
    rw [hread, Option.map_some, h.inside (a - destination) (by omega) p (heq.symm ▸ hread)]
  · next hout =>
    cases hp : s.userTranslate false a with
    | none => rfl
    | some p =>
      rw [Option.map_some, Option.map_some, h.outside p fun i hi hwalk => ?_]
      have hsame := hsep.distinct (hallowed i hi).1 ha hwalk hp
      omega

theorem written_zero (s : Paging) (destination : Nat) (source : Bytes) : Written s s destination source 0 :=
  ⟨rfl, fun _ h => absurd h (Nat.not_lt_zero _), fun _ _ => rfl⟩

/-- The bytes of a range of a page's length lie at different places of their pages. -/
theorem distinct_of_length_le (hlength : length ≤ 4096) : Distinct s start length := by
  have hoffset : ∀ i p, s.userTranslate false (start + i) = some p → p % 4096 = (start + i) % 4096 := by
    intro i p hwalk
    unfold userTranslate at hwalk
    rw [walk_directory] at hwalk
    split at hwalk
    · rw [← Option.some.inj hwalk]
      have := pageOf_mod (s.pte (entryIndex (start + i)))
      omega
    · cases hwalk
  intro i j p hi hj hwalk hwalk'
  have := hoffset i p hwalk
  have := hoffset j p hwalk'
  omega

/-- `copy_to_user` refuses a range that the process may not write. -/
theorem copyToUser_refused (h : s.validateUserRange destination length .write = some false) :
    copyToUser destination (some source) length s = .ok (.error .efault, s) := by
  have hpos : length ≠ 0 := by
    rintro rfl
    cases h
  have hwpe : wpe (copyToUser destination (some source) length) (fun r t => r = .error .efault ∧ t = s) (fun _ => False) s := by
    rw [copyToUser, if_neg hpos, wpe_bind, wpe_of_eq_ok (checkRange_eq h)]
    exact ⟨rfl, rfl⟩
  obtain ⟨r, t, heq, rfl, rfl⟩ := hwpe.exists_ok
  exact heq

/-- `copy_to_user` writes the next bytes of a range that the process may write. -/
theorem copyToUser_next {more : Nat} (h : Written s t destination source count) (hvmm : s.vmmInitialized = true)
    (hfence : Fenced s destination length) (hdistinct : Distinct s destination length)
    (hallowed : ∀ i < length, s.Allowed .write (destination + i)) (hmore : count + more ≤ length)
    (hpart : ∀ i < more, part i = source (count + i)) :
    wpe (copyToUser (destination + count) (some part) more) (fun r u => r = .ok () ∧ Written s u destination source (count + more))
      (fun _ => False) t := by
  have hbase : kernelBase = 0xC0000000 := rfl
  unfold copyToUser
  split
  · next hzero => exact ⟨rfl, hzero ▸ h⟩
  · have hlast := (hallowed (count + more - 1) (by omega)).1
    have hvmm' : t.vmmInitialized = true := by rw [h.rest]; exact hvmm
    obtain ⟨b, hb, hiff⟩ := validateUserRange_eq hvmm' (destination + count) more .write
    obtain rfl : b = true := by
      refine hiff.2 fun i hi => ?_
      have hthis := hallowed (count + i) (by omega)
      rw [Nat.add_assoc]
      refine ⟨hthis.1, ?_⟩
      unfold userTranslate
      rw [h.translate_range hfence (by omega) (by omega) (by omega)]
      exact hthis.2
    rw [wpe_bind, wpe_of_eq_ok (checkRange_eq hb), if_pos rfl, wpe_bind,
      copyOutFrom_shift (by rwa [Nat.zero_add]) (by omega), Nat.add_zero]
    exact (copyOutFrom_spec hfence hdistinct h hmore hallowed).mono fun _ u hu => ⟨rfl, hu⟩

/-- `copy_to_user` writes a range that the process may write. -/
theorem copyToUser_spec (hvmm : s.vmmInitialized = true) (hfence : Fenced s destination length)
    (hdistinct : Distinct s destination length) (hallowed : ∀ i < length, s.Allowed .write (destination + i)) :
    wpe (copyToUser destination (some source) length) (fun r t => r = .ok () ∧ Written s t destination source length)
      (fun _ => False) s := by
  have hcopy := copyToUser_next (written_zero s destination source) hvmm hfence hdistinct hallowed (Nat.zero_add length).le
    fun i _ => (congrArg source (Nat.zero_add i)).symm
  rwa [Nat.zero_add] at hcopy

theorem Separate.fenced (hsep : Separate s) (hallowed : ∀ i < length, s.Allowed .write (destination + i)) :
    Fenced s destination length where
  directory hi hwalk := hsep.directory (hallowed _ hi).1 hwalk
  table {i j p} hi hj hwalk := by
    have hbase : kernelBase = 0xC0000000 := rfl
    have hlow := (hallowed j hj).1
    have hindex : (destination + j) / 2 ^ 22 < kernelPdeIndex := by
      show (destination + j) / 2 ^ 22 < 768
      omega
    obtain ⟨p, hp⟩ := Option.isSome_iff_exists.1 (hallowed j hj).2
    unfold userTranslate at hp
    rw [walk_directory] at hp
    split at hp
    · next hpass => exact hsep.table (hallowed i hi).1 hwalk hindex (present_of_passes hpass.1)
    · cases hp

theorem Separate.distinct_range (hsep : Separate s) (hallowed : ∀ i < length, s.Allowed .write (destination + i)) :
    Distinct s destination length := fun i j _ hi hj hwalk hwalk' =>
  Nat.add_left_cancel (hsep.distinct (hallowed i hi).1 (hallowed j hj).1 hwalk hwalk')

/-- What `validate_user_range`, `copy_from_user` and `copy_to_user` do. -/
theorem usercopy_contract (hvmm : s.vmmInitialized = true) :
    (∀ start length access, ∃ b, s.validateUserRange start length access = some b ∧
      (b = true ↔ length = 0 ∨ ∀ i < length, s.Allowed access (start + i))) ∧
    (∀ buffer source length, ∃ r buffer', copyFromUser (some buffer) source length s = .ok ((r, some buffer'), s) ∧
      (r = .ok () ↔ s.validateUserRange source length .read = some true) ∧
      (r = .ok () → (∀ i < length, s.userByte (source + i) = some (buffer' i)) ∧ ∀ i ≥ length, buffer' i = buffer i) ∧
      (r ≠ .ok () → r = .error .efault ∧ buffer' = buffer)) ∧
    (∀ destination source length, s.validateUserRange destination length .write = some false →
      copyToUser destination (some source) length s = .ok (.error .efault, s)) ∧
    (s.Separate → ∀ destination source length, s.validateUserRange destination length .write = some true →
      ∃ t, copyToUser destination (some source) length s = .ok (.ok (), t) ∧ t = { s with memory := t.memory } ∧
        (∀ a < kernelBase, t.userByte a =
          if destination ≤ a ∧ a < destination + length then some (source (a - destination)) else s.userByte a) ∧
        ∀ p, (∀ i < length, s.userTranslate false (destination + i) ≠ some p) → t.memory p = s.memory p) := by
  have hvalid : ∀ {start length access}, s.validateUserRange start length access = some true ↔
      ∀ i < length, s.Allowed access (start + i) := by
    intro start length access
    obtain ⟨b, hb, hiff⟩ := validateUserRange_eq hvmm start length access
    rw [hb, Option.some.injEq, hiff]
  refine ⟨fun start length access => ?_, fun buffer source length => ?_, fun _ _ _ => copyToUser_refused,
    fun hsep destination source length h => ?_⟩
  · obtain ⟨b, hb, hiff⟩ := validateUserRange_eq hvmm start length access
    refine ⟨b, hb, hiff.trans (or_iff_right_of_imp ?_).symm⟩
    rintro rfl i hi
    exact absurd hi (Nat.not_lt_zero i)
  · obtain ⟨⟨r, _⟩, _, heq, rfl, buffer', rfl, hcopy⟩ := (copyFromUser_spec hvmm buffer source length).exists_ok
    refine ⟨r, buffer', heq, ?_⟩
    rw [hvalid]
    split at hcopy
    · next hallowed =>
      obtain ⟨hr, hbytes⟩ := hcopy
      exact ⟨iff_of_true hr hallowed, fun _ => hbytes, fun hne => absurd hr hne⟩
    · next hallowed =>
      obtain ⟨rfl, rfl⟩ := hcopy
      exact ⟨iff_of_false nofun hallowed, nofun, fun _ => ⟨rfl, rfl⟩⟩
  · have hallowed := hvalid.1 h
    obtain ⟨_, t, heq, rfl, ht⟩ := (copyToUser_spec hvmm (hsep.fenced hallowed) (hsep.distinct_range hallowed) hallowed).exists_ok
    exact ⟨t, heq, ht.rest, fun a ha => ht.userByte_eq hsep hallowed ha, ht.outside⟩

/-! ### Two pages -/

/-- A page directory at `0x1000` with a table at `0x2000`, whose entries 1 and 2 are given. -/
def twoPages (first second : Nat) : Paging where
  pmm := Pmm.blank
  memory := ((Ram.setWord (fun _ => 0) 0x1000 0x2007).setWord 0x2004 first).setWord 0x2008 second
  cr3 := 0x1000
  vmmInitialized := true
  kernelPageDirectoryPhysical := 0x1000
  addressSpaceWindowBusy := false
  addressSpaceWindowIrqFlags := false
  interrupts := false

theorem word_twoPages {first second x : Nat} (hfirst : first < 2 ^ 32) (hsecond : second < 2 ^ 32) (hx : x % 4 = 0) :
    (twoPages first second).memory.word x =
      if x = 0x2008 then second else if x = 0x2004 then first else if x = 0x1000 then 0x2007 else 0 := by
  show ((((Ram.setWord (fun _ => 0) 0x1000 0x2007).setWord 0x2004 first).setWord 0x2008 second).word x) = _
  rw [Ram.word_setWord (by decide) hx hsecond, Ram.word_setWord (by decide) hx hfirst, Ram.word_setWord (by decide) hx (by decide),
    Ram.word_zero]

/-- The addresses of a process with two pages. -/
theorem userTranslate_twoPages (ha : a < kernelBase) (h : (twoPages 0x3007 0x4007).userTranslate false a = some p) :
    a / 4096 = 1 ∧ p = 0x3000 + a % 4096 ∨ a / 4096 = 2 ∧ p = 0x4000 + a % 4096 := by
  have hbase : kernelBase = 0xC0000000 := rfl
  have hword : ∀ x, x % 4 = 0 → (twoPages 0x3007 0x4007).memory.word x =
      if x = 0x2008 then 0x4007 else if x = 0x2004 then 0x3007 else if x = 0x1000 then 0x2007 else 0 :=
    fun x hx => word_twoPages (by decide) (by decide) hx
  have hpde : (twoPages 0x3007 0x4007).pde (a / 2 ^ 22) = if a / 2 ^ 22 = 0 then 0x2007 else 0 := by
    show (twoPages 0x3007 0x4007).memory.word (0x1000 + a / 2 ^ 22 * 4) = _
    rw [hword _ (by omega), if_neg (by omega), if_neg (by omega)]
    simp
  have hpte : (twoPages 0x3007 0x4007).pde (a / 2 ^ 22) = 0x2007 → (twoPages 0x3007 0x4007).pte (entryIndex a) =
      if a / 4096 % 1024 = 2 then 0x4007 else if a / 4096 % 1024 = 1 then 0x3007 else 0 := by
    intro hpde
    unfold pte entryAddress
    rw [entryIndex_div, entryIndex_mod, hpde, show pageOf 0x2007 = 0x2000 from rfl, hword _ (by omega)]
    have hsecond : 0x2000 + a / 4096 % 1024 * 4 = 0x2008 ↔ a / 4096 % 1024 = 2 := by omega
    have hfirst : 0x2000 + a / 4096 % 1024 * 4 = 0x2004 ↔ a / 4096 % 1024 = 1 := by omega
    simp only [hsecond, hfirst, show ¬ 0x2000 + a / 4096 % 1024 * 4 = 0x1000 by omega, if_false]
  unfold userTranslate at h
  rw [walk_directory] at h
  split at h
  · next hpass =>
    rw [hpde] at hpass hpte
    by_cases hzero : a / 2 ^ 22 = 0
    · rw [hpte (if_pos hzero)] at h hpass
      split at h
      · next hsecond => exact .inr ⟨by omega, (Option.some.inj h).symm⟩
      · next hsecond =>
        rw [if_neg hsecond] at hpass
        split at h
        · next hfirst => exact .inl ⟨by omega, (Option.some.inj h).symm⟩
        · next hfirst =>
          rw [if_neg hfirst] at hpass
          exact absurd hpass.2 (by decide)
    · rw [if_neg hzero] at hpass
      exact absurd hpass.1 (by decide)
  · cases h

theorem separate_twoPages : (twoPages 0x3007 0x4007).Separate where
  distinct ha hb h h' := by
    have hone := userTranslate_twoPages ha h
    have htwo := userTranslate_twoPages hb h'
    omega
  directory ha h := by
    have hone := userTranslate_twoPages ha h
    unfold pageOf directory
    show _ ≠ 0x1000
    omega
  table {a p i} ha h hi hpresent := by
    have hone := userTranslate_twoPages ha h
    have hpde : (twoPages 0x3007 0x4007).pde i = if i = 0 then 0x2007 else 0 := by
      show (twoPages 0x3007 0x4007).memory.word (0x1000 + i * 4) = _
      have hlow : i < 768 := hi
      rw [word_twoPages (by decide) (by decide) (by omega), if_neg (by omega), if_neg (by omega)]
      simp
    split at hpde
    · rw [hpde, show pageOf 0x2007 = 0x2000 from rfl]
      unfold pageOf
      omega
    · rw [hpde] at hpresent
      exact absurd hpresent (by decide)

/-- A byte is copied to a process with two pages. -/
theorem usercopy_contract_twoPages : ∃ t, (twoPages 0x3007 0x4007).validateUserRange 0x1FFF 2 .write = some true ∧
    copyToUser 0x1FFF (some fun i => UInt8.ofNat (i + 1)) 2 (twoPages 0x3007 0x4007) = .ok (.ok (), t) ∧
    t.userByte 0x1FFF = some 1 ∧ t.userByte 0x2000 = some 2 ∧ t.userByte 0x1000 = some 0 := by
  have hvalid : (twoPages 0x3007 0x4007).validateUserRange 0x1FFF 2 .write = some true := by decide +kernel
  obtain ⟨-, -, -, hcopy⟩ := usercopy_contract (s := twoPages 0x3007 0x4007) rfl
  obtain ⟨t, ht, -, hbytes, -⟩ := hcopy separate_twoPages 0x1FFF (fun i => UInt8.ofNat (i + 1)) 2 hvalid
  refine ⟨t, hvalid, ht, hbytes 0x1FFF (by decide), hbytes 0x2000 (by decide), (hbytes 0x1000 (by decide)).trans ?_⟩
  decide +kernel

/-- Both addresses lead to the same page, and a byte that is copied to the one is seen at the other. -/
theorem copyToUser_aliased : ∃ t, (twoPages 0x3007 0x3007).validateUserRange 0x1000 1 .write = some true ∧
    copyToUser 0x1000 (some fun _ => 1) 1 (twoPages 0x3007 0x3007) = .ok (.ok (), t) ∧
    (twoPages 0x3007 0x3007).userByte 0x2000 = some 0 ∧ t.userByte 0x2000 = some 1 :=
  ⟨_, by decide +kernel, rfl, by decide +kernel, by decide +kernel⟩

/-! ## Strings -/

/-- A string of the process starts here, and its NUL is byte `k`. -/
structure StringAt (s : Paging) (start k : Nat) : Prop where
  allowed : ∀ i ≤ k, s.Allowed .read (start + i)
  ends : s.userByte (start + k) = some 0
  before : ∀ i < k, s.userByte (start + i) ≠ some 0

/-- The first `count` bytes are in the buffer, and are not the end of the string. -/
structure Prefix (s : Paging) (start : Nat) (buffer d : Bytes) (count : Nat) : Prop where
  allowed : ∀ i < count, s.Allowed .read (start + i)
  copied : ∀ i < count, s.userByte (start + i) = some (d i)
  nonzero : ∀ i < count, d i ≠ 0
  rest : ∀ i ≥ count, d i = buffer i

variable {load : Nat → Mem Paging UInt8} {buffer d : Bytes} {index k maximumLength : Nat}

theorem Prefix.zero (s : Paging) (start : Nat) (buffer : Bytes) : Prefix s start buffer buffer 0 :=
  ⟨fun _ h => absurd h (Nat.not_lt_zero _), fun _ h => absurd h (Nat.not_lt_zero _), fun _ h => absurd h (Nat.not_lt_zero _),
    fun _ _ => rfl⟩

/-- No string ends in a prefix. -/
theorem Prefix.le_of_stringAt (h : Prefix s start buffer d index) (hk : StringAt s start k) : index ≤ k := by
  by_contra hlt
  refine h.nonzero k (by omega) (Option.some.inj ?_)
  rw [← h.copied k (by omega), hk.ends]

/-- One more byte is copied. -/
theorem Prefix.snoc (h : Prefix s start buffer d index) (hallowed : s.Allowed .read (start + index))
    (hb : s.userByte (start + index) = some b) (hne : b ≠ 0) : Prefix s start buffer (Function.update d index b) (index + 1) where
  allowed i hi := by
    rcases Nat.lt_succ_iff_lt_or_eq.1 hi with hi | rfl
    · exact h.allowed i hi
    · exact hallowed
  copied i hi := by
    rcases Nat.lt_succ_iff_lt_or_eq.1 hi with hi | rfl
    · rw [Function.update_of_ne hi.ne, h.copied i hi]
    · rw [Function.update_self, hb]
  nonzero i hi := by
    rcases Nat.lt_succ_iff_lt_or_eq.1 hi with hi | rfl
    · rw [Function.update_of_ne hi.ne]
      exact h.nonzero i hi
    · rwa [Function.update_self]
  rest i hi := by
    rw [Function.update_of_ne (by omega)]
    exact h.rest i (by omega)

/-- The string that ends behind a prefix is in the buffer. -/
structure Ended (s : Paging) (start : Nat) (buffer d : Bytes) (k : Nat) : Prop where
  string : StringAt s start k
  copied : ∀ i ≤ k, s.userByte (start + i) = some (d i)
  rest : ∀ i > k, d i = buffer i

theorem Prefix.ended (h : Prefix s start buffer d index) (hallowed : s.Allowed .read (start + index))
    (hb : s.userByte (start + index) = some 0) : Ended s start buffer (Function.update d index 0) index where
  string := by
    refine ⟨fun i hi => ?_, hb, fun i hi => ?_⟩
    · rcases Nat.lt_or_eq_of_le hi with hi | rfl
      · exact h.allowed i hi
      · exact hallowed
    · rw [h.copied i hi]
      exact fun heq => h.nonzero i hi (Option.some.inj heq)
  copied i hi := by
    rcases Nat.lt_or_eq_of_le hi with hi | rfl
    · rw [Function.update_of_ne hi.ne, h.copied i hi]
    · rw [Function.update_self, hb]
  rest i hi := by
    rw [Function.update_of_ne (Nat.ne_of_gt hi)]
    exact h.rest i (Nat.le_of_lt hi)

/-- The loop over a chunk finds the end of the string, or copies all of the chunk. -/
theorem copyChunkFrom_spec (hload : ∀ a b, s.Allowed .read a → s.userByte a = some b → load a s = .ok (b, s)) {offset : Nat}
    (h : Prefix s start buffer d (index + offset)) (hallowed : ∀ i < index + offset + left, s.Allowed .read (start + i)) :
    wpe (copyChunkFrom load (start + index) index left offset d)
      (fun r t => t = s ∧ if r.1 = true then ∃ k < index + offset + left, Ended s start buffer r.2 k
        else Prefix s start buffer r.2 (index + offset + left)) (fun _ => False) s := by
  have hbase : kernelBase = 0xC0000000 := rfl
  induction left generalizing offset d with
  | zero => exact ⟨rfl, by simpa using h⟩
  | succ left ih =>
    have hthis := hallowed (index + offset) (by omega)
    obtain ⟨b, hb⟩ := exists_userByte hthis
    have hread : load (add32 (start + index) offset) s = .ok (b, s) := by
      have hlow := hthis.1
      rw [add32_eq (by omega), Nat.add_assoc]
      exact hload _ b hthis hb
    rw [copyChunkFrom, wpe_bind, wpe_of_eq_ok hread]
    split
    · next hzero =>
      subst hzero
      exact ⟨rfl, by simpa using ⟨index + offset, by omega, h.ended hthis hb⟩⟩
    · next hne =>
      rw [show index + offset + (left + 1) = index + (offset + 1) + left by omega] at hallowed ⊢
      exact ih (h.snoc hthis hb hne) hallowed

/-- The bytes of a chunk are allowed together, as they lie on one page. -/
theorem allowed_of_page (hvmm : s.vmmInitialized = true) {b : Nat} (h : s.Allowed access a) (hb : b < kernelBase)
    (hpage : pageOf b = pageOf a) : s.Allowed access b := by
  refine ⟨hb, (pageAllows_iff hvmm hb).1 ?_⟩
  rw [hpage]
  exact (pageAllows_iff hvmm h.1).2 h.2

/-- The buffer has the bytes up to the first that the process may not read, or up to the limit. -/
structure Stopped (s : Paging) (start maximumLength : Nat) (buffer d : Bytes) (count : Nat) : Prop
    extends Prefix s start buffer d count where
  le : count ≤ maximumLength
  last : count < maximumLength → ¬ s.Allowed .read (start + count)

/-- What `copy_user_string` returns: the string is in the buffer, or there is no string of this length. -/
def StringResult (s : Paging) (start maximumLength : Nat) (buffer : Bytes) (r : Except Errno Unit × Bytes) : Prop :=
  (r.1 = .ok () ∧ ∃ k < maximumLength, Ended s start buffer r.2 k) ∨
  (r.1 = .error .efault ∧ ∃ count, Stopped s start maximumLength buffer r.2 count)

theorem StringAt.unique {k' : Nat} (h : StringAt s start k) (h' : StringAt s start k') : k = k' := by
  rcases Nat.lt_trichotomy k k' with hlt | heq | hgt
  · exact absurd h.ends (h'.before k hlt)
  · exact heq
  · exact absurd h'.ends (h.before k' hgt)

theorem Stopped.not_stringAt (h : Stopped s start maximumLength buffer d index) (hk : k < maximumLength) : ¬ StringAt s start k :=
  fun hstring =>
    have hle := h.toPrefix.le_of_stringAt hstring
    h.last (by omega) (hstring.allowed index hle)

/-- The result is given by the bytes of the process. -/
theorem StringResult.unique {r r' : Except Errno Unit × Bytes} (h : StringResult s start maximumLength buffer r)
    (h' : StringResult s start maximumLength buffer r') : r = r' := by
  obtain ⟨r, d⟩ := r
  obtain ⟨r', d'⟩ := r'
  rcases h with ⟨rfl, k, hk, h⟩ | ⟨rfl, n, h⟩
  · rcases h' with ⟨rfl, k', -, h'⟩ | ⟨rfl, n', h'⟩
    · obtain rfl := h.string.unique h'.string
      refine Prod.ext rfl (funext fun i => ?_)
      rcases Nat.lt_or_ge k i with hi | hi
      · exact (h.rest i hi).trans (h'.rest i hi).symm
      · exact Option.some.inj ((h.copied i hi).symm.trans (h'.copied i hi))
    · exact absurd h.string (h'.not_stringAt hk)
  · rcases h' with ⟨rfl, k', hk', h'⟩ | ⟨rfl, n', h'⟩
    · exact absurd h'.string (h.not_stringAt hk')
    · obtain rfl : n = n' := by
        have hle := h.le
        have hle' := h'.le
        rcases Nat.lt_trichotomy n n' with hlt | heq | hgt
        · exact absurd (h'.allowed n hlt) (h.last (by omega))
        · exact heq
        · exact absurd (h.allowed n' hgt) (h'.last (by omega))
      refine Prod.ext rfl (funext fun i => ?_)
      rcases Nat.lt_or_ge i n with hi | hi
      · exact Option.some.inj ((h.copied i hi).symm.trans (h'.copied i hi))
      · exact (h.rest i hi).trans (h'.rest i hi).symm

/-- The loop over the chunks copies the string, or finds out that there is none of this length. -/
theorem copyStringFrom_spec (hvmm : s.vmmInitialized = true)
    (hload : ∀ a b, s.Allowed .read a → s.userByte a = some b → load a s = .ok (b, s)) (hstart : start < kernelBase)
    (h : Prefix s start buffer d index) (hindex : index ≤ maximumLength) (hleft : maximumLength < index + left) :
    wpe (copyStringFrom load start maximumLength (kernelBase - start) left index d)
      (fun r t => t = s ∧ StringResult s start maximumLength buffer r) (fun _ => False) s := by
  have hbase : kernelBase = 0xC0000000 := rfl
  induction left generalizing index d with
  | zero => omega
  | succ left ih =>
    have hfail : (index < maximumLength → ¬ s.Allowed .read (start + index)) →
        StringResult s start maximumLength buffer (.error .efault, d) := fun hlast => .inr ⟨rfl, index, h, hindex, hlast⟩
    rw [copyStringFrom]
    split
    · next hlt =>
      split
      · next hremaining => exact ⟨rfl, hfail fun _ hallowed => absurd hallowed.1 (by omega)⟩
      · next hremaining =>
        have haddress : add32 start index = start + index := add32_eq (by omega)
        dsimp only
        rw [haddress]
        have hchunk : chunkSize (start + index) index maximumLength (kernelBase - start) =
            min (min (4096 - (start + index) % 4096) (maximumLength - index)) (kernelBase - start - index) := rfl
        generalize chunkSize (start + index) index maximumLength (kernelBase - start) = chunk at hchunk ⊢
        obtain ⟨b, hb, hiff⟩ := validateUserRange_eq hvmm (start + index) chunk .read
        rw [wpe_bind, wpe_of_eq_ok (checkRange_eq hb)]
        cases b with
        | false =>
          rw [if_neg Bool.false_ne_true]
          refine ⟨rfl, hfail fun _ hallowed => Bool.false_ne_true (hiff.2 fun i hi => ?_)⟩
          refine allowed_of_page hvmm hallowed (by omega) ?_
          unfold pageOf
          omega
        | true =>
          have hallowed : ∀ i < index + 0 + chunk, s.Allowed .read (start + i) := by
            intro i hi
            by_cases hbefore : i < index
            · exact h.allowed i hbefore
            · rw [show start + i = start + index + (i - index) by omega]
              exact hiff.1 rfl (i - index) (by omega)
          rw [if_pos rfl]
          refine (copyChunkFrom_spec hload h hallowed).bind fun r t ⟨ht, hr⟩ => ?_
          subst ht
          split at hr
          · next hended =>
            obtain ⟨k, hk, hr⟩ := hr
            rw [if_pos hended]
            exact ⟨rfl, .inl ⟨rfl, k, by omega, hr⟩⟩
          · next hended =>
            rw [if_neg hended]
            exact ih hr (by omega) (by omega)
    · next hge => exact ⟨rfl, hfail fun hlt => absurd hlt hge⟩

theorem copyUserStringWith_eq (hvmm : s.vmmInitialized = true)
    (hload : ∀ a b, s.Allowed .read a → s.userByte a = some b → load a s = .ok (b, s)) (hmaximum : 1 ≤ maximumLength)
    (buffer : Bytes) (start : Nat) : ∃ r d, copyUserStringWith load (some buffer) start maximumLength s = .ok ((r, some d), s) ∧
      StringResult s start maximumLength buffer (r, d) := by
  have hspec : wpe (copyUserStringWith load (some buffer) start maximumLength)
      (fun r t => t = s ∧ ∃ d, r.2 = some d ∧ StringResult s start maximumLength buffer (r.1, d)) (fun _ => False) s := by
    unfold copyUserStringWith
    dsimp only
    split
    · next hout =>
      have hstart : start ≥ kernelBase := hout.resolve_left (by omega)
      refine ⟨rfl, buffer, rfl, .inr ⟨rfl, 0, .zero s start buffer, Nat.zero_le _, fun _ hallowed => ?_⟩⟩
      exact absurd hallowed.1 (Nat.not_lt.2 hstart)
    · next hin =>
      rw [wpe_bind]
      refine (copyStringFrom_spec hvmm hload (by omega) (.zero s start buffer) (Nat.zero_le _) (by omega)).mono ?_
      exact fun r t ⟨ht, hr⟩ => ⟨ht, r.2, rfl, hr⟩
  obtain ⟨⟨r, _⟩, _, heq, rfl, d, rfl, hr⟩ := hspec.exists_ok
  exact ⟨r, d, heq, hr⟩

/-- Read a byte, and stop the machine if the process may not read it. -/
def loadAllowed (address : Nat) : Mem Paging UInt8 := do
  panicUnless ((← get).Allowed .read address) (.fault address)
  loadByte address

theorem loadAllowed_eq (hallowed : s.Allowed .read a) (h : s.userByte a = some b) : loadAllowed a s = .ok (b, s) := by
  show ((panicUnless (s.Allowed .read a) (.fault a) >>= fun _ => loadByte a) s) = _
  unfold panicUnless
  rw [if_pos hallowed]
  exact loadByte_eq h

/-- `copy_user_string` is the copy byte by byte: it succeeds if and only if a string that the process may read ends within the
limit, which is then in the buffer. It would not be stopped by a check of each byte that it reads. -/
theorem copyUserString_bytewise (hvmm : s.vmmInitialized = true) (buffer : Bytes) (start : Nat) (hmaximum : 1 ≤ maximumLength) :
    ∃ r d, copyUserString (some buffer) start maximumLength s = .ok ((r, some d), s) ∧
      copyUserStringWith loadAllowed (some buffer) start maximumLength s = .ok ((r, some d), s) ∧
      (r = .ok () ↔ ∃ k < maximumLength, StringAt s start k) ∧ (r ≠ .ok () → r = .error .efault) ∧
      (∀ k < maximumLength, StringAt s start k → ∀ i ≤ k, s.userByte (start + i) = some (d i)) ∧
      ∀ i ≥ maximumLength, d i = buffer i := by
  obtain ⟨r, d, heq, hr⟩ := copyUserStringWith_eq hvmm (fun _ _ _ => loadByte_eq) hmaximum buffer start
  obtain ⟨r', d', heq', hr'⟩ := copyUserStringWith_eq hvmm (fun _ _ => loadAllowed_eq) hmaximum buffer start
  obtain ⟨rfl, rfl⟩ := Prod.mk.inj (hr.unique hr')
  refine ⟨r, d, heq, heq', ?_⟩
  rcases hr with ⟨rfl, k, hk, h⟩ | ⟨rfl, n, h⟩
  · refine ⟨iff_of_true rfl ⟨k, hk, h.string⟩, fun hne => absurd rfl hne, fun k' _ hstring i hi => ?_,
      fun i hi => h.rest i (by omega)⟩
    exact h.copied i (hstring.unique h.string ▸ hi)
  · refine ⟨iff_of_false nofun fun ⟨k, hk, hstring⟩ => h.not_stringAt hk hstring, fun _ => rfl,
      fun k hk hstring => absurd hstring (h.not_stringAt hk), fun i hi => h.rest i (h.le.trans hi)⟩

/-- A string that ends at the last byte before a page that is not mapped. -/
theorem copyUserString_bytewise_twoPages : ∃ d, d 0 = 0 ∧ d 5 = 7 ∧
    copyUserString (some fun _ => 7) 0x2FFF 5 (twoPages 0x3007 0x4007) = .ok ((.ok (), some d), twoPages 0x3007 0x4007) := by
  have hstring : StringAt (twoPages 0x3007 0x4007) 0x2FFF 0 := by
    refine ⟨fun i hi => ?_, by decide +kernel, fun _ h => absurd h (Nat.not_lt_zero _)⟩
    obtain rfl := Nat.le_zero.1 hi
    decide +kernel
  obtain ⟨r, d, heq, -, hr, -, hcopied, hrest⟩ :=
    copyUserString_bytewise (s := twoPages 0x3007 0x4007) rfl (fun _ => 7) 0x2FFF (by decide : 1 ≤ 5)
  obtain rfl := hr.2 ⟨0, by decide, hstring⟩
  refine ⟨d, Option.some.inj ?_, hrest 5 le_rfl, heq⟩
  rw [← hcopied 0 (by decide) hstring 0 le_rfl]
  exact hstring.ends

end Paging

end MiniOrange

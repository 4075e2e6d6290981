import MiniOrange.Fs.Format
import MiniOrange.Mm.AddressSpace
import MiniOrange.Proc.Elf

/-!
# Loading an ELF image

`elf_load_image` of `elf.c` maps the pages of each segment in an address space and copies the bytes of the image there, through
a window of the active directory. A read past the end of the image stops the machine here, and so does a loop without an end;
these are told apart from the panics of the memory management (`LoadStop`), to be able to say that they do not happen.

The sums of the loops are given as a parameter, which is `add32` in the source.
-/

namespace MiniOrange.Elf

open Paging

/-- Why the loader does not return. -/
inductive LoadStop where
  | panic (panic : MemoryPanic)
  /-- A read past the end of the image. -/
  | outside (index : Nat)
  /-- A loop that does not end. -/
  | endless
  deriving DecidableEq

/-- A function of the loader. -/
abbrev Load := StateT Paging (Except LoadStop)

/-- A call into the memory management. -/
def mm {α : Type} (m : Mem Paging α) : Load α := fun s =>
  match m s with
  | .ok result => .ok result
  | .error panic => .error (.panic panic)

/-- `image[index]`. -/
def readImage (image : List UInt8) (index : Nat) : Load UInt8 :=
  match image[index]? with
  | some value => return value
  | none => throw (.outside index)

/-- `ELF_LOAD_WINDOW`. -/
def loadWindow : Nat := 0xD0C00000

/-- The loop of `zero_physical_page`, with `left` bytes to go. -/
def zeroBytesFrom : Nat → Nat → Mem Paging Unit
  | 0, _ => return ()
  | left + 1, index => do
    storeByte (loadWindow + index) 0
    zeroBytesFrom left (index + 1)

/-- The page at the window is unmapped again. -/
def closeWindow (physicalAddress : Nat) (panic : MemoryPanic) : Mem Paging Unit := do
  match ← vmmUnmap loadWindow with
  | none => throw panic
  | some unmapped => panicUnless (unmapped = physicalAddress) panic

/-- `zero_physical_page`. -/
def zeroPhysicalPage (physicalAddress : Nat) : Mem Paging Bool := do
  if ← vmmMap loadWindow physicalAddress 2 then
    zeroBytesFrom 4096 0
    closeWindow physicalAddress .elfWindow
    return true
  else return false

/-- The new page of `ensure_user_page`. -/
def enterZeroPage (space virtualAddress physical : Nat) (isWritable : Bool) : Mem Paging Bool := do
  if ← zeroPhysicalPage physical then vmmAddressSpaceMap space virtualAddress physical (if isWritable then 2 else 0)
  else return false

/-- `ensure_user_page`, with the physical page. -/
def ensureUserPage (space virtualAddress : Nat) (isWritable : Bool) : Mem Paging (Except Errno Nat) := do
  match ← vmmAddressSpaceQuery space virtualAddress with
  | some (physical, flags) =>
    if isWritable && !writable flags then
      if ← vmmAddressSpaceProtect space virtualAddress 2 then return .ok (pageOf physical) else return .error .eio
    else return .ok (pageOf physical)
  | none =>
    let physical ← pmmAlloc
    if physical = 0 then return .error .enomem
    else
      if ← enterZeroPage space virtualAddress physical isWritable then return .ok physical
      else
        panicUnless ((← pmmFree physical) = true) .elfPageRollback
        return .error .enomem

/-- The loop of `copy_to_physical`, with `left` bytes to go. -/
def copyBytesFrom (image : List UInt8) (fileCursor pageOffset : Nat) : Nat → Nat → Load Unit
  | 0, _ => return ()
  | left + 1, index => do
    let value ← readImage image (fileCursor + index)
    mm (storeByte (loadWindow + (pageOffset + index)) value)
    copyBytesFrom image fileCursor pageOffset left (index + 1)

/-- `copy_to_physical` from `&image[fileCursor]`. -/
def copyToPhysical (image : List UInt8) (physicalAddress pageOffset fileCursor length : Nat) : Load Bool := do
  if pageOffset > 4096 ∨ length > 4096 - pageOffset then return false
  else
    if ← mm (vmmMap loadWindow physicalAddress 2) then
      copyBytesFrom image fileCursor pageOffset length 0
      mm (closeWindow physicalAddress .elfCopyWindow)
      return true
    else return false

section
variable (add : Nat → Nat → Nat)

/-- The first loop of `load_program`. -/
def ensurePagesFrom (space lastPage : Nat) (isWritable : Bool) : Nat → Nat → Load (Except Errno Unit)
  | 0, _ => throw .endless
  | left + 1, page => do
    match ← mm (ensureUserPage space page isWritable) with
    | .error e => return .error e
    | .ok _ => if page = lastPage then return .ok () else ensurePagesFrom space lastPage isWritable left (add page 4096)

/-- The second loop of `load_program`. -/
def copyFileFrom (space : Nat) (image : List UInt8) : Nat → Nat → Nat → Nat → Load (Except Errno Unit)
  | 0, _, _, _ => throw .endless
  | left + 1, virtualCursor, fileCursor, remaining => do
    if remaining = 0 then return .ok ()
    else
      let pageOffset := virtualCursor % 4096
      let chunk := min (4096 - pageOffset) remaining
      match ← mm (vmmAddressSpaceQuery space (pageOf virtualCursor)) with
      | none => return .error .eio
      | some (physical, _) =>
        if ← copyToPhysical image (pageOf physical) pageOffset fileCursor chunk then
          copyFileFrom space image left (add virtualCursor chunk) (add fileCursor chunk) (remaining - chunk)
        else return .error .eio

/-- `load_program` with these sums. -/
def loadProgramWith (space : Nat) (image : List UInt8) (program : ProgramHeader) : Load (Except Errno Unit) := do
  let lastPage := pageOf (sub32 (add program.virtualAddress program.memorySize) 1)
  match ← ensurePagesFrom add space lastPage (program.flags.testBit 1) (2 ^ 20) (pageOf program.virtualAddress) with
  | .error e => return .error e
  | .ok _ => copyFileFrom add space image (program.fileSize + 1) program.virtualAddress program.fileOffset program.fileSize

end

/-- `load_program`. -/
def loadProgram (space : Nat) (image : List UInt8) (program : ProgramHeader) : Load (Except Errno Unit) :=
  loadProgramWith add32 space image program

/-- The loop of `elf_load_image` from `index`, with `left` entries to go. -/
def loadFrom (space : Nat) (image : List UInt8) (header : ElfHeader) : Nat → Nat → Load (Except Errno Unit)
  | 0, _ => return .ok ()
  | left + 1, index => do
    match programHeaderAt image header index with
    | none => throw (.outside image.length)
    | some program =>
      if ¬ program.Loads then loadFrom space image header left (index + 1)
      else
        match ← loadProgram space image program with
        | .error e => return .error e
        | .ok _ => loadFrom space image header left (index + 1)

/-- `elf_load_image`, with the entry point. -/
def elfLoadImage (space : Nat) (image : List UInt8) : Load (Except Errno Nat) := do
  if space = 0 then return .error .enoexec
  else
    match validateImage image, headerOf image with
    | some none, _ => return .error .enoexec
    | some (some entry), some header =>
      match ← loadFrom space image header header.programCount 0 with
      | .error e => return .error e
      | .ok _ => return .ok entry
    | _, _ => throw (.outside image.length)

/-! ## The pages of a segment -/

variable {α : Type} {image : List UInt8} {header : ElfHeader} {program p : ProgramHeader} {space left k page : Nat}
  {isWritable : Bool} {s : Paging}

variable {m : Mem Paging α} {Q : α → Paging → Prop} {add : Nat → Nat → Nat} {fileCursor : Nat}

@[simp] theorem wpe_mm {F : LoadStop → Prop} :
    wpe (mm m) Q F s ↔ wpe m Q (fun panic => F (.panic panic)) s := by
  unfold wpe mm
  cases m s with
  | error panic => exact Iff.rfl
  | ok result => exact Iff.rfl

/-- The pages of a segment in their order. -/
def pagesOf (program : ProgramHeader) : List Nat :=
  (List.range ((program.virtualAddress + program.memorySize - 1) / 4096 - program.virtualAddress / 4096 + 1)).map
    fun j => pageOf program.virtualAddress + j * 4096

/-- `ensure_user_page` of each page of a list, up to the first that fails. -/
def visitPages (space : Nat) (isWritable : Bool) : List Nat → Load (Except Errno Unit)
  | [] => return .ok ()
  | page :: pages => do
    match ← mm (ensureUserPage space page isWritable) with
    | .error e => return .error e
    | .ok _ => visitPages space isWritable pages

theorem nodup_pagesOf (program : ProgramHeader) : (pagesOf program).Nodup :=
  List.Nodup.map (fun i j h => by
    have h' : pageOf program.virtualAddress + i * 4096 = pageOf program.virtualAddress + j * 4096 := h
    omega) List.nodup_range

/-- The pages of a segment are those that have a byte of it. -/
theorem mem_pagesOf (hsize : program.memorySize ≠ 0) : page ∈ pagesOf program ↔
    ∃ a, program.virtualAddress ≤ a ∧ a < program.virtualAddress + program.memorySize ∧ pageOf a = page := by
  unfold pagesOf
  rw [List.mem_map]
  constructor
  · rintro ⟨j, hj, rfl⟩
    rw [List.mem_range] at hj
    refine ⟨max program.virtualAddress (pageOf program.virtualAddress + j * 4096), by omega, ?_, ?_⟩
    · unfold pageOf
      omega
    · unfold pageOf
      omega
  · rintro ⟨a, hlow, hhigh, rfl⟩
    refine ⟨a / 4096 - program.virtualAddress / 4096, List.mem_range.2 (by omega), ?_⟩
    unfold pageOf
    omega

/-- The loop over the pages visits them one after the other. -/
theorem ensurePagesFrom_eq (hleft : k < left) (hadd : ∀ j < k, add (page + j * 4096) 4096 = page + (j + 1) * 4096) :
    ensurePagesFrom add space (page + k * 4096) isWritable left page =
      visitPages space isWritable ((List.range (k + 1)).map fun j => page + j * 4096) := by
  induction k generalizing left page with
  | zero =>
    obtain ⟨left, rfl⟩ : ∃ n, left = n + 1 := ⟨left - 1, by omega⟩
    rw [ensurePagesFrom]
    simp only [Nat.zero_mul, Nat.add_zero, Nat.zero_add, if_true, List.range_one, List.map_cons, List.map_nil, visitPages]
  | succ k ih =>
    obtain ⟨left, rfl⟩ : ∃ n, left = n + 1 := ⟨left - 1, by omega⟩
    have hshift : ∀ j, page + (j + 1) * 4096 = page + 4096 + j * 4096 := fun j => by omega
    have hfirst : add page 4096 = page + 4096 := by simpa using hadd 0 (by omega)
    have hrest : ∀ j < k, add (page + 4096 + j * 4096) 4096 = page + 4096 + (j + 1) * 4096 := fun j hj => by
      rw [← hshift, ← hshift, hadd (j + 1) (by omega)]
    have hne : page ≠ page + 4096 + k * 4096 := by omega
    have htail : ((fun j => page + j * 4096) ∘ Nat.succ) = fun j => page + 4096 + j * 4096 := funext hshift
    have hih := ih (show k < left by omega) hrest
    rw [ensurePagesFrom, List.range_succ_eq_map, List.map_cons, List.map_map, visitPages, htail, ← hih, hshift]
    simp only [hne, if_false, hfirst, Nat.zero_mul, Nat.add_zero]

/-- The loop of `load_program` over the pages of a segment that is accepted. -/
theorem ensurePagesFrom_pagesOf {size : Nat} (hfits : Fits p size) (hsize : p.memorySize ≠ 0)
    (hadd : ∀ a b, a + b < 2 ^ 32 → add a b = a + b) :
    ensurePagesFrom add space (pageOf (sub32 (add p.virtualAddress p.memorySize) 1)) isWritable (2 ^ 20) (pageOf p.virtualAddress) =
      visitPages space isWritable (pagesOf p) := by
  have hhigh := hfits.high
  have hlast : pageOf (sub32 (add p.virtualAddress p.memorySize) 1) = pageOf p.virtualAddress +
      ((p.virtualAddress + p.memorySize - 1) / 4096 - p.virtualAddress / 4096) * 4096 := by
    rw [hadd _ _ (by omega), sub32_eq (by omega) (by omega)]
    unfold pageOf
    omega
  have hcount : (p.virtualAddress + p.memorySize - 1) / 4096 - p.virtualAddress / 4096 < 2 ^ 20 := by omega
  rw [hlast, ensurePagesFrom_eq hcount fun j hj => ?_]
  · rfl
  · rw [hadd _ _ (by unfold pageOf; omega)]
    omega

/-- The loop over the bytes of a segment does not depend on how sums wrap. -/
theorem copyFileFrom_eq {virtualCursor remaining : Nat} (hadd : ∀ a b, a + b < 2 ^ 32 → add a b = a + b)
    (hvirtual : virtualCursor + remaining < 2 ^ 32) (hfile : fileCursor + remaining < 2 ^ 32) :
    copyFileFrom add space image left virtualCursor fileCursor remaining =
      copyFileFrom (· + ·) space image left virtualCursor fileCursor remaining := by
  induction left generalizing virtualCursor fileCursor remaining with
  | zero => rfl
  | succ left ih =>
    have hchunk : min (4096 - virtualCursor % 4096) remaining ≤ remaining := Nat.min_le_right _ _
    rw [copyFileFrom, copyFileFrom]
    dsimp only
    rw [hadd _ _ (by omega), hadd _ _ (by omega), ih (by omega) (by omega)]

/-- The sums of `load_program` do not wrap. -/
theorem loadProgram_eq (hload : p.Loads) (hfits : Fits p image.length) (hsize : image.length < 2 ^ 32) :
    loadProgram space image p = loadProgramWith (· + ·) space image p := by
  have hhigh := hfits.high
  have hfile := hfits.file_le
  have himage := hfits.in_image
  have hadd : ∀ a b, a + b < 2 ^ 32 → add32 a b = a + b := fun _ _ => add32_eq
  unfold loadProgram loadProgramWith
  dsimp only
  rw [ensurePagesFrom_pagesOf hfits hload.2 hadd, ensurePagesFrom_pagesOf hfits hload.2 fun _ _ _ => rfl,
    copyFileFrom_eq hadd (by omega) (by omega)]

/-! ## Reads of the image -/

/-- The memory management has stopped the machine. -/
def IsPanic (stop : LoadStop) : Prop := ∃ panic, stop = .panic panic

theorem wpe_mm_of_forall (h : ∀ a t, Q a t) : wpe (mm m) Q IsPanic s := by
  rw [wpe_mm]
  exact wpe.of_forall m h fun panic => ⟨panic, rfl⟩

theorem visitPages_safe (pages : List Nat) : wpe (visitPages space isWritable pages) (fun _ _ => True) IsPanic s := by
  induction pages generalizing s with
  | nil => exact trivial
  | cons page pages ih =>
    rw [visitPages, wpe_bind]
    refine wpe_mm_of_forall fun r t => ?_
    cases r with
    | error e => exact trivial
    | ok _ => exact ih

theorem copyBytesFrom_safe {pageOffset index : Nat} (h : fileCursor + index + left ≤ image.length) :
    wpe (copyBytesFrom image fileCursor pageOffset left index) (fun _ _ => True) IsPanic s := by
  induction left generalizing index s with
  | zero => exact trivial
  | succ left ih =>
    have hread : readImage image (fileCursor + index) s = .ok (image[fileCursor + index], s) := by
      unfold readImage
      rw [List.getElem?_eq_getElem (by omega)]
      rfl
    rw [copyBytesFrom, wpe_bind, wpe_of_eq_ok hread, wpe_bind]
    exact wpe_mm_of_forall fun _ _ => ih (by omega)

theorem copyToPhysical_safe {physicalAddress pageOffset length : Nat} (h : fileCursor + length ≤ image.length) :
    wpe (copyToPhysical image physicalAddress pageOffset fileCursor length) (fun _ _ => True) IsPanic s := by
  unfold copyToPhysical
  split
  · exact trivial
  · rw [wpe_bind]
    refine wpe_mm_of_forall fun mapped t => ?_
    cases mapped with
    | false => exact trivial
    | true =>
      rw [if_pos rfl]
      refine (copyBytesFrom_safe (by omega)).bind fun _ u _ => ?_
      rw [wpe_bind]
      exact wpe_mm_of_forall fun _ _ => trivial

theorem copyFileFrom_safe {virtualCursor remaining : Nat} (h : fileCursor + remaining ≤ image.length) (hleft : remaining < left) :
    wpe (copyFileFrom (· + ·) space image left virtualCursor fileCursor remaining) (fun _ _ => True) IsPanic s := by
  induction left generalizing virtualCursor fileCursor remaining s with
  | zero => omega
  | succ left ih =>
    rw [copyFileFrom]
    split
    · exact trivial
    · next hne =>
      dsimp only
      have hchunk : min (4096 - virtualCursor % 4096) remaining ≤ remaining ∧ 0 < min (4096 - virtualCursor % 4096) remaining := by
        omega
      generalize min (4096 - virtualCursor % 4096) remaining = chunk at hchunk ⊢
      rw [wpe_bind]
      refine wpe_mm_of_forall fun found t => ?_
      cases found with
      | none => exact trivial
      | some found =>
        refine (copyToPhysical_safe (by omega)).bind fun copied u _ => ?_
        cases copied with
        | false => exact trivial
        | true => exact ih (by omega) (by omega)

theorem loadProgram_safe (hload : p.Loads) (hfits : Fits p image.length) (hsize : image.length < 2 ^ 32) :
    wpe (loadProgram space image p) (fun _ _ => True) IsPanic s := by
  rw [loadProgram_eq hload hfits hsize]
  unfold loadProgramWith
  dsimp only
  rw [ensurePagesFrom_pagesOf hfits hload.2 fun _ _ _ => rfl]
  refine (visitPages_safe _).bind fun r t _ => ?_
  cases r with
  | error e => exact trivial
  | ok _ => exact copyFileFrom_safe hfits.in_image (by omega)

/-- The loop of `elf_load_image` over the entries. -/
theorem loadFrom_safe (hsize : image.length < 2 ^ 32) {index : Nat}
    (hget : ∀ i < index + left, ∃ p, programHeaderAt image header i = some p ∧ (p.Loads → Fits p image.length)) :
    wpe (loadFrom space image header left index) (fun _ _ => True) IsPanic s := by
  induction left generalizing index s with
  | zero => exact trivial
  | succ left ih =>
    obtain ⟨p, hp, hfits⟩ := hget index (by omega)
    have hrest : ∀ t, wpe (loadFrom space image header left (index + 1)) (fun _ _ => True) IsPanic t := fun t =>
      ih fun i hi => hget i (by omega)
    rw [loadFrom, hp]
    dsimp only
    split
    · exact hrest s
    · next hload =>
      have hload := not_not.1 hload
      refine (loadProgram_safe hload (hfits hload) hsize).bind fun r t _ => ?_
      cases r with
      | error e => exact trivial
      | ok _ => exact hrest t

/-- What is known of the entries of an image that is accepted. -/
theorem accepted_entries (hsize : image.length < 2 ^ 32) {entry : Nat} (h : validateImage image = some (some entry)) :
    ∃ header, headerOf image = some header ∧ headerValid header image.length = true ∧
      Sound image.length header.entry (programs image header) ∧ entry = header.entry := by
  obtain ⟨r, hr, hiff⟩ := validateImage_eq hsize
  obtain rfl := Option.some.inj (hr.symm.trans h)
  obtain ⟨header, hheader, hvalid, haccepts, hentry⟩ := (hiff entry).1 rfl
  exact ⟨header, hheader, hvalid, ((accepts_iff fun _ => programs_lt).1 haccepts).1, hentry⟩

/-- `elf_load_image` reads the image inside its bounds, and its loops end. -/
theorem elfLoadImage_safe (hsize : image.length < 2 ^ 32) : wpe (elfLoadImage space image) (fun _ _ => True) IsPanic s := by
  unfold elfLoadImage
  split
  · exact trivial
  · obtain ⟨r, hr, -⟩ := validateImage_eq hsize
    cases r with
    | none =>
      rw [hr]
      exact trivial
    | some entry =>
      obtain ⟨header, hheader, hvalid, hsound, -⟩ := accepted_entries hsize hr
      rw [hr, hheader]
      refine (loadFrom_safe hsize fun i hi => ?_).bind fun result t _ => ?_
      · have hindex : i < header.programCount := by omega
        have hlength : i < (programs image header).length := by rwa [length_programs]
        refine ⟨(programs image header)[i], ?_, fits_of_valid (hsound.valid _ (List.getElem_mem hlength))⟩
        rw [programHeaderAt_eq hsize hvalid hindex, List.getElem?_eq_getElem hlength]
      · cases result with
        | error e => exact trivial
        | ok _ => exact trivial

/-- The image is only read inside its bounds, whatever it contains, and what is accepted is fit to be loaded. -/
theorem elf_memory_safe (hsize : image.length < 2 ^ 32) :
    (∃ r, validateImage image = some r) ∧ (∀ space s, wpe (elfLoadImage space image) (fun _ _ => True) IsPanic s) ∧
    ∀ entry, validateImage image = some (some entry) → ∃ header, headerOf image = some header ∧
      header.programOffset + header.programCount * 32 ≤ image.length ∧
      ((programs image header).Pairwise fun q p => q.Loads → p.Loads → Disjoint p q) ∧
      ∀ p ∈ programs image header, p.Loads →
        (0x1000 ≤ p.virtualAddress ∧ p.virtualAddress + p.memorySize ≤ 0xC0000000) ∧
        (p.fileOffset + p.fileSize ≤ image.length ∧ p.fileSize ≤ p.memorySize) ∧
        (∀ space, loadProgram space image p = loadProgramWith (· + ·) space image p) ∧
        (pagesOf p).Nodup ∧
        (∀ page, page ∈ pagesOf p ↔ ∃ a, p.virtualAddress ≤ a ∧ a < p.virtualAddress + p.memorySize ∧ pageOf a = page) ∧
        ∀ space isWritable, ensurePagesFrom add32 space (pageOf (sub32 (add32 p.virtualAddress p.memorySize) 1)) isWritable (2 ^ 20)
          (pageOf p.virtualAddress) = visitPages space isWritable (pagesOf p) := by
  obtain ⟨r, hr, -⟩ := validateImage_eq hsize
  refine ⟨⟨r, hr⟩, fun space s => elfLoadImage_safe hsize, fun entry h => ?_⟩
  obtain ⟨header, hheader, hvalid, hsound, -⟩ := accepted_entries hsize h
  refine ⟨header, hheader, (headerValid_table hvalid).1, hsound.disjoint, fun p hp hload => ?_⟩
  have hfits := fits_of_valid (hsound.valid p hp) hload
  exact ⟨⟨hfits.low, hfits.high⟩, ⟨hfits.in_image, hfits.file_le⟩, fun space => loadProgram_eq hload hfits hsize,
    nodup_pagesOf p, fun page => mem_pagesOf hload.2, fun space isWritable =>
      ensurePagesFrom_pagesOf hfits hload.2 fun _ _ => add32_eq⟩

/-- The segments of an image that is accepted. -/
theorem elf_memory_safe_pair : ∃ header, headerOf (imageOf [code, data]) = some header ∧
    ((programs (imageOf [code, data]) header).Pairwise fun q p => q.Loads → p.Loads → Disjoint p q) := by
  obtain ⟨-, -, haccepted⟩ := elf_memory_safe (show (imageOf [code, data]).length < 2 ^ 32 by decide)
  obtain ⟨header, hheader, -, hdisjoint, -⟩ := haccepted 0x1000 (by decide +kernel)
  exact ⟨header, hheader, hdisjoint⟩

end MiniOrange.Elf

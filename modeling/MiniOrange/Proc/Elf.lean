import MiniOrange.Bytes.Block
import MiniOrange.Logic.Word32

/-!
# Checking an ELF image

`validate_image` of `elf.c` looks at the header of an image and at each entry of its program header table, and compares the range
of each segment with those of the entries before it. A read past the end of the image is `none`. What it accepts is stated
for the list of the entries (`Accepts`); for each two segments with a size the comparison does not depend on
their order, but an empty segment is only compared as one of the entries before.
-/

namespace MiniOrange.Elf

/-! ## The checks -/

/-- The bytes of a structure in an image. -/
def bytesAt (image : List UInt8) (offset length : Nat) : Option Bytes :=
  if offset + length ≤ image.length then some fun i => image.getD (offset + i) 0 else none

/-- `struct elf_header`, as far as it is looked at. -/
structure ElfHeader where
  ident : Fin 16 → UInt8
  type : Nat
  machine : Nat
  version : Nat
  entry : Nat
  programOffset : Nat
  headerSize : Nat
  programEntrySize : Nat
  programCount : Nat

/-- `struct elf_program_header` without `physical_address`. -/
structure ProgramHeader where
  type : Nat
  fileOffset : Nat
  virtualAddress : Nat
  fileSize : Nat
  memorySize : Nat
  flags : Nat
  alignment : Nat
  deriving DecidableEq

/-- The fields of the header. -/
def ElfHeader.ofBytes (p : Bytes) : ElfHeader where
  ident i := p i
  type := readLe16 fun i => p (16 + i)
  machine := readLe16 fun i => p (18 + i)
  version := readLe32 fun i => p (20 + i)
  entry := readLe32 fun i => p (24 + i)
  programOffset := readLe32 fun i => p (28 + i)
  headerSize := readLe16 fun i => p (40 + i)
  programEntrySize := readLe16 fun i => p (42 + i)
  programCount := readLe16 fun i => p (44 + i)

/-- The fields of an entry of the table. -/
def ProgramHeader.ofBytes (p : Bytes) : ProgramHeader where
  type := readLe32 p
  fileOffset := readLe32 fun i => p (4 + i)
  virtualAddress := readLe32 fun i => p (8 + i)
  fileSize := readLe32 fun i => p (16 + i)
  memorySize := readLe32 fun i => p (20 + i)
  flags := readLe32 fun i => p (24 + i)
  alignment := readLe32 fun i => p (28 + i)

/-- `range_within`. -/
def rangeWithin (limit offset length : Nat) : Bool := offset ≤ limit && length ≤ limit - offset

/-- The header of an image. -/
def headerOf (image : List UInt8) : Option ElfHeader := (bytesAt image 0 52).map ElfHeader.ofBytes

/-- `program_header_at`. -/
def programHeaderAt (image : List UInt8) (header : ElfHeader) (index : Nat) : Option ProgramHeader :=
  (bytesAt image (add32 header.programOffset (index * 32)) 32).map ProgramHeader.ofBytes

/-- `program_range_valid`. -/
def programRangeValid (program : ProgramHeader) (imageSize : Nat) : Bool :=
  if program.type ≠ 1 then true
  else if program.memorySize = 0 then program.fileSize = 0
  else if program.fileSize > program.memorySize ∨ rangeWithin imageSize program.fileOffset program.fileSize = false ∨
      program.virtualAddress < 4096 ∨ program.virtualAddress ≥ 0xC0000000 ∨
      program.memorySize > 0xC0000000 - program.virtualAddress ∨ program.flags &&& 0xFFFFFFF8 ≠ 0 then false
  else if add32 program.virtualAddress program.memorySize > 0xC0000000 ∨ program.flags &&& 5 = 0 then false
  else if program.alignment > 1 ∧ (program.alignment &&& (program.alignment - 1) ≠ 0 ∨
      sub32 program.virtualAddress program.fileOffset &&& (program.alignment - 1) ≠ 0) then false
  else true

/-- `load_ranges_overlap`. -/
def loadRangesOverlap (left right : ProgramHeader) : Bool :=
  if left.type ≠ 1 ∨ right.type ≠ 1 then false
  else left.virtualAddress < add32 right.virtualAddress right.memorySize &&
    right.virtualAddress < add32 left.virtualAddress left.memorySize

/-- The checks of `validate_image` on the header. -/
def headerValid (header : ElfHeader) (imageSize : Nat) : Bool :=
  header.ident 0 = 0x7F && header.ident 1 = 0x45 && header.ident 2 = 0x4C && header.ident 3 = 0x46 && header.ident 4 = 1 &&
    header.ident 5 = 1 && header.ident 6 = 1 && header.type = 2 && header.machine = 3 && header.version = 1 &&
    header.headerSize = 52 && header.programEntrySize = 32 && header.programCount ≠ 0 && header.programCount ≤ 32 &&
    rangeWithin imageSize header.programOffset (header.programCount * 32)

/-- The segment has a size and is to be loaded. -/
def ProgramHeader.Loads (program : ProgramHeader) : Prop := program.type = 1 ∧ program.memorySize ≠ 0

instance (program : ProgramHeader) : Decidable program.Loads := inferInstanceAs (Decidable (_ ∧ _))

/-- The entry point lies in the segment, which can be executed. -/
def ProgramHeader.Enters (program : ProgramHeader) (entry : Nat) : Prop :=
  program.flags &&& 1 ≠ 0 ∧ entry ≥ program.virtualAddress ∧ sub32 entry program.virtualAddress < program.memorySize

instance (program : ProgramHeader) (entry : Nat) : Decidable (program.Enters entry) :=
  inferInstanceAs (Decidable (_ ∧ _ ∧ _))

/-- The inner loop of `validate_image`, with `left` entries before `index` to go. -/
def overlapsFrom (image : List UInt8) (header : ElfHeader) (program : ProgramHeader) (index : Nat) : Nat → Option Bool
  | 0 => some false
  | left + 1 => do
    if loadRangesOverlap program (← programHeaderAt image header (index - (left + 1))) then return true
    else overlapsFrom image header program index left

/-- The outer loop of `validate_image` from `index`, with `left` entries to go. -/
def validateFrom (image : List UInt8) (header : ElfHeader) : Nat → Nat → Bool → Bool → Option Bool
  | 0, _, hasLoad, entryIsExecutable => some (hasLoad && entryIsExecutable)
  | left + 1, index, hasLoad, entryIsExecutable => do
    let program ← programHeaderAt image header index
    if programRangeValid program image.length = false then return false
    else if ¬ program.Loads then validateFrom image header left (index + 1) hasLoad entryIsExecutable
    else
      if ← overlapsFrom image header program index index then return false
      else validateFrom image header left (index + 1) true (entryIsExecutable || decide (program.Enters header.entry))

/-- `validate_image` of an image that is not NULL: the entry point, if it is accepted. -/
def validateImage (image : List UInt8) : Option (Option Nat) :=
  if image.length < 52 then some none
  else do
    let header ← headerOf image
    if headerValid header image.length = false then return none
    else if ← validateFrom image header header.programCount 0 false false then return some header.entry
    else return none

/-! ## What is accepted -/

variable {image image' : List UInt8} {header : ElfHeader} {program p q : ProgramHeader} {ps qs : List ProgramHeader}
  {size entry index left : Nat}

/-- The bytes of an entry of the table. -/
def tableEntry (image : List UInt8) (header : ElfHeader) (index : Nat) : List UInt8 :=
  (image.drop (header.programOffset + index * 32)).take 32

/-- The program header table. -/
def programTable (image : List UInt8) (header : ElfHeader) : List (List UInt8) :=
  (List.range header.programCount).map (tableEntry image header)

/-- The entries of the table. -/
def programs (image : List UInt8) (header : ElfHeader) : List ProgramHeader :=
  (programTable image header).map fun bytes => .ofBytes fun i => bytes.getD i 0

/-- What `validate_image` wants of the entries. -/
structure Accepts (size entry : Nat) (ps : List ProgramHeader) : Prop where
  valid : ∀ p ∈ ps, programRangeValid p size = true
  enters : ∃ p ∈ ps, p.Loads ∧ p.Enters entry
  apart : ps.Pairwise fun before p => p.Loads → loadRangesOverlap p before = false

theorem rangeWithin_iff {limit offset length : Nat} : rangeWithin limit offset length = true ↔ offset + length ≤ limit := by
  unfold rangeWithin
  rw [Bool.and_eq_true, decide_eq_true_eq, decide_eq_true_eq]
  omega

theorem ElfHeader.ofBytes_congr {a b : Bytes} (h : ∀ i < 52, a i = b i) : ofBytes a = ofBytes b := by
  have hhalf : ∀ k ≤ 44, readLe16 (fun i => a (k + i)) = readLe16 fun i => b (k + i) := fun k hk =>
    readLe16_congr fun i hi => h (k + i) (by omega)
  have hword : ∀ k ≤ 28, readLe32 (fun i => a (k + i)) = readLe32 fun i => b (k + i) := fun k hk =>
    readLe32_congr fun i hi => h (k + i) (by omega)
  have hident : (fun i : Fin 16 => a i) = fun i : Fin 16 => b i := funext fun i => h i (by have := i.isLt; omega)
  unfold ofBytes
  rw [hident, hhalf 16 (by decide), hhalf 18 (by decide), hword 20 (by decide), hword 24 (by decide), hword 28 (by decide),
    hhalf 40 (by decide), hhalf 42 (by decide), hhalf 44 (by decide)]

theorem ProgramHeader.ofBytes_congr {a b : Bytes} (h : ∀ i < 32, a i = b i) : ofBytes a = ofBytes b := by
  have hword : ∀ k ≤ 28, readLe32 (fun i => a (k + i)) = readLe32 fun i => b (k + i) := fun k hk =>
    readLe32_congr fun i hi => h (k + i) (by omega)
  unfold ofBytes
  rw [readLe32_congr fun i hi => h i (by omega), hword 4 (by decide), hword 8 (by decide), hword 16 (by decide),
    hword 20 (by decide), hword 24 (by decide), hword 28 (by decide)]

/-- The table lies in the image. -/
theorem headerValid_table (h : headerValid header size = true) :
    header.programOffset + header.programCount * 32 ≤ size ∧ header.programCount ≤ 32 := by
  simp only [headerValid, Bool.and_eq_true, decide_eq_true_eq] at h
  exact ⟨rangeWithin_iff.1 h.2, h.1.2⟩

/-- An entry of the table is read where it lies. -/
theorem programHeaderAt_eq (hsize : image.length < 2 ^ 32) (hvalid : headerValid header image.length = true)
    (hindex : index < header.programCount) : programHeaderAt image header index = (programs image header)[index]? := by
  obtain ⟨htable, -⟩ := headerValid_table hvalid
  have hoffset : add32 header.programOffset (index * 32) = header.programOffset + index * 32 := add32_eq (by omega)
  unfold programHeaderAt bytesAt
  rw [hoffset, if_pos (by omega), Option.map_some]
  simp only [programs, programTable, List.map_map, List.getElem?_map, List.getElem?_range hindex, Option.map_some,
    Function.comp_apply]
  refine congrArg some (ProgramHeader.ofBytes_congr fun i hi => ?_)
  simp [tableEntry, List.getD_eq_getElem?_getD, hi, List.getElem?_drop]

theorem length_programs (image : List UInt8) (header : ElfHeader) : (programs image header).length = header.programCount := by
  simp [programs, programTable]

/-- The inner loop compares a segment with those before it. -/
theorem overlapsFrom_eq {before : List ProgramHeader} (xs ys : List ProgramHeader) (hget : ∀ i < before.length, programHeaderAt image header i = before[i]?)
    (hbefore : before = xs ++ ys) : ∃ b, overlapsFrom image header program before.length ys.length = some b ∧
      (b = false ↔ ∀ q ∈ ys, loadRangesOverlap program q = false) := by
  induction ys generalizing xs with
  | nil => exact ⟨false, rfl, by simp⟩
  | cons y ys ih =>
    obtain ⟨b, hb, hiff⟩ := ih (xs ++ [y]) (by simp [hbefore])
    have hindex : before.length - (ys.length + 1) = xs.length := by
      rw [hbefore, List.length_append, List.length_cons]
      omega
    have hread : programHeaderAt image header (before.length - (ys.length + 1)) = some y := by
      rw [hindex, hget _ (by simp [hbefore]), hbefore]
      simp
    rw [List.length_cons, overlapsFrom, hread]
    simp only [Option.bind_eq_bind, Option.bind_some, List.forall_mem_cons]
    cases loadRangesOverlap program y with
    | true => exact ⟨true, rfl, by simp⟩
    | false => exact ⟨b, hb, by simp [hiff]⟩

/-- What the outer loop wants of the entries that are left. -/
structure Admits (size entry : Nat) (before rest : List ProgramHeader) (hasLoad entryIsExecutable : Bool) : Prop where
  valid : ∀ p ∈ rest, programRangeValid p size = true
  loads : hasLoad = true ∨ ∃ p ∈ rest, p.Loads
  enters : entryIsExecutable = true ∨ ∃ p ∈ rest, p.Loads ∧ p.Enters entry
  apart : rest.Pairwise fun q p => p.Loads → loadRangesOverlap p q = false
  apart_before : ∀ p ∈ rest, ∀ q ∈ before, p.Loads → loadRangesOverlap p q = false

/-- A segment is compared with those before it; an entry that is not loaded is passed. -/
theorem admits_cons {before rest : List ProgramHeader} {hasLoad entryIsExecutable : Bool} :
    Admits size entry before (p :: rest) hasLoad entryIsExecutable ↔
      programRangeValid p size = true ∧ (p.Loads → ∀ q ∈ before, loadRangesOverlap p q = false) ∧
        Admits size entry (before ++ [p]) rest (hasLoad || decide p.Loads)
          (entryIsExecutable || decide (p.Loads ∧ p.Enters entry)) := by
  have hloads : ((hasLoad || decide p.Loads) = true ∨ ∃ q ∈ rest, q.Loads) ↔ hasLoad = true ∨ ∃ q ∈ p :: rest, q.Loads := by
    simp [or_assoc]
  have henters : ((entryIsExecutable || decide (p.Loads ∧ p.Enters entry)) = true ∨ ∃ q ∈ rest, q.Loads ∧ q.Enters entry) ↔
      entryIsExecutable = true ∨ ∃ q ∈ p :: rest, q.Loads ∧ q.Enters entry := by
    simp [or_assoc]
  constructor
  · rintro ⟨hvalid, hload, henter, hapart, hbefore⟩
    rw [List.forall_mem_cons] at hvalid hbefore
    rw [List.pairwise_cons] at hapart
    refine ⟨hvalid.1, fun hp q hq => hbefore.1 q hq hp, hvalid.2, hloads.2 hload, henters.2 henter, hapart.2,
      fun x hx q hq hxload => ?_⟩
    rcases List.mem_append.1 hq with hq | hq
    · exact hbefore.2 x hx q hq hxload
    · rw [List.mem_singleton.1 hq]
      exact hapart.1 x hx hxload
  · rintro ⟨hrange, hclear, hvalid, hload, henter, hapart, hbefore⟩
    refine ⟨List.forall_mem_cons.2 ⟨hrange, hvalid⟩, hloads.1 hload, henters.1 henter,
      List.pairwise_cons.2 ⟨fun x hx => ?_, hapart⟩,
      List.forall_mem_cons.2 ⟨fun q hq hp => hclear hp q hq, fun x hx q hq => hbefore x hx q (List.mem_append_left _ hq)⟩⟩
    exact hbefore x hx p (List.mem_append_right _ (List.mem_singleton_self p))

/-- The outer loop from an entry on. -/
theorem validateFrom_eq (before rest : List ProgramHeader) (hget : ∀ i < ps.length, programHeaderAt image header i = ps[i]?)
    (hps : ps = before ++ rest) (hasLoad entryIsExecutable : Bool) :
    ∃ b, validateFrom image header rest.length before.length hasLoad entryIsExecutable = some b ∧
      (b = true ↔ Admits image.length header.entry before rest hasLoad entryIsExecutable) := by
  induction rest generalizing before hasLoad entryIsExecutable with
  | nil =>
    refine ⟨_, rfl, ?_⟩
    rw [Bool.and_eq_true]
    exact ⟨fun h => ⟨nofun, .inl h.1, .inl h.2, .nil, nofun⟩,
      fun h => ⟨h.loads.resolve_right nofun, h.enters.resolve_right nofun⟩⟩
  | cons p rest ih =>
    have hread : programHeaderAt image header before.length = some p := by
      rw [hget _ (by simp [hps]), hps]
      simp
    have hnext : before.length + 1 = (before ++ [p]).length := by simp
    have hps' : ps = (before ++ [p]) ++ rest := by simp [hps]
    rw [List.length_cons, validateFrom, hread]
    simp only [Option.bind_eq_bind, Option.bind_some]
    split
    · next hinvalid =>
      refine ⟨false, rfl, ⟨nofun, fun h => ?_⟩⟩
      rw [h.valid p List.mem_cons_self] at hinvalid
      cases hinvalid
    · next hvalid =>
      rw [Bool.not_eq_false] at hvalid
      split
      · next hp =>
        rw [hnext, admits_cons]
        obtain ⟨b, hb, hiff⟩ := ih _ hps' hasLoad entryIsExecutable
        exact ⟨b, hb, by simp [hiff, hvalid, hp]⟩
      · next hp =>
        rw [not_not] at hp
        simp only [admits_cons, hp, decide_true, Bool.or_true, true_and, true_implies]
        have hbefore : ∀ i < before.length, programHeaderAt image header i = before[i]? := fun i hi => by
          rw [hget i (by rw [hps, List.length_append]; omega), hps, List.getElem?_append_left hi]
        obtain ⟨b, hb, hiff⟩ : ∃ b, overlapsFrom image header p before.length before.length = some b ∧
          (b = false ↔ ∀ q ∈ before, loadRangesOverlap p q = false) := overlapsFrom_eq [] before hbefore rfl
        rw [hb]
        simp only [Option.bind_some]
        cases b with
        | true => exact ⟨false, rfl, ⟨nofun, fun h => absurd (hiff.2 h.2.1) (by decide)⟩⟩
        | false =>
          rw [hnext]
          obtain ⟨b', hb', hiff'⟩ := ih _ hps' true (entryIsExecutable || decide (p.Enters header.entry))
          exact ⟨b', hb', hiff'.trans ⟨fun h => ⟨hvalid, hiff.1 rfl, h⟩, fun h => h.2.2⟩⟩

/-- What `validate_image` accepts; it does not read past the end of the image. -/
theorem validateImage_eq (hsize : image.length < 2 ^ 32) : ∃ r, validateImage image = some r ∧
    ∀ entry, r = some entry ↔ ∃ header, headerOf image = some header ∧ headerValid header image.length = true ∧
      Accepts image.length header.entry (programs image header) ∧ entry = header.entry := by
  unfold validateImage
  split
  · next hshort =>
    have hnone : headerOf image = none := by
      unfold headerOf bytesAt
      rw [if_neg (by omega)]
      rfl
    exact ⟨none, rfl, fun entry => ⟨nofun, fun ⟨_, h, _⟩ => absurd (hnone.symm.trans h) nofun⟩⟩
  · next hlong =>
    obtain ⟨header, hheader⟩ : ∃ header, headerOf image = some header := by
      unfold headerOf bytesAt
      rw [if_pos (by omega)]
      exact ⟨_, rfl⟩
    rw [hheader]
    simp only [Option.bind_eq_bind, Option.bind_some, Option.some.injEq, exists_eq_left']
    split
    · next hinvalid => exact ⟨none, rfl, fun entry => ⟨nofun, fun h => absurd (h.1.symm.trans hinvalid) nofun⟩⟩
    · next hvalid =>
      rw [Bool.not_eq_false] at hvalid
      have hget : ∀ i < (programs image header).length, programHeaderAt image header i = (programs image header)[i]? :=
        fun i hi => programHeaderAt_eq hsize hvalid (length_programs image header ▸ hi)
      obtain ⟨b, hb, hiff⟩ := validateFrom_eq [] (programs image header) hget rfl false false
      rw [length_programs, List.length_nil] at hb
      rw [hb]
      have haccepts : Admits image.length header.entry [] (programs image header) false false ↔
          Accepts image.length header.entry (programs image header) :=
        ⟨fun h => ⟨h.valid, h.enters.resolve_left nofun, h.apart⟩,
          fun h => ⟨h.valid, .inr (h.enters.imp fun _ h => ⟨h.1, h.2.1⟩), .inr h.enters, h.apart, nofun⟩⟩
      rw [haccepts] at hiff
      simp only [Option.bind_some]
      cases b with
      | true => exact ⟨_, rfl, fun entry => by simp [hvalid, hiff.1 rfl, eq_comm]⟩
      | false => exact ⟨_, rfl, fun entry => ⟨nofun, fun h => absurd (hiff.2 h.2.1) nofun⟩⟩

/-! ## The ranges of the segments -/

/-- What is known of a segment of an image that is accepted. -/
structure Fits (p : ProgramHeader) (size : Nat) : Prop where
  file_le : p.fileSize ≤ p.memorySize
  in_image : p.fileOffset + p.fileSize ≤ size
  low : 4096 ≤ p.virtualAddress
  high : p.virtualAddress + p.memorySize ≤ 0xC0000000

theorem fits_of_valid (h : programRangeValid p size = true) (hp : p.Loads) : Fits p size := by
  unfold programRangeValid at h
  rw [if_neg (not_not.2 hp.1), if_neg hp.2] at h
  split at h
  · cases h
  · next hrange =>
    simp only [not_or, Bool.not_eq_false, rangeWithin_iff] at hrange
    obtain ⟨hfile, himage, hlow, hhigh, hend, -⟩ := hrange
    exact ⟨by omega, himage, by omega, by omega⟩

/-- The ranges of two segments with a size do not meet. -/
def Disjoint (p q : ProgramHeader) : Prop :=
  p.virtualAddress + p.memorySize ≤ q.virtualAddress ∨ q.virtualAddress + q.memorySize ≤ p.virtualAddress

/-- The address of an empty segment lies inside the range of another. -/
def Inside (q p : ProgramHeader) : Prop :=
  q.type = 1 ∧ q.memorySize = 0 ∧ p.virtualAddress < q.virtualAddress ∧ q.virtualAddress < p.virtualAddress + p.memorySize

/-- The comparison of a segment with one before it. -/
theorem overlap_iff (hp : p.Loads) (hfits : Fits p size) (hq : q.virtualAddress < 2 ^ 32) (hvalid : q.Loads → Fits q size) :
    loadRangesOverlap p q = false ↔ (q.Loads → Disjoint p q) ∧ ¬ Inside q p := by
  have hend := hfits.high
  have hpend : add32 p.virtualAddress p.memorySize = p.virtualAddress + p.memorySize := add32_eq (by omega)
  unfold loadRangesOverlap ProgramHeader.Loads Disjoint Inside
  by_cases htype : q.type = 1
  · rw [if_neg (by simp [hp.1, htype]), hpend, Bool.and_eq_false_iff, decide_eq_false_iff_not, decide_eq_false_iff_not]
    by_cases hempty : q.memorySize = 0
    · have hqend : add32 q.virtualAddress q.memorySize = q.virtualAddress := by rw [hempty]; exact add32_eq (by omega)
      rw [hqend]
      simp only [htype, hempty, ne_eq, not_true_eq_false, and_false, false_implies, true_and, not_and]
      omega
    · have hq' := (hvalid ⟨htype, hempty⟩).high
      rw [add32_eq (by omega)]
      simp only [htype, hempty, ne_eq, not_false_eq_true, and_self, true_implies, false_and, and_false, and_true]
      omega
  · simp [htype]

/-- What is wanted of the entries in any order. -/
structure Sound (size entry : Nat) (ps : List ProgramHeader) : Prop where
  valid : ∀ p ∈ ps, programRangeValid p size = true
  enters : ∃ p ∈ ps, p.Loads ∧ p.Enters entry
  disjoint : ps.Pairwise fun q p => q.Loads → p.Loads → Disjoint p q

/-- No empty segment stands before the segment in whose range its address lies. -/
def Clear (ps : List ProgramHeader) : Prop := ps.Pairwise fun q p => p.Loads → ¬ Inside q p

/-- What `validate_image` wants, with what depends on the order apart. -/
theorem accepts_iff (hwords : ∀ p ∈ ps, p.virtualAddress < 2 ^ 32) : Accepts size entry ps ↔ Sound size entry ps ∧ Clear ps := by
  have hboth : (∀ p ∈ ps, programRangeValid p size = true) →
      ((ps.Pairwise fun q p => p.Loads → loadRangesOverlap p q = false) ↔
        (ps.Pairwise fun q p => q.Loads → p.Loads → Disjoint p q) ∧ Clear ps) := by
    intro hvalid
    rw [Clear, ← List.pairwise_and_iff]
    refine List.Pairwise.iff_of_mem fun {q p} hq hp => ?_
    have hiff := fun hload : p.Loads => overlap_iff hload (fits_of_valid (hvalid p hp) hload) (hwords q hq)
      fun hload' => fits_of_valid (hvalid q hq) hload'
    constructor
    · exact fun h => ⟨fun hq' hp' => ((hiff hp').1 (h hp')).1 hq', fun hp' => ((hiff hp').1 (h hp')).2⟩
    · exact fun h hp' => (hiff hp').2 ⟨fun hq' => h.1 hq' hp', h.2 hp'⟩
  constructor
  · intro h
    obtain ⟨hdisjoint, hclear⟩ := (hboth h.valid).1 h.apart
    exact ⟨⟨h.valid, h.enters, hdisjoint⟩, hclear⟩
  · intro ⟨h, hclear⟩
    exact ⟨h.valid, h.enters, (hboth h.valid).2 ⟨h.disjoint, hclear⟩⟩

theorem Sound.perm (h : Sound size entry ps) (hperm : ps.Perm qs) : Sound size entry qs where
  valid p hp := h.valid p (hperm.mem_iff.2 hp)
  enters := by
    obtain ⟨p, hp, henters⟩ := h.enters
    exact ⟨p, hperm.mem_iff.1 hp, henters⟩
  disjoint := (hperm.pairwise_iff fun {q p} h hp hq => (h hq hp).symm).1 h.disjoint

theorem programs_lt (hp : p ∈ programs image header) : p.virtualAddress < 2 ^ 32 := by
  obtain ⟨bytes, -, rfl⟩ := List.mem_map.1 hp
  exact readLe32_lt fun i => bytes.getD (8 + i) 0

/-! ## The order of the table -/

/-- The program header table is written in another order, and nothing else is changed. -/
structure Reordered (image image' : List UInt8) : Prop where
  length : image'.length = image.length
  header : ∀ i < 52, image'[i]? = image[i]?
  outside : ∀ header, headerOf image = some header → ∀ i,
    i < header.programOffset ∨ header.programOffset + header.programCount * 32 ≤ i → image'[i]? = image[i]?
  table : ∀ header, headerOf image = some header → (programTable image' header).Perm (programTable image header)

theorem Reordered.headerOf_eq (h : Reordered image image') : headerOf image' = headerOf image := by
  unfold headerOf bytesAt
  rw [h.length]
  split
  · refine congrArg some (ElfHeader.ofBytes_congr fun i hi => ?_)
    rw [List.getD_eq_getElem?_getD, List.getD_eq_getElem?_getD, Nat.zero_add, h.header i hi]
  · rfl

/-- Two results that are the same value or nothing. -/
theorem eq_iff_of_some_iff {r r' : Option Nat} {e : Nat} {P P' : Prop} (h : ∀ x, r = some x ↔ P ∧ x = e)
    (h' : ∀ x, r' = some x ↔ P' ∧ x = e) : r' = r ↔ (P' ↔ P) := by
  constructor
  · rintro rfl
    exact ⟨fun hp => ((h e).1 ((h' e).2 ⟨hp, rfl⟩)).1, fun hp => ((h' e).1 ((h e).2 ⟨hp, rfl⟩)).1⟩
  · intro hiff
    refine Option.ext fun x => ?_
    rw [h x, h' x, hiff]

/-- An order of the table is accepted if and only if another is, unless the image is sound and an empty segment stands before the
segment in whose range it lies in one of the two orders only. -/
theorem validateImage_reordered_iff (hsize : image.length < 2 ^ 32) (h : Reordered image image') :
    validateImage image' = validateImage image ↔ ∀ header, headerOf image = some header →
      headerValid header image.length = true → Sound image.length header.entry (programs image header) →
      (Clear (programs image' header) ↔ Clear (programs image header)) := by
  have hsize' : image'.length < 2 ^ 32 := h.length ▸ hsize
  obtain ⟨r, hr, haccepted⟩ := validateImage_eq hsize
  obtain ⟨r', hr', haccepted'⟩ := validateImage_eq hsize'
  rw [hr, hr', Option.some.injEq]
  simp only [h.headerOf_eq, h.length] at haccepted'
  cases hheader : headerOf image with
  | none =>
    simp only [hheader, reduceCtorEq, false_and, exists_false, iff_false] at haccepted haccepted'
    simp [Option.eq_none_iff_forall_ne_some.2 haccepted, Option.eq_none_iff_forall_ne_some.2 haccepted']
  | some header =>
  simp only [hheader, Option.some.injEq, exists_eq_left', forall_eq'] at haccepted haccepted' ⊢
  simp only [← and_assoc] at haccepted haccepted'
  have hperm : (programs image' header).Perm (programs image header) := (h.table header hheader).map _
  have hsound : Sound image.length header.entry (programs image' header) ↔
      Sound image.length header.entry (programs image header) := ⟨fun h => h.perm hperm, fun h => h.perm hperm.symm⟩
  have hlt : ∀ p ∈ programs image header, p.virtualAddress < 2 ^ 32 := fun _ => programs_lt
  have hlt' : ∀ p ∈ programs image' header, p.virtualAddress < 2 ^ 32 := fun _ => programs_lt
  rw [eq_iff_of_some_iff haccepted haccepted', accepts_iff hlt, accepts_iff hlt', hsound]
  tauto

/-- The bytes of an entry of a table. -/
def ProgramHeader.bytes (p : ProgramHeader) : List UInt8 :=
  [p.type, p.fileOffset, p.virtualAddress, 0, p.fileSize, p.memorySize, p.flags, p.alignment].flatMap fun word =>
    (List.range 4).map (leByte word)

/-- An image that starts at `0x1000`, with its table behind the header. -/
def imageOf (ps : List ProgramHeader) : List UInt8 :=
  [0x7F, 0x45, 0x4C, 0x46, 1, 1, 1, 0, 0, 0, 0, 0, 0, 0, 0, 0, 2, 0, 3, 0, 1, 0, 0, 0, 0, 0x10, 0, 0, 52, 0, 0, 0, 0, 0, 0, 0,
    0, 0, 0, 0, 52, 0, 32, 0] ++ (List.range 2).map (leByte ps.length) ++ [0, 0, 0, 0, 0, 0] ++ ps.flatMap (·.bytes)

/-- Two pages that can be executed. -/
def code : ProgramHeader := ⟨1, 0, 0x1000, 0, 0x2000, 5, 0⟩

/-- A page behind them. -/
def data : ProgramHeader := ⟨1, 0, 0x3000, 0, 0x1000, 6, 0⟩

/-- An empty segment at the second page. -/
def empty : ProgramHeader := ⟨1, 0, 0x2000, 0, 0, 0, 0⟩

theorem ProgramHeader.length_bytes (p : ProgramHeader) : p.bytes.length = 32 := by simp [bytes]

/-- The header of an image with two segments. -/
theorem imageOf_pair (p q : ProgramHeader) : imageOf [p, q] = (imageOf [code, data]).take 52 ++ (p.bytes ++ q.bytes) := by
  unfold imageOf
  rw [List.flatMap_cons, List.flatMap_cons, List.flatMap_nil, List.append_nil]
  exact congrArg (· ++ (p.bytes ++ q.bytes)) (by rw [List.length_cons, List.length_singleton]; decide)

theorem length_imageOf_pair (p q : ProgramHeader) : (imageOf [p, q]).length = 116 := by
  simp [imageOf, ProgramHeader.length_bytes]

theorem imageOf_pair_head (p q : ProgramHeader) (hi : i < 52) : (imageOf [p, q])[i]? = (imageOf [code, data])[i]? := by
  rw [imageOf_pair, List.getElem?_append_left (lt_of_lt_of_eq hi (by decide)), List.getElem?_take_of_lt hi]

theorem headerOf_imageOf_pair (p q : ProgramHeader) : headerOf (imageOf [p, q]) = headerOf (imageOf [code, data]) := by
  unfold headerOf bytesAt
  rw [length_imageOf_pair, length_imageOf_pair]
  exact congrArg some (ElfHeader.ofBytes_congr fun i hi => by
    rw [List.getD_eq_getElem?_getD, List.getD_eq_getElem?_getD, Nat.zero_add, imageOf_pair_head p q hi])

theorem programTable_pair (p q : ProgramHeader) {header : ElfHeader} (h : headerOf (imageOf [p, q]) = some header) :
    header.programOffset = 52 ∧ header.programCount = 2 ∧ programTable (imageOf [p, q]) header = [p.bytes, q.bytes] := by
  obtain ⟨hoffset, hcount⟩ : header.programOffset = 52 ∧ header.programCount = 2 := by
    rw [headerOf_imageOf_pair] at h
    rw [← Option.some.inj h]
    decide +kernel
  refine ⟨hoffset, hcount, ?_⟩
  have hhead : ((imageOf [code, data]).take 52).length = 52 := by decide
  have hfirst : tableEntry (imageOf [p, q]) header 0 = p.bytes := by
    rw [tableEntry, imageOf_pair, hoffset, List.drop_left' hhead, List.take_left' p.length_bytes]
  have hsecond : tableEntry (imageOf [p, q]) header 1 = q.bytes := by
    have hlength : ((imageOf [code, data]).take 52 ++ p.bytes).length = 52 + 1 * 32 := by
      rw [List.length_append, hhead, p.length_bytes]
    rw [tableEntry, imageOf_pair, hoffset, ← List.append_assoc, List.drop_left' hlength]
    exact List.take_of_length_le q.length_bytes.le
  rw [programTable, hcount]
  exact congrArg₂ (fun a b => [a, b]) hfirst hsecond

/-- The two entries of a table are exchanged. -/
theorem reordered_pair (p q : ProgramHeader) : Reordered (imageOf [p, q]) (imageOf [q, p]) := by
  have hhead : ∀ i < 52, (imageOf [q, p])[i]? = (imageOf [p, q])[i]? := fun i hi =>
    (imageOf_pair_head q p hi).trans (imageOf_pair_head p q hi).symm
  refine ⟨by rw [length_imageOf_pair, length_imageOf_pair], hhead, fun header h i hi => ?_, fun header h => ?_⟩
  · obtain ⟨hoffset, hcount, -⟩ := programTable_pair p q h
    rcases hi with hi | hi
    · exact hhead i (by omega)
    · rw [List.getElem?_eq_none (by rw [length_imageOf_pair]; omega), List.getElem?_eq_none (by rw [length_imageOf_pair]; omega)]
  · obtain ⟨-, -, htable⟩ := programTable_pair p q h
    have h' : headerOf (imageOf [q, p]) = some header := by rw [headerOf_imageOf_pair, ← headerOf_imageOf_pair p q, h]
    rw [htable, (programTable_pair q p h').2.2]
    exact .swap ..

/-- Two segments with a size are accepted in either order. -/
theorem validateImage_reordered_pair : Reordered (imageOf [code, data]) (imageOf [data, code]) ∧
    validateImage (imageOf [data, code]) = validateImage (imageOf [code, data]) := by
  refine ⟨reordered_pair code data, (validateImage_reordered_iff (by decide) (reordered_pair code data)).2 ?_⟩
  intro header h _ _
  have h' : headerOf (imageOf [data, code]) = some header := by rw [headerOf_imageOf_pair, h]
  rw [programs, programs, (programTable_pair code data h).2.2, (programTable_pair data code h').2.2]
  refine iff_of_true ?_ ?_
  · exact List.pairwise_pair.2 fun _ h => absurd h.2.1 (by decide)
  · exact List.pairwise_pair.2 fun _ h => absurd h.2.1 (by decide)

/-- The image with the empty segment behind the other is accepted, and the one with the empty segment before is not. -/
theorem order_matters : Reordered (imageOf [code, empty]) (imageOf [empty, code]) ∧
    validateImage (imageOf [code, empty]) = some (some 0x1000) ∧ validateImage (imageOf [empty, code]) = some none :=
  ⟨reordered_pair code empty, by decide +kernel, by decide +kernel⟩

end MiniOrange.Elf

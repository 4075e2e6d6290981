import MiniOrange.Kernel.Panic
import MiniOrange.Logic.Bitmap
import MiniOrange.Logic.Run
import MiniOrange.Logic.Word32

/-!
# The physical memory manager

`pmm.c` keeps two bitmaps over the pages below 4 GiB: which pages it may hand out at all, and which of them it has. It
fills them from the memory map of the BIOS (`pmmInit`), and hands out the lowest page that is free.
-/

namespace MiniOrange

/-- `struct e820_entry`. -/
structure E820Entry where
  base : UInt64
  length : UInt64
  type : UInt32

/-- What `pmm_init` reads of `struct boot_info`, and the `e820_count` entries behind `e820_address`. -/
structure BootInfo where
  magic : UInt32
  version : UInt32
  size : UInt32
  kernelPhysicalStart : UInt32
  kernelPhysicalEnd : UInt32
  e820Entries : List E820Entry

/-- The static state of `pmm.c`. -/
structure Pmm where
  usedBitmap : Bitmap
  allocatableBitmap : Bitmap
  totalPages : Nat
  freePages : Nat
  reservedPages : Nat

namespace Pmm

/-- `FOUR_GIB`. -/
def fourGib : Nat := 0x100000000

/-- The end of a range of 64 bits, cut off at 4 GiB. -/
def clippedEnd (base length : Nat) : Nat :=
  let rangeEnd := (base + length) % 2 ^ 64
  if rangeEnd < base ∨ rangeEnd > fourGib then fourGib else rangeEnd

/-- `range_to_pages`: the first page and the limit. -/
def rangeToPages (base length : Nat) : Option (Nat × Nat) :=
  if length = 0 ∨ base ≥ fourGib then none
  else if base > fourGib - 4095 then none
  else
    let alignedStart := (base + 4095) / 4096 * 4096
    let alignedEnd := clippedEnd base length / 4096 * 4096
    if alignedStart ≥ alignedEnd then none else some (alignedStart / 4096, alignedEnd / 4096)

/-- One round of the loops of `make_range_allocatable` and `reserve_range`. -/
def markPage (allocatable : Bool) (m : Pmm) (page : Nat) : Pmm :=
  { m with
    allocatableBitmap := m.allocatableBitmap.set page allocatable
    usedBitmap := m.usedBitmap.set page !allocatable }

/-- These loops, over the pages from `first` up to `limit`. -/
def markPages (m : Pmm) (first limit : Nat) (allocatable : Bool) : Pmm :=
  (List.range' first (limit - first)).foldl (markPage allocatable) m

/-- `make_range_allocatable`. -/
def makeRangeAllocatable (m : Pmm) (base length : Nat) : Pmm :=
  match rangeToPages base length with
  | none => m
  | some (first, limit) => m.markPages first limit true

/-- `reserve_range`. -/
def reserveRange (m : Pmm) (base length : Nat) : Pmm :=
  if length = 0 ∨ base ≥ fourGib then m
  else
    let rangeEnd := clippedEnd base length
    m.markPages (base / 4096) (if rangeEnd = fourGib then 1048576 else (rangeEnd + 4095) / 4096) false

/-- A round of the first loop of `pmm_init` over the entries, with `maximum_page`. -/
def markUsable (state : Pmm × Nat) (entry : E820Entry) : Pmm × Nat :=
  match rangeToPages entry.base.toNat entry.length.toNat with
  | none => state
  | some (_, limit) =>
    (if entry.type = 1 then state.1.makeRangeAllocatable entry.base.toNat entry.length.toNat else state.1,
      if limit > state.2 then limit else state.2)

/-- A round of the second loop. -/
def markReserved (m : Pmm) (entry : E820Entry) : Pmm :=
  if entry.type ≠ 1 then m.reserveRange entry.base.toNat entry.length.toNat else m

/-- The pages that `pmm_alloc` may hand out next. -/
def available (m : Pmm) (page : Nat) : Bool := m.allocatableBitmap.get page && !m.usedBitmap.get page

/-- The loop that counts the free pages. -/
def countFree (m : Pmm) (totalPages : Nat) : Nat :=
  (List.range totalPages).foldl (fun count page => if m.available page then add32 count 1 else count) 0

/-- Both bitmaps before the entries are read. -/
def blank : Pmm := ⟨fun _ => 0xFF, fun _ => 0, 0, 0, 0⟩

/-- The bitmaps of `pmm_init`, and `maximum_page`. -/
def marked (bootInfo : BootInfo) : Pmm × Nat :=
  let (m, maximumPage) := bootInfo.e820Entries.foldl markUsable (blank, 0)
  let m := bootInfo.e820Entries.foldl markReserved m
  let m := m.reserveRange 0 0x100000
  let start := bootInfo.kernelPhysicalStart.toNat
  (m.reserveRange start (bootInfo.kernelPhysicalEnd.toNat - start), maximumPage)

/-- The checks of `pmm_init`. -/
def Accepts (bootInfo : BootInfo) : Prop :=
  bootInfo.magic = 0x534F494D ∧ bootInfo.version = 1 ∧ bootInfo.size = 64 ∧ bootInfo.e820Entries.length ≠ 0 ∧
    bootInfo.e820Entries.length ≤ 128 ∧ bootInfo.kernelPhysicalStart < bootInfo.kernelPhysicalEnd

instance (bootInfo : BootInfo) : Decidable (Accepts bootInfo) := inferInstanceAs (Decidable (_ ∧ _ ∧ _ ∧ _ ∧ _ ∧ _))

/-- `pmm_init`; NULL is `none`. -/
def pmmInit : Option BootInfo → Except MemoryPanic Pmm
  | none => .error .invalidBootInfo
  | some bootInfo =>
    if Accepts bootInfo then
      let (m, totalPages) := marked bootInfo
      let freePages := m.countFree totalPages
      if totalPages = 0 ∨ freePages = 0 then .error .noUsablePages
      else .ok { m with totalPages := totalPages, freePages := freePages, reservedPages := sub32 totalPages freePages }
    else .error .invalidBootInfo

/-- The loop of `pmm_alloc`, with `left` pages to go. -/
def allocFrom (m : Pmm) : Nat → Nat → Nat × Pmm
  | 0, _ => (0, m)
  | left + 1, page =>
    if m.available page then
      (page * 4096, { m with usedBitmap := m.usedBitmap.set page true, freePages := sub32 m.freePages 1 })
    else m.allocFrom left (page + 1)

/-- `pmm_alloc`. -/
def pmmAlloc (m : Pmm) : Nat × Pmm := m.allocFrom m.totalPages 0

/-- `pmm_free`. -/
def pmmFree (m : Pmm) (physicalAddress : Nat) : Bool × Pmm :=
  if physicalAddress % 4096 ≠ 0 then (false, m)
  else
    let page := physicalAddress / 4096
    if page ≥ m.totalPages ∨ m.allocatableBitmap.get page = false ∨ m.usedBitmap.get page = false then (false, m)
    else (true, { m with usedBitmap := m.usedBitmap.set page false, freePages := add32 m.freePages 1 })

/-! ## Initialisation -/

/-- The page lies in the range, as far as that is below 4 GiB. -/
def Within (base length page : Nat) : Prop :=
  ∀ a, page * 4096 ≤ a → a < page * 4096 + 4096 → base ≤ a ∧ a < min (base + length) fourGib

/-- The page has something in common with the range, as far as that is below 4 GiB. -/
def Meets (base length page : Nat) : Prop :=
  ∃ a, page * 4096 ≤ a ∧ a < page * 4096 + 4096 ∧ base ≤ a ∧ a < min (base + length) fourGib

/-- The pages that can be handed out. -/
structure Usable (bootInfo : BootInfo) (page : Nat) : Prop where
  within : ∃ e ∈ bootInfo.e820Entries, e.type = 1 ∧ Within e.base.toNat e.length.toNat page
  reserved : ∀ e ∈ bootInfo.e820Entries, e.type ≠ 1 → ¬ Meets e.base.toNat e.length.toNat page
  low : ¬ Meets 0 0x100000 page
  kernel : ¬ Meets bootInfo.kernelPhysicalStart.toNat
    (bootInfo.kernelPhysicalEnd.toNat - bootInfo.kernelPhysicalStart.toNat) page

variable {base length page : Nat}

theorem clippedEnd_eq (hbase : base < 2 ^ 64) (hlength : length < 2 ^ 64) :
    clippedEnd base length = min (base + length) fourGib := by
  unfold clippedEnd fourGib
  dsimp only
  split
  · exact (Nat.min_eq_right (by omega)).symm
  · rw [Nat.min_eq_left (by omega), Nat.mod_eq_of_lt (by omega)]

theorem within_iff : Within base length page ↔ base ≤ page * 4096 ∧ page * 4096 + 4096 ≤ min (base + length) fourGib := by
  unfold Within fourGib
  constructor
  · intro h
    have hfirst := h (page * 4096) le_rfl (by omega)
    have hlast := h (page * 4096 + 4095) (by omega) (by omega)
    exact ⟨hfirst.1, hlast.2⟩
  · intro h a hlow hhigh
    omega

theorem meets_iff : Meets base length page ↔
    base < page * 4096 + 4096 ∧ page * 4096 < min (base + length) fourGib ∧ base < min (base + length) fourGib := by
  unfold Meets fourGib
  constructor
  · rintro ⟨a, hlow, hhigh, hbase, hend⟩
    omega
  · intro h
    exact ⟨max base (page * 4096), by omega, by omega, by omega, by omega⟩

/-- The pages of `range_to_pages` are those within the range. -/
theorem rangeToPages_spec (hbase : base < 2 ^ 64) (hlength : length < 2 ^ 64) :
    match rangeToPages base length with
    | none => ∀ page, ¬ Within base length page
    | some (first, limit) => limit ≤ 1048576 ∧ ∀ page, Within base length page ↔ first ≤ page ∧ page < limit := by
  have hclip := clippedEnd_eq hbase hlength
  have hwithin := @within_iff base length
  unfold rangeToPages
  dsimp only
  rw [hclip]
  unfold fourGib at hwithin ⊢
  split
  · next h =>
    split at h
    · intro page hpage
      rw [hwithin] at hpage
      omega
    · split at h
      · intro page hpage
        rw [hwithin] at hpage
        omega
      · split at h
        · intro page hpage
          rw [hwithin] at hpage
          omega
        · cases h
  · next first limit h =>
    split at h
    · cases h
    · split at h
      · cases h
      · split at h
        · cases h
        · obtain ⟨rfl, rfl⟩ := Prod.mk.inj (Option.some.inj h)
          refine ⟨by omega, fun page => ?_⟩
          rw [hwithin]
          omega

/-- The bitmaps say that the pages in `A` are free and that all others cannot be handed out; nothing is counted yet. -/
structure Marks (m : Pmm) (A : Nat → Prop) : Prop where
  allocatable : ∀ page, m.allocatableBitmap.get page = true ↔ A page
  used : ∀ page, m.usedBitmap.get page = true ↔ ¬ A page
  counts : m = { blank with usedBitmap := m.usedBitmap, allocatableBitmap := m.allocatableBitmap }

variable {m m' : Pmm} {A B : Nat → Prop} {first limit : Nat}

theorem Marks.congr (h : Marks m A) (hiff : ∀ page, A page ↔ B page) : Marks m B :=
  ⟨fun page => (h.allocatable page).trans (hiff page), fun page => (h.used page).trans (hiff page).not, h.counts⟩

/-- The bitmaps are given by the pages in `A`. -/
theorem Marks.unique (h : Marks m A) (h' : Marks m' A) : m = m' := by
  have hallocatable : m.allocatableBitmap = m'.allocatableBitmap := Bitmap.ext fun page =>
    Bool.eq_iff_iff.2 ((h.allocatable page).trans (h'.allocatable page).symm)
  have hused : m.usedBitmap = m'.usedBitmap := Bitmap.ext fun page =>
    Bool.eq_iff_iff.2 ((h.used page).trans (h'.used page).symm)
  rw [h.counts, h'.counts, hallocatable, hused]

theorem marks_blank : Marks blank fun _ => False where
  allocatable page := by simp [blank, Bitmap.get_replicate_false]
  used page := by simp [blank, Bitmap.get_replicate_true]
  counts := rfl

theorem Marks.markPage (h : Marks m A) (allocatable : Bool) (i : Nat) :
    Marks (markPage allocatable m i) fun page => if page = i then allocatable = true else A page := by
  refine ⟨fun page => ?_, fun page => ?_, ?_⟩
  · show (m.allocatableBitmap.set i allocatable).get page = true ↔ _
    rw [Bitmap.get_set]
    split
    · exact Iff.rfl
    · exact h.allocatable page
  · show (m.usedBitmap.set i !allocatable).get page = true ↔ _
    rw [Bitmap.get_set]
    split
    · simp
    · exact h.used page
  · rw [Pmm.markPage, h.counts]

theorem Marks.markPages (h : Marks m A) (allocatable : Bool) (first limit : Nat) :
    Marks (m.markPages first limit allocatable) fun page =>
      if first ≤ page ∧ page < limit then allocatable = true else A page := by
  unfold Pmm.markPages
  obtain ⟨count, hcount⟩ : ∃ count, count = limit - first := ⟨_, rfl⟩
  rw [← hcount]
  induction count generalizing m A first with
  | zero =>
    refine h.congr fun page => ?_
    rw [if_neg (by omega)]
  | succ count ih =>
    rw [List.range'_succ, List.foldl_cons]
    refine (ih (h.markPage allocatable first) (first + 1) (by omega)).congr fun page => ?_
    by_cases hfirst : page = first
    · rw [if_neg (by omega), if_pos hfirst, if_pos (by omega)]
    · simp only [if_neg hfirst]
      by_cases hin : first + 1 ≤ page ∧ page < limit
      · rw [if_pos hin, if_pos (by omega)]
      · rw [if_neg hin, if_neg (by omega)]

theorem Marks.makeRangeAllocatable (h : Marks m A) (base length : Nat) (hbase : base < 2 ^ 64) (hlength : length < 2 ^ 64) :
    Marks (m.makeRangeAllocatable base length) fun page => A page ∨ Within base length page := by
  have hspec := rangeToPages_spec hbase hlength
  unfold Pmm.makeRangeAllocatable
  split
  · next hnone =>
    rw [hnone] at hspec
    exact h.congr fun page => (or_iff_left (hspec page)).symm
  · next first limit hsome =>
    rw [hsome] at hspec
    refine (h.markPages true first limit).congr fun page => ?_
    rw [hspec.2 page]
    split
    · next hin => simp [hin]
    · next hin => simp [hin]

theorem Marks.reserveRange (h : Marks m A) (base length : Nat) (hbase : base < 2 ^ 64) (hlength : length < 2 ^ 64) :
    Marks (m.reserveRange base length) fun page => A page ∧ ¬ Meets base length page := by
  have hclip := clippedEnd_eq hbase hlength
  have hmeets := @meets_iff base length
  unfold Pmm.reserveRange
  dsimp only
  rw [hclip]
  unfold fourGib at hmeets ⊢
  split
  · next hempty =>
    refine h.congr fun page => (and_iff_left ?_).symm
    rw [hmeets]
    omega
  · next hempty =>
    refine (h.markPages false _ _).congr fun page => ?_
    rw [hmeets]
    by_cases hin : base < page * 4096 + 4096 ∧ page * 4096 < min (base + length) 4294967296
    · rw [if_pos ?_]
      · exact iff_of_false Bool.false_ne_true fun hout => by omega
      · split
        · omega
        · omega
    · rw [if_neg ?_]
      · exact (and_iff_left fun hmeet => hin ⟨hmeet.1, hmeet.2.1⟩).symm
      · split
        · omega
        · omega

theorem toNat_lt (a : UInt64) : a.toNat < 2 ^ 64 := a.toNat_lt

/-- The limit of the pages of an entry. -/
def lastPage (entry : E820Entry) : Nat :=
  match rangeToPages entry.base.toNat entry.length.toNat with
  | none => 0
  | some (_, limit) => limit

theorem lt_lastPage {entry : E820Entry} (h : Within entry.base.toNat entry.length.toNat page) :
    page < lastPage entry := by
  have hspec := rangeToPages_spec (toNat_lt entry.base) (toNat_lt entry.length)
  unfold lastPage
  split
  · next hnone =>
    rw [hnone] at hspec
    exact absurd h (hspec page)
  · next first limit hsome =>
    rw [hsome] at hspec
    exact ((hspec.2 page).1 h).2

theorem lastPage_le (entry : E820Entry) : lastPage entry ≤ 1048576 := by
  have hspec := rangeToPages_spec (toNat_lt entry.base) (toNat_lt entry.length)
  unfold lastPage
  split
  · exact Nat.zero_le _
  · next first limit hsome =>
    rw [hsome] at hspec
    exact hspec.1

theorem markUsable_snd (state : Pmm × Nat) (entry : E820Entry) :
    (markUsable state entry).2 = max state.2 (lastPage entry) := by
  unfold markUsable lastPage
  split
  · exact (Nat.max_zero _).symm
  · dsimp only
    split
    · omega
    · omega

/-- The first loop of `pmm_init`. -/
theorem Marks.usable (entries : List E820Entry) {n : Nat} (h : Marks m A) :
    Marks (entries.foldl markUsable (m, n)).1 fun page =>
      A page ∨ ∃ e ∈ entries, e.type = 1 ∧ Within e.base.toNat e.length.toNat page := by
  induction entries generalizing m A n with
  | nil => exact h.congr fun page => by simp
  | cons e entries ih =>
    rw [List.foldl_cons]
    have hfirst : Marks (markUsable (m, n) e).1 fun page =>
        A page ∨ e.type = 1 ∧ Within e.base.toNat e.length.toNat page := by
      have hspec := rangeToPages_spec (toNat_lt e.base) (toNat_lt e.length)
      unfold markUsable
      split
      · next hnone =>
        rw [hnone] at hspec
        exact h.congr fun page => (or_iff_left fun hin => hspec page hin.2).symm
      · next first limit hsome =>
        dsimp only
        split
        · next htype =>
          exact (h.makeRangeAllocatable _ _ (toNat_lt e.base) (toNat_lt e.length)).congr fun page => by simp [htype]
        · next htype => exact h.congr fun page => by simp [htype]
    refine (ih hfirst).congr fun page => ?_
    simp only [List.mem_cons, exists_eq_or_imp, or_assoc]

/-- `maximum_page` is the largest limit. -/
theorem foldl_markUsable_snd (entries : List E820Entry) (state : Pmm × Nat) :
    (entries.foldl markUsable state).2 = entries.foldl (fun n e => max n (lastPage e)) state.2 := by
  induction entries generalizing state with
  | nil => rfl
  | cons e entries ih => rw [List.foldl_cons, List.foldl_cons, ih, markUsable_snd]

/-- The second loop. -/
theorem Marks.reserved (entries : List E820Entry) (h : Marks m A) :
    Marks (entries.foldl markReserved m) fun page =>
      A page ∧ ∀ e ∈ entries, e.type ≠ 1 → ¬ Meets e.base.toNat e.length.toNat page := by
  induction entries generalizing m A with
  | nil => exact h.congr fun page => by simp
  | cons e entries ih =>
    rw [List.foldl_cons]
    have hfirst : Marks (markReserved m e) fun page =>
        A page ∧ (e.type ≠ 1 → ¬ Meets e.base.toNat e.length.toNat page) := by
      unfold markReserved
      split
      · next htype =>
        exact (h.reserveRange _ _ (toNat_lt e.base) (toNat_lt e.length)).congr fun page => by simp [htype]
      · next htype => exact h.congr fun page => by simp [htype]
    refine (ih hfirst).congr fun page => ?_
    rw [List.forall_mem_cons, and_assoc]

variable {bootInfo : BootInfo}

/-- The bitmaps of `pmm_init` mark the usable pages. -/
theorem marks_marked (bootInfo : BootInfo) : Marks (marked bootInfo).1 (Usable bootInfo) := by
  have hstart := bootInfo.kernelPhysicalStart.toNat_lt
  have hend := bootInfo.kernelPhysicalEnd.toNat_lt
  have h := ((marks_blank.usable bootInfo.e820Entries (n := 0)).reserved bootInfo.e820Entries).reserveRange 0 0x100000
    (by decide) (by decide)
  refine (h.reserveRange bootInfo.kernelPhysicalStart.toNat
    (bootInfo.kernelPhysicalEnd.toNat - bootInfo.kernelPhysicalStart.toNat) (by omega) (by omega)).congr ?_
  intro page
  constructor
  · rintro ⟨⟨⟨hwithin, hreserved⟩, hlow⟩, hkernel⟩
    exact ⟨hwithin.resolve_left id, hreserved, hlow, hkernel⟩
  · rintro ⟨hwithin, hreserved, hlow, hkernel⟩
    exact ⟨⟨⟨.inr hwithin, hreserved⟩, hlow⟩, hkernel⟩

theorem foldl_max_le (entries : List E820Entry) {n : Nat} (hn : n ≤ 1048576) :
    entries.foldl (fun n e => max n (lastPage e)) n ≤ 1048576 := by
  induction entries generalizing n with
  | nil => exact hn
  | cons e entries ih => exact ih (max_le hn (lastPage_le e))

theorem le_foldl_max (entries : List E820Entry) (n : Nat) :
    n ≤ entries.foldl (fun n e => max n (lastPage e)) n ∧
      ∀ e ∈ entries, lastPage e ≤ entries.foldl (fun n e => max n (lastPage e)) n := by
  induction entries generalizing n with
  | nil => exact ⟨le_rfl, nofun⟩
  | cons e entries ih =>
    obtain ⟨hle, hall⟩ := ih (max n (lastPage e))
    exact ⟨(le_max_left ..).trans hle, List.forall_mem_cons.2 ⟨(le_max_right ..).trans hle, hall⟩⟩

theorem marked_snd (bootInfo : BootInfo) :
    (marked bootInfo).2 = bootInfo.e820Entries.foldl (fun n e => max n (lastPage e)) 0 :=
  foldl_markUsable_snd bootInfo.e820Entries (blank, 0)

/-- No page at or above `total_pages` is usable. -/
theorem Usable.lt (h : Usable bootInfo page) : page < (marked bootInfo).2 := by
  obtain ⟨e, he, -, hwithin⟩ := h.within
  rw [marked_snd]
  exact (lt_lastPage hwithin).trans_le ((le_foldl_max _ 0).2 e he)

/-- The counter does not wrap. -/
theorem countFree_eq (m : Pmm) {n : Nat} (hn : n ≤ 1048576) : m.countFree n = ((List.range n).filter m.available).length := by
  induction n with
  | zero => rfl
  | succ n ih =>
    have hlength := List.length_filter_le m.available (List.range n)
    rw [List.length_range] at hlength
    unfold countFree at ih ⊢
    rw [List.range_succ, List.foldl_append, ih (by omega), List.filter_append, List.length_append]
    simp only [List.foldl_cons, List.foldl_nil, List.filter_cons, List.filter_nil]
    split
    · exact add32_eq (by omega)
    · rfl

/-- The number of pages that have some property and are all below a bound. -/
theorem ncard_eq_length {n : Nat} {p : Nat → Bool} (h : ∀ page, p page = true → page < n) :
    {page | p page = true}.ncard = ((List.range n).filter p).length := by
  have hset : {page | p page = true} = (((List.range n).filter p).toFinset : Set Nat) := by
    ext page
    simpa using fun hpage => h page hpage
  rw [hset, Set.ncard_coe_finset, List.toFinset_card_of_nodup (List.nodup_range.filter _)]

/-- What holds from `pmm_init` on. -/
structure Ok (m : Pmm) : Prop where
  total : m.totalPages ≤ 1048576
  below : ∀ page, m.allocatableBitmap.get page = true → page < m.totalPages
  low : m.allocatableBitmap.get 0 = false
  free : m.freePages = {page | m.available page = true}.ncard

theorem pmmInit_ok (h : pmmInit (some bootInfo) = .ok m) : Ok m ∧ Accepts bootInfo ∧
    (∀ page, m.allocatableBitmap.get page = true ↔ Usable bootInfo page) ∧
    ∀ page, m.usedBitmap.get page = true ↔ ¬ Usable bootInfo page := by
  rw [pmmInit] at h
  split at h
  · next haccepts =>
    dsimp only at h
    split at h
    · cases h
    · have hmarks := marks_marked bootInfo
      have htotal : (marked bootInfo).2 ≤ 1048576 := by
        rw [marked_snd]
        exact foldl_max_le _ (Nat.zero_le _)
      rw [← Except.ok.inj h]
      refine ⟨⟨htotal, fun page hpage => ((hmarks.allocatable page).1 hpage).lt, ?_, ?_⟩, haccepts, hmarks.allocatable,
        hmarks.used⟩
      · refine Bool.eq_false_iff.2 fun hzero => ((hmarks.allocatable 0).1 hzero).low ?_
        exact ⟨0, by decide, by decide, by decide, by decide⟩
      · dsimp only
        rw [countFree_eq _ htotal, ← ncard_eq_length]
        · rfl
        · intro page hpage
          exact ((hmarks.allocatable page).1 (Bool.and_eq_true_iff.1 hpage).1).lt
  · cases h

/-- `pmm_init` does not depend on the order of the entries. -/
theorem pmmInit_perm {entries : List E820Entry} (h : entries.Perm bootInfo.e820Entries) :
    pmmInit (some { bootInfo with e820Entries := entries }) = pmmInit (some bootInfo) := by
  have husable : ∀ page, Usable { bootInfo with e820Entries := entries } page ↔ Usable bootInfo page := fun page =>
    ⟨fun hu => ⟨by simpa only [h.mem_iff] using hu.within, by simpa only [h.mem_iff] using hu.reserved, hu.low, hu.kernel⟩,
      fun hu => ⟨by simpa only [h.mem_iff] using hu.within, by simpa only [h.mem_iff] using hu.reserved, hu.low, hu.kernel⟩⟩
  have hcomm : ∀ (e e' : E820Entry) (n : Nat), max (max n (lastPage e)) (lastPage e') =
      max (max n (lastPage e')) (lastPage e) := fun e e' n => max_right_comm ..
  have hmarked : marked { bootInfo with e820Entries := entries } = marked bootInfo := by
    refine Prod.ext (((marks_marked _).congr husable).unique (marks_marked bootInfo)) ?_
    rw [marked_snd, marked_snd]
    exact h.foldl_eq' (fun e _ e' _ n => hcomm e e' n) 0
  have haccepts : Accepts { bootInfo with e820Entries := entries } ↔ Accepts bootInfo := by
    unfold Accepts
    rw [h.length_eq]
  rw [pmmInit, pmmInit, hmarked]
  simp only [haccepts]

/-- `pmm_init` goes through if there is a usable page. -/
theorem pmmInit_of_usable (haccepts : Accepts bootInfo) (h : Usable bootInfo page) :
    ∃ m, pmmInit (some bootInfo) = .ok m := by
  have hmarks := marks_marked bootInfo
  have htotal : (marked bootInfo).2 ≤ 1048576 := by
    rw [marked_snd]
    exact foldl_max_le _ (Nat.zero_le _)
  have hfree : page ∈ (List.range (marked bootInfo).2).filter (marked bootInfo).1.available := by
    refine List.mem_filter.2 ⟨List.mem_range.2 h.lt, ?_⟩
    rw [available, (hmarks.allocatable page).2 h]
    simpa using fun hused => (hmarks.used page).1 hused h
  have hsome : ¬ ((marked bootInfo).2 = 0 ∨ (marked bootInfo).1.countFree (marked bootInfo).2 = 0) := by
    rintro (hzero | hzero)
    · exact absurd h.lt (by rw [hzero]; exact Nat.not_lt_zero _)
    · rw [countFree_eq _ htotal] at hzero
      exact absurd (List.length_eq_zero_iff.1 hzero) (List.ne_nil_of_mem hfree)
  exact ⟨_, (if_pos haccepts).trans (if_neg hsome)⟩

/-- After `pmm_init` the pages that can be handed out are those in a usable entry that nothing else meets; all are free, and
their number is `free_pages`. -/
theorem pmm_init_allocatable (h : pmmInit (some bootInfo) = .ok m) :
    (∀ page, m.allocatableBitmap.get page = true ↔
      (∃ e ∈ bootInfo.e820Entries, e.type = 1 ∧ Within e.base.toNat e.length.toNat page) ∧
      (∀ e ∈ bootInfo.e820Entries, e.type ≠ 1 → ¬ Meets e.base.toNat e.length.toNat page) ∧
      ¬ Meets 0 0x100000 page ∧
      ¬ Meets bootInfo.kernelPhysicalStart.toNat
        (bootInfo.kernelPhysicalEnd.toNat - bootInfo.kernelPhysicalStart.toNat) page) ∧
    m.freePages = {page | m.allocatableBitmap.get page = true}.ncard ∧
    (∀ page, m.allocatableBitmap.get page = true → page < m.totalPages) ∧
    ∀ entries : List E820Entry, entries.Perm bootInfo.e820Entries →
      pmmInit (some { bootInfo with e820Entries := entries }) = .ok m := by
  obtain ⟨hok, -, hallocatable, hused⟩ := pmmInit_ok h
  refine ⟨fun page => (hallocatable page).trans ?_, ?_, hok.below, fun entries hperm => (pmmInit_perm hperm).trans h⟩
  · exact ⟨fun hu => ⟨hu.within, hu.reserved, hu.low, hu.kernel⟩, fun ⟨hw, hr, hl, hk⟩ => ⟨hw, hr, hl, hk⟩⟩
  · rw [hok.free]
    refine congrArg Set.ncard (Set.ext fun page => ?_)
    have hfree : m.usedBitmap.get page = true ↔ ¬ m.allocatableBitmap.get page = true := by
      rw [hused, hallocatable]
    show (m.allocatableBitmap.get page && !m.usedBitmap.get page) = true ↔ _
    cases hcase : m.allocatableBitmap.get page with
    | false => simp [hcase]
    | true => simpa [hcase] using hfree

/-- A machine with two pages behind its kernel, and a hole in the first entry. -/
def smallMachine : BootInfo where
  magic := 0x534F494D
  version := 1
  size := 64
  kernelPhysicalStart := 0x100000
  kernelPhysicalEnd := 0x100800
  e820Entries := [⟨0, 0x104000, 1⟩, ⟨0x102800, 0x10, 2⟩]

theorem usable_smallMachine : Usable smallMachine 0x101 where
  within := ⟨⟨0, 0x104000, 1⟩, by simp [smallMachine], rfl, within_iff.2 (by decide)⟩
  reserved e he htype := by
    rw [show smallMachine.e820Entries = [⟨0, 0x104000, 1⟩, ⟨0x102800, 0x10, 2⟩] from rfl] at he
    rcases List.mem_cons.1 he with rfl | he
    · exact absurd rfl htype
    · rw [List.mem_singleton.1 he, meets_iff]
      decide
  low := by
    rw [meets_iff]
    decide
  kernel := by
    rw [meets_iff]
    decide

theorem pmm_init_allocatable_smallMachine : ∃ m, pmmInit (some smallMachine) = .ok m ∧
    m.allocatableBitmap.get 0x101 = true ∧ m.allocatableBitmap.get 0x102 = false ∧
    m.freePages = {page | m.allocatableBitmap.get page = true}.ncard ∧
    (∀ page, m.allocatableBitmap.get page = true → page < m.totalPages) ∧
    pmmInit (some { smallMachine with e820Entries := [⟨0x102800, 0x10, 2⟩, ⟨0, 0x104000, 1⟩] }) = .ok m := by
  obtain ⟨m, h⟩ := pmmInit_of_usable (by decide) usable_smallMachine
  obtain ⟨hallocatable, hfree, hbelow, hperm⟩ := pmm_init_allocatable h
  have hu := usable_smallMachine
  refine ⟨m, h, (hallocatable _).2 ⟨hu.within, hu.reserved, hu.low, hu.kernel⟩, ?_, hfree, hbelow,
    hperm _ (List.Perm.swap _ _ [])⟩
  refine Bool.eq_false_iff.2 fun htrue => ((hallocatable _).1 htrue).2.1 ⟨0x102800, 0x10, 2⟩ ?_ ?_ ?_
  · simp [smallMachine]
  · decide
  · exact meets_iff.2 (by decide)

/-! ## Handing out pages -/

/-- The page is handed out. -/
def handOut (m : Pmm) (page : Nat) : Pmm :=
  { m with usedBitmap := m.usedBitmap.set page true, freePages := sub32 m.freePages 1 }

/-- The page is taken back. -/
def takeBack (m : Pmm) (page : Nat) : Pmm :=
  { m with usedBitmap := m.usedBitmap.set page false, freePages := add32 m.freePages 1 }

theorem available_handOut (m : Pmm) (page i : Nat) :
    (m.handOut page).available i = if i = page then false else m.available i := by
  show (m.allocatableBitmap.get i && !(m.usedBitmap.set page true).get i) = _
  rw [Bitmap.get_set]
  split
  · simp
  · rfl

theorem available_takeBack (m : Pmm) (page i : Nat) :
    (m.takeBack page).available i = if i = page then m.allocatableBitmap.get page else m.available i := by
  show (m.allocatableBitmap.get i && !(m.usedBitmap.set page false).get i) = _
  rw [Bitmap.get_set]
  split
  · next h => simp [h]
  · rfl

/-- The loop of `pmm_alloc` finds the first page that is available. -/
theorem allocFrom_cases (m : Pmm) (left start : Nat) :
    (∃ page, start ≤ page ∧ m.available page = true ∧ (∀ i, start ≤ i → i < page → m.available i = false) ∧
      m.allocFrom left start = (page * 4096, m.handOut page)) ∨
    ((∀ i, start ≤ i → i < start + left → m.available i = false) ∧ m.allocFrom left start = (0, m)) := by
  induction left generalizing start with
  | zero => exact .inr ⟨fun i _ _ => by omega, rfl⟩
  | succ left ih =>
    unfold allocFrom
    split
    · next hfirst => exact .inl ⟨start, le_rfl, hfirst, fun i _ _ => by omega, rfl⟩
    · next hfirst =>
      have hskip : ∀ {i}, (start + 1 ≤ i → m.available i = false) → start ≤ i → m.available i = false := by
        intro i hrest hi
        by_cases heq : i = start
        · rw [heq]
          exact Bool.eq_false_iff.2 hfirst
        · exact hrest (by omega)
      rcases ih (start + 1) with ⟨page, hle, hpage, hbefore, heq⟩ | ⟨hnone, heq⟩
      · exact .inl ⟨page, by omega, hpage, fun i hi hlt => hskip (fun hi' => hbefore i hi' hlt) hi, heq⟩
      · exact .inr ⟨fun i hi hlt => hskip (fun hi' => hnone i hi' (by omega)) hi, heq⟩

namespace Ok

variable (hok : Ok m)
include hok

theorem lt (h : m.available page = true) : page < m.totalPages := hok.below page (Bool.and_eq_true_iff.1 h).1

theorem ne_zero (h : m.allocatableBitmap.get page = true) : page ≠ 0 := by
  rintro rfl
  rw [hok.low] at h
  cases h

theorem finite : {i | m.available i = true}.Finite := (Set.finite_lt_nat m.totalPages).subset fun _ h => hok.lt h

theorem ncard_le : {i | m.available i = true}.ncard ≤ 1048576 := by
  have hsub : {i | m.available i = true} ⊆ (Finset.range m.totalPages : Set Nat) := fun i h => by simpa using hok.lt h
  have hle := Set.ncard_le_ncard hsub (Finset.finite_toSet _)
  rw [Set.ncard_coe_finset, Finset.card_range] at hle
  exact hle.trans hok.total

/-- `pmm_alloc` hands out the lowest page, or none is left. -/
theorem pmmAlloc_cases :
    (∃ page, m.available page = true ∧ (∀ i, i < page → m.available i = false) ∧
      m.pmmAlloc = (page * 4096, m.handOut page)) ∨
    ((∀ i, m.available i = false) ∧ m.pmmAlloc = (0, m)) := by
  rcases m.allocFrom_cases m.totalPages 0 with ⟨page, -, hpage, hbefore, heq⟩ | ⟨hnone, heq⟩
  · exact .inl ⟨page, hpage, fun i hi => hbefore i (Nat.zero_le _) hi, heq⟩
  · refine .inr ⟨fun i => ?_, heq⟩
    by_contra htrue
    have hi : m.available i = true := by simpa using htrue
    rw [hnone i (Nat.zero_le _) (by rw [Nat.zero_add]; exact hok.lt hi)] at hi
    cases hi

theorem handOut (h : m.available page = true) : Ok (m.handOut page) where
  total := hok.total
  below := hok.below
  low := hok.low
  free := by
    have hset : {i | (m.handOut page).available i = true} = {i | m.available i = true} \ {page} := by
      ext i
      show (m.handOut page).available i = true ↔ m.available i = true ∧ i ≠ page
      rw [available_handOut]
      split
      · next heq => simp [heq]
      · next hne => simp [hne]
    have hmem : page ∈ {i | m.available i = true} := h
    have hcard := Set.ncard_sdiff_singleton_add_one hmem hok.finite
    have hfree := hok.free
    have hle := hok.ncard_le
    rw [hset]
    exact (sub32_eq (by omega) (by omega)).trans (by omega)

theorem takeBack (hallocatable : m.allocatableBitmap.get page = true) (hused : m.usedBitmap.get page = true) :
    Ok (m.takeBack page) where
  total := hok.total
  below := hok.below
  low := hok.low
  free := by
    have hnot : page ∉ {i | m.available i = true} := by simp [available, hused]
    have hset : {i | (m.takeBack page).available i = true} = insert page {i | m.available i = true} := by
      ext i
      show (m.takeBack page).available i = true ↔ i = page ∨ m.available i = true
      rw [available_takeBack]
      split
      · next heq => simp [heq, hallocatable]
      · next hne => simp [hne]
    have hfree := hok.free
    have hle := hok.ncard_le
    rw [hset, Set.ncard_insert_of_notMem hnot hok.finite]
    exact (add32_eq (by omega)).trans (by omega)

end Ok

/-- The page at this address is handed out. -/
def IsOut (m : Pmm) (address : Nat) : Prop :=
  address % 4096 = 0 ∧ m.allocatableBitmap.get (address / 4096) = true ∧ m.usedBitmap.get (address / 4096) = true

/-- `pmm_free` takes back what is handed out, and nothing else. -/
theorem Ok.pmmFree_cases (hok : Ok m) (address : Nat) :
    m.IsOut address ∧ m.pmmFree address = (true, m.takeBack (address / 4096)) ∨
    ¬ m.IsOut address ∧ m.pmmFree address = (false, m) := by
  unfold pmmFree
  split
  · next hmod => exact .inr ⟨fun hout => hmod hout.1, rfl⟩
  · next hmod =>
    dsimp only
    split
    · next hnot =>
      refine .inr ⟨fun hout => ?_, rfl⟩
      rcases hnot with hge | hallocatable | hused
      · exact absurd (hok.below _ hout.2.1) (Nat.not_lt.2 hge)
      · exact absurd hout.2.1 (by simp [hallocatable])
      · exact absurd hout.2.2 (by simp [hused])
    · next hnot =>
      have hout : m.IsOut address := by
        refine ⟨not_not.1 hmod, ?_, ?_⟩
        · simpa using fun hfalse => hnot (.inr (.inl hfalse))
        · simpa using fun hfalse => hnot (.inr (.inr hfalse))
      exact .inl ⟨hout, rfl⟩

theorem isOut_handOut (m : Pmm) {page a : Nat} (h : m.allocatableBitmap.get page = true) :
    (m.handOut page).IsOut a ↔ a = page * 4096 ∨ m.IsOut a := by
  have hget : (m.handOut page).usedBitmap.get (a / 4096) = if a / 4096 = page then true else m.usedBitmap.get (a / 4096) :=
    Bitmap.get_set ..
  unfold IsOut
  rw [hget]
  split
  · next heq =>
    rw [heq]
    refine ⟨fun hout => .inl (by omega), ?_⟩
    rintro (rfl | hout)
    · exact ⟨by omega, h, rfl⟩
    · exact ⟨hout.1, hout.2.1, rfl⟩
  · next hne => exact (or_iff_right fun heq => hne (by omega)).symm

theorem isOut_takeBack (m : Pmm) {address a : Nat} (h : m.IsOut address) :
    (m.takeBack (address / 4096)).IsOut a ↔ a ≠ address ∧ m.IsOut a := by
  have hget : (m.takeBack (address / 4096)).usedBitmap.get (a / 4096) =
      if a / 4096 = address / 4096 then false else m.usedBitmap.get (a / 4096) := Bitmap.get_set ..
  have hmod := h.1
  unfold IsOut
  rw [hget]
  split
  · next heq => exact iff_of_false (fun hout => nomatch hout.2.2) fun hout => by omega
  · next hne => exact (and_iff_right fun heq => hne (by rw [heq])).symm

/-! ### Runs -/

/-- A call of `pmm_alloc` or `pmm_free`, with its result. -/
inductive PmmEvent where
  | alloc (result : Nat)
  | free (address : Nat) (result : Bool)

/-- A step of the machine. -/
inductive PmmStep (m : Pmm) : PmmEvent → Pmm → Prop
  | alloc : PmmStep m (.alloc m.pmmAlloc.1) m.pmmAlloc.2
  | free (address : Nat) : PmmStep m (.free address (m.pmmFree address).1) (m.pmmFree address).2

/-- The pages that a client has after a call. -/
def PmmEvent.held (out : Finset Nat) : PmmEvent → Finset Nat
  | alloc result => if result = 0 then out else insert result out
  | free address true => out.erase address
  | free _ false => out

/-- The pages that are handed out after these calls. -/
def handedOut (es : List PmmEvent) : Finset Nat := es.foldl PmmEvent.held ∅

variable {m₀ : Pmm} {es : List PmmEvent}

/-- Over all calls, the client has what the bitmaps say. -/
theorem handedOut_of_run (h : pmmInit (some bootInfo) = .ok m₀) (hrun : Run PmmStep m₀ es m) :
    Ok m ∧ m.allocatableBitmap = m₀.allocatableBitmap ∧ ∀ a, a ∈ handedOut es ↔ m.IsOut a := by
  obtain ⟨hok₀, -, hallocatable, hused⟩ := pmmInit_ok h
  refine hrun.trace_invariant (I := fun es m => Ok m ∧ m.allocatableBitmap = m₀.allocatableBitmap ∧
    ∀ a, a ∈ handedOut es ↔ m.IsOut a) ⟨hok₀, rfl, fun a => ?_⟩ ?_
  · exact iff_of_false (Finset.notMem_empty a) fun hout => (hused _).1 hout.2.2 ((hallocatable _).1 hout.2.1)
  · rintro es m e m' ⟨hok, hsame, hheld⟩ hstep
    have hfold : ∀ e, handedOut (es ++ [e]) = PmmEvent.held (handedOut es) e := fun e => List.foldl_append
    rw [hfold]
    cases hstep with
    | alloc =>
      rcases hok.pmmAlloc_cases with ⟨page, hpage, -, heq⟩ | ⟨-, heq⟩
      · have hget := (Bool.and_eq_true_iff.1 hpage).1
        have hne : page * 4096 ≠ 0 := Nat.mul_ne_zero (hok.ne_zero hget) (by decide)
        rw [heq]
        refine ⟨hok.handOut hpage, hsame, fun a => ?_⟩
        rw [PmmEvent.held, if_neg hne, Finset.mem_insert, hheld, isOut_handOut m hget]
      · rw [heq]
        exact ⟨hok, hsame, hheld⟩
    | free address =>
      rcases hok.pmmFree_cases address with ⟨hout, heq⟩ | ⟨-, heq⟩
      · rw [heq]
        refine ⟨hok.takeBack hout.2.1 hout.2.2, hsame, fun a => ?_⟩
        rw [PmmEvent.held, Finset.mem_erase, hheld, isOut_takeBack m hout]
      · rw [heq]
        exact ⟨hok, hsame, hheld⟩

/-- `pmm_alloc` and `pmm_free` keep the set of pages that are handed out, and the counter its number. -/
theorem pmm_state_machine (h : pmmInit (some bootInfo) = .ok m₀) (hrun : Run PmmStep m₀ es m) :
    (∀ a, a ∈ handedOut es ↔ a % 4096 = 0 ∧ m₀.allocatableBitmap.get (a / 4096) = true ∧
      m.usedBitmap.get (a / 4096) = true) ∧
    (m.pmmAlloc.1 = 0 ↔ ∀ page, m₀.allocatableBitmap.get page = true → page * 4096 ∈ handedOut es) ∧
    (m.pmmAlloc.1 ≠ 0 → ∃ page, m.pmmAlloc.1 = page * 4096 ∧ m₀.allocatableBitmap.get page = true ∧
      page * 4096 ∉ handedOut es ∧ ∀ i, i < page → m₀.allocatableBitmap.get i = true → i * 4096 ∈ handedOut es) ∧
    (∀ address, ((m.pmmFree address).1 = true ↔ address ∈ handedOut es) ∧
      ((m.pmmFree address).1 = false → (m.pmmFree address).2 = m)) ∧
    m.freePages = {page | m₀.allocatableBitmap.get page = true ∧ page * 4096 ∉ handedOut es}.ncard := by
  obtain ⟨hok, hsame, hheld⟩ := handedOut_of_run h hrun
  have havailable : ∀ page, m.available page = true ↔
      m₀.allocatableBitmap.get page = true ∧ page * 4096 ∉ handedOut es := by
    intro page
    rw [hheld, IsOut, Nat.mul_div_cancel _ (by decide), Nat.mul_mod_left, hsame, available, hsame]
    cases m₀.allocatableBitmap.get page with
    | false => simp
    | true => simp
  have hnot : ∀ page, m.available page = false → m₀.allocatableBitmap.get page = true → page * 4096 ∈ handedOut es := by
    intro page hpage hget
    by_contra hout
    rw [(havailable page).2 ⟨hget, hout⟩] at hpage
    cases hpage
  refine ⟨fun a => by rw [hheld, IsOut, hsame], ?_, ?_, fun address => ?_, ?_⟩
  · rcases hok.pmmAlloc_cases with ⟨page, hpage, -, heq⟩ | ⟨hnone, heq⟩
    · have hfree := (havailable page).1 hpage
      rw [heq]
      refine iff_of_false (Nat.mul_ne_zero (hok.ne_zero (hsame ▸ hfree.1)) (by decide)) fun hall => ?_
      exact hfree.2 (hall page hfree.1)
    · rw [heq]
      exact iff_of_true rfl fun page => hnot page (hnone page)
  · rcases hok.pmmAlloc_cases with ⟨page, hpage, hbefore, heq⟩ | ⟨-, heq⟩
    · have hfree := (havailable page).1 hpage
      rw [heq]
      exact fun _ => ⟨page, rfl, hfree.1, hfree.2, fun i hi => hnot i (hbefore i hi)⟩
    · rw [heq]
      exact fun hne => absurd rfl hne
  · rw [hheld]
    rcases hok.pmmFree_cases address with ⟨hout, heq⟩ | ⟨hout, heq⟩
    · rw [heq]
      exact ⟨iff_of_true rfl hout, nofun⟩
    · rw [heq]
      exact ⟨iff_of_false Bool.false_ne_true hout, fun _ => rfl⟩
  · rw [hok.free]
    exact congrArg Set.ncard (Set.ext havailable)

/-- A page is handed out, and a page that nobody has is given back. -/
theorem pmm_state_machine_smallMachine : ∃ m₀ m, pmmInit (some smallMachine) = .ok m₀ ∧
    Run PmmStep m₀ [.alloc m₀.pmmAlloc.1, .free 0x5000 false] m ∧
    (∀ address, ((m.pmmFree address).1 = true ↔ address ∈ handedOut [.alloc m₀.pmmAlloc.1, .free 0x5000 false]) ∧
      ((m.pmmFree address).1 = false → (m.pmmFree address).2 = m)) ∧
    m.freePages = {page | m₀.allocatableBitmap.get page = true ∧
      page * 4096 ∉ handedOut [.alloc m₀.pmmAlloc.1, .free 0x5000 false]}.ncard := by
  obtain ⟨m₀, h⟩ := pmmInit_of_usable (by decide) usable_smallMachine
  have halloc : Run PmmStep m₀ [.alloc m₀.pmmAlloc.1] m₀.pmmAlloc.2 := .single .alloc
  have hrun := halloc.snoc (.free 0x5000)
  have hrejected : (m₀.pmmAlloc.2.pmmFree 0x5000).1 = false := by
    refine Bool.eq_false_iff.2 fun htrue => ?_
    obtain ⟨hok, hsame, hheld⟩ := handedOut_of_run h halloc
    rcases hok.pmmFree_cases 0x5000 with ⟨hout, -⟩ | ⟨-, heq⟩
    · obtain ⟨-, -, hallocatable, -⟩ := pmmInit_ok h
      have hget := hout.2.1
      rw [hsame, hallocatable] at hget
      exact hget.low (meets_iff.2 (by decide))
    · rw [heq] at htrue
      cases htrue
  rw [hrejected] at hrun
  obtain ⟨-, -, -, hfree, hcount⟩ := pmm_state_machine h hrun
  exact ⟨m₀, _, h, hrun, hfree, hcount⟩

end Pmm

end MiniOrange

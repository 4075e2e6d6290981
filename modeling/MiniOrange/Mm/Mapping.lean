import MiniOrange.Mm.Paging

/-!
# What mapping a page does

The functions of `vmm.c`, by what they leave in the memory. Where a page can be read and written at a virtual address (`Shows`), a
loop over this page is a change of its bytes (`withPage`). A page table is taken from the free pages and cleared through the
scratch address; for this the active directory has to be in order (`Grounded`). Then `vmm_map` writes the one entry of the
page, and that of the table if there was none (`vmmMap_present`, `vmmMap_absent`), and `vmm_unmap` takes both back
(`vmmUnmap_eq`).
-/

namespace MiniOrange

namespace Paging

variable {s : Paging} {v p i j t e : Nat} {write : Bool} {f : Ram} {value : UInt8}

/-! ## Entries -/

theorem passes_write_iff : passes false true e = true ↔ present e = true ∧ writable e = true := by
  unfold passes
  simp

theorem entry_eq (p : Nat) : p ||| 1 ||| 2 = p ||| 3 := Nat.or_assoc p 1 2

/-- The entry of a page that the kernel can write. -/
theorem passes_entry (hp : p % 4096 = 0) : passes false write (p ||| 3) = true := by
  rw [← entry_eq]
  exact passes_recursive hp

theorem pageOf_entry (hp : p % 4096 = 0) : pageOf (p ||| 3) = p := pageOf_or hp (by decide)

/-! ## Accesses -/

/-- The page at the virtual address `v` is the page `p`, and the kernel can write to it. -/
structure Leads (s : Paging) (v p : Nat) : Prop where
  page : v % 4096 = 0
  directory : passes false true (s.pde (v / 2 ^ 22)) = true
  table : passes false true (s.pte (entryIndex v)) = true
  target : pageOf (s.pte (entryIndex v)) = p

theorem entryIndex_add (hv : v % 4096 = 0) (hi : i < 4096) : entryIndex (v + i) = entryIndex v := by
  unfold entryIndex
  omega

namespace Leads

theorem translate (h : Leads s v p) (hi : i < 4096) : s.translate write (v + i) = some (p + i) := by
  have hv := h.page
  have hmono : ∀ {e}, passes false true e = true → passes false write e = true := fun h => passes_mono h id fun _ => rfl
  unfold Paging.translate
  rw [walk_directory, show (v + i) / 2 ^ 22 = v / 2 ^ 22 by omega, entryIndex_add hv hi, h.target,
    if_pos ⟨hmono h.directory, hmono h.table⟩, show (v + i) % 4096 = i by omega]

theorem storeWord (h : Leads s v p) (hi : i < 4096) (value : Nat) :
    Paging.storeWord (v + i) value s = .ok ((), { s with memory := s.memory.setWord (p + i) value }) := by
  rw [Paging.storeWord, bind_of_ok (get_eq_ok s), h.translate hi]
  rfl

end Leads

/-- The state with other bytes in a page. -/
def withPage (s : Paging) (p : Nat) (f : Ram) : Paging := { s with memory := s.memory.setPage p f }

/-- The page is at `v`, and is not one of the tables that lead there. -/
structure Shows (s : Paging) (v p : Nat) : Prop extends Leads s v p where
  physical : p % 4096 = 0
  directory_ne : s.directory ≠ p
  table_ne : pageOf (s.pde (v / 2 ^ 22)) ≠ p

/-- The word is not in the page. -/
theorem not_mem_page (hp : p % 4096 = 0) (ht : t % 4096 = 0) (hne : t ≠ p) (hi : i < 1024) :
    t + i * 4 + 4 ≤ p ∨ p + 4096 ≤ t + i * 4 := by omega

namespace Shows

/-- Other bytes in the page do not change what is where. -/
theorem withPage (h : Shows s v p) (hv : v < 2 ^ 32) (f : Ram) : Shows (s.withPage p f) v p := by
  have hpde : (s.withPage p f).pde (v / 2 ^ 22) = s.pde (v / 2 ^ 22) :=
    Ram.word_setPage_of_not_mem (not_mem_page h.physical (pageOf_mod _) h.directory_ne (by omega))
  have hpte : (s.withPage p f).pte (entryIndex v) = s.pte (entryIndex v) := by
    unfold pte entryAddress
    rw [entryIndex_div, hpde]
    exact Ram.word_setPage_of_not_mem (not_mem_page h.physical (pageOf_mod _) h.table_ne (Nat.mod_lt _ (by decide)))
  exact ⟨⟨h.page, hpde ▸ h.directory, hpte ▸ h.table, hpte ▸ h.target⟩, h.physical, h.directory_ne, hpde ▸ h.table_ne⟩

theorem storeWord {value : Nat} (h : Shows s v p) (hv : v < 2 ^ 32) (hi : i + 4 ≤ 4096) :
    Paging.storeWord (v + i) value (s.withPage p f) = .ok ((), s.withPage p (f.setWord i value)) := by
  rw [(h.withPage hv f).toLeads.storeWord (by omega)]
  exact congrArg (fun m => Except.ok ((), { s with memory := m })) (Ram.setWord_setPage hi)

end Shows

/-- The loop that writes zeros over a page. -/
theorem zeroFrom_eq (h : Shows s v p) (hv : v < 2 ^ 32) {left index : Nat} (hend : index + left ≤ 1024) :
    zeroFrom v left index (s.withPage p f) =
      .ok ((), s.withPage p fun i => if index * 4 ≤ i ∧ i < (index + left) * 4 then 0 else f i) := by
  induction left generalizing index f with
  | zero =>
    rw [zeroFrom]
    refine congrArg (fun g => Except.ok ((), s.withPage p g)) (funext fun i => ?_)
    rw [if_neg (by omega)]
  | succ left ih =>
    rw [zeroFrom, bind_of_ok (h.storeWord hv (by omega)), ih (by omega)]
    refine congrArg (fun g => Except.ok ((), s.withPage p g)) (funext fun i => ?_)
    rcases Nat.lt_or_ge i (index * 4 + 4) with hlt | hge
    · rw [if_neg (by omega)]
      unfold Ram.setWord
      split
      · next hin =>
        rw [if_pos (by omega)]
        exact UInt8.toNat_inj.1 (by rw [leByte_toNat]; simp)
      · rw [if_neg (by omega)]
    · rw [Ram.setWord_of_not_mem (by omega)]
      simp only [show (index + 1) * 4 ≤ i ∧ i < (index + 1 + left) * 4 ↔ index * 4 ≤ i ∧ i < (index + (left + 1)) * 4 by omega]

theorem withPage_self (s : Paging) (p : Nat) : s.withPage p (s.memory.page p) = s := by
  unfold Paging.withPage
  rw [Ram.setPage_page]

theorem withPage_congr {g : Ram} (h : ∀ i < 4096, f i = g i) : s.withPage p f = s.withPage p g := by
  unfold Paging.withPage
  rw [Ram.setPage_congr h]

theorem zeroFrom_page (h : Shows s v p) (hv : v < 2 ^ 32) :
    zeroFrom v 1024 0 s = .ok ((), s.withPage p fun _ => 0) := by
  have hloop : zeroFrom v 1024 0 (s.withPage p (s.memory.page p)) = _ := zeroFrom_eq h hv (by decide)
  rw [withPage_self] at hloop
  rw [hloop, withPage_congr fun i hi => if_pos (by omega)]

/-! ## Page tables -/

/-- The free pages are known, and the scratch address of the active directory has a page table and is not in use. -/
structure Grounded (s : Paging) : Prop where
  pmm : s.pmm.Ok
  initialized : s.vmmInitialized = true
  aligned : s.cr3 % 4096 = 0
  boot : passes false true (s.pde kernelPdeIndex) = true
  scratch : s.pte scratchIndex = 0
  apart : pageOf (s.pde kernelPdeIndex) ≠ s.directory
  directory_out : s.pmm.available (s.directory / 4096) = false
  boot_out : s.pmm.available (pageOf (s.pde kernelPdeIndex) / 4096) = false

theorem panicUnless_eq {condition : Prop} [Decidable condition] {panic : MemoryPanic} (h : condition) :
    (panicUnless condition panic : Mem Paging Unit) s = .ok ((), s) := by
  unfold panicUnless
  rw [if_pos h]
  rfl

theorem pageTables_eq {index : Nat} (h : passes false true (s.pde (index / 1024)) = true) :
    pageTables index s = .ok (s.pte index, s) := by
  have hread : passes false false (s.pde (index / 1024)) = true := passes_mono h id nofun
  show (panicUnless (passes false false (s.pde (index / 1024)) = true) _ >>= fun _ => return s.pte index : Mem Paging Nat) s = _
  rw [bind_of_ok (panicUnless_eq hread)]
  rfl

theorem setPageTables_eq {index value : Nat} (h : passes false true (s.pde (index / 1024)) = true) :
    setPageTables index value s = .ok ((), { s with memory := s.memory.setWord (s.entryAddress index) value }) := by
  show (panicUnless (passes false true (s.pde (index / 1024)) = true) _ >>= fun _ =>
    set { s with memory := s.memory.setWord (s.entryAddress index) value } : Mem Paging Unit) s = _
  rw [bind_of_ok (panicUnless_eq h)]
  rfl

theorem scratchIndex_div : scratchIndex / 1024 = kernelPdeIndex := rfl

theorem available_false_ne {m : Pmm} (h : m.available (t / 4096) = true) (h' : m.available (p / 4096) = false) : t ≠ p := by
  rintro rfl
  rw [h] at h'
  cases h'

/-- A word of another page keeps its value. -/
theorem word_withPage (hp : p % 4096 = 0) (ht : t % 4096 = 0) (hne : t ≠ p) (hi : i < 1024) :
    (s.withPage p f).memory.word (t + i * 4) = s.memory.word (t + i * 4) :=
  Ram.word_setPage_of_not_mem (not_mem_page hp ht hne hi)

namespace Grounded

theorem entryAddress_scratch (s : Paging) : s.entryAddress scratchIndex = pageOf (s.pde kernelPdeIndex) + 1023 * 4 := rfl

/-- `zero_page_through_scratch` clears the page. -/
theorem zeroPageThroughScratch (h : Grounded s) (ht : t % 4096 = 0) (hlt : t < 2 ^ 32) (hdirectory : t ≠ s.directory)
    (hboot : t ≠ pageOf (s.pde kernelPdeIndex)) :
    Paging.zeroPageThroughScratch t s = .ok ((), s.withPage t fun _ => 0) := by
  have hB := pageOf_mod (s.pde kernelPdeIndex)
  have hA : s.directory % 4096 = 0 := pageOf_mod _
  -- the page is at the scratch address now
  let s₁ : Paging := { s with memory := s.memory.setWord (s.entryAddress scratchIndex) (t ||| 1 ||| 2) }
  have hpde : s₁.pde kernelPdeIndex = s.pde kernelPdeIndex := by
    have hne := h.apart
    refine Ram.word_setWord_of_ne ?_
    show pageOf (s.pde kernelPdeIndex) + 1023 * 4 + 4 ≤ s.directory + 768 * 4 ∨
      s.directory + 768 * 4 + 4 ≤ pageOf (s.pde kernelPdeIndex) + 1023 * 4
    omega
  have hentry : s₁.pte scratchIndex = t ||| 3 := by
    unfold pte
    rw [entryAddress_scratch, hpde]
    show (s.memory.setWord (s.entryAddress scratchIndex) (t ||| 1 ||| 2)).word _ = _
    rw [entryAddress_scratch, Ram.word_setWord_self, entry_eq, Nat.mod_eq_of_lt (page_or_lt ht (by omega) (by decide))]
  have hshows : Shows s₁ scratchVirtualAddress t := by
    refine ⟨⟨by decide, ?_, ?_, ?_⟩, ht, hdirectory.symm, ?_⟩
    · show passes false true (s₁.pde kernelPdeIndex) = true
      rw [hpde]
      exact h.boot
    · show passes false true (s₁.pte scratchIndex) = true
      rw [hentry]
      exact passes_entry ht
    · show pageOf (s₁.pte scratchIndex) = t
      rw [hentry, pageOf_entry ht]
    · show pageOf (s₁.pde kernelPdeIndex) ≠ t
      rw [hpde]
      exact hboot.symm
  have hboot₂ : passes false true ((s₁.withPage t fun _ => 0).pde (scratchIndex / 1024)) = true :=
    (hshows.withPage (by decide) fun _ => 0).directory
  unfold Paging.zeroPageThroughScratch
  rw [bind_of_ok (pageTables_eq (by rw [scratchIndex_div]; exact h.boot)), h.scratch]
  rw [bind_of_ok (panicUnless_eq (by decide)), bind_of_ok (setPageTables_eq (by rw [scratchIndex_div]; exact h.boot)),
    bind_of_ok (zeroFrom_page hshows (by decide)), setPageTables_eq hboot₂]
  -- and the entry of the scratch address is as before
  have haddress : (s₁.withPage t fun _ => 0).entryAddress scratchIndex = s.entryAddress scratchIndex := by
    rw [entryAddress_scratch, entryAddress_scratch, ← hpde]
    exact congrArg (pageOf · + 1023 * 4) (word_withPage ht hA hdirectory.symm (by decide))
  have hout : s.entryAddress scratchIndex + 4 ≤ t ∨ t + 4096 ≤ s.entryAddress scratchIndex :=
    not_mem_page ht hB hboot.symm (by decide)
  have hzero : (s.memory.setPage t fun _ => 0).word (s.entryAddress scratchIndex) = 0 := by
    rw [Ram.word_setPage_of_not_mem hout]
    exact h.scratch
  rw [haddress]
  refine congrArg (fun m => Except.ok ((), { s with memory := m })) ?_
  show ((s.memory.setWord (s.entryAddress scratchIndex) (t ||| 1 ||| 2)).setPage t fun _ => 0).setWord
    (s.entryAddress scratchIndex) 0 = _
  rw [Ram.setPage_setWord hout, Ram.setWord_setWord, Ram.setWord_eq_self hzero]

end Grounded

/-! ## Mapping -/

/-- An address that the kernel maps pages at. -/
structure KernelPage (v : Nat) : Prop where
  page : v % 4096 = 0
  low : kernelBase ≤ v
  high : v < recursivePageTables
  scratch : v ≠ scratchVirtualAddress

theorem KernelPage.lt (h : KernelPage v) : v < 2 ^ 32 := h.high.trans (by decide)

theorem not_mapRefused (h : KernelPage v) (hs : s.vmmInitialized = true) (hp : p % 4096 = 0) : ¬ MapRefused s v p 2 := by
  unfold MapRefused
  have hlow := h.low
  have hhigh := h.high
  simp [hs, h.page, hp, h.scratch, Nat.not_le.2 h.high, Nat.not_lt.2 h.low, show userPage 2 = false from rfl]

/-- `vmm_map` where there is a page table. -/
theorem vmmMap_present (h : KernelPage v) (hs : s.vmmInitialized = true) (hp : p % 4096 = 0)
    (hpde : passes false true (s.pde (v / 2 ^ 22)) = true) :
    vmmMap v p 2 s = if present (s.pte (entryIndex v)) = true then .ok (false, s) else
      .ok (true, { s with memory := s.memory.setWord (s.entryAddress (entryIndex v)) (p ||| 3) }) := by
  have htable : ensureTable (v / 2 ^ 22) 2 s = .ok (true, s) := by
    unfold ensureTable
    rw [bind_of_ok (show pageDirectory (v / 2 ^ 22) s = .ok (s.pde (v / 2 ^ 22), s) from rfl),
      if_neg (by rw [(passes_write_iff.1 hpde).1]; decide), if_neg (by decide)]
    rfl
  have hentry : passes false true (s.pde (entryIndex v / 1024)) = true := by rwa [entryIndex_div]
  unfold vmmMap
  rw [bind_of_ok (show (get : Mem Paging Paging) s = .ok (s, s) from rfl), if_neg (not_mapRefused h hs hp), bind_of_ok htable,
    if_pos rfl, bind_of_ok (pageTables_eq hentry)]
  split
  · rfl
  · rw [bind_of_ok (setPageTables_eq hentry), show p ||| 1 ||| (2 &&& 6) = p ||| 3 from entry_eq p]
    rfl

/-- The state in which `vmm_map` has made the page table `t` for an address. -/
def withTable (s : Paging) (t v : Nat) : Paging :=
  { s with
    pmm := s.pmm.handOut (t / 4096)
    memory := (s.memory.setPage t fun _ => 0).setWord (s.directory + v / 2 ^ 22 * 4) (t ||| 3) }

theorem pde_withTable (ht : t % 4096 = 0) (hlt : t < 2 ^ 32) : (s.withTable t v).pde (v / 2 ^ 22) = t ||| 3 := by
  refine (Ram.word_setWord_self ..).trans (Nat.mod_eq_of_lt (page_or_lt ht hlt (by decide)))

theorem entryAddress_withTable (ht : t % 4096 = 0) (hlt : t < 2 ^ 32) :
    (s.withTable t v).entryAddress (entryIndex v) = t + v / 4096 % 1024 * 4 := by
  unfold entryAddress
  rw [entryIndex_div, entryIndex_mod, pde_withTable ht hlt, pageOf_entry ht]

/-- The new table is empty. -/
theorem word_withTable (ht : t % 4096 = 0) (hne : s.directory ≠ t) (hv : v < 2 ^ 32) (hi : i < 1024) :
    (s.withTable t v).memory.word (t + i * 4) = 0 := by
  have hA : s.directory % 4096 = 0 := pageOf_mod _
  refine (Ram.word_setWord_of_ne (by omega)).trans ((Ram.word_setPage_of_mem (by omega)).trans (Ram.word_zero _))

theorem Grounded.handOut (h : Grounded s) (hpage : s.pmm.available i = true) :
    Grounded { s with pmm := s.pmm.handOut i } where
  pmm := h.pmm.handOut hpage
  initialized := h.initialized
  aligned := h.aligned
  boot := h.boot
  scratch := h.scratch
  apart := h.apart
  directory_out := by
    show (s.pmm.handOut i).available (s.directory / 4096) = false
    rw [Pmm.available_handOut, h.directory_out, ite_self]
  boot_out := by
    show (s.pmm.handOut i).available (pageOf (s.pde kernelPdeIndex) / 4096) = false
    rw [Pmm.available_handOut, h.boot_out, ite_self]

/-- `pmm_alloc` takes a free page, or there is none. -/
theorem pmmAlloc_cases (h : s.pmm.Ok) :
    ((∀ i, s.pmm.available i = false) ∧ pmmAlloc s = .ok (0, s)) ∨
    ∃ t, t % 4096 = 0 ∧ t < 2 ^ 32 ∧ t ≠ 0 ∧ s.pmm.available (t / 4096) = true ∧
      pmmAlloc s = .ok (t, { s with pmm := s.pmm.handOut (t / 4096) }) := by
  rcases h.pmmAlloc_cases with ⟨page, hpage, -, heq⟩ | ⟨hnone, heq⟩
  · refine .inr ⟨page * 4096, Nat.mul_mod_left _ _, ?_, ?_, ?_, ?_⟩
    · have hlt := h.lt hpage
      have htotal := h.total
      omega
    · have hne := h.ne_zero (Bool.and_eq_true_iff.1 hpage).1
      omega
    · rwa [Nat.mul_div_cancel _ (by decide)]
    · show Except.ok (s.pmm.pmmAlloc.1, { s with pmm := s.pmm.pmmAlloc.2 }) = _
      rw [heq, Nat.mul_div_cancel _ (by decide)]
  · refine .inl ⟨hnone, ?_⟩
    show Except.ok (s.pmm.pmmAlloc.1, { s with pmm := s.pmm.pmmAlloc.2 }) = _
    rw [heq]

/-- `vmm_map` makes a page table, unless no page is free. -/
theorem ensureTable_absent (hs : Grounded s) (hpde : present (s.pde (v / 2 ^ 22)) = false) :
    ((∀ i, s.pmm.available i = false) ∧ ensureTable (v / 2 ^ 22) 2 s = .ok (false, s)) ∨
    ∃ t, t % 4096 = 0 ∧ t < 2 ^ 32 ∧ s.pmm.available (t / 4096) = true ∧
      ensureTable (v / 2 ^ 22) 2 s = .ok (true, s.withTable t v) := by
  have hstart : ensureTable (v / 2 ^ 22) 2 s = (do
      let pageTablePhysical ← pmmAlloc
      if pageTablePhysical = 0 then return false
      else
        zeroPageThroughScratch pageTablePhysical
        setPageDirectory (v / 2 ^ 22) (pageTablePhysical ||| 1 ||| 2 ||| (2 &&& 4))
        return true : Mem Paging Bool) s := by
    unfold ensureTable
    rw [bind_of_ok (show pageDirectory (v / 2 ^ 22) s = .ok (s.pde (v / 2 ^ 22), s) from rfl), if_pos hpde]
  rw [hstart]
  rcases pmmAlloc_cases hs.pmm with ⟨hnone, halloc⟩ | ⟨t, ht, hlt, hne, hfree, halloc⟩
  · refine .inl ⟨hnone, ?_⟩
    rw [bind_of_ok halloc]
    rfl
  · refine .inr ⟨t, ht, hlt, hfree, ?_⟩
    have hzero := (hs.handOut hfree).zeroPageThroughScratch ht hlt (available_false_ne hfree hs.directory_out)
      (available_false_ne hfree hs.boot_out)
    rw [bind_of_ok halloc, if_neg hne, bind_of_ok hzero]
    refine congrArg (fun m => Except.ok (true, { s with pmm := s.pmm.handOut (t / 4096), memory := m })) ?_
    rw [show t ||| 1 ||| 2 ||| (2 &&& 4) = t ||| 3 by rw [entry_eq]; exact Nat.or_zero _]
    rfl

/-- `vmm_map` where there is no page table yet. -/
theorem vmmMap_absent (h : KernelPage v) (hs : Grounded s) (hp : p % 4096 = 0) (hpde : present (s.pde (v / 2 ^ 22)) = false) :
    ((∀ i, s.pmm.available i = false) ∧ vmmMap v p 2 s = .ok (false, s)) ∨
    ∃ t, t % 4096 = 0 ∧ t < 2 ^ 32 ∧ s.pmm.available (t / 4096) = true ∧ vmmMap v p 2 s =
      .ok (true, { s.withTable t v with memory := (s.withTable t v).memory.setWord (t + v / 4096 % 1024 * 4) (p ||| 3) }) := by
  have hstart : ∀ {ok s'}, ensureTable (v / 2 ^ 22) 2 s = .ok (ok, s') → vmmMap v p 2 s = (if ok = true then do
      let entry ← pageTables (entryIndex v)
      if present entry then return false
      else
        setPageTables (entryIndex v) (p ||| 1 ||| (2 &&& 6))
        return true
      else return false : Mem Paging Bool) s' := by
    intro ok s' htable
    unfold vmmMap
    rw [bind_of_ok (show (get : Mem Paging Paging) s = .ok (s, s) from rfl), if_neg (not_mapRefused h hs.initialized hp),
      bind_of_ok htable]
  rcases ensureTable_absent hs hpde with ⟨hnone, htable⟩ | ⟨t, ht, hlt, hfree, htable⟩
  · exact .inl ⟨hnone, hstart htable⟩
  · refine .inr ⟨t, ht, hlt, hfree, (hstart htable).trans ?_⟩
    have hentry : passes false true ((s.withTable t v).pde (entryIndex v / 1024)) = true := by
      rw [entryIndex_div, pde_withTable ht hlt]
      exact passes_entry ht
    have hpte : (s.withTable t v).pte (entryIndex v) = 0 := by
      unfold pte
      rw [entryAddress_withTable ht hlt]
      exact word_withTable ht (available_false_ne hfree hs.directory_out).symm h.lt (Nat.mod_lt _ (by decide))
    rw [if_pos rfl, bind_of_ok (pageTables_eq hentry), hpte, if_neg (by decide), bind_of_ok (setPageTables_eq hentry),
      entryAddress_withTable ht hlt, show p ||| 1 ||| (2 &&& 6) = p ||| 3 from entry_eq p]
    rfl

/-! ## Unmapping -/

/-- No entry of the page table is present. -/
def TableEmpty (s : Paging) (i : Nat) : Prop := ∀ j < 1024, present (s.pte (i * 1024 + j)) = false

instance (s : Paging) (i : Nat) : Decidable (TableEmpty s i) := 
  Nat.decidableBallLT 1024 fun j _ => present (s.pte (i * 1024 + j)) = false

/-- The loop of `vmm_unmap` over the entries of a table. -/
theorem tableEmptyFrom_eq (h : passes false true (s.pde i) = true) {left index : Nat} (hend : index + left ≤ 1024) :
    tableEmptyFrom i left index s =
      .ok (decide (∀ j < index + left, index ≤ j → present (s.pte (i * 1024 + j)) = false), s) := by
  induction left generalizing index with
  | zero =>
    rw [tableEmptyFrom, decide_eq_true fun j hj hle => by omega]
    rfl
  | succ left ih =>
    have hentry : passes false true (s.pde ((i * 1024 + index) / 1024)) = true := by
      rwa [show (i * 1024 + index) / 1024 = i by omega]
    rw [tableEmptyFrom, bind_of_ok (pageTables_eq hentry)]
    split
    · next hpresent =>
      rw [decide_eq_false fun hall => by rw [hall index (by omega) le_rfl] at hpresent; cases hpresent]
      rfl
    · next habsent =>
      rw [ih (by omega)]
      refine congrArg (fun b => Except.ok (b, s)) (decide_eq_decide.2 ⟨fun hall j hj hle => ?_, fun hall j hj hle => ?_⟩)
      · rcases Nat.eq_or_lt_of_le hle with rfl | hlt
        · exact Bool.eq_false_iff.2 habsent
        · exact hall j (by omega) hlt
      · exact hall j (by omega) (by omega)

/-- The state without the entry of a page. -/
def withoutEntry (s : Paging) (v : Nat) : Paging := { s with memory := s.memory.setWord (s.entryAddress (entryIndex v)) 0 }

/-- The state without a page table. -/
def withoutTable (s : Paging) (i : Nat) : Paging :=
  { s with
    pmm := s.pmm.takeBack (pageOf (s.pde i) / 4096)
    memory := s.memory.setWord (s.directory + i * 4) 0 }

/-- An entry of a table is not part of the directory. -/
theorem pde_withoutEntry (hne : pageOf (s.pde (v / 2 ^ 22)) ≠ s.directory) (hi : i < 1024) : (s.withoutEntry v).pde i = s.pde i := by
  have hA : s.directory % 4096 = 0 := pageOf_mod _
  have hT := pageOf_mod (s.pde (v / 2 ^ 22))
  refine Ram.word_setWord_of_ne ?_
  show s.entryAddress (entryIndex v) + 4 ≤ s.directory + i * 4 ∨ s.directory + i * 4 + 4 ≤ s.entryAddress (entryIndex v)
  unfold entryAddress
  rw [entryIndex_div, entryIndex_mod]
  omega

/-- `pmm_free` of a page that is handed out. -/
theorem pmmFree_eq (hok : s.pmm.Ok) (hout : s.pmm.IsOut p) : pmmFree p s = .ok (true, { s with pmm := s.pmm.takeBack (p / 4096) }) := by
  rcases hok.pmmFree_cases p with ⟨-, heq⟩ | ⟨hnot, -⟩
  · show Except.ok ((s.pmm.pmmFree p).1, { s with pmm := (s.pmm.pmmFree p).2 }) = _
    rw [heq]
  · exact absurd hout hnot

/-- The end of `vmm_unmap`. -/
theorem releaseIfEmpty_eq (hok : s.pmm.Ok) (hpde : passes false true (s.pde i) = true) (hout : s.pmm.IsOut (pageOf (s.pde i))) :
    releaseIfEmpty i s = .ok ((), if TableEmpty s i then s.withoutTable i else s) := by
  have hempty : tableEmptyFrom i 1024 0 s = .ok (decide (TableEmpty s i), s) := by
    rw [tableEmptyFrom_eq hpde (by decide)]
    refine congrArg (fun b => Except.ok (b, s)) (decide_eq_decide.2 ⟨fun hall j hj => ?_, fun hall j hj _ => ?_⟩)
    · exact hall j (by omega) (Nat.zero_le j)
    · exact hall j (by omega)
  unfold releaseIfEmpty
  rw [bind_of_ok hempty]
  by_cases hall : TableEmpty s i
  · have hfree : pmmFree (pageOf (s.pde i)) { s with memory := s.memory.setWord (s.directory + i * 4) 0 } =
        .ok (true, s.withoutTable i) := pmmFree_eq hok hout
    rw [if_pos (decide_eq_true hall), if_pos hall, bind_of_ok (show pageDirectory i s = .ok (s.pde i, s) from rfl),
      bind_of_ok (show setPageDirectory i 0 s = .ok ((), { s with memory := s.memory.setWord (s.directory + i * 4) 0 }) from rfl),
      bind_of_ok hfree, panicUnless_eq rfl]
  · rw [if_neg (by simpa using hall), if_neg hall]
    rfl

/-- `vmm_unmap` takes the entry away, and the table if it has no other. -/
theorem vmmUnmap_eq (h : KernelPage v) (hs : s.vmmInitialized = true) (hok : s.pmm.Ok)
    (hpde : passes false true (s.pde (v / 2 ^ 22)) = true) (hpte : present (s.pte (entryIndex v)) = true)
    (hindex : v / 2 ^ 22 ≠ kernelPdeIndex) (hne : pageOf (s.pde (v / 2 ^ 22)) ≠ s.directory)
    (hout : s.pmm.IsOut (pageOf (s.pde (v / 2 ^ 22)))) :
    vmmUnmap v s = .ok (some (pageOf (s.pte (entryIndex v))),
      if TableEmpty (s.withoutEntry v) (v / 2 ^ 22) then (s.withoutEntry v).withoutTable (v / 2 ^ 22) else s.withoutEntry v) := by
  have hv := h.lt
  have hentry : passes false true (s.pde (entryIndex v / 1024)) = true := by rwa [entryIndex_div]
  have hsame : (s.withoutEntry v).pde (v / 2 ^ 22) = s.pde (v / 2 ^ 22) := pde_withoutEntry hne (by omega)
  have hrelease : releaseIfEmpty (v / 2 ^ 22) (s.withoutEntry v) = _ := releaseIfEmpty_eq hok (hsame ▸ hpde) (hsame ▸ hout)
  unfold vmmUnmap
  rw [bind_of_ok (show (get : Mem Paging Paging) s = .ok (s, s) from rfl),
    if_neg (by rw [hs]; simp [h.page, Nat.not_le.2 h.high]),
    bind_of_ok (show pageDirectory (v / 2 ^ 22) s = .ok (s.pde (v / 2 ^ 22), s) from rfl),
    if_neg (by rw [(passes_write_iff.1 hpde).1]; decide), bind_of_ok (pageTables_eq hentry), if_neg (by rw [hpte]; decide),
    bind_of_ok (show setPageTables (entryIndex v) 0 s = .ok ((), s.withoutEntry v) from setPageTables_eq hentry), if_neg hindex,
    bind_of_ok hrelease]
  rfl

/-- `vmm_unmap` where nothing is mapped. -/
theorem vmmUnmap_absent (hnone : present (s.pde (v / 2 ^ 22)) = false ∨
    passes false true (s.pde (v / 2 ^ 22)) = true ∧ present (s.pte (entryIndex v)) = false) : vmmUnmap v s = .ok (none, s) := by
  unfold vmmUnmap
  rw [bind_of_ok (show (get : Mem Paging Paging) s = .ok (s, s) from rfl)]
  split
  · rfl
  · rw [bind_of_ok (show pageDirectory (v / 2 ^ 22) s = .ok (s.pde (v / 2 ^ 22), s) from rfl)]
    rcases hnone with hpde | ⟨hpde, hpte⟩
    · rw [if_pos hpde]
      rfl
    · rw [if_neg (by rw [(passes_write_iff.1 hpde).1]; decide),
        bind_of_ok (pageTables_eq (by rwa [entryIndex_div])), if_pos hpte]
      rfl

end Paging

end MiniOrange

import MiniOrange.Mm.HeapSpec

/-!
# How the heap grows

The heap grows at its end by whole pages, and gives them back if it cannot get all of them. What it needs to know of the
pages is a predicate on the rest of the memory management, with what each call makes of it (`PageLaws`). Then
`map_extension` maps all pages or none, and the heap that has grown has a block that fits the request.
-/

namespace MiniOrange

namespace Heap

variable {σ α : Type}

/-- What the heap needs of its pages: `Holds n o` says that its first `n` pages are mapped, and that it has the page `o` in
hand. Pages from `base` on can be given back. -/
structure PageLaws (P : PageServices σ) (Holds : Nat → Option Nat → σ → Prop) (base : Nat) (F : MemoryPanic → Prop) :
    Prop where
  alloc : ∀ n s, Holds n none s → base ≤ n →
    wpe P.pmmAlloc (fun p s' => if p = 0 then Holds n none s' else Holds n (some p) s') F s
  map : ∀ n p s, Holds n (some p) s → base ≤ n → n < 4096 →
    wpe (P.vmmMap (virtualStart + n * 4096) p) (fun ok s' => if ok = true then Holds (n + 1) none s' else Holds n (some p) s')
      F s
  free : ∀ n p s, Holds n (some p) s → base ≤ n → wpe (P.pmmFree p) (fun ok s' => ok = true ∧ Holds n none s') F s
  unmap : ∀ n s, Holds (n + 1) none s → base ≤ n → n < 4096 →
    wpe (P.vmmUnmap (virtualStart + n * 4096)) (fun r s' => ∃ p, r = some p ∧ Holds n (some p) s') F s
  visible : ∀ n o s i, Holds n o s → virtualStart ≤ i → i < virtualStart + n * 4096 →
    P.accessible s i = true ∨ F (.fault i)

variable {P : PageServices σ} {Holds : Nat → Option Nat → σ → Prop} {F : MemoryPanic → Prop} {h : Heap σ}
  {base : Nat} {b t : Piece} {bs zs : List Piece}

theorem PageLaws.mono {base' : Nat} (L : PageLaws P Holds base F) (hle : base ≤ base') : PageLaws P Holds base' F where
  alloc n s hs hn := L.alloc n s hs (hle.trans hn)
  map n p s hs hn := L.map n p s hs (hle.trans hn)
  free n p s hs hn := L.free n p s hs (hle.trans hn)
  unmap n s hs hn := L.unmap n s hs (hle.trans hn)
  visible := L.visible

/-! ## Pages -/

@[simp] theorem wpe_page {m : Mem σ α} {Q : α → Heap σ → Prop} :
    wpe (page m) Q F h ↔ wpe m (fun a s => Q a { h with pages := s }) F h.pages := by
  unfold wpe page
  cases m h.pages with
  | error e => exact Iff.rfl
  | ok p => exact Iff.rfl

variable {Q : Bool → Heap σ → Prop} {pageCount : Nat}

/-- The first loop of `map_extension` maps some of the pages. -/
theorem mapPages_spec (L : PageLaws P Holds base F) {Q : Nat → Heap σ → Prop} {left mapped : Nat}
    (hp : Holds (base + mapped) none h.pages) (hbound : base + mapped + left ≤ 4096)
    (hQ : ∀ count pages', count ≤ mapped + left → Holds (base + count) none pages' →
      Q count { h with pages := pages' }) :
    wpe (mapPages P (virtualStart + base * 4096) left mapped) Q F h := by
  have hstart : virtualStart = 0xD1000000 := rfl
  induction left generalizing h mapped with
  | zero => exact hQ mapped h.pages le_rfl hp
  | succ left ih =>
    unfold mapPages
    rw [wpe_bind, wpe_page]
    refine (L.alloc _ _ hp (Nat.le_add_right ..)).mono fun physical pages₁ h₁ => ?_
    split
    · next hzero =>
      rw [if_pos hzero] at h₁
      exact hQ mapped pages₁ (by omega) h₁
    · next hne =>
      rw [if_neg hne] at h₁
      rw [wpe_bind, wpe_page, add32_eq (by omega),
        show virtualStart + base * 4096 + mapped * 4096 = virtualStart + (base + mapped) * 4096 by omega]
      refine (L.map _ _ _ h₁ (Nat.le_add_right ..) (by omega)).mono fun ok pages₂ h₂ => ?_
      split
      · next hok =>
        rw [if_pos hok] at h₂
        exact ih (h := { h with pages := pages₂ }) h₂ (by omega) fun count pages' hle =>
          hQ count pages' (by omega)
      · next hok =>
        rw [if_neg hok] at h₂
        rw [wpe_bind, wpe_page]
        refine (L.free _ _ _ h₂ (Nat.le_add_right ..)).mono fun ok pages₃ h₃ => ?_
        exact panicUnless_bind h₃.1 (hQ mapped pages₃ (by omega) h₃.2)

/-- The second loop of `map_extension` gives all of them back. -/
theorem unmapPages_spec (L : PageLaws P Holds base F) {Q : Unit → Heap σ → Prop} {mapped : Nat}
    (hp : Holds (base + mapped) none h.pages) (hbound : base + mapped ≤ 4096)
    (hQ : ∀ pages', Holds base none pages' → Q () { h with pages := pages' }) :
    wpe (unmapPages P (virtualStart + base * 4096) mapped) Q F h := by
  have hstart : virtualStart = 0xD1000000 := rfl
  induction mapped generalizing h with
  | zero => exact hQ h.pages hp
  | succ mapped ih =>
    unfold unmapPages
    rw [wpe_bind, wpe_page, add32_eq (by omega),
      show virtualStart + base * 4096 + mapped * 4096 = virtualStart + (base + mapped) * 4096 by omega]
    refine (L.unmap (base + mapped) _ hp (Nat.le_add_right ..) (by omega)).mono fun r pages₁ h₁ => ?_
    obtain ⟨physical, rfl, h₁⟩ := h₁
    dsimp only
    rw [wpe_bind, wpe_page]
    refine (L.free _ _ _ h₁ (Nat.le_add_right ..)).mono fun ok pages₂ h₂ => panicUnless_bind h₂.1 ?_
    exact ih (h := { h with pages := pages₂ }) h₂.2 (by omega) hQ

/-- `map_extension` maps all pages or none. -/
theorem mapExtension_spec (L : PageLaws P Holds base F)
    (hp : Holds base none h.pages) (hbound : base + pageCount ≤ 4096)
    (htrue : ∀ pages', Holds (base + pageCount) none pages' → Q true { h with pages := pages' })
    (hfalse : ∀ pages', Holds base none pages' → Q false { h with pages := pages' }) :
    wpe (mapExtension P (virtualStart + base * 4096) pageCount) Q F h := by
  unfold mapExtension
  rw [wpe_bind]
  refine mapPages_spec L (show Holds (base + 0) none h.pages from hp) (by omega) fun count pages' hcount hpages => ?_
  split
  · next heq => exact htrue pages' (heq ▸ hpages)
  · rw [wpe_bind]
    exact unmapPages_spec L (h := { h with pages := pages' }) hpages (by omega) hfalse

/-! ## The blocks of a heap that has grown -/

/-- The blocks after growth by some pages: the last block takes them if it is free, and is followed by a new one if not. -/
def grown (e pageCount : Nat) (bs : List Piece) (t : Piece) : List Piece :=
  if t.free = true then bs ++ [⟨t.address, t.size + pageCount * 4096, true⟩]
  else bs ++ [t, ⟨e, pageCount * 4096 - 24, true⟩]

/-- The heap with more pages. -/
def withPages (h : Heap σ) (pageCount : Nat) (pages : σ) (words : Nat → Nat) : Heap σ :=
  { h with
    heapEnd := h.heapEnd + pageCount * 4096
    heapMappedPages := h.heapMappedPages + pageCount
    words := words
    pages := pages }

section
variable {pageCount : Nat} {pages : σ} {w' : Nat → Nat}

/-- The last block takes the new pages. -/
theorem Shape.stretch (hs : Shape h (zs ++ [t])) (hfree : t.free = true)
    (hbound : (h.heapMappedPages + pageCount) * 4096 ≤ maxSize) :
    Shape (withPages h pageCount pages (Function.update h.words (t.address + 4) (t.size + pageCount * 4096)))
      (zs ++ [⟨t.address, t.size + pageCount * 4096, true⟩]) := by
  obtain ⟨htz, htt⟩ := tiles_middle.1 hs.tiles
  obtain ⟨hlz, hlt, -⟩ := linked_middle.1 hs.linked
  have hother : ∀ i, i ≠ t.address + 4 →
      Function.update h.words (t.address + 4) (t.size + pageCount * 4096) i = h.words i := fun i hi =>
    Function.update_of_ne hi ..
  have hend : t.address + 24 + t.size = h.heapEnd := htt
  refine
    { initialized := hs.initialized
      head := hs.head
      nonempty := by simp
      tiles := tiles_middle.2 ⟨htz, ?_⟩
      linked := linked_middle.2 ⟨hlz.congr htz fun i _ hi => hother i (by omega), ?_, trivial⟩
      aligned := fun b hb => ?_
      mapped := ?_
      bounded := hbound }
  · show t.address + 24 + (t.size + pageCount * 4096) = h.heapEnd + pageCount * 4096
    omega
  · rw [← hfree]
    exact hlt.resize (fun i hi => hother i (by omega)) (Function.update_self ..) ((hother _ (by omega)).trans hlt.next)
  · rcases List.mem_append.1 hb with hb | hb
    · exact hs.aligned b (List.mem_append_left _ hb)
    · have ht := hs.aligned t (by simp)
      rw [List.mem_singleton.1 hb]
      dsimp only
      omega
  · have hmapped := hs.mapped
    show h.heapEnd + pageCount * 4096 = virtualStart + (h.heapMappedPages + pageCount) * 4096
    omega

/-- The new pages are a block of their own behind the last. -/
theorem Shape.extend (hs : Shape h (zs ++ [t])) (hpos : 1 ≤ pageCount)
    (hbound : (h.heapMappedPages + pageCount) * 4096 ≤ maxSize) :
    Shape (withPages h pageCount pages (Function.update (initialWords h.words h.heapEnd (pageCount * 4096 - 24)
      t.address 0) (t.address + 12) h.heapEnd)) (zs ++ [t, ⟨h.heapEnd, pageCount * 4096 - 24, true⟩]) := by
  obtain ⟨htz, htt⟩ := tiles_middle.1 hs.tiles
  have hend : t.address + 24 + t.size = h.heapEnd := htt
  have hother : ∀ i, i < h.heapEnd → i ≠ t.address + 12 → Function.update (initialWords h.words h.heapEnd
      (pageCount * 4096 - 24) t.address 0) (t.address + 12) h.heapEnd i = h.words i := fun i hlt hne => by
    rw [Function.update_of_ne hne, initialWords_of_ne (.inl hlt)]
  have hlast : Linked _ 0 (zs ++ [t]) h.heapEnd :=
    hs.linked.relink_last hs.tiles (fun i _ hlt hne => hother i hlt hne) (Function.update_self ..)
  refine
    { initialized := hs.initialized
      head := hs.head
      nonempty := by simp
      tiles := ?_
      linked := ?_
      aligned := fun b hb => ?_
      mapped := ?_
      bounded := hbound }
  · refine tiles_middle.2 ⟨htz, hend.symm, ?_⟩
    show t.address + 24 + t.size + 24 + (pageCount * 4096 - 24) = h.heapEnd + pageCount * 4096
    omega
  · rw [List.append_cons]
    refine linked_middle.2 ⟨hlast, ?_, trivial⟩
    rw [lastAddress_append_singleton]
    refine (header_initialWords h.words h.heapEnd (pageCount * 4096 - 24) t.address 0).congr fun i hlow _ => ?_
    exact Function.update_of_ne (by dsimp only at hlow; omega) ..
  · rw [List.append_cons] at hb
    rcases List.mem_append.1 hb with hb | hb
    · exact hs.aligned b hb
    · rw [List.mem_singleton.1 hb]
      dsimp only
      omega
  · have hmapped := hs.mapped
    show h.heapEnd + pageCount * 4096 = virtualStart + (h.heapMappedPages + pageCount) * 4096
    omega

end

theorem live_grown (e pageCount : Nat) (zs : List Piece) (t : Piece) :
    live (grown e pageCount zs t) = live (zs ++ [t]) := by
  unfold grown
  split
  · next hfree =>
    rw [live_append, live_append, live_cons_free hfree]
    exact congrArg _ (live_cons_free rfl)
  · rw [List.append_cons, live_append]
    exact (congrArg _ (live_cons_free rfl)).trans (List.append_nil _)

theorem apart_grown {e : Nat} (hapart : Apart (zs ++ [t])) : Apart (grown e pageCount zs t) := by
  obtain ⟨hzs, -, hlast, -⟩ := apart_middle.1 hapart
  unfold grown
  split
  · next hfree =>
    refine apart_middle.2 ⟨hzs, List.isChain_nil, fun x hx hxfree => ?_, nofun⟩
    exact absurd (hlast x hx hxfree) (by simp [hfree])
  · next hfree =>
    rw [List.append_cons]
    refine apart_middle.2 ⟨hapart, List.isChain_nil, fun x hx hxfree => ?_, nofun⟩
    rw [List.getLast?_append, List.getLast?_singleton, Option.some_or] at hx
    exact absurd (Option.mem_some.1 hx ▸ hxfree) hfree

/-! ## Growth -/

/-- `grow_heap` from where it knows how much it needs: all pages are mapped, or nothing has changed but that pages may
have been handed out and taken back. -/
theorem extendTail_spec (L : PageLaws P Holds h.heapMappedPages F) {required : Nat}
    (hs : Shape h (zs ++ [t])) (hp : Holds h.heapMappedPages none h.pages) (hpos : 1 ≤ required)
    (hsmall : required ≤ 0x1000000)
    (htrue : ∀ pageCount pages' w', required ≤ pageCount * 4096 → Holds (h.heapMappedPages + pageCount) none pages' →
      Shape (withPages h pageCount pages' w') (grown h.heapEnd pageCount zs t) → Q true (withPages h pageCount pages' w'))
    (hfalse : ∀ pages', Holds h.heapMappedPages none pages' → Q false { h with pages := pages' }) :
    wpe (extendTail P t.address required) Q F h := by
  have hstart : virtualStart = 0xD1000000 := rfl
  have hmax : maxSize = 0x1000000 := rfl
  have hmapped := hs.mapped
  have hbounded := hs.bounded
  obtain ⟨hlow, hhigh, -, -, -⟩ := hs.bounds (b := t) (by simp)
  unfold extendTail
  rw [wpe_bind, wpe_get, add32_eq (by omega), sub32_eq (by omega) (by omega)]
  dsimp only
  obtain ⟨pageCount, hcount⟩ : ∃ n, n = (required + 4095) / 4096 := ⟨_, rfl⟩
  rw [← hcount]
  split
  · exact hfalse h.pages hp
  · next hroom =>
    have hbound : (h.heapMappedPages + pageCount) * 4096 ≤ maxSize := by
      have hle := (Nat.le_div_iff_mul_le (by decide)).1 (Nat.not_lt.1 hroom)
      rw [Nat.add_mul, Nat.add_comm]
      exact Nat.add_le_of_le_sub hbounded hle
    rw [wpe_bind, hmapped]
    refine mapExtension_spec L hp (by omega) (fun pages' hpages => ?_) fun pages' hpages => ?_
    swap
    · rw [if_neg Bool.false_ne_true]
      exact hfalse pages' hpages
    rw [if_pos rfl, wpe_bind, wpe_modify]
    dsimp only
    -- the heap with its new end, before the blocks are changed
    obtain ⟨h₁, hh₁⟩ : ∃ h₁, h₁ = withPages h pageCount pages' h.words := ⟨_, rfl⟩
    have hset : ({ h with
        heapEnd := add32 h.heapEnd (pageCount * 4096)
        heapMappedPages := h.heapMappedPages + pageCount
        pages := pages' } : Heap σ) = h₁ := by
      rw [hh₁, add32_eq (by omega)]
      rfl
    have hend : h₁.heapEnd = h.heapEnd + pageCount * 4096 := by rw [hh₁]; rfl
    have hwords : h₁.words = h.words := by rw [hh₁]; rfl
    have hv : Visible P F h₁ := by
      intro i hi hlt
      rw [hh₁]
      exact L.visible _ none pages' i hpages hi (by omega)
    rw [hset, ← hmapped]
    refine load_bind hv (by omega) (by omega) ?_
    rw [hwords]
    have hheader := hs.header
    unfold grown at htrue
    split
    · next hstate =>
      have hfree := hheader.state_eq_free.1 hstate
      simp only [if_pos hfree] at htrue
      refine load_bind hv (by omega) (by omega) ?_
      rw [hwords, hheader.size, add32_eq (by omega)]
      refine store_bind hv (by omega) (by omega) ?_
      rw [hwords, hh₁]
      exact htrue pageCount pages' _ (by omega) hpages (hs.stretch hfree hbound)
    · next hstate =>
      have hfree := hheader.state_eq_free.not.1 hstate
      simp only [if_neg hfree] at htrue
      rw [sub32_eq (by omega) (by omega)]
      refine initializeBlock_bind hv (by omega) (by omega) (store_bind hv (by omega) (by dsimp only; omega) ?_)
      dsimp only
      rw [hwords, hh₁]
      exact htrue pageCount pages' _ (by omega) hpages (hs.extend (by omega) hbound)

/-- `grow_heap` where no block fits: a block that fits, behind all others, or nothing has changed. -/
theorem growHeap_spec (L : PageLaws P Holds h.heapMappedPages F) {size : Nat}
    (hs : Shape h bs) (hapart : Apart bs) (hp : Holds h.heapMappedPages none h.pages)
    (hsize : size ≤ maxSize - 24) (hnone : ∀ b ∈ bs, b.free = true → b.size < size)
    (htrue : ∀ pageCount pages' w' bs', Holds (h.heapMappedPages + pageCount) none pages' →
      Shape (withPages h pageCount pages' w') bs' → Apart bs' → live bs' = live bs →
      (∃ b ∈ bs', b.free = true ∧ size ≤ b.size) → Q true (withPages h pageCount pages' w'))
    (hfalse : ∀ pages', Holds h.heapMappedPages none pages' → Q false { h with pages := pages' }) :
    wpe (growHeap P size) Q F h := by
  have hstart : virtualStart = 0xD1000000 := rfl
  have hmax : maxSize = 0x1000000 := rfl
  have hv : Visible P F h := fun i hi hlt => L.visible _ none _ i hp hi (hs.mapped ▸ hlt)
  unfold growHeap
  rw [wpe_bind]
  refine heapTail_spec hv hs fun zs t heq => ?_
  subst heq
  obtain ⟨hlow, hhigh, hend, hpos, -⟩ := hs.bounds (b := t) (by simp)
  have hheader := hs.header
  refine load_bind hv (by omega) (by omega) ?_
  split
  · next hstate =>
    have hfree := hheader.state_eq_free.1 hstate
    have hlt := hnone t (by simp) hfree
    refine load_bind hv (by omega) (by omega) ?_
    rw [hheader.size, if_neg (by omega), sub32_eq (by omega) (by omega)]
    refine extendTail_spec L hs hp (by omega) (by omega) (fun pageCount pages' w' hle hpages hs' => ?_) hfalse
    refine htrue pageCount pages' w' _ hpages hs' (apart_grown hapart) (live_grown ..) ?_
    refine ⟨⟨t.address, t.size + pageCount * 4096, true⟩, ?_, rfl, by dsimp only; omega⟩
    rw [grown, if_pos hfree]
    simp
  · next hstate =>
    have hfree := hheader.state_eq_free.not.1 hstate
    rw [if_neg (by omega), add32_eq (by omega)]
    refine extendTail_spec L hs hp (by omega) (by omega) (fun pageCount pages' w' hle hpages hs' => ?_) hfalse
    refine htrue pageCount pages' w' _ hpages hs' (apart_grown hapart) (live_grown ..) ?_
    refine ⟨⟨h.heapEnd, pageCount * 4096 - 24, true⟩, ?_, rfl, by dsimp only; omega⟩
    rw [grown, if_neg hfree]
    simp

end Heap

end MiniOrange

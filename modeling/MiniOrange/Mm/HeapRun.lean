import MiniOrange.Logic.Run
import MiniOrange.Mm.HeapGrowth

/-!
# The runs of the heap

What `kmalloc` and `kfree` do to the blocks, and the invariant of the heap: over all calls, whatever the owners of blocks
write in them, the blocks tile the heap, no two free ones are neighbours, and no call stops the machine.
-/

namespace MiniOrange

namespace Heap

variable {σ : Type} {P : PageServices σ} {Holds : Nat → Option Nat → σ → Prop} {F : MemoryPanic → Prop} {h h' : Heap σ}
  {b c : Piece} {bs bs' : List Piece} {size aligned address : Nat}

theorem Shape.visible (hs : Shape h bs) {base : Nat} {o : Option Nat} (L : PageLaws P Holds base F)
    (hp : Holds h.heapMappedPages o h.pages) : Visible P F h := fun i hi hlt =>
  L.visible _ o _ i hp hi (hs.mapped ▸ hlt)

theorem alignRequest_some (h : alignRequest size = some aligned) :
    aligned % 8 = 0 ∧ 8 ≤ aligned ∧ aligned ≤ maxSize - 24 ∧ size ≤ aligned ∧ aligned < size + 8 := by
  unfold alignRequest at h
  split at h
  · cases h
  · split at h
    · cases h
    · rw [← Option.some.inj h]
      omega

/-! ## Allocation -/

/-- A block is added to those that are not free. -/
def Inserted (bs : List Piece) (b : Piece) (bs' : List Piece) : Prop :=
  ∃ us vs, live bs = us ++ vs ∧ live bs' = us ++ b :: vs

/-- The first free block that is large enough. -/
def FirstFit (size : Nat) (bs : List Piece) (b : Piece) : Prop :=
  ∃ us vs, bs = us ++ b :: vs ∧ b.free = true ∧ size ≤ b.size ∧ ∀ c ∈ us, c.free = true → c.size < size

/-- Of two first blocks each is before the other. -/
theorem FirstFit.unique (hb : FirstFit size bs b) (hc : FirstFit size bs c) : c = b := by
  obtain ⟨us, vs, rfl, hfree, hfit, hfirst⟩ := hb
  obtain ⟨us', vs', heq, hcfree, hcfit, hcfirst⟩ := hc
  rcases List.append_eq_append_iff.1 heq with ⟨as, rfl, has⟩ | ⟨as, rfl, has⟩
  · cases as with
    | nil => exact (List.cons.inj has).1.symm
    | cons a as =>
      obtain ⟨rfl, -⟩ := List.cons.inj has
      exact absurd (hcfirst b (by simp) hfree) (Nat.not_lt.2 hfit)
  · cases as with
    | nil => exact (List.cons.inj has).1
    | cons a as =>
      obtain ⟨rfl, -⟩ := List.cons.inj has
      exact absurd (hfirst c (by simp) hcfree) (Nat.not_lt.2 hcfit)

/-- The block that is taken is inserted among the others. -/
theorem FirstFit.carve (h : FirstFit size bs b) : ∃ us vs, bs = us ++ b :: vs ∧ b.free = true ∧ size ≤ b.size ∧
    ∃ n, size ≤ n ∧ Inserted bs ⟨b.address, n, false⟩ (us ++ carve size b vs) := by
  obtain ⟨us, vs, rfl, hfree, hfit, -⟩ := h
  obtain ⟨n, zs, heq, hle, hlive⟩ := carve_eq vs hfit
  refine ⟨us, vs, rfl, hfree, hfit, n, hle, live us, live vs, ?_, ?_⟩
  · rw [live_append, live_cons_free hfree]
  · rw [heq, live_append, live_cons rfl, hlive]

/-- `find_first_fit`, and the block is taken. -/
theorem takeFirst_spec {Q : Nat → Heap σ → Prop} (hv : Visible P F h) (hs : Shape h bs) (hapart : Apart bs)
    (hmod : aligned % 8 = 0) (hpos : 8 ≤ aligned) (hfit : FirstFit aligned bs b)
    (hQ : ∀ w' bs' n, Shape { h with words := w' } bs' → Apart bs' → aligned ≤ n → Inserted bs ⟨b.address, n, false⟩ bs' →
      Q (b.address + 24) { h with words := w' }) :
    wpe (takeBlock P b.address aligned) Q F h := by
  obtain ⟨us, vs, rfl, hfree, hle, n, hn, hinserted⟩ := hfit.carve
  exact takeBlock_spec hv hs hmod hpos hle fun w' hs' => hQ w' _ n hs' (apart_carve hfree hapart) hn hinserted

/-- `kmalloc`: NULL, with nothing changed but that pages may have been handed out and taken back, or a new block, in the
place of the first that fits. -/
theorem kmalloc_spec (L : PageLaws P Holds h.heapMappedPages F) {Q : Nat → Heap σ → Prop} (hs : Shape h bs)
    (hapart : Apart bs) (hp : Holds h.heapMappedPages none h.pages)
    (hnull : ∀ pages', Holds h.heapMappedPages none pages' → Q 0 { h with pages := pages' })
    (hsome : ∀ aligned b h' bs', alignRequest size = some aligned → Shape h' bs' → Apart bs' →
      Holds h'.heapMappedPages none h'.pages → b.free = false → aligned ≤ b.size → Inserted bs b bs' →
      (∀ c, FirstFit aligned bs c → c.address = b.address) → Q (b.address + 24) h') :
    wpe (kmalloc P size) Q F h := by
  have hv := hs.visible L hp
  unfold kmalloc
  rw [wpe_bind, wpe_get, hs.initialized, if_neg (by decide)]
  cases haligned : alignRequest size with
  | none => exact hnull h.pages hp
  | some aligned =>
    obtain ⟨hmod, hpos, hmax, -, -⟩ := alignRequest_some haligned
    dsimp only
    rw [wpe_bind]
    refine findFirstFit_spec hv hs (fun hnone => ?_) fun us b vs heq hfree hfit hfirst => ?_
    · -- no block fits, so the heap has to grow
      dsimp only
      rw [wpe_bind]
      refine growHeap_spec L hs hapart hp hmax hnone ?_ hnull
      intro pageCount pages' w' bs₁ hp₁ hs₁ hapart₁ hlive₁ hfits
      rw [if_pos rfl, wpe_bind]
      have hv₁ : Visible P F (withPages h pageCount pages' w') := hs₁.visible L hp₁
      refine findFirstFit_spec hv₁ hs₁ (fun hnone₁ => ?_) fun us b vs heq hfree hfit hfirst => ?_
      · obtain ⟨b, hb, hfree, hfit⟩ := hfits
        exact absurd (hnone₁ b hb hfree) (Nat.not_lt.2 hfit)
      · dsimp only
        have hb : FirstFit aligned bs₁ b := ⟨us, vs, heq, hfree, hfit, hfirst⟩
        refine takeFirst_spec hv₁ hs₁ hapart₁ hmod hpos hb fun w₂ bs₂ n hs₂ hapart₂ hn hins => ?_
        refine hsome aligned ⟨b.address, n, false⟩ _ bs₂ haligned hs₂ hapart₂ hp₁ rfl hn ?_ ?_
        · obtain ⟨us', vs', h₁, h₂⟩ := hins
          exact ⟨us', vs', hlive₁.symm.trans h₁, h₂⟩
        · intro c hc
          obtain ⟨us', vs', rfl, hcfree, hcfit, -⟩ := hc
          exact absurd (hnone c (by simp) hcfree) (Nat.not_lt.2 hcfit)
    · dsimp only
      have hb : FirstFit aligned bs b := ⟨us, vs, heq, hfree, hfit, hfirst⟩
      refine takeFirst_spec hv hs hapart hmod hpos hb fun w' bs' n hs' hapart' hn hins => ?_
      refine hsome aligned ⟨b.address, n, false⟩ _ bs' haligned hs' hapart' hp rfl hn hins fun c hc => ?_
      rw [hb.unique hc]

/-! ## Freeing -/

theorem Shape.dvd_address (hs : Shape h bs) (hb : b ∈ bs) : 8 ∣ b.address :=
  hs.tiles.dvd (by decide) (by decide) (fun b hb => Nat.dvd_of_mod_eq_zero (hs.aligned b hb).1) hb

/-- `kfree`: of NULL it does nothing, of a block that is not free it frees this one, and all else it rejects. -/
theorem kfree_spec {Q : Bool → Heap σ → Prop} (hv : Visible P F h) (hs : Shape h bs) (hapart : Apart bs)
    (hnull : address = 0 → Q true h)
    (hfalse : address ≠ 0 → (∀ b ∈ live bs, b.address + 24 ≠ address) → Q false h)
    (htrue : ∀ b w' bs', b ∈ live bs → b.address + 24 = address → Shape { h with words := w' } bs' → Apart bs' →
      Inserted bs' b bs → Q true { h with words := w' }) :
    wpe (kfree P address) Q F h := by
  unfold kfree
  rw [wpe_bind, wpe_get]
  have hstart : virtualStart = 0xD1000000 := rfl
  split
  · next hzero => exact hnull hzero
  · next hzero =>
    rw [hs.initialized, if_neg (by decide)]
    split
    · next hout =>
      refine hfalse hzero fun b hb heq => ?_
      have hmem := (mem_live.1 hb).1
      obtain ⟨hlow, hhigh, -, hpos, -⟩ := hs.bounds hmem
      have hdvd := hs.dvd_address hmem
      omega
    · rw [hs.head, ← headAddress_of_tiles (n := 0) hs.tiles hs.nonempty]
      refine freeFrom_spec hv (show Shape h ([] ++ bs) from hs) hapart hs.length_lt (fun hall => ?_) ?_
      · exact hfalse hzero fun b hb => hall b (mem_live.1 hb).1 (mem_live.1 hb).2
      · intro us b vs w' bs' heq hb haddress hs' hapart' hlive
        refine htrue b w' bs' ?_ haddress hs' hapart' ⟨live us, live vs, hlive, ?_⟩
        · exact mem_live.2 ⟨heq ▸ List.mem_append_right _ (List.mem_cons_self ..), hb⟩
        · rw [heq, live_append, live_cons hb]

/-! ## What the owners write -/

/-- The headers decide about the list of the blocks. -/
theorem Linked.congr_headers {w w' : Nat → Nat} {p n : Nat} (hl : Linked w p bs n)
    (hw : ∀ b ∈ bs, ∀ i, b.address ≤ i → i < b.address + 24 → w' i = w i) : Linked w' p bs n := by
  induction bs generalizing p with
  | nil => trivial
  | cons b bs ih =>
    obtain ⟨hb, hbs⟩ := List.forall_mem_cons.1 hw
    exact ⟨hl.1.congr hb, ih hl.2 hbs⟩

/-- Nothing differs outside of the payloads of the blocks that are not free. -/
def Confined (h : Heap σ) (w' : Nat → Nat) : Prop :=
  ∀ bs, Shape h bs → ∀ i, (∀ b ∈ live bs, ¬ (b.address + 24 ≤ i ∧ i < b.address + 24 + b.size)) → w' i = h.words i

theorem Shape.confined {w' : Nat → Nat} (hs : Shape h bs) (hw : Confined h w') : Shape { h with words := w' } bs where
  initialized := hs.initialized
  head := hs.head
  nonempty := hs.nonempty
  tiles := hs.tiles
  linked := hs.linked.congr_headers fun b hb i hlow hhigh => hw bs hs i fun c hc hin => by
    rcases hs.tiles.disjoint hb (mem_live.1 hc).1 with rfl | hle | hle
    · omega
    · omega
    · omega
  aligned := hs.aligned
  mapped := hs.mapped
  bounded := hs.bounded

/-! ## Runs -/

/-- What is seen of a step of the heap. -/
inductive HeapEvent where
  | kmalloc (size result : Nat)
  | kfree (address : Nat) (result : Bool)
  | write
  | other
  deriving DecidableEq, Repr

/-- A step: a call, a write by the owners of blocks, or other work on the pages. -/
inductive HeapStep (P : PageServices σ) (Holds : Nat → Option Nat → σ → Prop) (h : Heap σ) : HeapEvent → Heap σ → Prop
  | kmalloc {size result : Nat} {h' : Heap σ} : kmalloc P size h = .ok (result, h') →
      HeapStep P Holds h (.kmalloc size result) h'
  | kfree {address : Nat} {result : Bool} {h' : Heap σ} : kfree P address h = .ok (result, h') →
      HeapStep P Holds h (.kfree address result) h'
  | write {w' : Nat → Nat} : Confined h w' → HeapStep P Holds h .write { h with words := w' }
  | other {pages' : σ} : Holds h.heapMappedPages none pages' → HeapStep P Holds h .other { h with pages := pages' }

/-- The invariant of the heap. -/
structure Sound (Holds : Nat → Option Nat → σ → Prop) (h : Heap σ) (bs : List Piece) : Prop where
  shape : Shape h bs
  apart : Apart bs
  pages : Holds h.heapMappedPages none h.pages

theorem Sound.kmalloc (L : PageLaws P Holds h.heapMappedPages F) (hs : Sound Holds h bs) (size : Nat) :
    wpe (kmalloc P size) (fun _ h' => ∃ bs', Sound Holds h' bs') F h :=
  kmalloc_spec L hs.shape hs.apart hs.pages
    (fun _ hp => ⟨bs, { hs.shape with }, hs.apart, hp⟩)
    fun _ _ _ bs' _ hs' hapart' hp' _ _ _ _ => ⟨bs', hs', hapart', hp'⟩

theorem Sound.kfree {base : Nat} (L : PageLaws P Holds base F) (hs : Sound Holds h bs) (address : Nat) :
    wpe (kfree P address) (fun _ h' => ∃ bs', Sound Holds h' bs') F h :=
  kfree_spec (hs.shape.visible L hs.pages) hs.shape hs.apart (fun _ => ⟨bs, hs⟩) (fun _ _ => ⟨bs, hs⟩)
    fun _ _ bs' _ _ hs' hapart' _ => ⟨bs', hs', hapart', hs.pages⟩

/-- Every step keeps the invariant. -/
theorem Sound.step {e : HeapEvent} (L : PageLaws P Holds 0 F) (hs : Sound Holds h bs) (hstep : HeapStep P Holds h e h') :
    ∃ bs', Sound Holds h' bs' := by
  cases hstep with
  | kmalloc hok => exact (hs.kmalloc (L.mono (Nat.zero_le _)) _).of_ok hok
  | kfree hok => exact (hs.kfree L _).of_ok hok
  | write hw => exact ⟨bs, hs.shape.confined hw, hs.apart, hs.pages⟩
  | other hp => exact ⟨bs, { hs.shape with }, hs.apart, hp⟩

/-- The heap of one page with one free block. -/
theorem shape_initial (w : Nat → Nat) (s : σ) :
    Shape ⟨virtualStart, virtualStart + 4096, 1, true, initialWords w virtualStart 4072 0 0, s⟩
      [⟨virtualStart, 4072, true⟩] where
  initialized := rfl
  head := rfl
  nonempty := by simp
  tiles := ⟨rfl, show virtualStart + 24 + 4072 = virtualStart + 4096 by decide⟩
  linked := ⟨header_initialWords .., trivial⟩
  aligned b hb := by
    rw [List.mem_singleton.1 hb]
    decide
  mapped := show virtualStart + 4096 = virtualStart + 1 * 4096 by decide
  bounded := show 1 * 4096 ≤ maxSize by decide

/-- `heap_init` makes one free block. -/
theorem heapInit_spec (L : PageLaws P Holds 0 F) (hinit : h.heapInitialized = false) (hp : Holds 0 none h.pages) :
    wpe (heapInit P) (fun _ h' => ∃ bs', Sound Holds h' bs')
      (fun e => F e ∨ e = .heapInitialPage) h := by
  have hweak : ∀ e, F e → F e ∨ e = .heapInitialPage := fun _ he => .inl he
  unfold heapInit
  rw [wpe_bind, wpe_get]
  refine panicUnless_bind hinit ?_
  rw [wpe_bind, wpe_page]
  refine ((L.alloc 0 _ hp le_rfl).mono_error hweak).mono fun physical pages₁ h₁ => ?_
  rw [wpe_bind, wpe_panicUnless]
  refine ⟨fun hne => ?_, fun _ => .inr rfl⟩
  rw [if_neg hne] at h₁
  rw [wpe_bind, wpe_page]
  refine ((L.map 0 _ _ h₁ le_rfl (by decide)).mono_error hweak).mono fun ok pages₂ h₂ => ?_
  split
  · next hok =>
    rw [if_pos hok] at h₂
    rw [wpe_bind, wpe_modify]
    dsimp only
    refine initializeBlock_bind (F := fun e => F e ∨ e = .heapInitialPage) ?_ (by decide) ?_ ?_
    · intro i hi hlt
      exact (L.visible 1 none pages₂ i h₂ hi hlt).imp_right .inl
    · show virtualStart + 24 ≤ virtualStart + 4096
      decide
    · exact ⟨_, shape_initial h.words pages₂, List.isChain_singleton _, h₂⟩
  · next hok =>
    rw [if_neg hok] at h₂
    rw [wpe_bind, wpe_page]
    refine ((L.free 0 _ _ h₂ le_rfl).mono_error hweak).mono fun ok pages₃ h₃ => ?_
    exact panicUnless_bind h₃.1 (.inr rfl)

theorem Sound.run {es : List HeapEvent} {h₀ : Heap σ} (L : PageLaws P Holds 0 F) (hs : Sound Holds h₀ bs)
    (hrun : Run (HeapStep P Holds) h₀ es h) : ∃ bs', Sound Holds h bs' :=
  hrun.invariant (I := fun h => ∃ bs, Sound Holds h bs) ⟨bs, hs⟩ fun _ _ _ ⟨_, hs⟩ hstep => hs.step L hstep

/-- After `heap_init`, over all calls, the blocks tile the heap and are linked in both directions, no two free ones are
neighbours, all blocks free are one block, and no call stops the machine. -/
theorem heap_invariant {h₀ h₁ : Heap σ} {es : List HeapEvent} (L : PageLaws P Holds 0 fun _ => False)
    (hinit : h₀.heapInitialized = false) (hpages : Holds 0 none h₀.pages) (hboot : heapInit P h₀ = .ok ((), h₁))
    (hrun : Run (HeapStep P Holds) h₁ es h) :
    (∃ bs, Shape h bs ∧ Apart bs ∧ ((∀ b ∈ bs, b.free = true) → ∃ b, bs = [b])) ∧
    (∀ size, ∃ result h', Heap.kmalloc P size h = .ok (result, h')) ∧
    ∀ address, ∃ result h', Heap.kfree P address h = .ok (result, h') := by
  obtain ⟨bs₁, hs₁⟩ := (heapInit_spec L hinit hpages).of_ok hboot
  obtain ⟨bs, hs⟩ := hs₁.run L hrun
  refine ⟨⟨bs, hs.shape, hs.apart, fun hfree => hs.apart.eq_singleton hfree hs.shape.nonempty⟩, fun size => ?_,
    fun address => ?_⟩
  · obtain ⟨result, h', hok, -⟩ := (hs.kmalloc (L.mono (Nat.zero_le _)) size).exists_ok
    exact ⟨result, h', hok⟩
  · obtain ⟨result, h', hok, -⟩ := (hs.kfree L address).exists_ok
    exact ⟨result, h', hok⟩

/-- Pages that do not run out, of which only the number is kept. -/
def plenty : PageServices Nat where
  pmmAlloc := pure 0x100000
  pmmFree _ := pure true
  vmmMap _ _ := do
    modify (· + 1)
    return true
  vmmUnmap _ := do
    modify (· - 1)
    return some 0x100000
  accessible n i := decide (i < virtualStart + n * 4096)

theorem plenty_laws : PageLaws plenty (fun n _ s => s = n) 0 fun _ => False where
  alloc _ _ hs _ := hs
  map _ _ _ hs _ _ := congrArg (· + 1) hs
  free _ _ _ hs _ := ⟨rfl, hs⟩
  unmap n s hs _ _ := ⟨0x100000, rfl, by show s - 1 = n; omega⟩
  visible n _ s i hs _ hi := .inl (decide_eq_true (hs ▸ hi))

/-- The heap before `heap_init`. -/
def cold : Heap Nat := ⟨0, 0, 0, false, fun _ => 0, 0⟩

/-- A request for more than a page, behind `heap_init`. -/
theorem heap_invariant_cold : ∃ h₁ result h, heapInit plenty cold = .ok ((), h₁) ∧
    Heap.kmalloc plenty 5000 h₁ = .ok (result, h) ∧
    (∃ bs, Shape h bs ∧ Apart bs ∧ ((∀ b ∈ bs, b.free = true) → ∃ b, bs = [b])) ∧
    (∀ size, ∃ result h', Heap.kmalloc plenty size h = .ok (result, h')) ∧
    ∀ address, ∃ result h', Heap.kfree plenty address h = .ok (result, h') := by
  have hboot : heapInit plenty cold = .ok ((), _) := rfl
  obtain ⟨result, h, hok⟩ := (heap_invariant plenty_laws rfl rfl hboot .nil).2.1 5000
  exact ⟨_, result, h, hboot, hok, heap_invariant plenty_laws rfl rfl hboot (.single (.kmalloc hok))⟩

end Heap

end MiniOrange

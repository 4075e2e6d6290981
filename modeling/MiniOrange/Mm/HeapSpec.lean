import MiniOrange.Mm.Layout

/-!
# What the functions of the heap do to its blocks

One specification for each function of `heap.c` that works on the list of blocks.
-/

namespace MiniOrange

namespace Heap

variable {σ α : Type} {P : PageServices σ} {F : MemoryPanic → Prop} {h : Heap σ} {b c : Piece} {bs xs ys : List Piece}
  {i v : Nat}

/-! ## Reading and writing -/

theorem load_bind {f : Nat → Mem (Heap σ) α} {Q : α → Heap σ → Prop} (hv : Visible P F h) (hlow : 0xD1000000 ≤ i)
    (hhigh : i < h.heapEnd) (hf : wpe (f (h.words i)) Q F h) : wpe (load P i >>= f) Q F h := by
  unfold load
  rw [wpe_bind, wpe_bind, wpe_get, wpe_bind, wpe_panicUnless]
  exact ⟨fun _ => hf, fun hnot => (hv i hlow hhigh).resolve_left hnot⟩

variable {f : Unit → Mem (Heap σ) α} {Q : Unit → Heap σ → Prop} {condition : Prop} {panic : MemoryPanic}
  {count size block prev : Nat} {w : Nat → Nat}

theorem store_spec (hv : Visible P F h) (hlow : 0xD1000000 ≤ i) (hhigh : i < h.heapEnd)
    (hQ : Q () { h with words := Function.update h.words i v }) : wpe (store P i v) Q F h := by
  unfold store
  rw [wpe_bind, wpe_get, wpe_bind, wpe_panicUnless]
  exact ⟨fun _ => hQ, fun hnot => (hv i hlow hhigh).resolve_left hnot⟩

theorem store_bind {Q : α → Heap σ → Prop} (hv : Visible P F h) (hlow : 0xD1000000 ≤ i)
    (hhigh : i < h.heapEnd) (hf : wpe (f ()) Q F { h with words := Function.update h.words i v }) :
    wpe (store P i v >>= f) Q F h :=
  (wpe_bind ..).2 (store_spec hv hlow hhigh hf)

/-- A check that does not fail. -/
theorem panicUnless_bind [Decidable condition]
    {Q : α → Heap σ → Prop} (hcondition : condition) (hf : wpe (f ()) Q F h) :
    wpe (panicUnless condition panic >>= f) Q F h := by
  rw [wpe_bind, wpe_panicUnless]
  exact ⟨fun _ => hf, fun hnot => absurd hcondition hnot⟩

theorem panicUnless_spec [Decidable condition]
    (hcondition : condition) (hQ : Q () h) : wpe (panicUnless condition panic) Q F h :=
  wpe_panicUnless.2 ⟨fun _ => hQ, fun hnot => absurd hcondition hnot⟩

/-! ## Blocks -/

namespace Shape

theorem bounds (hs : Shape h bs) (hb : b ∈ bs) : 0xD1000000 ≤ b.address ∧ b.address + 24 + b.size ≤ h.heapEnd ∧
    h.heapEnd ≤ 0xD2000000 ∧ 8 ≤ b.size ∧ b.size % 8 = 0 := by
  obtain ⟨hlow, hhigh⟩ := hs.tiles.mem hb
  have hbounded := hs.bounded
  have hmapped := hs.mapped
  unfold virtualStart at hlow hmapped
  unfold maxSize at hbounded
  exact ⟨hlow, hhigh, by omega, (hs.aligned b hb).2, (hs.aligned b hb).1⟩

theorem payload (hs : Shape h bs) (hb : b ∈ bs) : payloadAddress b.address = b.address + 24 := by
  obtain ⟨hlow, hhigh, hend, -, -⟩ := hs.bounds hb
  exact add32_eq (by omega)

theorem header (hs : Shape h (xs ++ b :: ys)) : Header h.words b (lastAddress 0 xs) (headAddress 0 ys) :=
  (linked_middle.1 hs.linked).2.1

end Shape

/-- There are fewer blocks than words of 32 bits. -/
theorem Shape.length_lt (hs : Shape h bs) : bs.length < 2 ^ 32 := by
  have hle := hs.tiles.length_mul_le
  have hbounded := hs.bounded
  have hmapped := hs.mapped
  unfold virtualStart at hle hmapped
  unfold maxSize at hbounded
  omega

section

variable (hv : Visible P F h)
include hv

/-- The neighbour behind a block. -/
theorem validateNext_spec (hs : Shape h (xs ++ b :: ys)) (hQ : Q () h) :
    wpe (validateNext P b.address b.size (headAddress 0 ys)) Q F h := by
  obtain ⟨hlow, hhigh, hend, -, -⟩ := hs.bounds (List.mem_append_right xs (List.mem_cons_self ..))
  have htiles := (tiles_middle.1 hs.tiles).2
  unfold validateNext
  rw [wpe_bind, wpe_get, hs.payload (by simp), add32_eq (by omega)]
  dsimp only
  cases ys with
  | nil =>
    rw [headAddress, if_pos rfl]
    exact panicUnless_spec htiles hQ
  | cons c ys =>
    have hc := hs.bounds (b := c) (by simp)
    have hnext : c.address = b.address + 24 + b.size := htiles.1
    have hback := ((linked_middle.1 hs.linked).2.2).1.prev
    rw [headAddress, if_neg (by omega), sub32_eq (by omega) (by omega)]
    exact panicUnless_bind ⟨by omega, hnext⟩ (load_bind hv (by omega) (by omega) (panicUnless_spec hback hQ))

/-- The neighbour in front of a block. -/
theorem validatePrev_spec (hs : Shape h (xs ++ b :: ys)) (hQ : Q () h) :
    wpe (validatePrev P b.address (lastAddress 0 xs)) Q F h := by
  obtain ⟨hlow, hhigh, hend, -, -⟩ := hs.bounds (List.mem_append_right xs (List.mem_cons_self ..))
  unfold validatePrev
  rcases List.eq_nil_or_concat xs with rfl | ⟨xs', a, rfl⟩
  · rw [lastAddress, if_pos rfl, wpe_bind, wpe_get]
    refine panicUnless_spec ?_ hQ
    rw [hs.head]
    exact hs.tiles.1
  · have ha := hs.bounds (b := a) (by simp)
    rw [List.concat_eq_append, List.append_assoc] at hs
    have hb := (tiles_middle.1 hs.tiles).2.1
    have hheader := hs.header
    rw [List.concat_eq_append, lastAddress_append_singleton, if_neg (by omega), sub32_eq (by omega) (by omega)]
    refine panicUnless_bind ⟨ha.1, by omega⟩ (load_bind hv (by omega) (by omega) ?_)
    refine panicUnless_bind hheader.magic (load_bind hv (by omega) (by omega) ?_)
    refine panicUnless_bind hheader.next (load_bind hv (by omega) (by omega) (panicUnless_spec ?_ hQ))
    rw [hheader.size, hs.payload (by simp), add32_eq (by omega)]
    exact hb.symm

/-- `validate_block` finds nothing wrong. -/
theorem validateBlock_spec (hs : Shape h (xs ++ b :: ys)) (hQ : Q () h) :
    wpe (validateBlock P b.address) Q F h := by
  obtain ⟨hlow, hhigh, hend, -, hsize⟩ := hs.bounds (List.mem_append_right xs (List.mem_cons_self ..))
  have hheader := hs.header
  unfold validateBlock
  rw [wpe_bind, wpe_get]
  dsimp only
  rw [hs.payload (by simp), sub32_eq (by omega) (by omega), sub32_eq (by omega) (by omega)]
  refine panicUnless_bind ⟨hlow, by omega⟩ (load_bind hv (by omega) (by omega) ?_)
  refine panicUnless_bind hheader.magic (load_bind hv (by omega) (by omega) (panicUnless_bind ?_ ?_))
  · rw [hheader.state]
    split
    · exact .inl rfl
    · exact .inr rfl
  · refine load_bind hv (by omega) (by omega) (panicUnless_bind ?_ (load_bind hv (by omega) (by omega) ?_))
    · rw [hheader.size]
      exact ⟨by omega, hsize⟩
    · rw [hheader.size, hheader.next, wpe_bind]
      refine validateNext_spec hv hs (load_bind hv (by omega) (by omega) ?_)
      rw [hheader.prev]
      exact validatePrev_spec hv hs hQ

theorem validateBlock_bind {Q : α → Heap σ → Prop}
    (hs : Shape h (xs ++ b :: ys)) (hf : wpe (f ()) Q F h) : wpe (validateBlock P b.address >>= f) Q F h :=
  (wpe_bind ..).2 (validateBlock_spec hv hs hf)

/-! ## Searches -/

/-- `heap_tail` finds the last block. -/
theorem heapTailFrom_spec {Q : Nat → Heap σ → Prop} (hs : Shape h (xs ++ b :: ys))
    (hcount : ys.length < count) (hQ : ∀ zs t, xs ++ b :: ys = zs ++ [t] → Q t.address h) :
    wpe (heapTailFrom P count b.address) Q F h := by
  induction ys generalizing xs b count with
  | nil =>
    obtain ⟨count, rfl⟩ := Nat.exists_eq_add_of_lt hcount
    obtain ⟨hlow, hhigh, hend, -, -⟩ := hs.bounds (b := b) (by simp)
    unfold heapTailFrom
    refine load_bind hv (by omega) (by omega) ?_
    rw [hs.header.next, headAddress, if_pos rfl]
    exact validateBlock_bind hv hs (hQ xs b rfl)
  | cons c ys ih =>
    obtain ⟨count, rfl⟩ := Nat.exists_eq_add_of_lt hcount
    obtain ⟨hlow, hhigh, hend, -, -⟩ := hs.bounds (b := b) (by simp)
    have hc := hs.bounds (b := c) (by simp)
    unfold heapTailFrom
    refine load_bind hv (by omega) (by omega) ?_
    rw [hs.header.next, headAddress, if_neg (by omega)]
    rw [List.append_cons] at hs hQ
    rw [← List.append_cons] at hs
    refine validateBlock_bind hv hs ?_
    rw [List.append_cons] at hs
    exact ih hs (by simp only [List.length_cons]; omega) hQ

/-- `find_first_fit` looks at every block. -/
theorem findFirstFitFrom_spec {Q : Option Nat → Heap σ → Prop}
    (hs : Shape h (xs ++ ys)) (hcount : ys.length < count)
    (hnone : (∀ b ∈ ys, b.free = true → b.size < size) → Q none h)
    (hsome : ∀ us b vs, ys = us ++ b :: vs → b.free = true → size ≤ b.size →
      (∀ c ∈ us, c.free = true → c.size < size) → Q (some b.address) h) :
    wpe (findFirstFitFrom P size count (headAddress 0 ys)) Q F h := by
  induction ys generalizing xs count with
  | nil =>
    obtain ⟨count, rfl⟩ := Nat.exists_eq_add_of_lt hcount
    exact hnone nofun
  | cons b ys ih =>
    obtain ⟨count, rfl⟩ := Nat.exists_eq_add_of_lt hcount
    obtain ⟨hlow, hhigh, hend, -, -⟩ := hs.bounds (b := b) (by simp)
    have hheader := hs.header
    unfold findFirstFitFrom
    rw [headAddress, if_neg (by omega)]
    refine validateBlock_bind hv hs (load_bind hv (by omega) (by omega) (load_bind hv (by omega) (by omega) ?_))
    rw [hheader.size]
    split
    · next hfit => exact hsome [] b ys rfl (hheader.state_eq_free.1 hfit.1) hfit.2 nofun
    · next hfit =>
      refine load_bind hv (by omega) (by omega) ?_
      rw [hheader.next]
      rw [List.append_cons] at hs
      have hsmall : b.free = true → b.size < size := fun hfree => by
        by_contra hge
        exact hfit ⟨hheader.state_eq_free.2 hfree, Nat.not_lt.1 hge⟩
      refine ih hs (by simp only [List.length_cons]; omega) (fun hall => ?_) fun us c vs heq hfree hle hus => ?_
      · exact hnone (List.forall_mem_cons.2 ⟨hsmall, hall⟩)
      · exact hsome (b :: us) c vs (congrArg (b :: ·) heq) hfree hle (List.forall_mem_cons.2 ⟨hsmall, hus⟩)

/-- `find_first_fit`. -/
theorem findFirstFit_spec {Q : Option Nat → Heap σ → Prop} (hs : Shape h bs)
    (hnone : (∀ b ∈ bs, b.free = true → b.size < size) → Q none h)
    (hsome : ∀ us b vs, bs = us ++ b :: vs → b.free = true → size ≤ b.size →
      (∀ c ∈ us, c.free = true → c.size < size) → Q (some b.address) h) :
    wpe (findFirstFit P size) Q F h := by
  unfold findFirstFit
  rw [wpe_bind, wpe_get, hs.head, ← headAddress_of_tiles (n := 0) hs.tiles hs.nonempty]
  exact findFirstFitFrom_spec hv (show Shape h ([] ++ bs) from hs) hs.length_lt hnone hsome

/-- `heap_tail`. -/
theorem heapTail_spec {Q : Nat → Heap σ → Prop} (hs : Shape h bs)
    (hQ : ∀ zs t, bs = zs ++ [t] → Q t.address h) : wpe (heapTail P) Q F h := by
  unfold heapTail
  rw [wpe_bind, wpe_get, hs.head]
  cases bs with
  | nil => exact absurd rfl hs.nonempty
  | cons b bs =>
    rw [← hs.tiles.1]
    exact heapTailFrom_spec hv (show Shape h ([] ++ b :: bs) from hs) (Nat.lt_of_succ_lt hs.length_lt) hQ

end

/-! ## Edits of the list -/

/-- The words after `initialize_block`. -/
def initialWords (w : Nat → Nat) (block size prev next : Nat) : Nat → Nat :=
  Function.update (Function.update (Function.update (Function.update (Function.update (Function.update w
    block magic) (block + 4) size) (block + 8) prev) (block + 12) next) (block + 16) stateFree) (block + 20) 0

theorem header_initialWords (w : Nat → Nat) (block size prev next : Nat) :
    Header (initialWords w block size prev next) ⟨block, size, true⟩ prev next := by
  unfold initialWords
  refine ⟨?_, ?_, ?_, ?_, ?_⟩
  all_goals simp (disch := omega) [Function.update_of_ne]

theorem initialWords_of_ne {next : Nat} (hi : i < block ∨ block + 24 ≤ i) :
    initialWords w block size prev next i = w i := by
  unfold initialWords
  rw [Function.update_of_ne (by omega), Function.update_of_ne (by omega), Function.update_of_ne (by omega),
    Function.update_of_ne (by omega), Function.update_of_ne (by omega), Function.update_of_ne (by omega)]

theorem initializeBlock_bind {Q : α → Heap σ → Prop} {next : Nat}
    (hv : Visible P F h) (hlow : 0xD1000000 ≤ block) (hhigh : block + 24 ≤ h.heapEnd)
    (hf : wpe (f ()) Q F { h with words := initialWords h.words block size prev next }) :
    wpe (initializeBlock P block size prev next >>= f) Q F h := by
  rw [wpe_bind]
  unfold initializeBlock
  refine store_bind hv (by omega) (by omega) (store_bind hv (by omega) (by dsimp only; omega) ?_)
  refine store_bind hv (by omega) (by dsimp only; omega) ?_
  refine store_bind hv (by omega) (by dsimp only; omega) ?_
  refine store_bind hv (by omega) (by dsimp only; omega) ?_
  exact store_spec hv (by omega) (by dsimp only; omega) hf

/-- The words after the header of a block that is no more. -/
def clearedWords (w : Nat → Nat) (block : Nat) : Nat → Nat :=
  Function.update (Function.update (Function.update (Function.update (Function.update w block 0) (block + 4) 0) (block + 8) 0)
    (block + 12) 0) (block + 16) 0

theorem clearedWords_of_ne (hi : i < block ∨ block + 24 ≤ i) : clearedWords w block i = w i := by
  unfold clearedWords
  rw [Function.update_of_ne (by omega), Function.update_of_ne (by omega), Function.update_of_ne (by omega),
    Function.update_of_ne (by omega), Function.update_of_ne (by omega)]

/-- The words after a link back. -/
def backWords (w : Nat → Nat) (block prev : Nat) : Nat → Nat :=
  if block = 0 then w else Function.update w (block + 8) prev

theorem backWords_self (hne : block ≠ 0) : backWords w block prev (block + 8) = prev := by
  rw [backWords, if_neg hne, Function.update_self]

theorem backWords_of_ne (hi : block = 0 ∨ i ≠ block + 8) :
    backWords w block prev i = w i := by
  unfold backWords
  split
  · rfl
  · next hne => exact Function.update_of_ne (hi.resolve_left hne) ..

theorem linkBack_bind {Q : α → Heap σ → Prop} (hv : Visible P F h)
    (hblock : block = 0 ∨ 0xD1000000 ≤ block ∧ block + 24 ≤ h.heapEnd)
    (hf : wpe (f ()) Q F { h with words := backWords h.words block prev }) :
    wpe (linkBack P block prev >>= f) Q F h := by
  unfold linkBack backWords at *
  split
  · next hzero =>
    rw [if_pos hzero] at hf
    exact hf
  · next hne =>
    rw [if_neg hne] at hf
    have hblock := hblock.resolve_left hne
    exact store_bind hv (by omega) (by omega) hf

/-- Where a block ends the next one begins. -/
theorem Shape.headAddress_eq (hs : Shape h (xs ++ b :: ys)) (hne : ys ≠ []) :
    headAddress 0 ys = b.address + 24 + b.size :=
  headAddress_of_tiles (tiles_middle.1 hs.tiles).2 hne

/-- The block behind a block, if there is one. -/
theorem Shape.behind (hs : Shape h (xs ++ b :: ys)) : headAddress 0 ys = 0 ∨
    headAddress 0 ys = b.address + 24 + b.size ∧ 0xD1000000 ≤ headAddress 0 ys ∧ headAddress 0 ys + 24 ≤ h.heapEnd := by
  cases ys with
  | nil => exact .inl rfl
  | cons c ys =>
    obtain ⟨hlow, hhigh, -⟩ := hs.bounds (b := c) (by simp)
    exact .inr ⟨hs.headAddress_eq nofun, hlow, by rw [headAddress]; omega⟩

/-- A header with another size and another next block. -/
theorem Header.resize {w' : Nat → Nat} {next next' : Nat} (hheader : Header w b prev next)
    (hold : ∀ i, i = b.address ∨ i = b.address + 8 ∨ i = b.address + 16 → w' i = w i)
    (hsize : w' (b.address + 4) = size) (hnext : w' (b.address + 12) = next') :
    Header w' ⟨b.address, size, b.free⟩ prev next' where
  magic := (hold _ (.inl rfl)).trans hheader.magic
  size := hsize
  prev := (hold _ (.inr (.inl rfl))).trans hheader.prev
  next := hnext
  state := (hold _ (.inr (.inr rfl))).trans hheader.state

/-- A block changes its state. -/
theorem Shape.setState (hs : Shape h (xs ++ b :: ys)) (free : Bool) (hv : v = if free = true then stateFree else stateAllocated) :
    Shape { h with words := Function.update h.words (b.address + 16) v } (xs ++ ⟨b.address, b.size, free⟩ :: ys) := by
  have hheader := hs.header
  have hother : ∀ i, i ≠ b.address + 16 → Function.update h.words (b.address + 16) v i = h.words i := fun i hi =>
    Function.update_of_ne hi ..
  refine Shape.replace [b] [⟨b.address, b.size, free⟩] hs ⟨rfl, rfl⟩ ⟨rfl, rfl⟩ (by simp) (by simp) ?_ ⟨?_, trivial⟩ ?_ ?_
  · simpa using hs.aligned b (by simp)
  · exact
      { magic := (hother _ (by dsimp only; omega)).trans hheader.magic
        size := (hother _ (by dsimp only; omega)).trans hheader.size
        prev := (hother _ (by dsimp only; omega)).trans hheader.prev
        next := (hother _ (by dsimp only; omega)).trans hheader.next
        state := (Function.update_self ..).trans hv }
  · exact fun i hi => hother i (by omega)
  · intro hne
    rw [hother _ (by omega)]
    cases ys with
    | nil => exact absurd rfl hne
    | cons c ys =>
      have hback := (linked_middle.1 hs.linked).2.2.1.prev
      rw [show c.address = b.address + 24 + b.size from hs.headAddress_eq hne] at hback
      exact hback

/-- A free block is taken for a request; what is left of it is a block of its own if it is worth a header. -/
def carve (size : Nat) (b : Piece) (ys : List Piece) : List Piece :=
  if b.size < size + 32 then ⟨b.address, b.size, false⟩ :: ys
  else ⟨b.address, size, false⟩ :: ⟨b.address + 24 + size, b.size - size - 24, true⟩ :: ys

theorem carve_eq (ys : List Piece) (hfit : size ≤ b.size) :
    ∃ n zs, carve size b ys = ⟨b.address, n, false⟩ :: zs ∧ size ≤ n ∧ live zs = live ys := by
  unfold carve
  split
  · exact ⟨b.size, ys, rfl, hfit, rfl⟩
  · exact ⟨size, _, rfl, le_rfl, live_cons_free rfl⟩

theorem apart_carve (hfree : b.free = true) (h : Apart (xs ++ b :: ys)) : Apart (xs ++ carve size b ys) := by
  obtain ⟨hxs, hys, -, hnext⟩ := apart_middle.1 h
  unfold carve
  split
  · exact apart_middle.2 ⟨hxs, hys, fun _ _ _ => rfl, nofun⟩
  · refine apart_middle.2 ⟨hxs, ?_, fun _ _ _ => rfl, nofun⟩
    exact List.isChain_cons.2 ⟨fun y hy _ => hnext y hy hfree, hys⟩

variable (hv : Visible P F h)
include hv

/-- `split_block` cuts a block in two. -/
theorem splitOff_spec (hs : Shape h (xs ++ b :: ys))
    (hsize : size % 8 = 0) (hpos : 8 ≤ size) (hfit : size + 32 ≤ b.size)
    (hQ : ∀ w', Shape { h with words := w' } (xs ++ ⟨b.address, size, b.free⟩ ::
      ⟨b.address + 24 + size, b.size - size - 24, true⟩ :: ys) → Q () { h with words := w' }) :
    wpe (splitOff P b.address size (b.size - size)) Q F h := by
  obtain ⟨hlow, hhigh, hend, -, haligned⟩ := hs.bounds (b := b) (by simp)
  have hheader := hs.header
  have hbehind := hs.behind
  unfold splitOff
  rw [hs.payload (by simp), add32_eq (by omega), sub32_eq (by omega) (by omega)]
  obtain ⟨cut, hcut⟩ : ∃ cut, cut = b.address + 24 + size := ⟨_, rfl⟩
  rw [← hcut] at hQ ⊢
  refine load_bind hv (by omega) (by omega) (initializeBlock_bind hv (by omega) (by omega) ?_)
  refine load_bind hv (by omega) (by dsimp only; omega) ?_
  dsimp only
  rw [initialWords_of_ne (by omega), hheader.next]
  refine linkBack_bind hv (hbehind.imp_right And.right) (store_bind hv (by omega) (by dsimp only; omega) ?_)
  refine store_spec hv (by omega) (by dsimp only; omega) (hQ _ ?_)
  -- the words of the new header, those of the old one, and the rest
  have hnew : ∀ i, cut ≤ i → i < cut + 24 → Function.update (Function.update (backWords
      (initialWords h.words cut (b.size - size - 24) b.address (headAddress 0 ys)) (headAddress 0 ys) cut)
      (b.address + 12) cut) (b.address + 4) size i =
      initialWords h.words cut (b.size - size - 24) b.address (headAddress 0 ys) i := fun i _ _ => by
    rw [Function.update_of_ne (by omega), Function.update_of_ne (by omega), backWords_of_ne (by omega)]
  have hold : ∀ i, i < cut ∨ cut + 24 ≤ i → i ≠ b.address + 4 → i ≠ b.address + 12 →
      (headAddress 0 ys = 0 ∨ i ≠ headAddress 0 ys + 8) → Function.update (Function.update (backWords
      (initialWords h.words cut (b.size - size - 24) b.address (headAddress 0 ys)) (headAddress 0 ys) cut)
      (b.address + 12) cut) (b.address + 4) size i = h.words i := fun i hi hi₁ hi₂ hi₃ => by
    rw [Function.update_of_ne hi₁, Function.update_of_ne hi₂, backWords_of_ne hi₃, initialWords_of_ne hi]
  have hos : Tiles 24 b.address [b] (b.address + 24 + b.size) := ⟨rfl, rfl⟩
  refine Shape.replace [b] [_, _] hs hos ⟨rfl, hcut, ?_⟩ (by simp) (by simp) ?_ ⟨?_, ?_, trivial⟩ ?_ ?_
  · show b.address + 24 + size + 24 + (b.size - size - 24) = _
    omega
  · simp only [List.mem_cons, List.not_mem_nil, or_false]
    rintro c (rfl | rfl)
    · exact ⟨hsize, hpos⟩
    · exact ⟨by dsimp only; omega, by dsimp only; omega⟩
  · exact hheader.resize (fun i hi => hold i (by omega) (by omega) (by omega) (by omega)) (Function.update_self ..)
      ((Function.update_of_ne (by omega) ..).trans (Function.update_self ..))
  · exact (header_initialWords ..).congr hnew
  · exact fun i hi => hold i (by omega) (by omega) (by omega) (by omega)
  · intro hne
    have hlast := hs.headAddress_eq hne
    dsimp only
    rw [Function.update_of_ne (by omega), Function.update_of_ne (by omega), ← hlast]
    exact backWords_self (by omega)

/-- `merge_with_next` joins a block with the next. -/
theorem absorb_spec (hs : Shape h (xs ++ b :: c :: ys))
    (hQ : ∀ w', Shape { h with words := w' } (xs ++ ⟨b.address, b.size + 24 + c.size, b.free⟩ :: ys) →
      Q () { h with words := w' }) :
    wpe (absorb P b.address c.address) Q F h := by
  obtain ⟨hlow, hhigh, hend, hbpos, hbaligned⟩ := hs.bounds (b := b) (by simp)
  obtain ⟨hclow, hchigh, -, hcpos, hcaligned⟩ := hs.bounds (b := c) (by simp)
  have hheader := hs.header
  have hc : c.address = b.address + 24 + b.size := (tiles_middle.1 hs.tiles).2.1
  have hcheader := (linked_middle.1 hs.linked).2.2.1
  have hsecond : Shape h ((xs ++ [b]) ++ c :: ys) := by rwa [← List.append_cons]
  have hbehind := hsecond.behind
  unfold absorb
  refine load_bind hv (by omega) (by omega) (load_bind hv (by omega) (by omega) ?_)
  have hjoined : add32 b.size (add32 24 c.size) = b.size + (24 + c.size) := by
    rw [show add32 24 c.size = 24 + c.size from add32_eq (by omega), add32_eq (by omega)]
  rw [hheader.size, hcheader.size, hjoined]
  refine store_bind hv (by omega) (by omega) (load_bind hv (by omega) (by dsimp only; omega) ?_)
  dsimp only
  rw [Function.update_of_ne (by omega), hcheader.next]
  refine store_bind hv (by omega) (by dsimp only; omega) (linkBack_bind hv (hbehind.imp_right And.right) ?_)
  refine store_bind hv (by omega) (by dsimp only; omega) (store_bind hv (by omega) (by dsimp only; omega) ?_)
  refine store_bind hv (by omega) (by dsimp only; omega) (store_bind hv (by omega) (by dsimp only; omega) ?_)
  refine store_spec hv (by omega) (by dsimp only; omega) ?_
  dsimp only
  refine hQ _ ?_
  change Shape { h with words := clearedWords (backWords (Function.update (Function.update h.words (b.address + 4)
    (b.size + (24 + c.size))) (b.address + 12) (headAddress 0 ys)) (headAddress 0 ys) b.address) c.address } _
  generalize hw : clearedWords _ c.address = w
  have hcleared : ∀ i, i < c.address ∨ c.address + 24 ≤ i → w i = backWords (Function.update (Function.update h.words
      (b.address + 4) (b.size + (24 + c.size))) (b.address + 12) (headAddress 0 ys)) (headAddress 0 ys) b.address i :=
    fun i hi => by rw [← hw, clearedWords_of_ne hi]
  have hold : ∀ i, i < c.address ∨ c.address + 24 ≤ i → i ≠ b.address + 4 → i ≠ b.address + 12 →
      (headAddress 0 ys = 0 ∨ i ≠ headAddress 0 ys + 8) → w i = h.words i := fun i hi hi₁ hi₂ hi₃ => by
    rw [hcleared i hi, backWords_of_ne hi₃, Function.update_of_ne hi₂, Function.update_of_ne hi₁]
  have hos : Tiles 24 b.address [b, c] (c.address + 24 + c.size) := ⟨rfl, hc, by rw [hc]; rfl⟩
  refine Shape.replace [b, c] [_] hs hos ⟨rfl, ?_⟩ (by simp) (by simp) ?_ ⟨?_, trivial⟩ ?_ ?_
  · show b.address + 24 + (b.size + 24 + c.size) = _
    omega
  · simp only [List.mem_singleton, forall_eq]
    omega
  · refine hheader.resize (fun i hi => hold i (by omega) (by omega) (by omega) (by omega)) ?_ ?_
    · rw [hcleared _ (by omega), backWords_of_ne (by omega), Function.update_of_ne (by omega), Function.update_self]
      omega
    · rw [hcleared _ (by omega), backWords_of_ne (by omega), Function.update_self]
      rfl
  · exact fun i hi => hold i (by omega) (by omega) (by omega) (by omega)
  · intro hne
    have hlast := hsecond.headAddress_eq hne
    rw [hcleared _ (by omega), ← hlast]
    exact backWords_self (by omega)

/-- `merge_with_next`. -/
theorem mergeWithNext_spec (hs : Shape h (xs ++ b :: ys))
    (hQ : ∀ w', Shape { h with words := w' } (xs ++ join 24 b ys) → Q () { h with words := w' }) :
    wpe (mergeWithNext P b.address) Q F h := by
  obtain ⟨hlow, hhigh, hend, -, -⟩ := hs.bounds (b := b) (by simp)
  unfold mergeWithNext
  refine load_bind hv (by omega) (by omega) ?_
  rw [hs.header.next]
  refine validateBlock_bind hv hs ?_
  cases ys with
  | nil =>
    rw [headAddress, if_pos rfl]
    exact hQ h.words hs
  | cons c ys =>
    obtain ⟨hclow, hchigh, -, -, -⟩ := hs.bounds (b := c) (by simp)
    have hcheader := (linked_middle.1 hs.linked).2.2.1
    rw [headAddress, if_neg (by omega)]
    have hs' := hs
    rw [List.append_cons] at hs'
    refine validateBlock_bind hv hs' (load_bind hv (by omega) (by omega) ?_)
    simp only [join] at hQ
    split
    · next hstate =>
      rw [if_neg (hcheader.state_eq_free.not.1 hstate)] at hQ
      exact hQ h.words hs
    · next hstate =>
      rw [if_pos (hcheader.state_eq_free.1 (not_not.1 hstate))] at hQ
      exact absorb_spec hv hs hQ

/-- `coalesce` of a block that is free joins it with its free neighbours. -/
theorem coalesce_spec {Q : Nat → Heap σ → Prop} (hs : Shape h (xs ++ b :: ys)) (hb : b.free = true)
    (hxs : Apart xs) (hys : Apart ys)
    (hQ : ∀ r w' bs', Shape { h with words := w' } bs' → Apart bs' → live bs' = live xs ++ live ys →
      Q r { h with words := w' }) :
    wpe (coalesce P b.address) Q F h := by
  unfold coalesce
  rw [wpe_bind]
  refine mergeWithNext_spec hv hs fun w' hs' => ?_
  obtain ⟨b', zs, hjoin, haddress, hfree⟩ := join_eq 24 b ys
  have hapart : Apart (b' :: zs) := hjoin ▸ hys.join
  have hlive : live (b' :: zs) = live ys := hjoin ▸ live_join hb
  rw [hjoin] at hs'
  rw [← haddress]
  obtain ⟨hlow, hhigh, hend, -, -⟩ := hs'.bounds (b := b') (by simp)
  refine load_bind hv (by omega) (by dsimp only at hhigh ⊢; omega) ?_
  rw [hs'.header.prev]
  have hb' : b'.free = true := hfree.trans hb
  rcases List.eq_nil_or_concat xs with rfl | ⟨xs', p, rfl⟩
  · rw [lastAddress, if_pos rfl]
    exact hQ _ _ _ hs' hapart hlive
  · rw [List.concat_eq_append] at hs' hxs hQ ⊢
    obtain ⟨hplow, hphigh, -, -, -⟩ := hs'.bounds (b := p) (by simp)
    rw [List.append_assoc] at hs'
    rw [lastAddress_append_singleton, if_neg (by omega)]
    refine validateBlock_bind (by exact hv) hs' (load_bind hv (by omega) (by dsimp only at hphigh ⊢; omega) ?_)
    have hpheader := hs'.header
    split
    · next hstate =>
      have hp := hpheader.state_eq_free.1 hstate
      rw [wpe_bind]
      refine mergeWithNext_spec hv (show Shape _ (xs' ++ p :: b' :: zs) from hs') fun w'' hs'' => hQ _ _ _ hs'' ?_ ?_
      · obtain ⟨hxs', -, hlast, -⟩ := apart_middle.1 hxs
        have hzs : Apart (join 24 p (b' :: zs)) := hapart.join
        obtain ⟨p', us, hjoin', -, hfree'⟩ := join_eq 24 p (b' :: zs)
        rw [hjoin'] at hzs ⊢
        obtain ⟨-, hus, -, hnext⟩ := apart_middle.1 (show Apart ([] ++ p' :: us) from hzs)
        refine apart_middle.2 ⟨hxs', hus, fun x hx hxfree => ?_, hnext⟩
        exact absurd (hlast x hx hxfree) (by simp [hp])
      · rw [live_append, live_join hp, hlive, live_append, live_cons_free hp]
        simp [live]
    · next hstate =>
      have hp := hpheader.state_eq_free.not.1 hstate
      refine hQ _ _ _ hs' ?_ ?_
      · obtain ⟨hxs', -, hlast, -⟩ := apart_middle.1 hxs
        exact apart_middle.2 ⟨hxs', hapart, hlast, fun y _ hfree => absurd hfree hp⟩
      · rw [live_append, live_append, hlive, live_append, List.append_assoc]

/-! ## Taking and freeing a block -/

/-- `split_block`, and the block is taken. -/
theorem takeBlock_spec {Q : Nat → Heap σ → Prop} (hs : Shape h (xs ++ b :: ys))
    (hsize : size % 8 = 0) (hpos : 8 ≤ size) (hfit : size ≤ b.size)
    (hQ : ∀ w', Shape { h with words := w' } (xs ++ carve size b ys) → Q (b.address + 24) { h with words := w' }) :
    wpe (takeBlock P b.address size) Q F h := by
  obtain ⟨hlow, hhigh, hend, -, -⟩ := hs.bounds (b := b) (by simp)
  have hpayload := hs.payload (b := b) (by simp)
  unfold takeBlock splitBlock
  rw [wpe_bind]
  refine load_bind hv (by omega) (by omega) ?_
  dsimp only
  rw [hs.header.size, sub32_eq (by omega) (by omega)]
  unfold carve at hQ
  split
  · rw [if_pos (by omega)] at hQ
    refine store_bind hv (by omega) (by omega) ?_
    rw [hpayload]
    exact hQ _ (hs.setState false rfl)
  · rw [if_neg (by omega)] at hQ
    refine splitOff_spec hv hs hsize hpos (by omega) fun w' hs' => ?_
    refine store_bind hv (by omega) (by dsimp only; omega) ?_
    rw [hpayload]
    exact hQ _ (hs'.setState false rfl)

/-- The loop of `kfree` frees the block of this address if there is one that is not free. -/
theorem freeFrom_spec {Q : Bool → Heap σ → Prop} {address : Nat} (hs : Shape h (xs ++ ys))
    (hapart : Apart (xs ++ ys)) (hcount : ys.length < count)
    (hmiss : (∀ b ∈ ys, b.free = false → b.address + 24 ≠ address) → Q false h)
    (hhit : ∀ us b vs w' bs', ys = us ++ b :: vs → b.free = false → b.address + 24 = address →
      Shape { h with words := w' } bs' → Apart bs' → live bs' = live (xs ++ us) ++ live vs →
      Q true { h with words := w' }) :
    wpe (freeFrom P address count (headAddress 0 ys)) Q F h := by
  induction ys generalizing xs count with
  | nil =>
    obtain ⟨count, rfl⟩ := Nat.exists_eq_add_of_lt hcount
    exact hmiss nofun
  | cons b ys ih =>
    obtain ⟨count, rfl⟩ := Nat.exists_eq_add_of_lt hcount
    obtain ⟨hlow, hhigh, hend, -, -⟩ := hs.bounds (b := b) (by simp)
    have hheader := hs.header
    obtain ⟨hxs, hys, -, -⟩ := apart_middle.1 hapart
    unfold freeFrom
    rw [headAddress, if_neg (by omega), hs.payload (by simp)]
    refine validateBlock_bind hv hs ?_
    split
    · next haddress =>
      refine load_bind hv (by omega) (by omega) ?_
      split
      · next hstate =>
        -- a free block has this address, so no other has
        have hfree : b.free ≠ false := fun hfalse => hstate (hheader.state_eq_allocated.2 hfalse)
        refine hmiss (List.forall_mem_cons.2 ⟨fun hfalse => absurd hfalse hfree, fun c hc _ heq => ?_⟩)
        have hafter := ((tiles_middle.1 hs.tiles).2.mem hc).1
        omega
      · next hstate =>
        have hb : b.free = false := hheader.state_eq_allocated.1 (not_not.1 hstate)
        refine store_bind hv (by omega) (by omega) ?_
        rw [wpe_bind]
        have hs' := hs.setState true (v := stateFree) rfl
        refine coalesce_spec (b := ⟨b.address, b.size, true⟩) (by exact hv) hs' rfl hxs hys fun r w' bs' hs'' hapart' hlive => ?_
        exact hhit [] b ys w' bs' rfl hb haddress hs'' hapart' (by rw [hlive, List.append_nil])
    · next haddress =>
      refine load_bind hv (by omega) (by omega) ?_
      rw [hheader.next]
      rw [List.append_cons] at hs hapart
      refine ih hs hapart (by simp only [List.length_cons]; omega) (fun hall => ?_) ?_
      · exact hmiss (List.forall_mem_cons.2 ⟨fun _ => haddress, hall⟩)
      · intro us c vs w' bs' heq hc haddress' hs' hapart' hlive
        refine hhit (b :: us) c vs w' bs' (congrArg (b :: ·) heq) hc haddress' hs' hapart' ?_
        rw [hlive, List.append_assoc, List.singleton_append]

end Heap

end MiniOrange

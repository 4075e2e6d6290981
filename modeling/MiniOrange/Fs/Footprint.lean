import MiniOrange.Fs.WriteChunk
import MiniOrange.Fs.Operations

/-!
# What becomes of the inodes, whatever fails

The other modules describe the operations on volumes in order, where at most one transfer fails. Here any transfer may
fail, at any sector, and the volume may be in any order; in return only the inodes are followed (`Roster`): which are in use,
and what their records say. A write that stops part way has changed a bit or a record as a whole or not at all, since both lie
within a sector; and all other writes go to data blocks, if the indirect pointers of the records do (`Roster.Pointed`).
`Acts E μ m Q` says what `m` makes of the roster `μ`.
-/

namespace MiniOrange

/-! ## Rosters -/

/-- The inodes of a volume. -/
@[ext] structure Roster where
  imap : Nat → Bool
  ino : Nat → Inode

/-- The inodes of a volume. -/
def Vol.roster (v : Vol) : Roster := ⟨v.imap, v.ino⟩

/-- The indirect pointer is 0 or leads to a data block. -/
def Inode.Pointed (sb : Superblock) (i : Inode) : Prop := i.indirect ≠ 0 → dataBlockValid sb i.indirect = true

namespace Roster

variable {μ μ₁ μ' : Roster} {sb : Superblock} {A B : Set Nat} {n : Nat} {inode : Inode}

/-- One bit of the bitmap is changed. -/
def setI (μ : Roster) (n : Nat) (value : Bool) : Roster := { μ with imap := Function.update μ.imap n value }

/-- One record is changed. -/
def setIno (μ : Roster) (n : Nat) (inode : Inode) : Roster := { μ with ino := Function.update μ.ino n inode }

/-- The indirect pointers lead to data blocks. -/
def Pointed (μ : Roster) (sb : Superblock) : Prop := ∀ n < sb.totalInodes, (μ.ino n).Pointed sb

/-- Which inodes are in use stays, and their modes, apart from those in `A`. -/
def Kept (A : Set Nat) (μ μ' : Roster) : Prop :=
  ∀ n, n ∉ A → μ'.imap n = μ.imap n ∧ (μ'.ino n).mode = (μ.ino n).mode

theorem Kept.refl (A : Set Nat) (μ : Roster) : Kept A μ μ := fun _ _ => ⟨rfl, rfl⟩

theorem Kept.trans (h : Kept A μ μ₁) (h' : Kept A μ₁ μ') : Kept A μ μ' := fun n hn =>
  ⟨(h' n hn).1.trans (h n hn).1, (h' n hn).2.trans (h n hn).2⟩

theorem Kept.mono (h : Kept A μ μ') (hAB : A ⊆ B) : Kept B μ μ' := fun n hn => h n fun hA => hn (hAB hA)

theorem kept_setI (μ : Roster) (value : Bool) (hn : n ∈ A) : Kept A μ (μ.setI n value) := fun m hm =>
  ⟨Function.update_of_ne (show m ≠ n from fun heq => hm (heq ▸ hn)) _ _, rfl⟩

/-- A record keeps its mode, or it is one that may change. -/
theorem kept_setIno (hn : n ∈ A ∨ inode.mode = (μ.ino n).mode) : Kept A μ (μ.setIno n inode) := by
  intro m hm
  refine ⟨rfl, ?_⟩
  show (Function.update μ.ino n inode m).mode = (μ.ino m).mode
  by_cases heq : m = n
  · subst heq
    rw [Function.update_self]
    exact hn.resolve_left hm
  · rw [Function.update_of_ne heq]

theorem Pointed.setIno (h : μ.Pointed sb) (hi : inode.Pointed sb) : (μ.setIno n inode).Pointed sb := by
  intro m hm
  show (Function.update μ.ino n inode m).Pointed sb
  by_cases heq : m = n
  · subst heq
    rwa [Function.update_self]
  · rw [Function.update_of_ne heq]
    exact h m hm

end Roster

/-! ## Transfers -/

variable {E : Env} {v v' : Vol} {aux cmp : Block} {s : Machine} {μ μ₁ μ' : Roster} {α β : Type}

variable {sector b : Nat} {m : Fs α} {f : α → Fs β} {buffer : Buffer} {c : Prop}

/-- A write within a sector is done as a whole or not at all. -/
theorem Block.torn_eq {old new : Block} (h : ∀ i, i / 512 ≠ sector → new.byte i = old.byte i) (k : Nat) :
    old.torn new k = old ∨ old.torn new k = new := by
  rcases Nat.lt_or_ge sector k with hlt | hge
  · refine .inr (Block.ext fun i hi => ?_)
    rw [Block.torn, Block.byte_copyBytes]
    split
    · rw [Block.ptr_apply, Nat.sub_zero, Nat.zero_add]
    · next hnot => exact (h i (by omega)).symm
  · refine .inl (Block.ext fun i hi => ?_)
    rw [Block.torn, Block.byte_copyBytes]
    split
    · next hin =>
      rw [Block.ptr_apply, Nat.sub_zero, Nat.zero_add]
      exact h i (by omega)
    · rfl

/-- The machine runs on a volume with these inodes, and anything may fail. -/
def Held (E : Env) (μ : Roster) (s : Machine) : Prop :=
  (∀ v, E.safe v) ∧ ∃ v aux cmp, On E .any v aux cmp s ∧ v.roster = μ

/-- `write_volume_block_from`: the block is what was in the buffer, or part of it. -/
theorem On.write_any (h : On E .any v aux cmp s) (hsafe : ∀ v, E.safe v) (buffer : Buffer) (hb0 : b ≠ 0)
    (hb : b < E.sb.totalBlocks) :
    wp (writeVolumeBlockFrom b buffer) (fun r s' => ∃ block,
      (r = .ok () ∧ block = s.buffers.get buffer ∨
        r = .error .eio ∧ ∃ k, block = (s.volume b).torn (s.buffers.get buffer) k) ∧
      On E .any (Vol.ofDisk E.sb (Function.update s.volume b block)) aux cmp s') s := by
  obtain ⟨hin, hreq⟩ := h.onDevice hb
  have hheader : ∀ block, Function.update s.volume b block 0 = E.header := fun block => by
    rw [Function.update_of_ne hb0.symm, h.header]
  have hon : ∀ block outcome, On E .any (Vol.ofDisk E.sb (Function.update s.volume b block)) aux cmp
      { s with
        volume := Function.update s.volume b block
        outcome := outcome
        history := Function.update s.volume b block :: s.history } := fun block outcome =>
    { h with
      header := hheader block
      volume := rfl
      outcome := trivial
      safe := hsafe _
      history := fun d hd => by
        rcases List.mem_cons.1 hd with rfl | hd
        · exact ⟨hheader block, hsafe _⟩
        · exact h.history d hd }
  unfold writeVolumeBlockFrom blockWrite
  simp only [wp_bind, wp_get, if_neg hin, if_neg hreq]
  cases h0 : s.outcome 0 with
  | none => exact ⟨_, .inl ⟨rfl, rfl⟩, hon _ _⟩
  | some fault => exact ⟨_, .inr ⟨rfl, _, rfl⟩, hon _ _⟩

/-- The end of a change within a sector: it is made, or it has failed and is made or not. -/
def Tried (E : Env) (v v' : Vol) (aux cmp : Block) (r : Except Errno Unit) (s : Machine) : Prop :=
  On E .any v' aux cmp s ∨ r ≠ .ok () ∧ On E .any v aux cmp s

/-- The write of a block that is changed within a sector. -/
theorem On.writeSector (h : On E .any v aux cmp s) (hsafe : ∀ v, E.safe v) {block : Block} (hb0 : b ≠ 0)
    (hb : b < E.sb.totalBlocks) (hsector : ∀ i, i / 512 ≠ sector → block.byte i = (s.volume b).byte i)
    (hv : Vol.ofDisk E.sb (Function.update s.volume b block) = v') :
    wp (setBuffer .ioBlock block >>= fun _ => writeVolumeBlockFrom b .ioBlock) (Tried E v v' aux cmp) s := by
  rw [wp_bind, wp_setBuffer]
  refine ((h.setIo block).write_any hsafe .ioBlock hb0 hb).mono ?_
  rintro r s' ⟨written, ⟨rfl, rfl⟩ | ⟨rfl, k, rfl⟩, h'⟩
  · exact .inl (hv ▸ h')
  · rcases Block.torn_eq hsector k with hold | hnew
    · rw [show (s.volume b).torn ((s.buffers.set .ioBlock block).get .ioBlock) k = s.volume b from hold,
        Function.update_eq_self, h.volume] at h'
      exact .inr ⟨nofun, h'⟩
    · rw [show (s.volume b).torn ((s.buffers.set .ioBlock block).get .ioBlock) k = block from hnew, hv] at h'
      exact .inl h'

/-- A block is read, changed within a sector, and written. -/
theorem On.rewriteSector (h : On E .any v aux cmp s) (hsafe : ∀ v, E.safe v) (image : Block → Block)
    (hb0 : b ≠ 0) (hb : b < E.sb.totalBlocks)
    (hsector : ∀ block i, i / 512 ≠ sector → (image block).byte i = block.byte i)
    (hv : ∀ d, Vol.ofDisk E.sb d = v → Vol.ofDisk E.sb (Function.update d b (image (d b))) = v') :
    wp (readVolumeBlock b >>= fun r => match r with
      | .error _ => pure (.error .eio)
      | .ok () => do
        setBuffer .ioBlock (image (← getBuffer .ioBlock))
        writeVolumeBlockFrom b .ioBlock) (Tried E v v' aux cmp) s := by
  refine wp.bind (h.readBlock hb) ?_
  rintro r s' (⟨rfl, h', hvol, hio⟩ | ⟨rfl, -, h'⟩)
  · rw [← hvol] at hio
    rw [wp_bind, wp_getBuffer, show s'.buffers.get .ioBlock = s'.volume b from hio]
    exact h'.writeSector hsafe hb0 hb (hsector _) (hv _ h'.volume)
  · exact .inr ⟨nofun, h'⟩

/-! ## Bits and records -/

/-- Setting a bit changes one byte. -/
theorem Block.withBit_sector (b : Block) (k : Nat) (value : Bool) {i : Nat} (hi : i / 512 ≠ k / 8 / 512) :
    (b.withBit k value).byte i = b.byte i := Block.byte_copyBytes_of_not_mem (by omega)

/-- `bitmap_update`. -/
theorem On.bitmapUpdate_any (h : On E .any v aux cmp s) (hsafe : ∀ v, E.safe v) (R : BitRegion E.sb) (k : Nat)
    (value : Bool) : wp (MiniOrange.bitmapUpdate R.start R.count k value) (Tried E v (R.set v k value) aux cmp) s := by
  have hwithin := R.within
  have hpos := R.start_pos
  unfold MiniOrange.bitmapUpdate
  dsimp only
  split
  · exact .inr ⟨nofun, h⟩
  · next hk =>
    refine h.rewriteSector hsafe (·.withBit (k % 32768) value) (by omega) (by omega)
      (fun block i hi => block.withBit_sector _ _ hi) ?_
    rintro d rfl
    exact R.set_ofDisk d k value (by omega)

/-- The end of an allocation in a bitmap: a bit that was clear is set, or the allocation has failed. -/
def Picked (E : Env) (R : BitRegion E.sb) (v : Vol) (aux cmp : Block) (first limit : Nat) (r : Except Errno Nat)
    (s : Machine) : Prop :=
  (∃ k, first ≤ k ∧ k < limit ∧ R.get v k = false ∧ On E .any (R.set v k true) aux cmp s ∧ ∀ k', r = .ok k' → k' = k) ∨
  (∃ e, r = .error e) ∧ On E .any v aux cmp s

/-- `allocate_bitmap_bit`. -/
theorem On.allocateBitmapBit_any (h : On E .any v aux cmp s) (hsafe : ∀ v, E.safe v) (R : BitRegion E.sb)
    {first limit : Nat} (hlimit : limit ≤ R.count * 32768) :
    wp (MiniOrange.allocateBitmapBit R.start R.count first limit) (Picked E R v aux cmp first limit) s := by
  have hwithin := R.within
  have hpos := R.start_pos
  rcases Nat.lt_or_ge first limit with hfirst | hge
  · refine allocateBitmapBit_rule hfirst hlimit (fun k s hk => R.get_eq (by omega)) (fun q s hq h => ?_)
      (fun s _ h => .inr ⟨⟨_, rfl⟩, h⟩) (fun k s hk hk' hfree _ h hio => ?_) h
    · refine (h.readRegion R hq).mono ?_
      rintro r s' (h' | ⟨rfl, -, h'⟩)
      · exact .inl h'
      · exact .inr ⟨rfl, .inr ⟨⟨_, rfl⟩, h'⟩⟩
    · have htaken := R.set_ofDisk s.volume k true (by omega)
      rw [h.volume, ← hio] at htaken
      refine (h.writeSector hsafe (by omega) (by omega) (fun i (hi : i / 512 ≠ k % 32768 / 8 / 512) => ?_) htaken).mono ?_
      · rw [Block.withBit_sector _ _ _ hi, hio]
      · rintro (e | u) s' (h' | ⟨hr, h'⟩)
        · exact .inl ⟨k, hk, hk', hfree, h', nofun⟩
        · exact .inr ⟨⟨_, rfl⟩, h'⟩
        · exact .inl ⟨k, hk, hk', hfree, h', fun k' heq => (Except.ok.inj heq).symm⟩
        · exact absurd rfl hr
  · unfold MiniOrange.allocateBitmapBit
    rw [if_pos hge]
    exact .inr ⟨⟨_, rfl⟩, h⟩

/-- `write_inode_internal`. -/
theorem On.writeInode_any {n : Nat} {inode : Inode} (h : On E .any v aux cmp s) (hsafe : ∀ v, E.safe v)
    (hfits : inode.Fits) : wp (writeInodeInternal n inode) (Tried E v (v.setIno n inode) aux cmp) s := by
  unfold writeInodeInternal
  rw [wp_bind, wp_get, h.superblock]
  dsimp only
  split
  · exact .inr ⟨nofun, h⟩
  · next hok =>
    obtain ⟨hn, -⟩ := not_or.1 hok
    obtain ⟨htable, hblock, hne0⟩ := E.tableBlock (Nat.not_le.1 hn)
    rw [if_neg (Nat.not_le.2 htable)]
    refine h.rewriteSector hsafe (fun b => encodeInode b (n % 64 * 64) inode) hne0 hblock
      (fun block i (hi : i / 512 ≠ n % 64 * 64 / 512) => byte_encodeInode (by omega)) ?_
    rintro d rfl
    exact Vol.ofDisk_writeInode E.geometry (E.geometry.record_lt (Nat.not_le.1 hn)) hfits

/-- `clear_inode_record`. -/
theorem On.clearInodeRecord_any (h : On E .any v aux cmp s) (hsafe : ∀ v, E.safe v) (n : Nat) :
    wp (MiniOrange.clearInodeRecord n) (Tried E v (v.setIno n .zero) aux cmp) s := by
  unfold MiniOrange.clearInodeRecord
  rw [wp_bind, wp_get, h.superblock]
  dsimp only
  split
  · exact .inr ⟨nofun, h⟩
  · next hok =>
    obtain ⟨-, hn⟩ := not_or.1 hok
    obtain ⟨htable, hblock, hne0⟩ := E.tableBlock (Nat.not_le.1 hn)
    rw [if_neg (Nat.not_le.2 htable)]
    refine h.rewriteSector hsafe (fun b => b.clearBytes (n % 64 * 64) 64) hne0 hblock
      (fun block i (hi : i / 512 ≠ n % 64 * 64 / 512) => Block.byte_copyBytes_of_not_mem (by omega)) ?_
    rintro d rfl
    exact Vol.ofDisk_clearInode E.geometry (E.geometry.record_lt (Nat.not_le.1 hn))

/-! ## What a program makes of the inodes -/

/-- Started on a volume with the inodes `μ`, `m` ends on one with inodes and a value that satisfy `Q`. -/
def Acts (E : Env) (μ : Roster) (m : Fs α) (Q : α → Roster → Prop) : Prop :=
  ∀ s, Held E μ s → wp m (fun r s' => ∃ μ', Held E μ' s' ∧ Q r μ') s

/-- `m` leaves the inodes alone, and its value satisfies `R`. -/
def Spares (E : Env) (m : Fs α) (R : α → Prop) : Prop := ∀ μ, Acts E μ m fun r μ' => μ' = μ ∧ R r

namespace Acts

variable {Q : β → Roster → Prop} {R : α → Roster → Prop}

theorem pure {b : β} (h : Q b μ) : Acts E μ (Pure.pure b) Q := fun _ hs => ⟨μ, hs, h⟩

theorem bind (hm : Acts E μ m R) (hf : ∀ a μ', R a μ' → Acts E μ' (f a) Q) :
    Acts E μ (m >>= f) Q := by
  intro s hs
  refine wp.bind (hm s hs) ?_
  rintro a s' ⟨μ', hs', hR⟩
  exact hf a μ' hR s' hs'

theorem mono {m : Fs β} {Q' : β → Roster → Prop} (hm : Acts E μ m Q) (h : ∀ b μ', Q b μ' → Q' b μ') : Acts E μ m Q' :=
  fun s hs => (hm s hs).mono fun b _ ⟨μ', hs', hQ⟩ => ⟨μ', hs', h b μ' hQ⟩

/-- The state counts through its superblock. -/
theorem get {f : Machine → Fs β} (hf : ∀ s, s.superblock = E.sb → Acts E μ (f s) Q) :
    Acts E μ (MonadState.get >>= f) Q := by
  intro s hs
  obtain ⟨-, v, aux, cmp, h, -⟩ := id hs
  exact hf s h.superblock s hs

theorem getBuffer {f : Block → Fs β} (hf : ∀ b, Acts E μ (f b) Q) :
    Acts E μ (MiniOrange.getBuffer buffer >>= f) Q := fun s hs => hf _ s hs

theorem ite [Decidable c] {m m' : Fs β} (h : c → Acts E μ m Q) (h' : ¬ c → Acts E μ m' Q) :
    Acts E μ (if c then m else m') Q := by
  split
  · next hc => exact h hc
  · next hc => exact h' hc

/-- The two ends of a call that may fail. -/
theorem bindResult {m : Fs (Except Errno α)} {f : Except Errno α → Fs β} {R : Except Errno α → Roster → Prop}
    (hm : Acts E μ m R) (herror : ∀ e μ', R (.error e) μ' → Acts E μ' (f (.error e)) Q)
    (hok : ∀ a μ', R (.ok a) μ' → Acts E μ' (f (.ok a)) Q) : Acts E μ (m >>= f) Q :=
  hm.bind fun r => r.casesOn herror hok

/-- A part that leaves the inodes alone. -/
theorem after {P : α → Prop} (hm : Spares E m P) (hf : ∀ a, P a → Acts E μ (f a) Q) :
    Acts E μ (m >>= f) Q := (hm μ).bind fun a _ ⟨hμ, hP⟩ => hμ ▸ hf a hP

theorem afterResult {P : Except Errno α → Prop} {m : Fs (Except Errno α)} {f : Except Errno α → Fs β} (hm : Spares E m P)
    (herror : ∀ e, Acts E μ (f (.error e)) Q) (hok : ∀ a, P (.ok a) → Acts E μ (f (.ok a)) Q) : Acts E μ (m >>= f) Q :=
  .after hm fun r => r.casesOn (fun e _ => herror e) hok

/-- A change within a sector. -/
theorem tried {m : Fs (Except Errno Unit)} {change : Vol → Vol} {Q : Except Errno Unit → Roster → Prop}
    (hm : ∀ {v aux cmp s}, On E .any v aux cmp s → (∀ v, E.safe v) → wp m (Tried E v (change v) aux cmp) s)
    (hdone : ∀ v r, v.roster = μ → Q r (change v).roster) (hnot : ∀ r, r ≠ .ok () → Q r μ) : Acts E μ m Q := by
  rintro s ⟨hsafe, v, aux, cmp, h, rfl⟩
  refine (hm h hsafe).mono ?_
  rintro r s' (h' | ⟨hr, h'⟩)
  · exact ⟨_, ⟨hsafe, _, aux, cmp, h', rfl⟩, hdone v r rfl⟩
  · exact ⟨_, ⟨hsafe, _, aux, cmp, h', rfl⟩, hnot r hr⟩

end Acts

namespace Spares

variable {P : α → Prop} {R : β → Prop}

theorem pure {b : β} (h : R b) : Spares E (Pure.pure b) R := fun _ => .pure ⟨rfl, h⟩

theorem bind (hm : Spares E m P) (hf : ∀ a, P a → Spares E (f a) R) : Spares E (m >>= f) R :=
  fun μ => .after hm fun a hP => hf a hP μ

theorem ite [Decidable c] {m m' : Fs β} (h : c → Spares E m R) (h' : ¬ c → Spares E m' R) :
    Spares E (if c then m else m') R := fun μ => .ite (fun hc => h hc μ) fun hc => h' hc μ

theorem bindResult {P : Except Errno α → Prop} {m : Fs (Except Errno α)} {f : Except Errno α → Fs β} (hm : Spares E m P)
    (herror : ∀ e, Spares E (f (.error e)) R) (hok : ∀ a, P (.ok a) → Spares E (f (.ok a)) R) : Spares E (m >>= f) R :=
  fun μ => .afterResult hm (fun e => herror e μ) fun a ha => hok a ha μ

theorem get {f : Machine → Fs β} (hf : ∀ s, s.superblock = E.sb → Spares E (f s) R) :
    Spares E (MonadState.get >>= f) R := fun μ => .get fun s hs => hf s hs μ

theorem getBuffer {f : Block → Fs β} (hf : ∀ b, Spares E (f b) R) :
    Spares E (MiniOrange.getBuffer buffer >>= f) R := fun μ => .getBuffer fun b => hf b μ

theorem setBuffer (buffer : Buffer) (b : Block) : Spares E (MiniOrange.setBuffer buffer b) fun _ => True := by
  rintro μ s ⟨hsafe, v, aux, cmp, h, hμ⟩
  cases buffer with
  | ioBlock => exact ⟨μ, ⟨hsafe, v, aux, cmp, h.setIo b, hμ⟩, rfl, trivial⟩
  | auxiliaryBlock => exact ⟨μ, ⟨hsafe, v, b, cmp, h.setAuxiliary b, hμ⟩, rfl, trivial⟩
  | compareBuffer => exact ⟨μ, ⟨hsafe, v, aux, b, h.setCompare b, hμ⟩, rfl, trivial⟩

/-- What fails when a transfer does leaves the inodes alone. -/
theorem reads {a : Vol → α} {fault : α} {Q : Machine → Prop}
    (hm : ∀ v, Reads E v (fun _ => True) m (a v) fault Q) (ha : ∀ v, P (a v)) (hfault : P fault) : Spares E m P := by
  rintro μ s ⟨hsafe, v, aux, cmp, h, rfl⟩
  refine (hm v h trivial).mono ?_
  rintro r s' (⟨rfl, h', -⟩ | ⟨rfl, -, h'⟩)
  · exact ⟨_, ⟨hsafe, v, aux, cmp, h', rfl⟩, rfl, ha v⟩
  · exact ⟨_, ⟨hsafe, v, aux, cmp, h', rfl⟩, rfl, hfault⟩

theorem onlyIf [Decidable c] {m : Fs (Except Errno Unit)} (hm : c → Spares E m fun _ => True) :
    Spares E (MiniOrange.onlyIf c m) fun _ => True := .ite hm fun _ => .pure trivial

/-! ### Data blocks -/

/-- `read_volume_block_into`. -/
theorem readBlock (b : Nat) (buffer : Buffer) : Spares E (readVolumeBlockInto b buffer) fun _ => True := by
  rintro μ s ⟨hsafe, v, aux, cmp, h, rfl⟩
  have hset : ∀ (block : Block) (outcome : Nat → Option Fault), ∃ μ',
      Held E μ' { s with buffers := s.buffers.set buffer block, outcome := outcome } ∧ μ' = v.roster ∧ True := by
    intro block outcome
    obtain ⟨μ', ⟨-, v', aux', cmp', h', hμ'⟩, hμ, -⟩ := setBuffer buffer block v.roster s ⟨hsafe, v, aux, cmp, h, rfl⟩
    exact ⟨μ', ⟨hsafe, v', aux', cmp', { h' with outcome := trivial }, hμ'⟩, hμ, trivial⟩
  rcases Nat.lt_or_ge b E.sb.totalBlocks with hb | hb
  · refine (h.read hb).mono ?_
    rintro r s' (⟨rfl, -, hs'⟩ | ⟨rfl, -, -, block, hs'⟩)
    · rw [hs']
      exact hset _ _
    · rw [hs']
      exact hset _ _
  · unfold readVolumeBlockInto
    rw [wp_bind, wp_get, h.superblock, if_pos (.inl hb)]
    exact ⟨_, ⟨hsafe, v, aux, cmp, h, rfl⟩, rfl, trivial⟩

/-- Writing a data block. -/
theorem writeData (buffer : Buffer) (hb : dataBlockValid E.sb b = true) :
    Spares E (writeVolumeBlockFrom b buffer) fun _ => True := by
  rintro μ s ⟨hsafe, v, aux, cmp, h, rfl⟩
  obtain ⟨hstart, hend⟩ := dataBlockValid_iff.1 hb
  have hpos := E.geometry.dataStart_pos
  refine (h.write_any hsafe buffer (by omega) hend).mono ?_
  rintro r s' ⟨block, -, h'⟩
  rw [Vol.ofDisk_writeData E.geometry hstart hend, h.volume] at h'
  exact ⟨v.roster, ⟨hsafe, _, aux, cmp, h', rfl⟩, rfl, trivial⟩

/-- A bit of the block bitmap. -/
theorem blockBit (b : Nat) (value : Bool) :
    Spares E (bitmapUpdate E.sb.blockBitmapStart E.sb.blockBitmapBlocks b value) fun _ => True :=
  fun _ => .tried (fun h hsafe => h.bitmapUpdate_any hsafe E.blockBits b value) (fun _ _ hv => ⟨hv, trivial⟩)
    fun _ _ => ⟨rfl, trivial⟩

/-- `free_block`. -/
theorem freeBlock (b : Nat) : Spares E (MiniOrange.freeBlock b) fun _ => True := by
  refine .get fun s hs => ?_
  rw [hs]
  exact .ite (fun _ => .blockBit b false) fun _ => .pure trivial

/-- A data block is handed out. -/
def DataBlock (sb : Superblock) (r : Except Errno Nat) : Prop := ∀ b, r = .ok b → dataBlockValid sb b = true

/-- `allocate_block`. -/
theorem allocateBlock : Spares E MiniOrange.allocateBlock (DataBlock E.sb) := by
  unfold MiniOrange.allocateBlock
  refine .get fun s hs => ?_
  rw [hs]
  dsimp only
  have hpick : Spares E (allocateBitmapBit E.sb.blockBitmapStart E.sb.blockBitmapBlocks E.sb.dataStart E.sb.totalBlocks)
      (DataBlock E.sb) := by
    rintro μ s ⟨hsafe, v, aux, cmp, h, rfl⟩
    refine (h.allocateBitmapBit_any hsafe E.blockBits E.geometry.bits_le.1).mono ?_
    rintro r s' (⟨k, hfirst, hlimit, -, h', hk⟩ | ⟨⟨e, rfl⟩, h'⟩)
    · refine ⟨v.roster, ⟨hsafe, _, aux, cmp, h', rfl⟩, rfl, fun b hb => ?_⟩
      rw [hk b hb]
      exact dataBlockValid_iff.2 ⟨hfirst, hlimit⟩
    · exact ⟨v.roster, ⟨hsafe, _, aux, cmp, h', rfl⟩, rfl, nofun⟩
  refine .bindResult hpick (fun _ => .pure nofun) fun block hr => .bind (.setBuffer _ _) fun _ _ => ?_
  refine .bindResult (.writeData _ (hr block rfl)) (fun _ => ?_) fun _ _ => .pure hr
  exact .bind (.blockBit block false) fun _ _ => .pure nofun

/-- `inode_block_at`. -/
theorem inodeBlockAt (inode : Inode) (fileBlock : Nat) :
    Spares E (MiniOrange.inodeBlockAt inode fileBlock) (DataBlock E.sb) :=
  .reads (fun _ => Reads.inodeBlockAt inode fileBlock)
    (fun _ _ hb => dataBlockValid_iff.2 (Vol.inodeBlockAt_valid hb)) nofun

/-- The scan of `directory_append_locked`, and how far it goes. -/
theorem findUnusedEntry (directory : Inode) (fuel offset : Nat) :
    Spares E (MiniOrange.findUnusedEntry directory fuel offset) fun r => ∀ o, r = .ok o → o ≤ offset + 64 * fuel := by
  refine .reads (fun _ => Reads.findUnused fuel offset) (fun v o ho => ?_) nofun
  induction fuel generalizing offset with
  | zero =>
    cases ho
    exact le_rfl
  | succ fuel ih =>
    unfold Vol.findUnused at ho
    split at ho
    · cases ho
      omega
    · split at ho
      · cases ho
      · split at ho
        · cases ho
          omega
        · have := ih _ ho
          omega

theorem freeFresh (diskBlock newIndirect : Nat) : Spares E (MiniOrange.freeFresh diskBlock newIndirect) fun _ => True :=
  .bind (.freeBlock _) fun _ _ => .bind (.onlyIf fun _ => .freeBlock _) fun _ _ => .pure trivial

theorem writePointer {indirect : Nat} (index pointer : Nat) (hi : dataBlockValid E.sb indirect = true) :
    Spares E (MiniOrange.writePointer indirect index pointer) fun _ => True :=
  .getBuffer fun _ => .bind (.setBuffer _ _) fun _ _ => .writeData _ hi

theorem freeBlocksFrom (block : Machine → Nat → Nat) :
    ∀ count index, Spares E (MiniOrange.freeBlocksFrom block count index) fun _ => True
  | 0, _ => .pure trivial
  | count + 1, index => .get fun _ _ => .bindResult (.freeBlock _) (fun _ => .pure trivial) fun _ _ =>
    freeBlocksFrom block count (index + 1)

end Spares

/-! ## Records -/

/-- A record in memory that can be written for inode `n` and keeps its mode. -/
structure Loaded (E : Env) (μ : Roster) (n : Nat) (inode : Inode) : Prop where
  fits : inode.Fits
  pointed : inode.Pointed E.sb
  mode : inode.mode = (μ.ino n).mode

/-- The inodes in use and their modes stay, and the indirect pointers are in order. -/
structure Roster.Steady (E : Env) (μ μ' : Roster) : Prop where
  pointed : μ'.Pointed E.sb
  kept : Roster.Kept ∅ μ μ'

variable {n offset length : Nat} {inode : Inode} {source : Bytes}

theorem Roster.Steady.refl (h : μ.Pointed E.sb) : Roster.Steady E μ μ := ⟨h, .refl _ _⟩

theorem Roster.Steady.trans (h : Roster.Steady E μ μ₁) (h' : Roster.Steady E μ₁ μ') : Roster.Steady E μ μ' :=
  ⟨h'.pointed, h.kept.trans h'.kept⟩

theorem Loaded.steady (h : Loaded E μ n inode) (hμ : Roster.Steady E μ μ') : Loaded E μ' n inode :=
  { h with mode := h.mode.trans (hμ.kept n (Set.notMem_empty n)).2.symm }

namespace Acts

/-- `write_inode_internal`. -/
theorem writeInode (n : Nat) (hfits : inode.Fits) :
    Acts E μ (writeInodeInternal n inode) fun r μ' => μ' = μ.setIno n inode ∨ r ≠ .ok () ∧ μ' = μ :=
  .tried (fun h hsafe => h.writeInode_any hsafe hfits) (fun _ _ hv => .inl (hv ▸ rfl)) fun _ hr => .inr ⟨hr, rfl⟩

/-- `clear_inode_record`. -/
theorem clearRecord (n : Nat) : Acts E μ (clearInodeRecord n) fun _ μ' => μ' = μ.setIno n .zero ∨ μ' = μ :=
  .tried (fun h hsafe => h.clearInodeRecord_any hsafe n) (fun _ _ hv => .inl (hv ▸ rfl)) fun _ _ => .inr rfl

/-- `free_inode`. -/
theorem freeInode (n : Nat) : Acts E μ (MiniOrange.freeInode n) fun _ μ' => μ' = μ.setI n false ∨ μ' = μ := by
  refine .get fun s hs => ?_
  rw [hs]
  exact .ite (fun _ => .pure (.inr rfl)) fun _ => .tried (fun h hsafe => h.bitmapUpdate_any hsafe E.inodeBits n false)
    (fun _ _ hv => .inl (hv ▸ rfl)) fun _ _ => .inr rfl

/-- `allocate_inode`. -/
theorem allocateInode : Acts E μ MiniOrange.allocateInode fun r μ' =>
    (∃ c < E.sb.totalInodes, μ.imap c = false ∧ μ' = μ.setI c true ∧ ∀ c', r = .ok c' → c' = c) ∨
      (∃ e, r = .error e) ∧ μ' = μ := by
  unfold MiniOrange.allocateInode
  refine .get fun s hs => ?_
  rw [hs]
  rintro s ⟨hsafe, v, aux, cmp, h, rfl⟩
  refine (h.allocateBitmapBit_any hsafe E.inodeBits E.geometry.bits_le.2).mono ?_
  rintro r s' (⟨c, -, hc, hfree, h', hr⟩ | ⟨hr, h'⟩)
  · exact ⟨_, ⟨hsafe, _, aux, cmp, h', rfl⟩, .inl ⟨c, hc, hfree, rfl, hr⟩⟩
  · exact ⟨_, ⟨hsafe, _, aux, cmp, h', rfl⟩, .inr ⟨hr, rfl⟩⟩

/-- A record is written back. -/
theorem commit (hμ : μ.Pointed E.sb) (h : Loaded E μ n inode) :
    Acts E μ (writeInodeInternal n inode) fun _ μ' => Roster.Steady E μ μ' := by
  refine (writeInode n h.fits).mono ?_
  rintro r μ' (rfl | ⟨-, rfl⟩)
  · exact ⟨hμ.setIno h.pointed, Roster.kept_setIno (.inr h.mode)⟩
  · exact .refl hμ

/-! ## Writing to a file -/

/-- The end of `write_chunk_locked`: the inodes stay, and the record in memory can be written. -/
def Grown (E : Env) (μ : Roster) (n : Nat) (r : Except Errno Inode) (μ' : Roster) : Prop :=
  Roster.Steady E μ μ' ∧ ∀ inode, r = .ok inode → Loaded E μ' n inode

theorem writeChunkInPlace (hμ : μ.Pointed E.sb) (h : Loaded E μ n inode) (hsize : offset + length < 2 ^ 32) :
    Acts E μ (MiniOrange.writeChunkInPlace n inode offset source length) (Grown E μ n) := by
  have hfail : ∀ e, Grown E μ n (.error e) μ := fun _ => ⟨.refl hμ, nofun⟩
  refine .afterResult (.inodeBlockAt _ _) (fun _ => .pure (hfail _)) fun diskBlock hr => ?_
  refine .afterResult (.readBlock _ _) (fun _ => .pure (hfail _)) fun _ _ => .getBuffer fun block => ?_
  refine .after (.setBuffer _ _) fun _ _ => .afterResult (.writeData _ (hr _ rfl)) (fun _ => .pure (hfail _)) fun _ _ => ?_
  refine .ite (fun _ => ?_) fun _ => .pure ⟨.refl hμ, fun _ heq => Except.ok.inj heq ▸ h⟩
  have h' : Loaded E μ n { inode with size := offset + length } := ⟨{ h.fits with size := hsize }, h.pointed, h.mode⟩
  refine (commit hμ h').bindResult (fun _ _ hsteady => .pure ⟨hsteady, nofun⟩) fun _ _ hsteady => ?_
  exact .pure ⟨hsteady, fun _ heq => Except.ok.inj heq ▸ h'.steady hsteady⟩

variable {newIndirect : Nat}

theorem writeChunkCommit {fileBlock diskBlock size : Nat} (hμ : μ.Pointed E.sb) (h : Loaded E μ n inode)
    (hdisk : dataBlockValid E.sb diskBlock = true) (hindirect : 10 ≤ fileBlock → dataBlockValid E.sb inode.indirect = true)
    (hsize : size < 2 ^ 32) :
    Acts E μ (MiniOrange.writeChunkCommit n inode fileBlock diskBlock newIndirect size) (Grown E μ n) := by
  have hundo : ∀ {μ'}, Roster.Steady E μ μ' → Acts E μ' (do
      freeFresh diskBlock newIndirect
      return .error .eio) (Grown E μ n) := fun hsteady => .after (.freeFresh _ _) fun _ _ => .pure ⟨hsteady, nofun⟩
  unfold MiniOrange.writeChunkCommit
  split
  · next hdirect =>
    have hlt : diskBlock < 2 ^ 32 := (dataBlockValid_iff.1 hdisk).2.trans E.geometry.totalBlocks_lt
    have hfits : ∀ k, Function.update inode.direct ⟨fileBlock, hdirect⟩ diskBlock k < 2 ^ 32 := by
      intro k
      rw [Function.update_apply]
      split
      · exact hlt
      · exact h.fits.direct k
    have h' : Loaded E μ n { inode with direct := Function.update inode.direct ⟨fileBlock, hdirect⟩ diskBlock, size := size } :=
      ⟨{ h.fits with direct := hfits, size := hsize }, h.pointed, h.mode⟩
    refine (commit hμ h').bindResult (fun _ _ hsteady => hundo hsteady) fun _ _ hsteady => ?_
    exact .pure ⟨hsteady, fun _ heq => Except.ok.inj heq ▸ h'.steady hsteady⟩
  · next hdirect =>
    have hvalid := hindirect (Nat.not_lt.1 hdirect)
    have h' : Loaded E μ n { inode with size := size } := ⟨{ h.fits with size := hsize }, h.pointed, h.mode⟩
    have hstop := hundo (.refl hμ)
    refine .ite (fun _ => hstop) fun _ => .afterResult (.readBlock _ _) (fun _ => hstop) fun _ _ => ?_
    refine .afterResult (.writePointer _ _ hvalid) (fun _ => hstop) fun _ _ => ?_
    refine (commit hμ h').bindResult (fun _ _ hsteady => ?_) fun _ _ hsteady => ?_
    · exact .after (.onlyIf fun _ => .writePointer _ _ hvalid) fun _ _ => hundo hsteady
    · exact .pure ⟨hsteady, fun _ heq => Except.ok.inj heq ▸ h'.steady hsteady⟩

theorem writeChunkAppend (hμ : μ.Pointed E.sb) (h : Loaded E μ n inode)
    (hindirect : 10 ≤ offset / 4096 → dataBlockValid E.sb inode.indirect = true) (hsize : offset + length < 2 ^ 32) :
    Acts E μ (MiniOrange.writeChunkAppend n inode newIndirect offset source length) (Grown E μ n) := by
  refine .afterResult .allocateBlock (fun _ => ?_) fun diskBlock hr => .after (.setBuffer _ _) fun _ _ => ?_
  · exact .after (.onlyIf fun _ => .freeBlock _) fun _ _ => .pure ⟨.refl hμ, nofun⟩
  · refine .afterResult (.writeData _ (hr _ rfl)) (fun _ => ?_) fun _ _ => writeChunkCommit hμ h (hr _ rfl) hindirect hsize
    exact .after (.freeFresh _ _) fun _ _ => .pure ⟨.refl hμ, nofun⟩

/-- `write_chunk_locked`. -/
theorem writeChunkLocked (hμ : μ.Pointed E.sb) (h : Loaded E μ n inode) (hsize : offset + length < 2 ^ 32) :
    Acts E μ (MiniOrange.writeChunkLocked n inode offset source length) (Grown E μ n) := by
  have hfail : ∀ e, Acts E μ (Pure.pure (.error e)) (Grown E μ n) := fun _ => .pure ⟨.refl hμ, nofun⟩
  refine .ite (fun _ => writeChunkInPlace hμ h hsize) fun _ => .ite (fun _ => hfail _) fun _ => .ite (fun _ => ?_) fun hhas => ?_
  · refine .afterResult .allocateBlock (fun _ => hfail _) fun newIndirect hr => ?_
    have hvalid := hr _ rfl
    have hlt : newIndirect < 2 ^ 32 := (dataBlockValid_iff.1 hvalid).2.trans E.geometry.totalBlocks_lt
    have h' : Loaded E μ n { inode with indirect := newIndirect } :=
      ⟨{ h.fits with indirect := hlt }, fun _ => hvalid, h.mode⟩
    exact writeChunkAppend hμ h' (fun _ => hvalid) hsize
  · exact writeChunkAppend hμ h (fun hfar => h.pointed fun hzero => hhas ⟨hfar, hzero⟩) hsize

/-- The loop of `minifs_write`. -/
theorem minifsWriteFrom {source : List UInt8} (hsize : offset + source.length < 2 ^ 32) :
    ∀ fuel {μ₀ μ : Roster} {inode : Inode} (completed : Nat), Roster.Steady E μ₀ μ → Loaded E μ n inode →
      Acts E μ (MiniOrange.minifsWriteFrom n offset source fuel inode completed) fun _ μ' => Roster.Steady E μ₀ μ'
  | 0, _, _, _, _, hsteady, _ => .pure hsteady
  | fuel + 1, μ₀, μ, inode, completed, hsteady, h => by
    refine .ite (fun _ => .pure hsteady) fun hmore => ?_
    refine (writeChunkLocked hsteady.pointed h (by omega)).bindResult (fun _ _ hgrown => ?_) fun inode' _ hgrown => ?_
    · exact .pure (hsteady.trans hgrown.1)
    · exact minifsWriteFrom hsize fuel _ (hsteady.trans hgrown.1) (hgrown.2 _ rfl)

end Acts

end MiniOrange

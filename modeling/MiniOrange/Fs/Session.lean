import MiniOrange.Fs.Code

/-!
# Running MiniFS on a mounted volume

`On E ℓ v aux cmp s` says that the machine `s` runs on the volume `v`, with `aux` and `cmp` in the
two buffers that outlive a helper call, and that the transfers to come fail only as the level `ℓ`
allows. A function that only reads is described once for all levels by `Reads`: it returns its
value on `v`, or it has met a fault and returns a fixed error. A write is described at the levels
where a failed write leaves its block as it was (`On.write`).
-/

namespace MiniOrange

/-! ## Which transfers may fail -/

/-- How the coming transfers may fail: not at all; one of them, a failed write leaving its block
unchanged; or in any way. -/
inductive Level where
  | quiet | single | any
  deriving DecidableEq

namespace Level

/-- The outcomes a level allows. -/
def Holds : Level → (Nat → Option Fault) → Prop
  | quiet, o => ∀ k, o k = none
  | single, o => (∀ k f, o k = some f → f.stored = 0) ∧ ∀ j k, o j ≠ none → o k ≠ none → j = k
  | any, _ => True

/-- The level once a transfer has failed. -/
def after : Level → Level
  | quiet => quiet
  | single => quiet
  | any => any

variable {ℓ : Level} {o : Nat → Option Fault} {f : Fault}

/-- A level still holds after a transfer. -/
theorem Holds.tail (h : ℓ.Holds o) : ℓ.Holds fun k => o (k + 1) := by
  cases ℓ with
  | quiet => exact fun k => h (k + 1)
  | single => exact ⟨fun k f hf => h.1 _ f hf, fun j k hj hk => Nat.succ.inj (h.2 _ _ hj hk)⟩
  | any => trivial

/-- A fault is spent: no level that allows it is quiet. -/
theorem Holds.fault (h : ℓ.Holds o) (h0 : o 0 = some f) :
    ℓ ≠ quiet ∧ ℓ.after.Holds fun k => o (k + 1) := by
  cases ℓ with
  | quiet => rw [h 0] at h0; cases h0
  | single =>
    refine ⟨nofun, fun k => ?_⟩
    by_contra hk
    exact absurd (h.2 0 (k + 1) (by rw [h0]; exact nofun) hk) (by omega)
  | any => exact ⟨nofun, trivial⟩

/-- Below `any` a failed write stores nothing. -/
theorem Holds.stored (h : ℓ.Holds o) (hℓ : ℓ ≠ any) (h0 : o 0 = some f) :
    ℓ = single ∧ f.stored = 0 := by
  cases ℓ with
  | quiet => rw [h 0] at h0; cases h0
  | single => exact ⟨rfl, h.1 0 f h0⟩
  | any => exact absurd rfl hℓ

/-- Below `any`, a level at which a transfer has failed allowed that one. -/
theorem eq_single (hq : ℓ ≠ quiet) (ha : ℓ ≠ any) : ℓ = single := by
  cases ℓ with
  | quiet => exact absurd rfl hq
  | single => rfl
  | any => exact absurd rfl ha

end Level

/-- A transfer that stopped before its first sector leaves the block. -/
@[simp] theorem Block.torn_zero (old new : Block) : old.torn new 0 = old := by
  ext i _
  rw [Block.torn, Block.byte_copyBytes_of_not_mem (by omega)]

/-! ## The running machine -/

/-- A mounted volume: its superblock, with the geometry `decode_superblock` checks, the block it
was read from, and a property that the volume keeps at every point where execution could stop. -/
structure Env where
  sb : Superblock
  geometry : sb.Geometry
  header : Block
  mounted : Bool
  safe : Vol → Prop

/-- The machine runs on the volume `v`. -/
structure On (E : Env) (ℓ : Level) (v : Vol) (aux cmp : Block) (s : Machine) : Prop where
  superblock : s.superblock = E.sb
  blockCount : E.sb.totalBlocks ≤ s.layout.blockCount
  device : s.layout.startBlock + s.layout.blockCount ≤ s.deviceBlockCount
  mounted : s.mounted = E.mounted
  header : s.volume 0 = E.header
  volume : Vol.ofDisk E.sb s.volume = v
  auxiliary : s.buffers.auxiliaryBlock = aux
  compare : s.buffers.compareBuffer = cmp
  outcome : ℓ.Holds s.outcome
  safe : E.safe v
  history : ∀ d ∈ s.history, d 0 = E.header ∧ E.safe (Vol.ofDisk E.sb d)

variable {E : Env} {ℓ : Level} {v v' : Vol} {aux cmp : Block} {s : Machine}

/-! ### Buffers -/

variable {buffer : Buffer} {Q : Machine → Prop}

@[simp] theorem wp_setBuffer {b : Block} {Q : Unit → Machine → Prop} :
    wp (setBuffer buffer b) Q s ↔ Q () { s with buffers := s.buffers.set buffer b } := Iff.rfl

@[simp] theorem wp_getBuffer {Q : Block → Machine → Prop} :
    wp (getBuffer buffer) Q s ↔ Q (s.buffers.get buffer) s := Iff.rfl

/-- `io_block` is free to change. -/
theorem On.setIo (h : On E ℓ v aux cmp s) (b : Block) :
    On E ℓ v aux cmp { s with buffers := s.buffers.set .ioBlock b } := { h with }

theorem On.setAuxiliary (h : On E ℓ v aux cmp s) (b : Block) :
    On E ℓ v b cmp { s with buffers := s.buffers.set .auxiliaryBlock b } :=
  { h with auxiliary := rfl }

theorem On.setCompare (h : On E ℓ v aux cmp s) (b : Block) :
    On E ℓ v aux b { s with buffers := s.buffers.set .compareBuffer b } :=
  { h with compare := rfl }

/-! ### Reading -/

/-- The end of a read: its value, or its error once a fault is spent. -/
def Ended {α : Type} (E : Env) (ℓ : Level) (v : Vol) (aux cmp : Block) (a fault : α)
    (Q : Machine → Prop) (r : α) (s : Machine) : Prop :=
  (r = a ∧ On E ℓ v aux cmp s ∧ Q s) ∨ (r = fault ∧ ℓ ≠ .quiet ∧ On E ℓ.after v aux cmp s)

/-- `m` only reads: on `v` it returns `a`, or `fault` after a failed transfer. `P` holds before it,
and `Q` after it has returned `a`. -/
def Reads {α : Type} (E : Env) (v : Vol) (P : Machine → Prop) (m : Fs α) (a fault : α)
    (Q : Machine → Prop) : Prop :=
  ∀ ⦃ℓ aux cmp s⦄, On E ℓ v aux cmp s → P s → wp m (Ended E ℓ v aux cmp a fault Q) s

namespace Reads

variable {α β : Type} {P Q R : Machine → Prop} {a fault : α} {b fault' : β}

/-- A command that returns leaves everything. -/
theorem pure : Reads E v P (Pure.pure a) a fault P := fun _ _ _ _ h hP => .inl ⟨rfl, h, hP⟩

/-- A read goes on with its value, and a fault ends it. -/
theorem bind {m : Fs α} {k : α → Fs β} (hm : Reads E v P m a fault R)
    (hk : Reads E v R (k a) b fault' Q) (hf : k fault = Pure.pure fault') :
    Reads E v P (m >>= k) b fault' Q := by
  intro ℓ aux cmp s h hP
  refine wp.bind (hm h hP) ?_
  rintro r s' (⟨rfl, h', hR⟩ | ⟨rfl, hℓ, h'⟩)
  · exact hk h' hR
  · rw [hf]
    exact .inr ⟨rfl, hℓ, h'⟩

/-- The state read by `get` counts only through what `On` fixes. -/
theorem get {f : Machine → Fs α} {g : Fs α}
    (hf : ∀ ⦃ℓ aux cmp s⦄, On E ℓ v aux cmp s → P s → f s = g) (hg : Reads E v P g a fault Q) :
    Reads E v P (MonadState.get >>= f) a fault Q := by
  intro ℓ aux cmp s h hP
  rw [wp_bind, wp_get, hf h hP]
  exact hg h hP

/-- The condition after a read may be dropped. -/
theorem drop {m : Fs α} (hm : Reads E v P m a fault Q) : Reads E v P m a fault fun _ => True := by
  intro ℓ aux cmp s h hP
  refine (hm h hP).mono ?_
  rintro r s' (⟨hr, h', -⟩ | h')
  · exact .inl ⟨hr, h', trivial⟩
  · exact .inr h'

/-- A command that returns, with nothing more to know. -/
theorem ret : Reads E v P (Pure.pure a) a fault fun _ => True := pure.drop

/-- A test of the code that its value on the volume makes too. -/
theorem ite {c : Prop} [Decidable c] {m m' : Fs α} {a' : α} (hm : Reads E v P m a fault Q)
    (hm' : Reads E v P m' a' fault Q) :
    Reads E v P (if c then m else m') (if c then a else a') fault Q := by
  split
  · exact hm
  · exact hm'

/-- `io_block` holds what was read into it. -/
theorem io {b : Block} {f : Block → Fs α}
    (hf : Reads E v (fun s => s.buffers.ioBlock = b) (f b) a fault Q) :
    Reads E v (fun s => s.buffers.ioBlock = b) (getBuffer .ioBlock >>= f) a fault Q := by
  intro ℓ aux cmp s h hio
  rw [wp_bind, wp_getBuffer, show s.buffers.get .ioBlock = b from hio]
  exact hf h hio

end Reads

/-- When no transfer fails, a read returns its value. -/
theorem On.eq_of_reads {α : Type} {m : Fs α} {a fault : α} (h : On E .quiet v aux cmp s)
    (hm : Reads E v (fun _ => True) m a fault Q) : (m s).1 = a ∧ On E .quiet v aux cmp (m s).2 := by
  rcases hm h trivial with ⟨hr, h', -⟩ | ⟨-, hq, -⟩
  · exact ⟨hr, h'⟩
  · exact absurd rfl hq

/-- What follows it goes on with this value. -/
theorem On.bind_reads {α β : Type} {m : Fs α} {k : α → Fs β} {a fault : α}
    {P : β → Machine → Prop} (h : On E .quiet v aux cmp s) (hm : Reads E v (fun _ => True) m a fault Q)
    (hk : ∀ s, On E .quiet v aux cmp s → wp (k a) P s) : wp (m >>= k) P s := by
  obtain ⟨hr, h'⟩ := h.eq_of_reads hm
  rw [wp_bind, wp, hr]
  exact hk _ h'

/-! ## Blocks -/

/-- A block of the volume is one of the device. -/
theorem On.onDevice {b : Nat} (h : On E ℓ v aux cmp s) (hb : b < E.sb.totalBlocks) :
    ¬ (b ≥ s.superblock.totalBlocks ∨ b ≥ s.layout.blockCount) ∧ ¬ s.layout.startBlock + b ≥ s.deviceBlockCount := by
  have hsb := h.superblock
  have hbc := h.blockCount
  have hdev := h.device
  rw [hsb]
  omega

/-- `read_volume_block_into` any buffer: the disk stays, and a fault is spent. -/
theorem On.read {b : Nat} (h : On E ℓ v aux cmp s) (hb : b < E.sb.totalBlocks) :
    wp (readVolumeBlockInto b buffer) (fun r s' =>
      (r = .ok () ∧ ℓ.Holds s'.outcome ∧
        s' = { s with buffers := s.buffers.set buffer (s.volume b), outcome := s'.outcome }) ∨
      (r = .error .eio ∧ ℓ ≠ .quiet ∧ ℓ.after.Holds s'.outcome ∧ ∃ block,
        s' = { s with buffers := s.buffers.set buffer block, outcome := s'.outcome })) s := by
  obtain ⟨hin, hreq⟩ := h.onDevice hb
  unfold readVolumeBlockInto blockRead
  simp only [wp_bind, wp_get, if_neg hin, if_neg hreq]
  cases h0 : s.outcome 0 with
  | none => exact .inl ⟨rfl, h.outcome.tail, rfl⟩
  | some fault => exact .inr ⟨rfl, (h.outcome.fault h0).1, (h.outcome.fault h0).2, _, rfl⟩

/-- `read_volume_block` loads the block into `io_block`. -/
theorem On.readBlock {b : Nat} (h : On E ℓ v aux cmp s) (hb : b < E.sb.totalBlocks) :
    wp (readVolumeBlock b) (Ended E ℓ v aux cmp (.ok ()) (.error .eio) fun s' =>
      s'.volume = s.volume ∧ s'.buffers.ioBlock = s.volume b) s := by
  refine (h.read hb).mono ?_
  rintro r s' (⟨rfl, ho, hs⟩ | ⟨rfl, hℓ, ho, block, hs⟩)
  · refine .inl ⟨rfl, ?_, ?_⟩
    · rw [hs]
      exact { h with auxiliary := h.auxiliary, compare := h.compare, outcome := ho }
    · rw [hs]
      exact ⟨rfl, rfl⟩
  · refine .inr ⟨rfl, hℓ, ?_⟩
    rw [hs]
    exact { h with auxiliary := h.auxiliary, compare := h.compare, outcome := ho }

/-- Reading a data block gives the volume's. -/
theorem Reads.dataBlock {P : Machine → Prop} {b : Nat} (hb : E.sb.dataStart ≤ b)
    (hb' : b < E.sb.totalBlocks) :
    Reads E v P (readVolumeBlock b) (.ok ()) (.error .eio) fun s =>
      s.buffers.ioBlock = v.data b := by
  intro ℓ aux cmp s h _
  refine (h.readBlock hb').mono ?_
  rintro r s' (⟨rfl, h', -, hio⟩ | h')
  · have hdata : s.volume b = v.data b := by rw [← h.volume, Vol.data_ofDisk hb hb']
    exact .inl ⟨rfl, h', hio.trans hdata⟩
  · exact .inr h'

/-- The end of a write: it has changed `v` to `v'`, or it has failed and changed nothing. -/
def Wrote (E : Env) (ℓ : Level) (v v' : Vol) (aux cmp : Block) (r : Except Errno Unit)
    (s : Machine) : Prop :=
  (r = .ok () ∧ On E ℓ v' aux cmp s) ∨ (r = .error .eio ∧ ℓ = .single ∧ On E .quiet v aux cmp s)

/-- `write_volume_block_from` where the written disk is the volume `v'`. -/
theorem On.write (h : On E ℓ v aux cmp s) (buffer : Buffer) {b : Nat} (hℓ : ℓ ≠ .any)
    (hb0 : b ≠ 0) (hb : b < E.sb.totalBlocks)
    (hv : Vol.ofDisk E.sb (Function.update s.volume b (s.buffers.get buffer)) = v')
    (hsafe : E.safe v') :
    wp (writeVolumeBlockFrom b buffer) (fun r s' =>
      Wrote E ℓ v v' aux cmp r s' ∧ s'.buffers = s.buffers) s := by
  obtain ⟨hin, hreq⟩ := h.onDevice hb
  unfold writeVolumeBlockFrom blockWrite
  simp only [wp_bind, wp_get, if_neg hin, if_neg hreq]
  cases h0 : s.outcome 0 with
  | none =>
    have hheader : Function.update s.volume b (s.buffers.get buffer) 0 = E.header := by
      rw [Function.update_of_ne hb0.symm, h.header]
    refine ⟨.inl ⟨rfl, ?_⟩, rfl⟩
    refine { h with
      header := hheader
      volume := hv
      outcome := h.outcome.tail
      safe := hsafe
      history := fun d hd => ?_ }
    rcases List.mem_cons.1 hd with rfl | hd
    · exact ⟨hheader, by rwa [hv]⟩
    · exact h.history d hd
  | some fault =>
    obtain ⟨rfl, hstored⟩ := h.outcome.stored hℓ h0
    have hsame : Function.update s.volume b
        ((s.volume b).torn (s.buffers.get buffer) fault.stored) = s.volume := by
      rw [hstored, Block.torn_zero, Function.update_eq_self]
    refine ⟨.inr ⟨rfl, rfl, ?_⟩, rfl⟩
    simp only [hsame]
    refine { h with
      outcome := (h.outcome.fault h0).2
      history := fun d hd => ?_ }
    rcases List.mem_cons.1 hd with rfl | hd
    · exact ⟨h.header, by rw [h.volume]; exact h.safe⟩
    · exact h.history d hd

end MiniOrange

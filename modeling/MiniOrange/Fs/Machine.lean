import MiniOrange.Fs.Entry
import MiniOrange.Logic.Wp

/-!
# The machine MiniFS runs on

The state the functions of `kernel/fs/minifs.c` share: the volume on the block device, the three
static block buffers, the mounted superblock and the two flags. A block transfer may fail: the
outcomes of the transfers still to come are part of the state. The driver moves a block sector by
sector and can fail after any of them, or once all are on disk, when the cache is flushed; so a
failed transfer leaves the sectors it had moved. The volume after each write is recorded, so that
the volume at each point where execution could stop is in the `history`.
-/

namespace MiniOrange

/-- Where the volume lies on the device: `MINIFS_VOLUME_START_BLOCK` and
`MINIFS_VOLUME_BLOCK_COUNT`, generated from the image layout. -/
structure VolumeLayout where
  startBlock : Nat
  blockCount : Nat
  deriving DecidableEq, Repr

/-- The blocks of the volume, by number relative to its start. -/
abbrev Disk := Nat → Block

/-- The static buffers of `minifs.c`. -/
inductive Buffer where
  | ioBlock | auxiliaryBlock | compareBuffer
  deriving DecidableEq

/-- What the static buffers hold. -/
structure Buffers where
  ioBlock : Block
  auxiliaryBlock : Block
  compareBuffer : Block

namespace Buffers

def get (x : Buffers) : Buffer → Block
  | .ioBlock => x.ioBlock
  | .auxiliaryBlock => x.auxiliaryBlock
  | .compareBuffer => x.compareBuffer

def set (x : Buffers) : Buffer → Block → Buffers
  | .ioBlock, b => { x with ioBlock := b }
  | .auxiliaryBlock, b => { x with auxiliaryBlock := b }
  | .compareBuffer, b => { x with compareBuffer := b }

end Buffers

/-- A failed block transfer: how many of the 512-byte sectors `ata_read_sectors` had put in the
buffer, or `ata_write_sectors` on the disk. -/
structure Fault where
  loaded : Nat
  stored : Nat
  deriving DecidableEq, Repr

/-- `old` with its first `sectors` sectors replaced by those of `new`. -/
def Block.torn (old new : Block) (sectors : Nat) : Block :=
  old.copyBytes 0 (new.ptr 0) (512 * sectors)

/-- The state of the file system and its device. -/
structure Machine where
  layout : VolumeLayout
  /-- `device_block_count` of the block layer. -/
  deviceBlockCount : Nat
  volume : Disk
  buffers : Buffers
  superblock : Superblock
  mounted : Bool
  operationBusy : Bool
  /-- The interrupt flag of the processor. -/
  interrupts : Bool
  /-- The outcomes of the coming block transfers: `none` succeeds. -/
  outcome : Nat → Option Fault
  /-- The volume after each write so far, the last one first. -/
  history : List Disk

/-- A function of `minifs.c`. -/
abbrev Fs := StateM Machine

/-- Overwrite a static buffer. -/
def setBuffer (buffer : Buffer) (b : Block) : Fs Unit :=
  modify fun s => { s with buffers := s.buffers.set buffer b }

/-- Read a static buffer. -/
def getBuffer (buffer : Buffer) : Fs Block := do return (← get).buffers.get buffer

/-- `irq_save_disable`. -/
def irqSaveDisable : Fs Bool := do
  let s ← get
  set { s with interrupts := false }
  return s.interrupts

/-- `irq_restore`. -/
def irqRestore (flags : Bool) : Fs Unit := modify fun s => { s with interrupts := flags }

/-- `block_read` of one block of the volume. -/
def blockRead (relativeBlock : Nat) (buffer : Buffer) : Fs (Except Errno Unit) := do
  let s ← get
  if s.layout.startBlock + relativeBlock ≥ s.deviceBlockCount then return .error .einval
  let rest := fun k => s.outcome (k + 1)
  match s.outcome 0 with
  | none =>
    set { s with buffers := s.buffers.set buffer (s.volume relativeBlock), outcome := rest }
    return .ok ()
  | some fault =>
    let block := (s.buffers.get buffer).torn (s.volume relativeBlock) fault.loaded
    set { s with buffers := s.buffers.set buffer block, outcome := rest }
    return .error .eio

/-- `block_write` of one block of the volume. -/
def blockWrite (relativeBlock : Nat) (buffer : Buffer) : Fs (Except Errno Unit) := do
  let s ← get
  if s.layout.startBlock + relativeBlock ≥ s.deviceBlockCount then return .error .einval
  let rest := fun k => s.outcome (k + 1)
  match s.outcome 0 with
  | none =>
    let volume := Function.update s.volume relativeBlock (s.buffers.get buffer)
    set { s with volume := volume, outcome := rest, history := volume :: s.history }
    return .ok ()
  | some fault =>
    let block := (s.volume relativeBlock).torn (s.buffers.get buffer) fault.stored
    let volume := Function.update s.volume relativeBlock block
    set { s with volume := volume, outcome := rest, history := volume :: s.history }
    return .error .eio

/-- `read_volume_block_into`. -/
def readVolumeBlockInto (relativeBlock : Nat) (buffer : Buffer) : Fs (Except Errno Unit) := do
  let s ← get
  if relativeBlock ≥ s.superblock.totalBlocks ∨ relativeBlock ≥ s.layout.blockCount then
    return .error .eio
  blockRead relativeBlock buffer

/-- `read_volume_block`. -/
def readVolumeBlock (relativeBlock : Nat) : Fs (Except Errno Unit) :=
  readVolumeBlockInto relativeBlock .ioBlock

/-- `write_volume_block_from`. -/
def writeVolumeBlockFrom (relativeBlock : Nat) (buffer : Buffer) : Fs (Except Errno Unit) := do
  let s ← get
  if relativeBlock ≥ s.superblock.totalBlocks ∨ relativeBlock ≥ s.layout.blockCount then
    return .error .eio
  blockWrite relativeBlock buffer

end MiniOrange

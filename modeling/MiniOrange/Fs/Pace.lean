import MiniOrange.Fs.Code

/-!
# Where a fault hits

Every function of `minifs.c` meets the outcomes of its transfers one by one. So when its transfers succeed, it
takes a number of them, and runs the same whatever the outcomes behind these are (`Paced`). A fault can therefore be
placed at any point of a run: let the calls before that point run as if nothing failed, and put the number
of their transfers in front of it (`Runs`).
-/

namespace MiniOrange

variable {α β : Type} {s s₁ s₂ : Machine} {a : α} {b : β}

/-- The outcomes `o` behind `t` transfers that succeed. -/
def delay (t : Nat) (o : Nat → Option Fault) : Nat → Option Fault := fun k => if k < t then none else o (k - t)

theorem delay_delay (t u : Nat) (o : Nat → Option Fault) : delay t (delay u o) = delay (t + u) o := by
  funext k
  unfold delay
  split
  · rw [if_pos (by omega)]
  · split
    · rw [if_pos (by omega)]
    · rw [if_neg (by omega), Nat.sub_sub]

theorem delay_none (t : Nat) : delay t (fun _ => none) = fun _ => none := by
  funext k
  exact ite_self none

/-- The machine with other outcomes to come. -/
def Machine.meets (s : Machine) (o : Nat → Option Fault) : Machine := { s with outcome := o }

/-- The machine with no fault to come. -/
def Machine.calm (s : Machine) : Machine := s.meets fun _ => none

/-- `m` runs from `s` to `s₁` and returns `a`, if its transfers succeed. -/
def Runs (m : Fs α) (s : Machine) (a : α) (s₁ : Machine) : Prop :=
  ∀ o, ∃ t, m (s.meets (delay t o)) = (a, s₁.meets o)

variable {m : Fs α} {k : α → Fs β} {c : Prop}

theorem Runs.bind (h : Runs m s a s₁) (hk : Runs (k a) s₁ b s₂) :
    Runs (m >>= k) s b s₂ := by
  intro o
  obtain ⟨u, hu⟩ := hk o
  obtain ⟨t, ht⟩ := h (delay u o)
  refine ⟨t + u, ?_⟩
  rw [← delay_delay]
  show k (m (s.meets (delay t (delay u o)))).1 (m (s.meets (delay t (delay u o)))).2 = _
  rw [ht]
  exact hu

/-- What a continuation does from some outcomes on, it does behind the transfers of `m`. -/
theorem Runs.wp_bind {Q : β → Machine → Prop} {o : Nat → Option Fault}
    (h : Runs m s a s₁) (hk : ∃ t, wp (k a) Q (s₁.meets (delay t o))) :
    ∃ t, wp (m >>= k) Q (s.meets (delay t o)) := by
  obtain ⟨u, hu⟩ := hk
  obtain ⟨t, ht⟩ := h (delay u o)
  refine ⟨t + u, ?_⟩
  rw [← delay_delay]
  show wp (k (m (s.meets (delay t (delay u o)))).1) Q (m (s.meets (delay t (delay u o)))).2
  rw [ht]
  exact hu

/-- Whatever outcomes follow, `m` runs as it does when nothing fails. -/
def Paced (m : Fs α) : Prop := ∀ s : Machine, Runs m s (m s.calm).1 (m s.calm).2

theorem Paced.wp {Q : α → Machine → Prop} (h : Paced m) (hm : wp m Q s.calm) :
    ∃ a s₁, Q a s₁ ∧ Runs m s a s₁ := ⟨_, _, hm, h s⟩

namespace Paced

theorem pure (a : α) : Paced (Pure.pure a) := fun _ _ => ⟨0, rfl⟩

theorem bind (hm : Paced m) (hk : ∀ a, Paced (k a)) : Paced (m >>= k) := by
  intro s
  have hend : (m s.calm).2.calm = (m s.calm).2 := by
    obtain ⟨t, ht⟩ := hm s fun _ => none
    rw [delay_none] at ht
    exact (congrArg Prod.snd ht).symm
  have hrun : (m >>= k) s.calm = k (m s.calm).1 (m s.calm).2.calm := by
    rw [hend]
    rfl
  rw [hrun]
  exact (hm s).bind (hk _ _)

theorem ite [Decidable c] {m' : Fs α} (h : Paced m) (h' : Paced m') : Paced (if c then m else m') := by
  split
  · exact h
  · exact h'

/-- The two ends of a call that may fail. -/
theorem bindResult {m : Fs (Except Errno α)} {k : Except Errno α → Fs β} (hm : Paced m)
    (herror : ∀ e, Paced (k (.error e))) (hok : ∀ a, Paced (k (.ok a))) : Paced (m >>= k) :=
  bind hm fun r => r.casesOn herror hok

/-- What a function takes from the state does not depend on the outcomes. -/
theorem get {f : Machine → Fs β} (hf : ∀ s o, f (s.meets o) = f s) (hk : ∀ s, Paced (f s)) :
    Paced (MonadState.get >>= f) := by
  intro s o
  obtain ⟨t, ht⟩ := hk s s o
  refine ⟨t, ?_⟩
  show f (s.meets (delay t o)) (s.meets (delay t o)) = ((f s.calm s.calm).1, (f s.calm s.calm).2.meets o)
  rw [hf, show f s.calm = f s from hf s _]
  exact ht

theorem setBuffer (buffer : Buffer) (block : Block) : Paced (setBuffer buffer block) := fun _ _ => ⟨0, rfl⟩

theorem getBuffer (buffer : Buffer) : Paced (getBuffer buffer) := fun _ _ => ⟨0, rfl⟩

end Paced

/-! ## Transfers -/

section
variable {block : Nat} {buffer : Buffer}

theorem blockRead_range (h : s.layout.startBlock + block ≥ s.deviceBlockCount) :
    blockRead block buffer s = (.error .einval, s) := by
  unfold blockRead
  simp only [bind, StateT.bind, get, getThe, MonadStateOf.get, StateT.get, pure, h, if_true]
  rfl

theorem blockRead_none (h : ¬ s.layout.startBlock + block ≥ s.deviceBlockCount) (hnone : s.outcome 0 = none) :
    blockRead block buffer s = (.ok (), { s with
      buffers := s.buffers.set buffer (s.volume block), outcome := fun k => s.outcome (k + 1) }) := by
  unfold blockRead
  simp only [bind, StateT.bind, get, getThe, MonadStateOf.get, StateT.get, pure, h, if_false, hnone]
  rfl

theorem blockRead_some {f : Fault} (h : ¬ s.layout.startBlock + block ≥ s.deviceBlockCount)
    (hsome : s.outcome 0 = some f) : blockRead block buffer s = (.error .eio, { s with
      buffers := s.buffers.set buffer ((s.buffers.get buffer).torn (s.volume block) f.loaded)
      outcome := fun k => s.outcome (k + 1) }) := by
  unfold blockRead
  simp only [bind, StateT.bind, get, getThe, MonadStateOf.get, StateT.get, pure, h, if_false, hsome]
  rfl

theorem blockWrite_range (h : s.layout.startBlock + block ≥ s.deviceBlockCount) :
    blockWrite block buffer s = (.error .einval, s) := by
  unfold blockWrite
  simp only [bind, StateT.bind, get, getThe, MonadStateOf.get, StateT.get, pure, h, if_true]
  rfl

theorem blockWrite_none (h : ¬ s.layout.startBlock + block ≥ s.deviceBlockCount) (hnone : s.outcome 0 = none) :
    blockWrite block buffer s = (.ok (), { s with
      volume := Function.update s.volume block (s.buffers.get buffer)
      outcome := fun k => s.outcome (k + 1)
      history := Function.update s.volume block (s.buffers.get buffer) :: s.history }) := by
  unfold blockWrite
  simp only [bind, StateT.bind, get, getThe, MonadStateOf.get, StateT.get, pure, h, if_false, hnone]
  rfl

end

namespace Paced

/-- A transfer does nothing, or it takes one outcome. -/
theorem transfer (h : ∀ s : Machine, (∃ a, ∀ o, m (s.meets o) = (a, s.meets o)) ∨
    ∃ a, ∃ s₁ : Machine, ∀ o, o 0 = none → m (s.meets o) = (a, s₁.meets fun k => o (k + 1))) : Paced m := by
  intro s o
  rcases h s with ⟨a, ha⟩ | ⟨a, s₁, ha⟩
  · exact ⟨0, by rw [Machine.calm, ha, ha]; rfl⟩
  · exact ⟨1, by rw [Machine.calm, ha _ rfl, ha _ rfl]; rfl⟩

theorem blockRead (block : Nat) (buffer : Buffer) : Paced (blockRead block buffer) := by
  refine transfer fun s => ?_
  by_cases hrange : s.layout.startBlock + block ≥ s.deviceBlockCount
  · exact .inl ⟨_, fun o => @blockRead_range (s.meets o) _ _ hrange⟩
  · exact .inr ⟨_, { s with buffers := s.buffers.set buffer (s.volume block) }, fun o =>
      @blockRead_none (s.meets o) _ _ hrange⟩

theorem blockWrite (block : Nat) (buffer : Buffer) : Paced (blockWrite block buffer) := by
  refine transfer fun s => ?_
  by_cases hrange : s.layout.startBlock + block ≥ s.deviceBlockCount
  · exact .inl ⟨_, fun o => @blockWrite_range (s.meets o) _ _ hrange⟩
  · exact .inr ⟨_, { s with
      volume := Function.update s.volume block (s.buffers.get buffer)
      history := Function.update s.volume block (s.buffers.get buffer) :: s.history }, fun o =>
        @blockWrite_none (s.meets o) _ _ hrange⟩

theorem readVolumeBlockInto (block : Nat) (buffer : Buffer) : Paced (readVolumeBlockInto block buffer) :=
  get (fun _ _ => rfl) fun _ => ite (pure _) (blockRead block buffer)

theorem readVolumeBlock (block : Nat) : Paced (readVolumeBlock block) := readVolumeBlockInto block .ioBlock

theorem writeVolumeBlockFrom (block : Nat) (buffer : Buffer) : Paced (writeVolumeBlockFrom block buffer) :=
  get (fun _ _ => rfl) fun _ => ite (pure _) (blockWrite block buffer)

/-! ## The functions before a rollback -/

theorem onlyIf [Decidable c] {step : Fs (Except Errno Unit)} (h : Paced step) : Paced (onlyIf c step) :=
  ite h (pure _)

theorem bitmapBitSet (start count bit : Nat) : Paced (bitmapBitSet start count bit) := by
  refine ite (pure _) (bindResult (readVolumeBlock _) (fun _ => pure _) fun _ => ?_)
  exact bind (getBuffer _) fun _ => pure _

theorem bitmapUpdate (start count bit : Nat) (value : Bool) : Paced (bitmapUpdate start count bit value) := by
  refine ite (pure _) (bindResult (readVolumeBlock _) (fun _ => pure _) fun _ => ?_)
  exact bind (getBuffer _) fun _ => bind (setBuffer _ _) fun _ => writeVolumeBlockFrom _ _

theorem allocateBitmapBitFrom (start count : Nat) (left : Nat) :
    ∀ bit loaded, Paced (allocateBitmapBitFrom start count left bit loaded) := by
  induction left with
  | zero => exact fun _ _ => pure _
  | succ left ih =>
    intro bit loaded
    refine ite (pure _) (bindResult (onlyIf (readVolumeBlock _)) (fun _ => pure _) fun _ => ?_)
    refine bind (getBuffer _) fun block => ite (bind (setBuffer _ _) fun _ => ?_) (ih _ _)
    exact bindResult (writeVolumeBlockFrom _ _) (fun _ => pure _) fun _ => pure _

theorem allocateBitmapBit (start count first limit : Nat) : Paced (allocateBitmapBit start count first limit) :=
  ite (pure _) (allocateBitmapBitFrom _ _ _ _ _)

theorem allocateInode : Paced allocateInode :=
  get (fun _ _ => rfl) fun _ => allocateBitmapBit _ _ _ _

theorem allocateBlock : Paced allocateBlock := by
  refine get (fun _ _ => rfl) fun s => bindResult (allocateBitmapBit _ _ _ _) (fun _ => pure _) fun block => ?_
  refine bind (setBuffer _ _) fun _ => bindResult (writeVolumeBlockFrom _ _) (fun _ => ?_) fun _ => pure _
  exact bind (bitmapUpdate _ _ _ _) fun _ => pure _

theorem readInodeInternal (number : Nat) : Paced (readInodeInternal number) := by
  refine get (fun _ _ => rfl) fun s => ite (pure _) (bind (bitmapBitSet _ _ _) fun used => ?_)
  refine ite (pure _) (ite (pure _) (bindResult (readVolumeBlock _) (fun _ => pure _) fun _ => ?_))
  refine bind (getBuffer _) fun block => ?_
  split
  · exact pure _
  · exact pure _

theorem dataBlockAllocated (block : Nat) : Paced (dataBlockAllocated block) :=
  get (fun _ _ => rfl) fun _ => ite (bitmapBitSet _ _ _) (pure _)

theorem inodeBlockAt (inode : Inode) (fileBlock : Nat) : Paced (inodeBlockAt inode fileBlock) := by
  refine ite (pure _) (ite ?_ ?_)
  · exact bind (dataBlockAllocated _) fun _ => ite (pure _) (pure _)
  · refine bind (dataBlockAllocated _) fun _ => ite (pure _) (ite (pure _) ?_)
    refine bindResult (readVolumeBlock _) (fun _ => pure _) fun _ => bind (getBuffer _) fun block => ?_
    exact bind (dataBlockAllocated _) fun _ => ite (pure _) (pure _)

theorem directoryFindEntries (component : List UInt8) (fileBlock count : Nat) :
    ∀ index, Paced (directoryFindEntries component fileBlock count index) := by
  induction count with
  | zero => exact fun _ => pure _
  | succ count ih =>
    intro index
    refine bind (getBuffer _) fun block => ite (ite (pure _) (ih _)) (get (fun _ _ => rfl) fun s => ?_)
    refine ite (pure _) (ite ?_ (ih _))
    exact bindResult (readInodeInternal _) (fun _ => pure _) fun inode => ite (pure _) (pure _)

theorem directoryFindBlocks (directory : Inode) (component : List UInt8) (fuel : Nat) :
    ∀ remaining fileBlock, Paced (directoryFindBlocks directory component fuel remaining fileBlock) := by
  induction fuel with
  | zero => exact fun _ _ => pure _
  | succ fuel ih =>
    intro remaining fileBlock
    refine ite (pure _) (bindResult (inodeBlockAt _ _) (fun _ => pure _) fun block => ?_)
    refine bindResult (readVolumeBlock _) (fun _ => pure _) fun _ => ?_
    refine bind (directoryFindEntries _ _ _ _) fun found => ?_
    cases found with
    | some result => exact pure _
    | none => exact ih _ _

theorem directoryFind (directory : Inode) (component : List UInt8) : Paced (directoryFind directory component) :=
  bind (ite (pure _) (directoryFindBlocks _ _ _ _ _)) fun _ => pure _

theorem resolveParentFrom (fuel : Nat) : ∀ rest current, Paced (resolveParentFrom fuel rest current) := by
  induction fuel with
  | zero => exact fun _ _ => pure _
  | succ fuel ih =>
    intro rest current
    refine ite (pure _) (ite (pure _) (ite (pure _) (ite (pure _) ?_)))
    refine bindResult (readInodeInternal _) (fun _ => pure _) fun directory => ite (pure _) ?_
    refine ite (ite (pure _) (pure _)) (ite (ih _ _) ?_)
    exact bindResult (directoryFind _ _) (fun _ => pure _) fun child => ih _ _

theorem resolveParentLocked (path : List UInt8) : Paced (resolveParentLocked path) := by
  refine get (fun _ _ => rfl) fun s => ?_
  dsimp only
  cases boundedPathLength path with
  | error e => exact pure _
  | ok pathLength => exact ite (pure _) (resolveParentFrom _ _ _)

end Paced

end MiniOrange

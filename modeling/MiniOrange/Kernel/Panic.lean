import MiniOrange.Logic.Wpe

/-!
# Panics

A function of the kernel changes a state and returns, or it stops the machine. The panics are told apart by their
texts.
-/

namespace MiniOrange

/-- The calls of `panic` in the memory management and in the building of a process. -/
inductive MemoryPanic where
  -- `mm/pmm.c`
  | invalidBootInfo
  | noUsablePages
  -- `proc/scheduler.c` and `proc/elf.c`
  | spawnSpaceRollback
  | spawnStackRollback
  | spawnPageRollback
  | stackWindow
  | elfWindow
  | elfCopyWindow
  | elfPageRollback
  -- `mm/heap.c`
  | heapMetadata
  | heapBounds
  | heapLinks
  | heapReverseLink
  | heapTail
  | heapPreviousLink
  | heapHeadLink
  | heapRejectedPage
  | heapRollback
  | heapNoFit
  | heapInitializedTwice
  | heapInitialRollback
  | heapInitialPage
  -- an access in the kernel to a page that is not mapped, where `exception_dispatch` panics
  | fault (address : Nat)
  -- a loop over the blocks of the heap that does not end
  | endless
  -- `mm/vmm.c` and `mm/address_space.c`
  | scratchBusy
  | emptyTableNotReleased
  | window
  | tlbRefresh
  | tableNotReleased
  | directoryRollback
  | tableRollback
  | emptyTableRollback
  | destroyTable
  | destroyPage
  | destroyTableRelease
  | destroyDirectory
  deriving DecidableEq, Repr

/-- The calls of `panic` and `panicf`. -/
inductive Panic where
  -- `arch/x86/exception.c`
  | pageFault (user : Bool) (address errorCode eip : Nat)
  | exception (vector errorCode eip : Nat)
  -- `proc/scheduler.c`
  | kernelSpaceNotActivated
  | processSpaceNotActivated
  | lastKernelThreadExited
  | zombieResumed
  | cwdNotTerminated
  | childNotReaped
  | threadPidRollback
  | memory (panic : MemoryPanic)
  deriving DecidableEq, Repr

/-- The text on the console. -/
def MemoryPanic.message : MemoryPanic → String
  | invalidBootInfo => "invalid Boot Info for PMM"
  | noUsablePages => "PMM has no usable pages"
  | spawnSpaceRollback => "ELF process address-space rollback failed"
  | spawnStackRollback => "ELF process kernel-stack rollback failed"
  | spawnPageRollback => "user process rollback found invalid page"
  | stackWindow => "user stack load window invariant failed"
  | elfWindow => "ELF load window invariant failed"
  | elfCopyWindow => "ELF copy window invariant failed"
  | elfPageRollback => "ELF page rollback failed"
  | heapMetadata => "heap metadata corrupted"
  | heapBounds => "heap block bounds corrupted"
  | heapLinks => "heap links corrupted"
  | heapReverseLink => "heap reverse link corrupted"
  | heapTail => "heap tail corrupted"
  | heapPreviousLink => "heap previous link corrupted"
  | heapHeadLink => "heap head link corrupted"
  | heapRejectedPage => "heap could not release rejected page"
  | heapRollback => "heap extension rollback failed"
  | heapNoFit => "heap growth produced no fitting block"
  | heapInitializedTwice => "heap initialized twice"
  | heapInitialRollback => "heap initial page rollback failed"
  | heapInitialPage => "heap initial page unavailable"
  | fault _ => "kernel page fault"
  | endless => ""
  | scratchBusy => "VMM scratch mapping is busy"
  | emptyTableNotReleased => "VMM could not release empty page table"
  | window => "address-space window invariant failed"
  | tlbRefresh => "address-space TLB refresh failed"
  | tableNotReleased => "address-space could not release empty page table"
  | directoryRollback => "address-space directory rollback failed"
  | tableRollback => "address-space page-table rollback failed"
  | emptyTableRollback => "address-space empty table rollback failed"
  | destroyTable => "address-space destroy could not map page table"
  | destroyPage => "address-space destroy found invalid user page"
  | destroyTableRelease => "address-space destroy found invalid page table"
  | destroyDirectory => "address-space destroy found invalid directory"

/-- The text on the console, without the numbers. -/
def Panic.message : Panic → String
  | pageFault user _ _ _ => if user then "user page fault" else "kernel page fault"
  | exception _ _ _ => "exception"
  | kernelSpaceNotActivated => "could not activate kernel address space"
  | processSpaceNotActivated => "could not activate process address space"
  | lastKernelThreadExited => "last kernel thread exited"
  | zombieResumed => "zombie kernel thread resumed"
  | cwdNotTerminated => "process cwd is not terminated"
  | childNotReaped => "waitpid could not reap child"
  | threadPidRollback => "kernel thread PID rollback failed"
  | memory panic => panic.message

/-- A function of the memory management, on a state of type `σ`. -/
abbrev Mem (σ : Type) := StateT σ (Except MemoryPanic)

/-- A function of the kernel, on a state of type `σ`. -/
abbrev Kern (σ : Type) := StateT σ (Except Panic)

/-- `if (!condition) panic(…)`. -/
def panicUnless {σ ε : Type} (condition : Prop) [Decidable condition] (panic : ε) : StateT σ (Except ε) Unit :=
  if condition then pure () else throw panic

@[simp] theorem wpe_panicUnless {σ ε : Type} {condition : Prop} [Decidable condition] {panic : ε}
    {Q : Unit → σ → Prop} {F : ε → Prop} {s : σ} :
    wpe (panicUnless condition panic) Q F s ↔ (condition → Q () s) ∧ (¬ condition → F panic) := by
  unfold panicUnless
  split
  · next h => simp [h]
  · next h => simp [h]

end MiniOrange

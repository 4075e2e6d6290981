import MiniOrange.Kernel.Panic
import MiniOrange.Vfs.Table

/-!
# The scheduler

`scheduler.c` keeps a table of 16 processes and switches between them with interrupts off, so that each of its functions
runs to the next `switch_to` without another in between. A process that is switched away from goes on behind its call
of `switch_to` when it is switched to again. Behind all of these calls but the one in the loop of `scheduler_waitpid` it
returns at once; so the model keeps, in place of the saved stack, what is left to do on it (`Resume`).

What the scheduler calls in other parts of the kernel is a parameter (`Services`), with a state of its own; the files of
a process are those of `vfs.c`.
-/

namespace MiniOrange

/-- `enum process_state`. -/
inductive ProcessState where
  | unused | new | ready | running | blocked | zombie | reaped
  deriving DecidableEq, Repr

/-- A process slot. -/
abbrev ProcessSlot := Fin 16

/-- What is left to do on the kernel stack of a process: return to the caller, or start, go round the loop of
`scheduler_waitpid`, or panic behind `scheduler_exit_current`. -/
inductive Resume where
  | returns
  | waitpid (pid : Int)
  | exited
  deriving DecidableEq, Repr

/-- `struct process`. The field `run_node` is not used, and what a kernel thread runs (`entry`, `argument`) is not looked at. -/
structure Process where
  pid : Nat
  state : ProcessState
  name : List UInt8
  savedStack : Resume
  kernelStackTop : Nat
  userStackTop : Nat
  pageDirectory : Nat
  exitCode : Int
  parentPid : Nat
  wakeTick : Nat
  timeSlice : Nat
  fdTable : FdTable
  currentWorkingDirectory : List UInt8
  waitNode : Option ProcessSlot
  kernelStackAllocation : Nat
  initialEflags : Nat
  userEntry : Nat

/-- `clear_process`. -/
def clearProcess : Process where
  pid := 0
  state := .unused
  name := []
  savedStack := .returns
  kernelStackTop := 0
  userStackTop := 0
  pageDirectory := 0
  exitCode := 0
  parentPid := 0
  wakeTick := 0
  timeSlice := 0
  fdTable := fun _ => none
  currentWorkingDirectory := [0x2F]
  waitNode := none
  kernelStackAllocation := 0
  initialEflags := 0
  userEntry := 0

/-- The arguments of `scheduler_spawn_image`; NULL is `none`. -/
structure SpawnRequest where
  name : Option (List UInt8)
  image : Option (List UInt8)
  argv : Option (List (List UInt8))

/-- What `scheduler_spawn_image` has made of an image when it asks for a pid. -/
structure Built where
  kernelStack : Nat
  pageDirectory : Nat
  stackTop : Nat
  entryPoint : Nat

/-- What the scheduler uses of the rest of the kernel, whose state has type `ρ`. -/
structure Services (ρ : Type) where
  /-- `vmm_activate_kernel_address_space` for 0, and `vmm_address_space_activate`. -/
  activate : Nat → Mem ρ Bool
  /-- `vmm_address_space_destroy`. -/
  destroy : Nat → Mem ρ Bool
  /-- `kmalloc`; NULL is 0. -/
  kmalloc : Nat → Mem ρ Nat
  /-- `kfree`. -/
  kfree : Nat → Mem ρ Bool
  /-- `scheduler_spawn_image` from `kmalloc` to the call of `allocate_pid`, with the rollback of what failed. -/
  build : List UInt8 → List (List UInt8) → Mem ρ (Except Errno Built)
  /-- The rollback of `scheduler_spawn_image` behind `allocate_pid`. -/
  discard : Built → Mem ρ Unit

/-- The static state of `scheduler.c`. -/
structure Processes where
  processTable : ProcessSlot → Process
  currentProcess : ProcessSlot
  nextPid : Nat

namespace Processes

/-- The running process. -/
def current (k : Processes) : Process := k.processTable k.currentProcess

/-- Change an entry of the process table. -/
def setProcess (k : Processes) (i : ProcessSlot) (p : Process) : Processes :=
  { k with processTable := Function.update k.processTable i p }

/-- Change the entry of the running process. -/
def setCurrent (k : Processes) (p : Process) : Processes := k.setProcess k.currentProcess p

/-- `find_unused_process`. -/
def findUnusedProcess (k : Processes) : Option ProcessSlot :=
  (List.finRange 16).tail.find? fun i => (k.processTable i).state = .unused

/-- `find_process_by_pid`. -/
def findProcessByPid (k : Processes) (pid : Nat) : Option ProcessSlot :=
  (List.finRange 16).find? fun i => (k.processTable i).state ≠ .unused ∧ (k.processTable i).pid = pid

/-- The search of `allocate_pid` from `candidate`, with `count` candidates left. -/
def allocatePidFrom (k : Processes) : Nat → Nat → Option Nat
  | 0, _ => none
  | count + 1, candidate =>
    if k.findProcessByPid candidate = none then some candidate else k.allocatePidFrom count (candidate + 1)

/-- `allocate_pid`: the pid, and `next_pid` after it. -/
def allocatePid (k : Processes) : Option (Nat × Nat) :=
  if k.nextPid ≠ 0 then some (k.nextPid, if k.nextPid = 0x7FFFFFFF then 0 else k.nextPid + 1)
  else (k.allocatePidFrom 0x7FFFFFFF 1).map fun pid => (pid, 0)

/-- `find_next_ready`. -/
def findNextReady (k : Processes) (after : ProcessSlot) : Option ProcessSlot :=
  ((List.range' 1 16).map fun offset => after + Fin.ofNat 16 offset).find? fun i =>
    (k.processTable i).state = .ready

/-- A round of `wake_waiting_parent`: what becomes of a process `parent` when `child` has exited. -/
def wakeIfWaiting (child : Process) (childSlot : ProcessSlot) (i : ProcessSlot) (parent : Process) : Process :=
  if parent.state = .blocked ∧ parent.pid = child.parentPid ∧
      (parent.waitNode = some childSlot ∨ parent.waitNode = some i) then
    { parent with waitNode := none, state := .ready }
  else parent

/-- `wake_waiting_parent`. -/
def wakeWaitingParent (k : Processes) (childSlot : ProcessSlot) : Processes :=
  { k with processTable := fun i => wakeIfWaiting (k.processTable childSlot) childSlot i (k.processTable i) }

/-- A child of the process at `parent` that `find_child` looks at. -/
def IsChild (k : Processes) (parent : ProcessSlot) (requestedPid : Int) (i : ProcessSlot) : Prop :=
  (k.processTable i).state ≠ .unused ∧ (k.processTable i).state ≠ .reaped ∧
    (k.processTable i).parentPid = (k.processTable parent).pid ∧
    (requestedPid = -1 ∨ ((k.processTable i).pid : Int) = requestedPid)

instance (k : Processes) (parent : ProcessSlot) (requestedPid : Int) (i : ProcessSlot) :
    Decidable (k.IsChild parent requestedPid i) := inferInstanceAs (Decidable (_ ∧ _ ∧ _ ∧ _))

/-- `find_child`. -/
def findChild (k : Processes) (parent : ProcessSlot) (requestedPid : Int) (zombieOnly : Bool) : Option ProcessSlot :=
  (List.finRange 16).tail.find? fun i =>
    k.IsChild parent requestedPid i ∧ (zombieOnly = true → (k.processTable i).state = .zombie)

/-- The sleepers whose time has come wake up: `(int32_t)(now - wake_tick) >= 0`. -/
def wakeIfDue (now : UInt32) (i : ProcessSlot) (p : Process) : Process :=
  if i ≠ 0 ∧ p.state = .blocked ∧ p.waitNode = none ∧ (now - UInt32.ofNat p.wakeTick).toNat < 2 ^ 31 then
    { p with wakeTick := 0, state := .ready }
  else p

/-- `scheduler_init`, with the address of the boot stack and the flags it is called with. -/
def schedulerInit (bootStackTop flags : Nat) : Processes where
  processTable := Function.update (fun _ => clearProcess) 0
    { clearProcess with
      state := .running
      name := [0x62, 0x6F, 0x6F, 0x74]
      kernelStackTop := bootStackTop
      timeSlice := 5
      initialEflags := flags }
  currentProcess := 0
  nextPid := 1

end Processes

/-- The state of the kernel: its processes, the clock, the open files, and the rest, which the scheduler does not
look into. -/
structure Kernel (ρ : Type) extends Processes where
  /-- `tick_count` of `pit.c`. -/
  tickCount : UInt32
  vfs : Vfs
  rest : ρ

namespace Kernel

variable {ρ : Type}

/-- The files of the running process. -/
def desk (k : Kernel ρ) : Desk := ⟨k.current.fdTable, k.vfs⟩

/-- Put the files of the running process back. -/
def setDesk (k : Kernel ρ) (d : Desk) : Kernel ρ :=
  { k with toProcesses := k.setCurrent { k.current with fdTable := d.fdTable }, vfs := d.vfs }

end Kernel

namespace Scheduler

variable {ρ : Type} (S : Services ρ)

/-- A call into the rest of the kernel. -/
def service {α : Type} (m : Mem ρ α) : Kern (Kernel ρ) α := fun k =>
  match m k.rest with
  | .ok (a, rest) => .ok (a, { k with rest := rest })
  | .error panic => .error (.memory panic)

/-- A change of the processes. -/
def update (f : Processes → Processes) : Kern (Kernel ρ) Unit := modify fun k => { k with toProcesses := f k.toProcesses }

/-- `switch_to`, called where `resume` is left to do. -/
def switchTo (next : ProcessSlot) (resume : Resume) : Kern (Kernel ρ) Unit := do
  let pageDirectory := ((← get).processTable next).pageDirectory
  if (← service (S.activate pageDirectory)) = false then
    throw (if pageDirectory = 0 then .kernelSpaceNotActivated else .processSpaceNotActivated)
  update fun k => k.setCurrent { k.current with savedStack := resume }
  update fun k => { k with currentProcess := next }
  update fun k => k.setCurrent { k.current with state := .running, timeSlice := 5 }

/-- `scheduler_exit_current`. -/
def exitCurrent (exitCode : Int) : Kern (Kernel ρ) Unit := do
  modify fun k => k.setDesk k.desk.vfsCloseAllCurrent
  update fun k => k.setCurrent { k.current with exitCode := exitCode, state := .zombie }
  update fun k => k.wakeWaitingParent k.currentProcess
  let k ← get
  match k.findNextReady k.currentProcess with
  | none => throw .lastKernelThreadExited
  | some next => switchTo S next .exited

/-- The process that `scheduler_spawn_image` enters in the table. -/
def spawned (k : Processes) (name : List UInt8) (built : Built) (pid : Nat) : Process :=
  { clearProcess with
    pid := pid
    state := .ready
    name := name.take 31
    kernelStackTop := built.kernelStack + 16384
    userStackTop := built.stackTop
    pageDirectory := built.pageDirectory
    parentPid := k.current.pid
    timeSlice := 5
    currentWorkingDirectory := k.current.currentWorkingDirectory
    kernelStackAllocation := built.kernelStack
    initialEflags := 0x200
    userEntry := built.entryPoint }

/-- `scheduler_spawn_image` once its arguments are known not to be NULL or empty. -/
def spawnChecked (name image : List UInt8) (argv : List (List UInt8)) : Kern (Kernel ρ) (Except Errno Nat) := do
  match (← get).findUnusedProcess with
  | none => return .error .eagain
  | some slot =>
    match ← service (S.build image argv) with
    | .error e => return .error e
    | .ok built =>
      match (← get).allocatePid with
      | none =>
        service (S.discard built)
        return .error .eagain
      | some (pid, nextPid) =>
        -- `inherit_current_working_directory` wants the terminator within the array
        panicUnless ((← get).current.currentWorkingDirectory.length < 256) .cwdNotTerminated
        update fun k => { k.setProcess slot (spawned k name built pid) with nextPid := nextPid }
        return .ok pid

/-- `scheduler_spawn_image`. -/
def spawnImage (request : SpawnRequest) : Kern (Kernel ρ) (Except Errno Nat) :=
  match request.name, request.image, request.argv with
  | some name, some image, some argv =>
    if name = [] ∨ image = [] ∨ argv = [] then return .error .einval else spawnChecked S name image argv
  | _, _, _ => return .error .einval

/-- The process that `kernel_thread_create` enters in the table. -/
def threaded (k : Processes) (name : List UInt8) (allocation pid flags : Nat) : Process :=
  { clearProcess with
    pid := pid
    state := .ready
    name := name.take 31
    kernelStackTop := allocation + 16384
    parentPid := k.current.pid
    timeSlice := 5
    currentWorkingDirectory := k.current.currentWorkingDirectory
    kernelStackAllocation := allocation
    initialEflags := flags &&& 0x200 }

/-- `kernel_thread_create` with an entry that is not NULL, called with the interrupt flags `flags`; -1 is `none`. -/
def kernelThreadCreate (name : List UInt8) (flags : Nat) : Kern (Kernel ρ) (Option Nat) := do
  if name = [] then return none
  match (← get).findUnusedProcess with
  | none => return none
  | some slot =>
    let allocation ← service (S.kmalloc 16384)
    if allocation = 0 then return none
    match (← get).allocatePid with
    | none =>
      panicUnless ((← service (S.kfree allocation)) = true) .threadPidRollback
      return none
    | some (pid, nextPid) =>
      panicUnless ((← get).current.currentWorkingDirectory.length < 256) .cwdNotTerminated
      update fun k => { k.setProcess slot (threaded k name allocation pid flags) with nextPid := nextPid }
      return some pid

/-- The release of the address space in `reap_process`. -/
def releaseSpace (i : ProcessSlot) : Kern (Kernel ρ) Bool := do
  let pageDirectory := ((← get).processTable i).pageDirectory
  if pageDirectory = 0 then return true
  if (← service (S.destroy pageDirectory)) = false then return false
  update fun k => k.setProcess i { k.processTable i with pageDirectory := 0 }
  return true

/-- `reap_process`. -/
def reapProcess (i : ProcessSlot) : Kern (Kernel ρ) Bool := do
  let k ← get
  if (k.processTable i).state ≠ .zombie ∨ i = k.currentProcess ∨ (k.processTable i).kernelStackAllocation = 0 then
    return false
  if (← releaseSpace S i) = false then return false
  if (← service (S.kfree (k.processTable i).kernelStackAllocation)) = false then return false
  update fun k => k.setProcess i clearProcess
  return true

/-- `scheduler_yield`. -/
def yield : Kern (Kernel ρ) Unit := do
  update fun k => k.setCurrent { k.current with state := .ready }
  let k ← get
  match k.findNextReady k.currentProcess with
  | none => update fun k => k.setCurrent { k.current with state := .running }
  | some next =>
    if next = k.currentProcess then update fun k => k.setCurrent { k.current with state := .running }
    else switchTo S next .returns

/-- `scheduler_sleep_current`: what it returns at once, or `none` if the process sleeps; then it returns true. -/
def sleepCurrent (ticks : Nat) : Kern (Kernel ρ) (Option Bool) := do
  if ticks = 0 then
    yield S
    return some true
  if ticks > 0x7FFFFFFF then return some false
  let k ← get
  match k.findNextReady k.currentProcess with
  | none => return some false
  | some next =>
    let wakeTick := (k.tickCount + UInt32.ofNat ticks).toNat
    update fun k => k.setCurrent { k.current with wakeTick := wakeTick, waitNode := none, state := .blocked }
    switchTo S next .returns
    return none

/-- A round of the loop of `scheduler_waitpid`: the pid and the exit code, or an error, or `none` if the process
waits. -/
def waitpidLoop (pid : Int) : Kern (Kernel ρ) (Option (Except Errno (Nat × Int))) := do
  let k ← get
  match k.findChild k.currentProcess pid true with
  | some child =>
    panicUnless ((← reapProcess S child) = true) .childNotReaped
    return some (.ok ((k.processTable child).pid, (k.processTable child).exitCode))
  | none =>
    match k.findChild k.currentProcess pid false with
    | none => return some (.error .echild)
    | some child =>
      let waitNode := if pid = -1 then k.currentProcess else child
      update fun k => k.setCurrent { k.current with state := .blocked, waitNode := some waitNode }
      match (← get).findNextReady k.currentProcess with
      | none =>
        update fun k => k.setCurrent { k.current with waitNode := none, state := .running }
        return some (.error .echild)
      | some next =>
        switchTo S next (.waitpid pid)
        return none

/-- `scheduler_waitpid`. -/
def waitpid (pid : Int) : Kern (Kernel ρ) (Option (Except Errno (Nat × Int))) :=
  if pid = 0 ∨ pid < -1 then return some (.error .einval) else waitpidLoop S pid

/-- The return of a process to the loop of `scheduler_waitpid`. -/
def resumeWaitpid (pid : Int) : Kern (Kernel ρ) (Option (Except Errno (Nat × Int))) := do
  update fun k => k.setCurrent { k.current with savedStack := .returns }
  waitpidLoop S pid

/-- The end of the time slice in `scheduler_on_tick`. -/
def endSlice : Kern (Kernel ρ) Unit := do
  update fun k => k.setCurrent { k.current with state := .ready }
  let k ← get
  match k.findNextReady k.currentProcess with
  | none => update fun k => k.setCurrent { k.current with state := .running, timeSlice := 5 }
  | some next =>
    if next = k.currentProcess then
      update fun k => k.setCurrent { k.current with state := .running, timeSlice := 5 }
    else switchTo S next .returns

/-- `scheduler_on_tick` behind the loop over the sleepers. -/
def chargeTick : Kern (Kernel ρ) Unit := do
  let k ← get
  if k.current.state ≠ .running then return ()
  else if k.current.timeSlice > 1 then
    update fun k => k.setCurrent { k.current with timeSlice := k.current.timeSlice - 1 }
  else endSlice S

/-- `pit_handle_irq` and `scheduler_on_tick`. -/
def onTick : Kern (Kernel ρ) Unit := do
  modify fun k => { k with tickCount := k.tickCount + 1 }
  let now := (← get).tickCount
  update fun k => { k with processTable := fun i => Processes.wakeIfDue now i (k.processTable i) }
  chargeTick S

/-- The fields of a trap frame that `exception_dispatch` reads, and `cr2`. -/
structure TrapFrame where
  vector : Nat
  errorCode : Nat
  eip : Nat
  cs : Nat
  cr2 : Nat

/-- `page_fault_is_user`. -/
def pageFaultIsUser (errorCode : Nat) : Bool := errorCode &&& 4 != 0

/-- `scheduler_user_page_fault`: false, or it exits. -/
def userPageFault (frame : TrapFrame) : Kern (Kernel ρ) Bool := do
  if (← get).current.pageDirectory = 0 ∨ frame.cs &&& 3 ≠ 3 then return false
  exitCurrent S (-14)
  return true

/-- `exception_dispatch`, with `scheduler_user_page_fault` as its handler. -/
def exceptionDispatch (frame : TrapFrame) : Kern (Kernel ρ) Unit :=
  if frame.vector ≠ 14 then throw (.exception frame.vector frame.errorCode frame.eip)
  else if pageFaultIsUser frame.errorCode = false then throw (.pageFault false frame.cr2 frame.errorCode frame.eip)
  else do
    if ← userPageFault S frame then return ()
    else throw (.pageFault true frame.cr2 frame.errorCode frame.eip)

end Scheduler

end MiniOrange

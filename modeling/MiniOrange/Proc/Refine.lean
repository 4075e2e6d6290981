import MiniOrange.Proc.Protocol

/-!
# The scheduler makes the moves of the protocol

Each function of `scheduler.c`, where it returns, has made a run of moves on the processes (`Processes.tasks`). The
panic of `scheduler_exit_current` is told apart from the others, which come from the memory management: it is made
only when no process is ready.
-/

namespace MiniOrange

open Tasks

/-- What the others see of a process. -/
def Process.task (p : Process) : Task := ⟨p.pid, p.state, p.exitCode, p.parentPid, p.waitNode, p.savedStack⟩

variable {next : ProcessSlot} {pid : Nat}

namespace Processes

/-- The processes as they see each other. -/
def tasks (k : Processes) : Tasks := ⟨fun i => (k.processTable i).task, k.currentProcess, k.nextPid⟩

@[simp] theorem tasks_task (k : Processes) (i : ProcessSlot) : k.tasks.task i = (k.processTable i).task := rfl

@[simp] theorem tasks_current (k : Processes) : k.tasks.current = k.currentProcess := rfl

theorem tasks_cur (k : Processes) : k.tasks.cur = k.current.task := rfl

theorem tasks_setProcess (k : Processes) (i : ProcessSlot) (p : Process) :
    (k.setProcess i p).tasks = k.tasks.set i p.task := by
  have htask : (fun j => (Function.update k.processTable i p j).task) = Function.update k.tasks.task i p.task := by
    funext j
    by_cases hj : j = i
    · rw [hj, Function.update_self, Function.update_self]
    · rw [Function.update_of_ne hj, Function.update_of_ne hj]
      rfl
  exact congrArg (fun t => Tasks.mk t k.currentProcess k.nextPid) htask

theorem tasks_setCurrent (k : Processes) (p : Process) :
    (k.setCurrent p).tasks = k.tasks.set k.currentProcess p.task := k.tasks_setProcess _ p

theorem tasks_setProcess_nextPid (k : Processes) (i : ProcessSlot) (p : Process) (n : Nat) :
    tasks { k.setProcess i p with nextPid := n } = { k.tasks.set i p.task with nextPid := n } :=
  congrArg (fun a => Tasks.mk a.task a.current n) (k.tasks_setProcess i p)

/-- A change that the others do not see. -/
theorem tasks_setCurrent_same (k : Processes) (p : Process) (h : p.task = k.current.task) :
    (k.setCurrent p).tasks = k.tasks := by
  rw [tasks_setCurrent, h]
  exact congrArg (fun t => Tasks.mk t k.currentProcess k.nextPid) (Function.update_eq_self _ _)

@[simp] theorem setCurrent_currentProcess (k : Processes) (p : Process) :
    (k.setCurrent p).currentProcess = k.currentProcess := rfl

@[simp] theorem setCurrent_current (k : Processes) (p : Process) : (k.setCurrent p).current = p :=
  Function.update_self ..

@[simp] theorem setCurrent_self (k : Processes) (p : Process) : (k.setCurrent p).processTable k.currentProcess = p :=
  Function.update_self ..

variable {i : ProcessSlot} {k : Processes} {zombieOnly : Bool}

theorem setCurrent_of_ne (k : Processes) (p : Process) (hi : i ≠ k.currentProcess) :
    (k.setCurrent p).processTable i = k.processTable i := Function.update_of_ne hi ..

/-- The processes after `switch_to`. -/
def switched (k : Processes) (next : ProcessSlot) (resume : Resume) : Processes :=
  let k := { k.setCurrent { k.current with savedStack := resume } with currentProcess := next }
  k.setCurrent { k.current with state := .running, timeSlice := 5 }

theorem tasks_switched (k : Processes) (resume : Resume) (h : next ≠ k.currentProcess) :
    (k.switched next resume).tasks = k.tasks.switch { k.tasks.cur with resume := resume } next := by
  obtain ⟨k₁, hk₁⟩ : ∃ k₁ : Processes,
    k₁ = { k.setCurrent { k.current with savedStack := resume } with currentProcess := next } := ⟨_, rfl⟩
  have hcurrent : k₁.current = k.processTable next := by
    rw [hk₁]
    exact Function.update_of_ne h ..
  have htasks : k₁.tasks =
      { k.tasks.set k.currentProcess { k.tasks.cur with resume := resume } with current := next } := by
    rw [hk₁]
    exact congrArg (fun a => Tasks.mk a.task next k.nextPid) (k.tasks_setCurrent { k.current with savedStack := resume })
  have hswitched : k.switched next resume = k₁.setCurrent { k₁.current with state := .running, timeSlice := 5 } := by
    rw [hk₁]
    rfl
  rw [hswitched, tasks_setCurrent, hcurrent, htasks, hk₁]
  rfl

/-- A change of the running process and a switch. -/
theorem tasks_setCurrent_switched (k : Processes) (p : Process) (resume : Resume) (h : next ≠ k.currentProcess) :
    ((k.setCurrent p).switched next resume).tasks = k.tasks.switch { p.task with resume := resume } next := by
  rw [(k.setCurrent p).tasks_switched resume h, tasks_cur, setCurrent_current, tasks_setCurrent]
  exact set_switch _ _ _ h

/-! ### The searches -/

theorem mem_tail_finRange (i : ProcessSlot) : i ∈ (List.finRange 16).tail ↔ i ≠ 0 := by
  revert i
  decide

theorem findUnusedProcess_some (h : k.findUnusedProcess = some i) :
    i ≠ 0 ∧ (k.processTable i).state = .unused :=
  ⟨(mem_tail_finRange i).1 (List.mem_of_find?_eq_some h), by simpa using List.find?_some h⟩

theorem findProcessByPid_none (h : k.findProcessByPid pid = none) (i : ProcessSlot)
    (hi : (k.processTable i).state ≠ .unused) : (k.processTable i).pid ≠ pid := by
  have hnot := List.find?_eq_none.1 h i (List.mem_finRange i)
  simpa [hi] using hnot

theorem allocatePidFrom_some {count candidate : Nat}
    (h : k.allocatePidFrom count candidate = some pid) : candidate ≤ pid ∧ k.findProcessByPid pid = none := by
  induction count generalizing candidate with
  | zero => cases h
  | succ count ih =>
    unfold allocatePidFrom at h
    split at h
    · next hnone =>
      rw [← Option.some.inj h]
      exact ⟨le_rfl, hnone⟩
    · exact ⟨(Nat.le_succ _).trans (ih h).1, (ih h).2⟩

theorem allocatePid_some {nextPid : Nat} (h : k.allocatePid = some (pid, nextPid)) :
    k.tasks.Fresh pid nextPid := by
  unfold allocatePid at h
  split at h
  · next hne =>
    obtain ⟨rfl, rfl⟩ := Prod.mk.inj (Option.some.inj h)
    exact .new hne
  · next hzero =>
    obtain ⟨p, hp, heq⟩ := Option.map_eq_some_iff.1 h
    obtain ⟨rfl, rfl⟩ := Prod.mk.inj heq
    obtain ⟨hle, hnone⟩ := allocatePidFrom_some hp
    exact .recycled (not_not.1 hzero) (Nat.ne_of_gt hle) fun i hi => findProcessByPid_none hnone i hi

theorem findNextReady_some {after : ProcessSlot} (h : k.findNextReady after = some i) :
    (k.processTable i).state = .ready := by simpa using List.find?_some h

/-- The search goes over the whole table. -/
theorem findNextReady_none {after : ProcessSlot} (h : k.findNextReady after = none) (i : ProcessSlot) :
    (k.processTable i).state ≠ .ready := by
  have hall : ∀ after i : ProcessSlot, i ∈ (List.range' 1 16).map fun offset => after + Fin.ofNat 16 offset := by decide
  simpa using List.find?_eq_none.1 h i (hall after i)

theorem tasks_child {parent : ProcessSlot} {pid : Int} :
    k.tasks.Child parent pid i ↔ i ≠ 0 ∧ k.IsChild parent pid i := Iff.rfl

theorem findChild_some {parent : ProcessSlot} {pid : Int} (h : k.findChild parent pid zombieOnly = some i) :
    k.tasks.Child parent pid i ∧ (zombieOnly = true → (k.processTable i).state = .zombie) := by
  have hi : k.IsChild parent pid i ∧ (zombieOnly = true → (k.processTable i).state = .zombie) := by
    have hfound := List.find?_some h
    exact of_decide_eq_true hfound
  exact ⟨tasks_child.2 ⟨(mem_tail_finRange i).1 (List.mem_of_find?_eq_some h), hi.1⟩, hi.2⟩

theorem findChild_none {parent : ProcessSlot} {pid : Int}
    (h : k.findChild parent pid zombieOnly = none) (hi : k.tasks.Child parent pid i) :
    zombieOnly = true ∧ (k.processTable i).state ≠ .zombie := by
  have hnot := List.find?_eq_none.1 h i ((mem_tail_finRange i).2 hi.1)
  simpa [(tasks_child.1 hi).2] using hnot

/-! ### Leaving the running process ready -/

/-- Moves that are not seen. -/
def Quiet (a b : Tasks) : Prop := ∃ ls, Run Move a ls b ∧ ∀ l ∈ ls, l = .quiet

theorem Quiet.refl (a : Tasks) : Quiet a a := ⟨[], .nil, nofun⟩

theorem Quiet.of_eq {a b : Tasks} (h : b = a) : Quiet a b := h ▸ .refl a

theorem Quiet.single {a b : Tasks} (h : Move a .quiet b) : Quiet a b := ⟨_, .single h, by simp⟩

theorem Quiet.trans {a b c : Tasks} (h : Quiet a b) (h' : Quiet b c) : Quiet a c := by
  obtain ⟨ls, hrun, hls⟩ := h
  obtain ⟨ls', hrun', hls'⟩ := h'
  exact ⟨_, hrun.trans hrun', List.forall_mem_append.2 ⟨hls, hls'⟩⟩

/-- Of two changes of the running process the others see the last. -/
theorem tasks_setCurrent_setCurrent (k : Processes) (p : Process) (f : Process → Process) :
    ((k.setCurrent p).setCurrent (f (k.setCurrent p).current)).tasks = k.tasks.set k.currentProcess (f p).task := by
  rw [tasks_setCurrent, tasks_setCurrent, setCurrent_current]
  exact congrArg (fun t => Tasks.mk t k.currentProcess k.nextPid) (Function.update_idem ..)

/-- The running process is made ready and then found to be the one that goes on. -/
theorem quiet_stay (k : Processes) (f : Process → Process) (hrun : k.current.state = .running)
    (hf : ∀ p, (f p).task = { p.task with state := .running }) :
    Quiet k.tasks ((k.setCurrent { k.current with state := .ready }).setCurrent
      (f (k.setCurrent { k.current with state := .ready }).current)).tasks := by
  refine .of_eq ?_
  rw [tasks_setCurrent_setCurrent, hf, ← hrun]
  exact congrArg (fun t => Tasks.mk t k.currentProcess k.nextPid) (Function.update_eq_self ..)

/-- The running process is made ready, and another goes on. -/
theorem quiet_switched (k : Processes)
    (hnext : ((k.setCurrent { k.current with state := .ready }).processTable next).state = .ready)
    (hne : next ≠ k.currentProcess) :
    Quiet k.tasks ((k.setCurrent { k.current with state := .ready }).switched next .returns).tasks := by
  rw [setCurrent_of_ne _ _ hne] at hnext
  rw [tasks_setCurrent_switched _ _ _ hne]
  exact .single (.preempt hnext)

/-- Sleepers wake up. -/
theorem quiet_roused (k : Processes) (now : UInt32) :
    Quiet k.tasks (tasks { k with processTable := fun i => wakeIfDue now i (k.processTable i) }) := by
  have hmove := Move.rouse (a := k.tasks) (W := fun i => i ≠ 0 ∧ (k.processTable i).state = .blocked ∧
      (k.processTable i).waitNode = none ∧ (now - UInt32.ofNat (k.processTable i).wakeTick).toNat < 2 ^ 31)
    fun i hi => ⟨hi.1, hi.2.1, hi.2.2.1⟩
  have htask : ∀ i, (wakeIfDue now i (k.processTable i)).task = if i ≠ 0 ∧ (k.processTable i).state = .blocked ∧
      (k.processTable i).waitNode = none ∧ (now - UInt32.ofNat (k.processTable i).wakeTick).toNat < 2 ^ 31 then
      { k.tasks.task i with state := .ready } else k.tasks.task i := fun i => by
    unfold wakeIfDue
    split
    · rfl
    · rfl
  have htasks : tasks { k with processTable := fun i => wakeIfDue now i (k.processTable i) } = _ :=
    congrArg (fun t => Tasks.mk t k.currentProcess k.nextPid) (funext htask)
  rw [htasks]
  exact .single hmove

/-- The running process is made to wait, and then no other can go on. -/
theorem quiet_refused (k : Processes) (n : ProcessSlot) (hrun : k.current.state = .running)
    (hreturns : k.current.savedStack = .returns) :
    Quiet k.tasks ((k.setCurrent { k.current with state := .blocked, waitNode := some n }).setCurrent
      { (k.setCurrent { k.current with state := .blocked, waitNode := some n }).current with
        waitNode := none, state := .running }).tasks := by
  have htask : ({ k.current with state := .running, waitNode := none } : Process).task =
      { k.tasks.cur with waitNode := none, resume := .returns } := by
    show Task.mk _ _ _ _ _ _ = Task.mk _ k.current.state _ _ _ _
    rw [hrun, hreturns]
    rfl
  rw [k.tasks_setCurrent_setCurrent _ fun p => { p with waitNode := none, state := .running }]
  exact .single (htask ▸ .resume)

/-! ### Exits -/

/-- The processes after an exit, before the switch. -/
def exiting (k : Processes) (code : Int) : Processes :=
  (k.setCurrent { k.current with exitCode := code, state := .zombie }).wakeWaitingParent k.currentProcess

theorem wakeIfWaiting_of_ne {parent : Process} (child : Process) (childSlot i : ProcessSlot)
    (h : parent.state ≠ .blocked) : wakeIfWaiting child childSlot i parent = parent := if_neg fun hwaits => h hwaits.1

/-- Whom an exit wakes depends on the parent's pid only. -/
theorem wakeIfWaiting_congr {child child' : Process} (h : child'.parentPid = child.parentPid) (childSlot i : ProcessSlot)
    (parent : Process) : wakeIfWaiting child' childSlot i parent = wakeIfWaiting child childSlot i parent := by
  unfold wakeIfWaiting
  rw [h]

theorem exiting_processTable_of_ne (k : Processes) (code : Int) (hi : i ≠ k.currentProcess) :
    (k.exiting code).processTable i = wakeIfWaiting k.current k.currentProcess i (k.processTable i) := by
  show wakeIfWaiting ((k.setCurrent _).processTable k.currentProcess) _ _ ((k.setCurrent _).processTable i) = _
  rw [setCurrent_self, setCurrent_of_ne _ _ hi]
  exact wakeIfWaiting_congr rfl _ _ _

theorem exiting_current (k : Processes) (code : Int) :
    (k.exiting code).current = { k.current with exitCode := code, state := .zombie } := by
  show wakeIfWaiting _ _ _ ((k.setCurrent _).processTable k.currentProcess) = _
  rw [wakeIfWaiting_of_ne]
  · exact setCurrent_self ..
  · rw [setCurrent_self]
    nofun

theorem wakeIfWaiting_task (child parent : Process) (childSlot i : ProcessSlot) :
    (wakeIfWaiting child childSlot i parent).task =
      if parent.state = .blocked ∧ parent.pid = child.parentPid ∧
        (parent.waitNode = some childSlot ∨ parent.waitNode = some i) then
        { parent.task with waitNode := none, state := .ready }
      else parent.task := by
  unfold wakeIfWaiting
  split
  · rfl
  · rfl

theorem exiting_task_of_ne (k : Processes) (code : Int) (hi : i ≠ k.currentProcess) :
    (k.exiting code).tasks.task i = (k.tasks.exited code).task i := by
  rw [tasks_task, exiting_processTable_of_ne k code hi, exited_task, if_neg (by exact hi), wakeIfWaiting_task]
  rfl

/-- An exit and the switch behind it are the move. -/
theorem tasks_exiting_switched (k : Processes) (code : Int)
    (hnext : ((k.exiting code).processTable next).state = .ready) :
    Move k.tasks (.exit ⟨k.current.pid, k.current.parentPid, code⟩) ((k.exiting code).switched next .exited).tasks := by
  have hcur := k.exiting_current code
  have hne : next ≠ k.currentProcess := fun heq => by
    rw [heq, show (k.exiting code).processTable k.currentProcess = _ from hcur] at hnext
    cases hnext
  have hready : ((k.tasks.exited code).task next).state = .ready := by
    rw [← exiting_task_of_ne k code hne]
    exact hnext
  have heq : ((k.exiting code).switched next .exited).tasks =
      (k.tasks.exited code).switch ((k.tasks.exited code).task k.tasks.current) next := by
    rw [(k.exiting code).tasks_switched _ hne, tasks_cur, hcur]
    refine congrArg (fun t => Tasks.mk t next k.nextPid) (funext fun i => ?_)
    show (Tasks.switch _ _ _).task i = (Tasks.switch _ _ _).task i
    rw [switch_task, switch_task]
    split
    · rw [exiting_task_of_ne k code hne]
    · split
      · next hi =>
        rw [if_pos (by exact hi), exited_task, if_pos rfl]
        rfl
      · next hi =>
        rw [if_neg (by exact hi)]
        exact exiting_task_of_ne k code hi
  rw [heq]
  exact .exit hready

end Processes

namespace Kernel

variable {ρ : Type}

/-- The files of the running process are not seen by the others. -/
@[simp] theorem tasks_setDesk (k : Kernel ρ) (d : Desk) : (k.setDesk d).tasks = k.tasks :=
  k.tasks_setCurrent_same _ rfl

/-- The kernel at the end of `scheduler_exit_current`, before the switch. -/
def exiting (k : Kernel ρ) (code : Int) : Kernel ρ :=
  let k := k.setDesk k.desk.vfsCloseAllCurrent
  { k with toProcesses := k.toProcesses.exiting code }

end Kernel

namespace Scheduler

open Processes

variable {ρ α : Type} (S : Services ρ) {k : Kernel ρ}

variable {Q : Unit → Kernel ρ → Prop} {F : Panic → Prop} {resume : Resume}

@[simp] theorem wpe_service {m : Mem ρ α} {Q : α → Kernel ρ → Prop} :
    wpe (service m) Q F k ↔ wpe m (fun a rest => Q a { k with rest := rest }) (fun p => F (.memory p)) k.rest := by
  unfold wpe service
  cases m k.rest with
  | error e => exact Iff.rfl
  | ok p => exact Iff.rfl

@[simp] theorem wpe_update {f : Processes → Processes} :
    wpe (update f) Q F k ↔ Q () { k with toProcesses := f k.toProcesses } := Iff.rfl

/-- `switch_to` activates the address space and switches, or panics. -/
theorem wpe_switchTo :
    wpe (switchTo S next resume) Q F k ↔
      wpe (S.activate (k.processTable next).pageDirectory)
        (fun ok rest =>
          if ok = true then Q () { k with toProcesses := k.switched next resume, rest := rest }
          else F (if (k.processTable next).pageDirectory = 0 then .kernelSpaceNotActivated else .processSpaceNotActivated))
        (fun p => F (.memory p)) k.rest := by
  unfold switchTo
  rw [wpe_bind, wpe_get, wpe_bind, wpe_service]
  unfold wpe
  cases S.activate (k.processTable next).pageDirectory k.rest with
  | error e => exact Iff.rfl
  | ok p =>
    obtain ⟨ok, rest⟩ := p
    cases ok with
    | false => exact Iff.rfl
    | true => exact Iff.rfl

/-- `switch_to`, for what does not depend on the address spaces. -/
theorem switchTo_moves (hQ : ∀ rest, Q () { k with toProcesses := k.switched next resume, rest := rest })
    (hF : ∀ e, e ≠ .lastKernelThreadExited → F e) : wpe (switchTo S next resume) Q F k := by
  rw [wpe_switchTo]
  refine wpe.of_forall _ (fun ok rest => ?_) fun p => hF _ nofun
  split
  · exact hQ rest
  · split
    · exact hF _ nofun
    · exact hF _ nofun

theorem wpe_exitCurrent {code : Int} :
    wpe (exitCurrent S code) Q F k ↔
      match (k.exiting code).findNextReady k.currentProcess with
      | none => F .lastKernelThreadExited
      | some next => wpe (switchTo S next .exited) Q F (k.exiting code) := by
  unfold exitCurrent
  rw [wpe_bind, wpe_modify, wpe_bind, wpe_update, wpe_bind, wpe_update, wpe_bind, wpe_get]
  show wpe (match (k.exiting code).findNextReady k.currentProcess with
    | none => throw .lastKernelThreadExited
    | some next => switchTo S next .exited) Q F (k.exiting code) ↔ _
  cases (k.exiting code).findNextReady k.currentProcess with
  | none => exact Iff.rfl
  | some next => exact Iff.rfl

/-- `scheduler_exit_current`. -/
theorem exitCurrent_moves (code : Int) :
    wpe (exitCurrent S code)
      (fun _ k' => Move k.tasks (.exit ⟨k.current.pid, k.current.parentPid, code⟩) k'.tasks)
      (fun e => e = .lastKernelThreadExited → ∀ i, i ≠ k.currentProcess → (k.processTable i).state ≠ .ready) k := by
  rw [wpe_exitCurrent]
  have htasks : (k.setDesk k.desk.vfsCloseAllCurrent).tasks = k.tasks := k.tasks_setDesk _
  have hrecord : ∀ d : Desk, ((k.setDesk d).current.pid = k.current.pid) ∧
      (k.setDesk d).current.parentPid = k.current.parentPid := fun d => by
    have hcur : (k.setDesk d).current = { k.current with fdTable := d.fdTable } := Function.update_self ..
    rw [hcur]
    exact ⟨rfl, rfl⟩
  split
  · next hnone =>
    intro _ i hi hready
    refine findNextReady_none hnone i ?_
    have hother : (k.setDesk k.desk.vfsCloseAllCurrent).processTable i = k.processTable i := setCurrent_of_ne _ _ hi
    rw [show (k.exiting code).processTable i = _ from exiting_processTable_of_ne _ code hi, hother,
      wakeIfWaiting_of_ne _ _ _ (by simp [hready]), hready]
  · next next hsome =>
    refine switchTo_moves S (fun rest => ?_) fun e he heq => absurd heq he
    have hmove := tasks_exiting_switched (k.setDesk k.desk.vfsCloseAllCurrent).toProcesses code (findNextReady_some hsome)
    rw [htasks, (hrecord _).1, (hrecord _).2] at hmove
    exact hmove

/-- `scheduler_spawn_image` enters a process in a slot that is not used, or fails and leaves the processes alone. -/
theorem spawnImage_spec {request : SpawnRequest} {Q : Except Errno Nat → Kernel ρ → Prop}
    (herror : ∀ e rest, Q (.error e) { k with rest := rest })
    (hok : ∀ slot name built pid nextPid rest, k.findUnusedProcess = some slot → k.allocatePid = some (pid, nextPid) →
      Q (.ok pid) { k with
        toProcesses := { k.setProcess slot (spawned k.toProcesses name built pid) with nextPid := nextPid }, rest := rest })
    (hF : ∀ e, e ≠ .lastKernelThreadExited → F e) : wpe (spawnImage S request) Q F k := by
  unfold spawnImage
  split
  · split
    · exact herror _ k.rest
    · unfold spawnChecked
      rw [wpe_bind, wpe_get]
      split
      · exact herror _ k.rest
      · next slot hslot =>
        rw [wpe_bind, wpe_service]
        refine wpe.of_forall _ (fun built rest => ?_) fun p => hF _ (by simp)
        cases built with
        | error e => exact herror e rest
        | ok built =>
          simp only [wpe_bind, wpe_get]
          split
          · rw [wpe_bind, wpe_service]
            exact wpe.of_forall _ (fun _ rest => herror _ rest) fun p => hF _ (by simp)
          · next pid nextPid hpid =>
            simp only [wpe_bind, wpe_get, wpe_panicUnless, wpe_update]
            exact ⟨fun _ => hok slot _ built pid nextPid rest hslot hpid, fun _ => hF _ (by simp)⟩
  · exact herror _ k.rest

/-- The same of `kernel_thread_create`. -/
theorem kernelThreadCreate_spec {name : List UInt8} {flags : Nat} {Q : Option Nat → Kernel ρ → Prop}
    (hnone : ∀ rest, Q none { k with rest := rest })
    (hok : ∀ slot allocation pid nextPid rest, k.findUnusedProcess = some slot → k.allocatePid = some (pid, nextPid) →
      Q (some pid) { k with
        toProcesses := { k.setProcess slot (threaded k.toProcesses name allocation pid flags) with nextPid := nextPid }
        rest := rest })
    (hF : ∀ e, e ≠ .lastKernelThreadExited → F e) : wpe (kernelThreadCreate S name flags) Q F k := by
  unfold kernelThreadCreate
  split
  · exact hnone k.rest
  · rw [wpe_bind, wpe_get]
    split
    · exact hnone k.rest
    · next slot hslot =>
      rw [wpe_bind, wpe_service]
      refine wpe.of_forall _ (fun allocation rest => ?_) fun p => hF _ (by simp)
      split
      · exact hnone rest
      · simp only [wpe_bind, wpe_get]
        split
        · simp only [wpe_bind, wpe_service, wpe_panicUnless]
          exact wpe.of_forall _ (fun ok rest => ⟨fun _ => hnone rest, fun _ => hF _ (by simp)⟩) fun p => hF _ (by simp)
        · next pid nextPid hpid =>
          simp only [wpe_bind, wpe_get, wpe_panicUnless, wpe_update]
          exact ⟨fun _ => hok slot allocation pid nextPid rest hslot hpid, fun _ => hF _ (by simp)⟩

/-- A new process is the move. -/
theorem tasks_spawned {slot : ProcessSlot} {p : Process} {nextPid : Nat} (hslot : k.findUnusedProcess = some slot)
    (hpid : k.allocatePid = some (pid, nextPid)) (hp : p.task = ⟨pid, .ready, 0, k.current.pid, none, .returns⟩) :
    Move k.tasks .spawn (tasks { k.setProcess slot p with nextPid := nextPid }) := by
  obtain ⟨hzero, hunused⟩ := findUnusedProcess_some hslot
  rw [tasks_setProcess_nextPid, hp]
  exact .spawn hzero hunused (allocatePid_some hpid)

/-- `scheduler_spawn_image` makes a process, or leaves the processes as they are. -/
theorem spawnImage_moves (request : SpawnRequest) :
    wpe (spawnImage S request)
      (fun r k' => (∃ pid, r = .ok pid ∧ Move k.tasks .spawn k'.tasks) ∨ ∃ e, r = .error e ∧ k'.tasks = k.tasks)
      (· ≠ .lastKernelThreadExited) k :=
  spawnImage_spec S (fun e _ => .inr ⟨e, rfl, rfl⟩)
    (fun _ _ _ pid _ _ hslot hpid => .inl ⟨pid, rfl, tasks_spawned hslot hpid rfl⟩) fun _ => id

/-- `kernel_thread_create` makes a process, or leaves the processes as they are. -/
theorem kernelThreadCreate_moves (name : List UInt8) (flags : Nat) :
    wpe (kernelThreadCreate S name flags)
      (fun r k' => (∃ pid, r = some pid ∧ Move k.tasks .spawn k'.tasks) ∨ r = none ∧ k'.tasks = k.tasks)
      (· ≠ .lastKernelThreadExited) k :=
  kernelThreadCreate_spec S (fun _ => .inr ⟨rfl, rfl⟩)
    (fun _ _ pid _ _ hslot hpid => .inl ⟨pid, rfl, tasks_spawned hslot hpid rfl⟩) fun _ => id

/-- The release of an address space is not seen by the others. -/
theorem releaseSpace_tasks (i : ProcessSlot) :
    wpe (releaseSpace S i) (fun _ k' => k'.tasks = k.tasks) (· ≠ .lastKernelThreadExited) k := by
  unfold releaseSpace
  rw [wpe_bind, wpe_get]
  dsimp only
  split
  · rfl
  · rw [wpe_bind, wpe_service]
    refine wpe.of_forall _ (fun ok rest => ?_) fun p => nofun
    split
    · rfl
    · rw [wpe_bind, wpe_update, wpe_pure]
      show tasks _ = _
      rw [tasks_setProcess]
      exact congrArg (fun t => Tasks.mk t k.currentProcess k.nextPid) (Function.update_eq_self _ _)

/-- `reap_process` empties a slot. -/
theorem reapProcess_tasks (i : ProcessSlot) :
    wpe (reapProcess S i) (fun ok k' => ok = true → i ≠ k.currentProcess ∧ k'.tasks = k.tasks.set i emptyTask)
      (· ≠ .lastKernelThreadExited) k := by
  unfold reapProcess
  rw [wpe_bind, wpe_get]
  split
  · exact nofun
  · next hnot =>
    refine (releaseSpace_tasks S i).bind fun ok k₁ htasks => ?_
    split
    · exact nofun
    · rw [wpe_bind, wpe_service]
      refine wpe.of_forall _ (fun ok rest => ?_) fun p => nofun
      split
      · exact nofun
      · rw [wpe_bind, wpe_update, wpe_pure]
        refine fun _ => ⟨fun heq => hnot (.inr (.inl heq)), ?_⟩
        show tasks _ = _
        rw [tasks_setProcess, htasks]
        rfl

/-- `scheduler_yield`. -/
theorem yield_quiet (hrun : k.current.state = .running) :
    wpe (yield S) (fun _ k' => Quiet k.tasks k'.tasks) (· ≠ .lastKernelThreadExited) k := by
  unfold yield
  rw [wpe_bind, wpe_update, wpe_bind, wpe_get]
  split
  · exact k.quiet_stay (fun p => { p with state := .running }) hrun fun _ => rfl
  · next next hnext =>
    split
    · exact k.quiet_stay (fun p => { p with state := .running }) hrun fun _ => rfl
    · next hne => exact switchTo_moves S (fun _ => k.quiet_switched (findNextReady_some hnext) hne) fun _ => id

/-- The end of the time slice. -/
theorem endSlice_quiet (hrun : k.current.state = .running) :
    wpe (endSlice S) (fun _ k' => Quiet k.tasks k'.tasks) (· ≠ .lastKernelThreadExited) k := by
  unfold endSlice
  rw [wpe_bind, wpe_update, wpe_bind, wpe_get]
  split
  · exact k.quiet_stay (fun p => { p with state := .running, timeSlice := 5 }) hrun fun _ => rfl
  · next next hnext =>
    split
    · exact k.quiet_stay (fun p => { p with state := .running, timeSlice := 5 }) hrun fun _ => rfl
    · next hne => exact switchTo_moves S (fun _ => k.quiet_switched (findNextReady_some hnext) hne) fun _ => id

/-- `scheduler_sleep_current` fails if there are too many ticks or no process is ready. -/
theorem sleepCurrent_moves (hrun : k.current.state = .running) (ticks : Nat) :
    wpe (sleepCurrent S ticks)
      (fun r k' => (Quiet k.tasks k'.tasks ∨ Move k.tasks .block k'.tasks) ∧
        (r = some false → ticks > 0x7FFFFFFF ∨ ∀ i, (k.processTable i).state ≠ .ready))
      (· ≠ .lastKernelThreadExited) k := by
  unfold sleepCurrent
  split
  · exact (yield_quiet S hrun).bind fun _ _ hquiet => ⟨.inl hquiet, nofun⟩
  · split
    · next hticks => exact ⟨.inl (.refl _), fun _ => .inl hticks⟩
    · rw [wpe_bind, wpe_get]
      split
      · next hnone => exact ⟨.inl (.refl _), fun _ => .inr (findNextReady_none hnone)⟩
      · next next hnext =>
        have hready := findNextReady_some hnext
        have hne : next ≠ k.currentProcess := fun heq => by
          rw [heq, show (k.processTable k.currentProcess).state = .running from hrun] at hready
          cases hready
        rw [wpe_bind, wpe_update, wpe_bind]
        refine switchTo_moves S (fun rest => ⟨.inr ?_, nofun⟩) fun _ => id
        rw [tasks_setCurrent_switched _ _ _ hne]
        exact .sleep hready

/-- What a round of the loop of `scheduler_waitpid` with this result has done. -/
def Waited (k k' : Processes) (pid : Int) : Option (Except Errno (Nat × Int)) → Prop
  | none => Move k.tasks .block k'.tasks
  | some (.error _) => Quiet k.tasks k'.tasks ∧
    ((∀ i, ¬ k.tasks.Child k.currentProcess pid i) ∨ ∀ i, i ≠ k.currentProcess → (k.processTable i).state ≠ .ready)
  | some (.ok (child, code)) => Move k.tasks (.report ⟨child, k.current.pid, code⟩) k'.tasks

section
variable (hrun : k.current.state = .running)
include hrun

/-- A round of the loop of `scheduler_waitpid`. -/
theorem waitpidLoop_waited (hreturns : k.current.savedStack = .returns) (pid : Int) :
    wpe (waitpidLoop S pid) (fun r k' => Waited k.toProcesses k'.toProcesses pid r) (· ≠ .lastKernelThreadExited) k := by
  unfold waitpidLoop
  rw [wpe_bind, wpe_get]
  split
  · next child hchild =>
    obtain ⟨hchild, hzombie⟩ := findChild_some hchild
    refine (reapProcess_tasks S child).bind fun ok k₁ hok => ?_
    rw [wpe_bind, wpe_panicUnless]
    refine ⟨fun htrue => ?_, fun _ => nofun⟩
    obtain ⟨hne, htasks⟩ := hok htrue
    show Move _ _ _
    rw [htasks, ← show (k.processTable child).parentPid = k.current.pid from hchild.2.2.2.1]
    exact .reap hchild (hzombie rfl) hne
  · next hnone =>
    have hnone : ∀ i, k.tasks.Child k.currentProcess pid i → (k.processTable i).state ≠ .zombie :=
      fun i hi => (findChild_none hnone hi).2
    split
    · next hno => exact ⟨.refl _, .inl fun i hi => by simpa using (findChild_none hno hi).1⟩
    · next child hchild =>
      have hchild := (findChild_some hchild).1
      rw [wpe_bind, wpe_update, wpe_bind, wpe_get]
      split
      · next hnext =>
        rw [wpe_bind, wpe_update, wpe_pure]
        refine ⟨?_, .inr fun i hi => ?_⟩
        · exact k.quiet_refused _ hrun hreturns
        · rw [← setCurrent_of_ne k.toProcesses _ hi]
          exact findNextReady_none hnext i
      · next next hnext =>
        have hready := findNextReady_some hnext
        have hne : next ≠ k.currentProcess := fun heq => by
          rw [heq, show (Processes.setCurrent _ _).processTable k.currentProcess = _ from setCurrent_self ..] at hready
          cases hready
        rw [wpe_bind]
        refine switchTo_moves S (fun rest => ?_) fun _ => id
        show Move _ _ _
        rw [tasks_setCurrent_switched _ _ _ hne]
        rw [setCurrent_of_ne _ _ hne] at hready
        exact .wait hchild hnone hready

/-- The return to the loop of `scheduler_waitpid`. -/
theorem resumeWaitpid_waited (pid : Int) :
    wpe (resumeWaitpid S pid)
      (fun r k' => ∃ k₁ : Processes, k₁.tasks = k.tasks.set k.tasks.current { k.tasks.cur with resume := .returns } ∧
        Waited k₁ k'.toProcesses pid r)
      (· ≠ .lastKernelThreadExited) k := by
  unfold resumeWaitpid
  rw [wpe_bind, wpe_update]
  have hcurrent := k.setCurrent_current { k.current with savedStack := .returns }
  refine (waitpidLoop_waited S ?_ ?_ pid).mono fun r k' hwaited => ⟨_, ?_, hwaited⟩
  · exact (congrArg Process.state hcurrent).trans hrun
  · exact congrArg Process.savedStack hcurrent
  · exact k.tasks_setCurrent _

/-- The time slice of the running process. -/
theorem chargeTick_quiet :
    wpe (chargeTick S) (fun _ k' => Quiet k.tasks k'.tasks) (· ≠ .lastKernelThreadExited) k := by
  unfold chargeTick
  rw [wpe_bind, wpe_get]
  split
  · exact .refl _
  · split
    · exact .of_eq (k.tasks_setCurrent_same _ rfl)
    · exact endSlice_quiet S hrun

/-- `scheduler_on_tick`. -/
theorem onTick_quiet :
    wpe (onTick S) (fun _ k' => Quiet k.tasks k'.tasks) (· ≠ .lastKernelThreadExited) k := by
  unfold onTick
  rw [wpe_bind, wpe_modify, wpe_bind, wpe_get, wpe_bind, wpe_update]
  -- the running process does not sleep
  have hstill : ∀ now, wakeIfDue now k.currentProcess k.current = k.current := fun now => if_neg fun h => by
    rw [hrun] at h
    exact nomatch h.2.1
  refine (chargeTick_quiet S ?_).mono fun _ k' hquiet => (k.quiet_roused _).trans hquiet
  exact (congrArg Process.state (hstill _)).trans hrun

end

/-- `scheduler_user_page_fault` returns false, or exits. -/
theorem userPageFault_moves (frame : TrapFrame) :
    wpe (userPageFault S frame)
      (fun exited k' => exited = true →
        Move k.tasks (.exit ⟨k.current.pid, k.current.parentPid, -14⟩) k'.tasks)
      (fun e => e = .lastKernelThreadExited → ∀ i, i ≠ k.currentProcess → (k.processTable i).state ≠ .ready) k := by
  unfold userPageFault
  rw [wpe_bind, wpe_get]
  split
  · exact nofun
  · exact (exitCurrent_moves S (-14)).bind fun _ _ hmove _ => hmove

/-- `exception_dispatch` returns by an exit. -/
theorem exceptionDispatch_moves (frame : TrapFrame) :
    wpe (exceptionDispatch S frame)
      (fun _ k' => Move k.tasks (.exit ⟨k.current.pid, k.current.parentPid, -14⟩) k'.tasks)
      (fun e => e = .lastKernelThreadExited → ∀ i, i ≠ k.currentProcess → (k.processTable i).state ≠ .ready) k := by
  unfold exceptionDispatch
  split
  · exact fun heq => nomatch heq
  · split
    · exact fun heq => nomatch heq
    · refine (userPageFault_moves S frame).bind fun exited k' hmove => ?_
      split
      · next htrue => exact hmove htrue
      · exact fun heq => nomatch heq

end Scheduler

end MiniOrange

import MiniOrange.Vfs.Bookkeeping

/-!
# Exceptions of user processes

`exception_dispatch` hands a page fault of a user process to `scheduler_user_page_fault`, which ends the process; every other
exception stops the machine. This module says which exceptions leave all but the faulting process as it was (`Contained`): the
page faults that the processor reports as the user's, if the address space of the next process can be activated.
-/

namespace MiniOrange

variable {ρ ν : Type} {S : Services ρ} {k k' : Kernel ρ}

/-! ## Files of other processes -/

namespace Desk

variable {d : Desk} {handle : Handle}

/-- No descriptor holds the file. -/
def Lacks (d : Desk) (handle : Handle) : Prop := ∀ descriptor, d.fdTable descriptor ≠ some handle

/-- `scheduler_fd_remove` returns what the descriptor holds, and empties it. -/
theorem Lacks.fdRemove (h : d.Lacks handle) (descriptor : Int) :
    (d.fdRemove descriptor).1 ≠ some handle ∧ (d.fdRemove descriptor).2.Lacks handle ∧
      (d.fdRemove descriptor).2.vfs = d.vfs := by
  unfold Desk.fdRemove
  split
  · exact ⟨nofun, h, rfl⟩
  · refine ⟨h _, fun other => ?_, rfl⟩
    dsimp only
    rw [Function.update_apply]
    split
    · nofun
    · exact h other

/-- A round of the loop of `vfs_close_all_current` leaves the files alone that the process does not hold. -/
theorem Lacks.closeIfOpen (h : d.Lacks handle) (descriptor : Nat) :
    (d.closeIfOpen descriptor).Lacks handle ∧ (d.closeIfOpen descriptor).vfs.fileTable handle = d.vfs.fileTable handle := by
  obtain ⟨hne, hlacks, hvfs⟩ := h.fdRemove descriptor
  unfold Desk.closeIfOpen Desk.vfsClose
  split
  · split
    · exact ⟨h, rfl⟩
    · split
      · exact ⟨h, rfl⟩
      · dsimp only
        split
        · exact ⟨hlacks, by rw [hvfs]⟩
        · next file hfile =>
          have hheld := Option.eq_some_of_filter_eq_some hfile
          refine ⟨hlacks, ?_⟩
          rw [← hvfs]
          exact setFile_of_ne _ _ fun heq => hne (heq ▸ hheld)
  · exact ⟨h, rfl⟩

/-- `vfs_close_all_current` leaves the files alone that the process does not hold. -/
theorem Lacks.closeAll (h : d.Lacks handle) : d.vfsCloseAllCurrent.vfs.fileTable handle = d.vfs.fileTable handle := by
  have hloop : ∀ (descriptors : List Nat) {d : Desk}, d.Lacks handle →
      (descriptors.foldl Desk.closeIfOpen d).vfs.fileTable handle = d.vfs.fileTable handle := by
    intro descriptors
    induction descriptors with
    | nil => exact fun _ => rfl
    | cons descriptor descriptors ih =>
      intro d h
      obtain ⟨hlacks, hsame⟩ := h.closeIfOpen descriptor
      exact (ih hlacks).trans hsame
  unfold Desk.vfsCloseAllCurrent
  split
  · rfl
  · exact hloop _ h

end Desk

/-! ## What a fault leaves -/

/-- The process as the exit of the running process leaves it: a parent that waits for it is ready. -/
def Processes.woken (k : Processes) (i : ProcessSlot) : Process :=
  Processes.wakeIfWaiting k.current k.currentProcess i (k.processTable i)

/-- The running process of `k` has ended in `k'`, and another process runs; all else is as it was. What is in an address space
is told by `space`. -/
structure Contained (space : ρ → Nat → ν) (k k' : Kernel ρ) : Prop where
  zombie : (k'.processTable k.currentProcess).state = .zombie
  closed : ∀ descriptor, (k'.processTable k.currentProcess).fdTable descriptor = none
  parent : ∀ i, i ≠ k.currentProcess → (k.processTable i).state = .blocked → (k.processTable i).pid = k.current.parentPid →
    (k.processTable i).waitNode = some k.currentProcess ∨ (k.processTable i).waitNode = some i →
    (k.woken i).state = .ready
  next : k'.currentProcess ≠ k.currentProcess ∧ (k.woken k'.currentProcess).state = .ready
  others : ∀ i, i ≠ k.currentProcess → k'.processTable i =
    if i = k'.currentProcess then { k.woken i with state := .running, timeSlice := 5 } else k.woken i
  files : ∀ i, i ≠ k.currentProcess → ∀ descriptor handle, (k.processTable i).fdTable descriptor = some handle →
    k'.vfs.fileTable handle = k.vfs.fileTable handle
  spaces : ∀ i, i ≠ k.currentProcess → (k.processTable i).pageDirectory ≠ 0 →
    space k'.rest (k.processTable i).pageDirectory = space k.rest (k.processTable i).pageDirectory

/-- A process is ready when the running one has ended, its address space can be activated, and no address space of another
process changes by it. -/
def NextActivates (S : Services ρ) (space : ρ → Nat → ν) (k : Kernel ρ) : Prop :=
  ∃ next rest, (k.exiting (-14)).findNextReady k.currentProcess = some next ∧
    S.activate (k.processTable next).pageDirectory k.rest = .ok (true, rest) ∧
    ∀ i, i ≠ k.currentProcess → (k.processTable i).pageDirectory ≠ 0 →
      space rest (k.processTable i).pageDirectory = space k.rest (k.processTable i).pageDirectory

namespace Scheduler

open Processes

theorem exiting_of_ne (k : Kernel ρ) (code : Int) {i : ProcessSlot} (hi : i ≠ k.currentProcess) :
    (k.exiting code).processTable i = k.woken i := by
  have hdesk : (k.setDesk k.desk.vfsCloseAllCurrent).processTable i = k.processTable i := setCurrent_of_ne _ _ hi
  refine (exiting_processTable_of_ne (k.setDesk k.desk.vfsCloseAllCurrent).toProcesses code hi).trans ?_
  have hcurrent : (k.setDesk k.desk.vfsCloseAllCurrent).current = { k.current with fdTable := k.desk.vfsCloseAllCurrent.fdTable } :=
    setCurrent_current ..
  rw [hdesk, hcurrent]
  exact wakeIfWaiting_congr rfl _ _ _

theorem exiting_self (k : Kernel ρ) (code : Int) : (k.exiting code).processTable k.currentProcess =
    { k.current with fdTable := k.desk.vfsCloseAllCurrent.fdTable, exitCode := code, state := .zombie } := by
  refine (exiting_current (k.setDesk k.desk.vfsCloseAllCurrent).toProcesses code).trans ?_
  rw [show (k.setDesk k.desk.vfsCloseAllCurrent).current = _ from setCurrent_current ..]

theorem woken_pageDirectory (k : Processes) (i : ProcessSlot) : (k.woken i).pageDirectory = (k.processTable i).pageDirectory := by
  unfold Processes.woken wakeIfWaiting
  split
  · rfl
  · rfl

/-- The process that runs after an exit is another one. -/
theorem next_ne {code : Int} {next : ProcessSlot} (h : (k.exiting code).findNextReady k.currentProcess = some next) :
    next ≠ k.currentProcess := by
  rintro rfl
  have hready := findNextReady_some h
  rw [exiting_self] at hready
  cases hready

/-- `exception_dispatch` returns for a page fault of the user's whose exit can switch, and only then. -/
theorem exceptionDispatch_eq_ok {frame : TrapFrame} (huser : k.current.pageDirectory ≠ 0) (hcs : frame.cs &&& 3 = 3) :
    exceptionDispatch S frame k = .ok ((), k') ↔ frame.vector = 14 ∧ pageFaultIsUser frame.errorCode = true ∧
      ∃ next rest, (k.exiting (-14)).findNextReady k.currentProcess = some next ∧
        S.activate (k.processTable next).pageDirectory k.rest = .ok (true, rest) ∧
        k' = { k.exiting (-14) with toProcesses := (k.exiting (-14)).switched next .exited, rest := rest } := by
  rw [← wpe_eq_ok]
  unfold exceptionDispatch
  split
  · next hvector => exact iff_of_false id fun hok => hvector hok.1
  next hvector =>
  rw [not_not] at hvector
  split
  · next hkernel => exact iff_of_false id fun hok => by rw [hok.2.1] at hkernel; cases hkernel
  next huserBit =>
  rw [Bool.not_eq_false] at huserBit
  -- the handler takes it, and ends the process
  rw [and_iff_right hvector, and_iff_right huserBit]
  unfold userPageFault
  rw [wpe_bind, wpe_bind, wpe_get, if_neg (by simp [huser, hcs]), wpe_bind, wpe_exitCurrent]
  cases hnext : (k.exiting (-14)).findNextReady k.currentProcess with
  | none => exact iff_of_false id fun ⟨_, _, hsome, _⟩ => nomatch hsome
  | some next =>
    dsimp only
    rw [wpe_switchTo, exiting_of_ne k _ (next_ne hnext), woken_pageDirectory, show (k.exiting (-14)).rest = k.rest from rfl]
    unfold wpe
    cases hactivate : S.activate (k.processTable next).pageDirectory k.rest with
    | error p =>
      refine iff_of_false id fun ⟨next', rest, hnext', hok, _⟩ => ?_
      rw [← Option.some.inj hnext', hactivate] at hok
      cases hok
    | ok p =>
      obtain ⟨ok, rest⟩ := p
      cases ok with
      | false =>
        refine iff_of_false id fun ⟨next', rest, hnext', hok, _⟩ => ?_
        rw [← Option.some.inj hnext', hactivate] at hok
        cases hok
      | true =>
        refine ⟨fun heq => ⟨next, rest, rfl, hactivate, (congrArg Prod.snd heq).symm⟩, ?_⟩
        rintro ⟨next', rest', hnext', hok, rfl⟩
        obtain rfl := Option.some.inj hnext'
        rw [hactivate] at hok
        obtain rfl := (Prod.mk.inj (Except.ok.inj hok)).2
        rfl

theorem switched_processTable (k : Processes) {next : ProcessSlot} (resume : Resume) (hne : next ≠ k.currentProcess)
    (i : ProcessSlot) : (k.switched next resume).processTable i =
      if i = next then { k.processTable next with state := .running, timeSlice := 5 }
      else if i = k.currentProcess then { k.current with savedStack := resume } else k.processTable i := by
  have hnext : (k.setCurrent { k.current with savedStack := resume }).processTable next = k.processTable next :=
    setCurrent_of_ne _ _ hne
  show Function.update (k.setCurrent { k.current with savedStack := resume }).processTable next
    { (k.setCurrent { k.current with savedStack := resume }).processTable next with state := .running, timeSlice := 5 } i = _
  rw [hnext, Function.update_apply]
  refine if_congr Iff.rfl rfl ?_
  exact Function.update_apply ..

/-- What a fault leaves that is handled. -/
theorem contained_switched {space : ρ → Nat → ν} {next : ProcessSlot} {rest : ρ} (hk : Bookkept k)
    (hnext : (k.exiting (-14)).findNextReady k.currentProcess = some next)
    (hspaces : ∀ i, i ≠ k.currentProcess → (k.processTable i).pageDirectory ≠ 0 →
      space rest (k.processTable i).pageDirectory = space k.rest (k.processTable i).pageDirectory) :
    Contained space k { k.exiting (-14) with toProcesses := (k.exiting (-14)).switched next .exited, rest := rest } := by
  have hne := next_ne hnext
  have htable := switched_processTable (k.exiting (-14)).toProcesses .exited hne
  have hself : ((k.exiting (-14)).switched next .exited).processTable k.currentProcess =
      { (k.exiting (-14)).current with savedStack := .exited } := by
    rw [htable, if_neg hne.symm]
    exact if_pos rfl
  have hcurrent : (k.exiting (-14)).current = _ := exiting_self k (-14)
  rw [hcurrent] at hself
  refine ⟨congrArg Process.state hself, fun descriptor => ?_, fun i _ hblocked hpid hwait => ?_, ⟨hne, ?_⟩, fun i hi => ?_,
    fun i hi descriptor handle hheld => ?_, hspaces⟩
  · refine (congrFun (congrArg Process.fdTable hself) descriptor).trans ?_
    exact (hk.booked.closeAll hk.free).2.2 descriptor
  · unfold Processes.woken wakeIfWaiting
    rw [if_pos ⟨hblocked, hpid, hwait⟩]
  · show (k.woken next).state = .ready
    rw [← exiting_of_ne k (-14) hne]
    exact findNextReady_some hnext
  · show ((k.exiting (-14)).switched next .exited).processTable i =
      if i = next then { k.woken i with state := .running, timeSlice := 5 } else k.woken i
    rw [htable i, ← exiting_of_ne k (-14) hi]
    split
    · next heq => rw [heq]
    · exact if_neg hi
  · -- a file has one holder, which is not the running process
    refine Desk.Lacks.closeAll fun other hother => ?_
    have hsame := hk.ledger.holding.unique (x := (i, descriptor)) (y := (k.currentProcess, other)) hheld hother
    exact hi (congrArg Prod.fst hsame)

/-- A program that was spawned and runs, on any disk. -/
theorem run_to_program (fs : Machine) :
    Run (Host.Step unlimited) ⟨booted, fs⟩ [.spawn (.ok 1), .yield] ⟨after booted [.spawn program, .yield], fs⟩ :=
  (Run.single (@Host.Step.schedule _ unlimited ⟨booted, fs⟩ (.spawn program) _ _ rfl nofun rfl)).snoc
    (@Host.Step.schedule _ unlimited ⟨after booted [.spawn program], fs⟩ .yield _ _ rfl nofun rfl)

/-- A machine without a volume. -/
def noVolume : Machine where
  layout := ⟨0, 0⟩
  deviceBlockCount := 0
  volume _ := .zero
  buffers := ⟨.zero, .zero, .zero⟩
  superblock := .clear
  mounted := false
  operationBusy := false
  interrupts := true
  outcome _ := none
  history := []

end Scheduler

end MiniOrange

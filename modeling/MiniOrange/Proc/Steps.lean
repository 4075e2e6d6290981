import MiniOrange.Proc.Lifecycle

/-!
# What a call of the scheduler can do

Whatever function of the scheduler is called, the running process goes on with a change of its own entry, or the next
one that is ready is switched to (`Goes`), or a process is entered in a slot that is not used or one that has exited is
reaped (`Change`). An exit is a switch behind `Kernel.exiting`, and a tick first wakes the sleepers (`Kernel.swept`). This
is read off the code once, in `perform_performed`; what calls keep is then a question about these few changes.
-/

namespace MiniOrange

open Processes

/-- A process keeps its files and its directory, and its state or one in which it will go on. -/
structure Process.Same (p p' : Process) : Prop where
  fdTable : p'.fdTable = p.fdTable
  directory : p'.currentWorkingDirectory = p.currentWorkingDirectory
  state : p'.state = p.state ∨ p'.state = .ready ∨ p'.state = .running ∨ p'.state = .blocked

theorem Processes.setCurrent_eq_self (k : Processes) : k.setCurrent k.current = k :=
  congrArg (fun t => Processes.mk t k.currentProcess k.nextPid) (Function.update_eq_self _ _)

theorem Processes.setCurrent_setCurrent (k : Processes) (p q : Process) :
    (k.setCurrent p).setCurrent q = k.setCurrent q :=
  congrArg (fun t => Processes.mk t k.currentProcess k.nextPid) (Function.update_idem _ _ _)

variable {ρ : Type}

/-- The kernel behind the sweep of a tick. -/
def Kernel.swept (k : Kernel ρ) : Kernel ρ :=
  { k with
    processTable := fun i => wakeIfDue (k.tickCount + 1) i (k.processTable i)
    tickCount := k.tickCount + 1 }

/-- Whoever runs is not woken. -/
theorem Kernel.swept_current {k : Kernel ρ} (hrun : k.current.state = .running) : k.swept.current = k.current :=
  if_neg fun hdue => by
    have hblocked : k.current.state = .blocked := hdue.2.1
    rw [hrun] at hblocked
    cases hblocked

/-- The running process goes on, or the next is switched to, which was looked for when the entry was `q`. -/
inductive Goes (k : Kernel ρ) : Kernel ρ → Prop
  | stay (p : Process) (rest : ρ) : k.current.Same p → Goes k { k with toProcesses := k.setCurrent p, rest := rest }
  | switch (p q : Process) (next : ProcessSlot) (resume : Resume) (rest : ρ) : k.current.Same p →
      (k.setCurrent q).findNextReady k.currentProcess = some next → (next = k.currentProcess → q = k.current) →
      Goes k { k with toProcesses := (k.setCurrent p).switched next resume, rest := rest }

/-- What a call changes. -/
inductive Change (k : Kernel ρ) : Kernel ρ → Prop
  | goes {k' : Kernel ρ} : Goes k k' → Change k k'
  | make (slot : ProcessSlot) (p : Process) (nextPid : Nat) (rest : ρ) : (k.processTable slot).state = .unused →
      p.fdTable = clearProcess.fdTable → p.currentWorkingDirectory = k.current.currentWorkingDirectory →
      Change k { k with toProcesses := { k.setProcess slot p with nextPid := nextPid }, rest := rest }
  | reap (i : ProcessSlot) (p : Process) (rest : ρ) : (k.processTable i).state = .zombie →
      (p = clearProcess ∨ ∃ d, p = { k.processTable i with pageDirectory := d }) →
      Change k { k with toProcesses := k.setProcess i p, rest := rest }

/-- Only the rest of the kernel has changed. -/
theorem Goes.rest (k : Kernel ρ) (rest : ρ) : Goes k { k with rest := rest } := by
  have := Goes.stay (k := k) k.current rest ⟨rfl, rfl, .inl rfl⟩
  rwa [setCurrent_eq_self] at this

theorem Goes.refl (k : Kernel ρ) : Goes k k := .rest k k.rest

/-- What a call does as a whole. -/
def Performed (k : Kernel ρ) : Call ρ → Kernel ρ → Prop
  | .tick, k' => Goes k.swept k'
  | .resume _, k' => Change { k with toProcesses := k.setCurrent { k.current with savedStack := .returns } } k'
  | .exit _, k' | .fault _, k' => ∃ code next rest, (k.exiting code).findNextReady k.currentProcess = some next ∧
      k' = { k.exiting code with toProcesses := (k.exiting code).switched next .exited, rest := rest }
  | .work fdTable directory vfs rest, k' => k' = { k with
      toProcesses := k.setCurrent { k.current with fdTable := fdTable, currentWorkingDirectory := directory }
      vfs := vfs
      rest := rest }
  | _, k' => Change k k'

namespace Scheduler

variable (S : Services ρ) {k : Kernel ρ}

/-- `switch_to` the process that was found, with the running one left as `p`. -/
theorem switchTo_goes {p q : Process} {next : ProcessSlot} {resume : Resume} (hp : k.current.Same p)
    (hnext : (k.setCurrent q).findNextReady k.currentProcess = some next) (hne : next = k.currentProcess → q = k.current) :
    wpe (switchTo S next resume) (fun _ k' => Goes k k') (fun _ => True) { k with toProcesses := k.setCurrent p } :=
  switchTo_moves S (fun rest => .switch p q next resume rest hp hnext hne) fun _ _ => trivial

/-- Leaving the running process ready, as `scheduler_yield` and the end of a time slice do; `f` is done to it if it
goes on. -/
theorem handOver_goes {f : Process → Process}
    (hf : ∀ p, (f p).fdTable = p.fdTable ∧ (f p).currentWorkingDirectory = p.currentWorkingDirectory ∧
      (f p).state = .running) :
    wpe (do
      update fun k => k.setCurrent { k.current with state := .ready }
      let k ← get
      match k.findNextReady k.currentProcess with
      | none => update fun k => k.setCurrent (f k.current)
      | some next =>
        if next = k.currentProcess then update fun k => k.setCurrent (f k.current) else switchTo S next .returns)
      (fun _ k' => Goes k k') (fun _ => True) k := by
  rw [wpe_bind, wpe_update, wpe_bind, wpe_get]
  have hon : ∀ p : Process, p.fdTable = k.current.fdTable → p.currentWorkingDirectory = k.current.currentWorkingDirectory →
      Goes k { k with toProcesses := (k.setCurrent p).setCurrent (f (k.setCurrent p).current) } := by
    intro p hfd hdirectory
    rw [setCurrent_setCurrent, setCurrent_current]
    exact .stay _ k.rest ⟨(hf p).1.trans hfd, (hf p).2.1.trans hdirectory, .inr (.inr (.inl (hf p).2.2))⟩
  split
  · exact hon _ rfl rfl
  · next next hnext =>
    split
    · exact hon _ rfl rfl
    · next hne => exact switchTo_goes S ⟨rfl, rfl, .inr (.inl rfl)⟩ hnext fun heq => absurd heq hne

theorem yield_goes : wpe (yield S) (fun _ k' => Goes k k') (fun _ => True) k :=
  handOver_goes S (f := fun p => { p with state := .running }) fun _ => ⟨rfl, rfl, rfl⟩

theorem chargeTick_goes : wpe (chargeTick S) (fun _ k' => Goes k k') (fun _ => True) k := by
  unfold chargeTick
  rw [wpe_bind, wpe_get]
  split
  · exact .refl k
  · split
    · exact .stay _ k.rest ⟨rfl, rfl, .inl rfl⟩
    · exact handOver_goes S (f := fun p => { p with state := .running, timeSlice := 5 }) fun _ => ⟨rfl, rfl, rfl⟩

theorem wpe_onTick {Q : Unit → Kernel ρ → Prop} {F : Panic → Prop} :
    wpe (onTick S) Q F k ↔ wpe (chargeTick S) Q F k.swept := Iff.rfl

theorem sleepCurrent_goes (ticks : Nat) : wpe (sleepCurrent S ticks) (fun _ k' => Goes k k') (fun _ => True) k := by
  unfold sleepCurrent
  split
  · exact (yield_goes S).bind fun _ _ h => h
  · split
    · exact .refl k
    · rw [wpe_bind, wpe_get]
      split
      · exact .refl k
      · next next hnext =>
        rw [wpe_bind, wpe_update, wpe_bind]
        refine switchTo_goes S (q := k.current) ⟨rfl, rfl, .inr (.inr (.inr rfl))⟩ ?_ fun _ => rfl
        rwa [setCurrent_eq_self]

theorem spawnImage_change (request : SpawnRequest) :
    wpe (spawnImage S request) (fun _ k' => Change k k') (fun _ => True) k :=
  spawnImage_spec S (fun _ rest => .goes (.rest k rest))
    (fun slot _ _ _ _ rest hslot _ => .make slot _ _ rest (findUnusedProcess_some hslot).2 rfl rfl) fun _ _ => trivial

theorem kernelThreadCreate_change (name : List UInt8) (flags : Nat) :
    wpe (kernelThreadCreate S name flags) (fun _ k' => Change k k') (fun _ => True) k :=
  kernelThreadCreate_spec S (fun rest => .goes (.rest k rest))
    (fun slot _ _ _ rest hslot _ => .make slot _ _ rest (findUnusedProcess_some hslot).2 rfl rfl) fun _ _ => trivial

/-- `reap_process` clears the slot of a process that has exited, or it may have released the address space only. -/
theorem reapProcess_change (i : ProcessSlot) :
    wpe (reapProcess S i) (fun _ k' => Change k k') (fun _ => True) k := by
  have hspace : wpe (releaseSpace S i) (fun _ k' => ∃ d rest, k' = { k with
      toProcesses := k.setProcess i { k.processTable i with pageDirectory := d }, rest := rest }) (fun _ => True) k := by
    have hsame : k.setProcess i { k.processTable i with pageDirectory := (k.processTable i).pageDirectory } = k.toProcesses :=
      congrArg (fun t => Processes.mk t k.currentProcess k.nextPid) (Function.update_eq_self _ _)
    unfold releaseSpace
    rw [wpe_bind, wpe_get]
    dsimp only
    split
    · exact ⟨_, k.rest, by rw [hsame]⟩
    · rw [wpe_bind, wpe_service]
      refine wpe.of_forall _ (fun ok rest => ?_) fun _ => trivial
      split
      · exact ⟨_, rest, by rw [hsame]⟩
      · exact ⟨0, rest, rfl⟩
  unfold reapProcess
  rw [wpe_bind, wpe_get]
  split
  · exact .goes (.refl k)
  · next hnot =>
    have hzombie : (k.processTable i).state = .zombie := not_not.1 fun hne => hnot (.inl hne)
    refine hspace.bind ?_
    rintro ok _ ⟨d, rest, rfl⟩
    split
    · exact .reap i _ rest hzombie (.inr ⟨d, rfl⟩)
    · rw [wpe_bind, wpe_service]
      refine wpe.of_forall _ (fun ok rest => ?_) fun _ => trivial
      split
      · exact .reap i _ rest hzombie (.inr ⟨d, rfl⟩)
      · have := Change.reap (k := k) i clearProcess rest hzombie (.inl rfl)
        rwa [show k.setProcess i clearProcess = (k.setProcess i _).setProcess i clearProcess from
          congrArg (fun t => Processes.mk t k.currentProcess k.nextPid) (Function.update_idem _ _ _).symm] at this

theorem waitpidLoop_change (pid : Int) : wpe (waitpidLoop S pid) (fun _ k' => Change k k') (fun _ => True) k := by
  unfold waitpidLoop
  rw [wpe_bind, wpe_get]
  split
  · next child _ =>
    refine (reapProcess_change S child).bind fun ok k₁ h => ?_
    rw [wpe_bind, wpe_panicUnless]
    exact ⟨fun _ => h, fun _ => trivial⟩
  · split
    · exact .goes (.refl k)
    · rw [wpe_bind, wpe_update, wpe_bind, wpe_get]
      split
      · rw [wpe_bind, wpe_update, wpe_pure, setCurrent_setCurrent, setCurrent_current]
        exact .goes (.stay _ k.rest ⟨rfl, rfl, .inr (.inr (.inl rfl))⟩)
      · next next hnext =>
        have hne : next ≠ k.currentProcess := fun heq => by
          have hready := findNextReady_some hnext
          rw [heq, show (Processes.setCurrent _ _).processTable k.currentProcess = _ from setCurrent_self ..] at hready
          cases hready
        rw [wpe_bind]
        refine wpe.mono (switchTo_goes S (k := k) ?_ hnext fun heq => absurd heq hne) fun _ _ h => Change.goes h
        exact ⟨rfl, rfl, .inr (.inr (.inr rfl))⟩

theorem exitCurrent_performed (code : Int) :
    wpe (exitCurrent S code) (fun _ k' => Performed k (.exit code) k') (fun _ => True) k := by
  rw [wpe_exitCurrent]
  split
  · trivial
  · next next hnext => exact switchTo_moves S (fun rest => ⟨code, next, rest, hnext, rfl⟩) fun _ _ => trivial

/-- What every call does. -/
theorem perform_performed (call : Call ρ) :
    wpe (perform S call) (fun _ k' => Performed k call k') (fun _ => True) k := by
  cases call with
  | tick => exact ((wpe_onTick S).2 (chargeTick_goes S)).bind fun _ _ h => h
  | spawn request => exact (spawnImage_change S request).bind fun _ _ h => h
  | thread name flags => exact (kernelThreadCreate_change S name flags).bind fun _ _ h => h
  | yield => exact (yield_goes S).bind fun _ _ h => .goes h
  | sleep ticks => exact (sleepCurrent_goes S ticks).bind fun _ _ h => .goes h
  | wait pid =>
    unfold perform
    rw [wpe_bind, wpe_get]
    unfold waitpid
    split
    · exact .goes (.refl k)
    · exact (waitpidLoop_change S pid).bind fun _ _ h => h
  | resume pid =>
    unfold perform
    rw [wpe_bind, wpe_get]
    unfold resumeWaitpid
    simp only [wpe_bind, wpe_update]
    exact (waitpidLoop_change S pid).mono fun _ _ h => h
  | exit code =>
    unfold perform
    rw [wpe_bind, wpe_get]
    exact (exitCurrent_performed S code).bind fun _ _ h => h
  | fault frame =>
    unfold perform
    rw [wpe_bind, wpe_get]
    refine wpe.bind ?_ fun _ _ h => h
    unfold exceptionDispatch
    split
    · trivial
    · split
      · trivial
      · unfold userPageFault
        simp only [wpe_bind, wpe_get]
        split
        · trivial
        · exact (exitCurrent_performed S (-14)).bind fun _ _ h => h
  | work fdTable directory vfs rest => exact rfl

end Scheduler

end MiniOrange

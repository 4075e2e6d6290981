import MiniOrange.Proc.Refine

/-!
# The life of processes

The runs of the kernel, as the processes see them: a step is a call of a function of the scheduler by the running
process, a tick, a fault or some other work, and its event says what came of it (`Step`). Each step makes moves of
the protocol (`Step.made`), so that what the moves keep holds in all runs.
-/

namespace MiniOrange

open Tasks Processes

/-- What is seen of a step: who called which function of the scheduler, and with what result. -/
inductive Event where
  | tick
  | spawn (result : Except Errno Nat)
  | thread (result : Option Nat)
  | yield
  | sleep (ticks : Nat) (result : Option Bool)
  | wait (caller : Nat) (pid : Int) (result : Option (Except Errno (Nat × Int)))
  | exit (pid parentPid : Nat) (code : Int)
  | work

namespace Event

/-- The exit that an event is. -/
def exits : Event → Multiset Exit
  | exit pid parentPid code => {⟨pid, parentPid, code⟩}
  | _ => 0

/-- The exit that a caller of `scheduler_waitpid` is told of. -/
def reports : Event → Multiset Exit
  | wait caller _ (some (.ok (pid, code))) => {⟨pid, caller, code⟩}
  | _ => 0

/-- The moves behind an event: those that are not seen, and perhaps one that is. -/
inductive Shows : Event → Option Label → Prop
  | tick : Shows .tick none
  | yield : Shows .yield none
  | work : Shows .work none
  | spawn {pid : Nat} : Shows (.spawn (.ok pid)) (some .spawn)
  | refused {e : Errno} : Shows (.spawn (.error e)) none
  | thread {pid : Nat} : Shows (.thread (some pid)) (some .spawn)
  | threadless : Shows (.thread none) none
  | awake {ticks : Nat} {result : Option Bool} : Shows (.sleep ticks result) none
  | sleep {ticks : Nat} {result : Option Bool} : Shows (.sleep ticks result) (some .block)
  | wait {caller : Nat} {pid : Int} : Shows (.wait caller pid none) (some .block)
  | failed {caller : Nat} {pid : Int} {e : Errno} : Shows (.wait caller pid (some (.error e))) none
  | report {caller child : Nat} {pid code : Int} :
      Shows (.wait caller pid (some (.ok (child, code)))) (some (.report ⟨child, caller, code⟩))
  | exit {pid parentPid : Nat} {code : Int} :
      Shows (.exit pid parentPid code) (some (.exit ⟨pid, parentPid, code⟩))

end Event

/-- What the running process does: a call of a function of the scheduler, to be interrupted or to fault, or other work,
in the kernel too, where it may change its own files and directory. -/
inductive Call (ρ : Type) where
  | tick
  | spawn (request : SpawnRequest)
  | thread (name : List UInt8) (flags : Nat)
  | yield
  | sleep (ticks : Nat)
  | wait (pid : Int)
  | resume (pid : Int)
  | exit (code : Int)
  | fault (frame : Scheduler.TrapFrame)
  | work (fdTable : FdTable) (directory : List UInt8) (vfs : Vfs) (rest : ρ)

/-- A process that was switched away from in `scheduler_waitpid` goes on there. -/
def Call.Allowed {ρ : Type} (k : Processes) : Call ρ → Prop
  | resume pid => k.current.savedStack = .waitpid pid
  | _ => k.current.savedStack = .returns

namespace Scheduler

variable {ρ : Type} (S : Services ρ)

/-- The kernel does what the running process asks for. -/
def perform : Call ρ → Kern (Kernel ρ) Event
  | .tick => do
    onTick S
    return .tick
  | .spawn request => return .spawn (← spawnImage S request)
  | .thread name flags => return .thread (← kernelThreadCreate S name flags)
  | .yield => do
    yield S
    return .yield
  | .sleep ticks => return .sleep ticks (← sleepCurrent S ticks)
  | .wait pid => do
    let caller := (← get).current.pid
    return .wait caller pid (← waitpid S pid)
  | .resume pid => do
    let caller := (← get).current.pid
    return .wait caller pid (← resumeWaitpid S pid)
  | .exit code => do
    let process := (← get).current
    exitCurrent S code
    return .exit process.pid process.parentPid code
  | .fault frame => do
    let process := (← get).current
    exceptionDispatch S frame
    return .exit process.pid process.parentPid (-14)
  | .work fdTable directory vfs rest => do
    modify fun k => { k with
      toProcesses := k.setCurrent { k.current with fdTable := fdTable, currentWorkingDirectory := directory }
      vfs := vfs
      rest := rest }
    return .work

/-- A step of the kernel. -/
def Step (k : Kernel ρ) (e : Event) (k' : Kernel ρ) : Prop :=
  ∃ call : Call ρ, call.Allowed k.toProcesses ∧ perform S call k = .ok (e, k')

/-- A step once the first process only waits for interrupts. -/
def IdleStep (k : Kernel ρ) (e : Event) (k' : Kernel ρ) : Prop :=
  ∃ call : Call ρ, call.Allowed k.toProcesses ∧ (k.currentProcess = 0 → call = .tick) ∧ perform S call k = .ok (e, k')

end Scheduler

/-- Moves that show as `l`. -/
inductive Made (a b : Tasks) : Option Label → Prop
  | quiet : Quiet a b → Made a b none
  | move {l : Label} : Move a l b → Made a b (some l)
  | resumed {a₁ : Tasks} {l : Label} : Quiet a a₁ → a₁.current = a.current → Move a₁ l b → (∀ r, l ≠ .exit r) →
      Made a b (some l)

namespace Made

variable {a b : Tasks} {l : Option Label} {e : Event}

variable {I : Tasks → Prop}

/-- What the moves keep that are not seen. -/
theorem quiet_invariant (h : Quiet a b) (ha : a.Sound) (hI : I a)
    (hmove : ∀ {a b}, a.Sound → I a → Move a .quiet b → I b) : b.Sound ∧ I b := by
  obtain ⟨ls, hrun, hls⟩ := h
  induction hrun with
  | nil => exact ⟨ha, hI⟩
  | snoc _ hlast ih =>
    obtain ⟨hls, hl⟩ := List.forall_mem_append.1 hls
    obtain ⟨hs, hI⟩ := ih hls
    exact ⟨hs.move hlast, hmove hs hI (hl _ (List.mem_singleton_self _) ▸ hlast)⟩

variable (h : Made a b l)
include h

/-- What the moves keep that make no process exit. -/
theorem invariant (ha : a.Sound) (hI : I a) (hquiet : ∀ {a b}, a.Sound → I a → Move a .quiet b → I b)
    (hmove : ∀ {a₁ b m}, l = some m → a₁.current = a.current → (∀ r, m = .exit r → a₁ = a) → a₁.Sound → I a₁ →
      Move a₁ m b → I b) : b.Sound ∧ I b := by
  cases h with
  | quiet h => exact quiet_invariant h ha hI hquiet
  | move h => exact ⟨ha.move h, hmove rfl rfl (fun _ _ => rfl) ha hI h⟩
  | resumed h hcurrent hm hne =>
    obtain ⟨hs, hI⟩ := quiet_invariant h ha hI hquiet
    exact ⟨hs.move hm, hmove rfl hcurrent (fun r heq => absurd heq (hne r)) hs hI hm⟩

theorem sound (ha : a.Sound) : b.Sound :=
  (h.invariant (I := fun _ => True) ha trivial (fun _ _ _ => trivial) fun _ _ _ _ _ _ => trivial).1

theorem rooted (ha : a.Sound) (hroot : a.Rooted) : b.Rooted :=
  (h.invariant ha hroot (fun hs hr hm => hs.rooted hm hr) fun _ _ _ hs hr hm => hs.rooted hm hr).2

theorem manned (ha : a.Sound) (hman : a.Manned) (hzero : a.current = 0 → l = none) : b.Manned := by
  refine (h.invariant ha hman (fun _ hmanned hm => hmanned.move hm fun _ => rfl) ?_).2
  intro a₁ b m hl hcurrent _ _ hmanned hm
  refine hmanned.move hm fun hc => ?_
  rw [hzero (hcurrent.symm.trans hc)] at hl
  cases hl

theorem parented (ha : a.Sound) (hp : a.Parented)
    (hexit : ∀ r, l = some (.exit r) → a.Childless) : b.Parented := by
  refine (h.invariant ha hp (fun hs hp hm => hs.parented hm hp nofun) ?_).2
  intro a₁ b m hl _ hsame hs hp hm
  refine hs.parented hm hp fun r hr => ?_
  rw [hsame r hr]
  exact hexit r (hl.trans (congrArg some hr))

/-- What exits is told of or becomes a zombie. -/
theorem balanced (hl : e.Shows l) (ha : a.Sound) : a.zombies + e.exits = b.zombies + e.reports := by
  have hquiet : ∀ {b}, Quiet a b → b.Sound ∧ b.zombies = a.zombies := fun h =>
    quiet_invariant (I := fun b => b.zombies = a.zombies) h ha rfl
      fun hs heq hm => (hs.zombies_calm hm (.inl rfl)).trans heq
  have hseen : ∀ {a₁ m}, l = some m → a₁.zombies = a.zombies → a₁.Sound → Move a₁ m b →
      a.zombies + e.exits = b.zombies + e.reports := by
    intro a₁ m heq hzombies hs hm
    rw [← hzombies]
    cases hl with
    | tick | yield | work | refused | threadless | awake | failed => cases heq
    | spawn | thread | sleep | wait | report | exit =>
      cases heq
      exact hs.balanced hm
  cases h with
  | quiet h =>
    rw [(hquiet h).2]
    cases hl with
    | tick | yield | work | refused | threadless | awake | failed => rfl
  | move h => exact hseen rfl rfl ha h
  | resumed h _ hm _ => exact hseen rfl (hquiet h).2 (hquiet h).1 hm

end Made

namespace Scheduler

variable {ρ : Type} {S : Services ρ} {k k' : Kernel ρ} {e : Event} {es : List Event}

variable {pid : Int} {result : Option (Except Errno (Nat × Int))} {i : ProcessSlot}

/-- The moves of `scheduler_waitpid`. -/
theorem Waited.made {k₁ k' : Processes} {a : Tasks}
    (hquiet : Quiet a k₁.tasks) (hcurrent : k₁.currentProcess = a.current) (h : Waited k₁ k' pid result) :
    ∃ l, (Event.wait k₁.current.pid pid result).Shows l ∧ Made a k'.tasks l := by
  cases result with
  | none => exact ⟨_, .wait, .resumed hquiet hcurrent h nofun⟩
  | some result =>
    cases result with
    | error e => exact ⟨_, .failed, .quiet (hquiet.trans h.1)⟩
    | ok result => exact ⟨_, .report, .resumed hquiet hcurrent h nofun⟩

variable {call : Call ρ}

/-- Every step makes the moves that its event shows. If it panics because no process is ready, none is. -/
theorem perform_made (S : Services ρ) (hallowed : call.Allowed k.toProcesses) (hrun : k.current.state = .running) :
    wpe (perform S call) (fun e k' => ∃ l, e.Shows l ∧ Made k.tasks k'.tasks l)
      (fun p => p = .lastKernelThreadExited → ∀ i, i ≠ k.currentProcess → (k.processTable i).state ≠ .ready) k := by
  -- most calls do not panic so
  have hother : ∀ {α : Type} {m : Kern (Kernel ρ) α} {Q : α → Kernel ρ → Prop},
      wpe m Q (· ≠ .lastKernelThreadExited) k →
      wpe m Q (fun p => p = .lastKernelThreadExited → ∀ i, i ≠ k.currentProcess → (k.processTable i).state ≠ .ready) k :=
    fun h => h.mono_error fun _ hne heq => absurd heq hne
  cases call with
  | tick => exact (hother (onTick_quiet S hrun)).bind fun _ _ hquiet => ⟨_, .tick, .quiet hquiet⟩
  | spawn request =>
    refine (hother (spawnImage_moves S request)).bind fun result k' h => ?_
    rcases h with ⟨pid, rfl, hmove⟩ | ⟨e, rfl, hsame⟩
    · exact ⟨_, .spawn, .move hmove⟩
    · exact ⟨_, .refused, .quiet (.of_eq hsame)⟩
  | thread name flags =>
    refine (hother (kernelThreadCreate_moves S name flags)).bind fun result k' h => ?_
    rcases h with ⟨pid, rfl, hmove⟩ | ⟨rfl, hsame⟩
    · exact ⟨_, .thread, .move hmove⟩
    · exact ⟨_, .threadless, .quiet (.of_eq hsame)⟩
  | yield => exact (hother (yield_quiet S hrun)).bind fun _ _ hquiet => ⟨_, .yield, .quiet hquiet⟩
  | sleep ticks =>
    refine (hother (sleepCurrent_moves S hrun ticks)).bind fun result k' h => ?_
    rcases h.1 with hquiet | hmove
    · exact ⟨_, .awake, .quiet hquiet⟩
    · exact ⟨_, .sleep, .move hmove⟩
  | wait pid =>
    unfold perform
    rw [wpe_bind, wpe_get]
    unfold waitpid
    split
    · exact ⟨_, .failed, .quiet (.refl _)⟩
    · exact (hother (waitpidLoop_waited S hrun hallowed pid)).bind fun _ _ h => Waited.made (.refl _) rfl h
  | resume pid =>
    unfold perform
    rw [wpe_bind, wpe_get]
    refine (hother (resumeWaitpid_waited S hrun pid)).bind fun result k' h => ?_
    obtain ⟨k₁, htasks, hwaited⟩ := h
    have hpid : k₁.current.pid = k.current.pid := by
      have hcur := congrArg (fun a => a.cur.pid) htasks
      exact hcur.trans (congrArg Task.pid (set_task_self ..))
    rw [wpe_pure, ← hpid]
    refine Waited.made (.single ?_) (congrArg Tasks.current htasks) hwaited
    rw [htasks]
    exact .resume
  | exit code =>
    unfold perform
    rw [wpe_bind, wpe_get]
    exact (exitCurrent_moves S code).bind fun _ _ hmove => ⟨_, .exit, .move hmove⟩
  | fault frame =>
    unfold perform
    rw [wpe_bind, wpe_get]
    exact (exceptionDispatch_moves S frame).bind fun _ _ hmove => ⟨_, .exit, .move hmove⟩
  | work fdTable directory vfs rest => exact ⟨_, .work, .quiet (.of_eq (k.tasks_setCurrent_same _ rfl))⟩

theorem Step.made (h : Step S k e k') (hs : k.tasks.Sound) : ∃ l, e.Shows l ∧ Made k.tasks k'.tasks l := by
  obtain ⟨call, hallowed, hok⟩ := h
  exact (perform_made S hallowed hs.cur_state).of_ok hok

/-! ## Runs -/

/-- The first process is there and no other. -/
structure Alone (k : Processes) : Prop where
  current : k.currentProcess = 0
  running : (k.processTable 0).state = .running
  pid : (k.processTable 0).pid = 0
  parentPid : (k.processTable 0).parentPid = 0
  others : ∀ i, i ≠ 0 → (k.processTable i).state = .unused

namespace Alone

variable {k : Processes} (h : Alone k)
include h

theorem state (i : ProcessSlot) : (k.tasks.task i).state = if i = 0 then .running else .unused := by
  split
  · next hi => exact hi ▸ h.running
  · next hi => exact h.others i hi

theorem eq_zero (hi : (k.tasks.task i).state ≠ .unused) : i = 0 := by
  by_contra hne
  exact hi (h.others i hne)

theorem sound : k.tasks.Sound where
  running i := by simp [h.state, h.current, -tasks_task]
  settled i := by
    rw [h.state]
    split
    · exact ⟨nofun, nofun⟩
    · exact ⟨nofun, nofun⟩
  unique i j hi hj _ := (h.eq_zero hi).trans (h.eq_zero hj).symm
  below hne i hi := by
    rw [h.eq_zero hi]
    exact h.pid.trans_lt (Nat.pos_of_ne_zero hne)
  waiting i n hi _ := by
    rw [h.state] at hi
    split at hi
    · cases hi
    · cases hi

theorem rooted : k.tasks.Rooted := ⟨by simp [h.state, -tasks_task], h.pid, h.parentPid⟩

theorem parented : k.tasks.Parented := by
  intro i hi
  rw [h.eq_zero hi]
  exact ⟨0, by simp [Live, h.state, -tasks_task], h.pid.trans h.parentPid.symm⟩

theorem zombies : k.tasks.zombies = 0 := by
  have hnone : (Finset.univ.filter fun i => (k.tasks.task i).state = .zombie) = ∅ := by
    refine Finset.filter_eq_empty_iff.2 fun i _ => ?_
    rw [h.state]
    split
    · nofun
    · nofun
  rw [Tasks.zombies, hnone]
  rfl

end Alone

/-- `scheduler_init` leaves the first process alone. -/
theorem alone_schedulerInit {k : Processes} {bootStackTop flags : Nat} (h : k = schedulerInit bootStackTop flags) :
    Alone k := by
  subst h
  refine ⟨rfl, rfl, rfl, rfl, fun i hi => ?_⟩
  rw [schedulerInit]
  dsimp only
  rw [Function.update_of_ne hi]
  rfl

section
variable {k₀ : Kernel ρ} (hstart : Alone k₀.toProcesses)
include hstart

/-- The processes are sound in every run. -/
theorem sound_of_run (h : Run (Step S) k₀ es k) : k.tasks.Sound ∧ k.tasks.Rooted := by
  refine h.invariant (I := fun k => k.tasks.Sound ∧ k.tasks.Rooted) ⟨hstart.sound, hstart.rooted⟩ ?_
  intro k e k' hk hstep
  obtain ⟨l, -, hmade⟩ := hstep.made hk.1
  exact ⟨hmade.sound hk.1, hmade.rooted hk.1 hk.2⟩

/-- The exits of a run are told of or left in the zombies. -/
theorem balanced_of_run (h : Run (Step S) k₀ es k) :
    (es.map Event.exits).sum = (es.map Event.reports).sum + k.tasks.zombies := by
  induction h with
  | nil =>
    rw [hstart.zombies]
    rfl
  | snoc hrun hstep ih =>
    have hs := (sound_of_run hstart hrun).1
    obtain ⟨l, hl, hmade⟩ := hstep.made hs
    rw [List.map_append, List.map_append, List.sum_append, List.sum_append, ih, add_assoc, add_assoc]
    refine congrArg _ ?_
    simpa [add_comm] using hmade.balanced hl hs

end

/-- The first process is a child only of itself. -/
theorem eq_zero_of_isChild {k : Processes} (hs : k.tasks.Sound) (hroot : k.tasks.Rooted)
    (hi : (k.tasks.task i).state ≠ .unused) (h : k.IsChild i pid 0) : i = 0 :=
  hs.unique i 0 hi hroot.used (h.2.2.1.symm.trans (hroot.parentPid.trans hroot.pid.symm))

/-! ### Runs without failures -/

/-- A kernel whose memory does not run out. -/
def unlimited : Services Unit where
  activate _ := pure true
  destroy _ := pure true
  kmalloc _ := pure 0xD1000018
  kfree _ := pure true
  build _ _ := pure (.ok ⟨0xD1000018, 0x400000, 0xBFFFFFF0, 0x8048000⟩)
  discard _ := pure ()

/-- The kernel after `scheduler_init` and `vfs_init`. -/
def booted : Kernel Unit where
  toProcesses := schedulerInit 0xC0110000 0
  tickCount := 0
  vfs := ⟨fun _ => clearFile, true, false⟩
  rest := ()

theorem alone_booted : Alone booted.toProcesses := alone_schedulerInit rfl

/-- The same at the end of the first time slice. -/
def lastTick : Kernel Unit := { booted with toProcesses := booted.setCurrent { booted.current with timeSlice := 1 } }

theorem alone_lastTick : Alone lastTick.toProcesses := by
  refine ⟨rfl, rfl, rfl, rfl, fun i hi => ?_⟩
  rw [← alone_booted.others i hi]
  exact congrArg Process.state (setCurrent_of_ne _ _ hi)

/-- The kernel after these calls, all of which return. -/
def after (k : Kernel Unit) (calls : List (Call Unit)) : Kernel Unit :=
  calls.foldl (fun k call => match perform unlimited call k with | .ok (_, k') => k' | .error _ => k) k

/-- A program with its name and an argument. -/
def program : SpawnRequest := ⟨some [0x61], some [0x7F], some [[0x61]]⟩

/-- No wakeup is lost, and each exit is told of once or waits for it in a zombie. -/
theorem wait_exit_protocol {k₀ : Kernel ρ} (hstart : Alone k₀.toProcesses) (h : Run (Step S) k₀ es k) :
    (∀ i n, (k.processTable i).state = .blocked → (k.processTable i).waitNode = some n →
      ∃ pid, (k.processTable i).savedStack = .waitpid pid ∧ (∃ c, k.IsChild i pid c) ∧
        ∀ c, k.IsChild i pid c → (k.processTable c).state ≠ .zombie) ∧
    (es.map Event.exits).sum = (es.map Event.reports).sum + k.tasks.zombies := by
  obtain ⟨hs, hroot⟩ := sound_of_run hstart h
  refine ⟨fun i n hi hn => ?_, balanced_of_run hstart h⟩
  obtain ⟨pid, hresume, -, -, ⟨c, hc⟩, hnone⟩ := hs.waiting i n hi hn
  refine ⟨pid, hresume, ⟨c, (tasks_child.1 hc).2⟩, fun c hc => ?_⟩
  by_cases hzero : c = 0
  · have hused : (k.tasks.task i).state ≠ .unused := by
      rw [show (k.tasks.task i).state = .blocked from hi]
      nofun
    rw [hzero, ← eq_zero_of_isChild hs hroot hused (hzero ▸ hc), hi]
    nofun
  · exact hnone c (tasks_child.2 ⟨hzero, hc⟩)

/-- The first process makes another, waits for it, and is told of its exit. -/
theorem wait_exit_protocol_booted :
    ((after booted [.spawn program, .wait 1]).processTable 0).waitNode = some 1 ∧
    (∃ pid, ((after booted [.spawn program, .wait 1]).processTable 0).savedStack = .waitpid pid ∧
      (∃ c, (after booted [.spawn program, .wait 1]).IsChild 0 pid c) ∧
      ∀ c, (after booted [.spawn program, .wait 1]).IsChild 0 pid c →
        ((after booted [.spawn program, .wait 1]).processTable c).state ≠ .zombie) ∧
    ([.spawn (.ok 1), .wait 0 1 none, .exit 1 0 7, .wait 0 1 (some (.ok (1, 7)))].map Event.exits).sum =
      ([.spawn (.ok 1), .wait 0 1 none, .exit 1 0 7, .wait 0 1 (some (.ok (1, 7)))].map Event.reports).sum +
        (after booted [.spawn program, .wait 1, .exit 7, .resume 1]).tasks.zombies := by
  have hspawn : Step unlimited booted (.spawn (.ok 1)) (after booted [.spawn program]) := ⟨.spawn program, rfl, rfl⟩
  have hwait : Step unlimited (after booted [.spawn program]) (.wait 0 1 none) (after booted [.spawn program, .wait 1]) :=
    ⟨.wait 1, rfl, rfl⟩
  have hexit : Step unlimited (after booted [.spawn program, .wait 1]) (.exit 1 0 7)
    (after booted [.spawn program, .wait 1, .exit 7]) := ⟨.exit 7, rfl, rfl⟩
  have hreport : Step unlimited (after booted [.spawn program, .wait 1, .exit 7]) (.wait 0 1 (some (.ok (1, 7))))
    (after booted [.spawn program, .wait 1, .exit 7, .resume 1]) := ⟨.resume 1, rfl, rfl⟩
  have hrun := (Run.nil.snoc hspawn).snoc hwait
  exact ⟨rfl, (wait_exit_protocol alone_booted hrun).1 0 1 rfl rfl,
    (wait_exit_protocol alone_booted ((hrun.snoc hexit).snoc hreport)).2⟩

/-! ## The idle loop -/

/-- What the running process gets from the scheduler while another process is ready. -/
def Served (k : Processes) (e : Event) : Prop :=
  (∀ ticks, 1 ≤ ticks → ticks ≤ 0x7FFFFFFF → e ≠ .sleep ticks (some false)) ∧
  ∀ caller pid, e = .wait caller pid (some (.error .echild)) → ∀ i, ¬ k.tasks.Child k.currentProcess pid i

/-- A wait that fails while another process is ready has no child to wait for. -/
theorem Waited.served {k₁ k' : Processes} {caller : Nat} (h : Waited k₁ k' pid result) (hi : i ≠ k₁.currentProcess)
    (hready : (k₁.processTable i).state = .ready) : Served k₁ (.wait caller pid result) := by
  refine ⟨nofun, fun caller' pid' heq => ?_⟩
  obtain ⟨-, rfl, rfl⟩ := Event.wait.inj heq
  exact h.2.resolve_right fun hnone => hnone i hi hready

/-- What the running process is about to do on its stack does not matter. -/
theorem Served.congr {k k₁ : Processes} {resume : Resume}
    (htasks : k₁.tasks = k.tasks.set k.tasks.current { k.tasks.cur with resume := resume }) (h : Served k₁ e) :
    Served k e := by
  have hcurrent : k₁.currentProcess = k.currentProcess := congrArg Tasks.current htasks
  have htask : ∀ i, (k₁.tasks.task i).state = (k.tasks.task i).state ∧ (k₁.tasks.task i).pid = (k.tasks.task i).pid ∧
      (k₁.tasks.task i).parentPid = (k.tasks.task i).parentPid := fun i => by
    rw [htasks]
    by_cases hi : i = k.tasks.current
    · rw [hi, set_task_self]
      exact ⟨rfl, rfl, rfl⟩
    · rw [set_task_of_ne _ _ hi]
      exact ⟨rfl, rfl, rfl⟩
  refine ⟨h.1, fun caller pid heq i hchild => h.2 caller pid heq i ?_⟩
  rw [hcurrent]
  simpa only [Child, (htask _).1, (htask _).2.1, (htask _).2.2] using hchild

theorem perform_tick (S : Services ρ) : wpe (perform S .tick) (fun e _ => e = .tick) (fun _ => True) k :=
  (wpe_bind ..).2 (wpe.of_forall _ (fun _ _ => rfl) fun _ => trivial)

theorem perform_tick_error (S : Services ρ) (hrun : k.current.state = .running) :
    wpe (perform S .tick) (fun _ _ => True) (· ≠ .lastKernelThreadExited) k :=
  (onTick_quiet S hrun).bind fun _ _ _ => trivial

theorem perform_served (S : Services ρ) (hallowed : call.Allowed k.toProcesses)
    (hrun : k.current.state = .running) (hi : i ≠ k.currentProcess) (hready : (k.processTable i).state = .ready) :
    wpe (perform S call) (fun e _ => Served k.toProcesses e) (fun _ => True) k := by
  have hany : ∀ {α : Type} {m : Kern (Kernel ρ) α} {f : α → Event}, (∀ a, Served k.toProcesses (f a)) →
      wpe (m >>= fun a => pure (f a)) (fun e _ => Served k.toProcesses e) (fun _ => True) k := fun hf =>
    (wpe_bind ..).2 (wpe.of_forall _ (fun a _ => hf a) fun _ => trivial)
  cases call with
  | tick => exact hany fun _ => ⟨nofun, nofun⟩
  | spawn request => exact hany fun _ => ⟨nofun, nofun⟩
  | thread name flags => exact hany fun _ => ⟨nofun, nofun⟩
  | yield => exact hany fun _ => ⟨nofun, nofun⟩
  | sleep ticks =>
    refine ((sleepCurrent_moves S hrun ticks).mono_error fun _ _ => trivial).bind fun result k' h => ⟨?_, nofun⟩
    intro ticks' _ hmax heq
    obtain ⟨rfl, rfl⟩ := Event.sleep.inj heq
    rcases h.2 rfl with hmore | hnone
    · exact absurd hmax (Nat.not_le.2 hmore)
    · exact hnone i hready
  | wait pid =>
    unfold perform
    rw [wpe_bind, wpe_get]
    unfold waitpid
    split
    · exact ⟨nofun, nofun⟩
    · exact ((waitpidLoop_waited S hrun hallowed pid).mono_error fun _ _ => trivial).bind
        fun _ _ h => h.served hi hready
  | resume pid =>
    unfold perform
    rw [wpe_bind, wpe_get]
    refine ((resumeWaitpid_waited S hrun pid).mono_error fun _ _ => trivial).bind fun result k' h => ?_
    obtain ⟨k₁, htasks, hwaited⟩ := h
    have hcurrent : k₁.currentProcess = k.currentProcess := congrArg Tasks.current htasks
    have hsame : k₁.tasks.task i = k.tasks.task i := (congrArg (·.task i) htasks).trans (set_task_of_ne _ _ hi)
    exact (hwaited.served (hcurrent ▸ hi) ((congrArg Task.state hsame).trans hready)).congr htasks
  | exit code =>
    unfold perform
    rw [wpe_bind, wpe_get]
    exact hany fun _ => ⟨nofun, nofun⟩
  | fault frame =>
    unfold perform
    rw [wpe_bind, wpe_get]
    exact hany fun _ => ⟨nofun, nofun⟩
  | work => exact hany fun _ => ⟨nofun, nofun⟩

/-- While the first process only waits for interrupts, it can always run. -/
theorem manned_of_idle {k₁ : Kernel ρ} (hs : k₁.tasks.Sound) (hroot : k₁.tasks.Rooted) (hidle : k₁.currentProcess = 0)
    (h : Run (IdleStep S) k₁ es k) : k.tasks.Sound ∧ k.tasks.Rooted ∧ k.tasks.Manned := by
  have hstart : k₁.tasks.Manned := .inr ((hs.running 0).2 hidle.symm)
  refine h.invariant (I := fun k => k.tasks.Sound ∧ k.tasks.Rooted ∧ k.tasks.Manned) ⟨hs, hroot, hstart⟩ ?_
  rintro k e k' ⟨hs, hroot, hmanned⟩ ⟨call, hallowed, hzero, hok⟩
  obtain ⟨l, hl, hmade⟩ := (perform_made S hallowed hs.cur_state).of_ok hok
  refine ⟨hmade.sound hs, hmade.rooted hs hroot, hmade.manned hs hmanned fun hc => ?_⟩
  have htick : e = .tick := by
    rw [hzero hc] at hok
    exact (perform_tick S).of_ok hok
  rw [htick] at hl
  cases hl with
  | tick => rfl

/-- From the idle loop of `kernel_main` on, one process runs, the first can always run, and so no call fails for want
of a process to switch to. -/
theorem idle_invariant {k₀ k₁ : Kernel ρ} {boot : List Event} (hstart : Alone k₀.toProcesses)
    (hboot : Run (Step S) k₀ boot k₁) (hidle : k₁.currentProcess = 0) (h : Run (IdleStep S) k₁ es k) :
    (∀ i, (k.processTable i).state = .running ↔ i = k.currentProcess) ∧
    ((k.processTable 0).state = .ready ∨ (k.processTable 0).state = .running) ∧
    (∀ call : Call ρ, call.Allowed k.toProcesses → (k.currentProcess = 0 → call = .tick) →
      perform S call k ≠ .error .lastKernelThreadExited) ∧
    ∀ e k', IdleStep S k e k' →
      (∀ ticks, 1 ≤ ticks → ticks ≤ 0x7FFFFFFF → e ≠ .sleep ticks (some false)) ∧
      ∀ caller pid, e = .wait caller pid (some (.error .echild)) → ∀ i, ¬ k.IsChild k.currentProcess pid i := by
  obtain ⟨hs₁, hroot₁⟩ := sound_of_run hstart hboot
  obtain ⟨hs, hroot, hmanned⟩ := manned_of_idle hs₁ hroot₁ hidle h
  -- when another process runs, the first is ready
  have hready : k.currentProcess ≠ 0 → (k.processTable 0).state = .ready := fun hc =>
    hmanned.resolve_right fun hrunning => hc ((hs.running 0).1 hrunning).symm
  refine ⟨hs.running, hmanned, fun call hallowed hzero herror => ?_, fun e k' hstep => ?_⟩
  · by_cases hc : k.currentProcess = 0
    · rw [hzero hc] at herror
      exact (perform_tick_error S hs.cur_state).of_error herror rfl
    · exact (perform_made S hallowed hs.cur_state).of_error herror rfl 0 (Ne.symm hc) (hready hc)
  · obtain ⟨call, hallowed, hzero, hok⟩ := hstep
    by_cases hc : k.currentProcess = 0
    · rw [hzero hc] at hok
      rw [(perform_tick S).of_ok hok]
      exact ⟨nofun, nofun⟩
    · obtain ⟨hsleep, hwait⟩ := (perform_served S hallowed hs.cur_state (Ne.symm hc) (hready hc)).of_ok hok
      refine ⟨hsleep, fun caller pid heq i hchild => ?_⟩
      by_cases hi : i = 0
      · have hused : (k.tasks.task k.currentProcess).state ≠ .unused := by
          rw [show (k.tasks.task k.currentProcess).state = .running from hs.cur_state]
          nofun
        exact hc (eq_zero_of_isChild hs hroot hused (hi ▸ hchild))
      · exact hwait caller pid heq i (tasks_child.2 ⟨hi, hchild⟩)

/-- After the last tick of its time slice the first process is ready, and the shell runs. -/
theorem idle_invariant_lastTick :
    let k := after lastTick [.spawn program, .tick]
    k.currentProcess = 1 ∧
    (∀ i, (k.processTable i).state = .running ↔ i = k.currentProcess) ∧
    ((k.processTable 0).state = .ready ∨ (k.processTable 0).state = .running) ∧
    (∀ call : Call Unit, call.Allowed k.toProcesses → (k.currentProcess = 0 → call = .tick) →
      perform unlimited call k ≠ .error .lastKernelThreadExited) ∧
    ∀ e k', IdleStep unlimited k e k' →
      (∀ ticks, 1 ≤ ticks → ticks ≤ 0x7FFFFFFF → e ≠ .sleep ticks (some false)) ∧
      ∀ caller pid, e = .wait caller pid (some (.error .echild)) → ∀ i, ¬ k.IsChild k.currentProcess pid i := by
  have hspawn : Step unlimited lastTick (.spawn (.ok 1)) (after lastTick [.spawn program]) := ⟨.spawn program, rfl, rfl⟩
  have htick : IdleStep unlimited (after lastTick [.spawn program]) .tick (after lastTick [.spawn program, .tick]) :=
    ⟨.tick, rfl, fun _ => rfl, rfl⟩
  exact ⟨rfl, idle_invariant alone_lastTick (.single hspawn) rfl (.single htick)⟩

/-! ## Parents that exit -/

/-- Every zombie has a parent that can wait for it. -/
def ZombiesParented (k : Processes) : Prop :=
  ∀ i, (k.processTable i).state = .zombie →
    ∃ j, (k.processTable j).state ≠ .unused ∧ (k.processTable j).state ≠ .zombie ∧
      (k.processTable j).pid = (k.processTable i).parentPid

/-- A step that is not the exit of a process with children. -/
def ChildlessStep (S : Services ρ) (k : Kernel ρ) (e : Event) (k' : Kernel ρ) : Prop :=
  Step S k e k' ∧ ∀ pid parentPid code, e = .exit pid parentPid code →
    ∀ i, (k.processTable i).state ≠ .unused → (k.processTable i).parentPid ≠ k.current.pid

/-- If only processes without children exit, every zombie has a parent that can wait for it. -/
theorem zombiesParented_of_childless {k₀ : Kernel ρ} (hstart : Alone k₀.toProcesses)
    (h : Run (ChildlessStep S) k₀ es k) : ZombiesParented k.toProcesses := by
  have hinv : k.tasks.Sound ∧ k.tasks.Parented := by
    refine h.invariant (I := fun k => k.tasks.Sound ∧ k.tasks.Parented) ⟨hstart.sound, hstart.parented⟩ ?_
    intro k e k' ⟨hs, hp⟩ ⟨hstep, hchildless⟩
    obtain ⟨l, hl, hmade⟩ := hstep.made hs
    refine ⟨hmade.sound hs, hmade.parented hs hp fun r hr => ?_⟩
    rw [hr] at hl
    cases hl with
    | exit => exact hchildless _ _ _ rfl
  intro i hi
  obtain ⟨j, hlive, hpid⟩ := hinv.2 i (by rw [show (k.tasks.task i).state = .zombie from hi]; nofun)
  exact ⟨j, hlive.1, hlive.2, hpid⟩

/-- A child that exits, and then its zombie. -/
theorem zombiesParented_booted :
    ((after booted [.spawn program, .yield, .exit 7]).processTable 1).state = .zombie ∧
      ZombiesParented (after booted [.spawn program, .yield, .exit 7]).toProcesses := by
  have hspawn : ChildlessStep unlimited booted (.spawn (.ok 1)) (after booted [.spawn program]) :=
    ⟨⟨.spawn program, rfl, rfl⟩, nofun⟩
  have hyield : ChildlessStep unlimited (after booted [.spawn program]) .yield (after booted [.spawn program, .yield]) :=
    ⟨⟨.yield, rfl, rfl⟩, nofun⟩
  have hexit : ChildlessStep unlimited (after booted [.spawn program, .yield]) (.exit 1 0 7)
      (after booted [.spawn program, .yield, .exit 7]) := by
    refine ⟨⟨.exit 7, rfl, rfl⟩, fun _ _ _ _ => ?_⟩
    decide
  exact ⟨rfl, zombiesParented_of_childless alone_booted (((Run.nil.snoc hspawn).snoc hyield).snoc hexit)⟩

/-- A process makes another and exits before it: then nobody can wait for the other. -/
theorem zombie_without_parent :
    Run (Step unlimited) booted [.spawn (.ok 1), .yield, .spawn (.ok 2), .exit 1 0 7, .exit 2 1 8]
      (after booted [.spawn program, .yield, .spawn program, .exit 7, .exit 8]) ∧
    ¬ ZombiesParented (after booted [.spawn program, .yield, .spawn program, .exit 7, .exit 8]).toProcesses := by
  have hspawn : Step unlimited booted (.spawn (.ok 1)) (after booted [.spawn program]) := ⟨.spawn program, rfl, rfl⟩
  have hyield : Step unlimited (after booted [.spawn program]) .yield (after booted [.spawn program, .yield]) := ⟨.yield, rfl, rfl⟩
  have hspawn' : Step unlimited (after booted [.spawn program, .yield]) (.spawn (.ok 2))
    (after booted [.spawn program, .yield, .spawn program]) := ⟨.spawn program, rfl, rfl⟩
  have hexit : Step unlimited (after booted [.spawn program, .yield, .spawn program]) (.exit 1 0 7)
    (after booted [.spawn program, .yield, .spawn program, .exit 7]) := ⟨.exit 7, rfl, rfl⟩
  have hexit' : Step unlimited (after booted [.spawn program, .yield, .spawn program, .exit 7]) (.exit 2 1 8)
    (after booted [.spawn program, .yield, .spawn program, .exit 7, .exit 8]) := ⟨.exit 8, rfl, rfl⟩
  refine ⟨((((Run.nil.snoc hspawn).snoc hyield).snoc hspawn').snoc hexit).snoc hexit', fun h => ?_⟩
  obtain ⟨j, hj⟩ := h 2 rfl
  revert hj
  revert j
  decide

end Scheduler

end MiniOrange

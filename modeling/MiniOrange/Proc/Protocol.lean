import MiniOrange.Logic.Run
import MiniOrange.Proc.Scheduler

/-!
# The protocol of the scheduler

What matters of a process to the others is its pid, its parent, its state, what it waits for and what is left to do on its
stack (`Task`). On these the functions of `scheduler.c` make moves of a few kinds (`Move`). This module has the moves
and what all of them keep (`Tasks.Sound`): one process runs, pids are unique, and a process that waits has a child to wait
for, none of them a zombie. An exit is recorded when it is made and when a parent is told of it; what is not yet told is
what the zombies hold (`Tasks.Sound.balanced`). If the first process does not block or exit it can always run
(`Tasks.Manned`), and if no process exits before its children every process keeps its parent (`Tasks.Parented`).
-/

namespace MiniOrange

/-- What the others see of a process. -/
structure Task where
  pid : Nat
  state : ProcessState
  exitCode : Int
  parentPid : Nat
  waitNode : Option ProcessSlot
  resume : Resume

/-- The processes as they see each other. -/
structure Tasks where
  task : ProcessSlot → Task
  current : ProcessSlot
  nextPid : Nat

/-- Who has exited, the parent, and the code. -/
structure Exit where
  pid : Nat
  parentPid : Nat
  code : Int
  deriving DecidableEq

/-- What is seen of a move: nothing, that the running process blocks, that there is a new one, an exit, or its report to
the parent. -/
inductive Label where
  | quiet
  | block
  | spawn
  | exit (record : Exit)
  | report (record : Exit)

variable {nextPid : Nat} {code : Int}

namespace Tasks

/-- Change a task. -/
def set (a : Tasks) (i : ProcessSlot) (t : Task) : Tasks := { a with task := Function.update a.task i t }

@[simp] theorem set_task_self (a : Tasks) (i : ProcessSlot) (t : Task) : (a.set i t).task i = t :=
  Function.update_self ..

theorem set_task_of_ne {i j : ProcessSlot} (a : Tasks) (t : Task) (h : j ≠ i) : (a.set i t).task j = a.task j :=
  Function.update_of_ne h ..

@[simp] theorem set_current (a : Tasks) (i : ProcessSlot) (t : Task) : (a.set i t).current = a.current := rfl

@[simp] theorem set_nextPid (a : Tasks) (i : ProcessSlot) (t : Task) : (a.set i t).nextPid = a.nextPid := rfl

/-- The running task. -/
def cur (a : Tasks) : Task := a.task a.current

/-- Leave the running task as `t` and go on with `next`. -/
def switch (a : Tasks) (t : Task) (next : ProcessSlot) : Tasks :=
  { (a.set a.current t).set next { a.task next with state := .running } with current := next }

/-- A child of the task at `parent` that a wait for `pid` is about. -/
def Child (a : Tasks) (parent : ProcessSlot) (pid : Int) (i : ProcessSlot) : Prop :=
  i ≠ 0 ∧ (a.task i).state ≠ .unused ∧ (a.task i).state ≠ .reaped ∧ (a.task i).parentPid = (a.task parent).pid ∧
    (pid = -1 ∨ ((a.task i).pid : Int) = pid)

/-- The parent that waits for the task at `c` wakes up. -/
def wake (a : Tasks) (c : ProcessSlot) : Tasks :=
  { a with task := fun i =>
      if (a.task i).state = .blocked ∧ (a.task i).pid = (a.task c).parentPid ∧
          ((a.task i).waitNode = some c ∨ (a.task i).waitNode = some i) then
        { a.task i with waitNode := none, state := .ready }
      else a.task i }

/-- The running task has exited. -/
def exited (a : Tasks) (code : Int) : Tasks :=
  (a.set a.current { a.cur with exitCode := code, state := .zombie, resume := .exited }).wake a.current

/-- The record of the exit of the task at `i`. -/
def record (a : Tasks) (i : ProcessSlot) : Exit := ⟨(a.task i).pid, (a.task i).parentPid, (a.task i).exitCode⟩

/-- The task of an empty slot. -/
def emptyTask : Task := ⟨0, .unused, 0, 0, none, .returns⟩

/-- The next pid: a new one, or one that is not in use. -/
inductive Fresh (a : Tasks) : Nat → Nat → Prop
  | new : a.nextPid ≠ 0 → Fresh a a.nextPid (if a.nextPid = 0x7FFFFFFF then 0 else a.nextPid + 1)
  | recycled {pid : Nat} : a.nextPid = 0 → pid ≠ 0 → (∀ i, (a.task i).state ≠ .unused → (a.task i).pid ≠ pid) →
      Fresh a pid 0

/-- What the functions of the scheduler do. -/
inductive Move (a : Tasks) : Label → Tasks → Prop
  /-- A process is made. -/
  | spawn {i : ProcessSlot} {pid nextPid : Nat} : i ≠ 0 → (a.task i).state = .unused → a.Fresh pid nextPid →
      Move a .spawn { a.set i ⟨pid, .ready, 0, a.cur.pid, none, .returns⟩ with nextPid := nextPid }
  /-- Another process runs. -/
  | preempt {next : ProcessSlot} : (a.task next).state = .ready →
      Move a .quiet (a.switch { a.cur with state := .ready, resume := .returns } next)
  /-- The running process sleeps. -/
  | sleep {next : ProcessSlot} : (a.task next).state = .ready →
      Move a .block (a.switch { a.cur with state := .blocked, waitNode := none, resume := .returns } next)
  /-- Some of those that sleep wake up. -/
  | rouse {W : ProcessSlot → Prop} [DecidablePred W] :
      (∀ i, W i → i ≠ 0 ∧ (a.task i).state = .blocked ∧ (a.task i).waitNode = none) →
      Move a .quiet { a with task := fun i => if W i then { a.task i with state := .ready } else a.task i }
  /-- The running process waits for a child. -/
  | wait {pid : Int} {child next : ProcessSlot} : a.Child a.current pid child →
      (∀ i, a.Child a.current pid i → (a.task i).state ≠ .zombie) → (a.task next).state = .ready →
      Move a .block (a.switch { a.cur with
        state := .blocked
        waitNode := some (if pid = -1 then a.current else child)
        resume := .waitpid pid } next)
  /-- The running process goes on with a call of `scheduler_waitpid`, or returns from it with an error. -/
  | resume {waitNode : Option ProcessSlot} :
      Move a .quiet (a.set a.current { a.cur with waitNode := waitNode, resume := .returns })
  /-- The running process reaps a child. -/
  | reap {pid : Int} {child : ProcessSlot} : a.Child a.current pid child → (a.task child).state = .zombie →
      child ≠ a.current → Move a (.report (a.record child)) (a.set child emptyTask)
  /-- The running process exits. -/
  | exit {code : Int} {next : ProcessSlot} : ((a.exited code).task next).state = .ready →
      Move a (.exit ⟨a.cur.pid, a.cur.parentPid, code⟩) ((a.exited code).switch ((a.exited code).task a.current) next)

/-! ## What the moves keep -/

/-- The task at `i`, which waits at `n`, has a child to wait for, and none that it should be told of. -/
def Waiting (a : Tasks) (i n : ProcessSlot) : Prop :=
  ∃ pid, (a.task i).resume = .waitpid pid ∧ (pid = -1 → n = i) ∧ (pid ≠ -1 → a.Child i pid n) ∧
    (∃ c, a.Child i pid c) ∧ ∀ c, a.Child i pid c → (a.task c).state ≠ .zombie

/-- The invariant of the scheduler. -/
structure Sound (a : Tasks) : Prop where
  running : ∀ i, (a.task i).state = .running ↔ i = a.current
  settled : ∀ i, (a.task i).state ≠ .new ∧ (a.task i).state ≠ .reaped
  unique : ∀ i j, (a.task i).state ≠ .unused → (a.task j).state ≠ .unused → (a.task i).pid = (a.task j).pid → i = j
  below : a.nextPid ≠ 0 → ∀ i, (a.task i).state ≠ .unused → (a.task i).pid < a.nextPid
  waiting : ∀ i n, (a.task i).state = .blocked → (a.task i).waitNode = some n → a.Waiting i n

variable {a b : Tasks} {i j n next c : ProcessSlot} {t : Task} {l : Label}

/-- The process does not come, go or exit. -/
structure CalmTask (t t' : Task) : Prop where
  pid : t'.pid = t.pid
  parentPid : t'.parentPid = t.parentPid
  exitCode : t'.exitCode = t.exitCode
  unused : t'.state = .unused ↔ t.state = .unused
  zombie : t'.state = .zombie ↔ t.state = .zombie
  settled : t.state ≠ .new ∧ t.state ≠ .reaped → t'.state ≠ .new ∧ t'.state ≠ .reaped

theorem CalmTask.refl (t : Task) : CalmTask t t := ⟨rfl, rfl, rfl, Iff.rfl, Iff.rfl, id⟩

/-- A process that is there and has not exited goes from one state to another. -/
theorem CalmTask.of_state {t t' : Task} (hpid : t'.pid = t.pid) (hparent : t'.parentPid = t.parentPid)
    (hcode : t'.exitCode = t.exitCode) (hstate : t.state = .ready ∨ t.state = .running ∨ t.state = .blocked)
    (hstate' : t'.state = .ready ∨ t'.state = .running ∨ t'.state = .blocked) : CalmTask t t' := by
  refine ⟨hpid, hparent, hcode, ?_, ?_, fun _ => ?_⟩
  · rcases hstate with h | h | h <;> rcases hstate' with h' | h' | h' <;> simp [h, h']
  · rcases hstate with h | h | h <;> rcases hstate' with h' | h' | h' <;> simp [h, h']
  · rcases hstate' with h' | h' | h' <;> simp [h']

/-- No process comes, goes or exits. -/
structure Calm (a b : Tasks) : Prop where
  nextPid : b.nextPid = a.nextPid
  task : ∀ i, CalmTask (a.task i) (b.task i)

variable {pid : Int}

namespace Calm

/-- A calm move keeps who is the child of whom. -/
theorem child (h : Calm a b) (hset : ∀ i, (a.task i).state ≠ .new ∧ (a.task i).state ≠ .reaped) :
    b.Child i pid c ↔ a.Child i pid c := by
  have hb := ((h.task c).settled (hset c)).2
  have ha := (hset c).2
  simp only [Child, ne_eq, (h.task c).unused, (h.task c).parentPid, (h.task c).pid, (h.task i).pid, ha, hb]

/-- A calm move keeps everything but who runs and who waits. -/
theorem sound (h : Calm a b) (ha : a.Sound) (hrunning : ∀ i, (b.task i).state = .running ↔ i = b.current)
    (hwaiting : ∀ i n, (b.task i).state = .blocked → (b.task i).waitNode = some n →
      b.task i = a.task i ∨ b.Waiting i n) : b.Sound where
  running := hrunning
  settled i := (h.task i).settled (ha.settled i)
  unique i j hi hj heq := by
    rw [ne_eq, (h.task _).unused] at hi hj
    rw [(h.task i).pid, (h.task j).pid] at heq
    exact ha.unique i j hi hj heq
  below hne i hi := by
    rw [ne_eq, (h.task i).unused] at hi
    rw [h.nextPid] at hne ⊢
    rw [(h.task i).pid]
    exact ha.below hne i hi
  waiting i n hi hn := by
    rcases hwaiting i n hi hn with hsame | hnew
    · rw [hsame] at hi hn
      obtain ⟨pid, hpid, hself, hother, ⟨c, hc⟩, hnone⟩ := ha.waiting i n hi hn
      refine ⟨pid, by rw [hsame]; exact hpid, hself, fun hne => (h.child ha.settled).2 (hother hne),
        ⟨c, (h.child ha.settled).2 hc⟩, fun c hc => ?_⟩
      rw [ne_eq, (h.task c).zombie]
      exact hnone c ((h.child ha.settled).1 hc)
    · exact hnew

end Calm

/-- The tasks that a switch changes are the running one and the next. -/
theorem switch_task (a : Tasks) (t : Task) (next i : ProcessSlot) : (a.switch t next).task i =
    if i = next then { a.task next with state := .running } else if i = a.current then t else a.task i := by
  split
  · next hi =>
    rw [hi]
    exact set_task_self ..
  · next hi =>
    refine (set_task_of_ne _ _ hi).trans ?_
    split
    · next hc =>
      rw [hc]
      exact set_task_self ..
    · next hc => exact set_task_of_ne _ _ hc

/-- What a switch leaves of the running task is not what it was before. -/
theorem set_switch (a : Tasks) (t t' : Task) (h : next ≠ a.current) :
    (a.set a.current t).switch t' next = a.switch t' next := by
  refine congrArg (fun f => Tasks.mk f next a.nextPid) (funext fun i => ?_)
  show (Tasks.switch _ _ _).task i = (Tasks.switch _ _ _).task i
  rw [switch_task, switch_task, set_task_of_ne _ _ h]
  split
  · rfl
  · split
    · next hi => rw [if_pos (by exact hi)]
    · next hi =>
      rw [if_neg (by exact hi)]
      exact set_task_of_ne _ _ hi

@[simp] theorem switch_current (a : Tasks) (t : Task) (next : ProcessSlot) : (a.switch t next).current = next := rfl

section
variable (ha : a.Sound)
include ha

theorem Sound.cur_state : a.cur.state = .running := (ha.running a.current).2 rfl

theorem Sound.ready_ne (hnext : (a.task next).state = .ready) : next ≠ a.current := by
  intro heq
  rw [heq, show (a.task a.current).state = .running from ha.cur_state] at hnext
  cases hnext

/-- A switch from a task that has not exited is calm. -/
theorem Sound.calm_switch (hnext : (a.task next).state = .ready) (hpid : t.pid = a.cur.pid)
    (hparent : t.parentPid = a.cur.parentPid) (hcode : t.exitCode = a.cur.exitCode)
    (hstate : t.state = .ready ∨ t.state = .blocked) : Calm a (a.switch t next) := by
  refine ⟨rfl, fun i => ?_⟩
  rw [switch_task]
  split
  · next hi =>
    rw [hi]
    exact .of_state rfl rfl rfl (.inl hnext) (.inr (.inl rfl))
  · split
    · next hi =>
      rw [hi]
      exact .of_state hpid hparent hcode (.inr (.inl ha.cur_state)) (hstate.imp_right .inr)
    · exact .refl _

/-- A calm switch keeps the invariant, if the task that is left has something to wait for. -/
theorem Sound.switch (hcalm : Calm a (a.switch t next)) (hstate : t.state ≠ .running)
    (hwaiting : ∀ n, t.state = .blocked → t.waitNode = some n → (a.switch t next).Waiting a.current n) :
    (a.switch t next).Sound := by
  refine hcalm.sound ha (fun i => ?_) fun i n hi hn => ?_
  · rw [switch_task, switch_current]
    split
    · next hi => simp [hi]
    · next hi =>
      split
      · next hc => simp [hstate, hi]
      · next hc => simp [ha.running, hi, hc]
  · rw [switch_task] at hi hn ⊢
    split at hi
    · cases hi
    · next hi' =>
      rw [if_neg hi'] at hn ⊢
      split at hi
      · next hc =>
        rw [if_pos hc] at hn
        rw [hc]
        exact .inr (hwaiting n hi hn)
      · next hc => exact .inl (if_neg hc)

/-- A process that waits does not have the pid of the running one. -/
theorem Sound.blocked_pid_ne (hj : (a.task j).state = .blocked) : (a.task j).pid ≠ a.cur.pid := by
  have hcur : (a.task a.current).state = .running := ha.cur_state
  intro heq
  have hsame : j = a.current := ha.unique _ _ (by simp [hj]) (by simp [hcur]) heq
  rw [hsame, hcur] at hj
  cases hj

/-- A process comes or goes that nobody waits for. -/
theorem Sound.set_slot (hc : c ≠ a.current) (hold : (a.task c).state ≠ .blocked)
    (hstate : t.state = .unused ∨ t.state = .ready)
    (hbefore : ∀ j pid, (a.task j).state = .blocked → ¬ a.Child j pid c)
    (hafter : ∀ j, (a.task j).state = .blocked → t.state ≠ .unused → t.parentPid ≠ (a.task j).pid)
    (hpid : t.state ≠ .unused → ∀ j, (a.task j).state ≠ .unused → (a.task j).pid ≠ t.pid)
    (hnext : nextPid ≠ 0 → a.nextPid ≠ 0 ∧ a.nextPid ≤ nextPid ∧ (t.state ≠ .unused → t.pid < nextPid)) :
    Sound { a.set c t with nextPid := nextPid } := by
  let b : Tasks := { a.set c t with nextPid := nextPid }
  have hself : b.task c = t := set_task_self ..
  have hother : ∀ {j}, j ≠ c → b.task j = a.task j := set_task_of_ne a _
  have hchild : ∀ {j d pid}, (a.task j).state = .blocked → (b.Child j pid d ↔ a.Child j pid d) := by
    intro j d pid hj
    have hjc : j ≠ c := fun heq => hold (heq ▸ hj)
    by_cases hd : d = c
    · rw [hd]
      refine iff_of_false (fun hnew => ?_) (hbefore j pid hj)
      obtain ⟨-, hused, -, hparent, -⟩ := hnew
      rw [hself] at hused hparent
      rw [hother hjc] at hparent
      exact hafter j hj hused hparent
    · rw [Child, Child, hother hd, hother hjc]
  have hsound : b.Sound :=
    { running := fun j => by
        show (b.task j).state = .running ↔ j = a.current
        by_cases hj : j = c
        · rw [hj, hself]
          rcases hstate with hs | hs <;> simp [hs, hc]
        · rw [hother hj, ha.running]
      settled := fun j => by
        by_cases hj : j = c
        · rw [hj, hself]
          rcases hstate with hs | hs <;> simp [hs]
        · rw [hother hj]
          exact ha.settled j
      unique := fun j j' hj hj' heq => by
        by_cases hjc : j = c
        · by_cases hjc' : j' = c
          · rw [hjc, hjc']
          · rw [hjc, hself] at hj heq
            rw [hother hjc'] at hj' heq
            exact absurd heq.symm (hpid hj j' hj')
        · rw [hother hjc] at hj heq
          by_cases hjc' : j' = c
          · rw [hjc', hself] at hj' heq
            exact absurd heq (hpid hj' j hj)
          · rw [hother hjc'] at hj' heq
            exact ha.unique j j' hj hj' heq
      below := fun hne j hj => by
        obtain ⟨hne', hle, hlt⟩ := hnext hne
        by_cases hjc : j = c
        · rw [hjc, hself] at hj ⊢
          exact hlt hj
        · rw [hother hjc] at hj ⊢
          exact (ha.below hne' j hj).trans_le hle
      waiting := fun j n hj hn => by
        have hjc : j ≠ c := fun heq => by
          rw [heq, hself] at hj
          rcases hstate with hs | hs <;> rw [hs] at hj <;> cases hj
        rw [hother hjc] at hj hn
        obtain ⟨pid, hresume, hminus, hone, ⟨d, hd⟩, hnone⟩ := ha.waiting j n hj hn
        refine ⟨pid, by rw [hother hjc, hresume], hminus, fun hp => (hchild hj).2 (hone hp), ⟨d, (hchild hj).2 hd⟩,
          fun d hd => ?_⟩
        have hd := (hchild hj).1 hd
        rw [hother fun heq => hbefore j pid hj (heq ▸ hd)]
        exact hnone d hd }
  exact hsound

/-- A new process. -/
theorem Sound.spawn {pid : Nat} (hi : (a.task i).state = .unused) (hfresh : a.Fresh pid nextPid) :
    Sound { a.set i ⟨pid, .ready, 0, a.cur.pid, none, .returns⟩ with nextPid := nextPid } := by
  have hcur : (a.task a.current).state = .running := ha.cur_state
  refine ha.set_slot (fun heq => ?_) (by simp [hi]) (.inr rfl) (fun _ _ _ hchild => hchild.2.1 hi)
    (fun j hj _ => (ha.blocked_pid_ne hj).symm) (fun _ => ?_) fun hne => ?_
  · rw [heq, hcur] at hi
    cases hi
  · cases hfresh with
    | new hnext => exact fun j hj => (ha.below hnext j hj).ne
    | recycled _ _ hfree => exact hfree
  · cases hfresh with
    | recycled => exact absurd rfl hne
    | new hzero =>
      split at hne
      · exact absurd rfl hne
      · next hmax =>
        rw [if_neg hmax]
        exact ⟨hzero, Nat.le_succ _, fun _ => Nat.lt_succ_self _⟩

/-- A child that is reaped. -/
theorem Sound.reap (hchild : a.Child a.current pid c) (hzombie : (a.task c).state = .zombie)
    (hc : c ≠ a.current) : (a.set c emptyTask).Sound :=
  ha.set_slot hc (by simp [hzombie]) (.inl rfl)
    (fun j _ hj hchild' => ha.blocked_pid_ne hj (hchild'.2.2.2.1.symm.trans hchild.2.2.2.1))
    (fun _ _ hne => absurd rfl hne) (fun hne => absurd rfl hne)
    fun hne => ⟨hne, le_rfl, fun hused => absurd rfl hused⟩

/-- Sleepers wake up. -/
theorem Sound.rouse {W : ProcessSlot → Prop} [DecidablePred W]
    (hW : ∀ i, W i → i ≠ 0 ∧ (a.task i).state = .blocked ∧ (a.task i).waitNode = none) :
    Calm a { a with task := fun i => if W i then { a.task i with state := .ready } else a.task i } ∧
    Sound { a with task := fun i => if W i then { a.task i with state := .ready } else a.task i } := by
  have hcalm : Calm a { a with task := fun i => if W i then { a.task i with state := .ready } else a.task i } := by
    refine ⟨rfl, fun i => ?_⟩
    show CalmTask (a.task i) (if W i then { a.task i with state := .ready } else a.task i)
    split
    · next hi => exact .of_state rfl rfl rfl (.inr (.inr (hW i hi).2.1)) (.inl rfl)
    · exact .refl _
  refine ⟨hcalm, hcalm.sound ha (fun i => ?_) fun i n hi hn => ?_⟩
  · show (if W i then { a.task i with state := .ready } else a.task i).state = .running ↔ i = a.current
    split
    · next hi =>
      have hne := (ha.running i).not.1 (by simp [(hW i hi).2.1])
      simp [hne]
    · exact ha.running i
  · change (if W i then { a.task i with state := .ready } else a.task i).state = .blocked at hi
    split at hi
    · cases hi
    · next hnot => exact .inl (if_neg hnot)

/-- The running process goes on with a call. -/
theorem Sound.resume (w : Option ProcessSlot) :
    Calm a (a.set a.current { a.cur with waitNode := w, resume := .returns }) ∧
    (a.set a.current { a.cur with waitNode := w, resume := .returns }).Sound := by
  have hcur := ha.cur_state
  have hcalm : Calm a (a.set a.current { a.cur with waitNode := w, resume := .returns }) := by
    refine ⟨rfl, fun i => ?_⟩
    by_cases hi : i = a.current
    · rw [hi, set_task_self]
      exact ⟨rfl, rfl, rfl, Iff.rfl, Iff.rfl, id⟩
    · rw [set_task_of_ne _ _ hi]
      exact .refl _
  refine ⟨hcalm, hcalm.sound ha (fun i => ?_) fun i n hi _ => ?_⟩
  · by_cases hi : i = a.current
    · rw [hi, set_task_self]
      simp [hcur]
    · rw [set_task_of_ne _ _ hi]
      exact ha.running i
  · by_cases hc : i = a.current
    · rw [hc, set_task_self] at hi
      rw [show ({ a.cur with waitNode := w, resume := .returns } : Task).state = .running from hcur] at hi
      cases hi
    · exact .inl (set_task_of_ne _ _ hc)

/-- The running process waits for a child. -/
theorem Sound.wait (hchild : a.Child a.current pid c)
    (hnone : ∀ i, a.Child a.current pid i → (a.task i).state ≠ .zombie) (hnext : (a.task next).state = .ready)
    (ht : t = { a.cur with
      state := .blocked, waitNode := some (if pid = -1 then a.current else c), resume := .waitpid pid }) :
    Calm a (a.switch t next) ∧ (a.switch t next).Sound := by
  subst ht
  have hcalm := ha.calm_switch (t := { a.cur with
    state := .blocked, waitNode := some (if pid = -1 then a.current else c), resume := .waitpid pid })
    hnext rfl rfl rfl (.inr rfl)
  have hiff : ∀ {d}, _ ↔ a.Child a.current pid d := hcalm.child ha.settled
  refine ⟨hcalm, ha.switch hcalm nofun fun n _ hn => ⟨pid, ?_, fun hp => ?_, fun hp => ?_, ⟨c, hiff.2 hchild⟩, ?_⟩⟩
  · rw [switch_task, if_neg (ha.ready_ne hnext).symm, if_pos rfl]
  · change some (if pid = -1 then a.current else c) = some n at hn
    rw [if_pos hp] at hn
    exact (Option.some.inj hn).symm
  · change some (if pid = -1 then a.current else c) = some n at hn
    rw [if_neg hp] at hn
    rw [← Option.some.inj hn]
    exact hiff.2 hchild
  · intro d hd
    rw [ne_eq, (hcalm.task d).zombie]
    exact hnone d (hiff.1 hd)

end

/-! ### Exits -/

/-- The parent of the running process waits for it. -/
def WaitsForCurrent (a : Tasks) (i : ProcessSlot) : Prop :=
  (a.task i).state = .blocked ∧ (a.task i).pid = a.cur.parentPid ∧
    ((a.task i).waitNode = some a.current ∨ (a.task i).waitNode = some i)

instance (a : Tasks) (i : ProcessSlot) : Decidable (a.WaitsForCurrent i) := inferInstanceAs (Decidable (_ ∧ _ ∧ _))

@[simp] theorem exited_current (a : Tasks) (code : Int) : (a.exited code).current = a.current := rfl

/-- The tasks after an exit. -/
theorem exited_task (a : Tasks) (code : Int) (i : ProcessSlot) : (a.exited code).task i =
    if i = a.current then { a.cur with exitCode := code, state := .zombie, resume := .exited }
    else if a.WaitsForCurrent i then { a.task i with waitNode := none, state := .ready } else a.task i := by
  show (if _ then _ else _) = _
  by_cases hi : i = a.current
  · simp [hi]
  · simp only [set_task_of_ne _ _ hi, set_task_self, if_neg hi]
    rfl

/-- The tasks after an exit and the switch behind it. -/
theorem exit_task (hnext : ((a.exited code).task next).state = .ready) :
    next ≠ a.current ∧
    ((a.exited code).switch ((a.exited code).task a.current) next).task a.current =
      { a.cur with exitCode := code, state := .zombie, resume := .exited } ∧
    ∀ i, i ≠ a.current →
      CalmTask (a.task i) (((a.exited code).switch ((a.exited code).task a.current) next).task i) := by
  have hcur := exited_task a code a.current
  rw [if_pos rfl] at hcur
  have hne : next ≠ a.current := fun heq => by
    rw [heq, hcur] at hnext
    cases hnext
  refine ⟨hne, ?_, fun i hi => ?_⟩
  · rw [switch_task, if_neg hne.symm]
    exact (ite_self _).trans hcur
  -- the others are left, or woken, and then perhaps run
  have hcalm : CalmTask (a.task i) ((a.exited code).task i) := by
    rw [exited_task, if_neg hi]
    split
    · next hwaits => exact .of_state rfl rfl rfl (.inr (.inr hwaits.1)) (.inl rfl)
    · exact .refl _
  rw [switch_task]
  split
  · next heq =>
    rw [← heq] at hnext ⊢
    refine ⟨hcalm.pid, hcalm.parentPid, hcalm.exitCode, ?_, ?_, fun _ => ⟨nofun, nofun⟩⟩
    · rw [← hcalm.unused, hnext]
      simp
    · rw [← hcalm.zombie, hnext]
      simp
  · rw [if_neg (by exact hi)]
    exact hcalm

section
variable (ha : a.Sound)
include ha

/-- Who is the child of whom is not changed by an exit. -/
theorem Sound.exit_kin (hnext : ((a.exited code).task next).state = .ready) (i : ProcessSlot) :
    ((((a.exited code).switch ((a.exited code).task a.current) next).task i).pid = (a.task i).pid) ∧
    ((((a.exited code).switch ((a.exited code).task a.current) next).task i).parentPid = (a.task i).parentPid) ∧
    ((((a.exited code).switch ((a.exited code).task a.current) next).task i).state = .unused ↔
      (a.task i).state = .unused) := by
  obtain ⟨-, hcur, hcalm⟩ := exit_task hnext
  have hrun : (a.task a.current).state = .running := ha.cur_state
  by_cases hi : i = a.current
  · rw [hi, hcur]
    exact ⟨rfl, rfl, by simp [hrun]⟩
  · exact ⟨(hcalm i hi).pid, (hcalm i hi).parentPid, (hcalm i hi).unused⟩

/-- The running process exits. -/
theorem Sound.exit (hnext : ((a.exited code).task next).state = .ready) :
    ((a.exited code).switch ((a.exited code).task a.current) next).Sound := by
  obtain ⟨-, hcur, hcalm⟩ := exit_task hnext
  have hkin := ha.exit_kin hnext
  have hrun : (a.task a.current).state = .running := ha.cur_state
  generalize hb : (a.exited code).switch ((a.exited code).task a.current) next = b at hcur hcalm hkin
  have hpid : ∀ i, (b.task i).pid = (a.task i).pid := fun i => (hkin i).1
  have hparent : ∀ i, (b.task i).parentPid = (a.task i).parentPid := fun i => (hkin i).2.1
  have hunused : ∀ i, (b.task i).state = .unused ↔ (a.task i).state = .unused := fun i => (hkin i).2.2
  have hsettled : ∀ i, (b.task i).state ≠ .new ∧ (b.task i).state ≠ .reaped := fun i => by
    by_cases hi : i = a.current
    · rw [hi, hcur]
      exact ⟨nofun, nofun⟩
    · exact (hcalm i hi).settled (ha.settled i)
  have hchild : ∀ {i c pid}, b.Child i pid c ↔ a.Child i pid c := fun {i c pid} => by
    simp only [Child, ne_eq, hunused, hparent, hpid, (hsettled c).2, (ha.settled c).2]
  refine
    { running := fun i => ?_
      settled := hsettled
      unique := fun i j hi hj heq => ?_
      below := fun hzero i hi => ?_
      waiting := fun i n hi hn => ?_ }
  · rw [← hb, switch_task, switch_current]
    split
    · next heq => simp [heq]
    · next heq =>
      split
      · next hc => simp [exited_task, heq]
      · next hc =>
        rw [exited_task, if_neg (by exact hc)]
        split
        · simp [heq]
        · simp only [ha.running, heq, iff_false]
          exact hc
  · rw [ne_eq, hunused] at hi hj
    rw [hpid, hpid] at heq
    exact ha.unique i j hi hj heq
  · rw [ne_eq, hunused] at hi
    rw [hpid, show b.nextPid = a.nextPid by rw [← hb]; rfl]
    exact ha.below (by rw [← hb] at hzero; exact hzero) i hi
  · have hic : i ≠ a.current := fun heq => by
      rw [heq, hcur] at hi
      cases hi
    -- a process that still waits was not woken
    have hsame : b.task i = a.task i ∧ ¬ a.WaitsForCurrent i := by
      rw [← hb, switch_task] at hi ⊢
      split at hi
      · cases hi
      next hin =>
      rw [if_neg hin, if_neg (by exact hic)]
      rw [if_neg (by exact hic)] at hi
      rw [exited_task, if_neg hic] at hi ⊢
      split at hi
      · cases hi
      · next hnot => exact ⟨if_neg hnot, hnot⟩
    obtain ⟨hsame, hnot⟩ := hsame
    rw [hsame] at hi hn
    obtain ⟨pid, hresume, hminus, hone, ⟨c, hc⟩, hnone⟩ := ha.waiting i n hi hn
    refine ⟨pid, by rw [hsame, hresume], hminus, fun hp => hchild.2 (hone hp), ⟨c, hchild.2 hc⟩, fun c hc => ?_⟩
    have hc := hchild.1 hc
    -- so the process that exits is not one it waits for
    have hcc : c ≠ a.current := by
      rintro rfl
      refine hnot ⟨hi, hc.2.2.2.1.symm, ?_⟩
      by_cases hp : pid = -1
      · rw [hn, hminus hp]
        exact .inr rfl
      · have hn' := hone hp
        have heq : (n : ProcessSlot) = a.current := ha.unique _ _ hn'.2.1 (by simp [hrun])
          (Int.ofNat.inj ((hn'.2.2.2.2.resolve_left hp).trans (hc.2.2.2.2.resolve_left hp).symm))
        rw [hn, heq]
        exact .inl rfl
    rw [ne_eq, (hcalm c hcc).zombie]
    exact hnone c hc

/-- Most moves are calm. -/
theorem Sound.calm (h : Move a l b) (hl : l = .quiet ∨ l = .block) : Calm a b := by
  cases h with
  | spawn => exact absurd hl (by simp)
  | preempt hnext => exact ha.calm_switch hnext rfl rfl rfl (.inl rfl)
  | sleep hnext => exact ha.calm_switch hnext rfl rfl rfl (.inr rfl)
  | rouse hW => exact (ha.rouse hW).1
  | wait hchild hnone hnext => exact (ha.wait hchild hnone hnext rfl).1
  | resume => exact (ha.resume _).1
  | reap => exact absurd hl (by simp)
  | exit => exact absurd hl (by simp)

/-- Every move keeps the invariant. -/
theorem Sound.move (h : Move a l b) : b.Sound := by
  cases h with
  | spawn _ hi hfresh => exact ha.spawn hi hfresh
  | preempt hnext => exact ha.switch (ha.calm_switch hnext rfl rfl rfl (.inl rfl)) nofun nofun
  | sleep hnext => exact ha.switch (ha.calm_switch hnext rfl rfl rfl (.inr rfl)) nofun nofun
  | rouse hW => exact (ha.rouse hW).2
  | wait hchild hnone hnext => exact (ha.wait hchild hnone hnext rfl).2
  | resume => exact (ha.resume _).2
  | reap hchild hzombie hc => exact ha.reap hchild hzombie hc
  | exit hnext => exact ha.exit hnext

end

/-! ### Exits and reports -/

/-- The exits that no parent has been told of. -/
def zombies (a : Tasks) : Multiset Exit :=
  ((Finset.univ.filter fun i => (a.task i).state = .zombie).val).map a.record

/-- The zombies are the same. -/
theorem zombies_congr (hzombie : ∀ i, (b.task i).state = .zombie ↔ (a.task i).state = .zombie)
    (hrecord : ∀ i, (a.task i).state = .zombie → b.record i = a.record i) : b.zombies = a.zombies := by
  have hfilter : (Finset.univ.filter fun i => (b.task i).state = .zombie) =
      Finset.univ.filter fun i => (a.task i).state = .zombie :=
    Finset.filter_congr fun i _ => hzombie i
  rw [zombies, zombies, hfilter]
  refine Multiset.map_congr rfl fun i hi => hrecord i ?_
  rw [Finset.mem_val, Finset.mem_filter] at hi
  exact hi.2

/-- The zombies are the same and one more. -/
theorem zombies_cons (hc : (a.task c).state ≠ .zombie) (hc' : (b.task c).state = .zombie)
    (hzombie : ∀ i, i ≠ c → ((b.task i).state = .zombie ↔ (a.task i).state = .zombie))
    (hrecord : ∀ i, i ≠ c → b.record i = a.record i) : b.zombies = b.record c ::ₘ a.zombies := by
  have hfilter : (Finset.univ.filter fun i => (b.task i).state = .zombie) =
      (Finset.univ.filter fun i => (a.task i).state = .zombie).cons c (by simp [hc]) := by
    ext i
    by_cases hi : i = c
    · simp [hi, hc']
    · simp [hi, hzombie]
  rw [zombies, zombies, hfilter, Finset.cons_val, Multiset.map_cons]
  refine congrArg _ (Multiset.map_congr rfl fun i hi => hrecord i fun heq => ?_)
  rw [heq, Finset.mem_val, Finset.mem_filter] at hi
  exact hc hi.2

theorem CalmTask.record (h : CalmTask (a.task i) (b.task i)) : b.record i = a.record i := by
  rw [Tasks.record, Tasks.record, h.pid, h.parentPid, h.exitCode]

/-- A calm move tells nobody. -/
theorem Calm.zombies (h : Calm a b) : b.zombies = a.zombies :=
  zombies_congr (fun i => (h.task i).zombie) fun i _ => (h.task i).record

end Tasks

namespace Label

/-- The exits of a move. -/
def exits : Label → Multiset Exit
  | exit record => {record}
  | quiet | block | spawn | report _ => 0

/-- The reports of a move. -/
def reports : Label → Multiset Exit
  | report record => {record}
  | quiet | block | spawn | exit _ => 0

end Label

namespace Tasks

variable {a b : Tasks} {l : Label}

/-- A move that is calm tells nobody. -/
theorem Sound.zombies_calm (ha : a.Sound) (h : Move a l b) (hl : l = .quiet ∨ l = .block) : b.zombies = a.zombies :=
  (ha.calm h hl).zombies

/-- A new process is no zombie. -/
theorem zombies_spawn {i : ProcessSlot} {t : Task} (hi : (a.task i).state = .unused)
    (ht : t.state = .ready) : Tasks.zombies { a.set i t with nextPid := nextPid } = a.zombies := by
  refine zombies_congr (fun j => ?_) fun j hj => ?_
  · by_cases hji : j = i
    · simp [hji, hi, ht]
    · simp [set_task_of_ne _ _ hji]
  · have hji : j ≠ i := fun heq => by
      rw [heq, hi] at hj
      cases hj
    simp [record, set_task_of_ne _ _ hji]

/-- A zombie that is reaped. -/
theorem zombies_reap {c : ProcessSlot} (hzombie : (a.task c).state = .zombie) :
    a.zombies = a.record c ::ₘ (a.set c emptyTask).zombies := by
  have hother : ∀ j, j ≠ c → (a.set c emptyTask).task j = a.task j := fun j hj => set_task_of_ne _ _ hj
  exact zombies_cons (by simp [emptyTask]) hzombie (fun j hj => by rw [hother j hj])
    fun j hj => by rw [record, record, hother j hj]

/-- A process becomes a zombie. -/
theorem Sound.zombies_exit {next : ProcessSlot} (ha : a.Sound)
    (hnext : ((a.exited code).task next).state = .ready) :
    ((a.exited code).switch ((a.exited code).task a.current) next).zombies =
      ⟨a.cur.pid, a.cur.parentPid, code⟩ ::ₘ a.zombies := by
  obtain ⟨-, hcur, hcalm⟩ := exit_task hnext
  generalize (a.exited code).switch ((a.exited code).task a.current) next = b at hcur hcalm
  have hrunning : (a.task a.current).state ≠ .zombie := by
    rw [show (a.task a.current).state = .running from ha.cur_state]
    nofun
  have hrecord : b.record a.current = ⟨a.cur.pid, a.cur.parentPid, code⟩ := by rw [record, hcur]
  rw [← hrecord]
  exact zombies_cons hrunning (by rw [hcur]) (fun j hj => (hcalm j hj).zombie) fun j hj => (hcalm j hj).record

/-- What exits is told of or becomes a zombie. -/
theorem Sound.balanced (ha : a.Sound) (h : Move a l b) : a.zombies + l.exits = b.zombies + l.reports := by
  cases l with
  | quiet => rw [ha.zombies_calm h (.inl rfl), Label.exits, Label.reports]
  | block => rw [ha.zombies_calm h (.inr rfl), Label.exits, Label.reports]
  | spawn =>
    cases h with
    | spawn _ hi _ => rw [zombies_spawn hi rfl, Label.exits, Label.reports]
  | exit =>
    cases h with
    | exit hnext =>
      rw [ha.zombies_exit hnext, Label.exits, Label.reports, add_zero, ← Multiset.singleton_add, add_comm]
  | report =>
    cases h with
    | reap _ hzombie _ =>
      rw [zombies_reap hzombie, Label.exits, Label.reports, add_zero, ← Multiset.singleton_add, add_comm]

variable {ls : List Label}

/-- Every run of moves keeps the invariant. -/
theorem Sound.run (ha : a.Sound) (h : Run Move a ls b) : b.Sound :=
  h.invariant ha fun _ _ _ hs hmove => hs.move hmove

/-- What exits in a run of moves is told of or becomes a zombie. -/
theorem Sound.balanced_run (ha : a.Sound) (h : Run Move a ls b) :
    a.zombies + (ls.map Label.exits).sum = b.zombies + (ls.map Label.reports).sum := by
  induction h with
  | nil => rfl
  | snoc hrun hmove ih =>
    have hstep := (ha.run hrun).balanced hmove
    rw [List.map_append, List.map_append, List.sum_append, List.sum_append, ← add_assoc, ih, add_right_comm]
    simp only [List.map_cons, List.map_nil, List.sum_cons, List.sum_nil, add_zero]
    rw [hstep, add_right_comm, add_assoc]

/-! ### The first process -/

/-- The first process is there, as its own parent. -/
structure Rooted (a : Tasks) : Prop where
  used : (a.task 0).state ≠ .unused
  pid : (a.task 0).pid = 0
  parentPid : (a.task 0).parentPid = 0

/-- The first process stays. -/
theorem Sound.rooted (ha : a.Sound) (h : Move a l b) (hroot : a.Rooted) : b.Rooted := by
  have hcalm : CalmTask (a.task 0) (b.task 0) → b.Rooted := fun hcalm =>
    ⟨hcalm.unused.not.2 hroot.used, hcalm.pid.trans hroot.pid, hcalm.parentPid.trans hroot.parentPid⟩
  cases l with
  | quiet => exact hcalm ((ha.calm h (.inl rfl)).task 0)
  | block => exact hcalm ((ha.calm h (.inr rfl)).task 0)
  | spawn =>
    cases h with
    | spawn hi _ _ => exact hcalm (by rw [show _ = a.task 0 from set_task_of_ne _ _ hi.symm]; exact .refl _)
  | report =>
    cases h with
    | reap hchild _ _ => exact hcalm (by rw [show _ = a.task 0 from set_task_of_ne _ _ hchild.1.symm]; exact .refl _)
  | exit =>
    cases h with
    | exit hnext =>
      obtain ⟨hpid, hparent, hunused⟩ := ha.exit_kin hnext 0
      exact ⟨hunused.not.2 hroot.used, hpid.trans hroot.pid, hparent.trans hroot.parentPid⟩

/-- The first process can run. -/
def Manned (a : Tasks) : Prop := (a.task 0).state = .ready ∨ (a.task 0).state = .running

/-- If it does not block or exit itself, the first process can still run. -/
theorem Manned.move (hm : a.Manned) (h : Move a l b) (hzero : a.current = 0 → l = .quiet) : b.Manned := by
  have hsame : (b.task 0).state = (a.task 0).state → b.Manned := fun heq => by
    rw [Manned, heq]
    exact hm
  -- if it was not the running process, a switch leaves it or goes on with it
  have hswitch : ∀ {a : Tasks} {t next}, a.Manned → (0 = a.current → t.state = .ready) → (a.switch t next).Manned := by
    intro a t next hm ht
    rw [Manned, switch_task]
    split
    · exact .inr rfl
    · split
      · next hc => exact .inl (ht hc)
      · exact hm
  cases h with
  | spawn hi _ _ => exact hsame (congrArg Task.state (set_task_of_ne _ _ hi.symm))
  | preempt hnext => exact hswitch hm fun _ => rfl
  | sleep hnext => exact hswitch hm fun hc => absurd (hzero hc.symm) (by simp)
  | rouse hW =>
    exact hsame (congrArg Task.state (if_neg fun hz => (hW 0 hz).1 rfl))
  | wait hchild hnone hnext => exact hswitch hm fun hc => absurd (hzero hc.symm) (by simp)
  | resume =>
    by_cases hc : 0 = a.current
    · refine hsame ?_
      rw [hc, set_task_self]
      rfl
    · exact hsame (congrArg Task.state (set_task_of_ne _ _ hc))
  | reap hchild hzombie hc => exact hsame (congrArg Task.state (set_task_of_ne _ _ hchild.1.symm))
  | @exit code next hnext =>
    refine hswitch (?_ : (a.exited code).Manned) fun hc => absurd (hzero hc.symm) (by simp)
    rw [Manned, exited_task]
    split
    · next hc => exact absurd (hzero hc.symm) (by simp)
    · split
      · exact .inl rfl
      · exact hm

/-! ### Parents -/

/-- The process is there and has not exited. -/
def Live (a : Tasks) (i : ProcessSlot) : Prop := (a.task i).state ≠ .unused ∧ (a.task i).state ≠ .zombie

/-- Every process has a parent that has not exited. -/
def Parented (a : Tasks) : Prop :=
  ∀ i, (a.task i).state ≠ .unused → ∃ j, a.Live j ∧ (a.task j).pid = (a.task i).parentPid

/-- The running process has no children. -/
def Childless (a : Tasks) : Prop := ∀ i, (a.task i).state ≠ .unused → (a.task i).parentPid ≠ a.cur.pid

/-- If a process without children exits, every process still has a parent. -/
theorem Sound.parented (ha : a.Sound) (h : Move a l b) (hp : a.Parented)
    (hexit : ∀ e, l = .exit e → a.Childless) : b.Parented := by
  have hcalm : Calm a b → b.Parented := fun hcalm i hi => by
    obtain ⟨j, hj, heq⟩ := hp i ((hcalm.task i).unused.not.1 hi)
    refine ⟨j, ⟨(hcalm.task j).unused.not.2 hj.1, (hcalm.task j).zombie.not.2 hj.2⟩, ?_⟩
    rw [(hcalm.task j).pid, (hcalm.task i).parentPid, heq]
  have hrun : (a.task a.current).state = .running := ha.cur_state
  cases l with
  | quiet => exact hcalm (ha.calm h (.inl rfl))
  | block => exact hcalm (ha.calm h (.inr rfl))
  | spawn =>
    cases h with
    | @spawn s pid nextPid hs hunused _ =>
      have hother : ∀ {j}, j ≠ s → (a.set s ⟨pid, .ready, 0, a.cur.pid, none, .returns⟩).task j = a.task j :=
        set_task_of_ne _ _
      have hlive : ∀ {j}, a.Live j → j ≠ s := fun hj heq => hj.1 (heq ▸ hunused)
      have hparent : ∀ {j n}, a.Live j → (a.task j).pid = n →
          ∃ j, Live { a.set s ⟨pid, .ready, 0, a.cur.pid, none, .returns⟩ with nextPid := nextPid } j ∧
            ((a.set s ⟨pid, .ready, 0, a.cur.pid, none, .returns⟩).task j).pid = n := fun {j n} hj hpid => by
        refine ⟨j, ?_, (congrArg Task.pid (hother (hlive hj))).trans hpid⟩
        rw [Live, show _ = a.task j from hother (hlive hj)]
        exact hj
      intro i hi
      by_cases his : i = s
      · refine hparent (j := a.current) (by rw [Live, hrun]; exact ⟨nofun, nofun⟩) ?_
        rw [his, set_task_self]
        rfl
      · rw [show _ = a.task i from hother his] at hi ⊢
        obtain ⟨j, hj, heq⟩ := hp i hi
        exact hparent hj heq
  | report =>
    cases h with
    | @reap pid c hchild hzombie hc =>
      have hother : ∀ {j}, j ≠ c → (a.set c emptyTask).task j = a.task j := set_task_of_ne _ _
      intro i hi
      have hic : i ≠ c := fun heq => hi (by rw [heq, set_task_self]; rfl)
      rw [hother hic] at hi ⊢
      obtain ⟨j, hj, heq⟩ := hp i hi
      have hjc : j ≠ c := fun heq => hj.2 (heq ▸ hzombie)
      exact ⟨j, by rw [Live, hother hjc]; exact hj, by rw [hother hjc, heq]⟩
  | exit e =>
    have hchildless := hexit e rfl
    cases h with
    | @exit code next hnext =>
      obtain ⟨-, hcur, hothers⟩ := exit_task hnext
      generalize (a.exited code).switch ((a.exited code).task a.current) next = b at hcur hothers
      -- the one that exits is nobody's parent
      have hparent : ∀ {i}, (a.task i).state ≠ .unused → ∃ j, b.Live j ∧ (b.task j).pid = (a.task i).parentPid := by
        intro i hi
        obtain ⟨j, hj, heq⟩ := hp i hi
        have hjc : j ≠ a.current := fun h => hchildless i hi (by rw [← heq, h]; rfl)
        refine ⟨j, ⟨(hothers j hjc).unused.not.2 hj.1, (hothers j hjc).zombie.not.2 hj.2⟩, ?_⟩
        rw [(hothers j hjc).pid, heq]
      intro i hi
      by_cases hic : i = a.current
      · rw [hic, hcur]
        exact hparent (i := a.current) (by rw [hrun]; nofun)
      · rw [(hothers i hic).parentPid]
        exact hparent ((hothers i hic).unused.not.1 hi)

end Tasks

end MiniOrange

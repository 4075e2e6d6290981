import MiniOrange.Proc.Lifecycle

/-!
# Who made whom

The table knows the parent of a process by its pid only, and pids are used again once all have been handed out. Beside a run
it can be recorded when each process was made, and by whom (`Births`): then it can be said that a process reaps
only those that it has made itself.
-/

namespace MiniOrange

open Tasks

/-- When the process of each slot was made, and when its maker was; and how many steps there have been. -/
structure Births where
  birth : ProcessSlot → Nat
  maker : ProcessSlot → Nat
  count : Nat

namespace Births

/-- A process is made at this slot. -/
def Born (a b : Tasks) (i : ProcessSlot) : Prop := (a.task i).state = .unused ∧ (b.task i).state ≠ .unused

instance (a b : Tasks) (i : ProcessSlot) : Decidable (Born a b i) := inferInstanceAs (Decidable (_ ∧ _))

/-- A step is recorded: what is made in it is made by the running process. -/
def next (g : Births) (a b : Tasks) : Births where
  birth i := if Born a b i then g.count else g.birth i
  maker i := if Born a b i then g.birth a.current else g.maker i
  count := g.count + 1

/-- Before the first step. -/
def first : Births := ⟨fun _ => 0, fun _ => 0, 1⟩

/-- Who has the pid of a parent made the child. -/
def Lineage (g : Births) (a : Tasks) : Prop :=
  ∀ c j, (a.task c).state ≠ .unused → (a.task j).state ≠ .unused → (a.task c).parentPid = (a.task j).pid →
    g.maker c = g.birth j

/-- The processes that are there were there before, with the same parents. -/
def Kept (a b : Tasks) : Prop :=
  ∀ i, (b.task i).state ≠ .unused →
    (a.task i).state ≠ .unused ∧ (b.task i).pid = (a.task i).pid ∧ (b.task i).parentPid = (a.task i).parentPid

theorem Kept.not_born {a b : Tasks} (h : Kept a b) (i : ProcessSlot) : ¬ Born a b i := fun hborn =>
  (h i hborn.2).1 hborn.1

variable {g : Births} {a b : Tasks} {l : Label}

theorem Kept.of_calm (h : Calm a b) : Kept a b := fun i hi =>
  ⟨(h.task i).unused.not.1 hi, (h.task i).pid, (h.task i).parentPid⟩

/-- A calm move makes nobody, whatever is recorded. -/
theorem Lineage.calm (h : g.Lineage a) (hcalm : Calm a b) : g.Lineage b := by
  intro c j hc hj heq
  rw [(hcalm.task c).parentPid, (hcalm.task j).pid] at heq
  exact h c j ((hcalm.task c).unused.not.1 hc) ((hcalm.task j).unused.not.1 hj) heq

theorem born_of_calm {a₁ : Tasks} (h : Calm a a₁) (i : ProcessSlot) : Born a₁ b i ↔ Born a b i :=
  and_congr_left fun _ => (h.task i).unused

theorem next_of_calm {a₁ : Tasks} (h : Calm a a₁) (hcurrent : a₁.current = a.current) :
    g.next a₁ b = g.next a b := by
  simp only [next, born_of_calm h, hcurrent]

theorem Lineage.kept (h : g.Lineage a) (hkept : Kept a b) : (g.next a b).Lineage b := by
  intro c j hc hj heq
  obtain ⟨hc', -, hparent⟩ := hkept c hc
  obtain ⟨hj', hpid, -⟩ := hkept j hj
  simp only [next, if_neg (hkept.not_born _)]
  exact h c j hc' hj' (hparent.symm.trans (heq.trans hpid))

end Births

open Births

namespace Tasks

variable {a b : Tasks} {l : Label}

theorem Calm.refl (a : Tasks) : Calm a a := ⟨rfl, fun _ => .refl _⟩

theorem Calm.trans {c : Tasks} (h : Calm a b) (h' : Calm b c) : Calm a c where
  nextPid := h'.nextPid.trans h.nextPid
  task i :=
    { pid := (h'.task i).pid.trans (h.task i).pid
      parentPid := (h'.task i).parentPid.trans (h.task i).parentPid
      exitCode := (h'.task i).exitCode.trans (h.task i).exitCode
      unused := (h'.task i).unused.trans (h.task i).unused
      zombie := (h'.task i).zombie.trans (h.task i).zombie
      settled := fun hset => (h'.task i).settled ((h.task i).settled hset) }

/-- Only one kind of move makes a process. -/
theorem Sound.kept (ha : a.Sound) (h : Move a l b) (hl : l ≠ .spawn) : Kept a b := by
  cases l with
  | quiet => exact .of_calm (ha.calm h (.inl rfl))
  | block => exact .of_calm (ha.calm h (.inr rfl))
  | spawn => exact absurd rfl hl
  | report =>
    cases h with
    | @reap _ c _ _ _ =>
      intro i hi
      have hic : i ≠ c := fun heq => hi (by rw [heq, set_task_self]; rfl)
      rw [set_task_of_ne _ _ hic] at hi ⊢
      exact ⟨hi, rfl, rfl⟩
  | exit =>
    cases h with
    | exit hnext =>
      intro i hi
      obtain ⟨hpid, hparent, hunused⟩ := ha.exit_kin hnext i
      exact ⟨hunused.not.1 hi, hpid, hparent⟩

theorem Fresh.not_used {pid nextPid : Nat} (ha : a.Sound) (h : a.Fresh pid nextPid) {i : ProcessSlot}
    (hi : (a.task i).state ≠ .unused) : (a.task i).pid ≠ pid := by
  cases h with
  | new hne => exact Nat.ne_of_lt (ha.below hne i hi)
  | recycled _ _ hnone => exact hnone i hi

/-- A new process is made by the running one; its own pid must not be that of a parent. -/
theorem Sound.lineage_spawn {g : Births} (ha : a.Sound) (h : Move a .spawn b) (hg : g.Lineage a)
    (hfresh : ∀ i, Born a b i → ∀ c, (a.task c).state ≠ .unused → (a.task c).parentPid ≠ (b.task i).pid) :
    (g.next a b).Lineage b := by
  cases h with
  | @spawn s pid nextPid _ hunused hpid =>
    have hself : (a.set s ⟨pid, .ready, 0, a.cur.pid, none, .returns⟩).task s = _ := set_task_self ..
    have hother : ∀ {j}, j ≠ s → (a.set s ⟨pid, .ready, 0, a.cur.pid, none, .returns⟩).task j = a.task j :=
      set_task_of_ne _ _
    have hborn : ∀ {j}, Born a { a.set s ⟨pid, .ready, 0, a.cur.pid, none, .returns⟩ with nextPid := nextPid } j ↔
        j = s := by
      intro j
      refine ⟨fun hj => ?_, ?_⟩
      · by_contra hne
        exact hj.2 ((congrArg Task.state (hother hne)).trans hj.1)
      · rintro rfl
        exact ⟨hunused, by rw [show _ = _ from hself]; nofun⟩
    have hcur : (a.task a.current).state ≠ .unused := by
      rw [show (a.task a.current).state = .running from ha.cur_state]
      nofun
    have hnot : ∀ c, (a.task c).state ≠ .unused → (a.task c).parentPid ≠ pid := fun c hc => by
      have hne := hfresh s (hborn.2 rfl) c hc
      rwa [show _ = _ from hself] at hne
    intro c j hc hj heq
    simp only [next, hborn]
    by_cases hcs : c = s
    · by_cases hjs : j = s
      · rw [hcs, hjs, hself] at heq
        exact absurd heq (hpid.not_used ha hcur)
      · rw [if_pos hcs, if_neg hjs]
        rw [hcs, hself, hother hjs] at heq
        rw [show _ = a.task j from hother hjs] at hj
        exact congrArg g.birth (ha.unique _ _ hcur hj heq)
    · rw [show _ = a.task c from hother hcs] at hc heq
      by_cases hjs : j = s
      · rw [hjs, hself] at heq
        exact absurd heq (hnot c hc)
      · rw [show _ = a.task j from hother hjs] at hj heq
        rw [if_neg hcs, if_neg hjs]
        exact hg c j hc hj heq

end Tasks

namespace Made

open Processes

variable {a b : Tasks} {l : Label} {g : Births}

theorem calm_of_quiet (h : Quiet a b) (ha : a.Sound) : b.Sound ∧ Calm a b :=
  quiet_invariant (I := Calm a) h ha (.refl a) fun hs hcalm hmove => hcalm.trans (hs.calm hmove (.inl rfl))

/-- What shows of a step comes last, and before it the processes stay. -/
theorem last (h : Made a b (some l)) (ha : a.Sound) :
    ∃ a₁ : Tasks, a₁.Sound ∧ Calm a a₁ ∧ a₁.current = a.current ∧ Move a₁ l b := by
  cases h with
  | move hmove => exact ⟨a, ha, .refl a, rfl, hmove⟩
  | @resumed a₁ _ hquiet hcurrent hmove _ =>
    obtain ⟨hs, hcalm⟩ := calm_of_quiet hquiet ha
    exact ⟨a₁, hs, hcalm, hcurrent, hmove⟩

/-- A step keeps the lineage if a new process does not get the pid of a parent. -/
theorem lineage {l : Option Label} (h : Made a b l) (ha : a.Sound) (hg : g.Lineage a)
    (hfresh : ∀ i, Born a b i → ∀ c, (a.task c).state ≠ .unused → (a.task c).parentPid ≠ (b.task i).pid) :
    (g.next a b).Lineage b := by
  cases l with
  | none =>
    cases h with
    | quiet hquiet => exact hg.kept (.of_calm (calm_of_quiet hquiet ha).2)
  | some l =>
    obtain ⟨a₁, hs, hcalm, hcurrent, hmove⟩ := h.last ha
    rw [← next_of_calm hcalm hcurrent]
    by_cases hspawn : l = .spawn
    · subst hspawn
      refine hs.lineage_spawn hmove (hg.calm hcalm) fun i hi c hc => ?_
      rw [(hcalm.task c).parentPid]
      exact hfresh i ((born_of_calm hcalm i).1 hi) c ((hcalm.task c).unused.not.1 hc)
    · exact (hg.calm hcalm).kept (hs.kept hmove hspawn)

/-- Whoever is told of an exit has the pid that the zombie has as its parent's. -/
theorem reaped {r : Exit} (h : Made a b (some (.report r))) (ha : a.Sound) :
    ∃ c, (a.task c).pid = r.pid ∧ (a.task c).state = .zombie ∧ (b.task c).state = .unused ∧
      (a.task c).parentPid = a.cur.pid := by
  obtain ⟨a₁, -, hcalm, hcurrent, hmove⟩ := h.last ha
  cases hmove with
  | @reap _ c hchild hzombie _ =>
    have hparent : (a₁.task c).parentPid = (a₁.task a₁.current).pid := hchild.2.2.2.1
    rw [(hcalm.task c).parentPid, hcurrent, (hcalm.task _).pid] at hparent
    exact ⟨c, (hcalm.task c).pid.symm, (hcalm.task c).zombie.1 hzombie, by rw [set_task_self]; rfl, hparent⟩

end Made

namespace Scheduler

variable {ρ : Type} {S : Services ρ} {k k' : Kernel ρ} {g : Births} {e : Event} {es : List Event}

/-- A step of the kernel, with the record of who was made. -/
def RecordedStep (S : Services ρ) (x : Kernel ρ × Births) (e : Event) (y : Kernel ρ × Births) : Prop :=
  Step S x.1 e y.1 ∧ y.2 = x.2.next x.1.tasks y.1.tasks

theorem Step.recorded (h : Step S k e k') (g : Births) :
    RecordedStep S (k, g) e (k', g.next k.tasks k'.tasks) := ⟨h, rfl⟩

/-- The same, where no new process gets the pid that one of the processes has as its parent's. -/
def FreshStep (S : Services ρ) (x : Kernel ρ × Births) (e : Event) (y : Kernel ρ × Births) : Prop :=
  RecordedStep S x e y ∧ ∀ i, Born x.1.tasks y.1.tasks i → ∀ c, (x.1.processTable c).state ≠ .unused →
    (x.1.processTable c).parentPid ≠ (y.1.processTable i).pid

/-- Whoever `scheduler_waitpid` tells of an exit has made the process that has exited. -/
def ReapsOwn (S : Services ρ) (k : Kernel ρ) (g : Births) : Prop :=
  ∀ caller pid child code k', Step S k (.wait caller pid (some (.ok (child, code)))) k' →
    ∃ c, (k.processTable c).pid = child ∧ (k.processTable c).state = .zombie ∧ (k'.processTable c).state = .unused ∧
      g.maker c = g.birth k.currentProcess

theorem FreshStep.lineage {x y : Kernel ρ × Births} (h : FreshStep S x e y) (hs : x.1.tasks.Sound)
    (hg : x.2.Lineage x.1.tasks) : y.1.tasks.Sound ∧ y.2.Lineage y.1.tasks := by
  obtain ⟨⟨hstep, hrecord⟩, hfresh⟩ := h
  obtain ⟨l, -, hmade⟩ := hstep.made hs
  rw [hrecord]
  exact ⟨hmade.sound hs, hmade.lineage hs hg hfresh⟩

theorem reapsOwn_of_lineage (hs : k.tasks.Sound) (hg : g.Lineage k.tasks) : ReapsOwn S k g := by
  intro caller pid child code k' hstep
  obtain ⟨l, hl, hmade⟩ := hstep.made hs
  cases hl with
  | report =>
    obtain ⟨c, hpid, hzombie, hgone, hparent⟩ := hmade.reaped hs
    refine ⟨c, hpid, hzombie, hgone, hg c _ ?_ ?_ hparent⟩
    · rw [hzombie]
      nofun
    · rw [show (k.tasks.task k.currentProcess).state = .running from hs.cur_state]
      nofun

/-! ## A kernel with three processes -/

/-- A process without open files closes none. -/
theorem vfsCloseAllCurrent_of_empty {d : Desk} (h : ∀ fd, d.fdTable fd = none) : d.vfsCloseAllCurrent = d := by
  have hround : ∀ n, d.closeIfOpen n = d := fun n => by
    have hget : d.fdGet n = none := by
      unfold Desk.fdGet
      split
      · rfl
      · exact h _
    rw [Desk.closeIfOpen, hget]
    rfl
  unfold Desk.vfsCloseAllCurrent
  split
  · rfl
  · exact List.foldl_fixed' hround _

theorem setDesk_of_empty (h : ∀ fd, k.current.fdTable fd = none) : k.setDesk k.desk.vfsCloseAllCurrent = k := by
  rw [vfsCloseAllCurrent_of_empty (d := k.desk) h]
  exact congrArg (fun f => Kernel.mk ⟨f, k.currentProcess, k.nextPid⟩ k.tickCount k.vfs k.rest)
    (Function.update_eq_self k.currentProcess k.processTable)

/-- The exit of a process without open files. -/
theorem perform_exit_of_empty {k : Kernel Unit} {code : Int} {current next : ProcessSlot}
    (h : ∀ fd, k.current.fdTable fd = none) (hcurrent : k.currentProcess = current)
    (hnext : (k.toProcesses.exiting code).findNextReady current = some next) :
    perform unlimited (.exit code) k = .ok (.exit k.current.pid k.current.parentPid code,
      { k with toProcesses := (k.toProcesses.exiting code).switched next .exited }) := by
  have hexiting : k.exiting code = { k with toProcesses := k.toProcesses.exiting code } := by
    unfold Kernel.exiting
    rw [setDesk_of_empty h]
  have hspec : wpe (perform unlimited (.exit code))
      (fun e k' => e = .exit k.current.pid k.current.parentPid code ∧
        k' = { k with toProcesses := (k.toProcesses.exiting code).switched next .exited }) (fun _ => False) k := by
    unfold perform
    rw [wpe_bind, wpe_get, wpe_bind, wpe_exitCurrent, hexiting, hcurrent, hnext]
    exact (wpe_switchTo ..).2 ⟨rfl, rfl⟩
  obtain ⟨e, k', hok, rfl, rfl⟩ := hspec.exists_ok
  exact hok

/-- The first process, and what it waits for. -/
def bootProcess (state : ProcessState) (waitNode : Option ProcessSlot) (savedStack : Resume) : Process :=
  { clearProcess with
    state := state
    name := [0x62, 0x6F, 0x6F, 0x74]
    savedStack := savedStack
    kernelStackTop := 0xC0110000
    timeSlice := 5
    waitNode := waitNode }

/-- A process that runs `program`. -/
def child (pid parentPid : Nat) (state : ProcessState) (exitCode : Int) (savedStack : Resume) : Process :=
  { clearProcess with
    pid := pid
    state := state
    name := [0x61]
    savedStack := savedStack
    kernelStackTop := 0xD1004018
    userStackTop := 0xBFFFFFF0
    pageDirectory := 0x400000
    exitCode := exitCode
    parentPid := parentPid
    timeSlice := 5
    kernelStackAllocation := 0xD1000018
    initialEflags := 0x200
    userEntry := 0x8048000 }

/-- The kernel with three processes. -/
def family (nextPid : Nat) (current : ProcessSlot) (p q r : Process) : Kernel Unit where
  processTable i := if i = 0 then p else if i = 1 then q else if i = 2 then r else clearProcess
  currentProcess := current
  nextPid := nextPid
  tickCount := 0
  vfs := ⟨fun _ => clearFile, true, false⟩
  rest := ()

/-- A step to such a kernel, with the table written out. -/
theorem step_family {k k₁ : Kernel Unit} (call : Call Unit) {e : Event} {nextPid : Nat} {current : ProcessSlot}
    {p q r : Process} (hallowed : call.Allowed k.toProcesses) (hok : perform unlimited call k = .ok (e, k₁))
    (hrest : (k₁.vfs, k₁.tickCount, k₁.nextPid, k₁.currentProcess) =
      (⟨fun _ => clearFile, true, false⟩, 0, nextPid, current))
    (htable : (List.finRange 16).map k₁.processTable = p :: q :: r :: List.replicate 13 clearProcess) :
    Step unlimited k e (family nextPid current p q r) := by
  suffices hk₁ : k₁ = family nextPid current p q r from ⟨call, hallowed, hk₁ ▸ hok⟩
  obtain ⟨⟨table, c, n⟩, t, v, rest⟩ := k₁
  cases hrest
  refine congrArg (fun f => Kernel.mk ⟨f, c, n⟩ 0 _ ()) (funext fun i => ?_)
  have hi := congrArg (·[i.val]?) htable
  simp only [List.getElem?_map, List.getElem?_eq_getElem (show i.val < (List.finRange 16).length by simp),
    List.getElem_finRange, Option.map_some] at hi
  refine Option.some.inj (hi.trans ?_)
  fin_cases i <;> rfl

/-! ## Who reaps -/

/-- If no new process gets the pid that another has as its parent's, a process is told only of the exits of those that
it has made. -/
theorem reapsOwn_of_fresh {k₀ : Kernel ρ} (hstart : Alone k₀.toProcesses)
    (h : Run (FreshStep S) (k₀, Births.first) es (k, g)) : ReapsOwn S k g := by
  have hinv : (k, g).1.tasks.Sound ∧ (k, g).2.Lineage (k, g).1.tasks :=
    h.invariant (I := fun x => x.1.tasks.Sound ∧ x.2.Lineage x.1.tasks) ⟨hstart.sound, fun _ _ _ _ _ => rfl⟩
      fun _ _ _ hx hstep => hstep.lineage hx.1 hx.2
  exact reapsOwn_of_lineage hinv.1 hinv.2

/-- The first process makes another, and is told of its exit. -/
theorem reapsOwn_of_fresh_booted :
    ∃ es k g, Run (FreshStep unlimited) (booted, Births.first) es (k, g) ∧
      (∃ k', Step unlimited k (.wait 0 (-1) (some (.ok (1, 7)))) k') ∧ ReapsOwn unlimited k g := by
  let k₁ := family 2 0 (bootProcess .running none .returns) (child 1 0 .ready 0 .returns) clearProcess
  let k₂ := family 2 1 (bootProcess .ready none .returns) (child 1 0 .running 0 .returns) clearProcess
  let k₃ := family 2 0 (bootProcess .running none .returns) (child 1 0 .zombie 7 .exited) clearProcess
  have hspawn : Step unlimited booted (.spawn (.ok 1)) k₁ :=
    step_family (.spawn program) rfl rfl rfl rfl
  have hyield : Step unlimited k₁ .yield k₂ :=
    step_family .yield rfl rfl rfl rfl
  have hexit : Step unlimited k₂ (.exit 1 0 7) k₃ :=
    step_family (.exit 7) rfl
      (perform_exit_of_empty (fun _ => rfl) (show _ = 1 from rfl) (show _ = some 0 from rfl)) rfl rfl
  have hrun : Run (FreshStep unlimited) (booted, Births.first) _ (k₃, _) :=
    ((Run.nil.snoc ⟨hspawn.recorded _, by decide⟩).snoc ⟨hyield.recorded _, by decide⟩).snoc
      ⟨hexit.recorded _, by decide⟩
  exact ⟨_, k₃, _, hrun, ⟨_, .wait (-1), rfl, rfl⟩, reapsOwn_of_fresh alone_booted hrun⟩

/-! ## When a pid comes back -/

/-- A step while there is a process at `i`. -/
def StepBeside (S : Services ρ) (i : ProcessSlot) (k : Kernel ρ) (e : Event) (k' : Kernel ρ) : Prop :=
  Step S k e k' ∧ (k.processTable i).state ≠ .unused

/-- A process that stays keeps its maker. -/
theorem record_beside {i : ProcessSlot} (h : Run (StepBeside S i) k es k') (g : Births) :
    ∃ g', Run (RecordedStep S) (k, g) es (k', g') ∧ g'.maker i = g.maker i ∧ g.count ≤ g'.count := by
  induction h with
  | nil => exact ⟨g, .nil, rfl, Nat.le_refl _⟩
  | @snoc _ k₁ k₂ _ _ hlast ih =>
    obtain ⟨g₁, hrun, hmaker, hcount⟩ := ih
    refine ⟨g₁.next k₁.tasks k₂.tasks, hrun.snoc ⟨hlast.1, rfl⟩, ?_, Nat.le_succ_of_le hcount⟩
    exact (if_neg fun hborn => hlast.2 hborn.1).trans hmaker

/-- The zombie of the third process, which the second has made. -/
def orphan : Process := child 2 1 .zombie 8 .exited

/-- The first process runs, the second was reaped, and the third is a zombie. -/
def orphaned (nextPid : Nat) : Kernel Unit :=
  family nextPid 0 (bootProcess .running none .returns) clearProcess orphan

/-- The first process makes another, waits for it and is told of its exit, and the next pid is one up. -/
theorem orphaned_round (n : Nat) : ∃ es, Run (StepBeside unlimited 2) (orphaned (n + 1)) es
    (orphaned (if n + 1 = 0x7FFFFFFF then 0 else n + 2)) := by
  let m := if n + 1 = 0x7FFFFFFF then 0 else n + 2
  have hspawn : Step unlimited (orphaned (n + 1)) (.spawn (.ok (n + 1)))
      (family m 0 (bootProcess .running none .returns) (child (n + 1) 0 .ready 0 .returns) orphan) :=
    step_family (.spawn program) rfl rfl rfl rfl
  have hwait : Step unlimited
      (family m 0 (bootProcess .running none .returns) (child (n + 1) 0 .ready 0 .returns) orphan) (.wait 0 (-1) none)
      (family m 1 (bootProcess .blocked (some 0) (.waitpid (-1))) (child (n + 1) 0 .running 0 .returns) orphan) :=
    step_family (.wait (-1)) rfl rfl rfl rfl
  have hexit : Step unlimited
      (family m 1 (bootProcess .blocked (some 0) (.waitpid (-1))) (child (n + 1) 0 .running 0 .returns) orphan)
      (.exit (n + 1) 0 9)
      (family m 0 (bootProcess .running none (.waitpid (-1))) (child (n + 1) 0 .zombie 9 .exited) orphan) :=
    step_family (.exit 9) rfl
      (perform_exit_of_empty (fun _ => rfl) (show _ = 1 from rfl) (show _ = some 0 from rfl)) rfl rfl
  have hreport : Step unlimited
      (family m 0 (bootProcess .running none (.waitpid (-1))) (child (n + 1) 0 .zombie 9 .exited) orphan)
      (.wait 0 (-1) (some (.ok (n + 1, 9)))) (orphaned m) :=
    step_family (.resume (-1)) rfl rfl rfl rfl
  exact ⟨_, (((Run.nil.snoc ⟨hspawn, nofun⟩).snoc ⟨hwait, nofun⟩).snoc ⟨hexit, nofun⟩).snoc ⟨hreport, nofun⟩⟩

theorem run_orphaned (n : Nat) (h : n + 3 ≤ 0x7FFFFFFF) :
    ∃ es, Run (StepBeside unlimited 2) (orphaned 3) es (orphaned (n + 3)) := by
  induction n with
  | zero => exact ⟨[], .nil⟩
  | succ n ih =>
    obtain ⟨es, hrun⟩ := ih (by omega)
    obtain ⟨es', hround⟩ := orphaned_round (n + 2)
    rw [if_neg (by omega)] at hround
    exact ⟨es ++ es', hrun.trans hround⟩

/-- All pids are handed out, one after the other. -/
theorem run_orphaned_zero : ∃ es, Run (StepBeside unlimited 2) (orphaned 3) es (orphaned 0) := by
  obtain ⟨es, hrun⟩ := run_orphaned 0x7FFFFFFC (Nat.le_refl _)
  obtain ⟨es', hround⟩ := orphaned_round 0x7FFFFFFE
  exact ⟨es ++ es', hrun.trans hround⟩

/-- The second process makes the third, and both exit; the first reaps the second. -/
theorem run_to_orphaned : ∃ es g, Run (RecordedStep unlimited) (booted, Births.first) es (orphaned 3, g) ∧
    g.maker 2 = 1 ∧ g.count = 7 := by
  let k₁ := family 2 0 (bootProcess .running none .returns) (child 1 0 .ready 0 .returns) clearProcess
  let k₂ := family 2 1 (bootProcess .ready none .returns) (child 1 0 .running 0 .returns) clearProcess
  let k₃ := family 3 1 (bootProcess .ready none .returns) (child 1 0 .running 0 .returns) (child 2 1 .ready 0 .returns)
  let k₄ := family 3 2 (bootProcess .ready none .returns) (child 1 0 .zombie 7 .exited) (child 2 1 .running 0 .returns)
  let k₅ := family 3 0 (bootProcess .running none .returns) (child 1 0 .zombie 7 .exited) orphan
  have hspawn : Step unlimited booted (.spawn (.ok 1)) k₁ :=
    step_family (.spawn program) rfl rfl rfl rfl
  have hyield : Step unlimited k₁ .yield k₂ :=
    step_family .yield rfl rfl rfl rfl
  have hspawn' : Step unlimited k₂ (.spawn (.ok 2)) k₃ :=
    step_family (.spawn program) rfl rfl rfl rfl
  have hexit : Step unlimited k₃ (.exit 1 0 7) k₄ :=
    step_family (.exit 7) rfl
      (perform_exit_of_empty (fun _ => rfl) (show _ = 1 from rfl) (show _ = some 2 from rfl)) rfl rfl
  have hexit' : Step unlimited k₄ (.exit 2 1 8) k₅ :=
    step_family (.exit 8) rfl
      (perform_exit_of_empty (fun _ => rfl) (show _ = 2 from rfl) (show _ = some 0 from rfl)) rfl rfl
  have hreap : Step unlimited k₅ (.wait 0 (-1) (some (.ok (1, 7)))) (orphaned 3) :=
    step_family (.wait (-1)) rfl rfl rfl rfl
  exact ⟨_, _, (((((Run.nil.snoc (hspawn.recorded _)).snoc (hyield.recorded _)).snoc (hspawn'.recorded _)).snoc
    (hexit.recorded _)).snoc (hexit'.recorded _)).snoc (hreap.recorded _), rfl, rfl⟩

/-- When all pids have been handed out, a new process gets the pid of one that is gone, and is told of the exit of a process
which that one has made. -/
theorem stranger_reaps : ∃ es k g, Run (RecordedStep unlimited) (booted, Births.first) es (k, g) ∧
    ¬ ReapsOwn unlimited k g := by
  let k₁ := family 0 0 (bootProcess .running none .returns) (child 1 0 .ready 0 .returns) orphan
  let k₂ := family 0 1 (bootProcess .ready none .returns) (child 1 0 .running 0 .returns) orphan
  have hspawn : Step unlimited (orphaned 0) (.spawn (.ok 1)) k₁ :=
    step_family (.spawn program) rfl rfl rfl rfl
  have hyield : Step unlimited k₁ .yield k₂ :=
    step_family .yield rfl rfl rfl rfl
  have hwait : Step unlimited k₂ (.wait 1 (-1) (some (.ok (2, 8))))
      (family 0 1 (bootProcess .ready none .returns) (child 1 0 .running 0 .returns) clearProcess) :=
    step_family (.wait (-1)) rfl rfl rfl rfl
  obtain ⟨es, g, hboot, hmaker, hcount⟩ := run_to_orphaned
  obtain ⟨es', hrounds⟩ := run_orphaned_zero
  obtain ⟨g', hrounds, hmaker', hcount'⟩ := record_beside hrounds g
  refine ⟨_, k₂, _, ((hboot.trans hrounds).snoc (hspawn.recorded _)).snoc (hyield.recorded _), fun hown => ?_⟩
  obtain ⟨c, -, hzombie, -, hmade⟩ := hown _ _ _ _ _ hwait
  have honly : ∀ c, (k₂.processTable c).state = .zombie → c = 2 := by decide
  rw [honly c hzombie] at hmade
  have hbirth : g'.maker 2 = g'.count := hmade
  omega

end Scheduler

end MiniOrange

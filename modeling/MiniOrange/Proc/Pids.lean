import MiniOrange.Proc.Parents

/-!
# Pids

`allocate_pid` counts up to `PID_MAXIMUM`; from then on it looks for the lowest number that no process has. Before that
all pids are below the counter, and afterwards each new one is compared with all others: in both cases no two
processes have the same (`Tasks.Sound`). Here it is shown that the numbers stay in range (`Tasks.Numbered`), and that among 17
numbers one is always free, since there are 16 processes.
-/

namespace MiniOrange

open Tasks Births

namespace Processes

variable {k : Processes} {pid nextPid : Nat}

/-! ## The search -/

theorem findProcessByPid_some {i : ProcessSlot} (h : k.findProcessByPid pid = some i) : (k.processTable i).pid = pid := by
  have hfound := List.find?_some h
  simp only [decide_eq_true_eq] at hfound
  exact hfound.2

/-- A search that finds nothing has met a process for each candidate. -/
theorem allocatePidFrom_none {count candidate : Nat} (h : k.allocatePidFrom count candidate = none) :
    ∀ n < count, ∃ i, (k.processTable i).pid = candidate + n := by
  induction count generalizing candidate with
  | zero => exact fun n hn => absurd hn (Nat.not_lt_zero n)
  | succ count ih =>
    unfold allocatePidFrom at h
    split at h
    · cases h
    · next hsome =>
      obtain ⟨i, hi⟩ := Option.ne_none_iff_exists'.1 hsome
      intro n hn
      cases n with
      | zero => exact ⟨i, findProcessByPid_some hi⟩
      | succ n =>
        obtain ⟨j, hj⟩ := ih h n (Nat.lt_of_succ_lt_succ hn)
        exact ⟨j, by omega⟩

/-- There are not 17 processes to have them all. -/
theorem allocatePidFrom_seventeen (k : Processes) (candidate : Nat) : k.allocatePidFrom 17 candidate ≠ none := by
  intro hnone
  have hmet := allocatePidFrom_none hnone
  choose slot hslot using fun n : Fin 17 => hmet n.val n.isLt
  have hinjective : Function.Injective slot := by
    intro m n heq
    have hm := hslot m
    rw [heq, hslot n] at hm
    exact Fin.ext (by omega)
  have hcard := Fintype.card_le_of_injective slot hinjective
  simp at hcard

/-- A longer search ends where a shorter one has ended. -/
theorem allocatePidFrom_mono {count count' candidate : Nat} (h : k.allocatePidFrom count candidate = some pid)
    (hle : count ≤ count') : k.allocatePidFrom count' candidate = some pid := by
  induction count generalizing candidate count' with
  | zero => cases h
  | succ count ih =>
    obtain ⟨m, rfl⟩ : ∃ m, count' = m + 1 := ⟨count' - 1, by omega⟩
    unfold allocatePidFrom at h ⊢
    split at h
    · next hfree => rw [if_pos hfree, h]
    · next htaken =>
      rw [if_neg htaken]
      exact ih h (Nat.le_of_succ_le_succ hle)

theorem allocatePidFrom_lt {count candidate : Nat} (h : k.allocatePidFrom count candidate = some pid) :
    pid < candidate + count := by
  induction count generalizing candidate with
  | zero => cases h
  | succ count ih =>
    unfold allocatePidFrom at h
    split at h
    · cases h
      omega
    · have := ih h
      omega

/-- `allocate_pid` succeeds, with 17 candidates at most. -/
theorem allocatePid_succeeds (k : Processes) : ∃ pid nextPid, k.allocatePid = some (pid, nextPid) ∧
    (k.nextPid = 0 → k.allocatePidFrom 17 1 = some pid) := by
  unfold allocatePid
  split
  · next hne => exact ⟨_, _, rfl, fun hzero => absurd hzero hne⟩
  · obtain ⟨pid, hpid⟩ := Option.ne_none_iff_exists'.1 (k.allocatePidFrom_seventeen 1)
    rw [allocatePidFrom_mono hpid (by omega)]
    exact ⟨pid, 0, rfl, fun _ => hpid⟩

/-- The pid that `allocate_pid` returns is in range. -/
theorem allocatePid_le (h : k.allocatePid = some (pid, nextPid)) (hnext : k.nextPid ≤ 0x7FFFFFFF) :
    pid ≤ 0x7FFFFFFF := by
  unfold allocatePid at h
  split at h
  · cases h
    exact hnext
  · obtain ⟨p, hp, heq⟩ := Option.map_eq_some_iff.1 h
    cases heq
    have := allocatePidFrom_lt hp
    omega

end Processes

/-! ## What the moves keep -/

namespace Tasks

/-- The counter and the pids are in range. -/
structure Numbered (a : Tasks) : Prop where
  nextPid : a.nextPid ≤ 0x7FFFFFFF
  pid : ∀ i, i ≠ 0 → (a.task i).state ≠ .unused → 1 ≤ (a.task i).pid ∧ (a.task i).pid ≤ 0x7FFFFFFF

variable {a b : Tasks} {l : Label} {pid nextPid : Nat}

theorem Fresh.nextPid_le (h : a.Fresh pid nextPid) (hnext : a.nextPid ≤ 0x7FFFFFFF) : nextPid ≤ 0x7FFFFFFF := by
  cases h with
  | new =>
    split
    · exact Nat.zero_le _
    · omega
  | recycled => exact Nat.zero_le _

theorem Fresh.pos (h : a.Fresh pid nextPid) : 1 ≤ pid := by
  cases h with
  | new hne => exact Nat.pos_of_ne_zero hne
  | recycled _ hne => exact Nat.pos_of_ne_zero hne

/-- Only the making of a process changes the counter. -/
theorem Move.nextPid_eq (h : Move a l b) (hl : l ≠ .spawn) : b.nextPid = a.nextPid := by
  cases h with
  | spawn => exact absurd rfl hl
  | preempt | sleep | rouse | wait | resume | reap | exit => rfl

namespace Numbered

theorem kept (h : a.Numbered) (hkept : Kept a b) (hnext : b.nextPid = a.nextPid) : b.Numbered where
  nextPid := hnext ▸ h.nextPid
  pid i hi hused := by
    obtain ⟨hused', hpid, -⟩ := hkept i hused
    rw [hpid]
    exact h.pid i hi hused'

/-- A process is made, with a pid that is in range. -/
theorem spawn (h : a.Numbered) (hmove : Move a .spawn b) (hborn : ∃ i, Born a b i ∧ (b.task i).pid ≤ 0x7FFFFFFF) :
    b.Numbered := by
  cases hmove with
  | @spawn i pid nextPid _ _ hfresh =>
    obtain ⟨j, ⟨hunused, hused⟩, hle⟩ := hborn
    -- the one slot that is taken is that of the new process
    obtain rfl : j = i := by
      by_contra hne
      exact hused ((congrArg Task.state (set_task_of_ne a _ hne)).trans hunused)
    refine ⟨hfresh.nextPid_le h.nextPid, fun m hm hused => ?_⟩
    by_cases heq : m = j
    · subst heq
      refine ⟨?_, hle⟩
      show 1 ≤ ((a.set m _).task m).pid
      rw [set_task_self]
      exact hfresh.pos
    · dsimp only at hused ⊢
      rw [set_task_of_ne a _ heq] at hused ⊢
      exact h.pid m hm hused

end Numbered

end Tasks

/-- What a step makes of pids that are in range, if those that it makes are. -/
theorem Made.numbered {a b : Tasks} {l : Option Label} (h : Made a b l) (ha : a.Sound) (hn : a.Numbered)
    (hborn : l = some .spawn → ∃ i, Born a b i ∧ (b.task i).pid ≤ 0x7FFFFFFF) : b.Numbered := by
  cases l with
  | none =>
    cases h with
    | quiet hquiet =>
      have hcalm := (calm_of_quiet hquiet ha).2
      exact hn.kept (.of_calm hcalm) hcalm.nextPid
  | some l =>
    obtain ⟨a₁, hs, hcalm, -, hmove⟩ := h.last ha
    have hn₁ := hn.kept (.of_calm hcalm) hcalm.nextPid
    by_cases hspawn : l = .spawn
    · subst hspawn
      obtain ⟨i, hi, hle⟩ := hborn rfl
      exact hn₁.spawn hmove ⟨i, (born_of_calm hcalm i).2 hi, hle⟩
    · exact hn₁.kept (hs.kept hmove hspawn) (Move.nextPid_eq hmove hspawn)

/-! ## Runs -/

namespace Scheduler

open Processes

variable {ρ : Type} (S : Services ρ) {k k' : Kernel ρ} {e : Event} {es : List Event}

/-- A process is made with the pid that `allocate_pid` returns. -/
def Numbers (k k' : Processes) : Prop :=
  ∃ i pid nextPid, Born k.tasks k'.tasks i ∧ (k'.processTable i).pid = pid ∧ k.allocatePid = some (pid, nextPid)

/-- A new process in a slot that was not used. -/
theorem numbers_setProcess {k : Processes} {slot : ProcessSlot} {p : Process} {nextPid : Nat}
    (hslot : k.findUnusedProcess = some slot) (hp : p.state ≠ .unused) (hpid : k.allocatePid = some (p.pid, nextPid)) :
    Numbers k { k.setProcess slot p with nextPid := nextPid } := by
  have hself : ({ k.setProcess slot p with nextPid := nextPid } : Processes).processTable slot = p :=
    Function.update_self ..
  refine ⟨slot, p.pid, nextPid, ⟨(findUnusedProcess_some hslot).2, ?_⟩, by rw [hself], hpid⟩
  rw [tasks_task, hself]
  exact hp

theorem spawnImage_numbers (request : SpawnRequest) :
    wpe (spawnImage S request) (fun r k' => ∀ pid, r = .ok pid → Numbers k.toProcesses k'.toProcesses) (fun _ => True) k :=
  spawnImage_spec S (fun _ _ => nofun) (fun _ _ _ _ _ _ hslot hpid _ _ => numbers_setProcess hslot nofun hpid)
    fun _ _ => trivial

theorem kernelThreadCreate_numbers (name : List UInt8) (flags : Nat) :
    wpe (kernelThreadCreate S name flags) (fun r k' => ∀ pid, r = some pid → Numbers k.toProcesses k'.toProcesses)
      (fun _ => True) k :=
  kernelThreadCreate_spec S (fun _ => nofun) (fun _ _ _ _ _ hslot hpid _ _ => numbers_setProcess hslot nofun hpid)
    fun _ _ => trivial

/-- Whatever shows as the making of a process makes one. -/
theorem perform_numbers (call : Call ρ) :
    wpe (perform S call) (fun e k' => e.Shows (some .spawn) → Numbers k.toProcesses k'.toProcesses) (fun _ => True) k := by
  cases call with
  | spawn request =>
    refine (spawnImage_numbers S request).bind fun r k' hnumbers hshows => ?_
    cases hshows with
    | spawn => exact hnumbers _ rfl
  | thread name flags =>
    refine (kernelThreadCreate_numbers S name flags).bind fun r k' hnumbers hshows => ?_
    cases hshows with
    | thread => exact hnumbers _ rfl
  | tick | yield | sleep | work => exact (wpe.of_forall _ (fun _ _ => trivial) fun _ => trivial).bind fun _ _ _ => nofun
  | wait | resume | exit | fault =>
    unfold perform
    rw [wpe_bind, wpe_get]
    exact (wpe.of_forall _ (fun _ _ => trivial) fun _ => trivial).bind fun _ _ _ => nofun

variable {S}

theorem Step.numbered (h : Step S k e k') (hs : k.tasks.Sound) (hn : k.tasks.Numbered) : k'.tasks.Numbered := by
  obtain ⟨l, hl, hmade⟩ := h.made hs
  refine hmade.numbered hs hn fun hspawn => ?_
  subst hspawn
  obtain ⟨call, -, hok⟩ := h
  obtain ⟨i, pid, nextPid, hborn, hpid, halloc⟩ := (perform_numbers S call).of_ok hok hl
  refine ⟨i, hborn, ?_⟩
  rw [tasks_task]
  exact hpid.trans_le (allocatePid_le halloc hn.nextPid)

/-- In every run no two processes have the same pid, all but the first have one in range, and `allocate_pid` finds
another among 17 candidates at most. -/
theorem pids_unique {k₀ : Kernel ρ} {bootStackTop flags : Nat}
    (hstart : k₀.toProcesses = schedulerInit bootStackTop flags) (hrun : Run (Step S) k₀ es k) :
    (∀ i j, (k.processTable i).state ≠ .unused → (k.processTable j).state ≠ .unused →
      (k.processTable i).pid = (k.processTable j).pid → i = j) ∧
    (∀ i, i ≠ 0 → (k.processTable i).state ≠ .unused → 1 ≤ (k.processTable i).pid ∧ (k.processTable i).pid ≤ 0x7FFFFFFF) ∧
    ∃ pid nextPid, k.allocatePid = some (pid, nextPid) ∧ (k.nextPid = 0 → k.allocatePidFrom 17 1 = some pid) := by
  have halone := alone_schedulerInit hstart
  have hnumbered : k₀.tasks.Numbered := by
    have hnext : k₀.nextPid = 1 := congrArg Processes.nextPid hstart
    exact ⟨hnext.trans_le (by decide), fun i hi hused => absurd (halone.others i hi) hused⟩
  obtain ⟨hs, hn⟩ := hrun.invariant (I := fun k => k.tasks.Sound ∧ k.tasks.Numbered) ⟨halone.sound, hnumbered⟩
    fun k e k' ⟨hs, hn⟩ hstep => by
      obtain ⟨l, -, hmade⟩ := hstep.made hs
      exact ⟨hmade.sound hs, hstep.numbered hs hn⟩
  exact ⟨hs.unique, hn.pid, k.allocatePid_succeeds⟩

/-- Two processes are made. -/
theorem pids_unique_booted :
    ((after booted [.spawn program, .spawn program]).processTable 1).pid = 1 ∧
    ((after booted [.spawn program, .spawn program]).processTable 2).pid = 2 ∧
    (∀ i j, ((after booted [.spawn program, .spawn program]).processTable i).state ≠ .unused →
      ((after booted [.spawn program, .spawn program]).processTable j).state ≠ .unused →
      ((after booted [.spawn program, .spawn program]).processTable i).pid =
        ((after booted [.spawn program, .spawn program]).processTable j).pid → i = j) := by
  have hspawn : Step unlimited booted (.spawn (.ok 1)) (after booted [.spawn program]) := ⟨.spawn program, rfl, rfl⟩
  have hspawn' : Step unlimited (after booted [.spawn program]) (.spawn (.ok 2))
    (after booted [.spawn program, .spawn program]) := ⟨.spawn program, rfl, rfl⟩
  have hinit : booted.toProcesses = schedulerInit 0xC0110000 0 := rfl
  exact ⟨rfl, rfl, (pids_unique hinit ((Run.nil.snoc hspawn).snoc hspawn')).1⟩

end Scheduler

end MiniOrange

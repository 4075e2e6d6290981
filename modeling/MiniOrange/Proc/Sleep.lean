import MiniOrange.Proc.RoundRobin

/-!
# Sleeping

A process that has called `scheduler_sleep_current` is blocked and waits for nobody. No call of the scheduler touches the
entry of such a process (`Leaves`), other than the sweep of `scheduler_on_tick`, which compares the clock with the
deadline modulo 2^32. The deadline is less than 2^31 ticks away, so the sign of the difference tells whether it is over.
-/

namespace MiniOrange

open Processes

/-- How many ticks an event is. -/
def Event.ticks : Event → Nat
  | tick => 1
  | _ => 0

variable {ρ : Type} {i next : ProcessSlot}

/-- The process is blocked and waits for nobody. -/
structure Process.Asleep (p : Process) : Prop where
  blocked : p.state = .blocked
  alone : p.waitNode = none

/-- The clock and the entry of a process are left as they were. -/
structure Leaves (i : ProcessSlot) (k k' : Kernel ρ) : Prop where
  clock : k'.tickCount = k.tickCount
  entry : k'.processTable i = k.processTable i

theorem Leaves.trans {k k₁ k' : Kernel ρ} (h : Leaves i k k₁) (h' : Leaves i k₁ k') : Leaves i k k' :=
  ⟨h'.clock.trans h.clock, h'.entry.trans h.entry⟩

/-- A change of the running process leaves the others. -/
theorem leaves_setCurrent (k : Kernel ρ) (p : Process) (hi : i ≠ k.currentProcess) :
    Leaves i k { k with toProcesses := k.setCurrent p } := ⟨rfl, setCurrent_of_ne _ _ hi⟩

/-- The process that `switch_to` leaves. -/
theorem Processes.setCurrent_switched_previous (k : Processes) (p : Process) (resume : Resume)
    (h : k.currentProcess ≠ next) :
    ((k.setCurrent p).switched next resume).processTable k.currentProcess = { p with savedStack := resume } := by
  refine (Function.update_of_ne h ..).trans ((Function.update_self ..).trans ?_)
  rw [setCurrent_current]

/-- Whoever sleeps is not the next to run. -/
theorem Process.Asleep.ne_next {k : Processes} {after : ProcessSlot} (h : (k.processTable i).Asleep)
    (hnext : k.findNextReady after = some next) : i ≠ next := by
  intro heq
  have hready := findNextReady_some hnext
  rw [← heq, h.blocked] at hready
  cases hready

section
variable {k k' : Kernel ρ} (hsleep : (k.processTable i).Asleep) (hi : i ≠ k.currentProcess)
include hsleep hi

theorem Goes.leaves (h : Goes k k') : Leaves i k k' := by
  cases h with
  | stay p rest => exact ⟨rfl, setCurrent_of_ne _ _ hi⟩
  | switch p q next resume rest hp hnext =>
    have hsame : ∀ p, (k.setCurrent p).processTable i = k.processTable i := fun p => setCurrent_of_ne _ p hi
    have hne : i ≠ next := Process.Asleep.ne_next (hsame q ▸ hsleep) hnext
    exact ⟨rfl, (Function.update_of_ne hne ..).trans ((Function.update_of_ne hi ..).trans (hsame p))⟩

theorem Change.leaves (h : Change k k') : Leaves i k k' := by
  have hne : ∀ j, (k.processTable j).state ≠ .blocked → i ≠ j := fun j hj heq => hj (heq ▸ hsleep.blocked)
  cases h with
  | goes h => exact h.leaves hsleep hi
  | make slot p nextPid rest hunused => exact ⟨rfl, Function.update_of_ne (hne slot (by simp [hunused])) ..⟩
  | reap j p rest hzombie => exact ⟨rfl, Function.update_of_ne (hne j (by simp [hzombie])) ..⟩

/-- Only a tick touches a process that sleeps. -/
theorem Performed.leaves {call : Call ρ} (hcall : call ≠ .tick) (h : Performed k call k') : Leaves i k k' := by
  cases call with
  | tick => exact absurd rfl hcall
  | resume pid =>
    have hstack := leaves_setCurrent k { k.current with savedStack := .returns } hi
    exact hstack.trans (Change.leaves (hstack.entry ▸ hsleep) hi h)
  | exit | fault =>
    obtain ⟨code, next, rest, hnext, rfl⟩ := h
    have hdesk : (k.setDesk k.desk.vfsCloseAllCurrent).processTable i = k.processTable i := setCurrent_of_ne _ _ hi
    have hexiting : (k.exiting code).processTable i = k.processTable i := by
      rw [show (k.exiting code).processTable i = _ from exiting_processTable_of_ne _ code hi, hdesk]
      -- `wake_waiting_parent` wakes nobody who waits for nobody
      refine if_neg fun hwaits => ?_
      rw [hsleep.alone] at hwaits
      exact hwaits.2.2.elim nofun nofun
    have hne : i ≠ next := Process.Asleep.ne_next (hexiting ▸ hsleep) hnext
    exact ⟨rfl, (Function.update_of_ne hne ..).trans ((Function.update_of_ne hi ..).trans hexiting)⟩
  | work => exact h ▸ ⟨rfl, setCurrent_of_ne _ _ hi⟩
  | spawn | thread | yield | sleep | wait => exact Change.leaves hsleep hi h

end

/-! ## Deadlines -/

/-- Before its time a deadline is not due, however the clock wraps. -/
theorem not_due {start : UInt32} {m n : Nat} (hm : m < n) (hn : n ≤ 0x7FFFFFFF) :
    ¬ (start + UInt32.ofNat m - (start + UInt32.ofNat n)).toNat < 2 ^ 31 := by
  have hstart := start.toNat_lt
  simp only [UInt32.toNat_sub, UInt32.toNat_add, UInt32.toNat_ofNat']
  omega

/-- The process at `i` sleeps since the clock was `start`, for `n` ticks, of which `m` are over. -/
structure Kernel.Sleeping (k : Kernel ρ) (i : ProcessSlot) (start : UInt32) (n m : Nat) : Prop where
  asleep : (k.processTable i).Asleep
  deadline : (k.processTable i).wakeTick = (start + UInt32.ofNat n).toNat
  clock : k.tickCount = start + UInt32.ofNat m

namespace Kernel.Sleeping

variable {k : Kernel ρ} {start : UInt32} {n m : Nat}

theorem clock_succ (h : k.Sleeping i start n m) : k.tickCount + 1 = start + UInt32.ofNat (m + 1) := by
  rw [h.clock, UInt32.ofNat_add, UInt32.add_assoc]
  rfl

/-- What the sweep of a tick does to a process that sleeps. -/
theorem swept (h : k.Sleeping i start n m) : k.swept.processTable i =
    if i ≠ 0 ∧ (start + UInt32.ofNat (m + 1) - (start + UInt32.ofNat n)).toNat < 2 ^ 31 then
      { k.processTable i with wakeTick := 0, state := .ready }
    else k.processTable i := by
  show wakeIfDue (k.tickCount + 1) i (k.processTable i) = _
  unfold wakeIfDue
  rw [h.clock_succ, h.deadline, UInt32.ofNat_toNat]
  simp only [h.asleep.blocked, h.asleep.alone, true_and]

end Kernel.Sleeping

namespace Scheduler

variable {S : Services ρ} {k k₁ k' : Kernel ρ} {start : UInt32} {n m : Nat} {e : Event} {es : List Event}

/-- Whoever sleeps does not run. -/
theorem ne_current_of_asleep (hs : k.tasks.Sound) (h : (k.processTable i).Asleep) : i ≠ k.currentProcess := by
  intro heq
  have hrunning : (k.processTable i).state = .running := (hs.running i).2 heq
  rw [h.blocked] at hrunning
  cases hrunning

/-- A tick before the last leaves a process asleep. -/
theorem onTick_sleeping (hi : i ≠ k.currentProcess) (h : k.Sleeping i start n m) (hm : m + 1 < n)
    (hn : n ≤ 0x7FFFFFFF) : wpe (onTick S) (fun _ k' => k'.Sleeping i start n (m + 1)) (fun _ => True) k := by
  have hentry : k.swept.processTable i = k.processTable i := by
    rw [h.swept, if_neg fun hdue => not_due hm hn hdue.2]
  rw [wpe_onTick]
  refine (chargeTick_goes S).mono fun _ k' hgoes => ?_
  have hleaves := Goes.leaves (k := k.swept) (hentry ▸ h.asleep) hi hgoes
  have hsame : k'.processTable i = k.processTable i := hleaves.entry.trans hentry
  exact ⟨hsame ▸ h.asleep, hsame ▸ h.deadline, hleaves.clock.trans h.clock_succ⟩

/-- The last tick makes it ready; it may run at once, if the tick ends the time slice of the running process. -/
theorem onTick_due (hrun : k.current.state = .running) (hi : i ≠ k.currentProcess) (hzero : i ≠ 0) (h : k.Sleeping i start n m) (hm : m + 1 = n) :
    (k.swept.processTable i).state = .ready ∧
    wpe (onTick S) (fun _ k' => (k'.processTable i).state = .ready ∨ k'.currentProcess = i) (fun _ => True) k := by
  have hready : (k.swept.processTable i).state = .ready := by
    rw [h.swept, hm, UInt32.sub_self, if_pos ⟨hzero, by decide⟩]
  refine ⟨hready, ?_⟩
  rw [wpe_onTick]
  refine (chargeTick_goes S).mono fun _ k' hgoes => ?_
  cases hgoes.turn (Kernel.swept_current hrun ▸ hrun) with
  | inl hstays => exact .inl (hstays.ready i hi hready)
  | inr hturns => exact (hturns.ready i hi hready).symm

/-- A step that shows as a tick is a tick. -/
theorem perform_eq_tick {call : Call ρ} (hok : perform S call k = .ok (.tick, k')) : onTick S k = .ok ((), k') := by
  have hcall : wpe (perform S call) (fun e k' => e = .tick → onTick S k = .ok ((), k')) (fun _ => True) k := by
    cases call with
    | tick =>
      have honTick : wpe (onTick S) (fun _ k' => onTick S k = .ok ((), k')) (fun _ => True) k := by
        unfold wpe
        split
        · assumption
        · trivial
      exact honTick.bind fun _ _ htick _ => htick
    | spawn | thread | yield | sleep | work =>
      exact (wpe.of_forall _ (fun _ _ => trivial) fun _ => trivial).bind fun _ _ _ => nofun
    | wait | resume | exit | fault =>
      unfold perform
      rw [wpe_bind, wpe_get]
      exact (wpe.of_forall _ (fun _ _ => trivial) fun _ => trivial).bind fun _ _ _ => nofun
  exact hcall.of_ok hok rfl

/-- A step that is not the last tick leaves a process asleep. -/
theorem Step.sleeping (hstep : Step S k e k') (hs : k.tasks.Sound) (h : k.Sleeping i start n m)
    (hm : m + e.ticks < n) (hn : n ≤ 0x7FFFFFFF) : k'.Sleeping i start n (m + e.ticks) := by
  have hi := ne_current_of_asleep hs h.asleep
  obtain ⟨call, -, hok⟩ := hstep
  by_cases htick : e = .tick
  · subst htick
    exact (onTick_sleeping hi h hm hn).of_ok (perform_eq_tick hok)
  · have hcall : call ≠ .tick := by
      rintro rfl
      exact htick ((perform_tick S).of_ok hok)
    have hzero : e.ticks = 0 := by
      cases e with
      | tick => exact absurd rfl htick
      | _ => rfl
    have hleaves := ((perform_performed S call).of_ok hok).leaves h.asleep hi hcall
    rw [hzero]
    exact ⟨hleaves.entry ▸ h.asleep, hleaves.entry ▸ h.deadline, hleaves.clock.trans h.clock⟩

/-- While fewer ticks are over than a process sleeps for, it sleeps. -/
theorem sleeping_of_run (hs : k.tasks.Sound) (h : k.Sleeping i start n 0) (hn : n ≤ 0x7FFFFFFF)
    (hrun : Run (Step S) k es k') (hticks : (es.map Event.ticks).sum < n) :
    k'.tasks.Sound ∧ k'.Sleeping i start n (es.map Event.ticks).sum := by
  induction hrun with
  | nil => exact ⟨hs, h⟩
  | @snoc es k₁ k₂ e _ hstep ih =>
    rw [List.map_append, List.sum_append, List.map_singleton, List.sum_singleton] at hticks ⊢
    obtain ⟨hs₁, h₁⟩ := ih (by omega)
    obtain ⟨l, -, hmade⟩ := hstep.made hs₁
    exact ⟨hmade.sound hs₁, hstep.sleeping hs₁ h₁ hticks hn⟩

/-- `scheduler_sleep_current` puts the running process to sleep. -/
theorem sleepCurrent_sleeping (hrun : k.current.state = .running) (ticks : Nat) :
    wpe (sleepCurrent S ticks) (fun r k' => r = none → k'.Sleeping k.currentProcess k.tickCount ticks 0)
      (fun _ => True) k := by
  unfold sleepCurrent
  split
  · exact (wpe.of_forall _ (fun _ _ => trivial) fun _ => trivial).bind fun _ _ _ => nofun
  · split
    · exact nofun
    · rw [wpe_bind, wpe_get]
      split
      · exact nofun
      · next next hnext =>
        have hne : k.currentProcess ≠ next := fun heq => by
          have hready := findNextReady_some hnext
          rw [← heq, show (k.processTable k.currentProcess).state = .running from hrun] at hready
          cases hready
        rw [wpe_bind, wpe_update, wpe_bind]
        refine switchTo_moves S (fun rest _ => ?_) fun _ _ => trivial
        have hentry := k.setCurrent_switched_previous { k.current with
          wakeTick := (k.tickCount + UInt32.ofNat ticks).toNat, waitNode := none, state := .blocked } .returns hne
        refine ⟨⟨congrArg Process.state hentry, congrArg Process.waitNode hentry⟩, congrArg Process.wakeTick hentry, ?_⟩
        exact (UInt32.add_zero _).symm

theorem Step.falls_asleep (hstep : Step S k (.sleep n none) k') (hs : k.tasks.Sound) :
    k'.Sleeping k.currentProcess k.tickCount n 0 := by
  obtain ⟨call, -, hok⟩ := hstep
  have hcall : wpe (perform S call) (fun e k' => e = .sleep n none → k'.Sleeping k.currentProcess k.tickCount n 0)
      (fun _ => True) k := by
    cases call with
    | sleep ticks =>
      refine (sleepCurrent_sleeping hs.cur_state ticks).bind fun r k' hsleeping heq => ?_
      obtain ⟨rfl, rfl⟩ := Event.sleep.inj heq
      exact hsleeping rfl
    | tick | spawn | thread | yield | work =>
      exact (wpe.of_forall _ (fun _ _ => trivial) fun _ => trivial).bind fun _ _ _ => nofun
    | wait | resume | exit | fault =>
      unfold perform
      rw [wpe_bind, wpe_get]
      exact (wpe.of_forall _ (fun _ _ => trivial) fun _ => trivial).bind fun _ _ _ => nofun
  exact hcall.of_ok hok rfl

/-- A process that sleeps for `n` ticks is blocked until the tick that is the `n`-th, whatever else is done; the sweep of
that tick makes it ready, and it is ready behind the tick or runs. -/
theorem sleep_deadline {k₀ : Kernel ρ} {es₀ : List Event} (hstart : Alone k₀.toProcesses)
    (hboot : Run (Step S) k₀ es₀ k) (hzero : k.currentProcess ≠ 0) (hn : n ≤ 0x7FFFFFFF)
    (hsleep : Step S k (.sleep n none) k₁) :
    (∀ es k₂, Run (Step S) k₁ es k₂ → (es.map Event.ticks).sum < n →
      (k₂.processTable k.currentProcess).state = .blocked) ∧
    ∀ es k₂ k₃, Run (Step S) k₁ es k₂ → (es.map Event.ticks).sum + 1 = n → Step S k₂ .tick k₃ →
      (k₂.swept.processTable k.currentProcess).state = .ready ∧
      ((k₃.processTable k.currentProcess).state = .ready ∨
        k₃.currentProcess = k.currentProcess ∧ (k₃.processTable k.currentProcess).state = .running) := by
  obtain ⟨hs, -⟩ := sound_of_run hstart hboot
  obtain ⟨hs₁, -⟩ := sound_of_run hstart (hboot.snoc hsleep)
  have hasleep := hsleep.falls_asleep hs
  refine ⟨fun es k₂ hrun hticks => (sleeping_of_run hs₁ hasleep hn hrun hticks).2.asleep.blocked, ?_⟩
  intro es k₂ k₃ hrun hticks htick
  obtain ⟨hs₂, h₂⟩ := sleeping_of_run hs₁ hasleep hn hrun (by omega)
  obtain ⟨l, -, hmade⟩ := htick.made hs₂
  have hs₃ := hmade.sound hs₂
  obtain ⟨call, -, hok⟩ := htick
  obtain ⟨hready, hdue⟩ := onTick_due (S := S) hs₂.cur_state (ne_current_of_asleep hs₂ h₂.asleep) hzero h₂ hticks
  refine ⟨hready, (hdue.of_ok (perform_eq_tick hok)).imp_right fun hcurrent => ⟨hcurrent, ?_⟩⟩
  exact (hs₃.running _).2 hcurrent.symm

/-- A process is made, which sleeps for two ticks. -/
theorem sleep_deadline_booted :
    ((after booted [.spawn program, .yield, .sleep 2, .tick]).processTable 1).state = .blocked ∧
    ((after booted [.spawn program, .yield, .sleep 2, .tick]).swept.processTable 1).state = .ready := by
  have hspawn : Step unlimited booted (.spawn (.ok 1)) (after booted [.spawn program]) := ⟨.spawn program, rfl, rfl⟩
  have hyield : Step unlimited (after booted [.spawn program]) .yield (after booted [.spawn program, .yield]) :=
    ⟨.yield, rfl, rfl⟩
  have hsleep : Step unlimited (after booted [.spawn program, .yield]) (.sleep 2 none)
    (after booted [.spawn program, .yield, .sleep 2]) := ⟨.sleep 2, rfl, rfl⟩
  have htick : Step unlimited (after booted [.spawn program, .yield, .sleep 2]) .tick
    (after booted [.spawn program, .yield, .sleep 2, .tick]) := ⟨.tick, rfl, rfl⟩
  have htick' : Step unlimited (after booted [.spawn program, .yield, .sleep 2, .tick]) .tick
    (after booted [.spawn program, .yield, .sleep 2, .tick, .tick]) := ⟨.tick, rfl, rfl⟩
  obtain ⟨hblocked, hready⟩ := sleep_deadline alone_booted ((Run.nil.snoc hspawn).snoc hyield) (by decide) (by decide) hsleep
  exact ⟨hblocked _ _ (.single htick) (by decide), (hready _ _ _ (.single htick) rfl htick').1⟩

end Scheduler

end MiniOrange

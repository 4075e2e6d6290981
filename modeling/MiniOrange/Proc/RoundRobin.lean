import MiniOrange.Proc.Steps

/-!
# Turns

`find_next_ready` goes round the table from the running process. A process that is ready stays so until it is switched
to, and each switch goes to a process that is not behind it in this order (`Turn`). So the running process comes nearer to
a process that waits for its turn, and cannot come round to where it was.
-/

namespace MiniOrange

namespace Processes

variable {k k₁ k' : Processes} {c n p q : ProcessSlot}

/-- How far it is from `a` to `b` in the order of the table. -/
def ahead (a b : ProcessSlot) : Nat := (b - a).val

theorem ahead_self (a : ProcessSlot) : ahead a a = 0 := by
  unfold ahead
  rw [Fin.val_sub]
  omega

theorem ahead_injective {a b c : ProcessSlot} (h : ahead a b = ahead a c) : b = c := by
  unfold ahead at h
  rw [Fin.val_sub, Fin.val_sub] at h
  apply Fin.ext
  omega

/-- The process that is found is not behind any other that is ready. -/
theorem findNextReady_ahead (h : k.findNextReady c = some n) (hq : q ≠ c)
    (hready : (k.processTable q).state = .ready) : ahead c n ≤ ahead c q := by
  obtain ⟨-, i, hi, hget, hbefore⟩ := List.find?_eq_some_iff_getElem.1 h
  have hlength : i < 16 := by simpa using hi
  have hslot : c + Fin.ofNat 16 (1 + i) = n := by simpa using hget
  have hpos : 0 < ahead c q := Nat.pos_of_ne_zero fun hzero =>
    hq (ahead_injective (hzero.trans (ahead_self c).symm))
  -- the place of `q` in the list
  obtain ⟨j, hj⟩ : ∃ j, j + 1 = ahead c q := ⟨ahead c q - 1, Nat.sub_add_cancel hpos⟩
  have hle : i ≤ j := by
    by_contra hlt
    have hplace : c + Fin.ofNat 16 (1 + j) = q := by
      unfold ahead at hj
      apply Fin.ext
      simp only [Fin.val_sub, Fin.val_add, Fin.val_ofNat] at hj ⊢
      omega
    have hnot := hbefore j (Nat.not_le.1 hlt)
    rw [List.getElem_map, List.getElem_range'_1, hplace, hready] at hnot
    cases hnot
  rw [← hj, ← hslot]
  unfold ahead
  simp only [Fin.val_sub, Fin.val_add, Fin.val_ofNat]
  omega

/-- Who is ready stays ready, and the same process runs. -/
structure Stays (k k' : Processes) : Prop where
  current : k'.currentProcess = k.currentProcess
  ready : ∀ q, q ≠ k.currentProcess → (k.processTable q).state = .ready → (k'.processTable q).state = .ready

/-- The next process runs: who is ready stays ready or is it, and it is not behind them. -/
structure Turns (k k' : Processes) : Prop where
  ne : k'.currentProcess ≠ k.currentProcess
  ready : ∀ q, q ≠ k.currentProcess → (k.processTable q).state = .ready →
    k'.currentProcess = q ∨ (k'.processTable q).state = .ready
  ahead : ∀ q, q ≠ k.currentProcess → (k.processTable q).state = .ready →
    ahead k.currentProcess k'.currentProcess ≤ ahead k.currentProcess q

/-- What a step does to those who wait for their turn. -/
def Turn (k k' : Processes) : Prop := Stays k k' ∨ Turns k k'

theorem Stays.trans (h : Stays k k₁) (h' : Stays k₁ k') : Stays k k' where
  current := h'.current.trans h.current
  ready q hq hready := h'.ready q (h.current ▸ hq) (h.ready q hq hready)

theorem Stays.turns (h : Stays k k₁) (h' : Turns k₁ k') : Turns k k' where
  ne := h.current ▸ h'.ne
  ready q hq hready := h'.ready q (h.current ▸ hq) (h.ready q hq hready)
  ahead q hq hready := h.current ▸ h'.ahead q (h.current ▸ hq) (h.ready q hq hready)

theorem Stays.turn (h : Stays k k₁) (h' : Turn k₁ k') : Turn k k' := h'.imp h.trans h.turns

/-- A change of the running process. -/
theorem stays_setCurrent (k : Processes) (p : Process) : Stays k (k.setCurrent p) where
  current := rfl
  ready q hq hready := by rwa [setCurrent_of_ne _ _ hq]

/-- A change of the entry of a process that is not ready. -/
theorem stays_setProcess (k : Processes) {i : ProcessSlot} (p : Process) (nextPid : Nat)
    (hi : (k.processTable i).state ≠ .ready) : Stays k { k.setProcess i p with nextPid := nextPid } where
  current := rfl
  ready q _ hready := by
    have hne : q ≠ i := fun heq => hi (heq ▸ hready)
    show (Function.update k.processTable i p q).state = .ready
    rwa [Function.update_of_ne hne]

/-- `switch_to` the process that `find_next_ready` has found, where neither of them is ready before the other. -/
theorem Stays.switched {k₂ : Processes} (h : Stays k k₁) (hfound : Stays k k₂) (resume : Resume)
    (hn : k₂.findNextReady k.currentProcess = some n) (hne : n ≠ k.currentProcess) : Turns k (k₁.switched n resume) where
  ne := hne
  ready q hq hready := by
    by_cases heq : q = n
    · exact .inl heq.symm
    · refine .inr ?_
      have hsame : (k₁.switched n resume).processTable q = k₁.processTable q :=
        (Function.update_of_ne heq ..).trans (Function.update_of_ne (h.current ▸ hq) ..)
      rw [hsame]
      exact h.ready q hq hready
  ahead q hq hready := findNextReady_ahead hn hq (hfound.ready q hq hready)

/-- Sleepers wake up. -/
theorem stays_roused (k : Processes) (now : UInt32) :
    Stays k { k with processTable := fun i => wakeIfDue now i (k.processTable i) } where
  current := rfl
  ready q _ hready := by
    show (wakeIfDue now q (k.processTable q)).state = .ready
    unfold wakeIfDue
    split
    · rfl
    · exact hready

/-- A parent that waits wakes up. -/
theorem stays_wakeWaitingParent (k : Processes) (child : ProcessSlot) : Stays k (k.wakeWaitingParent child) where
  current := rfl
  ready q _ hready := by
    show (wakeIfWaiting _ _ _ _).state = .ready
    rw [wakeIfWaiting_of_ne _ _ _ (by simp [hready]), hready]

end Processes

open Processes

section
variable {ρ : Type} {k k' : Kernel ρ}

theorem Goes.turn (h : Goes k k') (hrun : k.current.state = .running) : Turn k.toProcesses k'.toProcesses := by
  cases h with
  | stay p rest => exact .inl (k.stays_setCurrent p)
  | switch p q next resume rest hp hnext hne =>
    refine .inr ((k.stays_setCurrent p).switched (k.stays_setCurrent q) resume hnext fun heq => ?_)
    -- whoever runs is not ready
    have hready := findNextReady_some hnext
    rw [heq, setCurrent_self, hne heq, hrun] at hready
    cases hready

theorem Change.turn (h : Change k k') (hrun : k.current.state = .running) : Turn k.toProcesses k'.toProcesses := by
  cases h with
  | goes h => exact h.turn hrun
  | make slot p nextPid rest hunused => exact .inl (k.stays_setProcess p nextPid (by simp [hunused]))
  | reap i p rest hzombie => exact .inl (k.stays_setProcess p k.nextPid (by simp [hzombie]))

/-- Every call leaves those who are ready where they are, or it is the turn of the next. -/
theorem Performed.turn {call : Call ρ} (h : Performed k call k') (hrun : k.current.state = .running) :
    Turn k.toProcesses k'.toProcesses := by
  cases call with
  | tick => exact (k.stays_roused _).turn (Goes.turn h (Kernel.swept_current hrun ▸ hrun))
  | resume pid =>
    refine (k.stays_setCurrent _).turn (Change.turn h ?_)
    exact (congrArg Process.state (k.setCurrent_current _)).trans hrun
  | exit | fault =>
    obtain ⟨code, next, rest, hnext, rfl⟩ := h
    have hstays : Stays k.toProcesses (k.exiting code).toProcesses :=
      ((k.stays_setCurrent _).trans (stays_setCurrent ..)).trans (stays_wakeWaitingParent ..)
    refine .inr (hstays.switched hstays _ hnext fun heq => ?_)
    have hready := findNextReady_some hnext
    rw [heq, show (k.exiting code).processTable k.currentProcess = _ from exiting_current _ code] at hready
    cases hready
  | work => exact .inl (h ▸ k.stays_setCurrent _)
  | spawn | thread | yield | sleep | wait => exact Change.turn h hrun

end

namespace Scheduler

variable {ρ : Type} {k k₁ : Kernel ρ}

/-! ## No process is passed over -/

variable {S : Services ρ} {k' k₂ k₃ k₄ : Kernel ρ} {e : Event} {es : List Event} {p q : ProcessSlot}

theorem Step.turn (h : Step S k e k') (hs : k.tasks.Sound) : Turn k.toProcesses k'.toProcesses := by
  obtain ⟨call, -, hok⟩ := h
  exact ((perform_performed S call).of_ok hok).turn hs.cur_state

/-- The process at `p` is selected: it is the `current_process` of `switch_to`, which is never called for the process that
already runs. -/
def Selects (S : Services ρ) (k : Kernel ρ) (e : Event) (k' : Kernel ρ) (p : ProcessSlot) : Prop :=
  Step S k e k' ∧ k.currentProcess ≠ p ∧ k'.currentProcess = p

/-- The process at `q` is ready, and the running one is between `p` and `q`. -/
structure Nearing (p q : ProcessSlot) (k : Processes) : Prop where
  ready : (k.processTable q).state = .ready
  between : ahead p k.currentProcess < ahead p q

theorem Nearing.ne {k : Processes} (h : Nearing p q k) : q ≠ k.currentProcess := fun heq =>
  Nat.ne_of_lt h.between (congrArg (ahead p) heq.symm)

/-- From between `p` and `q` a turn goes on towards `q`. -/
theorem ahead_of_turn {c n : ProcessSlot} (hc : ahead p c < ahead p q) (hn : ahead c n ≤ ahead c q) (hne : n ≠ c)
    (hq : n ≠ q) : ahead p c < ahead p n ∧ ahead p n < ahead p q := by
  have hlt : ahead c n ≠ ahead c q := fun heq => hq (ahead_injective heq)
  have hpos : ahead c n ≠ 0 := fun hzero => hne (ahead_injective (hzero.trans (ahead_self c).symm))
  unfold ahead at *
  simp only [Fin.val_sub] at *
  omega

/-- The running process comes nearer, or it is `q`. -/
theorem Nearing.turn {k k' : Processes} (h : Nearing p q k) (hturn : Turn k k') (hq : k'.currentProcess ≠ q) :
    Nearing p q k' ∧ (k'.currentProcess = p → k.currentProcess = p) := by
  cases hturn with
  | inl hstays =>
    refine ⟨⟨hstays.ready q h.ne h.ready, ?_⟩, hstays.current ▸ id⟩
    rw [hstays.current]
    exact h.between
  | inr hturns =>
    obtain ⟨hon, hbetween⟩ := ahead_of_turn h.between (hturns.ahead q h.ne h.ready) hturns.ne hq
    refine ⟨⟨(hturns.ready q h.ne h.ready).resolve_left hq, hbetween⟩, fun hp => ?_⟩
    rw [hp, ahead_self] at hon
    exact absurd hon (Nat.not_lt_zero _)

/-- Until it is selected itself, a process that is ready stays ready and comes nearer to its turn. -/
theorem nearing_of_run {R : Kernel ρ → Event → Kernel ρ → Prop} (hs : k.tasks.Sound) (hnear : Nearing p q k.toProcesses)
    (hR : ∀ k e k', k'.tasks.Sound → R k e k' → k'.currentProcess ≠ q)
    (h : Run (fun k e k' => Step S k e k' ∧ R k e k') k es k') : k'.tasks.Sound ∧ Nearing p q k'.toProcesses := by
  refine h.invariant (I := fun k => k.tasks.Sound ∧ Nearing p q k.toProcesses) ⟨hs, hnear⟩ ?_
  intro k e k' ⟨hs, hnear⟩ ⟨hstep, hr⟩
  obtain ⟨l, -, hmade⟩ := hstep.made hs
  have hs' := hmade.sound hs
  exact ⟨hs', (hnear.turn (hstep.turn hs) (hR k e k' hs' hr)).1⟩

/-- Between two selections of a process no other stays ready all the while, and each that was ready at the first is
selected itself. -/
theorem round_robin {k₀ : Kernel ρ} {es₀ : List Event} {e₁ : Event} (hstart : Alone k₀.toProcesses)
    (hrun : Run (Step S) k₀ es₀ k₁) (hfirst : Selects S k₁ e₁ k₂ p) (hq : q ≠ p)
    (hready : (k₂.processTable q).state = .ready) :
    (∀ es k₃ e k₄, Run (fun k e k' => Step S k e k' ∧ (k'.processTable q).state = .ready) k₂ es k₃ →
      ¬ Selects S k₃ e k₄ p) ∧
    ∀ es k₃ e k₄, Run (fun k e k' => Step S k e k' ∧ k'.currentProcess ≠ q) k₂ es k₃ → ¬ Selects S k₃ e k₄ p := by
  obtain ⟨hs, -⟩ := sound_of_run hstart (hrun.snoc hfirst.1)
  have hnear : Nearing p q k₂.toProcesses := by
    refine ⟨hready, ?_⟩
    rw [hfirst.2.2, ahead_self]
    exact Nat.pos_of_ne_zero fun hzero => hq (ahead_injective (hzero.trans (ahead_self p).symm))
  -- whoever is between `p` and `q` does not switch to `p`
  have hnever : ∀ {k₃ : Kernel ρ} {e : Event} {k₄ : Kernel ρ}, k₃.tasks.Sound ∧ Nearing p q k₃.toProcesses →
      ¬ Selects S k₃ e k₄ p := by
    intro k₃ e k₄ ⟨hs₃, hnear₃⟩ ⟨hstep, hbefore, hafter⟩
    refine hbefore ((hnear₃.turn (hstep.turn hs₃) ?_).2 hafter)
    rw [hafter]
    exact hq.symm
  refine ⟨fun es k₃ e k₄ h => hnever (nearing_of_run hs hnear ?_ h), fun es k₃ e k₄ h => hnever (nearing_of_run hs hnear ?_ h)⟩
  · intro k e k' hs' hready' heq
    have hrunning : (k'.processTable q).state = .running := heq ▸ hs'.cur_state
    rw [hready'] at hrunning
    cases hrunning
  · exact fun _ _ _ _ hne => hne

/-- Two processes are made, and the first of them is selected. -/
theorem round_robin_booted :
    Selects unlimited (after booted [.spawn program, .spawn program]) .yield
      (after booted [.spawn program, .spawn program, .yield]) 1 ∧
    (∀ es k₃ e k₄, Run (fun k e k' => Step unlimited k e k' ∧ (k'.processTable 2).state = .ready)
      (after booted [.spawn program, .spawn program, .yield]) es k₃ → ¬ Selects unlimited k₃ e k₄ 1) ∧
    ∀ es k₃ e k₄, Run (fun k e k' => Step unlimited k e k' ∧ k'.currentProcess ≠ 2)
      (after booted [.spawn program, .spawn program, .yield]) es k₃ → ¬ Selects unlimited k₃ e k₄ 1 := by
  have hspawn : Step unlimited booted (.spawn (.ok 1)) (after booted [.spawn program]) := ⟨.spawn program, rfl, rfl⟩
  have hspawn' : Step unlimited (after booted [.spawn program]) (.spawn (.ok 2))
    (after booted [.spawn program, .spawn program]) := ⟨.spawn program, rfl, rfl⟩
  have hyield : Selects unlimited (after booted [.spawn program, .spawn program]) .yield
    (after booted [.spawn program, .spawn program, .yield]) 1 := ⟨⟨.yield, rfl, rfl⟩, by decide, rfl⟩
  exact ⟨hyield, round_robin alone_booted ((Run.nil.snoc hspawn).snoc hspawn') hyield (by decide) rfl⟩

end Scheduler

end MiniOrange

import MiniOrange.Proc.Steps

/-!
# What processes have of their own

A process has descriptors and a working directory. The functions of the scheduler leave both alone, but for a process
that is made, which gets the directory of its parent, and one that is reaped; and the descriptors of a process that
exits have been closed before (`perform_passed`).
-/

namespace MiniOrange

open Processes

/-- There is no process, or it has exited. -/
def ProcessState.Gone (s : ProcessState) : Prop := s = .zombie ∨ s = .unused

theorem ProcessState.not_gone {s : ProcessState} (h : s = .ready ∨ s = .running ∨ s = .blocked) : ¬ s.Gone := by
  rintro (rfl | rfl)
  · simp at h
  · simp at h

/-- A process keeps what it has, and exits only if it may. -/
structure KeptProcess (leaves : Prop) (p p' : Process) : Prop where
  fdTable : p'.fdTable = p.fdTable
  directory : p'.currentWorkingDirectory = p.currentWorkingDirectory
  gone : p'.state.Gone → p.state.Gone ∨ leaves

/-- What becomes of a process in a call by a process with this directory. -/
inductive Passes (directory : List UInt8) (leaves : Prop) (p p' : Process) : Prop
  | kept : KeptProcess leaves p p' → Passes directory leaves p p'
  | cleared : p.state = .zombie → p' = clearProcess → Passes directory leaves p p'
  | made : p.state = .unused → p'.fdTable = clearProcess.fdTable → p'.currentWorkingDirectory = directory →
      Passes directory leaves p p'

variable {leaves : Prop} {p p₁ p' : Process}

theorem KeptProcess.refl (leaves : Prop) (p : Process) : KeptProcess leaves p p := ⟨rfl, rfl, .inl⟩

theorem KeptProcess.trans (h : KeptProcess leaves p p₁) (h' : KeptProcess leaves p₁ p') : KeptProcess leaves p p' where
  fdTable := h'.fdTable.trans h.fdTable
  directory := h'.directory.trans h.directory
  gone hgone := (h'.gone hgone).elim h.gone .inr

/-- A process goes on, is ready or waits. -/
theorem KeptProcess.of_state (hfd : p'.fdTable = p.fdTable)
    (hdirectory : p'.currentWorkingDirectory = p.currentWorkingDirectory)
    (hstate : p'.state = .ready ∨ p'.state = .running ∨ p'.state = .blocked) : KeptProcess leaves p p' :=
  ⟨hfd, hdirectory, fun hgone => absurd hgone (ProcessState.not_gone hstate)⟩

namespace Processes

/-- All processes are left alone, but for one that may exit. -/
def Kept (leaver : Option ProcessSlot) (k k' : Processes) : Prop := ∀ i,
  KeptProcess (leaver = some i) (k.processTable i) (k'.processTable i)

variable {leaver : Option ProcessSlot} {k k₁ k' : Processes} {i next : ProcessSlot}

theorem Kept.refl (leaver : Option ProcessSlot) (k : Processes) : Kept leaver k k := fun _ => .refl _ _

theorem Kept.trans (h : Kept leaver k k₁) (h' : Kept leaver k₁ k') : Kept leaver k k' := fun i => (h i).trans (h' i)

/-- A change of one process. -/
theorem kept_setProcess (k : Processes) (i : ProcessSlot) (h : KeptProcess (leaver = some i) (k.processTable i) p) :
    Kept leaver k (k.setProcess i p) := by
  intro j
  by_cases hj : j = i
  · rw [hj, show (k.setProcess i p).processTable i = p from Function.update_self ..]
    exact h
  · rw [show (k.setProcess i p).processTable j = k.processTable j from Function.update_of_ne hj ..]
    exact .refl _ _

theorem kept_switched (k : Processes) (next : ProcessSlot) (resume : Resume) : Kept leaver k (k.switched next resume) := by
  have hfirst : Kept leaver k (k.setCurrent { k.current with savedStack := resume }) :=
    k.kept_setProcess _ ⟨rfl, rfl, .inl⟩
  exact hfirst.trans (kept_setProcess _ next (.of_state rfl rfl (.inr (.inl rfl))))

theorem kept_roused (k : Processes) (now : UInt32) :
    Kept leaver k { k with processTable := fun i => wakeIfDue now i (k.processTable i) } := by
  intro i
  show KeptProcess _ _ (wakeIfDue now i (k.processTable i))
  unfold wakeIfDue
  split
  · exact .of_state rfl rfl (.inl rfl)
  · exact .refl _ _

theorem kept_wakeWaitingParent (k : Processes) (child : ProcessSlot) : Kept leaver k (k.wakeWaitingParent child) := by
  intro i
  show KeptProcess _ _ (wakeIfWaiting (k.processTable child) child i (k.processTable i))
  unfold wakeIfWaiting
  split
  · exact .of_state rfl rfl (.inl rfl)
  · exact .refl _ _

/-- The running process exits. -/
theorem kept_exiting (k : Processes) (code : Int) : Kept (some k.currentProcess) k (k.exiting code) := by
  have hzombie : Kept (some k.currentProcess) k (k.setCurrent { k.current with exitCode := code, state := .zombie }) :=
    k.kept_setProcess _ ⟨rfl, rfl, fun _ => .inr rfl⟩
  exact hzombie.trans (kept_wakeWaitingParent _ _)

end Processes

variable {ρ : Type} {leaver : Option ProcessSlot}

/-- The processes and the open files are left alone. -/
structure Keeps (leaver : Option ProcessSlot) (k k' : Kernel ρ) : Prop where
  vfs : k'.vfs = k.vfs
  kept : Kept leaver k.toProcesses k'.toProcesses

/-- What a call does to the processes; it leaves the open files alone. -/
structure Passed (leaver : Option ProcessSlot) (k k' : Kernel ρ) : Prop where
  vfs : k'.vfs = k.vfs
  passes : ∀ i, Passes k.current.currentWorkingDirectory (leaver = some i) (k.processTable i) (k'.processTable i)

theorem Keeps.refl (leaver : Option ProcessSlot) (k : Kernel ρ) : Keeps leaver k k := ⟨rfl, .refl _ _⟩

theorem Keeps.trans {k k₁ k' : Kernel ρ} (h : Keeps leaver k k₁) (h' : Keeps leaver k₁ k') : Keeps leaver k k' :=
  ⟨h'.vfs.trans h.vfs, h.kept.trans h'.kept⟩

theorem Keeps.passed {k k' : Kernel ρ} (h : Keeps leaver k k') : Passed leaver k k' := ⟨h.vfs, fun i => .kept (h.kept i)⟩

/-- Another process is put into a slot. -/
theorem passed_setProcess (k : Kernel ρ) {k' : Kernel ρ} {i : ProcessSlot} (hvfs : k'.vfs = k.vfs)
    (htable : k'.processTable = (k.setProcess i p).processTable)
    (h : Passes k.current.currentWorkingDirectory (leaver = some i) (k.processTable i) p) : Passed leaver k k' := by
  refine ⟨hvfs, fun j => ?_⟩
  rw [htable]
  by_cases hj : j = i
  · rw [hj, show (k.setProcess i p).processTable i = p from Function.update_self ..]
    exact h
  · rw [show (k.setProcess i p).processTable j = k.processTable j from Function.update_of_ne hj ..]
    exact .kept (.refl _ _)

/-- What is left to do on the stack of a process does not matter. -/
theorem Passed.of_stack {k k' : Kernel ρ} {resume : Resume}
    (h : Passed leaver { k with toProcesses := k.setCurrent { k.current with savedStack := resume } } k') :
    Passed leaver k k' := by
  refine ⟨h.vfs, fun i => ?_⟩
  have hcurrent : (k.setCurrent { k.current with savedStack := resume }).current =
      { k.current with savedStack := resume } := k.setCurrent_current _
  have hpasses := h.passes i
  rw [hcurrent] at hpasses
  by_cases hi : i = k.currentProcess
  · rw [hi, show (k.setCurrent { k.current with savedStack := resume }).processTable k.currentProcess = _ from
      setCurrent_self ..] at hpasses
    rw [hi]
    cases hpasses with
    | kept hkept => exact .kept ⟨hkept.fdTable, hkept.directory, hkept.gone⟩
    | cleared hzombie hclear => exact .cleared hzombie hclear
    | made hunused hfd hdirectory => exact .made hunused hfd hdirectory
  · rwa [show (k.setCurrent { k.current with savedStack := resume }).processTable i = _ from
      setCurrent_of_ne _ _ hi] at hpasses

section
variable {k k' : Kernel ρ}

theorem Process.Same.kept {p p' : Process} (h : p.Same p') : KeptProcess leaves p p' :=
  ⟨h.fdTable, h.directory, fun hgone => h.state.elim (fun heq => .inl (heq ▸ hgone)) fun hstate =>
    absurd hgone (ProcessState.not_gone hstate)⟩

theorem Goes.keeps (h : Goes k k') : Keeps none k k' := by
  cases h with
  | stay p rest hp => exact ⟨rfl, k.kept_setProcess _ hp.kept⟩
  | switch p q next resume rest hp => exact ⟨rfl, (k.kept_setProcess _ hp.kept).trans (kept_switched _ next resume)⟩

theorem Change.passed (h : Change k k') : Passed none k k' := by
  cases h with
  | goes h => exact h.keeps.passed
  | make slot p nextPid rest hunused hfd hdirectory => exact passed_setProcess k rfl rfl (.made hunused hfd hdirectory)
  | reap i p rest hzombie hp =>
    refine passed_setProcess k rfl rfl ?_
    obtain rfl | ⟨d, rfl⟩ := hp
    · exact .cleared hzombie rfl
    · exact .kept ⟨rfl, rfl, .inl⟩

end

namespace Scheduler

variable (S : Services ρ) {k : Kernel ρ}

/-- The kernel when the running process has changed or closed its files. -/
def begun (k : Kernel ρ) : Call ρ → Kernel ρ
  | .exit _ => k.setDesk k.desk.vfsCloseAllCurrent
  | .fault _ => k.setDesk k.desk.vfsCloseAllCurrent
  | .work fdTable directory vfs rest => { k with
      toProcesses := k.setCurrent { k.current with fdTable := fdTable, currentWorkingDirectory := directory }
      vfs := vfs
      rest := rest }
  | _ => k

/-- The process that exits in a call. -/
def leaverOf (k : Kernel ρ) : Call ρ → Option ProcessSlot
  | .exit _ => some k.currentProcess
  | .fault _ => some k.currentProcess
  | _ => none

/-- What every call does to the processes, once the running process has changed or closed its files. -/
theorem perform_passed (call : Call ρ) :
    wpe (perform S call) (fun _ k' => Passed (leaverOf k call) (begun k call) k') (fun _ => True) k := by
  refine (perform_performed S call).mono fun _ k' h => ?_
  cases call with
  | tick =>
    have hswept : Keeps none k k.swept := ⟨rfl, k.kept_roused _⟩
    exact (hswept.trans (Goes.keeps h)).passed
  | resume pid => exact (Change.passed h).of_stack
  | exit | fault =>
    obtain ⟨code, next, rest, -, rfl⟩ := h
    refine Keeps.passed ⟨rfl, Kept.trans ?_ (kept_switched _ next .exited)⟩
    exact kept_exiting (k.setDesk k.desk.vfsCloseAllCurrent).toProcesses code
  | work => exact h ▸ (Keeps.refl none _).passed
  | spawn | thread | yield | sleep | wait => exact Change.passed h

variable {S} {k' : Kernel ρ} {e : Event} {es : List Event} {i : ProcessSlot}

/-- What a call does before it passes the processes on is done to the running one. -/
theorem begun_of_ne (k : Kernel ρ) (call : Call ρ) (hi : i ≠ k.currentProcess) :
    (begun k call).processTable i = k.processTable i := by
  cases call with
  | exit | fault | work => exact setCurrent_of_ne _ _ hi
  | tick | spawn | thread | yield | sleep | wait | resume => rfl

/-- A step keeps what a process has that does not run. -/
theorem Step.kept (h : Step S k e k') (hi : i ≠ k.currentProcess) (hthere : ¬ (k.processTable i).state.Gone) :
    KeptProcess False (k.processTable i) (k'.processTable i) := by
  obtain ⟨call, -, hok⟩ := h
  have hpassed := ((perform_passed S call).of_ok hok).passes i
  rw [begun_of_ne k call hi] at hpassed
  cases hpassed with
  | kept hkept =>
    refine ⟨hkept.fdTable, hkept.directory, fun hgone => (hkept.gone hgone).imp_right fun hleaver => hi ?_⟩
    cases call with
    | exit | fault => exact (Option.some.inj hleaver).symm
    | tick | spawn | thread | yield | sleep | wait | resume | work => cases hleaver
  | cleared hzombie => exact absurd (.inl hzombie) hthere
  | made hunused => exact absurd (.inr hunused) hthere

/-- **Processes are apart.** In every run, whatever the others do, a process keeps its descriptors and its working
directory as long as it does not run, and nobody ends it. -/
theorem belongings_apart (hthere : ¬ (k.processTable i).state.Gone)
    (h : Run (fun k e k' => Step S k e k' ∧ k.currentProcess ≠ i) k es k') :
    (k'.processTable i).fdTable = (k.processTable i).fdTable ∧
    (k'.processTable i).currentWorkingDirectory = (k.processTable i).currentWorkingDirectory ∧
    (k'.processTable i).state ≠ .zombie ∧ (k'.processTable i).state ≠ .unused := by
  have hkept : KeptProcess False (k.processTable i) (k'.processTable i) ∧ ¬ (k'.processTable i).state.Gone := by
    refine h.invariant (I := fun k' => KeptProcess False (k.processTable i) (k'.processTable i) ∧
      ¬ (k'.processTable i).state.Gone) ⟨.refl _ _, hthere⟩ ?_
    rintro k₁ e k₂ ⟨hkept, hthere⟩ ⟨hstep, hne⟩
    have hlast := hstep.kept hne.symm hthere
    exact ⟨hkept.trans hlast, fun hgone => (hlast.gone hgone).elim hthere id⟩
  exact ⟨hkept.1.fdTable, hkept.1.directory, not_or.1 hkept.2⟩

/-- The first process while the one that it has made exits. -/
theorem belongings_apart_booted : ((after booted [.spawn program, .yield, .exit 7]).processTable 0).fdTable =
    ((after booted [.spawn program, .yield]).processTable 0).fdTable := by
  have hexit : Step unlimited (after booted [.spawn program, .yield]) (.exit 1 0 7)
      (after booted [.spawn program, .yield, .exit 7]) := ⟨.exit 7, rfl, rfl⟩
  exact (belongings_apart (ProcessState.not_gone (.inl rfl)) (.single ⟨hexit, by decide⟩)).1

end Scheduler

end MiniOrange

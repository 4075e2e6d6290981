import MiniOrange.Logic.Holding
import MiniOrange.Proc.Belongings
import MiniOrange.Tools.Upkeep
import MiniOrange.Vfs.Effect

/-!
# Open files and who holds them

Each entry of `file_table` in use is held by exactly one descriptor of one process (`Ledger`). A call of `vfs.c` keeps
this, and so do the functions of the scheduler, as a process that exits has closed its files before
(`bookkept_of_run`).
-/

namespace MiniOrange

/-! ## The two tables -/

section
variable {ι : Type} {holds : ι → Option Handle} {files : Handle → VfsFile} {x : ι} {handle : Handle} {file : VfsFile}

/-- The places that hold entries of `file_table`, and the entries: one place for each entry in use. -/
structure Ledger (holds : ι → Option Handle) (files : Handle → VfsFile) : Prop where
  holding : Holding holds fun handle => (files handle).used = true
  held : ∀ handle, (files handle).used = true → ∃ x, holds x = some handle
  opened : ∀ handle, (files handle).used = true → (files handle).refcount = 1 ∧ (files handle).ops = true
  cleared : ∀ handle, (files handle).used = false → files handle = clearFile

namespace Ledger

/-- An entry in use is changed, but not in what the ledger is about. -/
theorem move (h : Ledger holds files) (hused : (files handle).used = true) (offset : Nat) :
    Ledger holds (Function.update files handle { files handle with offset := offset }) := by
  have hcases : ∀ other, (other = handle ∧
      Function.update files handle { files handle with offset := offset } other = { files other with offset := offset }) ∨
      Function.update files handle { files handle with offset := offset } other = files other := by
    intro other
    by_cases hother : other = handle
    · exact .inl ⟨hother, by rw [hother, Function.update_self]⟩
    · exact .inr (Function.update_of_ne hother ..)
  have hsame : ∀ other, (Function.update files handle { files handle with offset := offset } other).used =
      (files other).used := by
    intro other
    rcases hcases other with ⟨-, heq⟩ | heq
    · rw [heq]
    · rw [heq]
  refine ⟨h.holding.mono fun _ h => (hsame _).trans h, fun other h' => h.held other (hsame other ▸ h'), ?_, ?_⟩
  · intro other hother
    have hopened := h.opened other (hsame other ▸ hother)
    rcases hcases other with ⟨-, heq⟩ | heq
    · rwa [heq]
    · rwa [heq]
  · intro other hother
    rcases hcases other with ⟨rfl, -⟩ | heq
    · rw [hsame, hused] at hother
      cases hother
    · rw [heq] at hother ⊢
      exact h.cleared other hother

variable [DecidableEq ι]

/-- A file is opened: a free place gets an entry that was not in use. -/
theorem give (h : Ledger holds files) (hx : holds x = none) (hunused : (files handle).used = false) (hused : file.used = true)
    (hopened : file.refcount = 1 ∧ file.ops = true) :
    Ledger (Function.update holds x (some handle)) (Function.update files handle file) := by
  have hcases : ∀ other, (other = handle ∧ Function.update files handle file other = file) ∨
      (other ≠ handle ∧ Function.update files handle file other = files other) := by
    intro other
    by_cases hother : other = handle
    · exact .inl ⟨hother, by rw [hother, Function.update_self]⟩
    · exact .inr ⟨hother, Function.update_of_ne hother ..⟩
  constructor
  · refine h.holding.give (by rw [hunused]; decide) ?_ ?_
    · intro other hother
      rcases hcases other with ⟨-, heq⟩ | ⟨-, heq⟩
      · rwa [heq]
      · rwa [heq]
    · rwa [Function.update_self]
  · intro other hother
    rcases hcases other with ⟨rfl, -⟩ | ⟨hne, heq⟩
    · exact ⟨x, Function.update_self ..⟩
    · rw [heq] at hother
      obtain ⟨y, hy⟩ := h.held other hother
      refine ⟨y, ?_⟩
      rwa [Function.update_of_ne]
      rintro rfl
      rw [hx] at hy
      cases hy
  · intro other hother
    rcases hcases other with ⟨-, heq⟩ | ⟨-, heq⟩
    · rwa [heq]
    · rw [heq] at hother ⊢
      exact h.opened other hother
  · intro other hother
    rcases hcases other with ⟨-, heq⟩ | ⟨-, heq⟩
    · rw [heq, hused] at hother
      cases hother
    · rw [heq] at hother ⊢
      exact h.cleared other hother

/-- A file is closed: the place is empty and the entry cleared. -/
theorem takeBack (h : Ledger holds files) (hx : holds x = some handle) :
    Ledger (Function.update holds x none) (Function.update files handle clearFile) := by
  have hother : ∀ other, (Function.update files handle clearFile other).used = true →
      other ≠ handle ∧ Function.update files handle clearFile other = files other := by
    intro other hused
    by_cases hother : other = handle
    · rw [hother, Function.update_self] at hused
      cases hused
    · exact ⟨hother, Function.update_of_ne hother ..⟩
  constructor
  · refine h.holding.takeBack hx fun hne hused => ?_
    rwa [Function.update_of_ne hne]
  · intro other hused
    obtain ⟨hne, heq⟩ := hother other hused
    rw [heq] at hused
    obtain ⟨y, hy⟩ := h.held other hused
    refine ⟨y, ?_⟩
    rwa [Function.update_of_ne]
    rintro rfl
    rw [hx] at hy
    exact hne (Option.some.inj hy).symm
  · intro other hused
    obtain ⟨-, heq⟩ := hother other hused
    rw [heq] at hused ⊢
    exact h.opened other hused
  · intro other hunused
    by_cases hne : other = handle
    · rw [hne, Function.update_self]
    · rw [Function.update_of_ne hne] at hunused ⊢
      exact h.cleared other hunused

end Ledger

end

/-! ## The running process -/

namespace Processes

/-- What the descriptors of all processes hold, if those of the running process are these. -/
def holdsWith (k : Processes) (fdTable : FdTable) : ProcessSlot × Fd → Option Handle := fun x =>
  if x.1 = k.currentProcess then fdTable x.2 else (k.processTable x.1).fdTable x.2

/-- What the descriptors of all processes hold. -/
def holds (k : Processes) : ProcessSlot × Fd → Option Handle := fun x => (k.processTable x.1).fdTable x.2

theorem holdsWith_current (k : Processes) : k.holdsWith k.current.fdTable = k.holds := by
  funext x
  unfold holdsWith
  split
  · next hx => rw [holds, hx, current]
  · rfl

theorem holdsWith_update (k : Processes) (fdTable : FdTable) (descriptor : Fd) (value : Option Handle) :
    k.holdsWith (Function.update fdTable descriptor value) =
      Function.update (k.holdsWith fdTable) (k.currentProcess, descriptor) value := by
  funext x
  by_cases hx : x = (k.currentProcess, descriptor)
  · rw [hx, Function.update_self, holdsWith, if_pos rfl, Function.update_self]
  · rw [Function.update_of_ne hx]
    unfold holdsWith
    split
    · next hslot =>
      refine Function.update_of_ne (fun hdescriptor => hx ?_) ..
      rw [← hslot, ← hdescriptor]
    · rfl

end Processes

variable {ρ : Type} {k : Processes} {d d' : Desk} {s s' : Machine}

/-- The files of the running process and those of the others are in order. -/
structure Booked (k : Processes) (d : Desk) : Prop where
  ledger : Ledger (k.holdsWith d.fdTable) d.vfs.fileTable
  standard : ∀ descriptor : Fd, descriptor.val < 3 → d.fdTable descriptor = none
  initialized : d.vfs.initialized = true

namespace Booked

/-- The lock does not matter. -/
theorem setBusy (h : Booked k d) (busy : Bool) : Booked k { d with vfs := { d.vfs with busy := busy } } :=
  ⟨h.ledger, h.standard, h.initialized⟩

theorem holdsWith_of_descriptor {descriptor : Fd} {value : Option Handle} (hvalue : d.fdTable descriptor = value) :
    k.holdsWith d.fdTable (k.currentProcess, descriptor) = value := by
  rw [Processes.holdsWith, if_pos rfl, hvalue]

/-- A failed call has cleared an entry that was clear. -/
theorem undone (h : Booked k d) {handle : Handle} (hunused : (d.vfs.fileTable handle).used = false) :
    d.setFile handle clearFile = d := Desk.setFile_eq_self (h.ledger.cleared handle hunused)

theorem opened (h : Booked k d) {handle : Handle} {descriptor : Fd} (status : Stat) (flags : Nat)
    (hunused : (d.vfs.fileTable handle).used = false) (hle : 3 ≤ descriptor.val) (hfree : d.fdTable descriptor = none) :
    Booked k { d.setFile handle (openedFile status flags) with
      fdTable := Function.update d.fdTable descriptor (some handle) } := by
  refine ⟨?_, fun other hother => ?_, h.initialized⟩
  · show Ledger (k.holdsWith (Function.update d.fdTable descriptor (some handle)))
      (Function.update d.vfs.fileTable handle (openedFile status flags))
    rw [k.holdsWith_update]
    exact h.ledger.give (holdsWith_of_descriptor hfree) hunused rfl ⟨rfl, rfl⟩
  · have hne : other ≠ descriptor := by
      rintro rfl
      omega
    exact (Function.update_of_ne hne ..).trans (h.standard other hother)

theorem moved (h : Booked k d) {handle : Handle} (offset : Nat) (hused : (d.vfs.fileTable handle).used = true) :
    Booked k (d.setFile handle { d.vfs.fileTable handle with offset := offset }) :=
  ⟨h.ledger.move hused offset, h.standard, h.initialized⟩

/-- Closing a descriptor leaves it empty. -/
theorem closed (h : Booked k d) (descriptor : Fd) (hle : 3 ≤ descriptor.val) :
    (d.closeDescriptor descriptor.val).2.fdTable = Function.update d.fdTable descriptor none ∧
      Booked k (d.closeDescriptor descriptor.val).2 := by
  have hremove : d.fdRemove descriptor.val =
      (d.fdTable descriptor, { d with fdTable := Function.update d.fdTable descriptor none }) := by
    have hlt := descriptor.isLt
    have heq : Fin.ofNat 16 (descriptor.val : Int).toNat = descriptor := by
      rw [Int.toNat_natCast]
      exact Fin.ext (Nat.mod_eq_of_lt hlt)
    rw [Desk.fdRemove, if_neg (by omega), heq]
  have hstandard : ∀ other : Fd, other.val < 3 → Function.update d.fdTable descriptor none other = none := by
    intro other hother
    rw [Function.update_apply]
    split
    · rfl
    · exact h.standard other hother
  unfold Desk.closeDescriptor
  rw [hremove]
  dsimp only
  cases hslot : d.fdTable descriptor with
  | none =>
    refine ⟨rfl, ?_, hstandard, h.initialized⟩
    have hsame : Function.update d.fdTable descriptor none = d.fdTable := by rw [← hslot, Function.update_eq_self]
    show Ledger (k.holdsWith (Function.update d.fdTable descriptor none)) d.vfs.fileTable
    rw [hsame]
    exact h.ledger
  | some handle =>
    have hheld := holdsWith_of_descriptor (k := k) hslot
    have hused := h.ledger.holding.used hheld
    obtain ⟨hone, hops⟩ := h.ledger.opened handle hused
    have hfile : ({ d with fdTable := Function.update d.fdTable descriptor none } : Desk).fileFromHandle (some handle) =
        some handle := by
      simp [Desk.fileFromHandle, hused, hone, hops]
    rw [hfile]
    dsimp only
    have hdrop : ({ d with fdTable := Function.update d.fdTable descriptor none } : Desk).dropFile handle =
        ({ d with fdTable := Function.update d.fdTable descriptor none } : Desk).setFile handle clearFile := by
      unfold Desk.dropFile
      dsimp only
      rw [hone, if_pos rfl]
    rw [hdrop]
    refine ⟨rfl, ?_, hstandard, h.initialized⟩
    show Ledger (k.holdsWith (Function.update d.fdTable descriptor none))
      (Function.update d.vfs.fileTable handle clearFile)
    rw [k.holdsWith_update]
    exact h.ledger.takeBack hheld

theorem closeDescriptor (h : Booked k d) (descriptor : Int) : Booked k (d.closeDescriptor descriptor).2 := by
  by_cases hout : descriptor < 3 ∨ descriptor ≥ 16
  · have hsame : d.closeDescriptor descriptor = (.error .ebadf, d) := by
      unfold Desk.closeDescriptor Desk.fdRemove
      rw [if_pos hout]
      rfl
    rwa [hsame]
  · rw [not_or] at hout
    obtain ⟨n, rfl⟩ : ∃ n : Nat, descriptor = n := ⟨descriptor.toNat, by omega⟩
    exact (h.closed ⟨n, by omega⟩ (by show 3 ≤ n; omega)).2

/-- The lock is not changed. -/
theorem closeDescriptor_busy (d : Desk) (descriptor : Int) : (d.closeDescriptor descriptor).2.vfs.busy = d.vfs.busy := by
  have hremove : (d.fdRemove descriptor).2.vfs.busy = d.vfs.busy := by
    unfold Desk.fdRemove
    split
    · rfl
    · rfl
  unfold Desk.closeDescriptor
  dsimp only
  cases (d.fdRemove descriptor).2.fileFromHandle (d.fdRemove descriptor).1 with
  | none => exact hremove
  | some file => exact hremove

/-- What the calls of `vfs.c` keep. -/
theorem effect (h : Booked k d) (heffect : FileEffect d s d' s') : Booked k d' := by
  cases heffect with
  | refused => exact h
  | «open» hopen =>
    cases hopen with
    | full => exact h
    | missing hunused => rwa [h.undone hunused]
    | directory hunused => rwa [h.undone hunused]
    | stuck hunused => rwa [h.undone hunused]
    | crowded hunused => rwa [h.undone hunused]
    | opened hunused _ _ _ hle hfree => exact h.opened _ _ hunused hle hfree
  | close descriptor => exact h.closeDescriptor descriptor
  | transfer offset hused => exact h.moved offset hused
  | seek offset hused => exact h.moved offset hused
  | lookup => exact h
  | mkdir => exact h
  | unlink => exact h

/-- A round of the loop of `vfs_close_all_current`. -/
theorem closeIfOpen (h : Booked k d) (hfree : d.vfs.busy = false) (descriptor : Fd) (hle : 3 ≤ descriptor.val) :
    (d.closeIfOpen descriptor.val).fdTable = Function.update d.fdTable descriptor none ∧
      (d.closeIfOpen descriptor.val).vfs.busy = false ∧ Booked k (d.closeIfOpen descriptor.val) := by
  unfold Desk.closeIfOpen
  split
  · rw [Desk.vfsClose_eq h.initialized hfree]
    obtain ⟨htable, hbooked⟩ := h.closed descriptor hle
    exact ⟨htable, (closeDescriptor_busy d _).trans hfree, hbooked⟩
  · next hnone =>
    have hlt := descriptor.isLt
    have heq : Fin.ofNat 16 (descriptor.val : Int).toNat = descriptor := by
      rw [Int.toNat_natCast]
      exact Fin.ext (Nat.mod_eq_of_lt hlt)
    rw [Desk.fdGet, if_neg (by omega), heq, Option.not_isSome_iff_eq_none] at hnone
    exact ⟨by rw [← hnone, Function.update_eq_self], hfree, h⟩

/-- The loop of `vfs_close_all_current` from `first` on. -/
theorem closeLoop (count : Nat) : ∀ {d first}, Booked k d → d.vfs.busy = false → 3 ≤ first → first + count = 16 →
    (∀ descriptor : Fd, descriptor.val < first → d.fdTable descriptor = none) →
    let d' := (List.range' first count).foldl Desk.closeIfOpen d
    Booked k d' ∧ d'.vfs.busy = false ∧ ∀ descriptor, d'.fdTable descriptor = none := by
  induction count with
  | zero =>
    intro d first h hfree _ hfirst hempty
    exact ⟨h, hfree, fun descriptor => hempty descriptor (by have := descriptor.isLt; omega)⟩
  | succ count ih =>
    intro d first h hfree hle hfirst hempty
    rw [List.range'_succ, List.foldl_cons]
    obtain ⟨htable, hfree', h'⟩ := h.closeIfOpen hfree ⟨first, by omega⟩ hle
    refine ih h' hfree' (by omega) (by omega) fun descriptor hlt => ?_
    rw [htable, Function.update_apply]
    split
    · rfl
    · next hne =>
      refine hempty descriptor ?_
      have : descriptor.val ≠ first := fun heq => hne (Fin.ext heq)
      omega

/-- `vfs_close_all_current` closes everything. -/
theorem closeAll (h : Booked k d) (hfree : d.vfs.busy = false) :
    Booked k d.vfsCloseAllCurrent ∧ d.vfsCloseAllCurrent.vfs.busy = false ∧
      ∀ descriptor, d.vfsCloseAllCurrent.fdTable descriptor = none := by
  unfold Desk.vfsCloseAllCurrent
  rw [if_neg (by rw [h.initialized]; decide)]
  exact closeLoop 13 h hfree (Nat.le_refl 3) rfl h.standard

end Booked

/-! ## All processes -/

/-- The files of all processes are in order, and no call is under way. -/
structure Bookkept (k : Kernel ρ) : Prop where
  initialized : k.vfs.initialized = true
  free : k.vfs.busy = false
  ledger : Ledger k.holds k.vfs.fileTable
  standard : ∀ i, ∀ descriptor : Fd, descriptor.val < 3 → (k.processTable i).fdTable descriptor = none
  gone : ∀ i, (k.processTable i).state.Gone → ∀ descriptor, (k.processTable i).fdTable descriptor = none

namespace Bookkept

variable {k k' : Kernel ρ}

theorem booked (h : Bookkept k) : Booked k.toProcesses k.desk :=
  ⟨by rw [show k.desk.fdTable = k.current.fdTable from rfl, k.holdsWith_current]; exact h.ledger,
    h.standard k.currentProcess, h.initialized⟩

/-- The running process has other files. -/
theorem setDesk (h : Bookkept k) (hd : Booked k.toProcesses d) (hfree : d.vfs.busy = false)
    (hgone : k.current.state.Gone → ∀ descriptor, d.fdTable descriptor = none) : Bookkept (k.setDesk d) := by
  have htable : ∀ i, ((k.setDesk d).processTable i).fdTable =
      if i = k.currentProcess then d.fdTable else (k.processTable i).fdTable := by
    intro i
    by_cases hi : i = k.currentProcess
    · rw [if_pos hi, hi]
      exact congrArg Process.fdTable (Processes.setCurrent_self ..)
    · rw [if_neg hi]
      exact congrArg Process.fdTable (Processes.setCurrent_of_ne _ _ hi)
  have hholds : (k.setDesk d).holds = k.holdsWith d.fdTable := by
    funext x
    show ((k.setDesk d).processTable x.1).fdTable x.2 = _
    rw [htable, Processes.holdsWith, apply_ite (fun t : FdTable => t x.2)]
  refine ⟨hd.initialized, hfree, hholds ▸ hd.ledger, fun i descriptor hlt => ?_, fun i hi descriptor => ?_⟩
  · rw [htable]
    split
    · exact hd.standard descriptor hlt
    · exact h.standard i descriptor hlt
  · rw [htable]
    split
    · next heq =>
      refine hgone ?_ descriptor
      rw [heq, show ((k.setDesk d).processTable k.currentProcess) = _ from Processes.setCurrent_self ..] at hi
      exact hi
    · next hne =>
      rw [show ((k.setDesk d).processTable i) = _ from Processes.setCurrent_of_ne _ _ hne] at hi
      exact h.gone i hi descriptor

/-- A change of the processes that leaves the files. -/
theorem congr (h : Bookkept k) (hvfs : k'.vfs = k.vfs)
    (htable : ∀ i, (k'.processTable i).fdTable = (k.processTable i).fdTable)
    (hgone : ∀ i, (k'.processTable i).state.Gone →
      (k.processTable i).state.Gone ∨ ∀ descriptor, (k.processTable i).fdTable descriptor = none) : Bookkept k' := by
  have hholds : k'.holds = k.holds := funext fun x => congrFun (htable x.1) x.2
  refine ⟨hvfs ▸ h.initialized, hvfs ▸ h.free, hholds ▸ hvfs ▸ h.ledger, ?_, ?_⟩
  · exact fun i descriptor hlt => htable i ▸ h.standard i descriptor hlt
  · intro i hi
    rw [htable]
    exact (hgone i hi).elim (h.gone i) id

/-- What the scheduler does leaves the files; one that exits has none. -/
theorem passed {leaver : Option ProcessSlot} (h : Bookkept k) (hpassed : Passed leaver k k')
    (hleaver : ∀ i, leaver = some i → ∀ descriptor, (k.processTable i).fdTable descriptor = none) : Bookkept k' := by
  have htable : ∀ i, (k'.processTable i).fdTable = (k.processTable i).fdTable := by
    intro i
    cases hpassed.passes i with
    | kept hkept => exact hkept.fdTable
    | cleared hzombie hclear =>
      rw [hclear]
      exact (funext (h.gone i (.inl hzombie))).symm
    | made hunused hfd =>
      rw [hfd]
      exact (funext (h.gone i (.inr hunused))).symm
  refine h.congr hpassed.vfs htable fun i hi => ?_
  cases hpassed.passes i with
  | kept hkept => exact (hkept.gone hi).imp_right (hleaver i)
  | cleared hzombie => exact .inl (.inl hzombie)
  | made hunused => exact .inl (.inr hunused)

end Bookkept

/-! ## Runs -/

/-- The kernel and its file system. -/
structure Host (ρ : Type) where
  kernel : Kernel ρ
  fs : Machine

namespace Host

variable {S : Services ρ} {h h' h₀ : Host ρ} {e : Event} {es : List Event}

/-- What a call of `vfs.c` by the running process works on. -/
def station (h : Host ρ) : Station := ⟨h.kernel.desk, h.fs⟩

/-- The kernel when a call of `vfs.c` has returned. -/
def back (h : Host ρ) (st : Station) : Host ρ := ⟨h.kernel.setDesk st.desk, st.fs⟩

/-- A step: a call of the scheduler or other work, which leaves the files alone, or a call of `vfs.c` by the running
process. -/
inductive Step (S : Services ρ) (h : Host ρ) : Event → Host ρ → Prop
  | schedule {call : Call ρ} {e : Event} {k' : Kernel ρ} : call.Allowed h.kernel.toProcesses →
      (∀ fdTable directory vfs rest, call = .work fdTable directory vfs rest →
        fdTable = h.kernel.current.fdTable ∧ vfs = h.kernel.vfs) →
      Scheduler.perform S call h.kernel = .ok (e, k') → Step S h e ⟨k', h.fs⟩
  | file (request : FileRequest) : h.kernel.current.savedStack = .returns →
      Step S h .work (h.back (request.run h.station).2)

/-- For the scheduler a call of `vfs.c` is other work. -/
theorem Step.kernel (hstep : Step S h e h') : Scheduler.Step S h.kernel e h'.kernel := by
  cases hstep with
  | schedule hallowed _ hok => exact ⟨_, hallowed, hok⟩
  | file request hreturns =>
    exact ⟨.work (request.run h.station).2.desk.fdTable h.kernel.current.currentWorkingDirectory
      (request.run h.station).2.desk.vfs h.kernel.rest, hreturns, rfl⟩

/-- A call of `vfs.c` keeps the files in order. -/
theorem bookkept_file {st' : Station} (hk : Bookkept h.kernel) (hrun : h.kernel.current.state = .running)
    (heffect : CallEffect h.station st') : Bookkept (h.kernel.setDesk st'.desk) := by
  have hgone : h.kernel.current.state.Gone → ∀ descriptor, st'.desk.fdTable descriptor = none := fun hgone =>
    absurd hgone (ProcessState.not_gone (.inr (.inl hrun)))
  cases heffect with
  | refused => exact hk.setDesk hk.booked hk.free hgone
  | looked path => exact hk.setDesk hk.booked hk.free hgone
  | made _ heffect => exact hk.setDesk (((hk.booked.setBusy true).effect heffect).setBusy false) rfl hgone

/-- A call of the scheduler keeps the files in order. -/
theorem bookkept_call {k k' : Kernel ρ} {call : Call ρ} (hk : Bookkept k)
    (hwork : ∀ fdTable directory vfs rest, call = .work fdTable directory vfs rest →
      fdTable = k.current.fdTable ∧ vfs = k.vfs) (hok : Scheduler.perform S call k = .ok (e, k')) : Bookkept k' := by
  obtain ⟨hclosed, hfree, hempty⟩ := hk.booked.closeAll hk.free
  have hexit : Bookkept (k.setDesk k.desk.vfsCloseAllCurrent) := hk.setDesk hclosed hfree fun _ => hempty
  have hleaver : ∀ i, some k.currentProcess = some i →
      ∀ descriptor, ((k.setDesk k.desk.vfsCloseAllCurrent).processTable i).fdTable descriptor = none := by
    intro i hi descriptor
    rw [← Option.some.inj hi,
      show (k.setDesk k.desk.vfsCloseAllCurrent).processTable k.currentProcess = _ from Processes.setCurrent_self ..]
    exact hempty descriptor
  have hpassed := (Scheduler.perform_passed S call).of_ok hok
  cases call with
  | exit code => exact hexit.passed hpassed hleaver
  | fault frame => exact hexit.passed hpassed hleaver
  | work fdTable directory vfs rest =>
    obtain ⟨rfl, rfl⟩ := hwork fdTable directory vfs rest rfl
    let p := { k.current with fdTable := k.current.fdTable, currentWorkingDirectory := directory }
    have hbegun : Bookkept (Scheduler.begun k (.work k.current.fdTable directory k.vfs rest)) := by
      have hkept : ∀ i, ((k.setCurrent p).processTable i).fdTable = (k.processTable i).fdTable ∧
          ((k.setCurrent p).processTable i).state = (k.processTable i).state := by
        intro i
        by_cases hi : i = k.currentProcess
        · rw [hi, Processes.setCurrent_self]
          exact ⟨rfl, rfl⟩
        · rw [Processes.setCurrent_of_ne _ _ hi]
          exact ⟨rfl, rfl⟩
      exact hk.congr rfl (fun i => (hkept i).1) fun i hi => .inl ((hkept i).2 ▸ hi)
    exact hbegun.passed hpassed nofun
  | tick | spawn | thread | yield | sleep | wait | resume => exact hk.passed hpassed nofun

/-- The processes are sound and their files in order in every run. -/
theorem bookkept_of_run {bootStackTop flags : Nat} (hstart : h₀.kernel.toProcesses = Processes.schedulerInit bootStackTop flags)
    (hvfs : h₀.kernel.vfs = vfsInit) (hrun : Run (Step S) h₀ es h) : h.kernel.tasks.Sound ∧ Bookkept h.kernel := by
  have halone := Scheduler.alone_schedulerInit hstart
  have hempty : ∀ i, (h₀.kernel.processTable i).fdTable = fun _ => none := by
    intro i
    rw [hstart, Processes.schedulerInit]
    dsimp only
    rw [Function.update_apply]
    split
    · rfl
    · rfl
  refine hrun.invariant (I := fun h => h.kernel.tasks.Sound ∧ Bookkept h.kernel) ⟨halone.sound, ?_⟩ ?_
  · refine ⟨by rw [hvfs]; rfl, by rw [hvfs]; rfl, ?_, fun i descriptor _ => congrFun (hempty i) descriptor,
      fun i _ => congrFun (hempty i)⟩
    have hunused : ∀ handle, (h₀.kernel.vfs.fileTable handle).used = false := fun _ => by rw [hvfs]; rfl
    have hnone : ∀ x, h₀.kernel.holds x = none := fun x => congrFun (hempty x.1) x.2
    refine ⟨⟨fun hx => ?_, fun hx => ?_⟩, fun handle hused => ?_, fun handle hused => ?_, fun handle _ => by rw [hvfs]; rfl⟩
    · rw [hnone] at hx
      cases hx
    · rw [hnone] at hx
      cases hx
    · rw [hunused] at hused
      cases hused
    · rw [hunused] at hused
      cases hused
  · rintro h e h' ⟨hs, hk⟩ hstep
    obtain ⟨l, -, hmade⟩ := hstep.kernel.made hs
    refine ⟨hmade.sound hs, ?_⟩
    cases hstep with
    | schedule _ hwork hok => exact bookkept_call hk hwork hok
    | file request => exact bookkept_file hk hs.cur_state request.run_effect

end Host

/-- In every run each file in use is held by one descriptor, its count says so, and the descriptors of processes hold
files in use; the standard descriptors and those of processes that are gone are empty. -/
theorem descriptors_bookkept {S : Services ρ} {h₀ h : Host ρ} {es : List Event} {bootStackTop flags : Nat}
    (hstart : h₀.kernel.toProcesses = Processes.schedulerInit bootStackTop flags) (hvfs : h₀.kernel.vfs = vfsInit)
    (hrun : Run (Host.Step S) h₀ es h) :
    (∀ handle, (h.kernel.vfs.fileTable handle).used = true →
      (h.kernel.vfs.fileTable handle).refcount =
        (Finset.univ.filter fun x : ProcessSlot × Fd => (h.kernel.processTable x.1).fdTable x.2 = some handle).card ∧
      (h.kernel.vfs.fileTable handle).refcount = 1) ∧
    (∀ i descriptor handle, (h.kernel.processTable i).fdTable descriptor = some handle →
      (h.kernel.vfs.fileTable handle).used = true ∧ (h.kernel.vfs.fileTable handle).ops = true) ∧
    (∀ i, ∀ descriptor : Fd, descriptor.val < 3 → (h.kernel.processTable i).fdTable descriptor = none) ∧
    ∀ i, (h.kernel.processTable i).state = .zombie ∨ (h.kernel.processTable i).state = .unused →
      ∀ descriptor, (h.kernel.processTable i).fdTable descriptor = none := by
  obtain ⟨-, hk⟩ := Host.bookkept_of_run hstart hvfs hrun
  refine ⟨fun handle hused => ?_, fun i descriptor handle hheld => ?_, hk.standard, hk.gone⟩
  · obtain ⟨x, hx⟩ := hk.ledger.held handle hused
    have hone := (hk.ledger.opened handle hused).1
    refine ⟨?_, hone⟩
    rw [hone, eq_comm, Finset.card_eq_one]
    refine ⟨x, Finset.eq_singleton_iff_unique_mem.2 ⟨Finset.mem_filter.2 ⟨Finset.mem_univ x, hx⟩, fun y hy => ?_⟩⟩
    exact hk.ledger.holding.unique (Finset.mem_filter.1 hy).2 hx
  · have hused := hk.ledger.holding.used (x := (i, descriptor)) hheld
    exact ⟨hused, (hk.ledger.opened handle hused).2⟩

/-- The first process opens the root of a volume. -/
theorem descriptors_bookkept_root : ∃ (h : Host Unit) (descriptor : Fd) (handle : Handle),
    h.kernel.current.fdTable descriptor = some handle ∧ (h.kernel.vfs.fileTable handle).used = true ∧
      (h.kernel.vfs.fileTable handle).refcount =
        (Finset.univ.filter fun x : ProcessSlot × Fd => (h.kernel.processTable x.1).fdTable x.2 = some handle).card ∧
      (h.kernel.vfs.fileTable handle).refcount = 1 := by
  obtain ⟨volume, sb, -, -, hroot, -, hs, hflat⟩ := Tools.exists_flat_mounted Tools.flatNames_oneName (by decide)
  have hv := hflat.consistent Tools.flatNames_oneName hroot
  generalize (minifsMount (Tools.bootMachine 24 volume)).2 = fs at hs
  let h₀ : Host Unit := ⟨Scheduler.booted, fs⟩
  have hopen : wp (vfsOpen [0x2F] 0) (fun _ st => ∃ (descriptor : Fd) (handle : Handle),
      st.desk.fdTable descriptor = some handle ∧ (st.desk.vfs.fileTable handle).used = true) h₀.station := by
    refine vfsCall_cases (fun hrefused => absurd hrefused (by simp [h₀, Host.station, Kernel.desk, Scheduler.booted]; decide))
      nofun fun _ _ => (openLocked_effect [0x2F] 0).mono fun r ⟨d, s⟩ heffect => ?_
    dsimp only at heffect
    have hfound := lookupOrCreate_of_ok 0 (((hs.setInterrupts false).lookup [0x2F]).1.trans hv.lookup_root)
    cases heffect with
    | full hfull => cases hfull 0
    | missing _ hmissing =>
      rw [show h₀.station.enter.fs = { fs with interrupts := false } from rfl, hfound] at hmissing
      cases hmissing
    | directory _ _ _ hwrite => exact absurd hwrite (by decide)
    | stuck _ _ htrunc => cases htrunc
    | crowded _ _ _ _ hcrowded => exact absurd rfl (hcrowded 3 (by decide))
    | @opened handle status _ _ descriptor =>
      refine ⟨descriptor, handle, Function.update_self .., ?_⟩
      show ((Desk.setFile _ handle (openedFile status 0)).vfs.fileTable handle).used = true
      rw [Desk.setFile_self]
      rfl
  obtain ⟨descriptor, handle, hheld, hused⟩ := hopen
  have hstep : Host.Step Scheduler.unlimited h₀ .work (h₀.back ((FileRequest.openPath [0x2F] 0).run h₀.station).2) :=
    .file (.openPath [0x2F] 0) rfl
  have hinit : h₀.kernel.toProcesses = Processes.schedulerInit 0xC0110000 0 := rfl
  have hbook := descriptors_bookkept hinit rfl (.single hstep)
  refine ⟨_, descriptor, handle, ?_, hused, hbook.1 handle hused⟩
  exact (congrFun (congrArg Process.fdTable (Processes.setCurrent_self ..)) descriptor).trans hheld

end MiniOrange

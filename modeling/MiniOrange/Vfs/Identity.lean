import MiniOrange.Fs.Inodes
import MiniOrange.Vfs.FailedOpen

/-!
# An open file stays the file it was opened on

An entry of `file_table` names its file by the number of an inode, and numbers are used again. `vfs_unlink` refuses to
remove a file that is open; but it looks the path up by `minifs_lookup`, and `minifs_unlink` resolves it again by other
functions. Beside a run it is recorded how often each number has been given out, and how often its number had been when an
entry was opened (`Issues`). What is shown holds whatever transfers fail and whatever has become of the volume.
-/

namespace MiniOrange

variable {E : Env} {μ μ' : Roster} {s s' : Machine} {d d' : Desk} {ρ : Type}

/-! ## What a call does to the open files -/

/-- Each open file is in use, with its mode. -/
def Roster.Backs (μ : Roster) (table : Handle → VfsFile) : Prop := ∀ handle, (table handle).used = true →
  μ.imap (table handle).inode = true ∧ (μ.ino (table handle).inode).mode = (table handle).mode

/-- What is open was open before, on the same file, or is opened now. -/
def Retains (table table' : Handle → VfsFile) : Prop := ∀ handle, (table' handle).used = true →
  (table handle).used = true → (table' handle).inode = (table handle).inode

/-- No open file is replaced by another. -/
def Narrows (table table' : Handle → VfsFile) : Prop := ∀ handle, (table' handle).used = true →
  (table handle).used = true ∧ (table' handle).inode = (table handle).inode ∧ (table' handle).mode = (table handle).mode

variable {table table₁ table' : Handle → VfsFile}

theorem Narrows.refl (table : Handle → VfsFile) : Narrows table table := fun _ h => ⟨h, rfl, rfl⟩

theorem Narrows.trans (h : Narrows table table₁) (h' : Narrows table₁ table') : Narrows table table' := fun handle hused => by
  obtain ⟨hused₁, hinode₁, hmode₁⟩ := h' handle hused
  obtain ⟨hused₀, hinode₀, hmode₀⟩ := h handle hused₁
  exact ⟨hused₀, hinode₁.trans hinode₀, hmode₁.trans hmode₀⟩

theorem Narrows.retains (h : Narrows table table') : Retains table table' := fun handle hused _ => (h handle hused).2.1

theorem Narrows.backs (h : Narrows table table') (hμ : μ.Backs table) : μ.Backs table' := fun handle hused => by
  obtain ⟨hused', hinode, hmode⟩ := h handle hused
  rw [hinode, hmode]
  exact hμ handle hused'

/-- An entry is changed to one of the same file, or to one that is not used. -/
theorem narrows_setFile {handle : Handle} {file : VfsFile}
    (h : file.used = true → (d.vfs.fileTable handle).used = true ∧ file.inode = (d.vfs.fileTable handle).inode ∧
      file.mode = (d.vfs.fileTable handle).mode) :
    Narrows d.vfs.fileTable (d.setFile handle file).vfs.fileTable := by
  intro other hused
  by_cases heq : other = handle
  · subst heq
    rw [Desk.setFile_self] at hused ⊢
    exact h hused
  · rw [Desk.setFile_of_ne _ _ heq] at hused ⊢
    exact ⟨hused, rfl, rfl⟩

/-- `vfs_close` with the lock. -/
theorem narrows_closeDescriptor (d : Desk) (descriptor : Int) :
    Narrows d.vfs.fileTable (d.closeDescriptor descriptor).2.vfs.fileTable := by
  have hremove : (d.fdRemove descriptor).2.vfs = d.vfs := by
    unfold Desk.fdRemove
    split
    · rfl
    · rfl
  unfold Desk.closeDescriptor
  dsimp only
  rw [← hremove]
  split
  · exact .refl _
  · next file hfile =>
    refine narrows_setFile fun hused => ?_
    have hused₀ := (used_of_fileFromHandle hfile).2
    split at hused
    · cases hused
    · next hmore =>
      rw [if_neg hmore]
      exact ⟨hused₀, rfl, rfl⟩

/-- `vfs_close_all_current`. -/
theorem narrows_closeAll (d : Desk) : Narrows d.vfs.fileTable d.vfsCloseAllCurrent.vfs.fileTable := by
  have hclose : ∀ (d : Desk) (descriptor : Int), Narrows d.vfs.fileTable (d.vfsClose descriptor).2.vfs.fileTable := by
    intro d descriptor
    unfold Desk.vfsClose
    split
    · exact .refl _
    split
    · exact .refl _
    · exact narrows_closeDescriptor d descriptor
  have hloop : ∀ (descriptors : List Nat) (d : Desk),
      Narrows d.vfs.fileTable (descriptors.foldl Desk.closeIfOpen d).vfs.fileTable := by
    intro descriptors
    induction descriptors with
    | nil => exact fun d => .refl _
    | cons descriptor rest ih =>
      intro d
      refine .trans ?_ (ih _)
      unfold Desk.closeIfOpen
      split
      · exact hclose d descriptor
      · exact .refl _
  unfold Desk.vfsCloseAllCurrent
  split
  · exact .refl _
  · exact hloop _ d

/-- Inodes that are not those of open files may change. -/
theorem Roster.Backs.touched {A : Set Nat} (h : μ.Backs table) (htouched : Roster.Touched E A μ μ')
    (hA : ∀ handle, (table handle).used = true → (table handle).inode ∉ A) : μ'.Backs table := fun handle hused => by
  obtain ⟨himap, hmode⟩ := htouched.kept _ (hA handle hused)
  rw [himap, hmode]
  exact h handle hused

theorem Roster.Backs.steady (h : μ.Backs table) (hsteady : Roster.Steady E μ μ') : μ'.Backs table :=
  h.touched (A := ∅) hsteady.touched fun _ _ => Set.notMem_empty _

theorem Acts.Fresh.pointed (h : Acts.Fresh E μ μ') : μ'.Pointed E.sb := h.elim fun _ h => h.2.pointed

/-- What is made was free, so it was not open. -/
theorem Roster.Backs.fresh (h : μ.Backs table) (hfresh : Acts.Fresh E μ μ') : μ'.Backs table := by
  obtain ⟨A, hfree, htouched⟩ := hfresh
  refine h.touched htouched fun handle hused hmem => ?_
  have himap := (h handle hused).1
  rw [hfree _ hmem] at himap
  cases himap

/-- The machine runs with inodes `μ` in order, which back the open files. -/
structure Backed (E : Env) (μ : Roster) (table : Handle → VfsFile) (s : Machine) : Prop where
  held : Held E μ s
  pointed : μ.Pointed E.sb
  backs : μ.Backs table

/-- What a program that has ended has made of the inodes. -/
theorem Acts.of_eq {α : Type} {m : Fs α} {Q : α → Roster → Prop} {r : α} (h : Acts E μ m Q) (hs : Held E μ s)
    (heq : m s = (r, s')) : ∃ μ', Held E μ' s' ∧ Q r μ' := by
  have hwp := h s hs
  unfold wp at hwp
  rw [heq] at hwp
  exact hwp

/-- `vfs_open` finds a file or makes one. -/
theorem Acts.lookupOrCreate (hμ : μ.Pointed E.sb) (path : List UInt8) (flags : Nat) :
    Acts E μ (MiniOrange.lookupOrCreate path flags) (Acts.Created E μ) := by
  have hlookup : Acts E μ (minifsLookup path) fun r μ' => μ' = μ ∧ ∀ status, r = .ok status →
      μ.imap status.inode = true ∧ (μ.ino status.inode).mode = status.mode := by
    rintro s ⟨hsafe, v, aux, cmp, h, rfl⟩
    refine (h.minifsLookup_any path).mono fun r s' ⟨h', hr⟩ => ?_
    exact ⟨_, ⟨hsafe, v, aux, cmp, h', rfl⟩, rfl, fun status hstatus => Vol.lookup_used (hr status hstatus)⟩
  unfold MiniOrange.lookupOrCreate
  refine hlookup.bind ?_
  rintro r μ' ⟨rfl, hr⟩
  split
  · split
    · exact minifsCreate hμ path
    · exact .pure (.error hμ _)
  · exact .pure ⟨⟨∅, nofun, .refl hμ⟩, hr⟩

theorem Acts.truncateOpened (hμ : μ.Pointed E.sb) (flags inode : Nat) :
    Acts E μ (MiniOrange.truncateOpened flags inode) fun _ μ' => Roster.Steady E μ μ' := by
  unfold MiniOrange.truncateOpened
  split
  · exact minifsTruncate hμ inode 0
  · exact .pure (.refl hμ)

/-- `vfs_open`. -/
theorem OpenEffect.backed {path : List UInt8} {flags : Nat} {r : Except Errno Nat} (h : Backed E μ d.vfs.fileTable s)
    (heffect : OpenEffect path flags d s r d' s') :
    ∃ μ', Backed E μ' d'.vfs.fileTable s' ∧ Retains d.vfs.fileTable d'.vfs.fileTable := by
  -- an entry that was not used is cleared
  have hclear : ∀ handle, Narrows d.vfs.fileTable (d.setFile handle clearFile).vfs.fileTable := fun handle =>
    narrows_setFile nofun
  have hfound : ∀ {r s₁}, lookupOrCreate path flags s = (r, s₁) → ∃ μ₁, Held E μ₁ s₁ ∧ Acts.Created E μ r μ₁ :=
    fun heq => (Acts.lookupOrCreate h.pointed path flags).of_eq h.held heq
  have htruncated : ∀ {status s₁ r₂ s₂}, lookupOrCreate path flags s = (.ok status, s₁) →
      truncateOpened flags status.inode s₁ = (r₂, s₂) → ∃ μ₂, Backed E μ₂ d.vfs.fileTable s₂ ∧
        μ₂.imap status.inode = true ∧ (μ₂.ino status.inode).mode = status.mode := by
    intro status s₁ r₂ s₂ heq heq'
    obtain ⟨μ₁, hheld₁, hfresh, hstatus⟩ := hfound heq
    obtain ⟨μ₂, hheld₂, hsteady⟩ := (Acts.truncateOpened hfresh.pointed flags status.inode).of_eq hheld₁ heq'
    obtain ⟨himap, hmode⟩ := hsteady.kept status.inode (Set.notMem_empty _)
    refine ⟨μ₂, ⟨hheld₂, hsteady.pointed, (h.backs.fresh hfresh).steady hsteady⟩, ?_⟩
    rw [himap, hmode]
    exact hstatus status rfl
  cases heffect with
  | full => exact ⟨μ, h, (Narrows.refl _).retains⟩
  | missing _ heq =>
    obtain ⟨μ₁, hheld, hfresh, -⟩ := hfound heq
    exact ⟨μ₁, ⟨hheld, hfresh.pointed, (hclear _).backs (h.backs.fresh hfresh)⟩, (hclear _).retains⟩
  | directory _ heq =>
    obtain ⟨μ₁, hheld, hfresh, -⟩ := hfound heq
    exact ⟨μ₁, ⟨hheld, hfresh.pointed, (hclear _).backs (h.backs.fresh hfresh)⟩, (hclear _).retains⟩
  | stuck _ heq heq' =>
    obtain ⟨μ₂, h₂, -⟩ := htruncated heq heq'
    exact ⟨μ₂, { h₂ with backs := (hclear _).backs h₂.backs }, (hclear _).retains⟩
  | crowded _ heq _ heq' =>
    obtain ⟨μ₂, h₂, -⟩ := htruncated heq heq'
    exact ⟨μ₂, { h₂ with backs := (hclear _).backs h₂.backs }, (hclear _).retains⟩
  | @opened handle status _ _ descriptor hunused heq _ heq' =>
    obtain ⟨μ₂, h₂, hstatus⟩ := htruncated heq heq'
    refine ⟨μ₂, { h₂ with backs := fun other hused => ?_ }, fun other hused hused₀ => ?_⟩
    · by_cases hother : other = handle
      · subst hother
        dsimp only
        rw [Desk.setFile_self]
        exact hstatus
      · dsimp only at hused ⊢
        rw [Desk.setFile_of_ne _ _ hother] at hused ⊢
        exact h₂.backs other hused
    · have hother : other ≠ handle := fun heq => by
        rw [heq, hunused] at hused₀
        cases hused₀
      exact congrArg VfsFile.inode (Desk.setFile_of_ne _ _ hother)

/-- A call on the inode of an open file leaves the inodes. -/
theorem InodeCall.steady {inode : Nat} (h : InodeCall inode s s') (hs : Held E μ s) (hμ : μ.Pointed E.sb) :
    ∃ μ', Held E μ' s' ∧ Roster.Steady E μ μ' := by
  have hspared : ∀ {α : Type} {m : Fs α}, Spares E m (fun _ => True) → ∃ μ', Held E μ' (m s).2 ∧ Roster.Steady E μ μ' := by
    intro α m hm
    obtain ⟨μ', hheld, rfl, -⟩ := hm μ s hs
    exact ⟨μ', hheld, .refl hμ⟩
  cases h with
  | read offset length => exact hspared (.minifsRead _ _ _)
  | write offset source => exact Acts.minifsWrite hμ inode offset source s hs
  | readdir offset => exact hspared (.minifsReaddir _ _)
  | stat => exact hspared (.minifsStatInode _)

/-- Every call of `vfs.c`, with the lock. -/
theorem FileEffect.backed (h : Backed E μ d.vfs.fileTable s) (heffect : FileEffect d s d' s') :
    ∃ μ', Backed E μ' d'.vfs.fileTable s' ∧ Retains d.vfs.fileTable d'.vfs.fileTable := by
  have hmove : ∀ {handle} (offset : Nat), (d.vfs.fileTable handle).used = true → Narrows d.vfs.fileTable
      (d.setFile handle { d.vfs.fileTable handle with offset := offset }).vfs.fileTable := fun offset hused =>
    narrows_setFile fun _ => ⟨hused, rfl, rfl⟩
  have hrefl := (Narrows.refl d.vfs.fileTable).retains
  cases heffect with
  | refused => exact ⟨μ, h, hrefl⟩
  | «open» hopen => exact hopen.backed h
  | close descriptor =>
    have hclose := narrows_closeDescriptor d descriptor
    exact ⟨μ, { h with backs := hclose.backs h.backs }, hclose.retains⟩
  | transfer offset hused hcall =>
    obtain ⟨μ₁, hheld, hsteady⟩ := hcall.steady h.held h.pointed
    exact ⟨μ₁, ⟨hheld, hsteady.pointed, (hmove offset hused).backs (h.backs.steady hsteady)⟩, (hmove offset hused).retains⟩
  | seek offset hused =>
    exact ⟨μ, { h with backs := (hmove offset hused).backs h.backs }, (hmove offset hused).retains⟩
  | lookup path =>
    obtain ⟨hsafe, v, aux, cmp, hon, rfl⟩ := h.held
    exact ⟨_, { h with held := ⟨hsafe, v, aux, cmp, (hon.minifsLookup_any path).1, rfl⟩ }, hrefl⟩
  | mkdir path =>
    obtain ⟨μ₁, hheld, hfresh⟩ := Acts.minifsMkdir h.pointed path s h.held
    exact ⟨μ₁, ⟨hheld, hfresh.pointed, h.backs.fresh hfresh⟩, hrefl⟩
  | @unlink path status s₁ heq hclosed =>
    obtain ⟨hsafe, v, aux, cmp, hon, rfl⟩ := h.held
    have hlookup := hon.minifsLookup_any path
    unfold wp at hlookup
    rw [heq] at hlookup
    obtain ⟨μ₁, hheld, htouched⟩ := hlookup.1.minifsUnlink_any hsafe h.pointed (hlookup.2 status rfl)
    refine ⟨μ₁, ⟨hheld, htouched.pointed, h.backs.touched htouched fun handle hused hmem => ?_⟩, hrefl⟩
    have hnone := List.any_eq_false.1 hclosed handle (List.mem_finRange handle)
    rw [hused, show (d.vfs.fileTable handle).inode = status.inode from hmem] at hnone
    exact hnone (by simp)

/-- Every call of `vfs.c`. -/
theorem CallEffect.backed {st st' : Station} (h : Backed E μ st.desk.vfs.fileTable st.fs) (heffect : CallEffect st st') :
    ∃ μ', Backed E μ' st'.desk.vfs.fileTable st'.fs ∧ Retains st.desk.vfs.fileTable st'.desk.vfs.fileTable := by
  cases heffect with
  | refused => exact ⟨μ, h, (Narrows.refl _).retains⟩
  | looked path =>
    obtain ⟨hsafe, v, aux, cmp, hon, rfl⟩ := h.held
    exact ⟨_, { h with held := ⟨hsafe, v, aux, cmp, (hon.minifsLookup_any path).1, rfl⟩ }, (Narrows.refl _).retains⟩
  | @made st₁ _ heffect =>
    have hentered : Backed E μ st.enter.desk.vfs.fileTable st.enter.fs :=
      { h with held := h.held.setFlags st.fs.operationBusy false }
    obtain ⟨μ₁, h₁, hretains⟩ := heffect.backed hentered
    exact ⟨μ₁, { h₁ with held := h₁.held.setFlags st₁.fs.operationBusy st.fs.interrupts }, hretains⟩

/-! ## Runs -/

/-- How often each number of an inode has been given out, and how often its number had been when an entry was opened. -/
structure Issues where
  issued : Nat → Nat
  opened : Handle → Nat

namespace Issues

/-- Before the first step. -/
def first : Issues := ⟨fun _ => 0, fun _ => 0⟩

/-- The inodes of the volume. -/
def inodes (sb : Superblock) (h : Host ρ) : Roster := (Vol.ofDisk sb h.fs.volume).roster

/-- The number of an inode is given out. -/
def Issued (μ μ' : Roster) (n : Nat) : Prop := μ.imap n = false ∧ μ'.imap n = true

instance (μ μ' : Roster) (n : Nat) : Decidable (Issued μ μ' n) := inferInstanceAs (Decidable (_ ∧ _))

/-- The count of a number after a step. -/
def count (g : Issues) (μ μ' : Roster) (n : Nat) : Nat := if Issued μ μ' n then g.issued n + 1 else g.issued n

/-- A step is recorded. -/
def next (g : Issues) (sb : Superblock) (h h' : Host ρ) : Issues where
  issued := g.count (inodes sb h) (inodes sb h')
  opened handle :=
    if (h.kernel.vfs.fileTable handle).used then g.opened handle
    else g.count (inodes sb h) (inodes sb h') (h'.kernel.vfs.fileTable handle).inode

/-- Each open file has the number that it was opened on, which has not been given out since. -/
def Same (g : Issues) (table : Handle → VfsFile) : Prop := ∀ handle, (table handle).used = true →
  g.opened handle = g.issued (table handle).inode

end Issues

theorem Backed.inodes_eq {h : Host ρ} (hb : Backed E μ table h.fs) : Issues.inodes E.sb h = μ := by
  obtain ⟨-, v, aux, cmp, hon, rfl⟩ := hb.held
  exact congrArg Vol.roster hon.volume

namespace Host

variable {S : Services ρ} {h h' h₀ : Host ρ} {g g' : Issues} {sb : Superblock} {e : Event} {es : List Event}

/-- A step, with the record. -/
def WatchedStep (S : Services ρ) (sb : Superblock) (x : Host ρ × Issues) (e : Event) (y : Host ρ × Issues) : Prop :=
  Host.Step S x.1 e y.1 ∧ y.2 = x.2.next sb x.1 y.1

/-- Every run can be watched. -/
theorem watched (sb : Superblock) (hrun : Run (Host.Step S) h₀ es h) :
    ∃ g', Run (WatchedStep S sb) (h₀, g) es (h, g') := by
  induction hrun with
  | nil => exact ⟨g, .nil⟩
  | @snoc _ h₁ h _ _ hlast ih =>
    obtain ⟨g₁, hrun₁⟩ := ih
    exact ⟨g₁.next sb h₁ h, .snoc hrun₁ ⟨hlast, rfl⟩⟩

/-- The scheduler opens nothing. -/
theorem narrows_call {k k' : Kernel ρ} {call : Call ρ}
    (hwork : ∀ fdTable directory vfs rest, call = .work fdTable directory vfs rest →
      fdTable = k.current.fdTable ∧ vfs = k.vfs) (hok : Scheduler.perform S call k = .ok (e, k')) :
    Narrows k.vfs.fileTable k'.vfs.fileTable := by
  rw [((Scheduler.perform_passed S call).of_ok hok).vfs]
  cases call with
  | exit code => exact narrows_closeAll k.desk
  | fault frame => exact narrows_closeAll k.desk
  | work fdTable directory vfs rest =>
    obtain ⟨-, rfl⟩ := hwork fdTable directory vfs rest rfl
    exact .refl _
  | tick | spawn | thread | yield | sleep | wait | resume => exact .refl _

/-- What a step does to the open files. -/
theorem Step.backed (hstep : Step S h e h') (hb : Backed E μ h.kernel.vfs.fileTable h.fs) :
    ∃ μ', Backed E μ' h'.kernel.vfs.fileTable h'.fs ∧ Retains h.kernel.vfs.fileTable h'.kernel.vfs.fileTable := by
  cases hstep with
  | schedule _ hwork hok =>
    have hnarrows := narrows_call hwork hok
    exact ⟨μ, { hb with backs := hnarrows.backs hb.backs }, hnarrows.retains⟩
  | file request =>
    have hstation : Backed E μ h.station.desk.vfs.fileTable h.station.fs := hb
    exact request.run_effect.backed hstation

/-- A file that stays open is in use all the time, so that its number is not given out. -/
theorem WatchedStep.same {x y : Host ρ × Issues} (hstep : WatchedStep S E.sb x e y)
    (hb : Backed E μ x.1.kernel.vfs.fileTable x.1.fs) (hsame : x.2.Same x.1.kernel.vfs.fileTable) :
    (∃ μ', Backed E μ' y.1.kernel.vfs.fileTable y.1.fs) ∧ y.2.Same y.1.kernel.vfs.fileTable := by
  obtain ⟨hstep, hnext⟩ := hstep
  obtain ⟨μ', hb', hretains⟩ := hstep.backed hb
  refine ⟨⟨μ', hb'⟩, fun handle hused => ?_⟩
  rw [hnext]
  dsimp only [Issues.next]
  split
  · next hused₀ =>
    have hkept : ¬ Issues.Issued (Issues.inodes E.sb x.1) (Issues.inodes E.sb y.1) (x.1.kernel.vfs.fileTable handle).inode := by
      rintro ⟨hfree, -⟩
      rw [hb.inodes_eq, (hb.backs handle hused₀).1] at hfree
      cases hfree
    rw [hretains handle hused hused₀, Issues.count, if_neg hkept]
    exact hsame handle hused₀
  · rfl

/-- Run lemma. -/
theorem backed_of_run (hb : Backed E μ h₀.kernel.vfs.fileTable h₀.fs) (hsame : g.Same h₀.kernel.vfs.fileTable)
    (hrun : Run (WatchedStep S E.sb) (h₀, g) es (h, g')) :
    (∃ μ', Backed E μ' h.kernel.vfs.fileTable h.fs) ∧ g'.Same h.kernel.vfs.fileTable :=
  hrun.invariant (I := fun x => (∃ μ, Backed E μ x.1.kernel.vfs.fileTable x.1.fs) ∧ x.2.Same x.1.kernel.vfs.fileTable)
    ⟨⟨μ, hb⟩, hsame⟩ fun _ _ _ ⟨⟨_, hb⟩, hsame⟩ hstep => hstep.same hb hsame

end Host

/-- In a consistent volume indirect pointers are those of data blocks. -/
theorem Vol.Consistent.pointed {v : Vol} {sb : Superblock} (hv : v.Consistent sb) : v.roster.Pointed sb := by
  intro n hn
  cases hused : v.imap n with
  | false =>
    rw [show v.roster.ino n = v.ino n from rfl, hv.free_zero n hn hused]
    exact Inode.pointed_zero sb
  | true =>
    intro hne
    have hmem := Vol.mem_alloc.2 ⟨hn, hused⟩
    exact dataBlockValid_iff.2 (hv.owns.slot_valid hmem (t := .indirect) ((hv.owns.ok n hmem).indirect.1 hne))

/-- A volume is mounted, and whatever may fail later. -/
theorem Serving.held {sb : Superblock} {v : Vol} (hs : Serving sb v s) (outcome : Nat → Option Fault) :
    Held hs.env v.roster { s with outcome := outcome } :=
  ⟨fun _ => trivial, v, _, _, { hs.on with outcome := trivial }, rfl⟩

/-- In every run from a consistent volume, whatever transfers fail: an open file is in use, has the mode that its entry says,
and is the file that it was opened on; so what a descriptor leads to is that file. -/
theorem open_files_stay {S : Services ρ} {sb : Superblock} {v : Vol} {k₀ : Kernel ρ} {outcome : Nat → Option Fault}
    {h : Host ρ} {g : Issues} {es : List Event} (hs : Serving sb v s) (hv : v.Consistent sb) (hvfs : k₀.vfs = vfsInit)
    (hrun : Run (Host.WatchedStep S sb) (⟨k₀, { s with outcome := outcome }⟩, .first) es (h, g)) :
    (∀ handle, (h.kernel.vfs.fileTable handle).used = true →
      (Vol.ofDisk sb h.fs.volume).imap (h.kernel.vfs.fileTable handle).inode = true ∧
      ((Vol.ofDisk sb h.fs.volume).ino (h.kernel.vfs.fileTable handle).inode).mode = (h.kernel.vfs.fileTable handle).mode ∧
      g.issued (h.kernel.vfs.fileTable handle).inode = g.opened handle) ∧
    ∀ i descriptor handle, h.kernel.desk.fileFromHandle ((h.kernel.processTable i).fdTable descriptor) = some handle →
      g.issued (h.kernel.vfs.fileTable handle).inode = g.opened handle := by
  have hunused : ∀ handle, (k₀.vfs.fileTable handle).used = false := fun _ => by rw [hvfs]; rfl
  have hsame : Issues.first.Same k₀.vfs.fileTable := fun _ _ => rfl
  let h₀ : Host ρ := ⟨k₀, { s with outcome := outcome }⟩
  have hbacked : Backed hs.env v.roster h₀.kernel.vfs.fileTable h₀.fs :=
    ⟨hs.held outcome, hv.pointed, fun handle hused => absurd hused (by simp [h₀, hunused])⟩
  obtain ⟨⟨μ, hb⟩, hs'⟩ := Host.backed_of_run hbacked hsame hrun
  have hinodes : (Vol.ofDisk sb h.fs.volume).roster = μ := hb.inodes_eq
  refine ⟨fun handle hused => ?_, fun i descriptor handle hfile => ?_⟩
  · obtain ⟨himap, hmode⟩ := hb.backs handle hused
    rw [← hinodes] at himap hmode
    exact ⟨himap, hmode, (hs' handle hused).symm⟩
  · exact (hs' handle (used_of_fileFromHandle hfile).2).symm

/-- The first process opens the root of a volume, and then any transfer may fail. -/
theorem open_files_stay_root : ∃ (sb : Superblock) (h : Host Unit) (g : Issues) (handle : Handle),
    (h.kernel.vfs.fileTable handle).used = true ∧
      (Vol.ofDisk sb h.fs.volume).imap (h.kernel.vfs.fileTable handle).inode = true ∧
      ((Vol.ofDisk sb h.fs.volume).ino (h.kernel.vfs.fileTable handle).inode).mode = (h.kernel.vfs.fileTable handle).mode ∧
      g.issued (h.kernel.vfs.fileTable handle).inode = g.opened handle := by
  obtain ⟨volume, sb, -, -, hroot, -, hs, hflat⟩ := Tools.exists_flat_mounted Tools.flatNames_oneName (by decide)
  have hv := hflat.consistent Tools.flatNames_oneName hroot
  generalize (minifsMount (Tools.bootMachine 24 volume)).2 = fs at hs
  obtain ⟨h, es, hrun, -, -, hopened⟩ := exists_opened hs hv 1 (by decide)
  obtain ⟨g, hwatched⟩ : ∃ g, Run (Host.WatchedStep Scheduler.unlimited sb)
      (⟨Scheduler.booted, { fs with outcome := fs.outcome }⟩, .first) es (h, g) := Host.watched sb hrun
  obtain ⟨handle, hused⟩ : ∃ handle, (h.kernel.vfs.fileTable handle).used = true := by
    have hpos := hopened.files ▸ Nat.one_pos
    obtain ⟨handle, hmem⟩ := Finset.card_pos.1 hpos
    exact ⟨handle, (Finset.mem_filter.1 hmem).2⟩
  exact ⟨sb, h, g, handle, hused, (open_files_stay hs hv rfl hwatched).1 handle hused⟩

end MiniOrange

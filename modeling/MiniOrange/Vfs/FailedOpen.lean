import MiniOrange.Fs.Content
import MiniOrange.Fs.Resolve
import MiniOrange.Tools.Agreement
import MiniOrange.Vfs.Bookkeeping

/-!
# Calls of `vfs_open` that fail

`vfs_open` makes or truncates the file before it asks for a descriptor. So a call that fails changes nothing, unless the
process has no descriptor left and the file was made or had bytes to lose (`failed_open_iff`).
-/

namespace MiniOrange

variable {ρ : Type} {sb : Superblock} {v w : Vol} {s : Machine} {path : List UInt8} {flags n size : Nat}

/-! ## On a mounted volume -/

namespace Serving

/-- The file that `vfs_open` opens is there, or it is made. -/
theorem lookupOrCreate (h : Serving sb v s) (hv : v.Consistent sb) (path : List UInt8) (flags : Nat) :
    wp (MiniOrange.lookupOrCreate path flags) (fun r s' =>
      (r = v.lookup sb path ∧ Serving sb v s') ∨
      (v.lookup sb path = .error .enoent ∧ ∃ v', Vol.CreateEffect sb .quiet v path 1 Inode.clear.stat r .quiet v' ∧
        Serving sb v' s')) s := by
  unfold MiniOrange.lookupOrCreate
  refine wp.bind (h.lookup path) fun r s' ⟨hr, h'⟩ => ?_
  split
  · split
    · exact (h'.create hv path).mono fun _ _ hcreate => .inr ⟨hr.symm, hcreate⟩
    · exact .inl ⟨hr, h'⟩
  · exact .inl ⟨hr, h'⟩

/-- What `vfs_open` does with `MINIOS_O_TRUNC`. -/
theorem truncateOpened (h : Serving sb v s) (hv : v.Consistent sb) (flags n : Nat) :
    wp (MiniOrange.truncateOpened flags n) (fun r s' =>
      (truncates flags = false ∧ r = .ok () ∧ Serving sb v s') ∨
      (truncates flags = true ∧ ∃ v', Vol.TruncateEffect sb v n 0 r .quiet v' ∧ Serving sb v' s')) s := by
  unfold MiniOrange.truncateOpened
  split
  · next htrunc => exact (h.truncate hv n 0).mono fun _ _ hcut => .inr ⟨htrunc, hcut⟩
  · next htrunc => exact .inl ⟨Bool.not_eq_true _ ▸ htrunc, rfl, h⟩

/-- Files can be truncated. -/
theorem truncate_ok (h : Serving sb v s) (hv : v.Consistent sb) (hn : v.IsFile (v.alloc sb) n)
    (hsize : size ≤ (v.ino n).size) (hmax : size ≤ 1034 * 4096) : (minifsTruncate n size s).1 = .ok () := by
  have hfile : (v.ino n).mode ≠ 2 := by
    rw [hn.2]
    decide
  have hwp : wp (minifsTruncate n size) (fun r _ => r = .ok ()) s := by
    unfold minifsTruncate
    rw [wp_bind, wp_get, if_neg (by rw [h.mounted]; simp; omega)]
    refine h.on.locked_ready h.ready fun s' h' => ?_
    unfold truncateLocked
    refine h'.bind_reads (Reads.readInode n) fun s'' h'' => ?_
    rw [show v.readInode h.env.sb n = .ok (v.ino n) from hv.owns.readInode hn.1]
    dsimp only
    rw [if_neg hfile, if_neg (by omega)]
    split
    · rfl
    · exact (h''.truncateShrink hv.sound.owns hn.1 hfile hsize (fun _ => trivial) fun _ _ => trivial).mono fun _ _ h => h.1
  exact hwp

end Serving

/-- What a caller sees of two volumes is the same: the bytes of all files, and where all paths lead. -/
structure SameContents (sb : Superblock) (v w : Vol) : Prop where
  files : w.files sb = v.files sb
  names : ∀ q, w.lookup sb q = v.lookup sb q

variable {e : Errno} {r : Except Errno Nat} {k : Processes} {d : Desk} {s' : Machine}

namespace SameContents

theorem refl (sb : Superblock) (v : Vol) : SameContents sb v v := ⟨rfl, fun _ => rfl⟩

/-- A failed creation leaves the contents. -/
theorem of_create {α : Type} {value : Nat → α} {type : Nat} (hv : v.Consistent sb)
    (h : Vol.CreateEffect sb .quiet v path type value (.error e) .quiet w) : SameContents sb v w := by
  refine ⟨?_, h.lookup_error hv⟩
  cases h with
  | refused => rfl
  | named d name _ _ _ _ _ hmake =>
    cases hmake with
    | leaked _ _ _ _ hs => cases hs
    | undone _ _ _ hsame =>
      have halloc : w.alloc sb = v.alloc sb := Vol.alloc_congr hsame.imap
      funext m
      rw [Vol.files, Vol.files, halloc]
      split
      · next hm => rw [(hsame.kept m hm).fileData]
      · rfl

end SameContents

/-! ## The call -/

/-- `vfs_open` has no descriptor for a file that it makes, or whose bytes it throws away. -/
structure Spoils (path : List UInt8) (flags : Nat) (d : Desk) (s : Machine) : Prop where
  entry : ∃ handle, (d.vfs.fileTable handle).used = false
  crowded : ∀ descriptor : Fd, 3 ≤ descriptor.val → d.fdTable descriptor ≠ none
  change : ((minifsLookup path s).1 = .error .enoent ∧ ∃ status, (lookupOrCreate path flags s).1 = .ok status) ∨
    ∃ status, (minifsLookup path s).1 = .ok status ∧ status.mode = 1 ∧ 0 < status.size ∧ truncates flags = true

/-- A new file is empty and can be truncated. -/
theorem Vol.CreateEffect.status {status : Stat} (hgeo : sb.Geometry) (hv : v.Consistent sb)
    (h : v.CreateEffect sb .quiet path 1 Inode.clear.stat (.ok status) .quiet w) :
    status.mode = 1 ∧ w.Consistent sb ∧ w.IsFile (w.alloc sb) status.inode ∧ (w.ino status.inode).size = 0 ∧
      w.lookup sb path = .ok status := by
  obtain ⟨d, c, rfl, -, -, hw, hc, hlookup, hmode, -, -⟩ := h.paths hgeo hv
  refine ⟨rfl, hw, ⟨hc, hmode⟩, ?_, hlookup⟩
  rcases hw.lookup_cases path with ⟨m, -, heq⟩ | ⟨e, -, heq⟩
  · rw [hlookup] at heq
    have hstat := Except.ok.inj heq
    rw [show (Inode.clear.stat c).inode = m from congrArg Stat.inode hstat]
    exact (congrArg Stat.size hstat).symm
  · rw [hlookup] at heq
    cases heq

/-- A path that leads somewhere leads to an inode. -/
theorem Vol.Consistent.lookup_ok {status : Stat} (hv : v.Consistent sb) (h : v.lookup sb path = .ok status) :
    status.inode ∈ v.alloc sb ∧ status.mode = (v.ino status.inode).mode ∧ status.size = (v.ino status.inode).size := by
  rcases hv.lookup_cases path with ⟨m, hm, heq⟩ | ⟨e, -, heq⟩
  · rw [h] at heq
    rw [Except.ok.inj heq]
    exact ⟨hm, rfl, rfl⟩
  · rw [h] at heq
    cases heq

/-- `vfs_open` can truncate a file. -/
theorem Serving.truncateOpened_ok (h : Serving sb v s) (hv : v.Consistent sb) (hn : v.IsFile (v.alloc sb) n) (flags : Nat) :
    (MiniOrange.truncateOpened flags n s).1 = .ok () := by
  unfold MiniOrange.truncateOpened
  split
  · exact h.truncate_ok hv hn (Nat.zero_le _) (Nat.zero_le _)
  · rfl

/-- A file that is cut is seen to have changed. -/
theorem not_sameContents_truncated (hv : v.Consistent sb) (hn : v.IsFile (v.alloc sb) n) (hsize : 0 < (v.ino n).size) :
    ¬ SameContents sb v (v.truncated n 0) := by
  intro hsame
  have hshrunk := Vol.shrunk_truncated (hv.owns.ok n hn.1) (Nat.zero_le (v.ino n).size)
  have hmem : n ∈ (v.truncated n 0).alloc sb := Vol.alloc_congr hshrunk.imap ▸ hn.1
  have hfile := congrFun hsame.files n
  rw [Vol.files_of_mem hn.1, Vol.files_of_mem hmem] at hfile
  have heq : ((v.truncated n 0).ino n).size = (v.ino n).size := congrArg FileData.size (Option.some.inj hfile)
  rw [hshrunk.ino] at heq
  exact absurd heq hsize.ne

section
variable {d d' : Desk} {s' : Machine} {e : Errno}

/-- `vfs_open` has found the file. -/
theorem not_spoils_of_lookup {status : Stat} (hs : Serving sb v s) (hlookup : v.lookup sb path = .ok status)
    (h : status.mode = 1 → truncates flags = true → status.size = 0) : ¬ Spoils path flags d s := by
  intro hspoils
  have heq := (hs.lookup path).1.trans hlookup
  rcases hspoils.change with ⟨hmissing, -⟩ | ⟨status', hfound, hmode, hsize, htrunc⟩
  · rw [heq] at hmissing
    cases hmissing
  · rw [heq] at hfound
    obtain rfl := Except.ok.inj hfound
    have := h hmode htrunc
    omega

/-- What a call that fails has changed. -/
theorem OpenEffect.sameContents_iff (hs : Serving sb v s) (hv : v.Consistent sb)
    (heffect : OpenEffect path flags d s (.error e) d' s') :
    ∃ w, Serving sb w s' ∧ (SameContents sb v w ↔ ¬ Spoils path flags d s) := by
  have hsame : ∀ {s'}, Serving sb v s' → ¬ Spoils path flags d s →
      ∃ w, Serving sb w s' ∧ (SameContents sb v w ↔ ¬ Spoils path flags d s) :=
    fun h hnot => ⟨v, h, iff_of_true (.refl sb v) hnot⟩
  have hfind := hs.lookupOrCreate hv path flags
  unfold wp at hfind
  cases heffect with
  | full hfull =>
    refine hsame hs fun hspoils => ?_
    obtain ⟨handle, hunused⟩ := hspoils.entry
    rw [hfull] at hunused
    cases hunused
  | missing _ hfound =>
    have hnot : ¬ Spoils path flags d s := by
      intro hspoils
      rcases hspoils.change with ⟨-, status, hok⟩ | ⟨status, hok, -⟩
      · rw [hfound] at hok
        cases hok
      · rw [lookupOrCreate_of_ok flags hok] at hfound
        cases hfound
    rw [hfound] at hfind
    rcases hfind with ⟨-, hs'⟩ | ⟨-, w, hcreate, hs'⟩
    · exact hsame hs' hnot
    · exact ⟨w, hs', iff_of_true (.of_create hv hcreate) hnot⟩
  | directory _ hfound hmode =>
    rw [hfound] at hfind
    rcases hfind with ⟨hlookup, hs'⟩ | ⟨-, w, hcreate, -⟩
    · refine hsame hs' (not_spoils_of_lookup hs hlookup.symm fun hone => ?_)
      rw [hmode] at hone
      cases hone
    · rw [(hcreate.status hs.geometry hv).1] at hmode
      cases hmode
  | @stuck _ status s₁ e s₂ _ hfound htrunc =>
    rw [hfound] at hfind
    -- a file can be truncated, so what was found is no file
    have hnofile : ∀ {w}, Serving sb w s₁ → w.Consistent sb → ¬ w.IsFile (w.alloc sb) status.inode := by
      intro w hs₁ hw hn
      have hok := hs₁.truncateOpened_ok hw hn flags
      rw [htrunc] at hok
      cases hok
    rcases hfind with ⟨hlookup, hs₁⟩ | ⟨-, w, hcreate, hs₁⟩
    · obtain ⟨hmem, hmode, -⟩ := hv.lookup_ok hlookup.symm
      have hcut := hs₁.truncateOpened hv flags status.inode
      unfold wp at hcut
      rw [htrunc] at hcut
      rcases hcut with ⟨-, hok, -⟩ | ⟨-, w, hcut, hs₂⟩
      · cases hok
      · cases hcut with
        | refused =>
          exact hsame hs₂ (not_spoils_of_lookup hs hlookup.symm fun hone _ => absurd ⟨hmem, hmode ▸ hone⟩ (hnofile hs₁ hv))
    · obtain ⟨-, hw, hn, -, -⟩ := hcreate.status hs.geometry hv
      exact absurd hn (hnofile hs₁ hw)
  | @crowded handle status s₁ _ hunused hfound _ htrunc hcrowded =>
    rw [hfound] at hfind
    rcases hfind with ⟨hlookup, hs₁⟩ | ⟨hmissing, w, hcreate, hs₁⟩
    · obtain ⟨hmem, hmode, hsize⟩ := hv.lookup_ok hlookup.symm
      have hcut := hs₁.truncateOpened hv flags status.inode
      unfold wp at hcut
      rw [htrunc] at hcut
      rcases hcut with ⟨hkeeps, -, hs₂⟩ | ⟨htruncates, w, hcut, hs₂⟩
      · refine hsame hs₂ (not_spoils_of_lookup hs hlookup.symm fun _ htruncates => ?_)
        rw [hkeeps] at htruncates
        cases htruncates
      · cases hcut with
        | same _ _ hzero => exact hsame hs₂ (not_spoils_of_lookup hs hlookup.symm fun _ _ => hsize.trans hzero.symm)
        | cut _ hn hpos =>
          have hspoils : Spoils path flags d s := ⟨⟨handle, hunused⟩, hcrowded,
            .inr ⟨status, (hs.lookup path).1.trans hlookup.symm, hmode.trans hn.2, by rwa [hsize], htruncates⟩⟩
          exact ⟨_, hs₂, iff_of_false (not_sameContents_truncated hv hn hpos) (not_not.2 hspoils)⟩
    · obtain ⟨-, hw, -, hempty, hmade⟩ := hcreate.status hs.geometry hv
      have hnot : ¬ SameContents sb v w := by
        intro hsame
        have := hsame.names path
        rw [hmade, hmissing] at this
        cases this
      have hspoils : Spoils path flags d s := ⟨⟨handle, hunused⟩, hcrowded,
        .inl ⟨(hs.lookup path).1.trans hmissing, status, congrArg Prod.fst hfound⟩⟩
      have hiff := iff_of_false hnot (not_not.2 hspoils)
      have hcut := hs₁.truncateOpened hw flags status.inode
      unfold wp at hcut
      rw [htrunc] at hcut
      rcases hcut with ⟨-, -, hs₂⟩ | ⟨-, w', hcut, hs₂⟩
      · exact ⟨w, hs₂, hiff⟩
      · cases hcut with
        | same => exact ⟨w, hs₂, hiff⟩
        | cut _ _ hpos => exact absurd hpos (by rw [hempty]; decide)

end

/-! ## Runs -/

/-- The machine serves a clean volume. -/
def ServesClean (sb : Superblock) (s : Machine) : Prop := ∃ v : Vol, Serving sb v s ∧ v.Clean sb

namespace ServesClean

variable {d d' : Desk} {s' : Machine}

section
variable (h : ServesClean sb s)
include h

theorem setInterrupts (interrupts : Bool) : ServesClean sb { s with interrupts := interrupts } := by
  obtain ⟨v, hs, hv⟩ := h
  exact ⟨v, hs.setInterrupts interrupts, hv⟩

theorem lookup (path : List UInt8) : ServesClean sb (minifsLookup path s).2 := by
  obtain ⟨v, hs, hv⟩ := h
  exact ⟨v, (hs.lookup path).2, hv⟩

theorem lookupOrCreate (path : List UInt8) (flags : Nat) :
    ServesClean sb (MiniOrange.lookupOrCreate path flags s).2 := by
  obtain ⟨v, hs, hv⟩ := h
  rcases hs.lookupOrCreate hv.consistent path flags with ⟨-, hs'⟩ | ⟨-, w, hcreate, hs'⟩
  · exact ⟨v, hs', hv⟩
  · exact ⟨w, hs', hcreate.clean hs.geometry hv⟩

theorem truncateOpened (flags n : Nat) : ServesClean sb (MiniOrange.truncateOpened flags n s).2 := by
  obtain ⟨v, hs, hv⟩ := h
  rcases hs.truncateOpened hv.consistent flags n with ⟨-, -, hs'⟩ | ⟨-, w, hcut, hs'⟩
  · exact ⟨v, hs', hv⟩
  · exact ⟨w, hs', hcut.clean hv⟩

theorem openEffect (heffect : OpenEffect path flags d s r d' s') :
    ServesClean sb s' := by
  have hfind := h.lookupOrCreate path flags
  have htrunc := fun n => hfind.truncateOpened flags n
  cases heffect with
  | full => exact h
  | missing _ hfound => rwa [hfound] at hfind
  | directory _ hfound => rwa [hfound] at hfind
  | @stuck _ status _ _ _ _ hfound hcut =>
    have := htrunc status.inode
    rwa [hfound, hcut] at this
  | @crowded _ status _ _ _ hfound _ hcut =>
    have := htrunc status.inode
    rwa [hfound, hcut] at this
  | @opened _ status _ _ _ _ hfound _ hcut =>
    have := htrunc status.inode
    rwa [hfound, hcut] at this

theorem inodeCall (hcall : InodeCall n s s') : ServesClean sb s' := by
  obtain ⟨v, hs, hv⟩ := h
  cases hcall with
  | read offset length => exact ⟨v, (hs.read n offset length).2, hv⟩
  | write offset source =>
    obtain ⟨w, hwrite, hs'⟩ := hs.write hv.consistent n offset source
    exact ⟨w, hs', hwrite.clean hv⟩
  | readdir offset => exact ⟨v, (hs.readdir n offset).2, hv⟩
  | stat => exact ⟨v, (hs.statInode n).2, hv⟩

/-- What the calls of `vfs.c` keep. -/
theorem effect (heffect : FileEffect d s d' s') : ServesClean sb s' := by
  cases heffect with
  | refused => exact h
  | «open» hopen => exact h.openEffect hopen
  | close => exact h
  | transfer _ _ hcall => exact h.inodeCall hcall
  | seek => exact h
  | lookup path => exact h.lookup path
  | mkdir path =>
    obtain ⟨v, hs, hv⟩ := h
    obtain ⟨w, hcreate, hs'⟩ := hs.mkdir hv.consistent path
    exact ⟨w, hs', hcreate.clean hs.geometry hv⟩
  | @unlink path _ s₁ hlookup _ =>
    obtain ⟨v, hs, hv⟩ := h
    have hs₁ := (hs.lookup path).2
    rw [hlookup] at hs₁
    obtain ⟨w, hunlink, hs'⟩ := hs₁.unlink hv.consistent path
    exact ⟨w, hs', hunlink.clean hv⟩

end

theorem callEffect {st st' : Station} (h : ServesClean sb st.fs) (heffect : CallEffect st st') : ServesClean sb st'.fs := by
  cases heffect with
  | refused => exact h
  | looked path => exact h.lookup path
  | made _ heffect => exact ((h.setInterrupts false).effect heffect).setInterrupts _

theorem of_run {S : Services ρ} {h₀ h : Host ρ} {es : List Event} (hclean : ServesClean sb h₀.fs)
    (hrun : Run (Host.Step S) h₀ es h) : ServesClean sb h.fs := by
  refine hrun.invariant (I := fun h => ServesClean sb h.fs) hclean fun h e h' hh hstep => ?_
  cases hstep with
  | schedule => exact hh
  | file request => exact hh.callEffect (show CallEffect h.station _ from request.run_effect)

end ServesClean

/-- The running process gets back the files it had. -/
theorem Kernel.setDesk_desk (k : Kernel ρ) : k.setDesk k.desk = k := by
  unfold Kernel.setDesk Processes.setCurrent Processes.setProcess
  rw [show ({ k.current with fdTable := k.desk.fdTable } : Process) = k.processTable k.currentProcess from rfl,
    Function.update_eq_self]
  rfl

/-- A call that fails leaves the tables. -/
theorem OpenEffect.desk_eq {d' : Desk} (hd : Booked k d)
    (heffect : OpenEffect path flags d s (.error e) d' s') : d' = d := by
  cases heffect with
  | full => rfl
  | missing hunused => exact hd.undone hunused
  | directory hunused => exact hd.undone hunused
  | stuck hunused => exact hd.undone hunused
  | crowded hunused => exact hd.undone hunused

/-- A call that cannot be made good fails. -/
theorem OpenEffect.not_spoils {d' : Desk} {descriptor : Nat}
    (heffect : OpenEffect path flags d s (.ok descriptor) d' s') : ¬ Spoils path flags d s := by
  intro hspoils
  cases heffect with
  | opened _ _ _ _ hle hfree => exact hspoils.crowded _ hle hfree

/-- The file is not found, and the call fails for that reason. -/
theorem OpenEffect.eq_error {d' : Desk} (handle : Handle)
    (hunused : (d.vfs.fileTable handle).used = false) (hfound : (lookupOrCreate path flags s).1 = .error e)
    (heffect : OpenEffect path flags d s r d' s') : r = .error e := by
  cases heffect with
  | full hfull => exact absurd ((hfull handle).symm.trans hunused) (by decide)
  | missing _ h => exact congrArg Except.error (Except.error.inj ((congrArg Prod.fst h).symm.trans hfound))
  | directory _ h => exact absurd ((congrArg Prod.fst h).symm.trans hfound) nofun
  | stuck _ h => exact absurd ((congrArg Prod.fst h).symm.trans hfound) nofun
  | crowded _ h => exact absurd ((congrArg Prod.fst h).symm.trans hfound) nofun
  | opened _ h => exact absurd ((congrArg Prod.fst h).symm.trans hfound) nofun

/-- The file is there and can be truncated, but the process has no descriptor left. -/
theorem OpenEffect.eq_emfile {d' : Desk} {status : Stat} (hs : Serving sb v s)
    (hv : v.Consistent sb) (hlookup : v.lookup sb path = .ok status) (hmode : status.mode = 1)
    (hspoils : Spoils path flags d s) (heffect : OpenEffect path flags d s r d' s') : r = .error .emfile := by
  have hfound := lookupOrCreate_of_ok flags ((hs.lookup path).1.trans hlookup)
  obtain ⟨hmem, hino, -⟩ := hv.lookup_ok hlookup
  cases heffect with
  | full hfull =>
    obtain ⟨handle, hunused⟩ := hspoils.entry
    exact absurd ((hfull handle).symm.trans hunused) (by decide)
  | missing _ h => exact absurd (hfound.symm.trans h) nofun
  | directory _ h hdir =>
    rw [← Except.ok.inj (congrArg Prod.fst (hfound.symm.trans h)), hmode] at hdir
    cases hdir
  | stuck _ h htrunc =>
    have heq := hfound.symm.trans h
    have hok := (hs.lookup path).2.truncateOpened_ok hv ⟨hmem, hino ▸ hmode⟩ flags
    rw [Except.ok.inj (congrArg Prod.fst heq), congrArg Prod.snd heq] at hok
    rw [htrunc] at hok
    cases hok
  | crowded => rfl
  | opened _ _ _ _ hle hfree => exact absurd hfree (hspoils.crowded _ hle)

/-- What comes of `vfs_open` while no call is under way. -/
theorem vfsOpen_outcome (st : Station) (hd : Booked k st.desk) (hfree : st.desk.vfs.busy = false)
    (hs : Serving sb v st.fs) (hv : v.Consistent sb) (path : List UInt8) (flags : Nat) :
    wp (vfsOpen path flags) (fun r st' => match r with
      | .ok _ => ¬ Spoils path flags st.desk { st.fs with interrupts := false }
      | .error _ => st'.desk = st.desk ∧ ∃ w, Serving sb w st'.fs ∧ (SameContents sb v w ↔
          ¬ (flagsValid flags = true ∧ Spoils path flags st.desk { st.fs with interrupts := false }))) st := by
  have hspoils : ∀ {s}, Spoils path flags st.enter.desk s ↔ Spoils path flags st.desk s :=
    ⟨fun h => ⟨h.entry, h.crowded, h.change⟩, fun h => ⟨h.entry, h.crowded, h.change⟩⟩
  refine vfsCall_cases (fun hrefused => ?_) (fun hbusy => ?_) fun hok _ => ?_
  · have hinvalid : ¬ flagsValid flags = true := by
      rcases hrefused with hinit | hflags
      · rw [hd.initialized] at hinit
        cases hinit
      · rw [hflags]
        decide
    exact ⟨rfl, v, hs, iff_of_true (.refl sb v) fun h => hinvalid h.1⟩
  · rw [hfree] at hbusy
    cases hbusy
  · have hvalid : flagsValid flags = true := by
      cases hflags : flagsValid flags with
      | true => rfl
      | false => exact absurd (.inr hflags) hok
    refine (openLocked_effect path flags).mono fun r st' heffect => ?_
    cases r with
    | ok descriptor => exact fun h => heffect.not_spoils (hspoils.2 h)
    | error e =>
      obtain ⟨w, hs', hiff⟩ := heffect.sameContents_iff (hs.setInterrupts false) hv
      refine ⟨?_, w, hs'.setInterrupts _, ?_⟩
      · show ({ st'.desk with vfs := { st'.desk.vfs with busy := false } } : Desk) = st.desk
        rw [heffect.desk_eq (hd.setBusy true), ← hfree]
      · rw [hiff, hspoils]
        simp only [hvalid, true_and]

theorem Kernel.desk_setDesk (k : Kernel ρ) (d : Desk) : (k.setDesk d).desk = d := by
  have hcurrent : (k.setDesk d).current = { k.current with fdTable := d.fdTable } := k.toProcesses.setCurrent_current _
  rw [Kernel.desk, hcurrent]
  rfl

/-- In every run a call of `vfs_open` that fails leaves the descriptors, the open files, the bytes of the files and the
names as they were, unless there was no descriptor left for a file that it made, or whose bytes it threw away. -/
theorem failed_open_iff {S : Services ρ} {h₀ h : Host ρ} {es : List Event} {bootStackTop eflags : Nat}
    (hstart : h₀.kernel.toProcesses = Processes.schedulerInit bootStackTop eflags) (hvfs : h₀.kernel.vfs = vfsInit)
    (hclean : ServesClean sb h₀.fs) (hrun : Run (Host.Step S) h₀ es h) (path : List UInt8) (flags : Nat) :
    (∀ e, (vfsOpen path flags h.station).1 = .error e →
      (h.back (vfsOpen path flags h.station).2).kernel = h.kernel ∧
      SameContents sb (Vol.ofDisk sb h.fs.volume) (Vol.ofDisk sb (vfsOpen path flags h.station).2.fs.volume)) ↔
    ¬ (flagsValid flags = true ∧ Spoils path flags h.kernel.desk { h.fs with interrupts := false }) := by
  obtain ⟨-, hk⟩ := Host.bookkept_of_run hstart hvfs hrun
  obtain ⟨v, hs, hv⟩ := hclean.of_run hrun
  have hout := vfsOpen_outcome h.station hk.booked hk.free hs hv.consistent path flags
  unfold wp at hout
  cases hr : (vfsOpen path flags h.station).1 with
  | ok descriptor =>
    rw [hr] at hout
    exact iff_of_true nofun fun hspoils => hout hspoils.2
  | error e =>
    rw [hr] at hout
    obtain ⟨hdesk, w, hs', hiff⟩ := hout
    have hkernel : (h.back (vfsOpen path flags h.station).2).kernel = h.kernel := by
      show h.kernel.setDesk (vfsOpen path flags h.station).2.desk = h.kernel
      rw [hdesk]
      exact h.kernel.setDesk_desk
    rw [hs.volume, hs'.volume]
    refine ⟨fun hunchanged => hiff.1 (hunchanged e rfl).2, fun hnot e' _ => ⟨hkernel, hiff.2 hnot⟩⟩

/-! ## A process without descriptors -/

section
open Scheduler

/-- How many descriptors and open files there are. -/
structure Opened (n : Nat) (d : Desk) : Prop where
  descriptors : (Finset.univ.filter fun descriptor => d.fdTable descriptor ≠ none).card = n
  files : (Finset.univ.filter fun handle => (d.vfs.fileTable handle).used = true).card = n

/-- Opening a file takes a descriptor and an entry of `file_table`. -/
theorem Opened.succ {handle : Handle} {descriptor : Fd} {file : VfsFile} (h : Opened n d)
    (hunused : (d.vfs.fileTable handle).used = false) (hfree : d.fdTable descriptor = none) (hused : file.used = true) :
    Opened (n + 1)
      { d.setFile handle file with fdTable := Function.update d.fdTable descriptor (some handle) } := by
  constructor
  · have hinsert : (Finset.univ.filter fun x => Function.update d.fdTable descriptor (some handle) x ≠ none) =
        insert descriptor (Finset.univ.filter fun x => d.fdTable x ≠ none) := by
      ext x
      by_cases hx : x = descriptor
      · simp [hx]
      · simp [hx]
    show (Finset.univ.filter fun x => Function.update d.fdTable descriptor (some handle) x ≠ none).card = n + 1
    rw [hinsert, Finset.card_insert_of_notMem (by simpa using hfree), h.descriptors]
  · have hinsert : (Finset.univ.filter fun x => (Function.update d.vfs.fileTable handle file x).used = true) =
        insert handle (Finset.univ.filter fun x => (d.vfs.fileTable x).used = true) := by
      ext x
      by_cases hx : x = handle
      · simp [hx, hused]
      · simp [hx]
    show (Finset.univ.filter fun x => (Function.update d.vfs.fileTable handle file x).used = true).card = n + 1
    rw [hinsert, Finset.card_insert_of_notMem (by simpa using hunused), h.files]

/-- With few files open there is a descriptor left. -/
theorem Opened.exists_descriptor (h : Opened n d) (hn : n < 13) :
    ∃ descriptor : Fd, 3 ≤ descriptor.val ∧ d.fdTable descriptor = none := by
  by_contra hnone
  have hsub : (Finset.univ.filter fun descriptor : Fd => 3 ≤ descriptor.val) ⊆
      Finset.univ.filter fun descriptor => d.fdTable descriptor ≠ none := by
    intro descriptor hdescriptor
    refine Finset.mem_filter.2 ⟨Finset.mem_univ _, fun hfree => hnone ⟨descriptor, ?_, hfree⟩⟩
    exact (Finset.mem_filter.1 hdescriptor).2
  have hle := Finset.card_le_card hsub
  rw [h.descriptors, show (Finset.univ.filter fun descriptor : Fd => 3 ≤ descriptor.val).card = 13 by decide] at hle
  omega

/-- With as many files open as there are descriptors, none is left. -/
theorem Opened.crowded (h : Opened 13 d) (hstandard : ∀ descriptor : Fd, descriptor.val < 3 →
    d.fdTable descriptor = none) (descriptor : Fd) (hle : 3 ≤ descriptor.val) : d.fdTable descriptor ≠ none := by
  have hsub : (Finset.univ.filter fun descriptor => d.fdTable descriptor ≠ none) ⊆
      Finset.univ.filter fun descriptor : Fd => 3 ≤ descriptor.val := by
    intro other hother
    refine Finset.mem_filter.2 ⟨Finset.mem_univ _, ?_⟩
    by_contra hlt
    exact (Finset.mem_filter.1 hother).2 (hstandard other (Nat.lt_of_not_le hlt))
  have heq := Finset.eq_of_subset_of_card_le hsub (by rw [h.descriptors]; decide)
  have hmem : descriptor ∈ Finset.univ.filter fun descriptor : Fd => 3 ≤ descriptor.val :=
    Finset.mem_filter.2 ⟨Finset.mem_univ _, hle⟩
  rw [← heq] at hmem
  exact (Finset.mem_filter.1 hmem).2

/-- With few files open there is an entry of `file_table` left. -/
theorem Opened.exists_file (h : Opened n d) (hn : n < 32) :
    ∃ handle, (d.vfs.fileTable handle).used = false := by
  by_contra hnone
  have hall : (Finset.univ.filter fun handle => (d.vfs.fileTable handle).used = true) = Finset.univ := by
    refine Finset.filter_true_of_mem fun handle _ => ?_
    exact Bool.not_eq_false _ ▸ fun hunused => hnone ⟨handle, hunused⟩
  have hcard := h.files
  rw [hall, Finset.card_univ, Fintype.card_fin] at hcard
  omega

/-- The first process opens the root of a volume again and again. -/
theorem exists_opened (hs : Serving sb v s) (hv : v.Consistent sb) : ∀ n ≤ 13, ∃ (h : Host Unit) (es : List Event),
    Run (Host.Step unlimited) ⟨booted, s⟩ es h ∧ Serving sb v h.fs ∧ h.kernel.current.savedStack = .returns ∧
      Opened n h.kernel.desk := by
  intro n
  induction n with
  | zero =>
    have hnone : Opened 0 booted.desk := ⟨by decide, by decide⟩
    exact fun _ => ⟨_, _, .nil, hs, rfl, hnone⟩
  | succ n ih =>
    intro hn
    obtain ⟨h, es, hrun, hs', hreturns, hopened⟩ := ih (by omega)
    have hinit : booted.toProcesses = Processes.schedulerInit 0xC0110000 0 := rfl
    obtain ⟨-, hk⟩ := Host.bookkept_of_run hinit rfl hrun
    have hopen : wp (vfsOpen [0x2F] 0) (fun _ st => Serving sb v st.fs ∧ Opened (n + 1) st.desk) h.station := by
      have hnext := (hs'.setInterrupts false).lookup [0x2F]
      have hfound := lookupOrCreate_of_ok 0 (hnext.1.trans hv.lookup_root)
      refine vfsCall_cases (fun hrefused => ?_) (fun hbusy => ?_) fun _ _ => ?_
      · rcases hrefused with hinit | hflags
        · exact absurd (hinit.symm.trans hk.initialized) (by decide)
        · exact absurd hflags (by decide)
      · exact absurd (hbusy.symm.trans hk.free) (by decide)
      refine (openLocked_effect [0x2F] 0).mono fun r ⟨d, s⟩ heffect => ?_
      dsimp only at heffect
      cases heffect with
      | full hfull =>
        obtain ⟨handle, hunused⟩ := hopened.exists_file (by omega)
        exact absurd ((hfull handle).symm.trans hunused) (by decide)
      | missing _ hmissing => exact absurd (hfound.symm.trans hmissing) nofun
      | directory _ _ _ hwrite => exact absurd hwrite (by decide)
      | stuck _ _ htrunc => cases htrunc
      | crowded _ _ _ _ hcrowded =>
        obtain ⟨descriptor, hle, hfree⟩ := hopened.exists_descriptor (by omega)
        exact absurd hfree (hcrowded descriptor hle)
      | @opened _ status _ _ _ hunused hfound' _ htrunc _ hfree =>
        obtain rfl := congrArg Prod.snd htrunc
        obtain rfl := congrArg Prod.snd (hfound.symm.trans hfound')
        have hmore := hopened.succ hunused hfree (show (openedFile status 0).used = true from rfl)
        exact ⟨hnext.2.setInterrupts _, hmore.descriptors, hmore.files⟩
    refine ⟨_, _, hrun.snoc (.file (.openPath [0x2F] 0) hreturns), hopen.1, ?_, ?_⟩
    · show (h.kernel.setCurrent _).current.savedStack = .returns
      rw [Processes.setCurrent_current]
      exact hreturns
    · show Opened (n + 1) (h.kernel.setDesk (vfsOpen [0x2F] 0 h.station).2.desk).desk
      rw [Kernel.desk_setDesk]
      exact hopen.2

/-- A volume with the file `/bin/a`, and without `/bin/b`. -/
theorem exists_bin_a : ∃ sb v s status, Serving sb v s ∧ v.Clean sb ∧
    v.lookup sb (Tools.binPath [0x61]) = .ok status ∧ status.mode = 1 ∧ 0 < status.size ∧
    v.lookup sb (Tools.binPath [0x62]) = .error .enoent := by
  have hbuildable := Tools.buildable_one (c := 0x61) (by decide)
  obtain ⟨volume, hbuild⟩ := hbuildable.exists_volume
  have hproper : ∀ file ∈ [(⟨[0x61], Tools.elfMagic⟩ : Tools.ImportedFile)], Vol.Proper file.name := by
    intro file hfile
    obtain rfl := List.mem_singleton.1 hfile
    exact ⟨by decide, by decide⟩
  obtain ⟨sb, hformat, hinodes, hbuilt⟩ := Tools.buildVolume_built hbuildable.distinct hbuild
  have hclean := hbuilt.clean hformat.root hbuildable.distinct hproper
  obtain ⟨-, hs⟩ := Tools.mount_serving (Tools.inserted_bootMachine 24 volume) hformat hclean.consistent
    (by rw [hinodes]; decide)
  obtain ⟨hmode, -, hcontent⟩ := hbuilt.file 0 Nat.zero_lt_one
  refine ⟨sb, _, _, _, hs, hclean, hbuilt.lookup_file hformat.root hbuildable.distinct hproper Nat.zero_lt_one, hmode, ?_, ?_⟩
  · have hlength := congrArg List.length hcontent
    rw [Vol.content, List.length_map, List.length_range] at hlength
    show 0 < ((Vol.ofDisk sb volume).ino (0 + 2)).size
    rw [hlength]
    decide
  · refine (hbuilt.lookup_other hformat.root hbuildable.distinct hproper (by decide) ⟨by decide, by decide⟩
      fun file hfile => ?_).trans (congrArg Except.error (if_pos (by simp)))
    obtain rfl := List.mem_singleton.1 hfile
    decide

end

/-- The first process fails to open `/bin/b`. -/
theorem failed_open_iff_missing : ∃ (sb : Superblock) (h : Host Unit),
    (vfsOpen (Tools.binPath [0x62]) 0 h.station).1 = .error .enoent ∧
    (h.back (vfsOpen (Tools.binPath [0x62]) 0 h.station).2).kernel = h.kernel ∧
    SameContents sb (Vol.ofDisk sb h.fs.volume)
      (Vol.ofDisk sb (vfsOpen (Tools.binPath [0x62]) 0 h.station).2.fs.volume) := by
  obtain ⟨sb, v, s, -, hs, hv, -, -, -, hmissing⟩ := exists_bin_a
  let h : Host Unit := ⟨Scheduler.booted, s⟩
  have hinit : h.kernel.toProcesses = Processes.schedulerInit 0xC0110000 0 := rfl
  have hlookup := ((hs.setInterrupts false).lookup (Tools.binPath [0x62])).1.trans hmissing
  have hfound : (lookupOrCreate (Tools.binPath [0x62]) 0 { s with interrupts := false }).1 = .error .enoent := by
    have hwp : wp (lookupOrCreate (Tools.binPath [0x62]) 0) (fun r _ => r = .error .enoent)
        { s with interrupts := false } := by
      unfold lookupOrCreate
      rw [wp_bind]
      unfold wp
      rw [hlookup]
      rfl
    exact hwp
  have hfails : wp (vfsOpen (Tools.binPath [0x62]) 0) (fun r _ => r = .error .enoent) h.station := by
    refine vfsCall_cases (fun hrefused => ?_) nofun fun _ _ => ?_
    · exact absurd hrefused (not_or.2 ⟨nofun, by decide⟩)
    exact (openLocked_effect (Tools.binPath [0x62]) 0).mono fun r st heffect => heffect.eq_error 0 rfl hfound
  have hnot : ¬ (flagsValid 0 = true ∧ Spoils (Tools.binPath [0x62]) 0 h.kernel.desk { s with interrupts := false }) :=
    fun hspoils => hspoils.2.crowded 3 (by decide) rfl
  have hrun : Run (Host.Step Scheduler.unlimited) h [] h := .nil
  exact ⟨sb, h, hfails, (failed_open_iff hinit rfl ⟨v, hs, hv⟩ hrun _ 0).2 hnot _ hfails⟩

/-- The first process has all its descriptors open; it opens `/bin/a` to write to it, which fails, and the bytes of the
file are gone. -/
theorem failed_open_truncates : ∃ (sb : Superblock) (s : Machine) (h : Host Unit) (es : List Event),
    ServesClean sb s ∧ Run (Host.Step Scheduler.unlimited) ⟨Scheduler.booted, s⟩ es h ∧
    (vfsOpen (Tools.binPath [0x61]) 0x201 h.station).1 = .error .emfile ∧
    ¬ SameContents sb (Vol.ofDisk sb h.fs.volume)
      (Vol.ofDisk sb (vfsOpen (Tools.binPath [0x61]) 0x201 h.station).2.fs.volume) := by
  obtain ⟨sb, v, s, status, hs, hv, hlookup, hmode, hsize, -⟩ := exists_bin_a
  obtain ⟨h, es, hrun, hs', -, hopened⟩ := exists_opened hs hv.consistent 13 (Nat.le_refl 13)
  have hinit : Scheduler.booted.toProcesses = Processes.schedulerInit 0xC0110000 0 := rfl
  obtain ⟨-, hk⟩ := Host.bookkept_of_run hinit rfl hrun
  have hlookup' := ((hs'.setInterrupts false).lookup (Tools.binPath [0x61])).1.trans hlookup
  have hspoils : Spoils (Tools.binPath [0x61]) 0x201 h.kernel.desk { h.fs with interrupts := false } :=
    ⟨hopened.exists_file (by decide), hopened.crowded hk.booked.standard, .inr ⟨status, hlookup', hmode, hsize, by decide⟩⟩
  have hemfile : wp (vfsOpen (Tools.binPath [0x61]) 0x201) (fun r _ => r = .error .emfile) h.station := by
    refine vfsCall_cases (fun hrefused => ?_) (fun hbusy => ?_) fun _ _ => ?_
    · exact absurd hrefused (not_or.2 ⟨fun hinit => absurd (hinit.symm.trans hk.initialized) (by decide), by decide⟩)
    · exact absurd (hbusy.symm.trans hk.free) (by decide)
    · refine (openLocked_effect (Tools.binPath [0x61]) 0x201).mono fun r st heffect => ?_
      have hspoils' : Spoils (Tools.binPath [0x61]) 0x201 h.station.enter.desk h.station.enter.fs :=
        ⟨hspoils.entry, hspoils.crowded, hspoils.change⟩
      exact heffect.eq_emfile (hs'.setInterrupts false) hv.consistent hlookup hmode hspoils'
  have hout := vfsOpen_outcome h.station hk.booked hk.free hs' hv.consistent (Tools.binPath [0x61]) 0x201
  unfold wp at hout hemfile
  rw [hemfile] at hout
  obtain ⟨-, w, hs'', hiff⟩ := hout
  refine ⟨sb, s, h, es, ⟨v, hs, hv⟩, hrun, hemfile, ?_⟩
  rw [hs'.volume, hs''.volume, hiff]
  exact not_not.2 ⟨by decide, hspoils⟩

end MiniOrange

import MiniOrange.Proc.Belongings
import MiniOrange.Syscall.Path

/-!
# Working directories

A process changes its working directory with `syscall_chdir`, to a normalised path without the separator at its end; a new
process gets the directory of the one that made it. So all of them are canonical in every run
(`directories_of_run`).
-/

namespace MiniOrange

namespace Syscall

open Lexical Processes

/-- What `copy_user_string` has put into a buffer of 256 bytes. -/
structure UserString where
  text : List UInt8
  notMem : 0 ∉ text
  length_lt : text.length < 256

/-- `copy_syscall_path`; `none` is a string that cannot be read or is too long. -/
def copySyscallPath (currentWorkingDirectory : List UInt8) (user : Option UserString) (path : Bytes) :
    Except Errno Bytes :=
  match user with
  | none => .error .efault
  | some input => if input.text = [] then .error .einval else normalizePath currentWorkingDirectory input.text path

/-- `scheduler_set_current_working_directory`. -/
def setCurrentWorkingDirectory (path : Bytes) : Option (List UInt8) :=
  if path 0 ≠ 0x2F then none
  else if (cString path).length = 0 ∨ (cString path).length ≥ 256 then none
  else some (cString path)

/-- `syscall_chdir`, where `vfs_stat` gives the mode of the file at a path: the new working directory. -/
def syscallChdir (vfsStat : List UInt8 → Except Errno Nat) (currentWorkingDirectory : List UInt8)
    (user : Option UserString) (path : Bytes) : Except Errno (List UInt8) :=
  match copySyscallPath currentWorkingDirectory user path with
  | .error e => .error e
  | .ok path =>
    match vfsStat (cString path) with
    | .error e => .error e
    | .ok mode =>
      if mode ≠ 2 then .error .enotdir
      else
        let length := (cString path).length
        let path := if length > 1 ∧ path (length - 1) = 0x2F then Function.update path (length - 1) 0 else path
        match setCurrentWorkingDirectory path with
        | none => .error .eio
        | some directory => .ok directory

/-- A canonical path, with its terminator within 256 bytes. -/
structure GoodDirectory (directory : List UInt8) : Prop where
  canonical : Canonical 0x2F 0x2E directory
  notMem : 0 ∉ directory
  length_lt : directory.length < 256

theorem goodDirectory_root : GoodDirectory [0x2F] := ⟨⟨rfl, .inl rfl⟩, by decide, by decide⟩

variable {vfsStat : List UInt8 → Except Errno Nat} {cwd directory : List UInt8} {user : Option UserString} {path path' : Bytes}

/-- `syscall_chdir` takes the separator at the end of a normalised path away. -/
theorem spells_unslashed {input : List UInt8} (h : Spells path (normalized cwd input)) :
    let length := (normalized cwd input).length
    Spells (if length > 1 ∧ path (length - 1) = 0x2F then Function.update path (length - 1) 0 else path)
      (spell 0x2F (destination cwd input)) := by
  have hplain := plain_destination cwd input
  have hlong := one_lt_length_spell hplain
  dsimp only
  by_cases hslash : input.length > 1 ∧ input.getLast? = some 0x2F ∧ destination cwd input ≠ []
  · have heq : normalized cwd input = spell 0x2F (destination cwd input) ++ [0x2F] := by rw [normalized, if_pos hslash]
    rw [heq] at h ⊢
    rw [List.length_append, List.length_singleton, Nat.add_sub_cancel]
    have hlast : path (spell 0x2F (destination cwd input)).length = 0x2F := by
      rw [h.2 _ (by simp), List.getD_append_right _ _ _ _ (Nat.le_refl _), Nat.sub_self]
      rfl
    have hmore := hlong.2 hslash.2.2
    have htaken := h.take (n := (spell 0x2F (destination cwd input)).length) (by simp)
    rw [List.take_left] at htaken
    rwa [if_pos ⟨by omega, hlast⟩]
  · have heq : normalized cwd input = spell 0x2F (destination cwd input) := by
      rw [normalized, if_neg hslash, List.append_nil]
    rw [heq] at h ⊢
    rwa [if_neg]
    rintro ⟨hmore, hlast⟩
    refine getLast?_spell hplain (hlong.1 hmore) ?_
    rw [h.2 _ (Nat.sub_le _ _), List.getD_eq_getElem _ _ (by omega)] at hlast
    rw [List.getLast?_eq_getElem?, List.getElem?_eq_getElem (by omega), hlast]

theorem eq_cString_of_set (h : setCurrentWorkingDirectory path = some directory) : directory = cString path := by
  unfold setCurrentWorkingDirectory at h
  split at h
  · cases h
  · split at h
    · cases h
    · exact (Option.some.inj h).symm

/-- The directory that `syscall_chdir` sets is that of the normalised path. -/
theorem syscallChdir_spec (hcwd : 0 ∉ cwd) (h : syscallChdir vfsStat cwd user path = .ok directory) :
    ∃ input, user = some input ∧ input.text ≠ [] ∧ directory = spell 0x2F (destination cwd input.text) ∧
      GoodDirectory directory := by
  unfold syscallChdir at h
  cases hcopy : copySyscallPath cwd user path with
  | error e =>
    rw [hcopy] at h
    cases h
  | ok path' =>
    rw [hcopy] at h
    unfold copySyscallPath at hcopy
    cases user with
    | none => cases hcopy
    | some input =>
      dsimp only at hcopy h
      split at hcopy
      · cases hcopy
      next hne =>
      obtain ⟨hspells, hlt, -⟩ := normalizePath_spec hcwd input.notMem hcopy
      rw [hspells.cString_eq hlt] at h
      have hunslashed := spells_unslashed hspells
      have hle : (spell 0x2F (destination cwd input.text)).length < 256 := by
        unfold normalized at hlt
        rw [List.length_append] at hlt
        omega
      split at h
      · cases h
      split at h
      · cases h
      split at h
      · cases h
      · next directory' hset =>
        cases h
        rw [eq_cString_of_set hset, hunslashed.cString_eq hle]
        exact ⟨input, rfl, hne, rfl, canonical_iff.2 ⟨_, plain_destination cwd input.text, rfl⟩, hunslashed.1, hle⟩

theorem syscallChdir_good (hcwd : 0 ∉ cwd) (h : syscallChdir vfsStat cwd user path = .ok directory) :
    GoodDirectory directory := by
  obtain ⟨-, -, -, -, hgood⟩ := syscallChdir_spec hcwd h
  exact hgood

/-! ## Runs -/

section
variable {ρ : Type} {S : Services ρ} {k k' : Kernel ρ} {e : Event} {es : List Event}

/-- A step in which the running process may change its directory, by `syscall_chdir`. -/
def DirectoryStep (S : Services ρ) (k : Kernel ρ) (e : Event) (k' : Kernel ρ) : Prop :=
  ∃ call : Call ρ, call.Allowed k.toProcesses ∧
    (∀ fdTable directory vfs rest, call = .work fdTable directory vfs rest →
      directory = k.current.currentWorkingDirectory ∨
      ∃ vfsStat user path, syscallChdir vfsStat k.current.currentWorkingDirectory user path = .ok directory) ∧
    Scheduler.perform S call k = .ok (e, k')

/-- All processes have good directories. -/
def Directories (k : Processes) : Prop := ∀ i, GoodDirectory (k.processTable i).currentWorkingDirectory

theorem Directories.passed {leaver : Option ProcessSlot} (h : Directories k.toProcesses) (hpassed : Passed leaver k k') :
    Directories k'.toProcesses := by
  intro i
  cases hpassed.passes i with
  | kept hkept => exact hkept.directory ▸ h i
  | cleared _ hclear =>
    rw [hclear]
    exact goodDirectory_root
  | made _ _ hdirectory => exact hdirectory ▸ h k.currentProcess

/-- A change of the running process. -/
theorem Directories.setCurrent {k : Processes} (h : Directories k) {p : Process}
    (hp : GoodDirectory p.currentWorkingDirectory) : Directories (k.setCurrent p) := by
  intro i
  by_cases hi : i = k.currentProcess
  · rw [hi, setCurrent_self]
    exact hp
  · rw [setCurrent_of_ne _ _ hi]
    exact h i

theorem DirectoryStep.directories (hstep : DirectoryStep S k e k') (h : Directories k.toProcesses) :
    Directories k'.toProcesses := by
  obtain ⟨call, -, hwork, hok⟩ := hstep
  have hcurrent : GoodDirectory k.current.currentWorkingDirectory := h k.currentProcess
  have hbegun : Directories (Scheduler.begun k call).toProcesses := by
    cases call with
    | exit code => exact h.setCurrent hcurrent
    | fault frame => exact h.setCurrent hcurrent
    | work fdTable directory vfs rest =>
      refine h.setCurrent ?_
      rcases hwork fdTable directory vfs rest rfl with heq | ⟨vfsStat, user, path, hchdir⟩
      · exact heq ▸ hcurrent
      · exact syscallChdir_good hcurrent.notMem hchdir
    | tick | spawn | thread | yield | sleep | wait | resume => exact h
  exact hbegun.passed ((Scheduler.perform_passed S call).of_ok hok)

theorem directories_of_run {k₀ : Kernel ρ} {bootStackTop flags : Nat}
    (hstart : k₀.toProcesses = schedulerInit bootStackTop flags) (h : Run (DirectoryStep S) k₀ es k) :
    Directories k.toProcesses := by
  refine h.invariant (I := fun k => Directories k.toProcesses) ?_ fun _ _ _ hk hstep => hstep.directories hk
  intro i
  rw [hstart, schedulerInit]
  dsimp only
  rw [Function.update_apply]
  split
  · exact goodDirectory_root
  · exact goodDirectory_root

end

/-- `normalize_path` resolves the names of the working directory, if the path is relative, and of the path; what it leaves
in its buffer is a string of less than 256 bytes, which stays as it is when it is normalised again. So the working
directory of each process is canonical in every run. -/
theorem normalization_canonical :
    (∀ (cwd input : List UInt8) (path path' : Bytes), Canonical 0x2F 0x2E cwd → 0 ∉ cwd → input ≠ [] → 0 ∉ input →
      input.length ≤ 255 → normalizePath cwd input path = .ok path' →
      cString path' = normalized cwd input ∧
      (normalized cwd input).length < 256 ∧ path' (normalized cwd input).length = 0 ∧ (∀ i ≥ 256, path' i = path i) ∧
      ∀ cwd' path, ∃ path'', normalizePath cwd' (cString path') path = .ok path'' ∧ cString path'' = cString path') ∧
    ∀ (ρ : Type) (S : Services ρ) (k₀ k : Kernel ρ) (es : List Event) (bootStackTop flags : Nat),
      k₀.toProcesses = schedulerInit bootStackTop flags → Run (DirectoryStep S) k₀ es k →
      ∀ i, Canonical 0x2F 0x2E (k.processTable i).currentWorkingDirectory ∧
        0 ∉ (k.processTable i).currentWorkingDirectory ∧ (k.processTable i).currentWorkingDirectory.length < 256 := by
  refine ⟨fun cwd input path path' _ hcwd _ hnul _ hok => ?_, fun ρ S k₀ k es bootStackTop flags hstart hrun i => ?_⟩
  · obtain ⟨hspells, hlt, hwithin⟩ := normalizePath_spec hcwd hnul hok
    rw [hspells.cString_eq hlt]
    refine ⟨rfl, hlt, ?_, hwithin, fun cwd' path => ?_⟩
    · rw [hspells.2 _ (Nat.le_refl _), List.getD_eq_default _ _ (Nat.le_refl _)]
    · obtain ⟨path'', hagain⟩ :=
        normalizePath_absolute cwd' path hspells.1 (head?_normalized cwd input) (Nat.le_of_lt_succ hlt)
      obtain ⟨hspells', hlt', -⟩ := normalizePath_spec_absolute (head?_normalized cwd input) hspells.1 hagain
      rw [normalized_normalized] at hspells' hlt'
      exact ⟨path'', hagain, hspells'.cString_eq hlt'⟩
  · have hgood := directories_of_run hstart hrun i
    exact ⟨hgood.canonical, hgood.notMem, hgood.length_lt⟩

/-- The path `../b/./c/` in the directory `/a`, and the first process in the directory `/b`. -/
theorem normalization_canonical_example :
    (∃ path, normalizePath [0x2F, 0x61] [0x2E, 0x2E, 0x2F, 0x62, 0x2F, 0x2E, 0x2F, 0x63, 0x2F] (fun _ => 0) = .ok path ∧
      normalized [0x2F, 0x61] [0x2E, 0x2E, 0x2F, 0x62, 0x2F, 0x2E, 0x2F, 0x63, 0x2F] = [0x2F, 0x62, 0x2F, 0x63, 0x2F] ∧
      cString path = normalized [0x2F, 0x61] [0x2E, 0x2E, 0x2F, 0x62, 0x2F, 0x2E, 0x2F, 0x63, 0x2F]) ∧
    ∃ k : Kernel Unit, k.current.currentWorkingDirectory = [0x2F, 0x62] ∧
      ∀ i, Canonical 0x2F 0x2E (k.processTable i).currentWorkingDirectory ∧
        0 ∉ (k.processTable i).currentWorkingDirectory ∧ (k.processTable i).currentWorkingDirectory.length < 256 := by
  constructor
  · obtain ⟨path, hok⟩ : ∃ path, normalizePath [0x2F, 0x61] [0x2E, 0x2E, 0x2F, 0x62, 0x2F, 0x2E, 0x2F, 0x63, 0x2F]
      (fun _ => 0) = .ok path := ⟨_, rfl⟩
    refine ⟨path, hok, by decide, (normalization_canonical.1 _ _ _ _ ?_ ?_ ?_ ?_ ?_ hok).1⟩
    · exact ⟨rfl, .inr (by decide)⟩
    · decide
    · decide
    · decide
    · decide
  · let name : UserString := ⟨[0x62], by decide, by decide⟩
    have hchdir : syscallChdir (fun _ => .ok 2) [0x2F] (some name) (fun _ => 0) = .ok [0x2F, 0x62] := by decide +kernel
    have hstep : DirectoryStep Scheduler.unlimited Scheduler.booted .work
        (Scheduler.begun Scheduler.booted (.work (fun _ => none) [0x2F, 0x62] Scheduler.booted.vfs ())) := by
      refine ⟨.work (fun _ => none) [0x2F, 0x62] Scheduler.booted.vfs (), rfl, fun _ _ _ _ heq => ?_, rfl⟩
      cases heq
      exact .inr ⟨_, _, _, hchdir⟩
    exact ⟨_, rfl, normalization_canonical.2 Unit _ _ _ _ 0xC0110000 0 rfl (.single hstep)⟩

/-! ## Relative paths -/

variable {a b : List UInt8}

/-- A relative path from a destination leads where the two paths, one behind the other, lead. -/
theorem normalized_append (cwd : List UInt8) (ha : a ≠ []) (hb : b ≠ []) (hrelative : b.head? ≠ some 0x2F) :
    normalized (spell 0x2F (destination cwd a)) b = normalized cwd (a ++ 0x2F :: b) := by
  have hplain := plain_destination cwd a
  have hsame : destination (spell 0x2F (destination cwd a)) b = destination cwd (a ++ 0x2F :: b) := by
    rw [destination, if_neg hrelative, names_spell hplain, resolve_append, resolve_of_plain hplain, List.nil_append,
      destination, destination, names_append, List.head?_append_of_ne_nil _ ha, ← List.append_assoc, ← resolve_append]
  -- a relative path that ends with a separator has more than this byte
  have hslash : b.length > 1 ∧ b.getLast? = some 0x2F ↔
      (a ++ 0x2F :: b).length > 1 ∧ (a ++ 0x2F :: b).getLast? = some 0x2F := by
    obtain ⟨x, rest, rfl⟩ := List.exists_cons_of_ne_nil hb
    cases rest with
    | nil => simpa using hrelative
    | cons y rest => simp; omega
  simp only [normalized, hsame, ← and_assoc, hslash]

/-- **`chdir` and a relative path compose.** What a relative path means after a `chdir` is what the two paths, joined by
a separator, mean before it. -/
theorem chdir_composes {input : UserString} {p p' there direct : Bytes} (hcwd : 0 ∉ cwd)
    (hchdir : syscallChdir vfsStat cwd (some input) path = .ok directory) (hb : b ≠ []) (hnul : 0 ∉ b)
    (hrelative : b.head? ≠ some 0x2F) (hthere : normalizePath directory b p = .ok there)
    (hdirect : normalizePath cwd (input.text ++ 0x2F :: b) p' = .ok direct) : cString there = cString direct := by
  obtain ⟨_, ⟨⟩, hne, rfl, hgood⟩ := syscallChdir_spec hcwd hchdir
  obtain ⟨hspells, hlt, -⟩ := normalizePath_spec hgood.notMem hnul hthere
  obtain ⟨hspells', hlt', -⟩ := normalizePath_spec hcwd (by simp [input.notMem, hnul]) hdirect
  rw [hspells.cString_eq hlt, hspells'.cString_eq hlt', normalized_append cwd hne hb hrelative]

/-- The path `..` after `chdir` from the root to `b`. -/
theorem chdir_composes_up : ∃ there direct, normalizePath [0x2F, 0x62] [0x2E, 0x2E] (fun _ => 0) = .ok there ∧
    normalizePath [0x2F] [0x62, 0x2F, 0x2E, 0x2E] (fun _ => 0) = .ok direct ∧ cString there = cString direct := by
  have hchdir : syscallChdir (fun _ => .ok 2) [0x2F] (some ⟨[0x62], by decide, by decide⟩) (fun _ => 0) =
      .ok [0x2F, 0x62] := by decide +kernel
  exact ⟨_, _, rfl, rfl, chdir_composes (b := [0x2E, 0x2E]) (by decide) hchdir (by decide) (by decide) (by decide) rfl rfl⟩

end Syscall

end MiniOrange

import MiniOrange.Fs.Truncate

/-!
# The public operations on files

Every public operation checks the mount, takes the lock, runs its body and releases the lock
(`On.locked`). What `minifs_write` and `minifs_truncate` can do to a volume is said once, by an
inductive each (`Vol.WriteEffect`, `Vol.TruncateEffect`); the results about files, consistency and
crashes are case analyses over these and do not look at the code again. The reading operations
return a function of the volume.
-/

namespace MiniOrange

variable {E : Env} {ℓ : Level} {v : Vol} {aux cmp : Block} {s : Machine} {L : Finset Nat}
  {α : Type} {P : α → Level → Vol → Prop}

/-! ## The lock -/

/-- The level after an operation that began at `ℓ`. -/
def Level.From (ℓ' ℓ : Level) : Prop := ℓ' = ℓ ∨ ℓ' = ℓ.after

theorem Level.From.quiet {ℓ' : Level} (h : ℓ'.From .quiet) : ℓ' = .quiet := by
  rcases h with rfl | rfl <;> rfl

/-- The end of a public operation that began at level `ℓ`: the machine runs on some volume, which `P`
relates to the result. -/
def Ends (E : Env) (ℓ : Level) (P : α → Level → Vol → Prop) (r : α) (s : Machine) : Prop :=
  ∃ ℓ' v aux cmp, ℓ'.From ℓ ∧ P r ℓ' v ∧ On E ℓ' v aux cmp s

variable {unmounted : Errno} {body : Fs (Except Errno α)} {Q : Machine → Prop}

/-- The operation ends with no transfer failed. -/
theorem Ends.of_on {r : α} (hP : P r ℓ v) (h : On E ℓ v aux cmp s) : Ends E ℓ P r s :=
  ⟨ℓ, v, aux, cmp, .inl rfl, hP, h⟩

/-- The operation ends after a failed transfer. -/
theorem Ends.of_after {r : α} (hP : P r ℓ.after v) (h : On E ℓ.after v aux cmp s) : Ends E ℓ P r s :=
  ⟨ℓ.after, v, aux, cmp, .inr rfl, hP, h⟩

/-- The volume does not depend on the flags. -/
theorem On.setFlags (h : On E ℓ v aux cmp s) (busy interrupts : Bool) :
    On E ℓ v aux cmp { s with operationBusy := busy, interrupts := interrupts } := { h with }

/-- The volume is mounted and no operation runs on it. -/
def Ready (E : Env) (s : Machine) : Prop := E.mounted = true ∧ s.operationBusy = false

/-- `locked` refuses, or it runs its body with the lock taken and the interrupts off, and undoes both. -/
theorem locked_rule {Q : Except Errno α → Machine → Prop} (hrefuse : ∀ e, Q (.error e) s)
    (hbody : s.operationBusy = false →
      wp body (fun r s' => Q r { s' with operationBusy := false, interrupts := s.interrupts })
        { s with operationBusy := true, interrupts := false }) :
    wp (MiniOrange.locked unmounted body) Q s := by
  unfold MiniOrange.locked
  rw [wp_bind, wp_get]
  split
  · exact hrefuse _
  unfold minifsAcquire irqSaveDisable irqRestore minifsRelease
  simp only [wp_bind, wp_get, wp_set, wp_pure]
  split
  · exact hrefuse _
  · next hfree =>
    simp only [wp_modify, wp_bind, wp_pure]
    exact hbody (Bool.not_eq_true _ ▸ hfree)

/-- The rule of `locked`: it refuses, which a ready machine does not, or it runs its body. -/
theorem On.locked {P : Except Errno α → Level → Vol → Prop} (h : On E ℓ v aux cmp s)
    (hrefuse : ¬ Ready E s → ∀ e, P (.error e) ℓ v)
    (hbody : ∀ s, On E ℓ v aux cmp s → wp body (Ends E ℓ P) s) :
    wp (MiniOrange.locked unmounted body) (Ends E ℓ P) s := by
  unfold MiniOrange.locked
  rw [wp_bind, wp_get]
  split
  · next hmount =>
    have hnot : ¬ Ready E s := fun hready => by
      rw [h.mounted, hready.1] at hmount
      cases hmount
    exact .of_on (hrefuse hnot _) h
  unfold minifsAcquire irqSaveDisable irqRestore minifsRelease
  simp only [wp_bind, wp_get, wp_set, wp_pure]
  split
  · next hbusy =>
    have hnot : ¬ Ready E s := fun hready => by
      rw [hready.2] at hbusy
      cases hbusy
    exact .of_on (hrefuse hnot _) (h.setFlags s.operationBusy s.interrupts)
  · simp only [wp_modify, wp_bind, wp_pure]
    refine (hbody _ (h.setFlags true false)).mono ?_
    rintro r s' ⟨ℓ', v', aux', cmp', hℓ, hP, h'⟩
    exact ⟨ℓ', v', aux', cmp', hℓ, hP, h'.setFlags false s.interrupts⟩

/-- The rule of `locked` on a ready machine. -/
theorem On.locked_ready {Q : Except Errno α → Prop} (h : On E ℓ v aux cmp s) (hready : Ready E s)
    (hbody : ∀ s, On E ℓ v aux cmp s → wp body (fun r _ => Q r) s) :
    wp (MiniOrange.locked unmounted body) (fun r _ => Q r) s := by
  unfold MiniOrange.locked minifsAcquire irqSaveDisable irqRestore minifsRelease
  rw [wp_bind, wp_get, h.mounted, hready.1]
  simp only [Bool.true_eq_false, if_false, wp_bind, wp_get, wp_set, wp_pure, hready.2, Bool.false_eq_true,
    wp_modify]
  exact hbody _ (h.setFlags true false)

/-- A public operation leaves the lock as it found it. -/
theorem locked_busy :
    wp (MiniOrange.locked unmounted body) (fun _ s' => s'.operationBusy = s.operationBusy) s := by
  unfold MiniOrange.locked minifsAcquire irqSaveDisable irqRestore minifsRelease
  rw [wp_bind, wp_get]
  split
  · rfl
  simp only [wp_bind, wp_get, wp_set, wp_pure]
  split
  · rfl
  · next hfree =>
    simp only [wp_modify, wp_bind, wp_pure]
    exact (Bool.not_eq_true _ ▸ hfree).symm

/-- A body that only reads. -/
theorem On.ends_reads {m : Fs α} {a fault : α} (h : On E ℓ v aux cmp s)
    (hm : Reads E v (fun _ => True) m a fault Q) (ha : P a ℓ v)
    (hf : ℓ ≠ .quiet → P fault ℓ.after v) : wp m (Ends E ℓ P) s := by
  refine (hm h trivial).mono ?_
  rintro r s' (⟨rfl, h', -⟩ | ⟨rfl, hℓ, h'⟩)
  · exact .of_on ha h'
  · exact .of_after (hf hℓ) h'

/-- A read before the rest of a body. -/
theorem On.ends_bind {β : Type} {m : Fs β} {k : β → Fs α} {a fault : β}
    {e : α} (h : On E ℓ v aux cmp s) (hm : Reads E v (fun _ => True) m a fault Q)
    (hk : ∀ s, On E ℓ v aux cmp s → wp (k a) (Ends E ℓ P) s)
    (hfault : k fault = pure e) (hf : ℓ ≠ .quiet → P e ℓ.after v) :
    wp (m >>= k) (Ends E ℓ P) s := by
  refine wp.bind (hm h trivial) ?_
  rintro r s' (⟨rfl, h', -⟩ | ⟨rfl, hℓ, h'⟩)
  · exact hk s' h'
  · rw [hfault]
    exact .of_after (hf hℓ) h'

/-! ## What the operations on files do -/

namespace Vol

/-- What `minifs_write` can do to a volume. -/
inductive WriteEffect (sb : Superblock) (ℓ : Level) (v : Vol) (n offset : Nat)
    (source : List UInt8) : Except Errno Nat → Level → Vol → Prop
  /-- It refuses before the first write. -/
  | refused (e ℓ') : WriteEffect sb ℓ v n offset source (.error e) ℓ' v
  /-- It writes the first `done` bytes. -/
  | wrote (done v') : v.IsFile (v.alloc sb) n → offset ≤ (v.ino n).size → done ≤ source.length →
      Overwritten v v' sb n offset (bufferOf source) done →
      WriteEffect sb ℓ v n offset source (.ok done) ℓ v'
  /-- It finds no block for the first chunk. -/
  | full (v') : v.IsFile (v.alloc sb) n → offset ≤ (v.ino n).size →
      Overwritten v v' sb n offset (bufferOf source) 0 →
      WriteEffect sb ℓ v n offset source (.error .enospc) ℓ v'
  /-- A transfer fails, and the chunk is undone. -/
  | undone (r v') : ℓ = .single → v.IsFile (v.alloc sb) n → Settled v v' sb n →
      (v'.ino n).linkCount = (v.ino n).linkCount → WriteEffect sb ℓ v n offset source r .quiet v'
  /-- A transfer fails in the undo of a chunk that found no block. -/
  | leaked (r w done v' F) : ℓ = .single → v.IsFile (v.alloc sb) n →
      (r = .error .enospc ∨ ∃ c, r = .ok c ∧ c < source.length) →
      Overwritten v w sb n offset (bufferOf source) done → Taken w v' sb F →
      WriteEffect sb ℓ v n offset source r .quiet v'

/-- What `minifs_truncate` does to a volume when no transfer fails. -/
inductive TruncateEffect (sb : Superblock) (v : Vol) (n size : Nat) :
    Except Errno Unit → Level → Vol → Prop
  /-- It refuses before the first write. -/
  | refused (e ℓ') : TruncateEffect sb v n size (.error e) ℓ' v
  /-- The file has that size. -/
  | same (ℓ') : v.IsFile (v.alloc sb) n → size = (v.ino n).size →
      TruncateEffect sb v n size (.ok ()) ℓ' v
  /-- It cuts the file. -/
  | cut (ℓ') : v.IsFile (v.alloc sb) n → size < (v.ino n).size →
      TruncateEffect sb v n size (.ok ()) ℓ' (v.truncated n size)

end Vol

/-! ## Writing -/

/-- A well-formed inode that is not a directory is a regular file. -/
theorem Inode.Ok.regular {i : Inode} (h : i.Ok) (hmode : i.mode ≠ 2) : i.mode = 1 :=
  h.mode.resolve_right hmode

/-- `minifs_write` on a volume whose inodes own their blocks. -/
theorem On.minifsWrite {n offset : Nat} {source : List UInt8} (h : On E ℓ v aux cmp s)
    (hℓ : ℓ ≠ .any) (hown : v.Owns E.sb (v.alloc E.sb)) (hends : ∀ n ∈ v.alloc E.sb, v.PointersEnd n)
    (hsafe : ∀ v', v.IsFile (v.alloc E.sb) n → Vol.Grown v v' E.sb n →
      (v'.ino n).linkCount = (v.ino n).linkCount → E.safe v') :
    wp (MiniOrange.minifsWrite n offset source)
      (Ends E ℓ (Vol.WriteEffect E.sb ℓ v n offset source)) s := by
  unfold MiniOrange.minifsWrite
  rw [wp_bind, wp_get]
  split
  · exact .of_on (.refused _ _) h
  next hargs =>
  refine h.locked (fun _ e => .refused e ℓ) fun s h => ?_
  refine h.ends_bind (Reads.readInode n) (fun s h => ?_) rfl fun _ => .refused _ _
  cases hread : v.readInode E.sb n with
  | error e => exact .of_on (.refused _ _) h
  | ok inode =>
    obtain ⟨hlt, himap, hok, rfl⟩ := Vol.readInode_eq_ok.1 hread
    have hn : n ∈ v.alloc E.sb := Vol.mem_alloc.2 ⟨hlt, himap⟩
    dsimp only
    split
    · exact .of_on (.refused _ _) h
    next hfile =>
    split
    · exact .of_on (.refused _ _) h
    next hoffset =>
    have hoffset : offset ≤ (v.ino n).size := Nat.not_lt.1 hoffset
    have hregular : v.IsFile (v.alloc E.sb) n := ⟨hn, hok.regular hfile⟩
    refine (On.minifsWriteFrom hℓ hown hn hfile (by omega) (fun v' => hsafe v' hregular)
      source.length 0 v aux s (.refl hown hn (hends n hn) hoffset) (Nat.zero_le _) le_rfl h).mono ?_
    rintro r s' ⟨⟨v', aux', done, ⟨rfl, hdone⟩ | ⟨rfl, rfl⟩, hover, h'⟩ |
      ⟨rfl, v', aux', h', ⟨hsettled, hlinks⟩ | ⟨hr, w, done, F, hover, htaken⟩⟩, -⟩
    · exact .of_on (.wrote done v' hregular hoffset hdone hover) h'
    · exact .of_on (.full v' hregular hoffset hover) h'
    · exact .of_after (.undone r v' rfl hregular hsettled hlinks) h'
    · exact .of_after (.leaked r w done v' F rfl hregular hr hover htaken) h'

/-! ## Truncation -/

/-- `minifs_truncate`, when no transfer fails. -/
theorem On.minifsTruncate {n size : Nat} (h : On E .quiet v aux cmp s)
    (hown : v.Owns E.sb (v.alloc E.sb))
    (hsafe : v.IsFile (v.alloc E.sb) n → size < (v.ino n).size →
      (10 < blocksOf size → E.safe (v.cleared n (blocksOf size))) ∧
      ∀ w, Vol.Shrunk v w n size → E.safe w) :
    wp (MiniOrange.minifsTruncate n size) (Ends E .quiet (Vol.TruncateEffect E.sb v n size)) s := by
  unfold MiniOrange.minifsTruncate
  rw [wp_bind, wp_get]
  split
  · exact .of_on (.refused _ _) h
  refine h.locked (fun _ e => .refused e _) fun s h => ?_
  unfold truncateLocked
  refine h.ends_bind (Reads.readInode n) (fun s h => ?_) rfl fun _ => .refused _ _
  cases hread : v.readInode E.sb n with
  | error e => exact .of_on (.refused _ _) h
  | ok inode =>
    obtain ⟨hlt, himap, hok, rfl⟩ := Vol.readInode_eq_ok.1 hread
    have hn : n ∈ v.alloc E.sb := Vol.mem_alloc.2 ⟨hlt, himap⟩
    dsimp only
    split
    · exact .of_on (.refused _ _) h
    next hfile =>
    have hregular : v.IsFile (v.alloc E.sb) n := ⟨hn, hok.regular hfile⟩
    split
    · exact .of_on (.refused _ _) h
    next hle =>
    split
    · next hsame => exact .of_on (.same _ hregular hsame) h
    next hne =>
    have hsize : size < (v.ino n).size := by omega
    obtain ⟨hsafe₁, hsafe₂⟩ := hsafe hregular hsize
    refine (h.truncateShrink hown hn hfile hsize.le hsafe₁ hsafe₂).mono ?_
    rintro r s' ⟨rfl, aux', cmp', h'⟩
    exact .of_on (.cut _ hregular hsize) h'

/-! ## Reading -/

/-- A reading operation leaves the volume. It returns its value there, or an error if the machine
was not ready or a transfer failed. -/
def ReadEffect (ready : Prop) (ℓ : Level) (v : Vol) (value r : Except Errno α) (_ : Level)
    (v' : Vol) : Prop :=
  v' = v ∧ (r = value ∨ ((¬ ready ∨ ℓ ≠ .quiet) ∧ ∃ e, r = .error e))

section

variable (h : On E ℓ v aux cmp s)
include h

/-- A locked body that only reads. -/
theorem On.locked_reads {m : Fs (Except Errno α)} {a : Except Errno α} {e : Errno}
    (hm : Reads E v (fun _ => True) m a (.error e) fun _ => True) :
    wp (MiniOrange.locked unmounted m) (Ends E ℓ (ReadEffect (Ready E s) ℓ v a)) s :=
  h.locked (fun hnot _ => ⟨rfl, .inr ⟨.inl hnot, _, rfl⟩⟩) fun _ h' =>
    h'.ends_reads hm ⟨rfl, .inl rfl⟩ fun hℓ => ⟨rfl, .inr ⟨.inr hℓ, _, rfl⟩⟩

/-- `minifs_lookup`. -/
theorem On.minifsLookup (path : List UInt8) :
    wp (MiniOrange.minifsLookup path)
      (Ends E ℓ (ReadEffect (Ready E s) ℓ v (v.lookup E.sb path))) s :=
  h.locked_reads (Reads.lookup path)

/-- `minifs_stat_inode`. -/
theorem On.minifsStatInode (n : Nat) :
    wp (MiniOrange.minifsStatInode n)
      (Ends E ℓ (ReadEffect (Ready E s) ℓ v ((v.readInode E.sb n).map (·.stat n)))) s :=
  h.locked_reads (Reads.bind (Reads.readInode n) Reads.ret rfl)

/-- `minifs_read`. -/
theorem On.minifsRead (n offset length : Nat) :
    wp (MiniOrange.minifsRead n offset length)
      (Ends E ℓ (ReadEffect (Ready E s) ℓ v (v.readAt E.sb n offset length))) s := by
  refine h.locked_reads (Reads.bind (Reads.readInode n) ?_ rfl)
  unfold Vol.readAt
  cases v.readInode E.sb n with
  | error e => exact Reads.ret
  | ok inode => exact Reads.ite Reads.ret (Reads.ite Reads.ret (Reads.readFrom _ _))

/-- `minifs_readdir` refuses an offset inside an entry. -/
theorem On.minifsReaddir (n offset : Nat) :
    wp (MiniOrange.minifsReaddir n offset) (Ends E ℓ (ReadEffect (Ready E s) ℓ v
      (if offset % 64 ≠ 0 then .error .einval else v.readdirAt E.sb n offset))) s := by
  unfold MiniOrange.minifsReaddir
  rw [wp_bind, wp_get]
  split
  · next hrefused =>
    refine .of_on ⟨rfl, ?_⟩ h
    rcases hrefused with hmount | hoffset
    · refine .inr ⟨.inl fun hready => ?_, _, rfl⟩
      rw [h.mounted, hready.1] at hmount
      cases hmount
    · rw [if_pos hoffset]
      exact .inl rfl
  next hargs =>
  rw [if_neg fun hoffset => hargs (.inr hoffset)]
  refine h.locked_reads (Reads.bind (Reads.readInode n) ?_ rfl)
  unfold Vol.readdirAt
  cases v.readInode E.sb n with
  | error e => exact Reads.ret
  | ok directory => exact Reads.ite Reads.ret (Reads.readdirFrom _ _)

end

/-- `minifs_read` returns the stretch of the content it was asked for. -/
theorem Vol.readAt_content {sb : Superblock} {n offset length : Nat} (hown : v.Owns sb L)
    (hn : n ∈ L) (hfile : (v.ino n).mode = 1) :
    v.readAt sb n offset length = .ok (((v.content n).drop offset).take length) := by
  unfold Vol.readAt
  rw [hown.readInode hn]
  dsimp only
  rw [if_neg (by omega)]
  have hsize : (v.content n).length = (v.ino n).size := by simp [Vol.content]
  split
  · next hnone =>
    rcases hnone with hpast | rfl
    · rw [List.drop_eq_nil_of_le (by omega), List.take_nil]
    · rw [List.take_zero]
  next hsome =>
  -- asking for more than there is gives what there is
  have hall : ((v.content n).drop offset).take ((v.ino n).size - offset) =
      (v.content n).drop offset := List.take_of_length_le (by rw [List.length_drop, hsize])
  rw [← hall, List.take_take]
  generalize hm : min length ((v.ino n).size - offset) = m
  have hread := Vol.readFrom_bytes hown hn (show offset + m ≤ (v.ino n).size by omega) m 0
    (Nat.zero_le _) le_rfl
  rw [List.range_zero, List.map_nil] at hread
  rw [hread, Vol.content_slice (by omega)]

end MiniOrange

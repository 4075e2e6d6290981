import MiniOrange.Fs.Footprint
import MiniOrange.Fs.Create
import MiniOrange.Fs.Path

/-!
# Which inodes the operations touch, whatever fails

`minifs_write` and `minifs_truncate` leave the inodes in use and their modes; `minifs_create` and `minifs_mkdir` touch one that
is free; and `minifs_unlink` touches the one that `minifs_lookup` finds at the path, which it resolves by other functions.
-/

namespace MiniOrange

variable {E : Env} {v v' : Vol} {aux cmp : Block} {s : Machine} {μ μ₁ μ' : Roster} {α β : Type}
  {n : Nat} {inode : Inode} {A : Set Nat}

/-- The inodes of `A` may have changed, and the indirect pointers are in order. -/
structure Roster.Touched (E : Env) (A : Set Nat) (μ μ' : Roster) : Prop where
  pointed : μ'.Pointed E.sb
  kept : Roster.Kept A μ μ'

namespace Roster

theorem Touched.refl (h : μ.Pointed E.sb) : Touched E A μ μ := ⟨h, .refl _ _⟩

theorem Touched.trans (h : Touched E A μ μ₁) (h' : Touched E A μ₁ μ') : Touched E A μ μ' :=
  ⟨h'.pointed, h.kept.trans h'.kept⟩

theorem Steady.touched (h : Steady E μ μ') : Touched E A μ μ' := ⟨h.pointed, h.kept.mono (Set.empty_subset A)⟩

end Roster

theorem Inode.pointed_zero (sb : Superblock) : Inode.zero.Pointed sb := fun h => absurd rfl h

/-- A function that only reads, under any faults: it fails, or returns what the volume has. -/
theorem On.bind_any {m : Fs (Except Errno α)} {a : Except Errno α} {e : Errno} {P : Machine → Prop}
    {f : Except Errno α → Fs β} {Q : β → Machine → Prop} (h : On E .any v aux cmp s)
    (hm : Reads E v (fun _ => True) m a (.error e) P)
    (herror : ∀ e s', On E .any v aux cmp s' → wp (f (.error e)) Q s')
    (hok : ∀ x s', a = .ok x → On E .any v aux cmp s' → wp (f (.ok x)) Q s') : wp (m >>= f) Q s := by
  refine wp.bind (hm h trivial) ?_
  rintro r s' (⟨rfl, h', -⟩ | ⟨rfl, -, h'⟩)
  · cases r with
    | error e => exact herror e s' h'
    | ok x => exact hok x s' rfl h'
  · exact herror e s' h'

variable {path name : List UInt8} {parent : Inode} {d : Nat} {record : DirectoryRecord} {sb : Superblock}
  {status : Stat} {unmounted : Errno} {body : Fs (Except Errno α)}

namespace Acts

variable {Q : β → Roster → Prop}

theorem directoryFind_spares (directory : Inode) (component : List UInt8) :
    Spares E (MiniOrange.directoryFind directory component) fun _ => True :=
  .reads (fun _ => Reads.directoryFind directory component) (fun _ => trivial) trivial

theorem truncateFree (oldInode : Inode) (oldBlocks newBlocks : Nat) :
    Spares E (MiniOrange.truncateFree oldInode oldBlocks newBlocks) fun _ => True := by
  refine .bindResult (.freeBlocksFrom _ _ _) (fun _ => .pure trivial) fun _ _ => .ite (fun _ => ?_) fun _ => .pure trivial
  refine .bindResult (.freeBlocksFrom _ _ _) (fun _ => .pure trivial) fun _ _ => .ite (fun _ => ?_) fun _ => .pure trivial
  exact .bindResult (.freeBlock _) (fun _ => .pure trivial) fun _ _ => .pure trivial

/-- What is touched was free. -/
def Fresh (E : Env) (μ μ' : Roster) : Prop := ∃ A, (∀ n ∈ A, μ.imap n = false) ∧ Roster.Touched E A μ μ'

/-- The end of the making of an inode: what is touched was free, and what is made is in use with its mode. -/
def Created (E : Env) (μ : Roster) (r : Except Errno Stat) (μ' : Roster) : Prop :=
  Fresh E μ μ' ∧ ∀ status, r = .ok status → μ'.imap status.inode = true ∧ (μ'.ino status.inode).mode = status.mode

variable (hμ : μ.Pointed E.sb)
include hμ

/-- `read_inode_internal` fails, or returns the record of an inode in use. -/
theorem bindInode {f : Except Errno Inode → Fs β} (herror : ∀ e, Acts E μ (f (.error e)) Q)
    (hok : ∀ inode, Loaded E μ n inode → inode.Ok → Acts E μ (f (.ok inode)) Q) :
    Acts E μ (readInodeInternal n >>= f) Q := by
  rintro s ⟨hsafe, v, aux, cmp, h, rfl⟩
  refine h.bind_any (Reads.readInode n) (fun e s' h' => herror e s' ⟨hsafe, v, aux, cmp, h', rfl⟩) fun inode s' hread h' => ?_
  obtain ⟨hlt, -, hinode, rfl⟩ := Vol.readInode_eq_ok.1 hread
  exact hok _ ⟨h.fits hinode.reserved, hμ n hlt, rfl⟩ hinode s' ⟨hsafe, v, aux, cmp, h', rfl⟩

/-- `resolve_parent_locked` fails, or returns a directory in use. -/
theorem bindParent {f : Except Errno (Nat × Inode × List UInt8) → Fs β} (herror : ∀ e, Acts E μ (f (.error e)) Q)
    (hok : ∀ d directory name, Loaded E μ d directory → μ.imap d = true → Acts E μ (f (.ok (d, directory, name))) Q) :
    Acts E μ (resolveParentLocked path >>= f) Q := by
  rintro s ⟨hsafe, v, aux, cmp, h, rfl⟩
  refine h.bind_any (Reads.resolveParent path) (fun e s' h' => herror e s' ⟨hsafe, v, aux, cmp, h', rfl⟩) ?_
  rintro ⟨d, directory, name⟩ s' hresolve h'
  obtain ⟨-, -, -, hread, -⟩ := Vol.resolveParent_eq_ok hresolve
  obtain ⟨hlt, himap, hinode, rfl⟩ := Vol.readInode_eq_ok.1 hread
  exact hok d _ name ⟨h.fits hinode.reserved, hμ d hlt, rfl⟩ himap s' ⟨hsafe, v, aux, cmp, h', rfl⟩

/-! ## Entries -/

/-- `directory_append_locked`. -/
theorem directoryAppendLocked {directory : Inode} {childNumber entryType : Nat} (h : Loaded E μ n directory) :
    Acts E μ (MiniOrange.directoryAppendLocked n directory childNumber entryType name) fun _ μ' => Roster.Steady E μ μ' := by
  refine .ite (fun _ => .pure (.refl hμ)) fun hargs => ?_
  refine .afterResult (.findUnusedEntry directory directory.size 0) (fun _ => .pure (.refl hμ)) fun offset hr => ?_
  have hoffset := hr _ rfl
  have hsize : offset + 64 < 2 ^ 32 := by omega
  refine .ite (fun _ => .pure (.refl hμ)) fun hlinks => ?_
  have h' : Loaded E μ n (if entryType = 2 then { directory with linkCount := directory.linkCount + 1 } else directory) := by
    split
    · next htype =>
      have hlt := h.fits.linkCount
      have hne : directory.linkCount ≠ 0xFFFF := fun heq => hlinks ⟨htype, heq⟩
      exact ⟨{ h.fits with linkCount := show directory.linkCount + 1 < 2 ^ 16 by omega }, h.pointed, h.mode⟩
    · exact h
  refine (writeChunkLocked hμ h' hsize).bindResult (fun _ _ hgrown => .pure hgrown.1) ?_
  rintro directory' μ₁ ⟨hgrown, hload⟩
  refine .ite (fun _ => ?_) fun _ => .pure hgrown
  refine (commit hgrown.pointed (hload _ rfl)).bindResult (fun _ μ₂ hsteady => ?_) fun _ _ hsteady =>
    .pure (hgrown.trans hsteady)
  have hundo : Acts E μ₂ (MiniOrange.writeChunkLocked n directory' offset (fun _ => 0) 64) (Grown E μ₂ n) :=
    writeChunkLocked hsteady.pointed ((hload _ rfl).steady hsteady) hsize
  exact hundo.bind fun _ _ hgrown' => .pure ((hgrown.trans hsteady).trans hgrown'.1)

/-! ## New inodes -/

/-- `clear_inode_record` and `free_inode` of one inode. -/
theorem releases (n : Nat) :
    Acts E μ (clearInodeRecord n) (fun _ μ' => Roster.Touched E {n} μ μ') ∧
      Acts E μ (MiniOrange.freeInode n) fun _ μ' => Roster.Touched E {n} μ μ' := by
  constructor
  · refine (clearRecord n).mono ?_
    rintro r μ' (rfl | rfl)
    · exact ⟨hμ.setIno (Inode.pointed_zero _), Roster.kept_setIno (.inl rfl)⟩
    · exact .refl hμ
  · refine (freeInode n).mono ?_
    rintro r μ' (rfl | rfl)
    · exact ⟨hμ, Roster.kept_setI _ _ rfl⟩
    · exact .refl hμ

/-- `rollback_created_inode`. -/
theorem rollbackCreatedInode (n : Nat) :
    Acts E μ (MiniOrange.rollbackCreatedInode n) fun _ μ' => Roster.Touched E {n} μ μ' := by
  unfold MiniOrange.rollbackCreatedInode
  refine (releases hμ n).1.bind fun _ μ₁ h₁ => ?_
  exact (releases h₁.pointed n).2.bind fun _ μ₂ h₂ => .pure (h₁.trans h₂)

theorem Created.error (e : Errno) : Created E μ (.error e) μ :=
  ⟨⟨∅, nofun, .refl hμ⟩, nofun⟩

/-- `create_locked` once the name is known to be free. -/
theorem createNamed (h : Loaded E μ n parent)
    (hused : μ.imap n = true) : Acts E μ (MiniOrange.createNamed n parent name) (Created E μ) := by
  unfold MiniOrange.createNamed
  refine allocateInode.bind fun r μ₁ hr => ?_
  rcases hr with ⟨c, -, hfree, rfl, hc⟩ | ⟨⟨e, rfl⟩, rfl⟩
  · have htouched : Roster.Touched E {c} μ (μ.setI c true) := ⟨hμ, Roster.kept_setI _ _ rfl⟩
    have hfailed : ∀ {μ₂}, Roster.Touched E {c} μ μ₂ → ∀ e : Errno, Created E μ (.error e) μ₂ := fun h₂ _ =>
      ⟨⟨{c}, fun m hm => hm ▸ hfree, h₂⟩, nofun⟩
    have hundo : ∀ {μ₂} (e : Errno), Roster.Touched E {c} μ μ₂ → Acts E μ₂ (do
        MiniOrange.rollbackCreatedInode c
        return .error e) (Created E μ) := fun e h₂ =>
      (rollbackCreatedInode h₂.pointed c).bind fun _ _ h₃ => .pure (hfailed (h₂.trans h₃) e)
    cases r with
    | error e => exact .pure (hfailed htouched e)
    | ok c' =>
      obtain rfl := hc _ rfl
      have hne : n ≠ c' := fun heq => by
        rw [heq, hfree] at hused
        cases hused
      refine (writeInode c' Inode.fits_clear).bind fun r μ₂ hr => ?_
      have h₂ : Roster.Touched E {c'} μ μ₂ := by
        rcases hr with rfl | ⟨-, rfl⟩
        · exact htouched.trans ⟨hμ.setIno fun h0 => absurd rfl h0, Roster.kept_setIno (.inl rfl)⟩
        · exact htouched
      cases r with
      | error e => exact hundo _ h₂
      | ok =>
        obtain rfl := hr.resolve_right fun hnot => hnot.1 rfl
        have hload : Loaded E ((μ.setI c' true).setIno c' .clear) n parent :=
          { h with mode := h.mode.trans (h₂.kept n hne).2.symm }
        refine (directoryAppendLocked h₂.pointed hload).bind fun r μ₃ h₃ => ?_
        cases r with
        | error e => exact hundo _ (h₂.trans h₃.touched)
        | ok =>
          refine .pure ⟨⟨{c'}, fun m hm => hm ▸ hfree, h₂.trans h₃.touched⟩, fun status hstatus => ?_⟩
          cases hstatus
          obtain ⟨himap, hmode⟩ := h₃.kept c' (Set.notMem_empty c')
          refine ⟨himap.trans (Function.update_self ..), hmode.trans (congrArg Inode.mode ?_)⟩
          exact Function.update_self c' Inode.clear (μ.setI c' true).ino
  · exact .pure (.error hμ e)

/-- `mkdir_locked` once the name is known to be free. -/
theorem mkdirNamed (h : Loaded E μ n parent)
    (hused : μ.imap n = true) : Acts E μ (MiniOrange.mkdirNamed n parent name) fun _ μ' => Fresh E μ μ' := by
  unfold MiniOrange.mkdirNamed
  refine allocateInode.bind fun r μ₁ hr => ?_
  rcases hr with ⟨c, -, hfree, rfl, hc⟩ | ⟨⟨e, rfl⟩, rfl⟩
  · have htouched : Roster.Touched E {c} μ (μ.setI c true) := ⟨hμ, Roster.kept_setI _ _ rfl⟩
    have hfresh : ∀ {μ₂}, Roster.Touched E {c} μ μ₂ → Fresh E μ μ₂ := fun h₂ => ⟨{c}, fun m hm => hm ▸ hfree, h₂⟩
    have hundo : ∀ {μ₂} (block : Nat) (e : Errno), Roster.Touched E {c} μ μ₂ → Acts E μ₂ (do
        rollbackDirectory c block
        return (.error e : Except Errno Unit)) fun _ μ' => Fresh E μ μ' := by
      intro μ₂ block e h₂
      unfold rollbackDirectory
      refine .bind (.after (.freeBlock block) fun _ _ => rollbackCreatedInode h₂.pointed c) fun _ _ h₃ => ?_
      exact .pure (hfresh (h₂.trans h₃))
    cases r with
    | error e => exact .pure (hfresh htouched)
    | ok c' =>
      obtain rfl := hc _ rfl
      have hne : n ≠ c' := fun heq => by
        rw [heq, hfree] at hused
        cases hused
      refine .after .allocateBlock fun r hr => ?_
      cases r with
      | error e =>
        exact (releases htouched.pointed c').2.bind fun _ _ h₂ => .pure (hfresh (htouched.trans h₂))
      | ok dataBlock =>
        have hvalid := hr _ rfl
        have hlt : dataBlock < 2 ^ 32 := (dataBlockValid_iff.1 hvalid).2.trans E.geometry.totalBlocks_lt
        refine .after (.setBuffer _ _) fun _ _ => .after (.writeData _ hvalid) fun r _ => ?_
        cases r with
        | error e => exact hundo _ _ htouched
        | ok =>
          refine (writeInode c' (fits_newDirectoryInode hlt)).bind fun r μ₂ hr => ?_
          have h₂ : Roster.Touched E {c'} μ μ₂ := by
            rcases hr with rfl | ⟨-, rfl⟩
            · exact htouched.trans ⟨hμ.setIno fun h0 => absurd rfl h0, Roster.kept_setIno (.inl rfl)⟩
            · exact htouched
          cases r with
          | error e => exact hundo _ _ h₂
          | ok =>
            have hload : Loaded E μ₂ n parent := { h with mode := h.mode.trans (h₂.kept n hne).2.symm }
            refine (directoryAppendLocked h₂.pointed hload).bind fun r μ₃ h₃ => ?_
            cases r with
            | error e => exact hundo _ _ (h₂.trans h₃.touched)
            | ok => exact .pure (hfresh (h₂.trans h₃.touched))
  · exact .pure ⟨∅, nofun, .refl hμ⟩

/-- `create_locked`. -/
theorem createLocked (path : List UInt8) : Acts E μ (MiniOrange.createLocked path) (Created E μ) := by
  refine bindParent hμ (fun e => .pure (.error hμ e)) fun d directory name hload hused => ?_
  refine .after (directoryFind_spares _ _) fun r _ => ?_
  split
  · exact .pure (.error hμ _)
  · exact createNamed hμ hload hused
  · exact .pure (.error hμ _)

/-- `mkdir_locked`. -/
theorem mkdirLocked (path : List UInt8) :
    Acts E μ (MiniOrange.mkdirLocked path) fun _ μ' => Fresh E μ μ' := by
  have hrefl : Fresh E μ μ := ⟨∅, nofun, .refl hμ⟩
  refine bindParent hμ (fun e => .pure hrefl) fun d directory name hload hused => ?_
  refine .after (directoryFind_spares _ _) fun r _ => ?_
  split
  · exact .pure hrefl
  · exact mkdirNamed hμ hload hused
  · exact .pure hrefl

/-! ## Truncation -/

theorem truncateShrink {newSize : Nat} (h : Loaded E μ n inode) (hok : inode.Ok) (hsize : newSize ≤ inode.size) :
    Acts E μ (MiniOrange.truncateShrink n inode newSize) fun _ μ' => Roster.Steady E μ μ' := by
  have hvalid : blocksOf newSize > 10 → dataBlockValid E.sb inode.indirect = true := by
    intro hlarge
    refine h.pointed (hok.indirect.2 ?_)
    have hlast := lt_blocksOf.1 hlarge
    exact lt_blocksOf.2 (by omega)
  have h' : Loaded E μ n (truncatedInode inode newSize (blocksOf inode.size) (blocksOf newSize)) := by
    refine ⟨{ h.fits with size := ?_, direct := fun k => ?_, indirect := ?_ }, fun hne => ?_, h.mode⟩
    · exact Nat.lt_of_le_of_lt hsize h.fits.size
    · unfold truncatedInode
      dsimp only
      split
      · exact Nat.two_pow_pos 32
      · exact h.fits.direct k
    · unfold truncatedInode
      dsimp only
      split
      · exact h.fits.indirect
      · exact Nat.two_pow_pos 32
    · unfold truncatedInode at hne ⊢
      dsimp only at hne ⊢
      split at hne
      · next hlarge =>
        rw [if_pos hlarge]
        exact hvalid hlarge
      · exact absurd rfl hne
  have hload : Spares E (loadIndirect inode) fun _ => True := by
    refine .bindResult (.readBlock _ _) (fun _ => .pure trivial) fun _ _ => ?_
    exact .getBuffer fun _ => .bind (.setBuffer _ _) fun _ _ => .pure trivial
  have hclear : blocksOf newSize > 10 → Spares E (clearIndirect inode (blocksOf inode.size) (blocksOf newSize)) fun _ => True := by
    intro hlarge
    unfold clearIndirect
    exact .getBuffer fun _ => .bind (.setBuffer _ _) fun _ _ => .writeData _ (hvalid hlarge)
  refine .afterResult (.onlyIf fun _ => hload) (fun _ => .pure (.refl hμ)) fun _ _ => ?_
  refine .afterResult (.onlyIf hclear) (fun _ => .pure (.refl hμ)) fun _ _ => ?_
  refine (commit hμ h').bindResult (fun _ μ₁ hsteady => ?_) fun _ μ₁ hsteady => ?_
  · exact .after (.onlyIf fun hlarge => .writeData _ (hvalid hlarge)) fun _ _ => .pure hsteady
  · exact (truncateFree _ _ _ _).mono fun _ _ hsame => hsame.1 ▸ hsteady

/-- `truncate_locked`. -/
theorem truncateLocked (n newSize : Nat) :
    Acts E μ (MiniOrange.truncateLocked n newSize) fun _ μ' => Roster.Steady E μ μ' := by
  refine bindInode hμ (fun _ => .pure (.refl hμ)) fun inode hload hok => .ite (fun _ => .pure (.refl hμ)) fun _ => ?_
  refine .ite (fun _ => .pure (.refl hμ)) fun hle => .ite (fun _ => .pure (.refl hμ)) fun _ => ?_
  exact truncateShrink hμ hload hok (Nat.not_lt.1 hle)

/-! ## Removal -/

/-- `release_inode_locked`. -/
theorem releaseInodeLocked (n : Nat) (inode : Inode) :
    Acts E μ (MiniOrange.releaseInodeLocked n inode) fun _ μ' => Roster.Touched E {n} μ μ' := by
  have hrefl : Roster.Touched E {n} μ μ := .refl hμ
  refine .afterResult (.onlyIf fun _ => .readBlock _ _) (fun _ => .pure hrefl) fun _ _ => ?_
  refine .afterResult (.freeBlocksFrom _ _ _) (fun _ => .pure hrefl) fun _ _ => ?_
  refine .afterResult (.freeBlocksFrom _ _ _) (fun _ => .pure hrefl) fun _ _ => ?_
  refine .afterResult (.onlyIf fun _ => .freeBlock _) (fun _ => .pure hrefl) fun _ _ => ?_
  refine (releases hμ n).1.bindResult (fun _ _ h₁ => .pure h₁) fun _ _ h₁ => ?_
  exact (releases h₁.pointed n).2.bindResult (fun _ _ h₂ => .pure (h₁.trans h₂)) fun _ _ h₂ => .pure (h₁.trans h₂)

/-- `unlink_locked` once the entry is found. -/
theorem unlinkFound (h : Loaded E μ d parent) :
    Acts E μ (MiniOrange.unlinkFound d parent record inode) fun _ μ' => Roster.Touched E {record.inode} μ μ' := by
  refine .afterResult (.inodeBlockAt _ _) (fun _ => .pure (.refl hμ)) fun diskBlock hr => ?_
  have hvalid := hr _ rfl
  refine .afterResult (.readBlock _ _) (fun _ => .pure (.refl hμ)) fun _ _ => .getBuffer fun block => .getBuffer fun kept => ?_
  refine .after (.setBuffer _ _) fun _ _ => .after (.setBuffer _ _) fun _ _ => ?_
  refine .afterResult (.writeData _ hvalid) (fun _ => .pure (.refl hμ)) fun _ _ => ?_
  refine .ite (fun _ => ?_) fun _ => releaseInodeLocked hμ _ _
  -- a directory: its parent loses a link
  have hless : Loaded E μ d { parent with linkCount := parent.linkCount - 1 } :=
    ⟨{ h.fits with linkCount := Nat.lt_of_le_of_lt (Nat.sub_le _ _) h.fits.linkCount }, h.pointed, h.mode⟩
  refine (commit hμ hless).bindResult (fun _ μ₁ h₁ => ?_) fun _ μ₁ h₁ => ?_
  · refine .afterResult (.readBlock _ _) (fun _ => .pure h₁.touched) fun _ _ => .getBuffer fun _ => .getBuffer fun _ => ?_
    exact .after (.setBuffer _ _) fun _ _ => .after (.writeData _ hvalid) fun _ _ => .pure h₁.touched
  · exact (releaseInodeLocked h₁.pointed _ _).mono fun _ _ h₂ => h₁.touched.trans h₂

end Acts

/-- `resolve_parent_locked` and `directory_find` lead to the inode that `lookup_locked` finds. -/
theorem Vol.resolve_agrees
    (hresolve : v.resolveParent sb path = .ok (d, parent, name)) (hfind : v.find sb parent name = .ok record)
    (hlookup : v.lookup sb path = .ok status) : record.inode = status.inode := by
  obtain ⟨init, hparse, -, -, -, -, hproper⟩ := Vol.resolveParent_eq_ok hresolve
  have hmap : (v.find sb parent name).map DirectoryRecord.inode = .ok record.inode := by
    rw [hfind]
    rfl
  obtain ⟨other, hother, hinode⟩ :=
    ((Vol.lookup_iff_resolveParent hparse hproper).1 record.inode).2 ⟨d, parent, name, hresolve, hmap⟩
  rw [hlookup] at hother
  cases hother
  exact hinode.symm

/-- `unlink_locked` touches the inode that is found at the path. -/
theorem On.unlinkLocked_any (h : On E .any v aux cmp s) (hsafe : ∀ v, E.safe v)
    (hpointed : v.roster.Pointed E.sb) (hlookup : v.lookup E.sb path = .ok status) :
    wp (MiniOrange.unlinkLocked path) (fun _ s' => ∃ μ', Held E μ' s' ∧ Roster.Touched E {status.inode} v.roster μ') s := by
  have hheld : ∀ {s'}, On E .any v aux cmp s' →
      ∃ μ', Held E μ' s' ∧ Roster.Touched E {status.inode} v.roster μ' := fun h' =>
    ⟨_, ⟨hsafe, v, aux, cmp, h', rfl⟩, .refl hpointed⟩
  unfold MiniOrange.unlinkLocked
  refine h.bind_any (Reads.resolveParent path) (fun _ _ => hheld) ?_
  rintro ⟨d, parent, name⟩ s₁ hresolve h₁
  obtain ⟨-, -, -, hread, -⟩ := Vol.resolveParent_eq_ok hresolve
  obtain ⟨hlt, -, hok, rfl⟩ := Vol.readInode_eq_ok.1 hread
  have hload : Loaded E v.roster d (v.ino d) := ⟨h.fits hok.reserved, hpointed d hlt, rfl⟩
  refine h₁.bind_any (Reads.find _ name) (fun _ _ => hheld) fun record s₂ hfind h₂ => ?_
  dsimp only
  rw [wp_bind, wp_get]
  split
  · exact hheld h₂
  · refine h₂.bind_any (Reads.readInode record.inode) (fun _ _ => hheld) fun inode s₃ _ h₃ => ?_
    have hfound : ∀ {s'}, On E .any v aux cmp s' → wp (MiniOrange.unlinkFound d (v.ino d) record inode)
        (fun _ s' => ∃ μ', Held E μ' s' ∧ Roster.Touched E {status.inode} v.roster μ') s' := fun h' => by
      rw [← Vol.resolve_agrees hresolve hfind hlookup]
      exact Acts.unlinkFound hpointed hload _ ⟨hsafe, v, aux, cmp, h', rfl⟩
    dsimp only
    split
    · refine h₃.bind_any (Reads.empty inode) (fun _ _ => hheld) fun _ s₄ _ h₄ => ?_
      dsimp only
      split
      · exact hheld h₄
      · exact hfound h₄
    · exact hfound h₃

/-! ## The public operations -/

theorem Held.setFlags (h : Held E μ s) (busy interrupts : Bool) :
    Held E μ { s with operationBusy := busy, interrupts := interrupts } := by
  obtain ⟨hsafe, v, aux, cmp, hon, hμ⟩ := h
  exact ⟨hsafe, v, aux, cmp, hon.setFlags busy interrupts, hμ⟩

namespace Acts

theorem locked {Q : Except Errno α → Roster → Prop}
    (hrefuse : ∀ e, Q (.error e) μ) (hbody : Acts E μ body Q) : Acts E μ (MiniOrange.locked unmounted body) Q := by
  intro s hs
  refine locked_rule (fun e => ⟨μ, hs, hrefuse e⟩) fun _ => ?_
  exact (hbody _ (hs.setFlags true false)).mono fun r s' ⟨μ', hs', hQ⟩ => ⟨μ', hs'.setFlags false s.interrupts, hQ⟩

variable (hμ : μ.Pointed E.sb)
include hμ

theorem minifsWrite (n offset : Nat) (source : List UInt8) :
    Acts E μ (MiniOrange.minifsWrite n offset source) fun _ μ' => Roster.Steady E μ μ' := by
  have hrefl := Roster.Steady.refl hμ
  unfold MiniOrange.minifsWrite
  refine .get fun s _ => .ite (fun _ => .pure hrefl) fun hargs => ?_
  obtain ⟨-, hlength, -, hend⟩ := by simpa only [not_or] using hargs
  refine .locked (fun _ => hrefl) (bindInode hμ (fun _ => .pure hrefl) fun inode hload _ => ?_)
  refine .ite (fun _ => .pure hrefl) fun _ => .ite (fun _ => .pure hrefl) fun _ => ?_
  exact minifsWriteFrom (by omega) _ _ hrefl hload

theorem minifsTruncate (n newSize : Nat) :
    Acts E μ (MiniOrange.minifsTruncate n newSize) fun _ μ' => Roster.Steady E μ μ' := by
  refine .get fun s _ => .ite (fun _ => .pure (.refl hμ)) fun _ => ?_
  exact .locked (fun _ => .refl hμ) (truncateLocked hμ n newSize)

theorem minifsCreate (path : List UInt8) : Acts E μ (MiniOrange.minifsCreate path) (Created E μ) :=
  .locked (.error hμ) (createLocked hμ path)

theorem minifsMkdir (path : List UInt8) :
    Acts E μ (MiniOrange.minifsMkdir path) fun _ μ' => Fresh E μ μ' :=
  .locked (fun _ => ⟨∅, nofun, .refl hμ⟩) (mkdirLocked hμ path)

end Acts

namespace Spares

theorem locked (hbody : Spares E body fun _ => True) :
    Spares E (MiniOrange.locked unmounted body) fun _ => True := fun μ => .locked (fun _ => ⟨rfl, trivial⟩) (hbody μ)

theorem readInode (n : Nat) : Spares E (readInodeInternal n) fun _ => True :=
  .reads (fun _ => Reads.readInode n) (fun _ => trivial) trivial

theorem minifsStatInode (n : Nat) : Spares E (MiniOrange.minifsStatInode n) fun _ => True :=
  .locked (.bind (.readInode n) fun _ _ => .pure trivial)

theorem minifsRead (n offset length : Nat) : Spares E (MiniOrange.minifsRead n offset length) fun _ => True := by
  refine .locked (.bindResult (.readInode n) (fun _ => .pure trivial) fun inode _ => ?_)
  refine .ite (fun _ => .pure trivial) fun _ => .ite (fun _ => .pure trivial) fun _ => ?_
  exact .reads (fun _ => Reads.readFrom _ _) (fun _ => trivial) trivial

theorem minifsReaddir (n offset : Nat) : Spares E (MiniOrange.minifsReaddir n offset) fun _ => True := by
  refine .get fun s _ => .ite (fun _ => .pure trivial) fun _ => .locked ?_
  refine .bindResult (.readInode n) (fun _ => .pure trivial) fun inode _ => .ite (fun _ => .pure trivial) fun _ => ?_
  exact .reads (fun _ => Reads.readdirFrom _ _) (fun _ => trivial) trivial

end Spares

/-- `minifs_lookup` leaves the volume, and what it finds is there. -/
theorem On.minifsLookup_any (h : On E .any v aux cmp s) (path : List UInt8) :
    wp (MiniOrange.minifsLookup path) (fun r s' => On E .any v aux cmp s' ∧
      ∀ status, r = .ok status → v.lookup E.sb path = .ok status) s := by
  refine locked_rule (fun _ => ⟨h, nofun⟩) fun _ => ?_
  refine (Reads.lookup (P := fun _ => True) path (h.setFlags true false) trivial).mono ?_
  rintro r s' (⟨rfl, h', -⟩ | ⟨rfl, -, h'⟩)
  · exact ⟨h'.setFlags false s.interrupts, fun _ => id⟩
  · exact ⟨h'.setFlags false s.interrupts, nofun⟩

/-- What `minifs_lookup` finds is in use, with the mode it returns. -/
theorem Vol.lookup_used (h : v.lookup sb path = .ok status) :
    v.imap status.inode = true ∧ (v.ino status.inode).mode = status.mode := by
  rw [Vol.lookup_eq] at h
  split at h
  · cases h
  · split at h
    · cases h
    · next current _ =>
      cases hread : v.readInode sb current with
      | error e =>
        rw [hread] at h
        cases h
      | ok inode =>
        rw [hread] at h
        dsimp only at h
        obtain ⟨-, himap, -, rfl⟩ := Vol.readInode_eq_ok.1 hread
        split at h
        · cases h
        · cases h
          exact ⟨himap, rfl⟩

/-- `minifs_unlink` touches the inode that `minifs_lookup` finds at the path. -/
theorem On.minifsUnlink_any (h : On E .any v aux cmp s) (hsafe : ∀ v, E.safe v)
    (hpointed : v.roster.Pointed E.sb) (hlookup : v.lookup E.sb path = .ok status) :
    wp (MiniOrange.minifsUnlink path)
      (fun _ s' => ∃ μ', Held E μ' s' ∧ Roster.Touched E {status.inode} v.roster μ') s := by
  refine locked_rule (fun _ => ⟨_, ⟨hsafe, v, aux, cmp, h, rfl⟩, .refl hpointed⟩) fun _ => ?_
  refine ((h.setFlags true false).unlinkLocked_any hsafe hpointed hlookup).mono ?_
  exact fun _ s' ⟨μ', h', htouched⟩ => ⟨μ', h'.setFlags false s.interrupts, htouched⟩

end MiniOrange

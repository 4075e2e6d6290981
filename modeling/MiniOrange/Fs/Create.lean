import MiniOrange.Fs.Append
import MiniOrange.Fs.Path

/-!
# `create_locked` and `mkdir_locked`

Both take a free inode, prepare it, and only then enter it in the parent directory. Until that write
every volume differs from the first one at most in the new inode and in blocks that were free
(`Vol.Beside`); so does every volume of a rollback, and whatever a failed rollback leaves. What the
two operations can do to a volume is `Vol.MakeEffect`.
-/

namespace MiniOrange

namespace Vol

variable {v v' v'' : Vol} {sb : Superblock} {L F G : Finset Nat} {c d n b : Nat}

/-! ## Beside the files -/

/-- `v'` differs from `v` in inode `c`, which is free in `v`, in the blocks of `F`, which it has
taken, and otherwise at most in bytes that belong to no file of `L`. -/
structure Beside (v v' : Vol) (sb : Superblock) (L : Finset Nat) (c : Nat) (F : Finset Nat) :
    Prop where
  imap : ∀ n, n ≠ c → v'.imap n = v.imap n
  ino : ∀ n, n ≠ c → v'.ino n = v.ino n
  bmap : ∀ b, v'.bmap b = true ↔ v.bmap b = true ∨ b ∈ F
  free : ∀ b ∈ F, v.bmap b = false
  valid : ∀ b ∈ F, sb.dataStart ≤ b ∧ b < sb.totalBlocks
  kept : ∀ n ∈ L, Kept v v' n
  ends : ∀ n ∈ L, v.PointersEnd n → v'.PointersEnd n

namespace Beside

theorem refl (v : Vol) (sb : Superblock) (L : Finset Nat) (c : Nat) : Beside v v sb L c ∅ where
  imap _ _ := rfl
  ino _ _ := rfl
  bmap b := by simp
  free b hb := absurd hb (Finset.notMem_empty b)
  valid b hb := absurd hb (Finset.notMem_empty b)
  kept n _ := .refl v n
  ends _ _ h := h

section
variable (h : Beside v v' sb L c F)
include h

/-- The files of `L` still own their blocks. -/
theorem owns (hown : v.Owns sb L) : v'.Owns sb L :=
  hown.congr fun n hn => (h.kept n hn).toSameFile

/-- No file of `L` has a block of `F`. -/
theorem slot_notMem (hown : v.Owns sb L) (hn : n ∈ L) {t : Slot}
    (ht : (v'.ino n).Needs t) : v'.slotBlock n t ∉ F := by
  intro hF
  rw [(h.kept n hn).ino] at ht
  rw [(h.kept n hn).slot t ht] at hF
  have hfree := h.free _ hF
  rw [hown.slot_marked hn ht] at hfree
  cases hfree

/-- The mark of the new inode. -/
theorem setI (hc : c ∉ L) {value : Bool} :
    Beside v (v'.setI c value) sb L c F where
  imap n hn := (setI_of_ne hn).trans (h.imap n hn)
  ino := h.ino
  bmap := h.bmap
  free := h.free
  valid := h.valid
  kept n hn := (h.kept n hn).trans (.setI fun heq => hc (heq ▸ hn))
  ends := h.ends

/-- The record of the new inode. -/
theorem setIno (hc : c ∉ L) {inode : Inode} :
    Beside v (v'.setIno c inode) sb L c F where
  imap := h.imap
  ino n hn := (setIno_of_ne hn).trans (h.ino n hn)
  bmap := h.bmap
  free := h.free
  valid := h.valid
  kept n hn := (h.kept n hn).trans (.setIno fun heq => hc (heq ▸ hn))
  ends n hn hend := by
    have hne : n ≠ c := fun heq => hc (heq ▸ hn)
    exact (h.ends n hn hend).congr (setIno_of_ne hne) fun _ => rfl

variable (hown : v.Owns sb L)
include hown

/-- A block more. -/
theorem setB
    (hb : sb.dataStart ≤ b ∧ b < sb.totalBlocks) (hfree : v'.bmap b = false) :
    Beside v (v'.setB b true) sb L c (insert b F) where
  imap := h.imap
  ino := h.ino
  bmap a := by
    by_cases hab : a = b
    · simp [hab]
    · rw [setB_of_ne hab, h.bmap a, Finset.mem_insert]
      simp [hab]
  free a ha := by
    rcases Finset.mem_insert.1 ha with rfl | ha
    · rw [← Bool.not_eq_true] at hfree ⊢
      exact fun hmarked => hfree ((h.bmap a).2 (.inl hmarked))
    · exact h.free a ha
  valid a ha := by
    rcases Finset.mem_insert.1 ha with rfl | ha
    · exact hb
    · exact h.valid a ha
  kept n hn := by
    refine (h.kept n hn).trans (.setB fun t ht heq => ?_)
    have hmarked := (h.owns hown).slot_marked hn ht
    rw [heq, hfree] at hmarked
    cases hmarked
  ends := h.ends

/-- A block is given back. -/
theorem giveBack (hb : b ∈ F) :
    Beside v (v'.setB b false) sb L c (F.erase b) where
  imap := h.imap
  ino := h.ino
  bmap a := by
    by_cases hab : a = b
    · have hfree := h.free b hb
      simp [hab, hfree]
    · rw [setB_of_ne hab, h.bmap a, Finset.mem_erase]
      simp [hab]
  free a ha := h.free a (Finset.mem_of_mem_erase ha)
  valid a ha := h.valid a (Finset.mem_of_mem_erase ha)
  kept n hn := (h.kept n hn).trans (.setB fun _ ht heq => h.slot_notMem hown hn ht (heq ▸ hb))
  ends := h.ends

/-- Data in a taken block. -/
theorem setData (hb : b ∈ F) {block : Block} :
    Beside v (v'.setData b block) sb L c F where
  imap := h.imap
  ino := h.ino
  bmap := h.bmap
  free := h.free
  valid := h.valid
  kept n hn := (h.kept n hn).trans (.setData fun _ ht heq => h.slot_notMem hown hn ht (heq ▸ hb))
  ends n hn hend := by
    refine (h.ends n hn hend).congr rfl fun hneeds => setData_of_ne fun heq => ?_
    have hnot : (v'.ino n).indirect ∉ F := h.slot_notMem hown hn (t := .indirect) hneeds
    exact hnot (heq ▸ hb)

/-- More blocks taken elsewhere. -/
theorem taken (h' : Vol.Taken v' v'' sb G) :
    Beside v v'' sb L c (F ∪ G) where
  imap n hn := (congrFun h'.imap n).trans (h.imap n hn)
  ino n hn := (congrFun h'.ino n).trans (h.ino n hn)
  bmap b := by
    rw [Finset.mem_union, ← or_assoc, ← h.bmap b]
    by_cases hb : b ∈ G
    · simp [hb, h'.taken b hb]
    · simp [hb, h'.bmap b hb]
  free b hb := by
    rcases Finset.mem_union.1 hb with hb | hb
    · exact h.free b hb
    · have hfree := h'.free b hb
      rw [← Bool.not_eq_true] at hfree ⊢
      exact fun hmarked => hfree ((h.bmap b).2 (.inl hmarked))
  valid b hb := (Finset.mem_union.1 hb).elim (h.valid b) (h'.valid b)
  kept n hn := (h.kept n hn).trans (h'.kept fun _ ht => (h.owns hown).slot_marked hn ht)
  ends n hn hend := by
    refine (h.ends n hn hend).congr (congrFun h'.ino n) fun hneeds => h'.data _ ?_
    exact (h.owns hown).slot_marked hn (t := .indirect) hneeds

/-- Changes in free blocks. -/
theorem loose (h' : Loose v' v'') :
    Beside v v'' sb L c F := by
  have htaken : Vol.Taken v' v'' sb ∅ :=
    ⟨h'.imap, h'.ino, fun b hb => absurd hb (Finset.notMem_empty b),
      fun b hb => absurd hb (Finset.notMem_empty b), fun b hb => absurd hb (Finset.notMem_empty b),
      fun b _ => congrFun h'.bmap b, h'.data⟩
  simpa using h.taken hown htaken

/-- An undone write to a file of `L`. -/
theorem settled (hd : d ∈ L)
    (hset : Settled v' v'' sb d) (hsame : SameBytes v' v'' d) : Beside v v'' sb L c F := by
  have hown' := h.owns hown
  have hbmap : ∀ b, v''.bmap b = true ↔ v'.bmap b = true := by
    refine fun b => ⟨fun hb => ?_, hset.mark b⟩
    rcases hset.tight b hb with hold | ⟨t, ht, heq⟩
    · exact hold
    · rw [hsame.1] at ht
      rw [← heq, hset.slot t ht]
      exact hown'.slot_marked hd ht
  refine
    { imap := fun n hn => (congrFun hset.imap n).trans (h.imap n hn)
      ino := fun n hn => ?_
      bmap := fun b => (hbmap b).trans (h.bmap b)
      free := h.free
      valid := h.valid
      kept := fun n hn => (h.kept n hn).trans ?_
      ends := fun n hn hend => ?_ }
  · by_cases hnd : n = d
    · rw [hnd, hsame.1, h.ino d (hnd ▸ hn)]
    · rw [hset.other n hnd, h.ino n hn]
  · by_cases hnd : n = d
    · rw [hnd]
      exact hset.toGrown.kept_self hown' hd hsame
    · exact hset.toGrown.kept hown' hd hn hnd
  · by_cases hnd : n = d
    · rw [hnd]
      exact hset.pointer_zero
    · exact hset.toGrown.pointersEnd hown' hd hn hnd (h.ends n hn hend)

end

/-- With the inode and the blocks given back nothing has changed. -/
theorem same (h : Beside v v' sb L c ∅) (himap : v'.imap c = v.imap c) (hino : v'.ino c = v.ino c) :
    Same v v' L where
  bmap := by
    funext b
    rw [Bool.eq_iff_iff, h.bmap b]
    simp
  imap := by
    funext n
    by_cases hn : n = c
    · rw [hn, himap]
    · exact h.imap n hn
  ino := by
    funext n
    by_cases hn : n = c
    · rw [hn, hino]
    · exact h.ino n hn
  kept := h.kept
  ends := h.ends

end Beside

/-! ## The new inode -/

/-- The volume with inode `c` taken for an empty file. -/
def newFile (v : Vol) (c : Nat) : Vol := (v.setI c true).setIno c .clear

/-- The volume with inode `c` and block `b` taken for a directory below `d`. -/
def newDirectory (v : Vol) (c d b : Nat) : Vol :=
  (((v.setI c true).take b).setData b (newDirectoryBlock c d)).setIno c (newDirectoryInode b)

/-- The volume just before the entry is written: the inode of the type is ready, and `F` are its
blocks. -/
inductive Prepared (v : Vol) (sb : Superblock) (d c : Nat) : Nat → Finset Nat → Vol → Prop
  | file : Prepared v sb d c 1 ∅ (v.newFile c)
  | directory (b : Nat) : sb.dataStart ≤ b → b < sb.totalBlocks → v.bmap b = false →
      Prepared v sb d c 2 {b} (v.newDirectory c d b)

variable {type : Nat}

/-- The type of a new inode. -/
theorem Prepared.type_eq (h : v.Prepared sb d c type F v') : type = 1 ∨ type = 2 := by
  cases h with
  | file => exact .inl rfl
  | directory => exact .inr rfl

/-- The prepared volume differs in the new inode and its blocks. -/
theorem Prepared.beside (h : v.Prepared sb d c type F v') (hown : v.Owns sb L) (hc : c ∉ L) :
    Beside v v' sb L c F := by
  have hstart : Beside v (v.setI c true) sb L c ∅ := (Beside.refl v sb L c).setI hc
  cases h with
  | file => exact hstart.setIno hc
  | directory b hb hb' hfree =>
    have hblock : Beside v ((v.setI c true).setB b true) sb L c {b} := hstart.setB hown ⟨hb, hb'⟩ hfree
    exact ((hblock.setData hown (Finset.mem_singleton_self b)).setData hown
      (Finset.mem_singleton_self b)).setIno hc

/-- What `create_locked` and `mkdir_locked` can do to a volume, once the parent `d` and the name are
known. -/
inductive MakeEffect {α : Type} (sb : Superblock) (ℓ : Level) (v : Vol) (d : Nat)
    (name : List UInt8) (type : Nat) (value : Nat → α) : Except Errno α → Level → Vol → Prop
  /-- The new inode is entered in the parent. -/
  | made (c j F v₁ w) : c < sb.totalInodes → v.imap c = false → v.Prepared sb d c type F v₁ →
      v₁.Entered w sb d j (Entry.of c type name) (linksWith type (v.ino d).linkCount) →
      MakeEffect sb ℓ v d name type value (.ok (value c)) ℓ w
  /-- It fails, and nothing is left of it. -/
  | undone (e ℓ' v') : Same v v' (v.alloc sb) →
      MakeEffect sb ℓ v d name type value (.error e) ℓ' v'
  /-- A transfer fails in the undo of a call that found no space. -/
  | leaked (e c F v') : ℓ = .single → e = .einval ∨ e = .enospc → v.imap c = false →
      Beside v v' sb (v.alloc sb) c F → MakeEffect sb ℓ v d name type value (.error e) .quiet v'

/-- The directory can take the name. -/
structure Vacant (v : Vol) (sb : Superblock) (d : Nat) (name : List UInt8) : Prop where
  dir : v.IsDir (v.alloc sb) d
  label : Entry.GoodLabel name
  proper : Proper name
  absent : v.find sb (v.ino d) name = .error .enoent

/-- What `minifs_create` and `minifs_mkdir` can do to a volume. -/
inductive CreateEffect {α : Type} (sb : Superblock) (ℓ : Level) (v : Vol) (path : List UInt8)
    (type : Nat) (value : Nat → α) : Except Errno α → Level → Vol → Prop
  /-- It refuses before the first write. -/
  | refused (e ℓ') : CreateEffect sb ℓ v path type value (.error e) ℓ' v
  /-- The parent is a directory without the name. -/
  | named (d name r ℓ' v') : v.resolveParent sb path = .ok (d, v.ino d, name) →
      v.Vacant sb d name →
      MakeEffect sb ℓ v d name type value r ℓ' v' → CreateEffect sb ℓ v path type value r ℓ' v'

end Vol

/-! ## The programs -/

variable {E : Env} {ℓ : Level} {v v₁ w : Vol} {aux cmp : Block} {s : Machine} {F G : Finset Nat}
  {c d type : Nat} {name : List UInt8} {α : Type}

/-- What the two operations need of the volume they start on. -/
structure Vol.Sound (v : Vol) (sb : Superblock) : Prop where
  owns : v.Owns sb (v.alloc sb)
  ends : ∀ n ∈ v.alloc sb, v.PointersEnd n
  free_zero : ∀ n < sb.totalInodes, v.imap n = false → v.ino n = .zero
  root : v.imap sb.rootInode = true

/-- A consistent volume is sound. -/
theorem Vol.Consistent.sound {sb : Superblock} (h : v.Consistent sb) : v.Sound sb := by
  obtain ⟨parent, depth, htree⟩ := h.tree
  exact ⟨h.owns, h.pointer_zero, h.free_zero, (Vol.mem_alloc.1 htree.root.1).2⟩

/-- The end of a rollback: the inode is free and zero and the blocks of `G` are what is left; or the
one fault has hit the rollback itself. -/
def RolledBack (E : Env) (ℓ : Level) (v : Vol) (c : Nat) (G : Finset Nat) (cmp : Block)
    (s : Machine) : Prop :=
  (∃ w aux, Vol.Beside v w E.sb (v.alloc E.sb) c G ∧ w.imap c = false ∧ w.ino c = .zero ∧
    On E ℓ w aux cmp s) ∨
  (ℓ = .single ∧ ∃ w aux G', Vol.Beside v w E.sb (v.alloc E.sb) c G' ∧ On E .quiet w aux cmp s)

/-- A free inode is not among the allocated ones. -/
theorem Vol.notMem_alloc {sb : Superblock} (h : v.imap c = false) : c ∉ v.alloc sb := by
  intro hc
  rw [(Vol.mem_alloc.1 hc).2] at h
  cases h

section
variable (hsound : v.Sound E.sb) (hlt : c < E.sb.totalInodes) (hfree : v.imap c = false)
  (hsafe : ∀ v' F, Vol.Beside v v' E.sb (v.alloc E.sb) c F → E.safe v')
include hsound hlt hfree hsafe

/-- `rollback_created_inode`. -/
theorem On.rollbackCreatedInode (h : On E ℓ w aux cmp s) (hℓ : ℓ ≠ .any)
    (hbeside : Vol.Beside v w E.sb (v.alloc E.sb) c G) :
    wp (MiniOrange.rollbackCreatedInode c) (fun _ s' => RolledBack E ℓ v c G cmp s') s := by
  have hc : c ∉ v.alloc E.sb := Vol.notMem_alloc hfree
  have hroot : c ≠ E.sb.rootInode := by
    rintro rfl
    rw [hsound.root] at hfree
    cases hfree
  unfold MiniOrange.rollbackCreatedInode
  refine wp.bind (h.clearInodeRecord hℓ hroot hlt (hsafe _ _ (hbeside.setIno hc))) ?_
  rintro r s₁ (⟨-, h₁⟩ | ⟨-, rfl, h₁⟩)
  · have hzero : Vol.Beside v (w.setIno c .zero) E.sb (v.alloc E.sb) c G := hbeside.setIno hc
    refine wp.bind (h₁.freeInode hℓ hroot hlt (hsafe _ _ (hzero.setI hc))) ?_
    rintro r s₂ (⟨-, h₂⟩ | ⟨-, rfl, h₂⟩)
    · refine .inl ⟨_, aux, hzero.setI hc, ?_, ?_, h₂⟩
      · exact Vol.setI_self ..
      · exact Vol.setIno_self ..
    · exact .inr ⟨rfl, _, aux, G, hzero, h₂⟩
  · refine wp.bind (h₁.freeInode nofun hroot hlt (hsafe _ _ (hbeside.setI hc))) ?_
    rintro r s₂ (⟨-, h₂⟩ | ⟨-, hs, -⟩)
    · exact .inr ⟨rfl, _, aux, G, hbeside.setI hc, h₂⟩
    · cases hs

/-- The rollback of `mkdir_locked`. -/
theorem On.rollbackDirectory {b : Nat} (h : On E ℓ w aux cmp s) (hℓ : ℓ ≠ .any)
    (hbeside : Vol.Beside v w E.sb (v.alloc E.sb) c G) (hb : b ∈ G) :
    wp (MiniOrange.rollbackDirectory c b) (fun _ s' => RolledBack E ℓ v c (G.erase b) cmp s') s := by
  obtain ⟨hb₁, hb₂⟩ := hbeside.valid b hb
  have hback := hbeside.giveBack hsound.owns hb
  unfold MiniOrange.rollbackDirectory
  refine wp.bind (h.freeBlock hℓ hb₁ hb₂ (hsafe _ _ hback)) ?_
  rintro r s₁ (⟨-, h₁⟩ | ⟨-, rfl, h₁⟩)
  · exact On.rollbackCreatedInode hsound hlt hfree hsafe h₁ hℓ hback
  · refine (On.rollbackCreatedInode hsound hlt hfree hsafe h₁ nofun hbeside).mono ?_
    rintro _ s₂ (⟨w', aux', hw', -, -, h₂⟩ | ⟨hs, -⟩)
    · exact .inr ⟨rfl, w', aux', G, hw', h₂⟩
    · cases hs

omit hsafe in
/-- The entry of the prepared inode, and the rollback if it cannot be written. -/
theorem On.publish {rollback : Fs Unit} {value : Nat → α} (h : On E ℓ v₁ aux cmp s) (hℓ : ℓ ≠ .any)
    (hd : v.IsDir (v.alloc E.sb) d) (hname : Entry.GoodLabel name)
    (hprep : v.Prepared E.sb d c type F v₁)
    (hroll : ∀ ℓ w aux s G, ℓ ≠ .any → Vol.Beside v w E.sb (v.alloc E.sb) c G → F ⊆ G →
      On E ℓ w aux cmp s → wp rollback (fun _ s' => RolledBack E ℓ v c (G \ F) cmp s') s)
    (hsafe' : ∀ w, Vol.Grown v₁ w E.sb d → v₁.Entering w d (Entry.of c type name)
      (linksWith type (v.ino d).linkCount) → E.safe w) :
    wp (do
      match ← MiniOrange.directoryAppendLocked d (v.ino d) c type name with
      | .error e =>
        rollback
        return .error e
      | .ok () => return .ok (value c))
      (Ends E ℓ (Vol.MakeEffect E.sb ℓ v d name type value)) s := by
  have hc : c ∉ v.alloc E.sb := Vol.notMem_alloc hfree
  have hbeside := hprep.beside hsound.owns hc
  have hino : v₁.ino d = v.ino d := (hbeside.kept d hd.1).ino
  have hd₁ : v₁.IsDir (v.alloc E.sb) d := ⟨hd.1, by rw [hino]; exact hd.2⟩
  have hchild : c < 2 ^ 32 := hlt.trans E.geometry.totalInodes_lt
  rw [← hino] at hsafe' ⊢
  -- a rollback that gives everything back leaves no trace
  have hclean : ∀ {w : Vol}, Vol.Beside v w E.sb (v.alloc E.sb) c ∅ → w.imap c = false →
      w.ino c = .zero → Vol.Same v w (v.alloc E.sb) := fun hw himap hino =>
    hw.same (by rw [himap, hfree]) (by rw [hino, hsound.free_zero c hlt hfree])
  refine wp.bind (h.directoryAppendLocked hℓ (hbeside.owns hsound.owns) hd₁
    (hbeside.ends d hd.1 (hsound.ends d hd.1)) hname hprep.type_eq hchild hsafe') ?_
  rintro r s₁ (⟨w, aux', j, rfl, hentered, h₁⟩ | ⟨e, rfl, he, ⟨w, aux', hloose, h₁⟩ |
    ⟨rfl, w, aux', G, htaken, h₁⟩⟩ | ⟨rfl, rfl, w, aux', hset, hsame, h₁⟩)
  · rw [hino] at hentered
    exact .of_on (.made c j F v₁ w hlt hfree hprep hentered) h₁
  · -- no space, and the fault is still to come
    have hw := hbeside.loose hsound.owns hloose
    refine wp.bind (hroll ℓ w aux' s₁ F hℓ hw (Finset.Subset.refl F) h₁) ?_
    rw [Finset.sdiff_self]
    rintro _ s₂ (⟨w', aux'', hw', himap, hzero, h₂⟩ | ⟨rfl, w', aux'', G, hw', h₂⟩)
    · exact .of_on (.undone e ℓ w' (hclean hw' himap hzero)) h₂
    · exact .of_after (.leaked e c G w' rfl he hfree hw') h₂
  · -- no space, and the fault has hit the undo of the entry
    have hw := hbeside.taken hsound.owns htaken
    refine wp.bind (hroll .quiet w aux' s₁ _ nofun hw Finset.subset_union_left h₁) ?_
    rintro _ s₂ (⟨w', aux'', hw', -, -, h₂⟩ | ⟨hs, -⟩)
    · exact .of_after (.leaked e c _ w' rfl he hfree hw') h₂
    · cases hs
  · -- a failed transfer
    have hw := hbeside.settled hsound.owns hd.1 hset hsame
    refine wp.bind (hroll .quiet w aux' s₁ F nofun hw (Finset.Subset.refl F) h₁) ?_
    rw [Finset.sdiff_self]
    rintro _ s₂ (⟨w', aux'', hw', himap, hzero, h₂⟩ | ⟨hs, -⟩)
    · exact .of_after (.undone .eio _ w' (hclean hw' himap hzero)) h₂
    · cases hs

end

/-- A new file's record is well formed. -/
theorem Inode.ok_clear : Inode.clear.Ok := by
  have hblocks : blocksOf Inode.clear.size = 0 := by decide
  refine ⟨.inl rfl, by decide, by decide, rfl, fun h => absurd h (by decide), fun k => ?_, ?_⟩
  · rw [hblocks]
    exact iff_of_false (fun h => h rfl) (Nat.not_lt_zero _)
  · rw [hblocks]
    exact iff_of_false (fun h => h rfl) (Nat.not_lt_zero _)

/-- A new file's record fits the table. -/
theorem Inode.fits_clear : Inode.clear.Fits :=
  ⟨by decide, by decide, by decide, fun _ => Nat.two_pow_pos 32, by decide, by decide, by decide, rfl⟩

section
variable {b : Nat}

@[simp] theorem newDirectoryInode_mode : (newDirectoryInode b).mode = 2 := rfl
@[simp] theorem newDirectoryInode_linkCount : (newDirectoryInode b).linkCount = 2 := rfl
@[simp] theorem newDirectoryInode_size : (newDirectoryInode b).size = 128 := rfl
@[simp] theorem newDirectoryInode_indirect : (newDirectoryInode b).indirect = 0 := rfl
@[simp] theorem newDirectoryInode_reserved : (newDirectoryInode b).reserved = 0 := rfl
@[simp] theorem newDirectoryInode_direct_zero : (newDirectoryInode b).direct 0 = b := by
  simp [newDirectoryInode]

theorem newDirectoryInode_direct {k : Fin 10} (hk : k ≠ 0) : (newDirectoryInode b).direct k = 0 := by
  simp [newDirectoryInode, Function.update_of_ne hk]

/-- A new directory's record is well formed. -/
theorem ok_newDirectoryInode (hb : b ≠ 0) : (newDirectoryInode b).Ok := by
  have hblocks : blocksOf (newDirectoryInode b).size = 1 := by
    rw [newDirectoryInode_size]
    decide
  refine ⟨.inr rfl, by simp, by simp, rfl, fun _ => by simp, fun k => ?_, ?_⟩
  · rw [hblocks]
    by_cases hk : k = 0
    · subst hk
      exact iff_of_true (by simpa using hb) Nat.one_pos
    · refine iff_of_false (fun h => h (newDirectoryInode_direct hk)) fun hlt => hk (Fin.ext ?_)
      simpa using hlt
  · rw [hblocks]
    exact iff_of_false (fun h => h rfl) (by decide)

/-- A new directory's record fits the table. -/
theorem fits_newDirectoryInode (hb : b < 2 ^ 32) : (newDirectoryInode b).Fits := by
  have hzero : 0 < 2 ^ 32 := Nat.two_pow_pos 32
  refine ⟨by simp, by simp, by simp, fun k => ?_, hzero, hzero, hzero, rfl⟩
  by_cases hk : k = 0
  · subst hk
    rwa [newDirectoryInode_direct_zero]
  · rwa [newDirectoryInode_direct hk]

end

/-- Every volume before the entry is written, or after it is taken back, is safe. -/
def Env.SafeBeside (E : Env) (v : Vol) : Prop :=
  ∀ c F v', v.imap c = false → Vol.Beside v v' E.sb (v.alloc E.sb) c F → E.safe v'

/-- Every volume on the way to the entry of a new inode is safe. -/
def Env.SafeEntering (E : Env) (v : Vol) (type : Nat) : Prop :=
  ∀ d name c F v₁ w, v.Vacant E.sb d name → c < E.sb.totalInodes → v.imap c = false →
    v.Prepared E.sb d c type F v₁ → Vol.Grown v₁ w E.sb d →
    v₁.Entering w d (Entry.of c type name) (linksWith type (v.ino d).linkCount) → E.safe w

section
variable (hℓ : ℓ ≠ .any) (hsound : v.Sound E.sb) (hsafe : E.SafeBeside v)
include hℓ hsound hsafe

omit hsound in
/-- `allocate_inode` before the rest of a body: it takes a free inode, or nothing changes. -/
theorem On.withInode {P : Except Errno α → Level → Vol → Prop} {body : Nat → Fs (Except Errno α)}
    (h : On E ℓ v aux cmp s) (hrefuse : ∀ e ℓ', P (.error e) ℓ' v)
    (hbody : ∀ c s, c < E.sb.totalInodes → v.imap c = false → On E ℓ (v.setI c true) aux cmp s →
      wp (body c) (Ends E ℓ P) s) :
    wp (do
      match ← MiniOrange.allocateInode with
      | .error e => return .error e
      | .ok c => body c) (Ends E ℓ P) s := by
  by_cases hmore : 1 < E.sb.totalInodes
  · refine wp.bind (h.allocateInode hℓ hmore fun n _ hn => hsafe n ∅ _ hn
      ((Vol.Beside.refl v E.sb _ n).setI (Vol.notMem_alloc hn))) ?_
    rintro r s₁ (⟨c, rfl, -, hlt, hfree, -, h₁⟩ | ⟨rfl, -, h₁⟩ | ⟨rfl, rfl, h₁⟩)
    · exact hbody c s₁ hlt hfree h₁
    · exact .of_on (hrefuse _ _) h₁
    · exact .of_after (hrefuse _ _) h₁
  · -- a volume of one inode has no room for a second
    unfold MiniOrange.allocateInode MiniOrange.allocateBitmapBit
    rw [wp_bind, wp_bind, wp_get, h.superblock]
    dsimp only
    rw [if_pos (Nat.not_lt.1 hmore)]
    exact .of_on (hrefuse _ _) h

/-- `create_locked` once the parent and the name are known. -/
theorem On.createNamed (hsafe' : E.SafeEntering v 1) (h : On E ℓ v aux cmp s)
    (hvacant : v.Vacant E.sb d name) :
    wp (MiniOrange.createNamed d (v.ino d) name)
      (Ends E ℓ (Vol.MakeEffect E.sb ℓ v d name 1 Inode.clear.stat)) s := by
  refine h.withInode hℓ hsafe (fun e ℓ' => .undone e ℓ' v (.refl v _)) ?_
  intro c s hlt hfree h
  have hc : c ∉ v.alloc E.sb := Vol.notMem_alloc hfree
  have hbeside : Vol.Beside v (v.setI c true) E.sb (v.alloc E.sb) c ∅ :=
    (Vol.Beside.refl v E.sb _ c).setI hc
  have hsafe_c := fun v' F => hsafe c F v' hfree
  refine wp.bind (h.writeInode hℓ hlt (Inode.ok_iff.1 Inode.ok_clear).2 Inode.fits_clear
    (hsafe_c _ _ (hbeside.setIno hc))) ?_
  rintro r s₁ (⟨rfl, h₁⟩ | ⟨rfl, rfl, h₁⟩)
  · refine On.publish hsound hlt hfree h₁ hℓ hvacant.dir hvacant.label .file ?_
      fun w => hsafe' d name c ∅ _ w hvacant hlt hfree .file
    intro ℓ w aux s G hℓ hw _ h
    rw [Finset.sdiff_empty]
    exact On.rollbackCreatedInode hsound hlt hfree hsafe_c h hℓ hw
  · refine wp.bind (On.rollbackCreatedInode hsound hlt hfree hsafe_c h₁ nofun hbeside) ?_
    rintro _ s₂ (⟨w, aux', hw, himap, hzero, h₂⟩ | ⟨hs, -⟩)
    · refine .of_after (.undone _ _ w (hw.same ?_ ?_)) h₂
      · rw [himap, hfree]
      · rw [hzero, hsound.free_zero c hlt hfree]
    · cases hs

/-- `mkdir_locked` once the parent and the name are known. -/
theorem On.mkdirNamed (hsafe' : E.SafeEntering v 2) (h : On E ℓ v aux cmp s)
    (hvacant : v.Vacant E.sb d name) :
    wp (MiniOrange.mkdirNamed d (v.ino d) name)
      (Ends E ℓ (Vol.MakeEffect E.sb ℓ v d name 2 fun _ => ())) s := by
  refine h.withInode hℓ hsafe (fun e ℓ' => .undone e ℓ' v (.refl v _)) ?_
  intro c s hlt hfree h
  have hown := hsound.owns
  have hc : c ∉ v.alloc E.sb := Vol.notMem_alloc hfree
  have hroot : c ≠ E.sb.rootInode := by
    rintro rfl
    rw [hsound.root] at hfree
    cases hfree
  have hsafe_c := fun v' F => hsafe c F v' hfree
  have hbeside : Vol.Beside v (v.setI c true) E.sb (v.alloc E.sb) c ∅ :=
    (Vol.Beside.refl v E.sb _ c).setI hc
  -- without a block the inode is given back
  have hback : Vol.Beside v ((v.setI c true).setI c false) E.sb (v.alloc E.sb) c ∅ :=
    hbeside.setI hc
  have hsame : Vol.Same v ((v.setI c true).setI c false) (v.alloc E.sb) :=
    hback.same (by rw [Vol.setI_self, hfree]) rfl
  -- with one, every volume up to the entry is beside the files
  have hblock : ∀ b, E.sb.dataStart ≤ b → b < E.sb.totalBlocks → v.bmap b = false →
      Vol.Beside v ((v.setI c true).setB b true) E.sb (v.alloc E.sb) c {b} :=
    fun b hb hb' hb₀ => hbeside.setB hown ⟨hb, hb'⟩ hb₀
  have htake : ∀ b, E.sb.dataStart ≤ b → b < E.sb.totalBlocks → v.bmap b = false →
      Vol.Beside v ((v.setI c true).take b) E.sb (v.alloc E.sb) c {b} :=
    fun b hb hb' hb₀ => (hblock b hb hb' hb₀).setData hown (Finset.mem_singleton_self b)
  refine wp.bind (h.allocateBlock hℓ fun b hb hb' hb₀ =>
    ⟨hsafe_c _ _ (hblock b hb hb' hb₀), hsafe_c _ _ (htake b hb hb' hb₀)⟩) ?_
  rintro r s₁ ⟨⟨b, rfl, hb, hb', hb₀, h₁⟩ | ⟨rfl, h₁⟩ | ⟨rfl, rfl, aux', h₁⟩, -⟩
  · dsimp only
    have hb_mem : b ∈ ({b} : Finset Nat) := Finset.mem_singleton_self b
    have hdata : Vol.Beside v (((v.setI c true).take b).setData b (newDirectoryBlock c d)) E.sb
        (v.alloc E.sb) c {b} := (htake b hb hb' hb₀).setData hown hb_mem
    have hdir : v.Prepared E.sb d c 2 {b} (v.newDirectory c d b) := .directory b hb hb' hb₀
    have hpos : b ≠ 0 := Nat.ne_of_gt (Nat.lt_of_lt_of_le E.geometry.dataStart_pos hb)
    -- a failed transfer is followed by a rollback that succeeds
    have hundo : ∀ w aux s, ℓ = .single → Vol.Beside v w E.sb (v.alloc E.sb) c {b} →
        On E .quiet w aux cmp s →
        wp (do MiniOrange.rollbackDirectory c b; return .error .eio)
          (Ends E ℓ (Vol.MakeEffect E.sb ℓ v d name 2 fun _ => ())) s := by
      rintro w aux s rfl hw h
      refine wp.bind (On.rollbackDirectory hsound hlt hfree hsafe_c h nofun hw hb_mem) ?_
      rw [Finset.erase_singleton]
      rintro _ s₂ (⟨w', aux', hw', himap, hzero, h₂⟩ | ⟨hs, -⟩)
      · refine .of_after (.undone _ _ w' (hw'.same ?_ ?_)) h₂
        · rw [himap, hfree]
        · rw [hzero, hsound.free_zero c hlt hfree]
      · cases hs
    rw [wp_bind, wp_setBuffer]
    refine wp.bind ((h₁.setIo (newDirectoryBlock c d)).writeData .ioBlock hℓ hb hb'
      (hsafe_c _ _ hdata)) ?_
    rintro r s₂ ⟨⟨rfl, h₂⟩ | ⟨rfl, hs, h₂⟩, -⟩
    · refine wp.bind (h₂.writeInode hℓ hlt (Inode.ok_iff.1 (ok_newDirectoryInode hpos)).2
        (fits_newDirectoryInode (hb'.trans E.geometry.totalBlocks_lt))
        (hsafe_c _ _ (hdir.beside hown hc))) ?_
      rintro r s₃ (⟨rfl, h₃⟩ | ⟨rfl, hs, h₃⟩)
      · refine On.publish hsound hlt hfree h₃ hℓ hvacant.dir hvacant.label hdir ?_
          fun w => hsafe' d name c _ _ w hvacant hlt hfree hdir
        intro ℓ w aux s G hℓ hw hG h
        rw [Finset.sdiff_singleton_eq_erase]
        exact On.rollbackDirectory hsound hlt hfree hsafe_c h hℓ hw (Finset.singleton_subset_iff.1 hG)
      · exact hundo _ _ s₃ hs hdata h₃
    · exact hundo _ _ s₂ hs (htake b hb hb' hb₀) h₂
  · refine wp.bind (h₁.freeInode hℓ hroot hlt (hsafe_c _ _ hback)) ?_
    rintro r s₂ (⟨rfl, h₂⟩ | ⟨rfl, rfl, h₂⟩)
    · exact .of_on (.undone _ _ _ hsame) h₂
    · exact .of_after (.leaked _ c ∅ _ rfl (.inr rfl) hfree hbeside) h₂
  · refine wp.bind (h₁.freeInode nofun hroot hlt (hsafe_c _ _ hback)) ?_
    rintro r s₂ (⟨rfl, h₂⟩ | ⟨rfl, hs, -⟩)
    · exact .of_after (.undone _ _ _ hsame) h₂
    · cases hs

omit hℓ hsound hsafe in
/-- The frame of `create_locked` and `mkdir_locked`: resolve the parent, refuse a name that is
there. -/
theorem On.inParent {value : Nat → α} {make : Nat → Inode → List UInt8 → Fs (Except Errno α)}
    {path : List UInt8} (h : On E ℓ v aux cmp s)
    (hmake : ∀ d name s, On E ℓ v aux cmp s → v.Vacant E.sb d name →
      wp (make d (v.ino d) name) (Ends E ℓ (Vol.MakeEffect E.sb ℓ v d name type value)) s) :
    wp (do
      match ← resolveParentLocked path with
      | .error e => return .error e
      | .ok (parentNumber, parent, name) =>
        match ← MiniOrange.directoryFind parent name with
        | .ok _ => return .error .eexist
        | .error .enoent => make parentNumber parent name
        | .error e => return .error e)
      (Ends E ℓ (Vol.CreateEffect E.sb ℓ v path type value)) s := by
  refine h.ends_bind (Reads.resolveParent path) (fun s h => ?_) rfl fun _ => .refused _ _
  cases hres : v.resolveParent E.sb path with
  | error e => exact .of_on (.refused _ _) h
  | ok found =>
    obtain ⟨d, inode, name⟩ := found
    obtain ⟨-, -, -, hread, hmode, hname, hproper⟩ := Vol.resolveParent_eq_ok hres
    obtain ⟨hlt, himap, -, rfl⟩ := Vol.readInode_eq_ok.1 hread
    have hd : v.IsDir (v.alloc E.sb) d := ⟨Vol.mem_alloc.2 ⟨hlt, himap⟩, hmode⟩
    refine h.ends_bind (Reads.directoryFind _ name) (fun s h => ?_) rfl fun _ => .refused _ _
    cases hfind : v.find E.sb (v.ino d) name with
    | ok record => exact .of_on (.refused _ _) h
    | error e =>
      by_cases he : e = .enoent
      · subst he
        have hvacant : v.Vacant E.sb d name := ⟨hd, hname, hproper, hfind⟩
        refine (hmake d name s h hvacant).mono ?_
        rintro r s' ⟨ℓ', v', aux', cmp', hℓ', heffect, h'⟩
        exact ⟨ℓ', v', aux', cmp', hℓ', .named d name r ℓ' v' hres hvacant heffect, h'⟩
      · simp only [Except.map]
        exact .of_on (.refused _ _) h

/-- `minifs_create`. -/
theorem On.minifsCreate (hsafe' : E.SafeEntering v 1) (h : On E ℓ v aux cmp s) (path : List UInt8) :
    wp (MiniOrange.minifsCreate path)
      (Ends E ℓ (Vol.CreateEffect E.sb ℓ v path 1 Inode.clear.stat)) s :=
  h.locked (fun _ e => .refused e ℓ) fun _ h => h.inParent fun _ _ _ h hvacant =>
    On.createNamed hℓ hsound hsafe hsafe' h hvacant

/-- `minifs_mkdir`. -/
theorem On.minifsMkdir (hsafe' : E.SafeEntering v 2) (h : On E ℓ v aux cmp s) (path : List UInt8) :
    wp (MiniOrange.minifsMkdir path)
      (Ends E ℓ (Vol.CreateEffect E.sb ℓ v path 2 fun _ => ())) s :=
  h.locked (fun _ e => .refused e ℓ) fun _ h => h.inParent fun _ _ _ h hvacant =>
    On.mkdirNamed hℓ hsound hsafe hsafe' h hvacant

end

end MiniOrange

import MiniOrange.Fs.Operations
import MiniOrange.Fs.Search

/-!
# `directory_append_locked`

The kernel writes a new entry into the first blank one of the directory, or behind the last
(`Vol.Hole`), and raises the link count when the entry is a directory's. Past the last entry the link
count goes to disk with the new size. In a hole it is written after the entry, and if that write
fails the hole is cleared again. `AppendEnd` says how the function can end, `Vol.Entering` what a
crash on the way can leave.
-/

namespace MiniOrange

variable {p : Bytes}

namespace Vol

variable {v v' v'' : Vol} {sb : Superblock} {L : Finset Nat} {d i j child type links : Nat}
  {name : List UInt8} {e : Entry}

/-! ## Where an entry goes -/

/-- Entry `j` of directory `d` is blank, or the one past the last. -/
structure Hole (v : Vol) (d j : Nat) : Prop where
  le : j ≤ v.entryCount d
  blank : j < v.entryCount d → v.entry d j = .blank

/-- Directory `d` has the entry `e` at `j` and is otherwise as it was. -/
structure Placed (v v' : Vol) (d j : Nat) (e : Entry) : Prop where
  count : v'.entryCount d = max (v.entryCount d) (j + 1)
  entry : ∀ i < v'.entryCount d, v'.entry d i = if i = j then e else v.entry d i

/-- Directory `d` has taken the entry `e` in a hole, with the link count `links`. -/
structure Entered (v v' : Vol) (sb : Superblock) (d j : Nat) (e : Entry) (links : Nat) : Prop
    extends Settled v v' sb d where
  hole : v.Hole d j
  placed : Placed v v' d j e
  linkCount : (v'.ino d).linkCount = links

/-- A volume between the writes of `directory_append_locked`: the directory is as it was, or it has
the entry and either link count. -/
def Entering (v v' : Vol) (d : Nat) (e : Entry) (links : Nat) : Prop :=
  SameBytes v v' d ∨ ∃ j, v.Hole d j ∧ Placed v v' d j e ∧
    ((v'.ino d).linkCount = (v.ino d).linkCount ∨ (v'.ino d).linkCount = links)

variable {x : Nat}

/-- The bytes of an entry are bytes of the file. -/
theorem ptr_entry (hx : x < 64) :
    (v.data (v.fileBlock d (j / 64))).ptr (j % 64 * 64) x = v.byteAt d (j * 64 + x) := by
  rw [byteAt, show (j * 64 + x) / 4096 = j / 64 by omega,
    show (j * 64 + x) % 4096 = j % 64 * 64 + x by omega]
  rfl

/-- An entry is determined by the bytes of the file. -/
theorem entry_eq_of_bytes (h : ∀ x < 64, v.byteAt d (j * 64 + x) = p x) :
    v.entry d j = Entry.ofBytes p :=
  Entry.ofBytes_congr fun x hx => (ptr_entry hx).trans (h x hx)

/-- The bytes of a blank entry are zero. -/
theorem byteAt_blank (h : v.entry d j = .blank) (hx : x < 64) :
    v.byteAt d (j * 64 + x) = 0 :=
  (ptr_entry hx).symm.trans (Entry.ofBytes_eq_blank.1 h x hx)

/-- Replacing 64 bytes at an entry places the entry they encode. -/
theorem Spliced.placed (h : Spliced v v' d (j * 64) p 64)
    (hsize : (v'.ino d).size = max (v.ino d).size (j * 64 + 64)) (hdiv : (v.ino d).size % 64 = 0) :
    Placed v v' d j (Entry.ofBytes p) where
  count := by
    unfold entryCount
    omega
  entry i hi := by
    unfold entryCount at hi
    split
    · next heq =>
      subst heq
      refine entry_eq_of_bytes fun x hx => ?_
      rw [h _ (by omega), if_pos (by omega), Nat.add_sub_cancel_left]
    · next hne =>
      refine entry_eq_of_bytes fun x hx => ?_
      rw [h _ (by omega), if_neg (by omega), ptr_entry hx]

/-- Bytes put behind the size are not part of the file. -/
theorem Spliced.sameBytes {offset length : Nat} (h : Spliced v v' d offset p length)
    (hino : v'.ino d = v.ino d) (hout : length = 0 ∨ (v.ino d).size ≤ offset) : SameBytes v v' d := by
  refine ⟨hino, fun o ho => ?_⟩
  rw [h o (by rwa [hino]), if_neg (by omega)]

/-- The scan of `directory_append_locked` finds a hole. -/
theorem findUnused_from (hown : v.Owns sb L) (hd : v.IsDir L d) :
    ∀ fuel i, i ≤ v.entryCount d → v.entryCount d ≤ i + fuel →
      ∃ j, v.Hole d j ∧ v.findUnused sb (v.ino d) fuel (i * 64) = .ok (j * 64) := by
  have hdiv := ((hown.ok d hd.1).dir_size hd.2).2
  intro fuel
  induction fuel with
  | zero =>
    intro i hi hfuel
    obtain rfl : i = v.entryCount d := by omega
    exact ⟨_, ⟨le_rfl, fun h => absurd h (Nat.lt_irrefl _)⟩, rfl⟩
  | succ fuel ih =>
    intro i hi hfuel
    rw [findUnused]
    by_cases hend : i * 64 ≥ (v.ino d).size
    · rw [if_pos hend]
      refine ⟨i, ⟨hi, fun hlt => ?_⟩, rfl⟩
      unfold entryCount at hlt
      omega
    · rw [if_neg hend]
      have hk : i * 64 / 4096 < blocksOf (v.ino d).size := div_lt_blocksOf (Nat.not_le.1 hend)
      rw [hown.inodeBlockAt hd.1 hk]
      dsimp only
      have hentry : v.entry d i =
          Entry.ofBytes ((v.data (v.fileBlock d (i * 64 / 4096))).ptr (i * 64 % 4096)) := by
        unfold entry
        rw [show i * 64 / 4096 = i / 64 by omega, show i * 64 % 4096 = i % 64 * 64 by omega]
      split
      · next hunused =>
        refine ⟨i, ⟨hi, fun _ => ?_⟩, rfl⟩
        rw [hentry, Entry.ofBytes_eq_blank]
        exact directoryEntryUnused_iff.1 hunused
      · have hlt : i < v.entryCount d := by
          unfold entryCount
          omega
        obtain ⟨j, hj, heq⟩ := ih (i + 1) hlt (by omega)
        rw [Nat.succ_mul] at heq
        exact ⟨j, hj, heq⟩

/-- Every volume between the writes of an entry's chunk is one on the way to the entry. -/
theorem Between.entering (h : v.Between v' d (j * 64) p 64 links) (hj : v.Hole d j)
    (hdiv : (v.ino d).size % 64 = 0) : v.Entering v' d (Entry.ofBytes p) links := by
  have hle := hj.le
  unfold entryCount at hle
  rcases h with hsame | ⟨hino, hspliced⟩ | ⟨hgrow, hsize, hlinks, hspliced⟩
  · exact .inl hsame
  · rcases Nat.lt_or_ge (j * 64) (v.ino d).size with hlt | hge
    · refine .inr ⟨j, hj, hspliced.placed ?_ hdiv, .inl (by rw [hino])⟩
      rw [hino]
      omega
    · exact .inl (hspliced.sameBytes hino (.inr hge))
  · refine .inr ⟨j, hj, hspliced.placed ?_ hdiv, .inr hlinks⟩
    omega

/-- Clearing an entry that was put in a hole restores the bytes. -/
theorem Spliced.undo (h : Spliced v v' d (j * 64) p 64) (hino : v'.ino d = v.ino d)
    (h' : Spliced v' v'' d (j * 64) (fun _ => 0) 64) (hino' : v''.ino d = v'.ino d)
    (hblank : v.entry d j = .blank) : SameBytes v v'' d := by
  refine ⟨hino'.trans hino, fun o ho => ?_⟩
  rw [h' o (by rwa [hino', hino])]
  split
  · next hin =>
    obtain ⟨x, rfl⟩ : ∃ x, o = j * 64 + x := ⟨o - j * 64, by omega⟩
    exact (byteAt_blank hblank (by omega)).symm
  · next hout => rw [h o (by rwa [hino]), if_neg hout]

end Vol

/-- The link count of a directory with an entry more. -/
def linksWith (type links : Nat) : Nat := if type = 2 then links + 1 else links

variable {E : Env} {ℓ : Level} {v v' : Vol} {aux cmp : Block} {s : Machine} {L : Finset Nat}
  {d child type links : Nat} {name : List UInt8} {e : Entry}

/-- The end of `directory_append_locked`: the entry is in a hole, with the new link count; or the
directory is full, or the volume; or a transfer has failed and the directory is as it was. -/
def AppendEnd (E : Env) (ℓ : Level) (v : Vol) (d : Nat) (e : Entry) (links : Nat) (cmp : Block)
    (r : Except Errno Unit) (s : Machine) : Prop :=
  (∃ v' aux' j, r = .ok () ∧ Vol.Entered v v' E.sb d j e links ∧ On E ℓ v' aux' cmp s) ∨
  (∃ e, r = .error e ∧ (e = .einval ∨ e = .enospc) ∧ Refused E ℓ v cmp s) ∨
  (r = .error .eio ∧ ℓ = .single ∧ ∃ v' aux', Vol.Settled v v' E.sb d ∧ Vol.SameBytes v v' d ∧
    On E .quiet v' aux' cmp s)

/-- The link count of a directory whose entry went into a hole: it is written, or the entry is
taken back. -/
theorem On.appendLinks {w : Vol} {j : Nat} (h : On E ℓ w aux cmp s) (hℓ : ℓ ≠ .any)
    (hown : v.Owns E.sb L) (hd : v.IsDir L d) (hj : v.Hole d j) (hlt : j < v.entryCount d)
    (hgrown : Vol.Settled v w E.sb d) (hino : w.ino d = v.ino d)
    (hspliced : Vol.Spliced v w d (j * 64) p 64) (hne : links ≠ 0) (hlinks : links < 2 ^ 16)
    (hsafe : ∀ v', Vol.Grown v v' E.sb d → v.Entering v' d (Entry.ofBytes p) links → E.safe v') :
    wp (do
      match ← writeInodeInternal d { w.ino d with linkCount := links } with
      | .error _ =>
        let _ ← MiniOrange.writeChunkLocked d { w.ino d with linkCount := links } (j * 64) (fun _ => 0) 64
        return .error .eio
      | .ok () => return .ok ()) (AppendEnd E ℓ v d (Entry.ofBytes p) links cmp) s := by
  have hok := hown.ok d hd.1
  have hdiv := (hok.dir_size hd.2).2
  have hend : j * 64 + 64 ≤ (v.ino d).size := by
    unfold Vol.entryCount at hlt
    omega
  have hplaced : Vol.Placed v w d j (Entry.ofBytes p) :=
    hspliced.placed (by rw [hino]; omega) hdiv
  have hown' : w.Owns E.sb L := hgrown.toGrown.owns hown hd.1
  have hokw : (w.ino d).Ok := hown'.ok d hd.1
  -- the record with the new link count
  have hnew : ({ w.ino d with linkCount := links } : Inode).Ok := { hokw with linkCount := hne }
  have hfits : ({ w.ino d with linkCount := links } : Inode).Fits :=
    { h.fits hokw.reserved with linkCount := hlinks }
  have hset : Vol.Settled v (w.setIno d { w.ino d with linkCount := links }) E.sb d :=
    hgrown.resize hnew rfl le_rfl rfl rfl rfl
  have hplaced' : Vol.Placed v (w.setIno d { w.ino d with linkCount := links }) d j
      (Entry.ofBytes p) := by
    have hfile : ∀ k, (w.setIno d { w.ino d with linkCount := links }).fileBlock d k =
        w.fileBlock d k := Vol.fileBlock_setIno rfl rfl
    refine ⟨?_, fun i hi => ?_⟩
    · rw [← hplaced.count]
      simp only [Vol.entryCount, Vol.setIno_self]
    · have hentry := hplaced.entry i (by simpa only [Vol.entryCount, Vol.setIno_self] using hi)
      rw [← hentry, Vol.entry, Vol.entry, hfile]
      rfl
  have hlast : (w.setIno d { w.ino d with linkCount := links }).ino d =
      { w.ino d with linkCount := links } := Vol.setIno_self ..
  refine wp.bind (h.writeInode hℓ (hown.inode_lt d hd.1) (Inode.ok_iff.1 hnew).2 hfits
    (hsafe _ hset.toGrown (.inr ⟨j, hj, hplaced', .inr (by rw [hlast])⟩))) ?_
  rintro r s₁ (⟨rfl, h₁⟩ | ⟨rfl, rfl, h₁⟩)
  · exact .inl ⟨_, aux, j, rfl, ⟨hset, hj, hplaced', by rw [hlast]⟩, h₁⟩
  · -- the fault is spent: the entry is cleared, in a block the directory has
    have hc : w.WriteAt E.sb L d (j * 64) 64 links :=
      { own := hown'
        mem := hd.1
        ends := hgrown.pointer_zero
        links_ne := hne
        links_lt := hlinks
        offset_le := by rw [hino]; omega
        pos := by omega
        within := by omega
        max := by
          have := hok.size_le
          omega
        dir := fun _ => by omega }
    have hundo : ∀ v', Vol.Grown w v' E.sb d →
        w.Between v' d (j * 64) (fun _ => 0) 64 links → E.safe v' := by
      intro v' hgrow hbetween
      refine hsafe v' (hgrown.toGrown.trans hgrow) ?_
      rcases hbetween with ⟨hino', hsame⟩ | ⟨hino', hzero⟩ | ⟨hpast, -⟩
      · refine .inr ⟨j, hj, ?_, .inl (by rw [hino', hino])⟩
        have hcount : v'.entryCount d = w.entryCount d := by
          rw [Vol.entryCount, Vol.entryCount, hino']
        refine ⟨hcount.trans hplaced.count, fun i hi => ?_⟩
        rw [hcount] at hi
        rw [← hplaced.entry i hi]
        unfold Vol.entryCount at hi
        refine Vol.entry_eq_of_bytes fun x hx => ?_
        rw [Vol.ptr_entry hx]
        exact hsame _ (by omega)
      · exact .inl (hspliced.undo hino hzero hino' (hj.blank hlt))
      · rw [hino] at hpast
        omega
    have hquiet : Level.quiet ≠ .any := by decide
    refine wp.bind (h₁.writeChunkLocked hquiet hc hundo) ?_
    rintro r s₂ ⟨⟨v', aux', -, hsettled, hzero, -, -, hsame, h₂⟩ | ⟨-, hpast, -⟩ | ⟨-, hs, -⟩, -⟩
    · have hino' : v'.ino d = w.ino d := hsame (by rw [hino]; exact hend)
      exact .inr (.inr ⟨rfl, rfl, v', aux', hgrown.trans hsettled,
        hspliced.undo hino hzero hino' (hj.blank hlt), h₂⟩)
    · rw [hino] at hpast
      omega
    · cases hs

/-- `directory_append_locked` on a directory that owns its blocks. -/
theorem On.directoryAppendLocked (h : On E ℓ v aux cmp s) (hℓ : ℓ ≠ .any) (hown : v.Owns E.sb L)
    (hd : v.IsDir L d) (hends : v.PointersEnd d) (hname : Entry.GoodLabel name)
    (htype : type = 1 ∨ type = 2) (hchild : child < 2 ^ 32)
    (hsafe : ∀ v', Vol.Grown v v' E.sb d → v.Entering v' d (Entry.of child type name)
      (linksWith type (v.ino d).linkCount) → E.safe v') :
    wp (MiniOrange.directoryAppendLocked d (v.ino d) child type name)
      (AppendEnd E ℓ v d (Entry.of child type name) (linksWith type (v.ino d).linkCount) cmp) s := by
  have hok := hown.ok d hd.1
  have hdiv := (hok.dir_size hd.2).2
  have hlen := hname.length_le
  have hpos := List.length_pos_iff.2 hname.pos
  have hencode : Entry.ofBytes (encodeDirectoryEntry child type name) = Entry.of child type name :=
    Entry.ofBytes_encodeDirectoryEntry hchild (by omega) (by omega)
  rw [← hencode] at hsafe ⊢
  unfold MiniOrange.directoryAppendLocked
  split
  · exact .inr (.inl ⟨_, rfl, .inl rfl, .inl ⟨v, aux, .refl v, h⟩⟩)
  next hroom =>
  have hroom : (v.ino d).size ≤ 1034 * 4096 - 64 := by omega
  dsimp only
  obtain ⟨j, hj, hfind⟩ := Vol.findUnused_from hown hd (v.ino d).size 0 (Nat.zero_le _) (by
    unfold Vol.entryCount
    omega)
  rw [Nat.zero_mul] at hfind
  refine wp.bind (Reads.findUnused (P := fun _ => True) (v.ino d).size 0 h trivial) ?_
  rintro r s₁ (⟨rfl, h₁, -⟩ | ⟨rfl, hq, h₁⟩)
  case inr =>
    obtain rfl := Level.eq_single hq hℓ
    exact .inr (.inr ⟨rfl, rfl, v, aux, .refl hown hd.1 hends, ⟨rfl, fun _ _ => rfl⟩, h₁⟩)
  rw [hfind]
  dsimp only
  split
  · exact .inr (.inl ⟨_, rfl, .inr rfl, .inl ⟨v, aux, .refl v, h₁⟩⟩)
  next hfull =>
  have hinode : (if type = 2 then { v.ino d with linkCount := (v.ino d).linkCount + 1 }
      else v.ino d) = { v.ino d with linkCount := linksWith type (v.ino d).linkCount } := by
    unfold linksWith
    split <;> rfl
  rw [hinode]
  have hfits := (h.fits hok.reserved).linkCount
  have hnonzero := hok.linkCount
  have hle := hj.le
  unfold Vol.entryCount at hle
  have hc : v.WriteAt E.sb L d (j * 64) 64 (linksWith type (v.ino d).linkCount) :=
    { own := hown
      mem := hd.1
      ends := hends
      links_ne := by
        unfold linksWith
        split <;> omega
      links_lt := by
        unfold linksWith
        split <;> omega
      offset_le := by omega
      pos := by omega
      within := by omega
      max := by omega
      dir := fun _ => by omega }
  refine wp.bind (h₁.writeChunkLocked hℓ hc fun v' hgrown hbetween =>
    hsafe v' hgrown (hbetween.entering hj hdiv)) ?_
  rintro r s₂ ⟨⟨w, aux', rfl, hsettled, hspliced, hsize, hgrew, hsame, h₂⟩ | ⟨rfl, -, hrefused⟩ |
    ⟨rfl, rfl, w, aux', hsettled, hino, hbytes, h₂⟩, -⟩
  · -- the entry is written
    dsimp only
    have hplaced := hspliced.placed hsize hdiv
    split
    · next hhole =>
      have hlt : j < v.entryCount d := by
        unfold Vol.entryCount
        omega
      have hino : w.ino d = v.ino d := hsame (by
        unfold Vol.entryCount at hlt
        omega)
      exact h₂.appendLinks hℓ hown hd hj hlt hsettled hino hspliced hc.links_ne hc.links_lt hsafe
    · next hdone =>
      refine .inl ⟨w, aux', j, rfl, ⟨hsettled, hj, hplaced, ?_⟩, h₂⟩
      rcases Nat.lt_or_ge (v.ino d).size (j * 64 + 64) with hgrow | hfit
      · exact hgrew hgrow
      · -- in a hole only a directory's entry changes the link count
        rw [hsame hfit, linksWith, if_neg fun htwo => hdone ⟨by omega, htwo⟩]
  · exact .inr (.inl ⟨_, rfl, .inr rfl, hrefused⟩)
  · refine .inr (.inr ⟨rfl, rfl, w, aux', hsettled, ?_, h₂⟩)
    rcases hbytes with hnone | ⟨hpast, hlong⟩
    · exact hnone.sameBytes (congrFun hino d) (.inl rfl)
    · exact hlong.sameBytes (congrFun hino d) (.inr (by omega))

end MiniOrange

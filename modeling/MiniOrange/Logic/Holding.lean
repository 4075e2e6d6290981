import Mathlib

/-!
# Who holds what

Places hold things: `holds x` is what the place `x` holds. `Holding holds used` says that no two places hold the same
thing, and that only things in use are held. Giving a thing that is not in use to a place keeps this, and so does taking
one back.
-/

namespace MiniOrange

variable {ι α : Type} {holds holds' : ι → Option α} {used used' : α → Prop} {x : ι} {a : α}

/-- No two places hold the same thing, and what they hold is in use. -/
structure Holding (holds : ι → Option α) (used : α → Prop) : Prop where
  unique : ∀ {x y a}, holds x = some a → holds y = some a → x = y
  used : ∀ {x a}, holds x = some a → used a

namespace Holding

/-- More may be in use. -/
theorem mono (h : Holding holds used) (hused : ∀ {x b}, holds x = some b → used b → used' b) : Holding holds used' :=
  ⟨h.unique, fun hx => hused hx (h.used hx)⟩

variable [DecidableEq ι]

/-- A place is given a thing that was not in use. -/
theorem give (h : Holding holds used) (ha : ¬ used a) (hused : ∀ {b}, used b → used' b) (ha' : used' a) :
    Holding (Function.update holds x (some a)) used' := by
  have hother : ∀ {y b}, Function.update holds x (some a) y = some b → (y = x ∧ b = a) ∨ (y ≠ x ∧ holds y = some b) := by
    intro y b hy
    by_cases hyx : y = x
    · rw [hyx, Function.update_self] at hy
      exact .inl ⟨hyx, (Option.some.inj hy).symm⟩
    · rw [Function.update_of_ne hyx] at hy
      exact .inr ⟨hyx, hy⟩
  constructor
  · intro y z b hy hz
    rcases hother hy with ⟨rfl, rfl⟩ | ⟨-, hy'⟩
    · rcases hother hz with ⟨hz', -⟩ | ⟨-, hz'⟩
      · exact hz'.symm
      · exact absurd (h.used hz') ha
    · rcases hother hz with ⟨-, rfl⟩ | ⟨-, hz'⟩
      · exact absurd (h.used hy') ha
      · exact h.unique hy' hz'
  · intro y b hy
    rcases hother hy with ⟨-, rfl⟩ | ⟨-, hy'⟩
    · exact ha'
    · exact hused (h.used hy')

/-- What a place holds is taken back. -/
theorem takeBack (h : Holding holds used) (hx : holds x = some a) (hused : ∀ {b}, b ≠ a → used b → used' b) :
    Holding (Function.update holds x none) used' := by
  have hother : ∀ {y b}, Function.update holds x none y = some b → y ≠ x ∧ holds y = some b := by
    intro y b hy
    by_cases hyx : y = x
    · rw [hyx, Function.update_self] at hy
      cases hy
    · rw [Function.update_of_ne hyx] at hy
      exact ⟨hyx, hy⟩
  constructor
  · exact fun hy hz => h.unique (hother hy).2 (hother hz).2
  · intro y b hy
    obtain ⟨hyx, hy⟩ := hother hy
    refine hused ?_ (h.used hy)
    rintro rfl
    exact hyx (h.unique hy hx)

end Holding

end MiniOrange

import Mathlib.Order.Basic

/-!
# Loops that run until nothing changes

`whileChanged step fuel x` is the loop `do { changed = step(x); } while (changed)`,
cut off after `fuel` rounds. A round that reports a change must raise a measure;
when the measure is bounded (on the states an invariant `Inv` describes), enough
fuel lets the loop end by itself: it stops at the result of a round that changed
nothing (`whileChanged_stable`).
-/

namespace Mirage

variable {α : Type*}

/-- Repeat `step` while it reports a change, at most `fuel` times. -/
def whileChanged (step : α → α × Bool) : Nat → α → α
  | 0, x => x
  | fuel + 1, x => if (step x).2 then whileChanged step fuel (step x).1 else (step x).1

/-- A loop whose rounds keep an invariant and raise a bounded measure when they
    change something ends at a round that changes nothing. -/
theorem whileChanged_stable {step : α → α × Bool} (Inv : α → Prop) (μ : α → Nat) {bound : Nat}
    (hinv : ∀ x, Inv x → Inv (step x).1)
    (hlt : ∀ x, Inv x → (step x).2 = true → μ x < μ (step x).1)
    (hle : ∀ x, Inv x → μ x ≤ bound) :
    ∀ fuel x, Inv x → bound < fuel + μ x →
      ∃ y, Inv y ∧ (step y).2 = false ∧ whileChanged step fuel x = (step y).1 := by
  intro fuel
  induction fuel with
  | zero =>
    intro x hx hfuel
    have := hle x hx
    omega
  | succ fuel ih =>
    intro x hx hfuel
    cases hc : (step x).2 with
    | false => exact ⟨x, hx, hc, by rw [whileChanged, hc]; rfl⟩
    | true =>
      have := hlt x hx hc
      obtain ⟨y, hy, hyc, heq⟩ := ih (step x).1 (hinv x hx) (by omega)
      exact ⟨y, hy, hyc, by rw [whileChanged, hc, if_pos rfl, heq]⟩

end Mirage

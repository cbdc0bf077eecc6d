import Mathlib.Data.List.Basic

/-!
# Systems of actions

A system is given by a function `step` that takes an action in a state, where it can be
taken. Its runs are sequences of actions; a property of whole runs may depend on a condition
`ok` on the actions, each in the state in which it is taken.

* `Reaches.invariant`: what holds first and is kept by every action under the condition holds
  in every state;
* `reaches_of_takeActions`, `reaches_of_checked`: a sequence of actions that can be evaluated is
  a run.
-/

namespace Mirage

variable {σ α : Type*} {step : σ → α → Option σ} {ok : σ → α → Prop} {s₀ s : σ}

/-- The state after some actions, if all of them can be taken. -/
def takeActions (step : σ → α → Option σ) : σ → List α → Option σ
  | s, [] => some s
  | s, a :: as => (step s a).bind fun s' => takeActions step s' as

/-- The states of the runs that take every action under the condition. -/
inductive Reaches (step : σ → α → Option σ) (ok : σ → α → Prop) (s₀ : σ) : σ → Prop
  | start : Reaches step ok s₀ s₀
  | next {s s' : σ} {a : α} (h : Reaches step ok s₀ s) (hok : ok s a) (hstep : step s a = some s') :
    Reaches step ok s₀ s'

theorem Reaches.invariant {p : σ → Prop} (h : Reaches step ok s₀ s) (h₀ : p s₀)
    (hp : ∀ s a s', p s → ok s a → step s a = some s' → p s') : p s := by
  induction h with
  | start => exact h₀
  | next _ hok hstep ih => exact hp _ _ _ ih hok hstep

theorem Reaches.mono {ok' : σ → α → Prop} (h : Reaches step ok s₀ s)
    (hok : ∀ s a, ok s a → ok' s a) : Reaches step ok' s₀ s := by
  induction h with
  | start => exact .start
  | next _ hok' hstep ih => exact .next ih (hok _ _ hok') hstep

/-- Actions that meet the condition in all states. -/
theorem Reaches.of_takeActions (h : Reaches step ok s₀ s) {as : List α} {s' : σ}
    (hok : ∀ a ∈ as, ∀ s, ok s a) (has : takeActions step s as = some s') :
    Reaches step ok s₀ s' := by
  induction as generalizing s with
  | nil => exact Option.some.inj has ▸ h
  | cons a as ih =>
    obtain ⟨t, ht, has⟩ := Option.bind_eq_some_iff.1 has
    exact ih (h.next (hok a List.mem_cons_self s) ht)
      (fun a ha => hok a (List.mem_cons_of_mem _ ha)) has

theorem reaches_of_takeActions {as : List α} (h : takeActions step s₀ as = some s) :
    Reaches step (fun _ _ => True) s₀ s :=
  Reaches.start.of_takeActions (fun _ _ _ => trivial) h

/-- Actions that are checked as they are taken. -/
theorem reaches_of_checked [∀ s a, Decidable (ok s a)] {as : List α}
    (h : takeActions (fun s a => if ok s a then step s a else none) s₀ as = some s) :
    Reaches step ok s₀ s := by
  refine (reaches_of_takeActions h).invariant (p := Reaches step ok s₀) .start ?_
  intro s a s' hs _ hstep
  split at hstep
  · exact hs.next ‹_› hstep
  · cases hstep

end Mirage

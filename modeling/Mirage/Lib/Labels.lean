import Mathlib.Data.Nat.Notation

/-!
# Labels and branches

Structured code has labels instead of addresses: a block has one at its end, a loop one at
its head, and a branch names a label by how many others it is nested in. Code is taken as
a function from states to what comes of it (`Flow`).

* `landing`: blocks nested around a jump table, with a piece of code after the end of each.
  A table that branches to the `i`-th label reaches the `i`-th piece (`landing_br`,
  `landing_done`), whose own branches have the blocks around it still to leave.
* `loop_agrees`: a loop whose every turn does a step of a machine does its runs.
* `Flow.Holds`: an invariant of the states that code goes on or branches with, and what holds
  where it is done. It is kept by code one after the other (`Flow.Holds.andThen`), by a block
  (`Flow.Holds.close`) and by a loop (`holds_loop`).
-/

namespace Mirage.Labels

variable {σ ρ α β : Type*}

/-- What comes of a piece of code: it goes on after its end, or branches to a label that is
    nested in `depth` others, or is done for good. -/
inductive Flow (σ ρ : Type*)
  | next (s : σ)
  | br (depth : Nat) (s : σ)
  | done (r : ρ)

namespace Flow

def andThen (flow : Flow σ ρ) (f : σ → Flow σ ρ) : Flow σ ρ :=
  match flow with
  | .next s => f s
  | .br depth s => .br depth s
  | .done r => .done r

/-- The end of a block: `clear` leaves the state as it is expected behind the label. -/
def close (clear : σ → σ) : Flow σ ρ → Flow σ ρ
  | .next s => .next (clear s)
  | .br 0 s => .next (clear s)
  | .br (depth + 1) s => .br depth s
  | .done r => .done r

end Flow

/-! ## Landing pads -/

section

variable (clear : σ → σ) (table : σ → Flow σ ρ) (code : Nat → σ → Flow σ ρ)

/-- The first `k` pieces of code, each behind a block with all before it. -/
def landing : Nat → σ → Flow σ ρ
  | 0, s => table s
  | k + 1, s => ((landing k (clear s)).close clear).andThen (code k)

variable {clear table code} {s t u : σ} {i k d : Nat} {r : ρ}

/-- A branch out of all the blocks. -/
theorem landing_table (hs : clear s = s) (htable : table s = .br i t) (hk : k ≤ i) :
    landing clear table code k s = .br (i - k) t := by
  induction k with
  | zero => exact htable
  | succ k ih =>
    rw [landing, hs, ih (by omega), show i - k = (i - (k + 1)) + 1 by omega]
    rfl

/-- The piece of code that the table leads to branches out of the blocks around it. -/
theorem landing_br (hs : clear s = s) (htable : table s = .br i t) (hi : i < k)
    (hcode : code i (clear t) = .br (k - 1 - i + d) u) :
    landing clear table code k s = .br d u := by
  induction k generalizing d with
  | zero => exact absurd hi (Nat.not_lt_zero i)
  | succ k ih =>
    rw [landing, hs]
    rcases Nat.lt_succ_iff_lt_or_eq.1 hi with hlt | rfl
    · rw [ih hlt (d := d + 1) (by rw [hcode]; congr 1; omega)]
      rfl
    · rw [landing_table hs htable (Nat.le_refl _), Nat.sub_self]
      show code i (clear t) = _
      rw [hcode, Nat.add_sub_cancel, Nat.sub_self, Nat.zero_add]

/-- The piece of code that the table leads to is done. -/
theorem landing_done (hs : clear s = s) (htable : table s = .br i t) (hi : i < k)
    (hcode : code i (clear t) = .done r) : landing clear table code k s = .done r := by
  induction k with
  | zero => exact absurd hi (Nat.not_lt_zero i)
  | succ k ih =>
    rw [landing, hs]
    rcases Nat.lt_succ_iff_lt_or_eq.1 hi with hlt | rfl
    · rw [ih hlt]
      rfl
    · rw [landing_table hs htable (Nat.le_refl _), Nat.sub_self]
      exact hcode

end

/-! ## Loops -/

/-- So many turns of a loop; `running` is the state before the next one. -/
def loop (clear : σ → σ) (running : σ → ρ) (body : σ → Flow σ ρ) : Nat → σ → Flow σ ρ
  | 0, s => .done (running s)
  | fuel + 1, s =>
    match body s with
    | .next t => .next t
    | .br 0 t => loop clear running body fuel (clear t)
    | .br (depth + 1) t => .br depth t
    | .done r => .done r

/-- So many steps of a machine that goes on with `inl` and ends with `inr`. -/
def steps (step : α → α ⊕ β) : Nat → α → α ⊕ β
  | 0, a => .inl a
  | fuel + 1, a =>
    match step a with
    | .inl a' => steps step fuel a'
    | .inr b => .inr b

/-- A loop that is done is where the machine is: before the next turn it stands for the
    state of the machine, and left it stands for its end. -/
def Agrees (running : σ → ρ) (rel : α → σ → Prop) (ends : β → ρ → Prop) :
    α ⊕ β → Flow σ ρ → Prop
  | .inl a, flow => ∃ s, flow = .done (running s) ∧ rel a s
  | .inr b, flow => ∃ r, flow = .done r ∧ ends b r

/-- What comes after a loop that is done is not run. -/
theorem Agrees.andThen {running : σ → ρ} {rel : α → σ → Prop} {ends : β → ρ → Prop} {a : α ⊕ β}
    {flow : Flow σ ρ} (h : Agrees running rel ends a flow) (f : σ → Flow σ ρ) :
    Agrees running rel ends a (flow.andThen f) := by
  rcases a with a | b
  · obtain ⟨s, rfl, hs⟩ := h
    exact ⟨s, rfl, hs⟩
  · obtain ⟨r, rfl, hr⟩ := h
    exact ⟨r, rfl, hr⟩

theorem loop_agrees {clear : σ → σ} {running : σ → ρ} {body : σ → Flow σ ρ} {step : α → α ⊕ β}
    {rel : α → σ → Prop} {ends : β → ρ → Prop}
    (hnext : ∀ a s a', rel a s → step a = .inl a' → ∃ t, body s = .br 0 t ∧ rel a' (clear t))
    (hend : ∀ a s b, rel a s → step a = .inr b → ∃ r, body s = .done r ∧ ends b r)
    (fuel : Nat) {a : α} {s : σ} (h : rel a s) :
    Agrees running rel ends (steps step fuel a) (loop clear running body fuel s) := by
  induction fuel generalizing a s with
  | zero => exact ⟨s, rfl, h⟩
  | succ fuel ih =>
    rw [steps, loop]
    cases hstep : step a with
    | inl a' =>
      obtain ⟨t, hbody, ht⟩ := hnext a s a' h hstep
      rw [hbody]
      exact ih ht
    | inr b =>
      obtain ⟨r, hbody, hr⟩ := hend a s b h hstep
      rw [hbody]
      exact ⟨r, rfl, hr⟩

/-! ## Invariants -/

section

variable {P : σ → Prop} {Q : ρ → Prop} {flow : Flow σ ρ} {clear : σ → σ}

/-- What holds of the state, where the code goes on or branches, and of its end. -/
def Flow.Holds (P : σ → Prop) (Q : ρ → Prop) : Flow σ ρ → Prop
  | .next s => P s
  | .br _ s => P s
  | .done r => Q r

theorem Flow.Holds.andThen (h : flow.Holds P Q) {f : σ → Flow σ ρ}
    (hf : ∀ s, P s → (f s).Holds P Q) : (flow.andThen f).Holds P Q := by
  cases flow with
  | next s => exact hf s h
  | br depth s => exact h
  | done r => exact h

theorem Flow.Holds.close (h : flow.Holds P Q) (hclear : ∀ s, P s → P (clear s)) :
    (flow.close clear).Holds P Q := by
  cases flow with
  | next s => exact hclear s h
  | br depth s =>
    cases depth with
    | zero => exact hclear s h
    | succ depth => exact h
  | done r => exact h

/-- What every turn keeps holds after the loop, however many turns it takes. -/
theorem holds_loop {running : σ → ρ} {body : σ → Flow σ ρ}
    (hbody : ∀ s, P s → (body s).Holds P Q) (hclear : ∀ s, P s → P (clear s))
    (hrunning : ∀ s, P s → Q (running s)) (fuel : Nat) {s : σ} (hs : P s) :
    (loop clear running body fuel s).Holds P Q := by
  induction fuel generalizing s with
  | zero => exact hrunning s hs
  | succ fuel ih =>
    have hturn := hbody s hs
    rw [loop]
    cases hflow : body s with
    | next t =>
      rw [hflow] at hturn
      exact hturn
    | br depth t =>
      rw [hflow] at hturn
      cases depth with
      | zero => exact ih (hclear t hturn)
      | succ depth => exact hturn
    | done r =>
      rw [hflow] at hturn
      exact hturn

end

end Mirage.Labels

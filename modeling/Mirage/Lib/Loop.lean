import Mathlib.Data.List.Basic

/-!
# Loops over a counter

A loop as a compiler lays it out in blocks: a condition that tests a counter, a body that
binds an element computed from the counter and then runs, a step that advances the counter,
and an exit. The body is any computation that may also write the counter, and that may not
end at all. How it ends says where the loop goes on.

`forEach` is what such a loop is for: the body, run on the elements of a list one after the
other. The two agree when the counter passes through the elements of the list (`Visits`).

Main results:

* `Counts.of_visits`: a loop whose counter passes through a list, and whose body leaves the
  counter alone, is the loop over that list: it ends whenever its body does, with the same
  elements bound in the same order, in the same state.
* `visits_of_counts`: a loop whose body does nothing and that binds the elements of a list
  passes through them.
* `not_counts_of_rewind`: a body that sets the counter back keeps a loop from ending.
-/

namespace Mirage

/-- How a run of the body of a loop ends: at its end, with `continue`, with `break`, or by
    leaving the function the loop is in. -/
inductive BodyEnd
  | next | continue | break | leave
  deriving DecidableEq, Repr

/-- A loop over a counter `γ` that binds elements `α`, in a state `σ`. A body that does not
    end has no result. -/
structure Loop (γ α σ : Type) where
  test : γ → Bool
  element : γ → α
  advance : γ → γ
  body : γ → α → σ → Option (BodyEnd × γ × σ)

namespace Loop

/-- The blocks of a loop; `left` stands for whatever a `leave` goes to. -/
inductive Point
  | cond | body | step | exit | left
  deriving DecidableEq, Repr

/-- Where a run is, and the elements it has bound so far. -/
structure State (γ α σ : Type) where
  point : Point
  counter : γ
  rest : σ
  bound : List α

variable {γ α σ : Type} (L : Loop γ α σ)

/-- The block control reaches after a run of the body. -/
def after : BodyEnd → Point
  | .next | .continue => .step
  | .break => .exit
  | .leave => .left

/-- One block. The body is one step, which fails when the body does not end. -/
def next (s : State γ α σ) : Option (State γ α σ) :=
  match s.point with
  | .cond => some { s with point := if L.test s.counter then .body else .exit }
  | .body =>
    (L.body s.counter (L.element s.counter) s.rest).map fun r =>
      { point := after r.1, counter := r.2.1, rest := r.2.2,
        bound := s.bound ++ [L.element s.counter] }
  | .step => some { s with point := .cond, counter := L.advance s.counter }
  | .exit | .left => some s

/-- The first `n` blocks of a run. -/
def run : Nat → State γ α σ → Option (State γ α σ)
  | 0, s => some s
  | n + 1, s => (L.next s).bind (run n)

/-- What a run shows: where it is, the rest of the state and the elements bound. -/
def seen (s : State γ α σ) : Point × σ × List α := (s.point, s.rest, s.bound)

/-- The body, run on the elements of a list in order; `at` is the counter it sees. -/
def forEach (body : γ → α → σ → Option (BodyEnd × γ × σ)) (counterAt : α → γ) :
    List α → σ → Option (Point × σ × List α)
  | [], s => some (.exit, s, [])
  | x :: xs, s =>
    (body (counterAt x) x s).bind fun r =>
      match r.1 with
      | .next | .continue =>
        (forEach body counterAt xs r.2.2).map fun e => (e.1, e.2.1, x :: e.2.2)
      | .break => some (.exit, r.2.2, [x])
      | .leave => some (.left, r.2.2, [x])

/-- The loop does what `forEach` does on the list: from some number of blocks on, its run shows
    the same, and it gets no further exactly where a body that is run does not end. -/
def Counts (c : γ) (counterAt : α → γ) (xs : List α) : Prop :=
  ∀ s, ∃ n, ∀ m, n ≤ m →
    (L.run m ⟨.cond, c, s, []⟩).map seen = forEach L.body counterAt xs s

/-- A body that writes anything but the counter. -/
def KeepsCounter (body : γ → α → σ → Option (BodyEnd × γ × σ)) : Prop :=
  ∀ c x s r, body c x s = some r → r.2.1 = c

/-- The counter passes through the elements of a list, at each of which `P` holds of it. -/
def Visits (P : γ → α → Prop) : γ → List α → Prop
  | c, [] => L.test c = false
  | c, x :: xs => L.test c = true ∧ L.element c = x ∧ P c x ∧ Visits P (L.advance c) xs

/-- A body that does nothing. -/
def skip : γ → α → Unit → Option (BodyEnd × γ × Unit) := fun c _ _ => some (.next, c, ())

theorem keepsCounter_skip : KeepsCounter (skip : γ → α → Unit → _) := by
  intro c x s r h
  rw [skip, Option.some.injEq] at h
  rw [← h]

variable {L}

/-! ## Runs -/

theorem run_exit (n : Nat) (c : γ) (s : σ) (bound : List α) :
    L.run n ⟨.exit, c, s, bound⟩ = some ⟨.exit, c, s, bound⟩ := by
  induction n with
  | zero => rfl
  | succ n ih => rw [run, next, Option.bind_some, ih]

theorem run_left (n : Nat) (c : γ) (s : σ) (bound : List α) :
    L.run n ⟨.left, c, s, bound⟩ = some ⟨.left, c, s, bound⟩ := by
  induction n with
  | zero => rfl
  | succ n ih => rw [run, next, Option.bind_some, ih]

/-- A test that fails leads to the exit. -/
theorem run_cond_false {c : γ} (h : L.test c = false) (n : Nat) (s : σ) (bound : List α) :
    L.run (n + 1) ⟨.cond, c, s, bound⟩ = some ⟨.exit, c, s, bound⟩ := by
  rw [run, next, h, Option.bind_some]
  exact run_exit n c s bound

/-- A test that holds leads to the body. -/
theorem run_cond_true {c : γ} (h : L.test c = true) (n : Nat) (s : σ) (bound : List α) :
    L.run (n + 2) ⟨.cond, c, s, bound⟩ =
      (L.body c (L.element c) s).bind fun r =>
        L.run n ⟨after r.1, r.2.1, r.2.2, bound ++ [L.element c]⟩ := by
  rw [run, next, h, Option.bind_some, run, next]
  cases L.body c (L.element c) s <;> rfl

theorem run_step (n : Nat) (c : γ) (s : σ) (bound : List α) :
    L.run (n + 1) ⟨.step, c, s, bound⟩ = L.run n ⟨.cond, L.advance c, s, bound⟩ := rfl

/-! ## A loop that passes through a list -/

variable {counterAt : α → γ}

/-- The elements bound before only stand in front. -/
theorem run_of_visits (hk : KeepsCounter L.body) {c : γ} {xs : List α}
    (h : L.Visits (fun c x => c = counterAt x) c xs) (s : σ) (bound : List α) {m : Nat}
    (hm : 3 * xs.length + 1 ≤ m) :
    (L.run m ⟨.cond, c, s, bound⟩).map seen =
      (forEach L.body counterAt xs s).map fun e => (e.1, e.2.1, bound ++ e.2.2) := by
  induction xs generalizing c s bound m with
  | nil =>
    obtain ⟨m, rfl⟩ : ∃ k, m = k + 1 := ⟨m - 1, by omega⟩
    rw [run_cond_false h, forEach]
    simp [seen]
  | cons x xs ih =>
    obtain ⟨htest, hel, rfl, hrest⟩ := h
    rw [List.length_cons] at hm
    obtain ⟨m, rfl⟩ : ∃ k, m = k + 1 + 2 := ⟨m - 3, by omega⟩
    rw [run_cond_true htest, hel, forEach]
    cases hb : L.body (counterAt x) x s with
    | none => rfl
    | some r =>
      obtain ⟨o, c', s'⟩ := r
      obtain rfl : c' = counterAt x := hk _ _ _ _ hb
      rw [Option.bind_some, Option.bind_some]
      -- whether the body ends or continues, the step is next
      have hgo : (L.run (m + 1) ⟨.step, counterAt x, s', bound ++ [x]⟩).map seen =
          ((forEach L.body counterAt xs s').map fun e => (e.1, e.2.1, x :: e.2.2)).map
            fun e => (e.1, e.2.1, bound ++ e.2.2) := by
        rw [run_step, ih hrest s' _ (by omega), Option.map_map]
        simp only [Function.comp_def, List.append_assoc, List.singleton_append]
      cases o with
      | next => exact hgo
      | «continue» => exact hgo
      | «break» => rw [after, run_exit]; rfl
      | leave => rw [after, run_left]; rfl

/-- **A loop whose counter passes through a list is the loop over that list.** -/
theorem Counts.of_visits (hk : KeepsCounter L.body) {c : γ} {xs : List α}
    (h : L.Visits (fun c x => c = counterAt x) c xs) : L.Counts c counterAt xs := by
  intro s
  refine ⟨3 * xs.length + 1, fun m hm => ?_⟩
  rw [run_of_visits hk h s [] hm]
  cases forEach L.body counterAt xs s <;> rfl

/-! ## A body that writes the counter -/

theorem point_of_forEach {body : γ → α → σ → Option (BodyEnd × γ × σ)} {xs : List α} {s : σ}
    {e : Point × σ × List α} (h : forEach body counterAt xs s = some e) :
    e.1 = .exit ∨ e.1 = .left := by
  induction xs generalizing s e with
  | nil =>
    rw [forEach, Option.some.injEq] at h
    exact .inl (h ▸ rfl)
  | cons x xs ih =>
    rw [forEach] at h
    obtain ⟨⟨o, c, s'⟩, -, h⟩ := Option.bind_eq_some_iff.1 h
    cases o with
    | next | «continue» =>
      obtain ⟨e', he', rfl⟩ := Option.map_eq_some_iff.1 h
      have := ih he'
      exact this
    | «break» => exact .inl (Option.some.inj h ▸ rfl)
    | leave => exact .inr (Option.some.inj h ▸ rfl)

theorem run_rewind {c back : γ} (htest : L.test c = true) (hback : L.advance back = c) {s : σ}
    (hb : L.body c (L.element c) s = some (.next, back, s)) (n : Nat) (bound : List α) :
    ∃ t, L.run n ⟨.cond, c, s, bound⟩ = some t ∧ t.point ≠ .exit ∧ t.point ≠ .left := by
  induction n using Nat.strongRecOn generalizing bound with
  | ind n ih =>
    rcases n with - | - | - | n
    · exact ⟨_, rfl, nofun, nofun⟩
    · refine ⟨⟨.body, c, s, bound⟩, ?_, nofun, nofun⟩
      simp only [run, next, htest, if_pos, Option.bind_some]
    · refine ⟨⟨.step, back, s, bound ++ [L.element c]⟩, ?_, nofun, nofun⟩
      rw [run_cond_true htest, hb, Option.bind_some]
      rfl
    · rw [run_cond_true htest, hb, Option.bind_some, after, run_step, hback]
      exact ih n (by omega) _

/-- With a body that sets the counter back, the loop does not end. -/
theorem not_counts_of_rewind {c back : γ} (htest : L.test c = true) (hback : L.advance back = c)
    {s : σ} (hb : L.body c (L.element c) s = some (.next, back, s)) (xs : List α) :
    ¬ L.Counts c counterAt xs := by
  intro h
  obtain ⟨n, hn⟩ := h s
  obtain ⟨t, ht, hexit, hleft⟩ := run_rewind htest hback hb n []
  have hrun := hn n (Nat.le_refl n)
  rw [ht, Option.map_some] at hrun
  rcases point_of_forEach hrun.symm with h | h
  · exact hexit h
  · exact hleft h

/-! ## What a loop that counts passes through -/

variable {L : Loop γ α Unit}

theorem forEach_skip (xs : List α) : forEach skip counterAt xs () = some (.exit, (), xs) := by
  induction xs with
  | nil => rfl
  | cons x xs ih =>
    simp only [forEach, skip, Option.bind_some, ih, Option.map_some]

/-- With a body that does nothing, the elements bound are only added to. -/
theorem bound_of_run (hb : L.body = skip) {n : Nat} {s s' : State γ α Unit}
    (h : L.run n s = some s') : s.bound <+: s'.bound := by
  induction n generalizing s with
  | zero =>
    rw [run, Option.some.injEq] at h
    subst h
    exact List.prefix_rfl
  | succ n ih =>
    rw [run] at h
    obtain ⟨t, ht, h⟩ := Option.bind_eq_some_iff.1 h
    refine .trans ?_ (ih h)
    obtain ⟨p, c, u, bound⟩ := s
    cases p <;> simp only [next, hb, skip, Option.map_some, Option.some.injEq] at ht <;>
      subst ht
    case body => exact List.prefix_append _ _
    all_goals exact List.prefix_rfl

/-- A run that is at the exit after a test that holds has been through the body and the step. -/
theorem run_of_exit (hb : L.body = skip) {c : γ} (htest : L.test c = true) {bound : List α}
    {n : Nat} {t : State γ α Unit} (h : L.run n ⟨.cond, c, (), bound⟩ = some t)
    (ht : t.point = .exit) :
    ∃ m, L.run m ⟨.cond, L.advance c, (), bound ++ [L.element c]⟩ = some t := by
  rcases n with - | - | - | n
  · rw [run, Option.some.injEq] at h
    rw [← h] at ht
    exact absurd ht nofun
  · simp only [run, next, htest, if_pos, Option.bind_some, Option.some.injEq] at h
    rw [← h] at ht
    exact absurd ht nofun
  · rw [run_cond_true htest, hb, skip, Option.bind_some, run, Option.some.injEq] at h
    rw [← h] at ht
    exact absurd ht nofun
  · rw [run_cond_true htest, hb, skip, Option.bind_some] at h
    exact ⟨n, h⟩

/-- From the condition on, with the elements of the list still to come. -/
theorem visits_of_run (hb : L.body = skip) {xs : List α} {c : γ} {bound : List α} {n : Nat}
    {t : State γ α Unit} (h : L.run n ⟨.cond, c, (), bound⟩ = some t) (ht : t.point = .exit)
    (hbound : t.bound = bound ++ xs) : L.Visits (fun _ _ => True) c xs := by
  induction xs generalizing c bound n with
  | nil =>
    cases htest : L.test c with
    | false => exact htest
    | true =>
      obtain ⟨m, hm⟩ := run_of_exit hb htest h ht
      have hle := (bound_of_run hb hm).length_le
      rw [hbound, List.append_nil, List.length_append, List.length_singleton] at hle
      omega
  | cons x xs ih =>
    cases htest : L.test c with
    | false =>
      rcases n with - | n
      · rw [run, Option.some.injEq] at h
        rw [← h] at ht
        exact absurd ht nofun
      · rw [run_cond_false htest, Option.some.injEq] at h
        rw [← h] at hbound
        simp at hbound
    | true =>
      obtain ⟨m, hm⟩ := run_of_exit hb htest h ht
      have hpre := bound_of_run hb hm
      rw [hbound] at hpre
      obtain rfl : L.element c = x :=
        (List.cons_prefix_cons.1 ((List.prefix_append_right_inj _).1 hpre)).1
      exact ⟨htest, rfl, trivial, ih hm (by rw [hbound, List.append_assoc]; rfl)⟩

/-- A loop that binds the elements of a list, with a body that does nothing, passes through
    them. -/
theorem visits_of_counts (hb : L.body = skip) {c : γ} {xs : List α}
    (h : L.Counts c counterAt xs) : L.Visits (fun _ _ => True) c xs := by
  obtain ⟨n, hn⟩ := h ()
  have hrun := hn n (Nat.le_refl n)
  rw [hb, forEach_skip] at hrun
  obtain ⟨t, ht, hseen⟩ := Option.map_eq_some_iff.1 hrun
  rw [seen, Prod.mk.injEq, Prod.mk.injEq] at hseen
  exact visits_of_run hb ht hseen.1 hseen.2.2

end Loop

end Mirage

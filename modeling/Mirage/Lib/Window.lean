import Mathlib.Data.List.Basic

/-!
# Windows between a producer and its consumers

Some events of a straight sequence *set* a resource, some *spoil* it, some *read* it,
and the others have nothing to do with it. The resource `Survives` when every read
comes after a set with nothing in between that sets or spoils it.

The property speaks of all ways to split the sequence; `track` decides it in one walk
(`survives_iff`), and a concatenation is tracked part by part (`track_append`). A
read keeps the resource, so several may follow one set.
-/

namespace Mirage.Window

variable {α : Type*}

/-- What an event does with the resource. -/
inductive Role
  | sets | spoils | reads | keeps
  deriving DecidableEq

/-- The event leaves the resource as it is. -/
def Role.Passive (r : Role) : Prop := r = .reads ∨ r = .keeps

variable (role : α → Role)

/-- The last event that wrote the resource set it. -/
def Fresh (events : List α) : Prop :=
  ∃ before event after, events = before ++ event :: after ∧ role event = .sets ∧
    ∀ e ∈ after, (role e).Passive

/-- Every read comes after a set that nothing has written over. -/
def Survives (events : List α) : Prop :=
  ∀ before event after, events = before ++ event :: after → role event = .reads →
    Fresh role before

/-- The walk over the events: whether the resource is fresh at the end, or `none` when
    it was read while it was not. -/
def track : Bool → List α → Option Bool
  | fresh, [] => some fresh
  | fresh, e :: events =>
    match role e with
    | .sets => track true events
    | .spoils => track false events
    | .reads => if fresh then track true events else none
    | .keeps => track fresh events

variable {role}

theorem not_fresh_nil : ¬Fresh role [] := by
  rintro ⟨before, event, after, h, -⟩
  exact absurd h (by simp)

/-- One more event. -/
theorem fresh_concat (events : List α) (e : α) :
    Fresh role (events ++ [e]) ↔ role e = .sets ∨ (role e).Passive ∧ Fresh role events := by
  constructor
  · rintro ⟨before, event, after, h, hset, hafter⟩
    rcases List.eq_nil_or_concat after with rfl | ⟨after, last, rfl⟩
    · obtain ⟨-, hlast⟩ := List.append_inj' h rfl
      cases hlast
      exact .inl hset
    · rw [List.concat_eq_append, ← List.cons_append, ← List.append_assoc] at h
      obtain ⟨rfl, hlast⟩ := List.append_inj' h rfl
      cases hlast
      refine .inr ⟨hafter e (by simp), before, event, after, rfl, hset, fun x hx => ?_⟩
      exact hafter x (by simp [hx])
  · rintro (hset | ⟨hpassive, before, event, after, rfl, hset, hafter⟩)
    · exact ⟨events, e, [], rfl, hset, by simp⟩
    · refine ⟨before, event, after ++ [e], by simp, hset, fun x hx => ?_⟩
      rcases List.mem_append.1 hx with hx | hx
      · exact hafter x hx
      · rw [List.mem_singleton.1 hx]
        exact hpassive

/-- The walk is right after any beginning whose freshness it was told. -/
theorem track_isSome_iff (events done : List α) (fresh : Bool)
    (hfresh : fresh = true ↔ Fresh role done) :
    (track role fresh events).isSome ↔
      ∀ before event after, events = before ++ event :: after → role event = .reads →
        Fresh role (done ++ before) := by
  induction events generalizing done fresh with
  | nil => simp [track]
  | cons e events ih =>
    -- a split of the sequence is at its first event, or further on
    have hsplit : (∀ before event after, e :: events = before ++ event :: after →
        role event = .reads → Fresh role (done ++ before)) ↔
        (role e = .reads → Fresh role done) ∧
          ∀ before event after, events = before ++ event :: after → role event = .reads →
            Fresh role (done ++ [e] ++ before) := by
      constructor
      · intro h
        refine ⟨fun hr => by simpa using h [] e events rfl hr, fun before event after heq hr => ?_⟩
        rw [List.append_assoc]
        exact h (e :: before) event after (by rw [heq]; rfl) hr
      · rintro ⟨hfirst, hrest⟩ before event after heq hr
        cases before with
        | nil =>
          cases heq
          rw [List.append_nil]
          exact hfirst hr
        | cons x before =>
          cases heq
          simpa using hrest before event after rfl hr
    rw [hsplit, track]
    have hnext : Fresh role (done ++ [e]) ↔ _ := fresh_concat done e
    cases hrole : role e with
    | sets => simpa using ih (done ++ [e]) true (by simp [hnext, hrole])
    | spoils => simpa using ih (done ++ [e]) false (by simp [hnext, hrole, Role.Passive])
    | keeps => simpa using ih (done ++ [e]) fresh (by simp [hnext, hrole, Role.Passive, hfresh])
    | reads =>
      cases fresh with
      | true =>
        have hdone := hfresh.1 rfl
        simpa [hdone] using ih (done ++ [e]) true (by simp [hnext, hrole, Role.Passive, hdone])
      | false => simp [← hfresh]

/-- The resource survives exactly when the walk finds no stale read. -/
theorem survives_iff (events : List α) :
    Survives role events ↔ (track role false events).isSome := by
  simpa [Survives] using (track_isSome_iff events [] false (by simp [not_fresh_nil])).symm

theorem track_append (fresh : Bool) (l₁ l₂ : List α) :
    track role fresh (l₁ ++ l₂) = (track role fresh l₁).bind fun f => track role f l₂ := by
  induction l₁ generalizing fresh with
  | nil => rfl
  | cons e l₁ ih =>
    rw [List.cons_append, track, track]
    cases role e with
    | reads => cases fresh <;> simp [ih]
    | _ => exact ih _

/-- Events that have nothing to do with the resource. -/
theorem track_of_keeps {events : List α} (h : ∀ e ∈ events, role e = .keeps) (fresh : Bool) :
    track role fresh events = some fresh := by
  induction events with
  | nil => rfl
  | cons e events ih =>
    rw [track, h e List.mem_cons_self]
    exact ih fun x hx => h x (List.mem_cons_of_mem e hx)

end Mirage.Window

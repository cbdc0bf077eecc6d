import Mathlib.Logic.Basic

/-!
# Computations that may stop

A `Run σ ε α` is a computation on a state `σ` that emits events and either gives a result or
stops, in both cases with the state it has reached. An interpreter with a bounded
number of steps is one: it stops when the steps are used up.

A triple `Keeps C P x Q` is about the events of such a computation. A `Contract` says what may
be *assumed* of each of them and what is then *guaranteed*: if all events of a run
are as assumed, all of them are as guaranteed, *also when the run stops*, and if there is a
result the invariant and the postcondition hold. An event after which nothing can be
guaranteed any more is one that breaks the assumption.
-/

namespace Mirage

/-- A computation on a state that emits events and may stop before it has a result. -/
def Run (σ ε α : Type) := σ → Option α × σ × List ε

/-- What is assumed and guaranteed of the events, and the invariant of the states. -/
structure Contract (σ ε : Type) where
  assume : ε → Prop
  guarantee : ε → Prop
  inv : σ → Prop

namespace Run

variable {σ ε α β : Type}

protected def pure (a : α) : Run σ ε α := fun s => (some a, s, [])

protected def bind (x : Run σ ε α) (f : α → Run σ ε β) : Run σ ε β := fun s =>
  match x s with
  | (some a, s', out) => ((f a s').1, (f a s').2.1, out ++ (f a s').2.2)
  | (none, s', out) => (none, s', out)

instance : Monad (Run σ ε) where
  pure := Run.pure
  bind := Run.bind

/-- Give up. -/
def stop : Run σ ε α := fun s => (none, s, [])

def get (f : σ → α) : Run σ ε α := fun s => (some (f s), s, [])

def modify (f : σ → σ) : Run σ ε Unit := fun s => (some (), f s, [])

/-- Emit an event that depends on the state. -/
def emit (f : σ → ε) : Run σ ε Unit := fun s => (some (), s, [f s])

/-- The events of a run from a state. -/
def events (x : Run σ ε α) (s : σ) : List ε := (x s).2.2

/-! ## Triples -/

/-- What a computation keeps and establishes. -/
def Keeps (C : Contract σ ε) (P : σ → Prop) (x : Run σ ε α) (Q : α → σ → Prop) : Prop :=
  ∀ s, C.inv s → P s → (∀ ev ∈ x.events s, C.assume ev) →
    (∀ ev ∈ x.events s, C.guarantee ev) ∧
      ∀ a, (x s).1 = some a → C.inv (x s).2.1 ∧ Q a (x s).2.1

variable {C : Contract σ ε} {P P' : σ → Prop} {x : Run σ ε α} {f : α → Run σ ε β}
  {Q Q' : α → σ → Prop} {R : β → σ → Prop}

theorem Keeps.pure {a : α} (h : ∀ s, C.inv s → P s → Q a s) : Keeps C P (pure a) Q :=
  fun s hI hP _ => ⟨nofun, fun _ ha => Option.some.inj ha ▸ ⟨hI, h s hI hP⟩⟩

theorem Keeps.bind (hx : Keeps C P x Q) (hf : ∀ a, Keeps C (Q a) (f a) R) :
    Keeps C P (x >>= f) R := by
  intro s hI hP hev
  change ∀ ev ∈ (Run.bind x f s).2.2, C.assume ev at hev
  change (∀ ev ∈ (Run.bind x f s).2.2, C.guarantee ev) ∧
    ∀ b, (Run.bind x f s).1 = some b →
      C.inv (Run.bind x f s).2.1 ∧ R b (Run.bind x f s).2.1
  have hx := hx s hI hP
  rw [Run.bind] at hev ⊢
  rw [events] at hx
  generalize x s = r at hx hev ⊢
  obtain ⟨a, s', out⟩ := r
  cases a with
  | none => exact ⟨(hx hev).1, nofun⟩
  | some a =>
    obtain ⟨hg, hQ⟩ := hx fun ev h => hev ev (List.mem_append_left _ h)
    obtain ⟨hI', hQ⟩ := hQ a rfl
    obtain ⟨hg', hR⟩ := hf a s' hI' hQ fun ev h => hev ev (List.mem_append_right _ h)
    refine ⟨fun ev h => ?_, hR⟩
    rcases List.mem_append.1 h with h | h
    · exact hg ev h
    · exact hg' ev h

theorem Keeps.stop : Keeps C P (stop : Run σ ε α) Q := fun _ _ _ _ => ⟨nofun, nofun⟩

theorem Keeps.get {g : σ → α} (h : ∀ s, C.inv s → P s → Q (g s) s) : Keeps C P (get g) Q :=
  fun s hI hP _ => ⟨nofun, fun _ ha => Option.some.inj ha ▸ ⟨hI, h s hI hP⟩⟩

theorem Keeps.modify {g : σ → σ} {Q : Unit → σ → Prop} (hI : ∀ s, C.inv s → P s → C.inv (g s))
    (hQ : ∀ s, C.inv s → P s → Q () (g s)) : Keeps C P (modify g) Q :=
  fun s h hP _ => ⟨nofun, fun _ _ => ⟨hI s h hP, hQ s h hP⟩⟩

/-- An event is guaranteed where it is emitted; what is assumed of it is known after it. -/
theorem Keeps.emit {g : σ → ε} (hg : ∀ s, C.inv s → P s → C.guarantee (g s)) :
    Keeps C P (emit g) fun _ s => P s ∧ C.assume (g s) := by
  intro s hI hP hev
  have hmem : g s ∈ (Run.emit g).events s := List.mem_singleton_self _
  refine ⟨fun ev h => ?_, fun _ _ => ⟨hI, hP, hev _ hmem⟩⟩
  exact List.mem_singleton.1 h ▸ hg s hI hP

theorem Keeps.mono (h : Keeps C P' x Q') (hP : ∀ s, P s → P' s) (hQ : ∀ a s, Q' a s → Q a s) :
    Keeps C P x Q := fun s hI hs hev =>
  have ⟨hg, ha⟩ := h s hI (hP s hs) hev
  ⟨hg, fun a heq => ⟨(ha a heq).1, hQ a _ (ha a heq).2⟩⟩

/-- A triple may speak of the state before. -/
theorem Keeps.fix (h : ∀ s₀, P s₀ → Keeps C (fun s => s = s₀) x Q) : Keeps C P x Q :=
  fun s hI hP => h s hP s hI rfl

/-- A precondition that does not depend on the state. -/
theorem Keeps.of_pre {p : Prop} (h : p → Keeps C P x Q) : Keeps C (fun s => p ∧ P s) x Q :=
  fun s hI hP => h hP.1 s hI hP.2

end Run

end Mirage

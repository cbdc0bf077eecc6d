import Mathlib.Data.Set.Finite.Lattice
import Mathlib.Logic.Relation

/-!
# Recursive programs as trees of calls

A recursive function that need not terminate is given by its *step*: what it does with an
argument, where the recursive calls are left open. A `Calls α β γ` is such an open
computation, a tree whose nodes are calls with an argument `α` and whose branches are
their possible answers `β`.

`runs step n` is the function the step defines, cut off after `n` nested calls; the
function `Returns` a value when some number of nested calls is enough. As the calls of a
computation are in the open, the facts about recursion are proved once, for every
step: a value once returned stays the same with more calls (`runs_mono`), and what all
calls keep holds of every call that is ever made (`Reaches.keeps`).
-/

namespace Mirage

/-- A computation with open recursive calls. -/
inductive Calls (α β γ : Type)
  | ret (c : γ)
  | ask (a : α) (k : β → Calls α β γ)

namespace Calls

variable {α β γ δ : Type}

protected def bind : Calls α β γ → (γ → Calls α β δ) → Calls α β δ
  | .ret c, f => f c
  | .ask a k, f => .ask a fun b => (k b).bind f

instance : Monad (Calls α β) where
  pure := .ret
  bind := Calls.bind

/-- A recursive call. -/
def call (a : α) : Calls α β β := .ask a .ret

/-- The computation, with a function that answers the calls. -/
def eval (answer : α → Option β) : Calls α β γ → Option γ
  | .ret c => some c
  | .ask a k => answer a >>= fun b => (k b).eval answer

/-- The function a step defines, cut off after a number of nested calls. -/
def runs (step : α → Calls α β β) : Nat → α → Option β
  | 0, _ => none
  | n + 1, a => (step a).eval (runs step n)

/-! ## What a function returns -/

theorem eval_mono {f g : α → Option β} (h : ∀ a b, f a = some b → g a = some b) {t : Calls α β γ}
    {c : γ} (ht : t.eval f = some c) : t.eval g = some c := by
  induction t with
  | ret c => exact ht
  | ask a k ih =>
    obtain ⟨b, hb, hk⟩ := Option.bind_eq_some_iff.1 ht
    exact Option.bind_eq_some_iff.2 ⟨b, h a b hb, ih b hk⟩

section

variable {step : α → Calls α β β} {a : α} {b : β} {n n' : Nat}

theorem runs_succ (h : runs step n a = some b) : runs step (n + 1) a = some b := by
  induction n generalizing a b with
  | zero => cases h
  | succ n ih => exact eval_mono (fun _ _ => ih) h

/-- A value that is returned is returned with more nested calls. -/
theorem runs_mono (hn : n ≤ n') (h : runs step n a = some b) : runs step n' a = some b := by
  induction hn with
  | refl => exact h
  | step _ ih => exact runs_succ ih

/-- The function returns the value. -/
def Returns (step : α → Calls α β β) (a : α) (b : β) : Prop := ∃ n, runs step n a = some b

/-- The open computation gives the value when its calls are answered by the function. -/
def Evals (step : α → Calls α β β) (t : Calls α β γ) (c : γ) : Prop :=
  ∃ n, t.eval (runs step n) = some c

theorem Returns.unique {b' : β} (h : Returns step a b) (h' : Returns step a b') : b = b' := by
  obtain ⟨n, hn⟩ := h
  obtain ⟨n', hn'⟩ := h'
  have h1 := runs_mono (Nat.le_max_left n n') hn
  have h2 := runs_mono (Nat.le_max_right n n') hn'
  exact Option.some.inj (h1.symm.trans h2)

theorem returns_iff : Returns step a b ↔ Evals step (step a) b := by
  constructor
  · rintro ⟨n, hn⟩
    cases n with
    | zero => cases hn
    | succ n => exact ⟨n, hn⟩
  · rintro ⟨n, hn⟩
    exact ⟨n + 1, hn⟩

theorem evals_ret {c d : γ} : Evals step (.ret c) d ↔ c = d :=
  ⟨fun ⟨_, h⟩ => Option.some.inj h, fun h => ⟨0, congrArg some h⟩⟩

theorem evals_ask {k : β → Calls α β γ} {c : γ} :
    Evals step (.ask a k) c ↔ ∃ b, Returns step a b ∧ Evals step (k b) c := by
  constructor
  · rintro ⟨n, hn⟩
    obtain ⟨b, hb, hk⟩ := Option.bind_eq_some_iff.1 hn
    exact ⟨b, ⟨n, hb⟩, n, hk⟩
  · rintro ⟨b, ⟨n, hb⟩, n', hk⟩
    refine ⟨max n n', Option.bind_eq_some_iff.2 ⟨b, runs_mono (Nat.le_max_left _ _) hb, ?_⟩⟩
    exact eval_mono (fun _ _ => runs_mono (Nat.le_max_right n n')) hk

@[simp]
theorem evals_pure {c d : γ} : Evals step (pure c) d ↔ c = d := evals_ret

@[simp]
theorem evals_call : Evals step (call a) b ↔ Returns step a b := by
  rw [call, evals_ask]
  simp only [evals_ret, exists_eq_right]

@[simp]
theorem evals_bind {t : Calls α β γ} {f : γ → Calls α β δ} {d : δ} :
    Evals step (t >>= f) d ↔ ∃ c, Evals step t c ∧ Evals step (f c) d := by
  show Evals step (Calls.bind t f) d ↔ _
  induction t with
  | ret c => simp only [Calls.bind, evals_ret, exists_eq_left']
  | ask a k ih =>
    simp only [Calls.bind, evals_ask, ih]
    constructor
    · rintro ⟨b, hb, c, hk, hf⟩
      exact ⟨c, ⟨b, hb, hk⟩, hf⟩
    · rintro ⟨c, ⟨b, hb, hk⟩, hf⟩
      exact ⟨b, hb, c, hk, hf⟩

theorem Evals.unique {t : Calls α β γ} {c c' : γ} (h : Evals step t c) (h' : Evals step t c') :
    c = c' := by
  obtain ⟨n, hn⟩ := h
  obtain ⟨n', hn'⟩ := h'
  have h1 := eval_mono (fun _ _ => runs_mono (Nat.le_max_left n n')) hn
  have h2 := eval_mono (fun _ _ => runs_mono (Nat.le_max_right n n')) hn'
  exact Option.some.inj (h1.symm.trans h2)

/-- The open computation gives the value when its calls are answered as the relation allows. -/
inductive EvalsBy (R : α → β → Prop) : Calls α β γ → γ → Prop
  | ret (c : γ) : EvalsBy R (.ret c) c
  | ask {a : α} {b : β} {k : β → Calls α β γ} {c : γ} (hb : R a b) (h : EvalsBy R (k b) c) :
    EvalsBy R (.ask a k) c

theorem evalsBy_pure {R : α → β → Prop} {c d : γ} : EvalsBy R (pure c) d ↔ c = d := by
  constructor
  · rintro ⟨⟩
    rfl
  · rintro rfl
    exact .ret c

theorem evalsBy_call {R : α → β → Prop} : EvalsBy R (call a) b ↔ R a b := by
  constructor
  · intro h
    obtain _ | ⟨hb, h⟩ := (h : EvalsBy R (.ask a .ret) b)
    cases h
    exact hb
  · exact fun h => .ask h (.ret b)

theorem evalsBy_bind {R : α → β → Prop} {t : Calls α β γ} {f : γ → Calls α β δ} {d : δ} :
    EvalsBy R (t >>= f) d ↔ ∃ c, EvalsBy R t c ∧ EvalsBy R (f c) d := by
  show EvalsBy R (Calls.bind t f) d ↔ _
  constructor
  · intro h
    induction t with
    | ret c => exact ⟨c, .ret c, h⟩
    | ask a k ih =>
      obtain _ | ⟨hb, h⟩ := h
      obtain ⟨c, hc, hd⟩ := ih _ h
      exact ⟨c, .ask hb hc, hd⟩
  · rintro ⟨c, hc, hd⟩
    induction hc with
    | ret c => exact hd
    | ask hb _ ih => exact .ask hb (ih hd)

theorem EvalsBy.mono {R R' : α → β → Prop} (h : ∀ a b, R a b → R' a b) {t : Calls α β γ}
    {c : γ} (ht : EvalsBy R t c) : EvalsBy R' t c := by
  induction ht with
  | ret c => exact .ret c
  | ask hb _ ih => exact .ask (h _ _ hb) ih

theorem EvalsBy.evals {R : α → β → Prop} (h : ∀ a b, R a b → Returns step a b)
    {t : Calls α β γ} {c : γ} (ht : EvalsBy R t c) : Evals step t c := by
  induction ht with
  | ret c => exact evals_ret.2 rfl
  | ask hb _ ih => exact evals_ask.2 ⟨_, h _ _ hb, ih⟩

theorem evalsBy_of_eval {R : α → β → Prop} {answer : α → Option β}
    (h : ∀ a b, answer a = some b → R a b) {t : Calls α β γ} {c : γ}
    (ht : t.eval answer = some c) : EvalsBy R t c := by
  induction t with
  | ret d => exact Option.some.inj ht ▸ .ret d
  | ask a k ih =>
    obtain ⟨b, hb, hk⟩ := Option.bind_eq_some_iff.1 ht
    exact .ask (h a b hb) (ih b hk)

/-- Induction over the calls behind a returned value. -/
theorem Returns.induct {Q : α → β → Prop}
    (hstep : ∀ a b, EvalsBy (fun a b => Returns step a b ∧ Q a b) (step a) b → Q a b)
    (h : Returns step a b) : Q a b := by
  obtain ⟨n, hn⟩ := h
  induction n generalizing a b with
  | zero => cases hn
  | succ n ih => exact hstep a b (evalsBy_of_eval (fun a b h => ⟨⟨n, h⟩, ih h⟩) hn)

/-! ## Total correctness -/

/-- The open computation ends, with a value as required. -/
def Ends (step : α → Calls α β β) (t : Calls α β γ) (Q : γ → Prop) : Prop :=
  ∃ c, Evals step t c ∧ Q c

theorem Ends.pure {Q : γ → Prop} {c : γ} (h : Q c) : Ends step (Pure.pure c) Q :=
  ⟨c, evals_pure.2 rfl, h⟩

/-- A call ends as its step does. -/
theorem Ends.call {Q : β → Prop} (h : Ends step (step a) Q) : Ends step (Calls.call a) Q := by
  obtain ⟨b, hb, hQ⟩ := h
  exact ⟨b, evals_call.2 (returns_iff.2 hb), hQ⟩

theorem Ends.bind {Q : γ → Prop} {R : δ → Prop} {t : Calls α β γ} {f : γ → Calls α β δ}
    (ht : Ends step t Q) (hf : ∀ c, Q c → Ends step (f c) R) : Ends step (t >>= f) R := by
  obtain ⟨c, hc, hQ⟩ := ht
  obtain ⟨d, hd, hR⟩ := hf c hQ
  exact ⟨d, evals_bind.2 ⟨c, hc, hd⟩, hR⟩

theorem Ends.mono {Q R : γ → Prop} {t : Calls α β γ} (ht : Ends step t Q) (h : ∀ c, Q c → R c) :
    Ends step t R := by
  obtain ⟨c, hc, hQ⟩ := ht
  exact ⟨c, hc, h c hQ⟩

theorem Ends.returns {Q : β → Prop} (h : Ends step (Calls.call a) Q) :
    ∃ b, Returns step a b ∧ Q b := by
  obtain ⟨b, hb, hQ⟩ := h
  exact ⟨b, evals_call.1 hb, hQ⟩

/-! ## Partial correctness -/

/-- Every value the open computation gives is as required. -/
def Only (step : α → Calls α β β) (t : Calls α β γ) (Q : γ → Prop) : Prop :=
  ∀ c, Evals step t c → Q c

theorem Only.pure {Q : γ → Prop} {c : γ} (h : Q c) : Only step (Pure.pure c) Q :=
  fun _ hd => evals_pure.1 hd ▸ h

theorem Only.call {Q : β → Prop} (h : Only step (step a) Q) : Only step (Calls.call a) Q :=
  fun b hb => h b (returns_iff.1 (evals_call.1 hb))

theorem Only.bind {Q : γ → Prop} {R : δ → Prop} {t : Calls α β γ} {f : γ → Calls α β δ}
    (ht : Only step t Q) (hf : ∀ c, Q c → Only step (f c) R) : Only step (t >>= f) R := by
  intro d hd
  obtain ⟨c, hc, hd⟩ := evals_bind.1 hd
  exact hf c (ht c hc) d hd

theorem Only.any {t : Calls α β γ} : Only step t fun _ => True := fun _ _ => trivial

/-! ## Which calls are made -/

/-- Every call of the computation, whatever the answers are, is one of the given. -/
def Within (S : α → Prop) : Calls α β γ → Prop
  | .ret _ => True
  | .ask a k => S a ∧ ∀ b, (k b).Within S

theorem within_pure {S : α → Prop} {c : γ} : (pure c : Calls α β γ).Within S := trivial

theorem within_call {S : α → Prop} (h : S a) : (call a : Calls α β β).Within S :=
  ⟨h, fun _ => trivial⟩

/-- Every result of the computation, whatever the answers are, is one of the given. -/
def Leaves (Q : γ → Prop) : Calls α β γ → Prop
  | .ret c => Q c
  | .ask _ k => ∀ b, (k b).Leaves Q

theorem leaves_pure {Q : γ → Prop} {c : γ} (h : Q c) : (pure c : Calls α β γ).Leaves Q := h

theorem Leaves.bind {Q : γ → Prop} {R : δ → Prop} {t : Calls α β γ} {f : γ → Calls α β δ}
    (ht : t.Leaves Q) (hf : ∀ c, Q c → (f c).Leaves R) : (t >>= f).Leaves R := by
  show (Calls.bind t f).Leaves R
  induction t with
  | ret c => exact hf c ht
  | ask a k ih => exact fun b => ih b (ht b)

theorem leaves_true {t : Calls α β γ} : t.Leaves fun _ => True := by
  induction t with
  | ret c => trivial
  | ask a k ih => exact ih

theorem Within.bind_leaves {S : α → Prop} {Q : γ → Prop} {t : Calls α β γ}
    {f : γ → Calls α β δ} (ht : t.Within S) (hQ : t.Leaves Q) (hf : ∀ c, Q c → (f c).Within S) :
    (t >>= f).Within S := by
  show (Calls.bind t f).Within S
  induction t with
  | ret c => exact hf c hQ
  | ask a k ih => exact ⟨ht.1, fun b => ih b (ht.2 b) (hQ b)⟩

theorem Within.bind {S : α → Prop} {t : Calls α β γ} {f : γ → Calls α β δ} (ht : t.Within S)
    (hf : ∀ c, (f c).Within S) : (t >>= f).Within S :=
  ht.bind_leaves leaves_true fun c _ => hf c

theorem Within.mono {S S' : α → Prop} {t : Calls α β γ} (ht : t.Within S)
    (h : ∀ a, S a → S' a) : t.Within S' := by
  induction t with
  | ret c => trivial
  | ask a k ih => exact ⟨h a ht.1, fun b => ih b (ht.2 b)⟩

/-- Two steps that agree on the arguments their calls stay within define one function
    there. -/
theorem runs_congr {step' : α → Calls α β β} {S : α → Prop} (h : ∀ a, S a → step' a = step a)
    (hw : ∀ a, S a → (step a).Within S) (n : Nat) (a : α) (ha : S a) :
    runs step' n a = runs step n a := by
  induction n generalizing a with
  | zero => rfl
  | succ n ih =>
    have heval : ∀ t : Calls α β β, t.Within S → t.eval (runs step' n) = t.eval (runs step n) := by
      intro t ht
      induction t with
      | ret c => rfl
      | ask b k ihk =>
        simp only [eval, ih b ht.1]
        exact bind_congr fun c => ihk c (ht.2 c)
    rw [runs, runs, h a ha]
    exact heval _ (hw a ha)

/-- The computation with its calls changed. -/
def mapCalls (f : α → α) : Calls α β γ → Calls α β γ
  | .ret c => .ret c
  | .ask a k => .ask (f a) fun b => (k b).mapCalls f

theorem mapCalls_of_within {f : α → α} {S : α → Prop} (h : ∀ a, S a → f a = a)
    {t : Calls α β γ} (ht : t.Within S) : t.mapCalls f = t := by
  induction t with
  | ret c => rfl
  | ask a k ih =>
    rw [mapCalls, h a ht.1]
    exact congrArg (Calls.ask a) (funext fun b => ih b (ht.2 b))

/-- A computation whose calls all return gives a value. -/
theorem exists_evals {S : α → Prop} (hS : ∀ a, S a → ∃ b, Returns step a b) {t : Calls α β γ}
    (ht : t.Within S) : ∃ c, Evals step t c := by
  induction t with
  | ret c => exact ⟨c, evals_ret.2 rfl⟩
  | ask a k ih =>
    obtain ⟨b, hb⟩ := hS a ht.1
    obtain ⟨c, hc⟩ := ih b (ht.2 b)
    exact ⟨c, evals_ask.2 ⟨b, hb, hc⟩⟩

/-- The call is made while the computation is evaluated. -/
inductive Asks (step : α → Calls α β β) : Calls α β γ → α → Prop
  | here (a : α) (k : β → Calls α β γ) : Asks step (.ask a k) a
  | later {a : α} {b : β} {k : β → Calls α β γ} {c : α} (hb : Returns step a b)
      (h : Asks step (k b) c) : Asks step (.ask a k) c

/-- The call is made, directly or not, while the function runs on an argument. -/
def Reaches (step : α → Calls α β β) : α → α → Prop :=
  Relation.ReflTransGen fun a c => Asks step (step a) c

theorem Within.asks {S : α → Prop} {t : Calls α β γ} {c : α} (ht : t.Within S)
    (h : Asks step t c) : S c := by
  induction h with
  | here a k => exact ht.1
  | later _ _ ih => exact ih (ht.2 _)

/-- A computation gives a value where the calls that are made return. -/
theorem evals_of_asks {t : Calls α β γ} (h : ∀ c, Asks step t c → ∃ b, Returns step c b) :
    ∃ c, Evals step t c := by
  induction t with
  | ret c => exact ⟨c, evals_ret.2 rfl⟩
  | ask a k ih =>
    obtain ⟨b, hb⟩ := h a (.here a k)
    obtain ⟨c, hc⟩ := ih b fun c hc => h c (.later hb hc)
    exact ⟨c, evals_ask.2 ⟨b, hb, hc⟩⟩

/-- A function returns where no sequence of nested calls is endless. -/
theorem returns_of_acc_asks (h : Acc (fun c a => Asks step (step a) c) a) :
    ∃ b, Returns step a b := by
  induction h with
  | intro a _ ih =>
    obtain ⟨b, hb⟩ := evals_of_asks ih
    exact ⟨b, returns_iff.2 hb⟩

/-- The calls that are made, directly or not, while a computation is evaluated. -/
def Comes (step : α → Calls α β β) (t : Calls α β γ) (c : α) : Prop :=
  ∃ a, Asks step t a ∧ Reaches step a c

theorem Comes.asks {t : Calls α β γ} {c d : α} (h : Comes step t c) (hd : Asks step (step c) d) :
    Comes step t d := by
  obtain ⟨a, ha, hc⟩ := h
  exact ⟨a, ha, hc.tail hd⟩

theorem asks_ask {k : β → Calls α β γ} {c : α} (hb : Returns step a b) :
    Asks step (.ask a k) c ↔ c = a ∨ Asks step (k b) c := by
  constructor
  · rintro (⟨_, _⟩ | ⟨hb', h⟩)
    · exact .inl rfl
    · rw [hb.unique hb']
      exact .inr h
  · rintro (rfl | h)
    · exact .here _ _
    · exact .later hb h

theorem finite_comes_of_evalsBy {t : Calls α β γ} {c : γ}
    (h : EvalsBy (fun a b => Returns step a b ∧ {d | Reaches step a d}.Finite) t c) :
    {d | Comes step t d}.Finite := by
  induction h with
  | ret c =>
    refine Set.finite_empty.subset ?_
    rintro d ⟨a, ha, _⟩
    cases ha
  | ask hb _ ih =>
    refine (hb.2.union ih).subset ?_
    rintro d ⟨a, ha, hd⟩
    obtain rfl | ha := (asks_ask hb.1).1 ha
    · exact .inl hd
    · exact .inr ⟨a, ha, hd⟩

/-- A function that returns makes finitely many calls. -/
theorem Returns.finite (h : Returns step a b) : {d | Reaches step a d}.Finite := by
  refine Returns.induct (Q := fun a _ => {d | Reaches step a d}.Finite) ?_ h
  intro a b hb
  refine ((Set.finite_singleton a).union (finite_comes_of_evalsBy hb)).subset ?_
  intro d hd
  obtain rfl | ⟨c, hc, hd⟩ := hd.cases_head
  · exact .inl rfl
  · exact .inr ⟨c, hc, hd⟩

theorem Evals.finite {t : Calls α β γ} {c : γ} (h : Evals step t c) :
    {d | Comes step t d}.Finite := by
  obtain ⟨n, hn⟩ := h
  exact finite_comes_of_evalsBy (evalsBy_of_eval (fun _ _ h => ⟨⟨n, h⟩, Returns.finite ⟨n, h⟩⟩) hn)

/-- What every step passes on to its calls holds of every call that is made. -/
theorem Reaches.keeps {I : α → Prop} (hstep : ∀ a, I a → (step a).Within I) {c : α}
    (h : Reaches step a c) (ha : I a) : I c := by
  induction h with
  | refl => exact ha
  | tail _ hask ih => exact (hstep _ ih).asks hask

end

/-! ## Computations with a state

A step whose arguments and values carry a state is given by a computation in `StateT`: the
state goes into every call and comes back with the answer. -/

/-- A computation with open calls that have an argument `α` and an answer `β`, and a state. -/
abbrev Stateful (α σ β γ : Type) := StateT σ (Calls (α × σ) (β × σ)) γ

namespace Stateful

variable {σ : Type}

/-- A recursive call, in the present state. -/
def ask (a : α) : Stateful α σ β β := fun s => call (a, s)

/-- The step of a function whose computations are given. -/
def step (body : α → Stateful α σ β β) : α × σ → Calls (α × σ) (β × σ) (β × σ)
  | (a, s) => body a s

/-- Every call of the computation, whatever the state and the answers are, is one of the given. -/
def Makes (S : α → Prop) (x : Stateful α σ β γ) : Prop := ∀ s, (x s).Within fun r => S r.1

section

variable {S : α → Prop}

theorem makes_pure {c : γ} : Makes S (pure c : Stateful α σ β γ) := fun _ => within_pure

theorem makes_get : Makes S (get : Stateful α σ β σ) := fun _ => within_pure

theorem makes_modify {f : σ → σ} : Makes S (modify f : Stateful α σ β PUnit) := fun _ => within_pure

theorem makes_ask {a : α} (h : S a) : Makes S (ask a : Stateful α σ β β) := fun _ => within_call h

theorem Makes.bind {x : Stateful α σ β γ} {f : γ → Stateful α σ β δ} (hx : Makes S x)
    (hf : ∀ c, Makes S (f c)) : Makes S (x >>= f) :=
  fun s => (hx s).bind fun c => hf c.1 c.2

theorem Makes.mono {S' : α → Prop} {x : Stateful α σ β γ} (hx : Makes S x)
    (h : ∀ a, S a → S' a) : Makes S' x := fun s => (hx s).mono fun r => h r.1

end

/-- What the computation gives from the states before it, its calls answered as the relation
    allows. -/
def Triple (R : α × σ → β × σ → Prop) (p : σ → Prop) (x : Stateful α σ β γ)
    (q : γ → σ → Prop) : Prop :=
  ∀ s, p s → ∀ c s', EvalsBy R (x s) (c, s') → q c s'

section

variable {R : α × σ → β × σ → Prop} {p : σ → Prop}

theorem triple_pure {c : γ} {q : γ → σ → Prop} (h : ∀ s, p s → q c s) :
    Triple R p (pure c : Stateful α σ β γ) q := by
  intro s hs d s' hd
  cases evalsBy_pure.1 hd
  exact h s hs

theorem triple_get {q : σ → σ → Prop} (h : ∀ s, p s → q s s) :
    Triple R p (get : Stateful α σ β σ) q := by
  intro s hs d s' hd
  cases evalsBy_pure.1 hd
  exact h s hs

theorem triple_modify {f : σ → σ} {q : PUnit → σ → Prop} (h : ∀ s, p s → q ⟨⟩ (f s)) :
    Triple R p (modify f : Stateful α σ β PUnit) q := by
  intro s hs d s' hd
  cases evalsBy_pure.1 hd
  exact h s hs

theorem triple_ask {a : α} {q : β → σ → Prop} (h : ∀ s, p s → ∀ b s', R (a, s) (b, s') → q b s') :
    Triple R p (ask a : Stateful α σ β β) q :=
  fun s hs b s' hb => h s hs b s' (evalsBy_call.1 hb)

theorem Triple.bind {x : Stateful α σ β γ} {f : γ → Stateful α σ β δ} {q : γ → σ → Prop}
    {r : δ → σ → Prop} (hx : Triple R p x q) (hf : ∀ c, Triple R (q c) (f c) r) :
    Triple R p (x >>= f) r := by
  intro s hs d s' hd
  obtain ⟨⟨c, s₁⟩, hc, hd⟩ := evalsBy_bind.1 hd
  exact hf c s₁ (hx s hs c s₁ hc) d s' hd

theorem Triple.mono {x : Stateful α σ β γ} {p' : σ → Prop} {q q' : γ → σ → Prop}
    (hx : Triple R p x q) (hp : ∀ s, p' s → p s) (hq : ∀ c s, q c s → q' c s) :
    Triple R p' x q' :=
  fun s hs c s' hc => hq c s' (hx s (hp s hs) c s' hc)

end

/-- The rule of recursive functions: what the step gives when the calls satisfy their
    specification, the function gives. -/
theorem spec_of_step {body : α → Stateful α σ β β} {p : α → σ → Prop}
    {q : α → σ → β → σ → Prop}
    (h : ∀ a s₀, p a s₀ → Triple
      (fun r b => p r.1 r.2 → q r.1 r.2 b.1 b.2) (· = s₀) (body a) (q a s₀))
    {a : α} {s s' : σ} {b : β} (hret : Returns (step body) (a, s) (b, s')) (hs : p a s) :
    q a s b s' := by
  refine Returns.induct (Q := fun r b => p r.1 r.2 → q r.1 r.2 b.1 b.2) ?_ hret hs
  intro ⟨a, s⟩ ⟨b, s'⟩ hb hs
  refine h a s hs s rfl b s' (hb.mono fun _ _ h => h.2)

end Stateful

end Calls

end Mirage

import Mathlib.Data.List.Basic

/-!
# The first match

A list of cases, each a key and a target, sends a value to the target of the first case
whose key has that value, and to a default when there is none (`target`). The keys may be
read in two ways: each stands for a value `val k`, and a search compares with an image
`img k` of it. A case is *kept* when both agree, and *lost* otherwise.

The two searches agree on a domain exactly when the lost cases are `Harmless`
(`target_eq_iff_harmless`): the first case for a value that is lost, and the first one
for an image that is lost, must go where the kept cases send this value. It is enough
that no value of the domain is both the image of a lost case and the value of one.
-/

namespace Mirage.FirstMatch

variable {κ ξ β : Type*} [DecidableEq ξ]

/-- The first case that the reading `m` of the keys finds for `x`. -/
def first (m : κ → ξ) (cases : List (κ × β)) (x : ξ) : Option (κ × β) :=
  cases.find? fun c => m c.1 = x

/-- Where the cases send `x`. -/
def target (m : κ → ξ) (cases : List (κ × β)) (default : β) (x : ξ) : β :=
  ((first m cases x).map (·.2)).getD default

variable {val img m : κ → ξ} {cases : List (κ × β)} {default : β} {x : ξ} {k : κ} {b : β}

@[simp] theorem target_nil : target m [] default x = default := rfl

theorem target_cons : target m ((k, b) :: cases) default x =
    if m k = x then b else target m cases default x := by
  rw [target, first, List.find?_cons]
  by_cases h : m k = x <;> simp [h, target, first]

/-- The cases send a value to the target of one of them, or to the default. -/
theorem target_eq_or_mem (m : κ → ξ) (cases : List (κ × β)) (default : β) (x : ξ) :
    target m cases default x = default ∨ target m cases default x ∈ cases.map Prod.snd := by
  induction cases with
  | nil => exact .inl rfl
  | cons c cases ih =>
    rw [target_cons, List.map_cons, List.mem_cons]
    split_ifs
    · exact .inr (.inl rfl)
    · exact ih.imp_right .inr

theorem target_of_first (h : first m cases x = some (k, b)) : target m cases default x = b := by
  rw [target, h]
  rfl

theorem target_of_none (h : first m cases x = none) : target m cases default x = default := by
  rw [target, h]
  rfl

theorem eq_of_first (h : first m cases x = some (k, b)) : m k = x := by
  simpa using List.find?_some h

/-- A stronger test finds the same element, if it holds of it. -/
theorem find?_of_imp {α : Type*} {p q : α → Bool} {l : List α} {a : α} (h : l.find? p = some a)
    (hq : q a = true) (hqp : ∀ c, q c = true → p c = true) : l.find? q = some a := by
  obtain ⟨-, before, after, rfl, hbefore⟩ := List.find?_eq_some_iff_append.1 h
  refine List.find?_eq_some_iff_append.2 ⟨hq, before, after, rfl, fun c hc => ?_⟩
  have hp := hbefore c hc
  cases hqc : q c with
  | false => rfl
  | true => rw [hqp c hqc] at hp; cases hp

variable (val img cases default) in
/-- Where the kept cases send `x`. -/
def keptTarget (x : ξ) : β :=
  target val (cases.filter fun c => img c.1 = val c.1) default x

/-- A search whose reading of the kept cases is the value goes where the kept cases do,
    unless the case it finds is a lost one with another target. -/
theorem target_eq_keptTarget_iff (hm : ∀ k, img k = val k → m k = val k) :
    target m cases default x = keptTarget val img cases default x ↔
      ∀ k b, first m cases x = some (k, b) → img k ≠ val k →
        b = keptTarget val img cases default x := by
  have hkept : first val (cases.filter fun c => img c.1 = val c.1) x =
      cases.find? fun c => img c.1 = val c.1 && val c.1 = x := by
    simp [first, List.find?_filter]
  cases hfirst : first m cases x with
  | none =>
    refine iff_of_true ?_ (by simp)
    rw [target_of_none hfirst, keptTarget, target_of_none]
    rw [hkept, List.find?_eq_none]
    intro c hc h
    simp only [Bool.and_eq_true, decide_eq_true_eq] at h
    have hno := List.find?_eq_none.1 hfirst c hc
    exact hno (by simpa [h.2] using hm c.1 h.1)
  | some c =>
    obtain ⟨k, b⟩ := c
    have hk : m k = x := eq_of_first hfirst
    rw [target_of_first hfirst]
    by_cases h : img k = val k
    · refine iff_of_true ?_ fun k' b' heq hlost => ?_
      · rw [keptTarget, target_of_first]
        rw [hkept]
        refine find?_of_imp hfirst (by simp [h, ← hk, hm k h]) fun c hc => ?_
        simp only [Bool.and_eq_true, decide_eq_true_eq] at hc
        simpa [hc.2] using hm c.1 hc.1
      · cases heq
        exact absurd h hlost
    · exact ⟨fun hb k' b' heq _ => by cases heq; exact hb, fun hb => hb k b rfl h⟩

variable (D : ξ → Prop) (val img cases default) in
/-- The lost cases do not matter on the domain. -/
structure Harmless : Prop where
  /-- The first case for its value. -/
  lost : ∀ k b, first val cases (val k) = some (k, b) → img k ≠ val k →
    b = keptTarget val img cases default (val k)
  /-- The first case for its image. -/
  stray : ∀ k b, first img cases (img k) = some (k, b) → img k ≠ val k → D (img k) →
    b = keptTarget val img cases default (img k)

/-- The search by images is right on the whole domain exactly when the lost cases are
    harmless. -/
theorem target_eq_iff_harmless {D : ξ → Prop} (hD : ∀ k, D (val k))
    (hsep : ∀ x, D x → (∀ k, img k = x → img k = val k) ∨ ∀ k, val k = x → img k = val k) :
    (∀ x, D x → target img cases default x = target val cases default x) ↔
      Harmless val img cases default D := by
  have hval : ∀ x, target val cases default x = keptTarget val img cases default x ↔ _ :=
    fun x => target_eq_keptTarget_iff (m := val) fun _ _ => rfl
  have himg : ∀ x, target img cases default x = keptTarget val img cases default x ↔ _ :=
    fun x => target_eq_keptTarget_iff (m := img) fun _ h => h
  constructor
  · intro h
    -- one of the two searches finds no lost case, so that both go where the kept ones do
    have hboth : ∀ x, D x → target val cases default x = keptTarget val img cases default x ∧
        target img cases default x = keptTarget val img cases default x := by
      intro x hx
      rcases hsep x hx with hkeep | hkeep
      · have hi := (himg x).2 fun k b hf hlost => absurd (hkeep k (eq_of_first hf)) hlost
        exact ⟨(h x hx).symm.trans hi, hi⟩
      · have hv := (hval x).2 fun k b hf hlost => absurd (hkeep k (eq_of_first hf)) hlost
        exact ⟨hv, (h x hx).trans hv⟩
    exact ⟨fun k b hf hlost => (hval _).1 (hboth _ (hD k)).1 k b hf hlost,
      fun k b hf hlost hx => (himg _).1 (hboth _ hx).2 k b hf hlost⟩
  · intro h x hx
    have hv : target val cases default x = keptTarget val img cases default x :=
      (hval x).2 fun k b hf hlost => by
        obtain rfl := eq_of_first hf
        exact h.lost k b hf hlost
    have hi : target img cases default x = keptTarget val img cases default x :=
      (himg x).2 fun k b hf hlost => by
        obtain rfl := eq_of_first hf
        exact h.stray k b hf hlost hx
    rw [hv, hi]

end Mirage.FirstMatch

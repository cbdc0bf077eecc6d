import Mathlib.Data.List.Basic
import Mathlib.Control.Basic

/-!
# Readers

A *reader* takes a value off the front of a list of symbols and hands back the
symbols after it, or fails (`Reader`). What makes a reader the inverse of a
writer is that it takes exactly what was written and nothing of what follows,
whatever follows (`Reads`); this is the form that composes, since a format is a
concatenation of the formats of its parts.

A format with optional fields does not read the same before everything: a field
is absent when the next symbol is not its tag, so what follows has to begin with
something else (`ReadsField`). Fields with ascending tags chain.

* `Reads.bind`, `Reads.times`, `Reads.within`: the parts of a format in sequence, a
  counted repetition, and a part with its length in front;
* `ReadsField.optional_present`, `ReadsField.optional_absent`: an optional field that
  is there, and one that is not;
* `ReadsField.bind`: a field and then the fields after it.
-/

namespace Mirage

variable {β α γ : Type}

/-- A reader of values of type `α` from the front of a list of symbols. -/
abbrev Reader (β : Type) := StateT (List β) Option

namespace Reader

/-- The next symbol. -/
def item : Reader β β
  | [] => none
  | b :: rest => some (b, rest)

/-- The next symbol, which has to be `b`. -/
def token [DecidableEq β] (b : β) : Reader β Unit := do
  let c ← item
  if c = b then pure () else failure

/-- The values of an optional result, failing on `none`. -/
def ofOption : Option α → Reader β α
  | none => fun _ => none
  | some x => pure x

/-- The next `n` symbols. -/
def takeExactly (n : Nat) : Reader β (List β) := fun bs =>
  if n ≤ bs.length then some (bs.take n, bs.drop n) else none

/-- Everything that is left. -/
def remaining : Reader β (List β) := fun bs => some (bs, [])

/-- `n` values read by `p`, in order. -/
def times : Nat → Reader β α → Reader β (List α)
  | 0, _ => pure []
  | n + 1, p => do
    let x ← p
    let xs ← times n p
    pure (x :: xs)

/-- The value `p` reads from all of a list. -/
def parse (p : Reader β α) (bs : List β) : Option α :=
  match p bs with
  | some (x, []) => some x
  | _ => none

/-- The next `n` symbols, all of which `p` has to read. -/
def within (n : Nat) (p : Reader β α) : Reader β α := do
  let bs ← takeExactly n
  ofOption (parse p bs)

/-- A field that is there when the next symbol is its tag. -/
def optional [DecidableEq β] (tag : β) (p : Reader β α) (absent : α) : Reader β α
  | [] => some (absent, [])
  | b :: rest => if b = tag then p rest else some (absent, b :: rest)

end Reader

open Reader

/-- `p` reads `x` from `bs` and leaves what follows, whatever follows. -/
def Reads (p : Reader β α) (bs : List β) (x : α) : Prop :=
  ∀ rest, p (bs ++ rest) = some (x, rest)

namespace Reads

variable {p : Reader β α} {f : α → Reader β γ} {bs cs : List β} {x : α} {y : γ}

/-- Reading nothing gives the value at once. -/
theorem pure (x : α) : Reads (Pure.pure x : Reader β α) [] x := fun _ => rfl

/-- A part, and then the part whose format may depend on its value. -/
theorem bind (hp : Reads p bs x) (hf : Reads (f x) cs y) : Reads (p >>= f) (bs ++ cs) y := by
  intro rest
  show (p (bs ++ cs ++ rest)).bind (fun r => f r.1 r.2) = _
  rw [List.append_assoc, hp (cs ++ rest)]
  exact hf rest

/-- A part whose value goes through a function. -/
theorem bind_pure {g : α → γ} (hp : Reads p bs x) :
    Reads (p >>= fun x => Pure.pure (g x)) bs (g x) := by
  have h := hp.bind (f := fun x => Pure.pure (g x)) (Reads.pure (g x))
  rwa [List.append_nil] at h

/-- Only the symbols matter, not how they were put together. -/
theorem of_eq (hp : Reads p bs x) (h : cs = bs) : Reads p cs x := h ▸ hp

/-- The next symbol is read. -/
theorem item (b : β) : Reads Reader.item [b] b := fun _ => rfl

/-- A symbol that has to be there is read. -/
theorem token [DecidableEq β] (b : β) : Reads (Reader.token b) [b] () := by
  intro rest
  show (if b = b then _ else _ : Reader β Unit) rest = _
  rw [if_pos rfl]
  rfl

/-- A value that is there is read from nothing. -/
theorem ofOption {o : Option α} (h : o = some x) : Reads (Reader.ofOption o : Reader β α) [] x := by
  subst h
  exact Reads.pure x

/-- As many symbols as there are. -/
theorem takeExactly (bs : List β) : Reads (Reader.takeExactly bs.length) bs bs := by
  intro rest
  rw [Reader.takeExactly, if_pos (by rw [List.length_append]; omega), List.take_left,
    List.drop_left]

/-- A counted repetition: each value is read from what was written for it. -/
theorem times {ι : Type} {write : ι → List β} {value : ι → α} :
    ∀ xs : List ι, (∀ i ∈ xs, Reads p (write i) (value i)) →
      Reads (Reader.times xs.length p) (xs.flatMap write) (xs.map value)
  | [], _ => Reads.pure []
  | i :: xs, h => by
    have hi := h i List.mem_cons_self
    have hxs := times xs fun j hj => h j (List.mem_cons_of_mem _ hj)
    exact hi.bind hxs.bind_pure

/-- What reads, reads to the end when nothing follows. -/
theorem parse_eq (hp : Reads p bs x) : parse p bs = some x := by
  have h := hp []
  rw [List.append_nil] at h
  rw [parse, h]

/-- A part and then one that reads all that is left. -/
theorem bind_rest (hp : Reads p bs x) (hf : f x cs = some (y, [])) :
    parse (p >>= f) (bs ++ cs) = some y := by
  have h : (p >>= f) (bs ++ cs) = some (y, []) := by
    show (p (bs ++ cs)).bind (fun r => f r.1 r.2) = _
    rw [hp cs]
    exact hf
  rw [parse, h]

/-- A part with its length in front. -/
theorem within (h : parse p bs = some x) : Reads (Reader.within bs.length p) bs x := by
  have h := (Reads.takeExactly bs).bind (f := fun bs => Reader.ofOption (parse p bs))
    (Reads.ofOption h)
  rwa [List.append_nil] at h

end Reads

/-- What comes next, if anything, begins with a symbol in `s`. -/
def Follows (s : β → Prop) (rest : List β) : Prop := ∀ b ∈ rest.head?, s b

/-- `p` reads `x` from `bs` before anything that begins in `after`, and what it reads
    begins, with what follows, in `first`. -/
structure ReadsField (first after : β → Prop) (p : Reader β α) (bs : List β) (x : α) : Prop where
  reads : ∀ rest, Follows after rest → p (bs ++ rest) = some (x, rest)
  begins : ∀ rest, Follows after rest → Follows first (bs ++ rest)

namespace ReadsField

variable {first after before last : β → Prop} {p : Reader β α} {f : α → Reader β γ}
  {bs cs : List β} {x : α} {y : γ}

/-- A field and then the fields after it. -/
theorem bind (hp : ReadsField first after p bs x) (hf : ReadsField before last (f x) cs y)
    (h : ∀ b, before b → after b) : ReadsField first last (p >>= f) (bs ++ cs) y := by
  have hnext : ∀ rest, Follows last rest → Follows after (cs ++ rest) := fun rest hr b hb =>
    h b (hf.begins rest hr b hb)
  refine ⟨fun rest hr => ?_, fun rest hr => ?_⟩
  · show (p (bs ++ cs ++ rest)).bind (fun r => f r.1 r.2) = _
    rw [List.append_assoc, hp.reads (cs ++ rest) (hnext rest hr)]
    exact hf.reads rest hr
  · rw [List.append_assoc]
    exact hp.begins (cs ++ rest) (hnext rest hr)

/-- The last field, whose value goes through a function. -/
theorem bind_pure {g : α → γ} (hp : ReadsField first after p bs x) :
    ReadsField first after (p >>= fun x => Pure.pure (g x)) bs (g x) := by
  refine ⟨fun rest hr => ?_, hp.begins⟩
  show (p (bs ++ rest)).bind (fun r => (Pure.pure (g r.1) : Reader β γ) r.2) = _
  rw [hp.reads rest hr]
  rfl

/-- An optional field that is there. -/
theorem optional_present [DecidableEq β] {tag : β} {absent : α} (hp : Reads p bs x)
    (htag : first tag) : ReadsField first after (optional tag p absent) (tag :: bs) x := by
  refine ⟨fun rest _ => ?_, fun rest _ b hb => ?_⟩
  · show (if tag = tag then p (bs ++ rest) else _) = _
    rw [if_pos rfl, hp rest]
  · obtain rfl : tag = b := by simpa using hb
    exact htag

/-- An optional field that is not there: what follows begins with another tag. -/
theorem optional_absent [DecidableEq β] {tag : β} {absent : α} (htag : ¬ after tag)
    (h : ∀ b, after b → first b) : ReadsField first after (optional tag p absent) [] absent := by
  refine ⟨fun rest hr => ?_, fun rest hr b hb => h b (hr b hb)⟩
  rcases rest with _ | ⟨b, rest⟩
  · rfl
  · have hne : b ≠ tag := fun he => htag (he ▸ hr b rfl)
    show (if b = tag then _ else some (absent, b :: rest)) = _
    rw [if_neg hne]

/-- All the fields read to the end. -/
theorem parse_eq (hp : ReadsField first after p bs x) : parse p bs = some x := by
  have h := hp.reads [] fun b hb => by simp at hb
  rw [List.append_nil] at h
  rw [parse, h]

end ReadsField

end Mirage

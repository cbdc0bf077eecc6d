import Mirage.Lib.Loop
import Mirage.Lib.Width
import Mirage.Mir.Basic

/-!
# For-in loops

`for i, x in a..b` and `for i, x in xs`, as they are lowered to blocks. The counter of both runs
at the width of a pointer. A range converts its bounds to that width, in the sign of the type of
the bounds, compares the counter in that sign, and converts it back to the type of the bounds at
each turn; an array or a slice compares it unsigned with the number of elements, and binds the
element at its address.

The body of the loop is a parameter: any computation that reads and writes a state and may also
write the slot of the counter, since the name `i` is bound to that slot. The program cannot
assign to `i`, but it can take its address.

Main results:

* `range_counts_iff`: a loop over a range binds the values from the lower bound up to the upper
  bound, exclusive, for every body that leaves the counter alone, exactly when the bounds are
  *represented* at the width of a pointer. They always are when their type is no wider
  (`represented_of_le`).
* `elements_count_iff`: a loop over an array or a slice visits every index once exactly when the
  number of elements is represented; that of a slice always is.
* `for_in_counts_iff`: both.
* `rewind_never_counts`: a body that sets the counter back through its address.
* `long_range_empty`: a loop over `0..4294967296` of `u64` binds nothing on a 32-bit target.
-/

namespace Mirage.Mirgen

/-! ## Types and conversions -/

/-- The integer types of the language. -/
inductive IntKind
  | u8 | u16 | u32 | u64 | i8 | i16 | i32 | i64 | usize
  deriving DecidableEq, Repr

def usizeTy (pointerBits : Nat) : Ty := if pointerBits = 64 then .i64 else .i32

def scalarType (pointerBits : Nat) : IntKind → Ty
  | .u8 | .i8 => .i8
  | .u16 | .i16 => .i16
  | .u32 | .i32 => .i32
  | .u64 | .i64 => .i64
  | .usize => usizeTy pointerBits

def signedType : IntKind → Bool
  | .i8 | .i16 | .i32 | .i64 => true
  | _ => false

/-- The instructions that make a value of one type one of another, each with the type of its
    result: none when the types are the same. -/
def coerceTo (pointerBits : Nat) (source target : Ty) (sourceIsSigned : Bool) : List (Op × Ty) :=
  let fromBits := typeBits source pointerBits
  let toBits := typeBits target pointerBits
  if source = target ∨ target = .void then []
  else if isInteger source && isInteger target then
    if toBits < fromBits then [(.trunc, target)]
    else [(if sourceIsSigned && source != .i1 then .sext else .zext, target)]
  else if isFloat source && isFloat target then
    [(if toBits < fromBits then .fptrunc else .fpext, target)]
  else if isInteger source && target == .ptr then [(.intToPtr, target)]
  else if source == .ptr && isInteger target then [(.ptrToInt, target)]
  else if isInteger source && isFloat target then
    (if source == .i1 then [(.zext, .i32)] else []) ++
      [(if sourceIsSigned && source != .i1 then .sitofp else .uitofp, target)]
  else if isFloat source && isInteger target then
    [(if sourceIsSigned then .fptosi else .fptoui, target)]
  else [(.bitcast, target)]

/-- A value of a type. -/
abbrev Value (pointerBits : Nat) (type : Ty) := BitVec (typeBits type pointerBits)

/-- The meaning of an integer conversion: `sext` repeats the sign, `trunc` and `zext` drop and
    add high bits. -/
def convert {n : Nat} (op : Op) (x : BitVec n) (m : Nat) : BitVec m :=
  if op = .sext then x.signExtend m else x.setWidth m

/-- An integer, converted to another integer type. -/
def coerce (pointerBits : Nat) {source : Ty} (target : Ty) (sourceIsSigned : Bool)
    (x : Value pointerBits source) : Value pointerBits target :=
  match coerceTo pointerBits source target sourceIsSigned with
  | (op, _) :: _ => convert op x _
  | [] => x.setWidth _

/-- The meaning of the two comparisons of a loop. -/
def compare {n : Nat} (op : Op) (x y : BitVec n) : Bool :=
  if op = .icmpSlt then x.slt y else x.ult y

/-! ## The loops -/

/-- The counter of a loop, and an address. -/
abbrev Word (pointerBits : Nat) := Value pointerBits (usizeTy pointerBits)

/-- A value of one of the integer types. -/
abbrev IntValue (pointerBits : Nat) (kind : IntKind) :=
  Value pointerBits (scalarType pointerBits kind)

variable (pointerBits : Nat)

/-- The counter before the first turn; without a lower bound, zero. -/
def rangeStart (kind : IntKind) (lower : Option (IntValue pointerBits kind)) : Word pointerBits :=
  coerce pointerBits (usizeTy pointerBits) (signedType kind) (lower.getD 0)

/-- The loop over a range. -/
def emitForInRange (kind : IntKind) (upper : IntValue pointerBits kind) {σ : Type}
    (body : Word pointerBits → IntValue pointerBits kind → σ →
      Option (BodyEnd × Word pointerBits × σ)) :
    Loop (Word pointerBits) (IntValue pointerBits kind) σ where
  test i :=
    compare (if signedType kind then .icmpSlt else .icmpUlt) i
      (coerce pointerBits (usizeTy pointerBits) (signedType kind) upper)
  element i := coerce pointerBits (scalarType pointerBits kind) (signedType kind) i
  advance i := i + 1
  body := body

/-- What a loop other than over a range runs over: an array at an address, whose number of
    elements its type says, or a slice, the two words of a pointer and a length. -/
inductive Iterable
  | array (data : Word pointerBits) (count : BitVec 64)
  | slice (data length : Word pointerBits)

namespace Iterable

variable {pointerBits}

def data : Iterable pointerBits → Word pointerBits
  | .array data _ => data
  | .slice data _ => data

/-- The operand the counter is compared with: a constant, or the loaded length. -/
def count : Iterable pointerBits → Word pointerBits
  | .array _ count => count.setWidth _
  | .slice _ length => length

/-- The number of elements. -/
def length : Iterable pointerBits → Nat
  | .array _ count => count.toNat
  | .slice _ length => length.toNat

/-- The address of an element. -/
def address (it : Iterable pointerBits) (elementSize : Nat) (i : Word pointerBits) :
    Word pointerBits := it.data + i * BitVec.ofNat _ elementSize

end Iterable

/-- The loop over an array or a slice. An element is an index and an address, and `bind` puts
    what the name of the element is bound to in its slot: the address, a copy of an aggregate,
    or the scalar loaded from it. -/
def emitForIn (it : Iterable pointerBits) (elementSize : Nat) {σ : Type}
    (bind : Word pointerBits → σ → σ)
    (body : Word pointerBits → σ → Option (BodyEnd × Word pointerBits × σ)) :
    Loop (Word pointerBits) (Word pointerBits × Word pointerBits) σ where
  test i := compare .icmpUlt i it.count
  element i := (i, it.address elementSize i)
  advance i := i + 1
  body i x s := body i (bind x.2 s)

/-! ## What the loops are for -/

variable {pointerBits}

/-- The number a bit pattern stands for, in a sign. -/
def number (signed : Bool) {n : Nat} (x : BitVec n) : Int := if signed then x.toInt else x.toNat

/-- The values `lower, lower + 1, …, upper - 1` of a type; none unless `lower < upper`. -/
def rangeValues (kind : IntKind) (lower upper : IntValue pointerBits kind) :
    List (IntValue pointerBits kind) :=
  (List.range (number (signedType kind) upper - number (signedType kind) lower).toNat).map
    fun k => lower + BitVec.ofNat _ k

/-- The value at the width of a pointer. -/
abbrev atWord (kind : IntKind) (x : IntValue pointerBits kind) : Word pointerBits :=
  coerce pointerBits (usizeTy pointerBits) (signedType kind) x

/-- The loop over a range binds the values of the range in order, for every body that leaves
    the counter alone, and ends whenever the body does. -/
def RangeCounts (kind : IntKind) (lower : Option (IntValue pointerBits kind))
    (upper : IntValue pointerBits kind) : Prop :=
  ∀ (σ : Type) (body : Word pointerBits → IntValue pointerBits kind → σ →
      Option (BodyEnd × Word pointerBits × σ)), Loop.KeepsCounter body →
    (emitForInRange pointerBits kind upper body).Counts (rangeStart pointerBits kind lower)
      (atWord kind) (rangeValues kind (lower.getD 0) upper)

/-- The indices of the elements and their addresses. -/
def Iterable.elements (it : Iterable pointerBits) (elementSize : Nat) :
    List (Word pointerBits × Word pointerBits) :=
  (List.range it.length).map fun k =>
    (BitVec.ofNat _ k, it.address elementSize (BitVec.ofNat _ k))

/-- The loop over an array or a slice visits every index once, in order, for every body that
    leaves the counter alone, and ends whenever the body does. -/
def ElementsCount (it : Iterable pointerBits) (elementSize : Nat) : Prop :=
  ∀ (σ : Type) (bind : Word pointerBits → σ → σ)
    (body : Word pointerBits → σ → Option (BodyEnd × Word pointerBits × σ)),
    Loop.KeepsCounter (emitForIn pointerBits it elementSize bind body).body →
    (emitForIn pointerBits it elementSize bind body).Counts 0 Prod.fst (it.elements elementSize)

/-- The bounds stand for the same numbers at the width of a pointer; where there is nothing to
    bind, it is enough that there is nothing to bind there either. -/
def Represented (kind : IntKind) (lower upper : IntValue pointerBits kind) : Prop :=
  if number (signedType kind) lower < number (signedType kind) upper then
    number (signedType kind) (atWord kind lower) = number (signedType kind) lower ∧
      number (signedType kind) (atWord kind upper) = number (signedType kind) upper
  else number (signedType kind) (atWord kind upper) ≤ number (signedType kind) (atWord kind lower)

instance (kind : IntKind) (lower upper : IntValue pointerBits kind) :
    Decidable (Represented kind lower upper) :=
  if h : number (signedType kind) lower < number (signedType kind) upper then
    decidable_of_iff (_ ∧ _) (by rw [Represented, if_pos h])
  else decidable_of_iff (_ ≤ _) (by rw [Represented, if_neg h])

/-! ## Numbers -/

section Numbers

variable {n m : Nat} {signed : Bool}

theorem number_inj {x y : BitVec n} (h : number signed x = number signed y) : x = y := by
  cases signed with
  | true => exact BitVec.eq_of_toInt_eq h
  | false => exact BitVec.eq_of_toNat_eq (Int.ofNat_inj.1 h)

theorem compare_iff (signed : Bool) {x y : BitVec n} :
    compare (if signed then .icmpSlt else .icmpUlt) x y = true ↔
      number signed x < number signed y := by
  cases signed with
  | true => exact BitVec.slt_iff_toInt_lt
  | false => exact BitVec.ult_iff_lt.trans (BitVec.lt_def.trans Int.ofNat_lt.symm)

/-- Below another number of its type a number has a successor. -/
theorem number_add_one {x y : BitVec n} (h : number signed x < number signed y) :
    number signed (x + 1) = number signed x + 1 := by
  cases signed with
  | true =>
    have hy : y.toInt < 2 ^ (n - 1) := BitVec.toInt_lt
    have hx : -2 ^ (n - 1) ≤ x.toInt := BitVec.le_toInt x
    change x.toInt < y.toInt at h
    change (x + 1).toInt = x.toInt + 1
    rcases n with - | - | n
    · rw [BitVec.eq_nil x, BitVec.eq_nil y] at h
      exact absurd h (lt_irrefl _)
    · have h1 : (1 : BitVec 1).toInt = -1 := rfl
      simp only [Nat.zero_add, Nat.sub_self, pow_zero] at hx hy
      rw [BitVec.toInt_add, h1, show x.toInt = -1 by omega]
      rfl
    · have hpow : (2 : Int) ^ (n + 2) = 2 * 2 ^ (n + 1) := by rw [pow_succ, mul_comm]
      have hpow' : (2 : Int) ^ (n + 1) = 2 * 2 ^ n := by rw [pow_succ, mul_comm]
      have hpos : (0 : Int) < 2 ^ n := Int.pow_pos (by omega)
      have h1 : (1 : BitVec (n + 2)).toInt = 1 := BitVec.toInt_one (by omega)
      rw [show n + 1 + 1 - 1 = n + 1 from rfl] at hx hy
      rw [BitVec.toInt_add, h1]
      apply Int.bmod_eq_of_le
      · push_cast
        omega
      · push_cast
        omega
  | false =>
    have hy := y.isLt
    change (x.toNat : Int) < y.toNat at h
    change ((x + 1).toNat : Int) = x.toNat + 1
    rw [BitVec.toNat_add]
    rcases n with - | n
    · rw [BitVec.eq_nil x, BitVec.eq_nil y] at h
      exact absurd h (lt_irrefl _)
    · have h1 : (1 : BitVec (n + 1)).toNat = 1 := by simp
      rw [h1, Nat.mod_eq_of_lt (by omega)]
      push_cast
      rfl

theorem number_signExtend (x : BitVec n) (h : n ≤ m) :
    number true (x.signExtend m) = number true x := BitVec.toInt_signExtend_of_le h

theorem number_setWidth (x : BitVec n) (h : n ≤ m) :
    number false (x.setWidth m) = number false x :=
  congrArg Int.ofNat (BitVec.toNat_setWidth_of_le h)

/-- Dropping high bits finds the pattern of a number back in a narrower type. -/
theorem setWidth_eq_of_number {x : BitVec n} {y : BitVec m} (h : m ≤ n)
    (hxy : number signed x = number signed y) : x.setWidth m = y := by
  cases signed with
  | true =>
    change x.toInt = y.toInt at hxy
    apply BitVec.eq_of_toInt_eq
    rw [← BitVec.signExtend_eq_setWidth_of_le x h, BitVec.toInt_signExtend, hxy,
      Nat.min_eq_left h, BitVec.toInt_bmod_cancel]
  | false =>
    have hxy : x.toNat = y.toNat := Int.ofNat_inj.1 hxy
    apply BitVec.eq_of_toNat_eq
    rw [BitVec.toNat_setWidth, hxy, Nat.mod_eq_of_lt y.isLt]

end Numbers

/-! ## Conversions -/

section Conversions

variable {source target : Ty} {signed : Bool}

/-- The types a loop converts between. -/
def IsWide (type : Ty) : Prop := isInteger type = true ∧ type ≠ .i1

theorem isWide_scalarType (kind : IntKind) : IsWide (scalarType pointerBits kind) := by
  cases kind <;> simp only [scalarType, usizeTy] <;> try split_ifs
  all_goals exact ⟨rfl, nofun⟩

theorem isWide_usizeTy : IsWide (usizeTy pointerBits) := isWide_scalarType .usize

/-- The three ways an integer is converted. -/
theorem coerce_eq (hs : IsWide source) (ht : IsWide target) (x : Value pointerBits source) :
    coerce pointerBits target signed x =
      if source ≠ target ∧ typeBits source pointerBits ≤ typeBits target pointerBits ∧ signed
      then x.signExtend _ else x.setWidth _ := by
  obtain ⟨hs, hs1⟩ := hs
  obtain ⟨ht, ht1⟩ := ht
  have hv : target ≠ .void := by rintro rfl; cases ht
  by_cases heq : source = target
  · simp only [coerce, coerceTo, heq, ne_eq, not_true_eq_false, false_and, true_or, if_true,
      if_false]
  · by_cases hlt : typeBits target pointerBits < typeBits source pointerBits
    · simp [coerce, coerceTo, heq, hv, hs, ht, hlt, convert]
    · cases signed <;>
        simp [coerce, coerceTo, heq, hv, hs, ht, hlt, convert, hs1, Nat.le_of_not_lt hlt]

/-- A wider type has the same numbers. -/
theorem number_coerce (signed : Bool) (hs : IsWide source) (ht : IsWide target)
    (h : typeBits source pointerBits ≤ typeBits target pointerBits)
    (x : Value pointerBits source) :
    number signed (coerce pointerBits target signed x) = number signed x := by
  rw [coerce_eq hs ht]
  by_cases heq : source = target
  · subst heq
    rw [if_neg fun hc => hc.1 rfl, BitVec.setWidth_eq]
  · cases signed with
    | true => rw [if_pos ⟨heq, h, rfl⟩, number_signExtend x h]
    | false => rw [if_neg fun hc => Bool.noConfusion hc.2.2, number_setWidth x h]

/-- A conversion finds the pattern of a number in the other type, if it has one there. -/
theorem coerce_eq_of_number (hs : IsWide source) (ht : IsWide target)
    {x : Value pointerBits source} {y : Value pointerBits target}
    (h : number signed x = number signed y) : coerce pointerBits target signed x = y := by
  rcases Nat.le_total (typeBits source pointerBits) (typeBits target pointerBits) with hle | hle
  · exact number_inj ((number_coerce signed hs ht hle x).trans h)
  · rw [coerce_eq hs ht]
    split_ifs with hc
    · have heq := Nat.le_antisymm hc.2.1 hle
      rw [BitVec.signExtend_eq_setWidth_of_le x hle, setWidth_eq_of_number hle h]
    · exact setWidth_eq_of_number hle h

end Conversions

/-! ## Ranges -/

section Ranges

variable {kind : IntKind} {lower upper : IntValue pointerBits kind}

theorem rangeValues_of_lt (h : number (signedType kind) lower < number (signedType kind) upper) :
    rangeValues kind lower upper = lower :: rangeValues kind (lower + 1) upper := by
  rw [rangeValues, rangeValues, number_add_one h]
  obtain ⟨n, hn⟩ : ∃ n : Nat, number (signedType kind) upper - number (signedType kind) lower =
      n + 1 := ⟨(number (signedType kind) upper - number (signedType kind) lower - 1).toNat, by omega⟩
  rw [show (number (signedType kind) upper - number (signedType kind) lower).toNat = n + 1 by omega,
    show (number (signedType kind) upper - (number (signedType kind) lower + 1)).toNat = n by omega,
    List.range_succ_eq_map, List.map_cons, List.map_map]
  congr 1
  · exact BitVec.add_zero _
  · refine List.map_congr_left fun k _ => ?_
    rw [Function.comp_apply, Nat.succ_eq_add_one, Nat.add_comm, BitVec.ofNat_add, BitVec.add_assoc]
    rfl

theorem rangeValues_of_le (h : number (signedType kind) upper ≤ number (signedType kind) lower) :
    rangeValues kind lower upper = [] := by
  rw [rangeValues, show (number (signedType kind) upper - number (signedType kind) lower).toNat = 0
    by omega]
  rfl

theorem length_rangeValues : (rangeValues kind lower upper).length =
    (number (signedType kind) upper - number (signedType kind) lower).toNat := by
  rw [rangeValues, List.length_map, List.length_range]

variable {σ : Type} {body : Word pointerBits → IntValue pointerBits kind → σ →
  Option (BodyEnd × Word pointerBits × σ)}

theorem test_range_iff {i : Word pointerBits} :
    (emitForInRange pointerBits kind upper body).test i = true ↔
      number (signedType kind) i < number (signedType kind) (atWord kind upper) := compare_iff _

theorem test_range_eq_false {i : Word pointerBits}
    (h : number (signedType kind) (atWord kind upper) ≤ number (signedType kind) i) :
    (emitForInRange pointerBits kind upper body).test i = false :=
  Bool.eq_false_iff.2 fun ht => absurd (test_range_iff.1 ht) (not_lt.2 h)

/-- A counter that stands for the number of the lower bound passes through the values. -/
theorem visits_range
    (hu : number (signedType kind) (atWord kind upper) = number (signedType kind) upper)
    {i : Word pointerBits} (hi : number (signedType kind) i = number (signedType kind) lower) :
    (emitForInRange pointerBits kind upper body).Visits (fun c x => c = atWord kind x) i
      (rangeValues kind lower upper) := by
  induction hn : (number (signedType kind) upper - number (signedType kind) lower).toNat
    generalizing lower i with
  | zero =>
    rw [rangeValues_of_le (by omega)]
    exact test_range_eq_false (by omega)
  | succ n ih =>
    have hlt : number (signedType kind) lower < number (signedType kind) upper := by omega
    have htest : number (signedType kind) i < number (signedType kind) (atWord kind upper) := by
      omega
    rw [rangeValues_of_lt hlt]
    refine ⟨test_range_iff.2 htest, ?_, ?_, ?_⟩
    · exact coerce_eq_of_number isWide_usizeTy (isWide_scalarType kind) hi
    · exact (coerce_eq_of_number (isWide_scalarType kind) isWide_usizeTy hi.symm).symm
    · refine ih (i := i + 1) ?_ ?_
      · rw [number_add_one htest, number_add_one hlt, hi]
      · rw [number_add_one hlt]
        omega

/-- What a loop over a range passes through is as long as its counter needs to the bound. -/
theorem length_of_visits_range {i : Word pointerBits} {xs : List (IntValue pointerBits kind)}
    (h : (emitForInRange pointerBits kind upper body).Visits (fun _ _ => True) i xs) :
    xs.length =
      (number (signedType kind) (atWord kind upper) - number (signedType kind) i).toNat := by
  induction xs generalizing i with
  | nil =>
    have := (not_congr test_range_iff).1 (Bool.eq_false_iff.1 h)
    rw [List.length_nil]
    omega
  | cons x xs ih =>
    obtain ⟨htest, -, -, hrest⟩ := h
    have hlt := test_range_iff.1 htest
    have hlen := ih hrest
    change _ = (_ - number (signedType kind) (i + 1)).toNat at hlen
    rw [number_add_one hlt] at hlen
    rw [List.length_cons, hlen]
    omega

theorem represented_of_visits
    (h : (emitForInRange pointerBits kind upper body).Visits (fun _ _ => True) (atWord kind lower)
      (rangeValues kind lower upper)) : Represented kind lower upper := by
  have hlen := length_of_visits_range h
  rw [length_rangeValues] at hlen
  by_cases hlt : number (signedType kind) lower < number (signedType kind) upper
  · rw [rangeValues_of_lt hlt] at h
    obtain ⟨-, hel, -, -⟩ := h
    have hl : number (signedType kind) (atWord kind lower) = number (signedType kind) lower := by
      rcases Nat.le_total (typeBits (scalarType pointerBits kind) pointerBits)
        (typeBits (usizeTy pointerBits) pointerBits) with hle | hle
      · exact number_coerce _ (isWide_scalarType kind) isWide_usizeTy hle lower
      · have := number_coerce (signedType kind) isWide_usizeTy (isWide_scalarType kind) hle
          (atWord kind lower)
        rw [← this]
        exact congrArg (number _) hel
    rw [Represented, if_pos hlt]
    exact ⟨hl, by omega⟩
  · rw [Represented, if_neg hlt]
    omega

/-- **A loop over a range counts exactly when its bounds are represented.** -/
theorem range_counts_iff (kind : IntKind) (lower : Option (IntValue pointerBits kind))
    (upper : IntValue pointerBits kind) :
    RangeCounts kind lower upper ↔ Represented kind (lower.getD 0) upper := by
  constructor
  · intro h
    have hc := h Unit _ Loop.keepsCounter_skip
    exact represented_of_visits (Loop.visits_of_counts rfl hc)
  · intro h σ body hk
    refine Loop.Counts.of_visits hk ?_
    by_cases hlt : number (signedType kind) (lower.getD 0) < number (signedType kind) upper
    · rw [Represented, if_pos hlt] at h
      exact visits_range h.2 h.1
    · rw [Represented, if_neg hlt] at h
      rw [rangeValues_of_le (not_lt.1 hlt)]
      exact test_range_eq_false h

/-- The bounds of a range are represented when their type is no wider than a pointer. -/
theorem represented_of_le
    (h : typeBits (scalarType pointerBits kind) pointerBits ≤
      typeBits (usizeTy pointerBits) pointerBits)
    (lower upper : IntValue pointerBits kind) : Represented kind lower upper := by
  have hnum := number_coerce (signedType kind) (isWide_scalarType kind) isWide_usizeTy h
  rw [Represented]
  split_ifs with hlt
  · exact ⟨hnum lower, hnum upper⟩
  · exact (hnum upper).trans_le ((not_lt.1 hlt).trans_eq (hnum lower).symm)

/-- A body that writes the counter through its address can keep a loop over a range from ending,
    however many values the range has. -/
theorem rewind_never_counts
    (hlt : number (signedType kind) (atWord kind lower) <
      number (signedType kind) (atWord kind upper)) :
    ¬ (emitForInRange pointerBits kind upper
        fun _ _ (_ : Unit) => some (.next, atWord kind lower - 1, ())).Counts
      (atWord kind lower) (atWord kind) (rangeValues kind lower upper) :=
  Loop.not_counts_of_rewind (test_range_iff.2 hlt) (BitVec.sub_add_cancel _ 1) (s := ()) rfl _

end Ranges

/-! ## Arrays and slices -/

section Elements

variable {it : Iterable pointerBits} {elementSize : Nat} {σ : Type}
  {bind : Word pointerBits → σ → σ}
  {body : Word pointerBits → σ → Option (BodyEnd × Word pointerBits × σ)}

theorem test_elements_iff {i : Word pointerBits} :
    (emitForIn pointerBits it elementSize bind body).test i = true ↔ i.toNat < it.count.toNat :=
  (compare_iff false).trans Int.ofNat_lt

theorem toNat_add_one {i : Word pointerBits} (h : i.toNat < it.count.toNat) :
    (i + 1).toNat = i.toNat + 1 :=
  have hlt : number false i < number false it.count := Int.ofNat_lt.2 h
  Int.ofNat_inj.1 (number_add_one hlt)

theorem visits_elements {i : Word pointerBits} (n : Nat) (h : i.toNat + n = it.count.toNat) :
    (emitForIn pointerBits it elementSize bind body).Visits (fun c x => c = x.1) i
      ((List.range' i.toNat n).map fun k =>
        (BitVec.ofNat _ k, it.address elementSize (BitVec.ofNat _ k))) := by
  induction n generalizing i with
  | zero => exact Bool.eq_false_iff.2 fun ht => absurd (test_elements_iff.1 ht) (by omega)
  | succ n ih =>
    have hlt : i.toNat < it.count.toNat := by omega
    have hone := toNat_add_one hlt
    rw [List.range'_succ, List.map_cons]
    refine ⟨test_elements_iff.2 hlt, ?_, ?_, ?_⟩
    · rw [BitVec.ofNat_toNat, BitVec.setWidth_eq]
      rfl
    · rw [BitVec.ofNat_toNat, BitVec.setWidth_eq]
    · have := ih (i := i + 1) (by omega)
      rw [hone] at this
      exact this

theorem length_of_visits_elements {i : Word pointerBits}
    {xs : List (Word pointerBits × Word pointerBits)}
    (h : (emitForIn pointerBits it elementSize bind body).Visits (fun _ _ => True) i xs) :
    xs.length = it.count.toNat - i.toNat := by
  induction xs generalizing i with
  | nil =>
    have := (not_congr test_elements_iff).1 (Bool.eq_false_iff.1 h)
    rw [List.length_nil]
    omega
  | cons x xs ih =>
    obtain ⟨htest, -, -, hrest⟩ := h
    have hlt := test_elements_iff.1 htest
    have hlen := ih hrest
    change _ = _ - (i + 1).toNat at hlen
    rw [toNat_add_one hlt] at hlen
    rw [List.length_cons, hlen]
    omega

theorem length_elements : (it.elements elementSize).length = it.length := by
  rw [Iterable.elements, List.length_map, List.length_range]

theorem toNat_count_iff :
    it.count.toNat = it.length ↔ it.length < 2 ^ typeBits (usizeTy pointerBits) pointerBits := by
  cases it with
  | array data count =>
    rw [Iterable.count, Iterable.length, BitVec.toNat_setWidth]
    exact Nat.mod_eq_iff_lt (NeZero.ne _)
  | slice data length => exact iff_of_true rfl length.isLt

end Elements

/-- **A loop over an array or a slice visits every index once exactly when the number of
    elements is represented.** -/
theorem elements_count_iff (it : Iterable pointerBits) (elementSize : Nat) :
    ElementsCount it elementSize ↔
      it.length < 2 ^ typeBits (usizeTy pointerBits) pointerBits := by
  rw [← toNat_count_iff]
  constructor
  · intro h
    have hc := h Unit (fun _ s => s) (fun i _ => some (.next, i, ())) Loop.keepsCounter_skip
    have hlen := length_of_visits_elements (Loop.visits_of_counts rfl hc)
    rw [length_elements] at hlen
    exact hlen.symm
  · intro h σ bind body hk
    refine Loop.Counts.of_visits hk ?_
    rw [Iterable.elements, List.range_eq_range']
    exact visits_elements (i := 0) it.length (by rw [h]; exact Nat.zero_add _)

/-- The number of elements of a slice is represented. -/
theorem slice_counts (data length : Word pointerBits) (elementSize : Nat) :
    ElementsCount (.slice data length) elementSize :=
  (elements_count_iff _ _).2 length.isLt

/-- **Loops over ranges bind the values of the range, and loops over arrays and slices visit every
    index once, exactly when the bounds, and the number of elements, are represented at the
    width of a pointer.** -/
theorem for_in_counts_iff (pointerBits : Nat) :
    (∀ (kind : IntKind) (lower : Option (IntValue pointerBits kind))
        (upper : IntValue pointerBits kind),
      RangeCounts kind lower upper ↔ Represented kind (lower.getD 0) upper) ∧
    ∀ (it : Iterable pointerBits) (elementSize : Nat),
      ElementsCount it elementSize ↔
        it.length < 2 ^ typeBits (usizeTy pointerBits) pointerBits :=
  ⟨range_counts_iff, elements_count_iff⟩

/-- On a 32-bit target a loop over `0..4294967296` of `u64` does not bind the values of the
    range: it binds none. -/
theorem long_range_empty :
    ¬ RangeCounts .u64 (some 0) (4294967296 : IntValue 32 .u64) ∧
      (emitForInRange 32 .u64 (4294967296 : IntValue 32 .u64) Loop.skip).run 1
        ⟨.cond, 0, (), []⟩ = some ⟨.exit, 0, (), []⟩ := by
  refine ⟨fun h => ?_, rfl⟩
  have hr : ¬ Represented .u64 0 (4294967296 : IntValue 32 .u64) := by decide
  exact hr ((range_counts_iff _ _ _).1 h)

end Mirage.Mirgen

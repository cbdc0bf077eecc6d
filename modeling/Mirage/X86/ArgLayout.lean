import Mirage.X86.Machine

/-!
# The argument layout

Calls follow System V: integers and pointers in six registers, floats in eight
XMM registers, the rest on the stack, and aggregates of class MEMORY (*byval*)
always on the stack, sized and aligned as the aggregate.

The layout is computed twice, by two separate loops:

* `classify`: the loop of `emit_call`, giving each argument its integer or float
  register or its offset from the stack pointer of the call;
* `incomingArgs`: the loop of the prologue of `emit`, giving each parameter the
  register or the offset from the frame pointer it is read from. The frame
  pointer is 16 bytes below the stack pointer of the call: the return address
  and the saved frame pointer lie in between.

Both count in `int32_t`: `int32` is `none` where a sum overflows, which C++
leaves undefined.

The loops round a byval offset up from different origins, `0` and `16`. So they
agree (`LayoutAgrees`) exactly when no byval alignment exceeds 16, and the stack
area, laid out in exact arithmetic, fits the counters (`layoutAgrees_iff`).
-/

namespace Mirage.X86

/-! ## The two loops -/

/-- The integer argument registers. -/
def intArgRegs : List Reg := [.rdi, .rsi, .rdx, .rcx, .r8, .r9]

/-- The result of a signed 32-bit operation, `none` when it overflows. -/
def int32 (x : Int) : Option Int := if -2 ^ 31 ≤ x ∧ x < 2 ^ 31 then some x else none

/-- `(offset + align - 1) / align * align`. -/
def alignUp (offset align : Int) : Option Int := do
  let x ← int32 (offset + align)
  let x ← int32 (x - 1)
  int32 (x.tdiv align * align)

/-- The byval size of a parameter; `0` when it is an ordinary one. -/
def byvalOf (sig : Signature) (i : Nat) : BitVec 32 := sig.byvalSizes.getD i 0

/-- The alignment of a byval parameter: at least 8, and 8 when none is recorded. -/
def byvalAlign (sig : Signature) (i : Nat) : Int :=
  max 8 (match sig.byvalAligns[i]? with
    | some align => align.toInt
    | none => 8)

/-- The stack bytes of a byval parameter, `(byval + 7) / 8 * 8` in `uint32_t` and
    then cast. -/
def byvalBytes (byval : BitVec 32) : Int := ((byval + 7) / 8 * 8).toInt

/-- The counters of a classification loop. -/
structure ArgCounters where
  ints : Nat := 0
  floats : Nat := 0
  stack : Int
  deriving DecidableEq

/-- Where an argument goes: the integer or float register of an index, or an
    offset from the stack pointer. -/
inductive ArgSlot
  | int (slot : Nat)
  | float (slot : Nat)
  | stack (off : Int)
  deriving DecidableEq, Repr

/-- One round of the classification loop of `emit_call`. -/
def classifyArg (sig : Signature) (i : Nat) (type : Ty) (st : ArgCounters) :
    Option (ArgSlot × ArgCounters) :=
  if byvalOf sig i ≠ 0 then do
    let off ← alignUp st.stack (byvalAlign sig i)
    let stack ← int32 (off + byvalBytes (byvalOf sig i))
    some (.stack off, { st with stack })
  else if isFloat type then
    if st.floats < 8 then some (.float st.floats, { st with floats := st.floats + 1 })
    else do
      let stack ← int32 (st.stack + 8)
      some (.stack st.stack, { st with stack })
  else
    if st.ints < 6 then some (.int st.ints, { st with ints := st.ints + 1 })
    else do
      let stack ← int32 (st.stack + 8)
      some (.stack st.stack, { st with stack })

/-- The classification loop of `emit_call`, from the argument `i` on. -/
def classify (sig : Signature) : Nat → List Ty → ArgCounters → Option (List ArgSlot × ArgCounters)
  | _, [], st => some ([], st)
  | i, type :: types, st => do
    let (slot, st) ← classifyArg sig i type st
    let (slots, st) ← classify sig (i + 1) types st
    some (slot :: slots, st)

/-- The physical arguments: a two-word C return passes no out-pointer, the
    trailing argument. -/
def physicalArgs {α : Type*} (sig : Signature) (args : List α) : List α :=
  if sig.cRetWords == 2 && !args.isEmpty then args.dropLast else args

/-- Where a parameter comes from: a pointer into the caller's stack area, this
    frame's own return blob, a register, or an offset from the frame pointer. -/
inductive Incoming
  | byval (off : Int)
  | retBlob
  | float (slot : Nat)
  | int (slot : Nat)
  | stack (off : Int)
  deriving DecidableEq

/-- One round of the loop of the prologue, for the parameter `i` of `count`. -/
def incomingArg (sig : Signature) (count i : Nat) (type : Ty) (st : ArgCounters) :
    Option (Incoming × ArgCounters) :=
  if byvalOf sig i ≠ 0 then do
    let off ← alignUp st.stack (byvalAlign sig i)
    let stack ← int32 (off + byvalBytes (byvalOf sig i))
    some (.byval off, { st with stack })
  else if sig.cRetWords == 2 && i + 1 == count then some (.retBlob, st)
  else if isFloat type && st.floats < 8 then
    some (.float st.floats, { st with floats := st.floats + 1 })
  else if !isFloat type && st.ints < 6 then
    some (.int st.ints, { st with ints := st.ints + 1 })
  else do
    let stack ← int32 (st.stack + 8)
    some (.stack st.stack, { st with stack })

/-- The loop of the prologue, from the parameter `i` of `count` on. -/
def incomingArgs (sig : Signature) (count : Nat) :
    Nat → List Ty → ArgCounters → Option (List Incoming × ArgCounters)
  | _, [], st => some ([], st)
  | i, type :: types, st => do
    let (place, st) ← incomingArg sig count i type st
    let (places, st) ← incomingArgs sig count (i + 1) types st
    some (place :: places, st)

/-! ## Agreement -/

/-- The stack bytes of an argument, in exact arithmetic. -/
def argBytes (sig : Signature) (i : Nat) : Int :=
  if byvalOf sig i ≠ 0 then (((byvalOf sig i).toNat + 7) / 8 * 8 : Nat) else 8

/-- The byte ranges of the stack arguments, from the argument `i` on. -/
def stackRanges (sig : Signature) : Nat → List ArgSlot → List (Int × Int)
  | _, [] => []
  | i, .stack off :: slots => (off, off + argBytes sig i) :: stackRanges sig (i + 1) slots
  | i, _ :: slots => stackRanges sig (i + 1) slots

/-- The caller writes an argument where the callee finds the parameter: the same
    register, or the same address, `off` above the stack pointer of the call and
    `off + 16` above the frame pointer. -/
def Matches : ArgSlot → Incoming → Prop
  | .int k, .int k' => k' = k
  | .float k, .float k' => k' = k
  | .stack off, .stack off' => off' = off + 16
  | .stack off, .byval off' => off' = off + 16
  | _, _ => False

/-- Caller and callee agree on the layout of the physical arguments of a
    signature: both loops are defined, every argument is where its parameter is
    read, and the stack arguments are disjoint ranges of the reserved area. -/
def LayoutAgrees (sig : Signature) : Prop :=
  ∃ slots st places st' x reserve,
    classify sig 0 (physicalArgs sig sig.params) { stack := 0 } = some (slots, st) ∧
    incomingArgs sig sig.params.length 0 (physicalArgs sig sig.params) { stack := 16 } =
      some (places, st') ∧
    int32 (st.stack + 15) = some x ∧ int32 (x.tdiv 16 * 16) = some reserve ∧
    List.Forall₂ Matches slots places ∧
    (stackRanges sig 0 slots).Pairwise (fun r r' => r.2 ≤ r'.1 ∨ r'.2 ≤ r.1) ∧
    ∀ r ∈ stackRanges sig 0 slots, 0 ≤ r.1 ∧ r.2 ≤ reserve

/-! ### Arithmetic -/

theorem int32_eq_some {x y : Int} : int32 x = some y ↔ y = x ∧ -2 ^ 31 ≤ x ∧ x < 2 ^ 31 := by
  rw [int32]
  split_ifs with h
  · simp only [Option.some.injEq]; omega
  · simp only [false_iff]; omega

theorem alignUp_eq_some {off align y : Int} (ho : 0 ≤ off) (ha : 0 < align) :
    alignUp off align = some y ↔ y = (off + align - 1) / align * align ∧ off + align < 2 ^ 31 := by
  have hdiv : (off + align - 1).tdiv align = (off + align - 1) / align :=
    Int.tdiv_eq_ediv_of_nonneg (by omega)
  have hle : (off + align - 1) / align * align ≤ off + align - 1 := Int.ediv_mul_le _ ha.ne'
  have hge : 0 ≤ (off + align - 1) / align * align :=
    Int.mul_nonneg (Int.ediv_nonneg (by omega) ha.le) ha.le
  simp only [alignUp, Option.bind_eq_bind, Option.bind_eq_some_iff, int32_eq_some]
  constructor
  · rintro ⟨x, ⟨rfl, _, h⟩, x', ⟨rfl, _, _⟩, h', _⟩
    exact ⟨by rw [h', hdiv], h⟩
  · rintro ⟨rfl, h⟩
    refine ⟨_, ⟨rfl, by omega, h⟩, _, ⟨rfl, by omega, by omega⟩, ?_⟩
    rw [hdiv]
    exact ⟨rfl, by omega, by omega⟩

theorem byvalAlign_ge (sig : Signature) (i : Nat) : 8 ≤ byvalAlign sig i := le_max_left _ _

/-- The rounded size does not wrap around as long as it fits a signed counter. -/
theorem byvalBytes_eq {sig : Signature} {i : Nat} (hb : byvalOf sig i ≠ 0)
    (h : argBytes sig i < 2 ^ 31) : byvalBytes (byvalOf sig i) = argBytes sig i := by
  rw [argBytes, if_pos hb] at h ⊢
  generalize byvalOf sig i = b at h
  have hlt : b.toNat < 2 ^ 31 := by omega
  have hn : ((b + 7) / 8 * 8).toNat = (b.toNat + 7) / 8 * 8 := by
    have h7 : (7 : BitVec 32).toNat = 7 := rfl
    have h8 : (8 : BitVec 32).toNat = 8 := rfl
    simp only [BitVec.toNat_mul, BitVec.toNat_udiv, BitVec.toNat_add, h7, h8]
    omega
  rw [byvalBytes, BitVec.toInt_eq_toNat_of_lt (by omega), hn]

theorem argBytes_pos (sig : Signature) (i : Nat) : 0 < argBytes sig i := by
  rw [argBytes]
  split_ifs with h
  · have : 0 < (byvalOf sig i).toNat := by
      rw [Nat.pos_iff_ne_zero]
      exact fun h0 => h (BitVec.eq_of_toNat_eq (by simpa using h0))
    omega
  · omega

/-! ### The exact layout -/

/-- A round of either loop, in exact arithmetic: the offset of the argument, if
    it is on the stack, and the counters after it. -/
def exactArg (sig : Signature) (i : Nat) (type : Ty) (st : ArgCounters) : ArgSlot × ArgCounters :=
  if byvalOf sig i ≠ 0 then
    let off := (st.stack + byvalAlign sig i - 1) / byvalAlign sig i * byvalAlign sig i
    (.stack off, { st with stack := off + argBytes sig i })
  else if isFloat type then
    if st.floats < 8 then (.float st.floats, { st with floats := st.floats + 1 })
    else (.stack st.stack, { st with stack := st.stack + 8 })
  else
    if st.ints < 6 then (.int st.ints, { st with ints := st.ints + 1 })
    else (.stack st.stack, { st with stack := st.stack + 8 })

/-- The largest sum the loop of the caller forms, in exact arithmetic, from the
    argument `i` on: the end of the area, or a counter plus an alignment. -/
def stackPeak (sig : Signature) : Nat → List Ty → ArgCounters → Int
  | _, [], st => st.stack
  | i, type :: types, st =>
    max (if byvalOf sig i ≠ 0 then st.stack + byvalAlign sig i else st.stack)
      (stackPeak sig (i + 1) types (exactArg sig i type st).2)

/-- A stack argument starts at or above the counter and ends at the next one;
    a register argument leaves it alone. -/
theorem exactArg_stack (sig : Signature) (i : Nat) (type : Ty) (st : ArgCounters) :
    (∃ off, (exactArg sig i type st).1 = .stack off ∧ st.stack ≤ off ∧
      (exactArg sig i type st).2.stack = off + argBytes sig i) ∨
    ((∀ off, (exactArg sig i type st).1 ≠ .stack off) ∧
      (exactArg sig i type st).2.stack = st.stack) := by
  have ha := byvalAlign_ge sig i
  have hup : st.stack ≤ (st.stack + byvalAlign sig i - 1) / byvalAlign sig i * byvalAlign sig i := by
    have := Int.emod_lt_of_pos (st.stack + byvalAlign sig i - 1) (by omega : 0 < byvalAlign sig i)
    have := Int.emod_add_mul_ediv (st.stack + byvalAlign sig i - 1) (byvalAlign sig i)
    rw [Int.mul_comm] at this
    omega
  simp only [exactArg]
  split_ifs with h1 h2 h3 h3
  · exact .inl ⟨_, rfl, hup, rfl⟩
  · exact .inr ⟨fun _ => by simp, rfl⟩
  · exact .inl ⟨_, rfl, le_refl _, by rw [argBytes, if_neg h1]⟩
  · exact .inr ⟨fun _ => by simp, rfl⟩
  · exact .inl ⟨_, rfl, le_refl _, by rw [argBytes, if_neg h1]⟩

theorem stack_le_stackPeak (sig : Signature) (types : List Ty) (i : Nat) (st : ArgCounters) :
    st.stack ≤ stackPeak sig i types st := by
  cases types with
  | nil => exact le_refl _
  | cons type types =>
    have := byvalAlign_ge sig i
    refine le_max_of_le_left ?_
    split_ifs <;> omega

/-- The callee's counters, as seen from the frame pointer. -/
def ArgCounters.shift (st : ArgCounters) : ArgCounters := { st with stack := st.stack + 16 }

/-- The place a callee reads what the caller wrote to a slot. -/
def incomingOf (byval : BitVec 32) : ArgSlot → Incoming
  | .int k => .int k
  | .float k => .float k
  | .stack off => if byval ≠ 0 then .byval (off + 16) else .stack (off + 16)

theorem matches_incomingOf (byval : BitVec 32) (slot : ArgSlot) :
    Matches slot (incomingOf byval slot) := by
  cases slot <;> simp only [incomingOf, Matches]
  split_ifs <;> rfl

/-- Rounding up from 16 higher gives an offset 16 higher when the alignment
    divides 16, -/
theorem alignUp_shift {s a : Int} (ha : a = 8 ∨ a = 16) :
    (s + 16 + a - 1) / a * a = (s + a - 1) / a * a + 16 := by
  rcases ha with rfl | rfl <;> omega

/-- and only then. -/
theorem align_le_of_shift {s a : Int}
    (h : (s + 16 + a - 1) / a * a = (s + a - 1) / a * a + 16) : a ≤ 16 := by
  have h1 : a ∣ (s + 16 + a - 1) / a * a := Int.dvd_mul_left _ _
  rw [h] at h1
  exact Int.le_of_dvd (by omega) ((Int.dvd_add_right (Int.dvd_mul_left _ _)).1 h1)

/-- With alignments up to 16 and room in the counters, both rounds are the exact one. -/
theorem rounds_eq_exact {sig : Signature} {count i : Nat} {type : Ty} {st : ArgCounters}
    (hs : 0 ≤ st.stack) (halign : byvalOf sig i ≠ 0 → byvalAlign sig i = 8 ∨ byvalAlign sig i = 16)
    (hpeak : byvalOf sig i ≠ 0 → st.stack + byvalAlign sig i + 16 < 2 ^ 31)
    (hend : (exactArg sig i type st).2.stack + 16 < 2 ^ 31)
    (hblob : ¬(sig.cRetWords = 2 ∧ i + 1 = count)) :
    classifyArg sig i type st = some (exactArg sig i type st) ∧
    incomingArg sig count i type st.shift = some
      (incomingOf (byvalOf sig i) (exactArg sig i type st).1, (exactArg sig i type st).2.shift) := by
  have hblob' : (sig.cRetWords == 2 && i + 1 == count) = false := by
    simpa using fun h1 h2 => hblob ⟨h1, h2⟩
  by_cases hb : byvalOf sig i = 0
  · -- an ordinary argument: a register, or the next cell of the stack
    have h8 : st.stack + 8 + 16 < 2 ^ 31 → int32 (st.stack + 8) = some (st.stack + 8) ∧
        int32 (st.stack + 16 + 8) = some (st.stack + 8 + 16) := fun h =>
      ⟨int32_eq_some.2 ⟨rfl, by omega, by omega⟩, int32_eq_some.2 ⟨by omega, by omega, by omega⟩⟩
    by_cases hf : isFloat type = true
    · by_cases hk : st.floats < 8
      · simp [exactArg, classifyArg, incomingArg, hb, hf, hk, hblob', ArgCounters.shift, incomingOf]
      · simp only [exactArg, hb, hf, hk, ne_eq, not_true, if_false, if_true] at hend
        simp [exactArg, classifyArg, incomingArg, hb, hf, hk, hblob', ArgCounters.shift, incomingOf,
          h8 hend]
    · by_cases hk : st.ints < 6
      · simp [exactArg, classifyArg, incomingArg, hb, hf, hk, hblob', ArgCounters.shift, incomingOf]
      · simp only [exactArg, hb, hf, hk, ne_eq, not_true, if_false, Bool.false_eq_true] at hend
        simp [exactArg, classifyArg, incomingArg, hb, hf, hk, hblob', ArgCounters.shift, incomingOf,
          h8 hend]
  · -- an aggregate: both loops round up, from counters 16 apart
    have ha := halign hb
    have hp := hpeak hb
    have hexact : exactArg sig i type st =
        (.stack ((st.stack + byvalAlign sig i - 1) / byvalAlign sig i * byvalAlign sig i),
          { st with stack := (st.stack + byvalAlign sig i - 1) / byvalAlign sig i *
              byvalAlign sig i + argBytes sig i }) := by
      rw [exactArg, if_pos hb]
    rw [hexact] at hend ⊢
    simp only at hend
    have hup : st.stack ≤ (st.stack + byvalAlign sig i - 1) / byvalAlign sig i *
        byvalAlign sig i := by
      rcases ha with h | h <;> rw [h] <;> omega
    have hpos := argBytes_pos sig i
    have hbytes := byvalBytes_eq hb (by omega)
    have h8 : argBytes sig i % 8 = 0 := by rw [argBytes, if_pos hb]; omega
    constructor
    · simp only [classifyArg, if_pos hb, Option.bind_eq_bind]
      rw [(alignUp_eq_some hs (by omega)).2 ⟨rfl, by omega⟩, Option.bind_some, hbytes,
        int32_eq_some.2 ⟨rfl, by omega, by omega⟩]
      rfl
    · simp only [incomingArg, if_pos hb, Option.bind_eq_bind, ArgCounters.shift, incomingOf]
      rw [(alignUp_eq_some (by omega) (by omega)).2 ⟨rfl, by omega⟩, Option.bind_some, hbytes,
        alignUp_shift ha, int32_eq_some.2 ⟨rfl, by omega, by omega⟩]
      simp only [Option.bind_some, Option.some.injEq, Prod.mk.injEq, true_and]
      congr 1
      omega

/-- Conversely, rounds that match, and whose slot lies in an area below `2 ^ 31`,
    are exact, with an alignment of at most 16. -/
theorem exact_of_rounds {sig : Signature} {count i : Nat} {type : Ty} {st st₁ st₁' : ArgCounters}
    {slot : ArgSlot} {place : Incoming} {R : Int}
    (hc : classifyArg sig i type st = some (slot, st₁))
    (hi : incomingArg sig count i type st.shift = some (place, st₁')) (hm : Matches slot place)
    (hs : 0 ≤ st.stack) (hR : R < 2 ^ 31) (hst : st.stack + 16 < 2 ^ 31)
    (hin : ∀ off, slot = .stack off → 0 ≤ off ∧ off + argBytes sig i ≤ R)
    (hblob : ¬(sig.cRetWords = 2 ∧ i + 1 = count)) :
    (byvalOf sig i ≠ 0 → byvalAlign sig i ≤ 16 ∧ st.stack + byvalAlign sig i + 16 < 2 ^ 31) ∧
      (slot, st₁) = exactArg sig i type st ∧ st₁' = st₁.shift ∧ st₁.stack + 16 < 2 ^ 31 := by
  have hblob' : (sig.cRetWords == 2 && i + 1 == count) = false := by
    simpa using fun h1 h2 => hblob ⟨h1, h2⟩
  by_cases hb : byvalOf sig i = 0
  · refine ⟨fun h => absurd hb h, ?_⟩
    simp only [classifyArg, incomingArg, exactArg, hb, ne_eq, not_true, if_false, hblob',
      Bool.false_eq_true, ArgCounters.shift, Option.bind_eq_bind] at hc hi ⊢
    by_cases hf : isFloat type = true
    · by_cases hk : st.floats < 8
      · simp only [hf, hk, if_true, decide_true, Bool.and_self, Option.some.injEq,
          Prod.mk.injEq] at hc hi ⊢
        obtain ⟨rfl, rfl⟩ := hc
        obtain ⟨rfl, rfl⟩ := hi
        exact ⟨⟨rfl, rfl⟩, rfl, hst⟩
      · simp only [hf, hk, if_true, if_false, decide_false, Bool.and_false, Bool.not_true,
          Bool.false_and, Bool.false_eq_true, Option.bind_eq_some_iff, int32_eq_some,
          Option.some.injEq, Prod.mk.injEq] at hc hi ⊢
        obtain ⟨_, ⟨rfl, _, _⟩, rfl, rfl⟩ := hc
        obtain ⟨_, ⟨rfl, _, h⟩, rfl, rfl⟩ := hi
        refine ⟨⟨rfl, rfl⟩, ?_, ?_⟩
        · simp only [ArgCounters.mk.injEq, true_and]; omega
        · simp only; omega
    · by_cases hk : st.ints < 6
      · simp only [hf, hk, if_true, if_false, decide_true, Bool.false_and, Bool.not_false,
          Bool.and_self, Bool.false_eq_true, Option.some.injEq, Prod.mk.injEq] at hc hi ⊢
        obtain ⟨rfl, rfl⟩ := hc
        obtain ⟨rfl, rfl⟩ := hi
        exact ⟨⟨rfl, rfl⟩, rfl, hst⟩
      · simp only [hf, hk, if_false, decide_false, Bool.and_false, Bool.false_and,
          Bool.false_eq_true, Option.bind_eq_some_iff, int32_eq_some,
          Option.some.injEq, Prod.mk.injEq] at hc hi ⊢
        obtain ⟨_, ⟨rfl, _, _⟩, rfl, rfl⟩ := hc
        obtain ⟨_, ⟨rfl, _, h⟩, rfl, rfl⟩ := hi
        refine ⟨⟨rfl, rfl⟩, ?_, ?_⟩
        · simp only [ArgCounters.mk.injEq, true_and]; omega
        · simp only; omega
  · have ha := byvalAlign_ge sig i
    simp only [classifyArg, incomingArg, if_pos hb, ArgCounters.shift, Option.bind_eq_bind,
      Option.bind_eq_some_iff, Option.some.injEq, Prod.mk.injEq] at hc hi
    obtain ⟨off, hoff, end₁, hend₁, rfl, rfl⟩ := hc
    obtain ⟨off', hoff', end₁', hend₁', rfl, rfl⟩ := hi
    rw [alignUp_eq_some hs (by omega)] at hoff
    rw [alignUp_eq_some (by omega) (by omega)] at hoff'
    obtain ⟨rfl, -⟩ := hoff
    obtain ⟨rfl, hsum⟩ := hoff'
    obtain ⟨h0, hle⟩ := hin _ rfl
    have hbytes := byvalBytes_eq hb (by omega)
    rw [int32_eq_some, hbytes] at hend₁ hend₁'
    obtain ⟨rfl, -, -⟩ := hend₁
    obtain ⟨rfl, -, hlt⟩ := hend₁'
    simp only [Matches] at hm
    refine ⟨fun _ => ⟨align_le_of_shift hm, by omega⟩, by rw [exactArg, if_pos hb], ?_, ?_⟩
    · simp only [ArgCounters.shift, ArgCounters.mk.injEq, true_and]; omega
    · simp only; omega

/-! ### Whole runs of the loops -/

/-- With alignments up to 16 and room in the counters, both loops are defined,
    their places match, and the stack arguments follow one another. -/
theorem loops_agree {sig : Signature} {count : Nat} (types : List Ty) :
    ∀ (i : Nat) (st : ArgCounters), 0 ≤ st.stack →
      (∀ k < types.length, byvalOf sig (i + k) ≠ 0 →
        byvalAlign sig (i + k) = 8 ∨ byvalAlign sig (i + k) = 16) →
      stackPeak sig i types st + 16 < 2 ^ 31 →
      (∀ k < types.length, ¬(sig.cRetWords = 2 ∧ i + k + 1 = count)) →
      ∃ slots fin places,
        classify sig i types st = some (slots, fin) ∧
        incomingArgs sig count i types st.shift = some (places, fin.shift) ∧
        List.Forall₂ Matches slots places ∧ st.stack ≤ fin.stack ∧ fin.stack + 16 < 2 ^ 31 ∧
        (stackRanges sig i slots).Pairwise (fun r r' => r.2 ≤ r'.1) ∧
        ∀ r ∈ stackRanges sig i slots, st.stack ≤ r.1 ∧ r.2 ≤ fin.stack := by
  induction types with
  | nil =>
    intro i st _ _ hpeak _
    exact ⟨[], st, [], rfl, rfl, .nil, le_refl _, hpeak, .nil, by simp [stackRanges]⟩
  | cons type types ih =>
    intro i st hs halign hpeak hblob
    rw [stackPeak, max_add, max_lt_iff] at hpeak
    have hpos := argBytes_pos sig i
    have hstep := exactArg_stack sig i type st
    obtain ⟨hc, hi⟩ := rounds_eq_exact hs (halign 0 (by simp))
      (fun hb => by rw [Nat.add_zero] at hb ⊢; rw [if_pos hb] at hpeak; exact hpeak.1)
      (lt_of_le_of_lt (Int.add_le_add_right (stack_le_stackPeak _ _ _ _) 16) hpeak.2)
      (hblob 0 (by simp))
    obtain ⟨slots, fin, places, hcs, his, hms, hle, hlt, hpw, hrange⟩ :=
      ih (i + 1) (exactArg sig i type st).2 (by rcases hstep with ⟨_, _, h, h'⟩ | ⟨_, h⟩ <;> omega)
        (fun k hk => by
          have := halign (k + 1) (by simpa using hk)
          rwa [Nat.add_comm k 1, ← Nat.add_assoc] at this)
        hpeak.2
        (fun k hk => by
          have := hblob (k + 1) (by simpa using hk)
          rwa [Nat.add_comm k 1, ← Nat.add_assoc] at this)
    rw [Nat.add_zero] at hc hi
    refine ⟨(exactArg sig i type st).1 :: slots, fin, incomingOf _ _ :: places, ?_, ?_,
      .cons (matches_incomingOf (byvalOf sig i) _) hms, ?_, hlt, ?_⟩
    · simp only [classify, hc, hcs, Option.bind_eq_bind, Option.bind_some]
    · simp only [incomingArgs, hi, his, Option.bind_eq_bind, Option.bind_some]
    · rcases hstep with ⟨_, _, h, h'⟩ | ⟨_, h⟩ <;> omega
    · rcases hstep with ⟨off, hslot, hoff, hnext⟩ | ⟨hslot, hnext⟩
      · rw [hslot, stackRanges]
        refine ⟨List.pairwise_cons.2 ⟨fun r hr => ?_, hpw⟩, fun r hr => ?_⟩
        · have := (hrange r hr).1
          simp only; omega
        · rcases List.mem_cons.1 hr with rfl | hr
          · simp only; omega
          · have := hrange r hr
            omega
      · have hskip : stackRanges sig i ((exactArg sig i type st).1 :: slots) =
            stackRanges sig (i + 1) slots := by
          cases hsl : (exactArg sig i type st).1 with
          | stack off => exact absurd hsl (hslot off)
          | int k => rfl
          | float k => rfl
        rw [hskip]
        exact ⟨hpw, fun r hr => by have := hrange r hr; omega⟩

/-- Conversely, loops whose places match and whose stack arguments lie in an area
    below `2 ^ 31` have alignments up to 16 and room in the counters. -/
theorem room_of_loops {sig : Signature} {count : Nat} {R : Int} (hR : R < 2 ^ 31) (types : List Ty) :
    ∀ (i : Nat) (st : ArgCounters) {slots fin places fin'}, 0 ≤ st.stack → st.stack + 16 < 2 ^ 31 →
      classify sig i types st = some (slots, fin) →
      incomingArgs sig count i types st.shift = some (places, fin') →
      List.Forall₂ Matches slots places →
      (∀ r ∈ stackRanges sig i slots, 0 ≤ r.1 ∧ r.2 ≤ R) →
      (∀ k < types.length, ¬(sig.cRetWords = 2 ∧ i + k + 1 = count)) →
      (∀ k < types.length, byvalOf sig (i + k) ≠ 0 → byvalAlign sig (i + k) ≤ 16) ∧
        stackPeak sig i types st + 16 < 2 ^ 31 := by
  induction types with
  | nil =>
    intro i st _ _ _ _ _ hst _ _ _ _ _
    exact ⟨by simp, hst⟩
  | cons type types ih =>
    intro i st slots fin places fin' hs hst hc hi hm hrange hblob
    simp only [classify, incomingArgs, Option.bind_eq_bind, Option.bind_eq_some_iff,
      Option.some.injEq, Prod.mk.injEq, Prod.exists] at hc hi
    obtain ⟨slot, st₁, hc₁, slots, fin, hcs, rfl, rfl⟩ := hc
    obtain ⟨place, st₁', hi₁, places, fin', his, rfl, rfl⟩ := hi
    obtain ⟨hm₁, hms⟩ := List.forall₂_cons.1 hm
    obtain ⟨ha, hexact, rfl, hst₁⟩ := exact_of_rounds hc₁ hi₁ hm₁ hs hR hst
      (fun off hoff => hrange (off, off + argBytes sig i) (by rw [hoff]; simp [stackRanges]))
      (hblob 0 (by simp))
    have hstep := exactArg_stack sig i type st
    rw [← hexact] at hstep
    have hpos := argBytes_pos sig i
    obtain ⟨has, hpeak⟩ := ih (i + 1) st₁
      (by rcases hstep with ⟨_, _, h, h'⟩ | ⟨_, h⟩ <;> simp only at * <;> omega) hst₁ hcs his hms
      (fun r hr => hrange r (by cases slot <;> simp [stackRanges, hr]))
      (fun k hk => by
        have := hblob (k + 1) (by simpa using hk)
        rwa [Nat.add_comm k 1, ← Nat.add_assoc] at this)
    refine ⟨fun k hk hb => ?_, ?_⟩
    · cases k with
      | zero => exact (ha hb).1
      | succ k =>
        have := has k (by simpa using hk)
        rw [Nat.add_comm k 1, ← Nat.add_assoc] at hb ⊢
        exact this hb
    · rw [stackPeak, max_add, max_lt_iff, ← hexact]
      refine ⟨?_, hpeak⟩
      split_ifs with hb
      · exact (ha hb).2
      · exact hst

/-- The out-pointer of a two-word return is not a physical argument. -/
theorem not_blob_of_physical (sig : Signature) :
    ∀ k < (physicalArgs sig sig.params).length,
      ¬(sig.cRetWords = 2 ∧ 0 + k + 1 = sig.params.length) := by
  rintro k hk ⟨h2, hlen⟩
  have : sig.params.isEmpty = false := by cases h : sig.params <;> simp_all
  simp only [physicalArgs, h2, this, beq_self_eq_true, Bool.not_false, Bool.and_self, if_true,
    List.length_dropLast] at hk
  omega

/-- A power-of-two alignment of at most 16 is 8 or 16, once raised to 8. -/
theorem byvalAlign_cases {sig : Signature} {i : Nat}
    (hpow : ∀ a, sig.byvalAligns[i]? = some a → ∃ k, a.toNat = 2 ^ k)
    (h : byvalAlign sig i ≤ 16) : byvalAlign sig i = 8 ∨ byvalAlign sig i = 16 := by
  rw [byvalAlign] at h ⊢
  cases hi : sig.byvalAligns[i]? with
  | none => simp
  | some a =>
    obtain ⟨k, hk⟩ := hpow a hi
    simp only [hi] at h ⊢
    have hsmall : a.toInt ≤ 16 := le_trans (le_max_right _ _) h
    rcases Nat.lt_or_ge k 5 with hk5 | hk5
    · have hint : a.toInt = ((2 ^ k : Nat) : Int) := by
        rw [BitVec.toInt_eq_toNat_of_lt, hk]
        rw [hk]
        calc 2 * 2 ^ k = 2 ^ (k + 1) := by ring
          _ < 2 ^ 32 := Nat.pow_lt_pow_right (by omega) (by omega)
      rw [hint]
      have : k = 0 ∨ k = 1 ∨ k = 2 ∨ k = 3 ∨ k = 4 := by omega
      rcases this with rfl | rfl | rfl | rfl | rfl <;> decide
    · -- at 2 ^ 31 the cast is negative
      have hlow : 2 ^ 5 ≤ a.toNat := hk ▸ Nat.pow_le_pow_right Nat.two_pos hk5
      rw [BitVec.toInt_eq_toNat_cond] at hsmall ⊢
      split_ifs at hsmall ⊢ with hneg
      · omega
      · left; omega

/-- Caller and callee agree on the argument layout of a signature exactly when no
    byval parameter is aligned to more than 16 bytes and the sums of the layout
    fit the 32-bit counters. -/
theorem layoutAgrees_iff (sig : Signature)
    (hpow : ∀ i a, byvalOf sig i ≠ 0 → sig.byvalAligns[i]? = some a → ∃ k, a.toNat = 2 ^ k) :
    LayoutAgrees sig ↔
      (∀ i < (physicalArgs sig sig.params).length, byvalOf sig i ≠ 0 → byvalAlign sig i ≤ 16) ∧
      stackPeak sig 0 (physicalArgs sig sig.params) { stack := 0 } + 16 < 2 ^ 31 := by
  constructor
  · rintro ⟨slots, st, places, st', x, reserve, hc, hi, -, hreserve, hm, -, hin⟩
    have hR : reserve < 2 ^ 31 := by
      obtain ⟨rfl, -, h⟩ := int32_eq_some.1 hreserve
      exact h
    have := room_of_loops hR _ 0 { stack := 0 } (le_refl _) (by decide) hc hi hm hin
      (not_blob_of_physical sig)
    simpa using this
  · rintro ⟨halign, hpeak⟩
    obtain ⟨slots, fin, places, hc, hi, hm, hle, hlt, hpw, hrange⟩ :=
      loops_agree (physicalArgs sig sig.params) 0 { stack := 0 } (le_refl _)
        (fun k hk hb => byvalAlign_cases (fun a ha => hpow _ a hb ha) (halign (0 + k) (by simpa using hk) hb)) hpeak
        (not_blob_of_physical sig)
    simp only at hle hrange
    have hdiv : (fin.stack + 15).tdiv 16 = (fin.stack + 15) / 16 :=
      Int.tdiv_eq_ediv_of_nonneg (by omega)
    refine ⟨slots, fin, places, fin.shift, fin.stack + 15, (fin.stack + 15) / 16 * 16, hc, hi,
      int32_eq_some.2 ⟨rfl, by omega, by omega⟩, ?_, hm, hpw.imp Or.inl, fun r hr => ?_⟩
    · rw [hdiv]
      exact int32_eq_some.2 ⟨rfl, by omega, by omega⟩
    · have := hrange r hr
      omega

/-- A signature with integers, a float, a 16-byte aligned aggregate and a two-word
    return. -/
def mixedArguments : Signature :=
  { params := [.i64, .f64, .ptr, .i32, .ptr], byvalSizes := [0, 0, 24, 0, 0],
    byvalAligns := [0, 0, 16, 0, 0], cRetWords := 2 }

theorem mixedArguments_agrees : LayoutAgrees mixedArguments := by
  refine (layoutAgrees_iff mixedArguments fun i a hb ha => ?_).2 (by decide)
  match i, hb, ha with
  | 0, hb, _ => exact absurd rfl hb
  | 1, hb, _ => exact absurd rfl hb
  | 2, _, ha => exact ⟨4, by simp only [Option.some.inj ha.symm]; decide⟩
  | 3, hb, _ => exact absurd rfl hb
  | 4, hb, _ => exact absurd rfl hb

/-- A signature with one 32-byte aligned aggregate. -/
def alignedAggregate : Signature :=
  { params := [.ptr], byvalSizes := [32], byvalAligns := [32] }

/-- The caller puts it at the stack pointer, the callee looks 16 bytes higher. -/
theorem alignedAggregate_disagrees : ¬LayoutAgrees alignedAggregate := by
  rintro ⟨slots, st, places, st', x, reserve, hc, hi, -, -, hm, -⟩
  have h1 : classify alignedAggregate 0 [.ptr] { stack := 0 } = some ([.stack 0], ⟨0, 0, 32⟩) := by
    decide
  have h2 : incomingArgs alignedAggregate 1 0 [.ptr] { stack := 16 } =
      some ([.byval 32], ⟨0, 0, 64⟩) := by decide
  have hp : physicalArgs alignedAggregate alignedAggregate.params = [.ptr] := by decide
  rw [hp, h1, Option.some.injEq, Prod.mk.injEq] at hc
  rw [hp, show alignedAggregate.params.length = 1 from rfl, h2, Option.some.injEq,
    Prod.mk.injEq] at hi
  obtain ⟨rfl, -⟩ := hc
  obtain ⟨rfl, -⟩ := hi
  simp [Matches] at hm

end Mirage.X86

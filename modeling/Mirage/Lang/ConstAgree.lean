import Mathlib.Tactic.Common
import Mirage.Lang.ConstTermination

/-!
# The two constant evaluators

Where a value is wanted constants are folded as signed numbers, where a type is made as
unsigned ones, and by functions that know different forms of expressions. `Means` is what
both of them are after: the number an expression stands for, in the arithmetic of the
natural numbers, where every number on the way is below `2 ^ 63` and a cast leaves a number
as it is. (An `iota` is the index of the field it initializes, or `0` below an operator, as
the index is not handed on.)

`Means` also tells which forms the expression comes to (`Forms`): whether a macro call lies
deeper than the cap, which both evaluators refuse; whether there is an `iota`, which the
evaluator of values has no case for; and whether there is a character, a member of a module,
an enum or bitset value, an option, `$rtti_enabled` or a `when`, which the evaluator of types
has no case for. Each evaluator gives the number unless there is a form it does not have
(`Means.value`, `Means.type`). So they agree where both refuse, or neither
(`evaluators_agree_iff`).
-/

namespace Mirage.Consts

open Ast Calls

/-! ## Arithmetic -/

/-- An operator on natural numbers, where its result is one. -/
def natUnary : UnaryOp → Nat → Option Nat
  | .logicalNot, a => some (if a = 0 then 1 else 0)
  | .negate, a => if a = 0 then some 0 else none
  | _, _ => none

def natBinary : BinaryOp → Nat → Nat → Option Nat
  | .add, a, b => some (a + b)
  | .sub, a, b => if b ≤ a then some (a - b) else none
  | .mul, a, b => some (a * b)
  | .div, a, b => if b = 0 then none else some (a / b)
  | .mod, a, b => if b = 0 then none else some (a % b)
  | .bitwiseAnd, a, b => some (a &&& b)
  | .bitwiseOr, a, b => some (a ||| b)
  | .bitwiseXor, a, b => some (a ^^^ b)
  | .shiftLeft, a, b => if b < 64 then some (a * 2 ^ b) else none
  | .shiftRight, a, b => if b < 64 then some (a / 2 ^ b) else none
  | .equal, a, b => some (if a = b then 1 else 0)
  | .notEqual, a, b => some (if a = b then 0 else 1)
  | .less, a, b => some (if a < b then 1 else 0)
  | .greater, a, b => some (if b < a then 1 else 0)
  | .lessEqual, a, b => some (if a ≤ b then 1 else 0)
  | .greaterEqual, a, b => some (if b ≤ a then 1 else 0)
  | .logicalAnd, a, b => some (if a ≠ 0 ∧ b ≠ 0 then 1 else 0)
  | .logicalOr, a, b => some (if a ≠ 0 ∨ b ≠ 0 then 1 else 0)
  | .in, _, _ => none

section

variable {a b v : Nat}

theorem toNat_ofNat_small (h : a < 2 ^ 63) : (BitVec.ofNat 64 a).toNat = a := by
  rw [BitVec.toNat_ofNat]
  exact Nat.mod_eq_of_lt (by omega)

theorem msb_small (h : a < 2 ^ 63) : (BitVec.ofNat 64 a).msb = false := by
  rw [BitVec.msb_eq_false_iff_two_mul_lt, toNat_ofNat_small h]
  omega

theorem ofNat_eq_zero_iff (h : a < 2 ^ 63) : BitVec.ofNat 64 a = 0 ↔ a = 0 := by
  constructor
  · intro heq
    have := congrArg BitVec.toNat heq
    rwa [toNat_ofNat_small h] at this
  · rintro rfl
    rfl

theorem ofNat_ne_zero (h : a < 2 ^ 63) : (BitVec.ofNat 64 a != 0) = decide (a ≠ 0) := by
  rw [bne, beq_eq_decide, ← decide_not]
  exact decide_eq_decide.2 (not_congr (ofNat_eq_zero_iff h))

theorem ofNat_inj (ha : a < 2 ^ 63) (hb : b < 2 ^ 63) :
    BitVec.ofNat 64 a = BitVec.ofNat 64 b ↔ a = b := by
  constructor
  · intro heq
    have := congrArg BitVec.toNat heq
    rwa [toNat_ofNat_small ha, toNat_ofNat_small hb] at this
  · rintro rfl
    rfl

theorem foldUnaryOp_ofNat {op : UnaryOp} (ha : a < 2 ^ 63) (h : natUnary op a = some v) :
    foldUnaryOp op (BitVec.ofNat 64 a) = .ok (BitVec.ofNat 64 v) := by
  cases op with
  | logicalNot =>
    obtain rfl := Option.some.inj h
    simp only [foldUnaryOp, ofNat_eq_zero_iff ha]
    split_ifs <;> rfl
  | negate =>
    simp only [natUnary] at h
    split_ifs at h with h0
    obtain rfl := Option.some.inj h
    rw [h0]
    rfl
  | _ => cases h

end

section

variable {a b v : Nat}

theorem ofNat_eq_of_toNat {x : BitVec 64} (h : x.toNat = v) : x = BitVec.ofNat 64 v := by
  rw [← h, BitVec.ofNat_toNat, BitVec.setWidth_eq]

theorem boolean_eq {p : Prop} [Decidable p] {c : Bool} (h : c = decide p) :
    boolean c = .ok (BitVec.ofNat 64 (if p then 1 else 0)) := by
  rw [boolean, h]
  by_cases hp : p <;> simp [hp]

theorem not_shift_out (hb : b < 2 ^ 63) (h : b < 64) {p : Prop} [Decidable p] :
    ¬ (64 ≤ (BitVec.ofNat 64 b).toNat ∨ (p ∧ (BitVec.ofNat 64 b).toInt < 0)) := by
  rw [toNat_ofNat_small hb, BitVec.toInt_eq_toNat_of_msb (msb_small hb)]
  omega

/-- On numbers below `2 ^ 63` the signed and the unsigned operators are those of the natural
    numbers. -/
theorem foldBinaryOp_ofNat {op : BinaryOp} (sign : ConstFoldSign) (ha : a < 2 ^ 63)
    (hb : b < 2 ^ 63) (hv : v < 2 ^ 63) (h : natBinary op a b = some v) :
    foldBinaryOp op (BitVec.ofNat 64 a) (BitVec.ofNat 64 b) sign = .ok (BitVec.ofNat 64 v) := by
  have hma := msb_small ha
  have hmb := msb_small hb
  have hta := toNat_ofNat_small ha
  have htb := toNat_ofNat_small hb
  have hmin : BitVec.ofNat 64 a ≠ BitVec.intMin 64 := fun heq => by
    rw [heq] at hma
    exact absurd hma (by decide)
  have hslt : ∀ x y : BitVec 64, x.msb = false → y.msb = false → x.slt y = x.ult y :=
    fun x y hx hy => BitVec.slt_eq_ult_of_msb_eq (hx.trans hy.symm)
  have hsle : ∀ x y : BitVec 64, x.msb = false → y.msb = false → x.sle y = x.ule y :=
    fun x y hx hy => BitVec.sle_eq_ule_of_msb_eq (hx.trans hy.symm)
  cases op with
  | add =>
    obtain rfl := Option.some.inj h
    rw [foldBinaryOp, BitVec.ofNat_add]
  | sub =>
    simp only [natBinary] at h
    split_ifs at h with hle
    obtain rfl := Option.some.inj h
    refine congrArg Except.ok (ofNat_eq_of_toNat ?_)
    rw [BitVec.toNat_sub, hta, htb]
    omega
  | mul =>
    obtain rfl := Option.some.inj h
    rw [foldBinaryOp, BitVec.ofNat_mul]
  | div =>
    simp only [natBinary] at h
    split_ifs at h with h0
    obtain rfl := Option.some.inj h
    have hudiv : BitVec.ofNat 64 a / BitVec.ofNat 64 b = BitVec.ofNat 64 (a / b) :=
      ofNat_eq_of_toNat (by rw [BitVec.toNat_udiv, hta, htb])
    simp only [foldBinaryOp, ofNat_eq_zero_iff hb, h0, if_false, hmin, false_and,
      BitVec.sdiv_eq, hma, hmb, BitVec.udiv_eq, hudiv, ite_self]
  | mod =>
    simp only [natBinary] at h
    split_ifs at h with h0
    obtain rfl := Option.some.inj h
    have humod : BitVec.ofNat 64 a % BitVec.ofNat 64 b = BitVec.ofNat 64 (a % b) :=
      ofNat_eq_of_toNat (by rw [BitVec.toNat_umod, hta, htb])
    simp only [foldBinaryOp, ofNat_eq_zero_iff hb, h0, if_false, hmin, false_and,
      BitVec.srem_eq, hma, hmb, humod, ite_self]
  | bitwiseAnd =>
    obtain rfl := Option.some.inj h
    refine congrArg Except.ok (ofNat_eq_of_toNat ?_)
    rw [BitVec.toNat_and, hta, htb]
  | bitwiseOr =>
    obtain rfl := Option.some.inj h
    refine congrArg Except.ok (ofNat_eq_of_toNat ?_)
    rw [BitVec.toNat_or, hta, htb]
  | bitwiseXor =>
    obtain rfl := Option.some.inj h
    refine congrArg Except.ok (ofNat_eq_of_toNat ?_)
    rw [BitVec.toNat_xor, hta, htb]
  | shiftLeft =>
    simp only [natBinary] at h
    split_ifs at h with h64
    obtain rfl := Option.some.inj h
    rw [foldBinaryOp, if_neg (not_shift_out hb h64)]
    refine congrArg Except.ok (ofNat_eq_of_toNat ?_)
    rw [BitVec.toNat_shiftLeft, hta, htb, Nat.shiftLeft_eq]
    exact Nat.mod_eq_of_lt (by omega)
  | shiftRight =>
    simp only [natBinary] at h
    split_ifs at h with h64
    obtain rfl := Option.some.inj h
    have hushr : BitVec.ofNat 64 a >>> b = BitVec.ofNat 64 (a / 2 ^ b) :=
      ofNat_eq_of_toNat (by rw [BitVec.toNat_ushiftRight, hta, Nat.shiftRight_eq_div_pow])
    rw [foldBinaryOp, if_neg (not_shift_out hb h64), htb,
      BitVec.sshiftRight_eq_of_msb_false hma, ite_self, hushr]
  | equal =>
    obtain rfl := Option.some.inj h
    refine boolean_eq ?_
    rw [beq_eq_decide]
    exact decide_eq_decide.2 (ofNat_inj ha hb)
  | notEqual =>
    obtain rfl := Option.some.inj h
    have : boolean (BitVec.ofNat 64 a != BitVec.ofNat 64 b) =
        .ok (BitVec.ofNat 64 (if a ≠ b then 1 else 0)) := by
      refine boolean_eq ?_
      rw [bne, beq_eq_decide, ← decide_not]
      exact decide_eq_decide.2 (not_congr (ofNat_inj ha hb))
    rw [foldBinaryOp, this]
    by_cases hab : a = b <;> simp [hab]
  | less =>
    obtain rfl := Option.some.inj h
    refine boolean_eq ?_
    rw [hslt _ _ hma hmb, ite_self, BitVec.ult, hta, htb]
  | greater =>
    obtain rfl := Option.some.inj h
    refine boolean_eq ?_
    rw [hslt _ _ hmb hma, ite_self, BitVec.ult, hta, htb]
  | lessEqual =>
    obtain rfl := Option.some.inj h
    refine boolean_eq ?_
    rw [hsle _ _ hma hmb, ite_self, BitVec.ule, hta, htb]
  | greaterEqual =>
    obtain rfl := Option.some.inj h
    refine boolean_eq ?_
    rw [hsle _ _ hmb hma, ite_self, BitVec.ule, hta, htb]
  | logicalAnd =>
    obtain rfl := Option.some.inj h
    refine boolean_eq ?_
    rw [ofNat_ne_zero ha, ofNat_ne_zero hb, ← Bool.decide_and]
  | logicalOr =>
    obtain rfl := Option.some.inj h
    refine boolean_eq ?_
    rw [ofNat_ne_zero ha, ofNat_ne_zero hb, ← Bool.decide_or]
  | _ => cases h

end

/-! ## The number of an expression -/

/-- Which forms an expression comes to: a macro call deeper than the cap, an `iota`, a form
    that only the evaluator of values has a case for. -/
structure Forms where
  deep : Bool
  iota : Bool
  valueOnly : Bool
  deriving DecidableEq

namespace Forms

def none : Forms := ⟨false, false, false⟩

def or (f g : Forms) : Forms := ⟨f.deep || g.deep, f.iota || g.iota, f.valueOnly || g.valueOnly⟩

/-- The forms of a list of parts. -/
def all (fs : List Forms) : Forms := fs.foldr or none

/-- The evaluator of values has a case for all of them. -/
def valued (f : Forms) : Bool := !f.deep && !f.iota

/-- The evaluator of types has a case for all of them. -/
def typed (f : Forms) : Bool := !f.deep && !f.valueOnly

end Forms

/-- The expression stands for the number and comes to the forms. The number `i` is what
    `iota` stands for, `args` what the parameters of the template around it do, and `d` is
    the depth the evaluators are at. -/
inductive Means (P : Program) :
    Nat → List (Name × Nat) → ModulePath → Nat → Expr → Nat → Forms → Prop
  | iota {i args m d k} (hi : i < 2 ^ 63) :
    Means P i args m d (.leaf k .iota) i { Forms.none with iota := true }
  | literalInteger {i args m d k} {b : BitVec 64} (hb : b.toNat < 2 ^ 63) :
    Means P i args m d (.literalInteger k b) b.toNat .none
  | literalBool {i args m d k b} :
    Means P i args m d (.literalBool k b) (if b then 1 else 0) .none
  | literalChar {i args m d k b} :
    Means P i args m d (.literalChar k b) b.toNat { Forms.none with valueOnly := true }
  | rttiEnabled {i args m d k} :
    Means P i args m d (.leaf k .rttiEnabled) (if P.rttiEnabled then 1 else 0)
      { Forms.none with valueOnly := true }
  | param {i args m d k x v} (hx : args.lookup x = some v) (hv : v < 2 ^ 63) :
    Means P i args m d (.ident k x) v .none
  | generic {i args m d k x} {b : BitVec 64} (hx : args.lookup x = none)
      (hg : P.genericEnv.lookup x = some (.int b)) (hb : b.toNat < 2 ^ 63) :
    Means P i args m d (.ident k x) b.toNat .none
  | global {i args m d k x init v f} (hx : args.lookup x = none)
      (hg : P.genericEnv.lookup x = none) (hinit : P.constInit m x = some init)
      (h : Means P 0 [] m 0 init v f) :
    Means P i args m d (.ident k x) v f
  | member {i args m d k object x m' init v f}
      (hm : P.resolveMemberObjectImportPath m object = some m')
      (hinit : P.constInit m' x = some init) (h : Means P 0 [] m' 0 init v f) :
    Means P i args m d (.member k object x) v { f with valueOnly := true }
  | dotIdent {i args m d k x} {b : BitVec 64} (hx : dotIdentValue P m k x = .ok (.int b))
      (hb : b.toNat < 2 ^ 63) :
    Means P i args m d (.dotIdent k x) b.toNat { Forms.none with valueOnly := true }
  | bitsetExpr {i args m d k members} {b : BitVec 64}
      (hx : bitsetValue P m k members = .ok (.int b)) (hb : b.toNat < 2 ^ 63) :
    Means P i args m d (.bitsetExpr k members) b.toNat { Forms.none with valueOnly := true }
  | option {i args m d k isEnv es} {b : BitVec 64} (hx : P.optionValue m k = some (.int b))
      (hb : b.toNat < 2 ^ 63) :
    Means P i args m d (.option k isEnv es) b.toNat { Forms.none with valueOnly := true }
  | sizeOf {i args m d k operand} (hb : (P.sizeOf m operand).toNat < 2 ^ 63) :
    Means P i args m d (.sizeOf k operand) (P.sizeOf m operand).toNat .none
  | alignOf {i args m d k operand} (hb : (P.alignOf m operand).toNat < 2 ^ 63) :
    Means P i args m d (.alignOf k operand) (P.alignOf m operand).toNat .none
  | cast {i args m d k value v f} (h : Means P 0 args m 0 value v f) :
    Means P i args m d (.cast k value) v f
  | unary {i args m d k op operand a v f} (h : Means P 0 args m 0 operand a f)
      (hop : natUnary op a = some v) (hv : v < 2 ^ 63) :
    Means P i args m d (.unary k op operand) v f
  | binary {i args m d k op lhs rhs a b v f g} (hl : Means P 0 args m 0 lhs a f)
      (hr : Means P 0 args m 0 rhs b g) (hop : natBinary op a b = some v) (hv : v < 2 ^ 63) :
    Means P i args m d (.binary k op lhs rhs) v (f.or g)
  /-- A `.Variant` of the enum of the other side. -/
  | dotLeft {i args m d k op k' x rhs j b v g} {a : BitVec 64} {e : Failure}
      (hop' : op = .equal ∨ op = .notEqual) (hx : dotIdentValue P m k' x = .error e)
      (hty : P.exprType m rhs.key = some (.enum j)) (ha : P.enumField j x = some a)
      (ha' : a.toNat < 2 ^ 63) (hr : Means P 0 args m 0 rhs b g)
      (hop : natBinary op a.toNat b = some v) (hv : v < 2 ^ 63) :
    Means P i args m d (.binary k op (.dotIdent k' x) rhs) v { g with valueOnly := true }
  | dotRight {i args m d k op k' x lhs j a v f} {b : BitVec 64} {e : Failure}
      (hop' : op = .equal ∨ op = .notEqual) (hx : dotIdentValue P m k' x = .error e)
      (hty : P.exprType m lhs.key = some (.enum j)) (hb : P.enumField j x = some b)
      (hb' : b.toNat < 2 ^ 63) (hl : Means P 0 args m 0 lhs a f)
      (hop : natBinary op a b.toNat = some v) (hv : v < 2 ^ 63) :
    Means P i args m d (.binary k op lhs (.dotIdent k' x)) v { f with valueOnly := true }
  | ternary {i args m d k condition thenExpr elseExpr b v f g}
      (hc : Means P 0 args m 0 condition b f)
      (h : Means P 0 args m 0 (if b ≠ 0 then thenExpr else elseExpr) v g) :
    Means P i args m d (.ternary k condition thenExpr elseExpr) v (f.or g)
  | whenExpr {i args m d k condition thenExpr elseExpr b v f g}
      (hc : Means P 0 args m 0 condition b f)
      (h : Means P 0 args m 0 (if b ≠ 0 then thenExpr else elseExpr) v g) :
    Means P i args m d (.whenExpr k condition thenExpr elseExpr) v
      { f.or g with valueOnly := true }
  | call {i args m d k callee mac v f} {es : List Expr} {cells : List (Nat × Forms)}
      (hmac : P.macroOf m callee = some mac) (hlen : es.length = mac.params.length)
      (hcells : es.length = cells.length)
      (hargs : ∀ p ∈ es.zip cells, Means P 0 args m (d + 1) p.1 p.2.1 p.2.2)
      (h : Means P 0 (mac.params.zip (cells.map (·.1))) m (d + 1) mac.exprTemplate v f) :
    Means P i args m d (.call k callee es) v
      (Forms.or ⟨decide (maxMacroEvalDepth ≤ d), false, false⟩
        ((Forms.all (cells.map (·.2))).or f))

theorem Means.lt {P : Program} {i : Nat} {args : List (Name × Nat)} {m : ModulePath} {d : Nat}
    {e : Expr} {v : Nat} {f : Forms} (h : Means P i args m d e v f) : v < 2 ^ 63 := by
  induction h with
  | literalBool => split <;> omega
  | rttiEnabled => split <;> omega
  | literalChar => omega
  | _ => assumption

/-! ## What the evaluators give -/

/-- The result is the value, or none where there is not to be one. -/
def Gives {α : Type} (ok : Bool) (v : α) : Except Failure α → Prop
  | .ok w => ok = true ∧ w = v
  | .error _ => ok = false

section

variable {α β : Type} {ok c : Bool} {v : α}

theorem gives_ok : Gives true v (.ok v) := ⟨rfl, rfl⟩

theorem gives_notConstant : Gives false v notConstant := rfl

/-- A result that another step takes up, unless it is missing. -/
theorem Gives.bind {w : β} {r : Except Failure α} {g : α → Except Failure β} (h : Gives ok v r)
    (hg : ok = true → Gives c w (g v)) : Gives (ok && c) w (r >>= g) := by
  cases r with
  | ok u =>
    obtain ⟨rfl, rfl⟩ := h
    exact hg rfl
  | error f =>
    cases h
    exact rfl

theorem Gives.map {w : β} {r : Except Failure α} {g : α → β} (h : Gives ok v r) (hg : g v = w) :
    Gives ok w (r.map g) := by
  cases r with
  | ok u =>
    obtain ⟨rfl, rfl⟩ := h
    exact ⟨rfl, hg⟩
  | error f => exact h

theorem Gives.asInt {v : BitVec 64} {r : Outcome} (h : Gives ok (Value.int v) r) :
    Gives ok v (asInt r) := by
  cases r with
  | ok u =>
    obtain ⟨rfl, rfl⟩ := h
    exact gives_ok
  | error f => exact h

theorem gives_iff {r : Except Failure α} :
    Gives ok v r ↔ (ok = true ∧ r = .ok v) ∨ (ok = false ∧ ∃ f, r = .error f) := by
  cases r <;> cases ok <;> simp [Gives]

end

/-- A number as a folded constant. -/
def num (n : Nat) : Value := .int (BitVec.ofNat 64 n)

theorem num_toNat (b : BitVec 64) : num b.toNat = .int b := by
  rw [num, BitVec.ofNat_toNat, BitVec.setWidth_eq]

/-- The bindings of a template, as the evaluator of values has them. -/
def valueArgs (args : List (Name × Nat)) : List (Name × Value) :=
  args.map fun p => (p.1, num p.2)

def typeArgs (args : List (Name × Nat)) : List (Name × BitVec 64) :=
  args.map fun p => (p.1, BitVec.ofNat 64 p.2)

theorem lookup_map_snd {α β : Type} (g : α → β) (l : List (Name × α)) (x : Name) :
    (l.map fun p => (p.1, g p.2)).lookup x = (l.lookup x).map g := by
  induction l with
  | nil => rfl
  | cons p l ih =>
    obtain ⟨y, a⟩ := p
    cases hx : x == y <;> simp [List.lookup_cons, hx, ih]

theorem zip_map_args {α : Type} (g : Nat → α) (params : List Name) (cells : List (Nat × Forms)) :
    ((params.zip (cells.map (·.1))).map fun p => (p.1, g p.2)) =
      params.zip (cells.map fun c => g c.1) := by
  induction params generalizing cells with
  | nil => rfl
  | cons x params ih =>
    cases cells with
    | nil => rfl
    | cons c cells => simp only [List.map_cons, List.zip_cons_cons, ih]

/-- The evaluator of values gives the number. -/
def ValueGives (P : Program) (args : List (Name × Nat)) (m : ModulePath) (d : Nat) (e : Expr)
    (ok : Bool) (v : Nat) : Prop :=
  ∀ nest, Ends (evaluateConstValueImpl P) (call ⟨m, valueArgs args, d, nest, e⟩)
    (Gives ok (num v))

/-- The evaluator of types gives the number. -/
def TypeGives (P : Program) (i : Nat) (args : List (Name × Nat)) (m : ModulePath) (d : Nat)
    (e : Expr) (ok : Bool) (v : Nat) : Prop :=
  ∀ nest, Ends (evalIntegerConstExpr P) (call ⟨m, typeArgs args, BitVec.ofNat 64 i, d, nest, e⟩)
    (Gives ok (BitVec.ofNat 64 v))

section

variable {P : Program} {args : List (Name × Nat)} {m : ModulePath} {d : Nat} {e : Expr}

theorem valueArgs_lookup (x : Name) : (valueArgs args).lookup x = (args.lookup x).map num :=
  lookup_map_snd num args x

theorem valueArgs_zip (params : List Name) (cells : List (Nat × Forms)) :
    valueArgs (params.zip (cells.map (·.1))) = params.zip (cells.map fun c => num c.1) :=
  zip_map_args num params cells

/-- A form with a value that is looked up. -/
theorem ValueGives.of_value {b : BitVec 64}
    (h : ∀ nest, evaluateConstValueImpl P ⟨m, valueArgs args, d, nest, e⟩ = pure (.ok (.int b))) :
    ValueGives P args m d e true b.toNat := by
  intro nest
  refine .call ?_
  rw [h, num_toNat]
  exact .pure gives_ok

theorem ValueGives.of_call {args' : List (Name × Nat)} {m' : ModulePath} {d' : Nat} {e' : Expr}
    {ok : Bool} {v : Nat}
    (h : ∀ nest, evaluateConstValueImpl P ⟨m, valueArgs args, d, nest, e⟩ =
      call ⟨m', valueArgs args', d', nest, e'⟩)
    (h' : ValueGives P args' m' d' e' ok v) : ValueGives P args m d e ok v := by
  intro nest
  refine .call ?_
  rw [h]
  exact h' nest

/-- Folding an operator on a number. -/
theorem gives_foldUnary {op : UnaryOp} {a v : Nat} {ok : Bool} {r : Outcome}
    (h : Gives ok (num a) r) (ha : a < 2 ^ 63) (hop : natUnary op a = some v) :
    Gives ok (num v) (do (← foldUnaryOp op (← asInt r)) |> Value.int |> .ok) := by
  have := h.asInt.bind (c := true) (w := num v)
    (g := fun u => do (← foldUnaryOp op u) |> Value.int |> .ok) fun _ => by
      rw [foldUnaryOp_ofNat ha hop]
      exact gives_ok
  rwa [Bool.and_true] at this

/-- Folding an operator on two numbers, and what is done with the result. -/
theorem gives_foldBinary {α : Type} {op : BinaryOp} {a b v : Nat} {ok ok' : Bool}
    {l r : IntOutcome} {s : ConstFoldSign} {w : α} {g : BitVec 64 → Except Failure α}
    (hl : Gives ok (BitVec.ofNat 64 a) l) (hr : Gives ok' (BitVec.ofNat 64 b) r)
    (ha : a < 2 ^ 63) (hb : b < 2 ^ 63) (hv : v < 2 ^ 63) (hop : natBinary op a b = some v)
    (hg : g (BitVec.ofNat 64 v) = .ok w) :
    Gives (ok && ok') w (do g (← foldBinaryOp op (← l) (← r) s)) := by
  refine hl.bind fun _ => ?_
  have := hr.bind (c := true) (w := w)
    (g := fun u => foldBinaryOp op (BitVec.ofNat 64 a) u s >>= g) fun _ => by
      rw [foldBinaryOp_ofNat s ha hb hv hop]
      show Gives true w (g _)
      rw [hg]
      exact gives_ok
  rwa [Bool.and_true] at this

theorem valueGives_unary {k : ExprKey} {op : UnaryOp} {a v : Nat} {ok : Bool}
    (h : ValueGives P args m 0 e ok a) (ha : a < 2 ^ 63) (hop : natUnary op a = some v) :
    ValueGives P args m d (.unary k op e) ok v := by
  intro nest
  have hne : ¬ (op = .addressOf ∨ op = .deref) := by
    rintro (rfl | rfl) <;> cases hop
  refine .call ?_
  rw [evaluateConstValueImpl]
  dsimp only
  rw [if_neg hne]
  exact (h nest).bind fun r hr => .pure (gives_foldUnary hr ha hop)

end

section

variable {P : Program} {args : List (Name × Nat)} {m : ModulePath} {d : Nat}

/-- A side of a comparison with a number of its own. -/
theorem resolveSide_ends {side other : Expr} {a : Nat} {ok : Bool} {nest : Nat} {dep : Nat}
    {whole : Expr} (h : ValueGives P args m 0 side ok a)
    (hdot : ok = false → ∀ k x, side ≠ .dotIdent k x) :
    Ends (evaluateConstValueImpl P)
      (resolveSide P ⟨m, valueArgs args, dep, nest, whole⟩ side other)
      (Gives ok (BitVec.ofNat 64 a)) := by
  refine (h nest).bind fun r hr => ?_
  cases r with
  | ok v => exact .pure hr.asInt
  | error f =>
    cases hr
    cases side with
    | dotIdent k x => exact absurd rfl (hdot rfl k x)
    | _ => exact .pure rfl

/-- A `.Variant` that takes its enum from the other side. -/
theorem resolveSide_dotIdent {k : ExprKey} {x : Name} {other : Expr} {j : Nat} {a : BitVec 64}
    {f : Failure} {nest : Nat} {dep : Nat} {whole : Expr} (hx : dotIdentValue P m k x = .error f)
    (hty : P.exprType m other.key = some (.enum j)) (ha : P.enumField j x = some a) :
    Ends (evaluateConstValueImpl P)
      (resolveSide P ⟨m, valueArgs args, dep, nest, whole⟩ (.dotIdent k x) other)
      (Gives true (BitVec.ofNat 64 a.toNat)) := by
  have hcall : Ends (evaluateConstValueImpl P)
      (call ⟨m, valueArgs args, 0, nest, .dotIdent k x⟩) fun r => r = .error f := by
    refine .call ?_
    rw [evaluateConstValueImpl]
    dsimp only
    rw [hx]
    exact .pure rfl
  refine hcall.bind fun r hr => ?_
  subst hr
  dsimp only
  rw [hty]
  dsimp only
  rw [ha, BitVec.ofNat_toNat, BitVec.setWidth_eq]
  exact .pure gives_ok

theorem valueGives_comparison {k : ExprKey} {op : BinaryOp} {lhs rhs : Expr} {a b v : Nat}
    {ok ok' : Bool} (hop' : op = .equal ∨ op = .notEqual)
    (hl : ∀ nest, Ends (evaluateConstValueImpl P)
      (resolveSide P ⟨m, valueArgs args, d, nest, .binary k op lhs rhs⟩ lhs rhs)
      (Gives ok (BitVec.ofNat 64 a)))
    (hr : ∀ nest, Ends (evaluateConstValueImpl P)
      (resolveSide P ⟨m, valueArgs args, d, nest, .binary k op lhs rhs⟩ rhs lhs)
      (Gives ok' (BitVec.ofNat 64 b)))
    (ha : a < 2 ^ 63) (hb : b < 2 ^ 63) (hv : v < 2 ^ 63) (hop : natBinary op a b = some v) :
    ValueGives P args m d (.binary k op lhs rhs) (ok && ok') v := by
  intro nest
  refine .call ?_
  rw [evaluateConstValueImpl]
  dsimp only
  rw [if_pos hop']
  refine (hl nest).bind fun l hl => (hr nest).bind fun r hr => .pure ?_
  exact gives_foldBinary hl hr ha hb hv hop rfl

theorem valueGives_binary {k : ExprKey} {op : BinaryOp} {lhs rhs : Expr} {a b v : Nat}
    {ok ok' : Bool} (hl : ValueGives P args m 0 lhs ok a) (hr : ValueGives P args m 0 rhs ok' b)
    (hdotl : ok = false → ∀ k x, lhs ≠ .dotIdent k x)
    (hdotr : ok' = false → ∀ k x, rhs ≠ .dotIdent k x)
    (ha : a < 2 ^ 63) (hb : b < 2 ^ 63) (hv : v < 2 ^ 63) (hop : natBinary op a b = some v) :
    ValueGives P args m d (.binary k op lhs rhs) (ok && ok') v := by
  by_cases hop' : op = .equal ∨ op = .notEqual
  · exact valueGives_comparison hop' (fun _ => resolveSide_ends hl hdotl)
      (fun _ => resolveSide_ends hr hdotr) ha hb hv hop
  · intro nest
    refine .call ?_
    rw [evaluateConstValueImpl]
    dsimp only
    rw [if_neg hop']
    refine (hl nest).bind fun l hl => (hr nest).bind fun r hr => .pure ?_
    exact gives_foldBinary hl.asInt hr.asInt ha hb hv hop rfl

/-- A condition and the branch it takes. -/
theorem valueGives_branch {e condition thenExpr elseExpr : Expr} {b v : Nat} {ok ok' : Bool}
    (hstep : ∀ nest, evaluateConstValueImpl P ⟨m, valueArgs args, d, nest, e⟩ = (do
      match asInt (← call ⟨m, valueArgs args, 0, nest, condition⟩) with
      | .ok v => call ⟨m, valueArgs args, 0, nest, if v ≠ 0 then thenExpr else elseExpr⟩
      | .error f => pure (.error f)))
    (hc : ValueGives P args m 0 condition ok b) (hb : b < 2 ^ 63)
    (h : ValueGives P args m 0 (if b ≠ 0 then thenExpr else elseExpr) ok' v) :
    ValueGives P args m d e (ok && ok') v := by
  intro nest
  refine .call ?_
  rw [hstep]
  refine (hc nest).bind fun r hr => ?_
  have hr := hr.asInt
  cases ha : asInt r with
  | error f =>
    rw [ha] at hr
    cases hr
    exact .pure rfl
  | ok u =>
    rw [ha] at hr
    obtain ⟨rfl, rfl⟩ := hr
    have hne : (BitVec.ofNat 64 b ≠ 0) = (b ≠ 0) := propext (not_congr (ofNat_eq_zero_iff hb))
    dsimp only
    simp only [hne]
    exact h nest

end

section

variable {P : Program} {args : List (Name × Nat)} {m : ModulePath} {d : Nat}

theorem Forms.all_cons (f : Forms) (fs : List Forms) :
    Forms.all (f :: fs) = f.or (Forms.all fs) := rfl

theorem Forms.valued_or (f g : Forms) : (f.or g).valued = (f.valued && g.valued) := by
  simp only [Forms.valued, Forms.or]
  cases f.deep <;> cases g.deep <;> cases f.iota <;> cases g.iota <;> rfl

theorem Forms.typed_or (f g : Forms) : (f.or g).typed = (f.typed && g.typed) := by
  simp only [Forms.typed, Forms.or]
  cases f.deep <;> cases g.deep <;> cases f.valueOnly <;> cases g.valueOnly <;> rfl

/-- The arguments of a call, up to the first without a value. -/
theorem evaluateArgs_ends {nest : Nat} {whole : Expr} {es : List Expr}
    {cells : List (Nat × Forms)} (hlen : es.length = cells.length)
    (h : ∀ p ∈ es.zip cells, ValueGives P args m (d + 1) p.1 p.2.2.valued p.2.1) :
    Ends (evaluateConstValueImpl P) (evaluateArgs ⟨m, valueArgs args, d, nest, whole⟩ es)
      (Gives (Forms.all (cells.map (·.2))).valued (cells.map fun c => num c.1)) := by
  induction es generalizing cells with
  | nil =>
    cases cells with
    | nil => exact .pure gives_ok
    | cons c cells => cases hlen
  | cons e es ih =>
    cases cells with
    | nil => cases hlen
    | cons c cells =>
      have hhead := h (e, c) List.mem_cons_self
      have htail := ih (Nat.succ.inj hlen) fun p hp => h p (List.mem_cons_of_mem _ hp)
      rw [List.map_cons, Forms.all_cons, Forms.valued_or]
      refine (hhead nest).bind fun r hr => ?_
      cases r with
      | error f =>
        have hr : c.2.valued = false := hr
        rw [hr]
        exact .pure rfl
      | ok v =>
        obtain ⟨hok, rfl⟩ := hr
        rw [hok]
        exact htail.bind fun vs hvs => .pure (hvs.map rfl)

theorem valueGives_call {k : ExprKey} {callee : Expr} {mac : MacroSymbol} {v : Nat} {ok : Bool}
    {es : List Expr} {cells : List (Nat × Forms)} (hmac : P.macroOf m callee = some mac)
    (hlen : es.length = mac.params.length) (hcells : es.length = cells.length)
    (hargs : ∀ p ∈ es.zip cells, ValueGives P args m (d + 1) p.1 p.2.2.valued p.2.1)
    (h : ValueGives P (mac.params.zip (cells.map (·.1))) m (d + 1) mac.exprTemplate ok v) :
    ValueGives P args m d (.call k callee es)
      (!decide (maxMacroEvalDepth ≤ d) && ((Forms.all (cells.map (·.2))).valued && ok)) v := by
  intro nest
  refine .call ?_
  rw [evaluateConstValueImpl]
  dsimp only
  rw [hmac]
  dsimp only
  by_cases hd : maxMacroEvalDepth ≤ d
  · rw [if_neg fun hcap => absurd hcap.2 (Nat.not_lt.2 hd), decide_eq_true hd]
    exact .pure rfl
  · rw [if_pos ⟨hlen, Nat.not_le.1 hd⟩, decide_eq_false hd]
    refine (evaluateArgs_ends hcells hargs).bind fun r hr => ?_
    cases r with
    | error f =>
      have hr : (Forms.all (cells.map (·.2))).valued = false := hr
      rw [hr]
      exact .pure rfl
    | ok vs =>
      obtain ⟨hok, rfl⟩ := hr
      rw [hok]
      have := h (nest + 1)
      rwa [valueArgs_zip] at this

end

theorem Means.valued_of_dotIdent {P : Program} {i : Nat} {args : List (Name × Nat)}
    {m : ModulePath} {d : Nat} {e : Expr} {v : Nat} {f : Forms} (h : Means P i args m d e v f)
    (hf : f.valued = false) (k : ExprKey) (x : Name) : e ≠ .dotIdent k x := by
  rintro rfl
  cases h
  cases hf

/-- The evaluator of values gives the number of an expression, unless there is an `iota` or
    a macro call too deep. -/
theorem Means.value {P : Program} {i : Nat} {args : List (Name × Nat)} {m : ModulePath} {d : Nat}
    {e : Expr} {v : Nat} {f : Forms} (h : Means P i args m d e v f) :
    ValueGives P args m d e f.valued v := by
  induction h with
  | iota hi => exact fun _ => .call (.pure rfl)
  | literalInteger hb => exact .of_value fun _ => rfl
  | literalBool =>
    refine fun _ => .call (.pure ⟨rfl, ?_⟩)
    split <;> rfl
  | @literalChar _ _ _ _ _ b =>
    refine fun _ => .call (.pure ⟨rfl, ?_⟩)
    exact congrArg Value.int (ofNat_eq_of_toNat (BitVec.toNat_setWidth_of_le (by omega)))
  | rttiEnabled =>
    refine fun _ => .call (.pure ⟨rfl, ?_⟩)
    split <;> rfl
  | param hx hv =>
    refine fun _ => .call ?_
    rw [evaluateConstValueImpl]
    dsimp only
    rw [valueArgs_lookup, hx]
    exact .pure gives_ok
  | generic hx hg hb =>
    refine .of_value fun _ => ?_
    rw [evaluateConstValueImpl]
    dsimp only
    rw [valueArgs_lookup, hx]
    simp only [Option.map_none, hg]
  | global hx hg hinit _ ih =>
    refine ValueGives.of_call (fun _ => ?_) ih
    rw [evaluateConstValueImpl]
    dsimp only
    rw [valueArgs_lookup, hx]
    simp only [Option.map_none, hg, hinit]
    rfl
  | member hm hinit _ ih =>
    refine ValueGives.of_call (fun _ => ?_) ih
    rw [evaluateConstValueImpl]
    simp only [hm, hinit]
    rfl
  | dotIdent hx hb =>
    refine .of_value fun _ => ?_
    rw [evaluateConstValueImpl]
    simp only [hx]
  | bitsetExpr hx hb =>
    refine .of_value fun _ => ?_
    rw [evaluateConstValueImpl]
    simp only [hx]
  | option hx hb =>
    refine .of_value fun _ => ?_
    rw [evaluateConstValueImpl]
    simp only [hx]
    rfl
  | sizeOf hb => exact .of_value fun _ => rfl
  | alignOf hb => exact .of_value fun _ => rfl
  | cast _ ih => exact ValueGives.of_call (fun _ => rfl) ih
  | unary h hop hv ih => exact valueGives_unary ih h.lt hop
  | binary hl hr hop hv ihl ihr =>
    rw [Forms.valued_or]
    exact valueGives_binary ihl ihr hl.valued_of_dotIdent hr.valued_of_dotIdent hl.lt hr.lt hv hop
  | @dotLeft _ _ _ _ _ _ _ _ _ _ _ _ g _ _ hop' hx hty ha ha' hr hop hv ihr =>
    show ValueGives _ _ _ _ _ g.valued _
    rw [← Bool.true_and g.valued]
    exact valueGives_comparison hop' (fun _ => resolveSide_dotIdent hx hty ha)
      (fun _ => resolveSide_ends ihr hr.valued_of_dotIdent) ha' hr.lt hv hop
  | @dotRight _ _ _ _ _ _ _ _ _ _ _ _ f _ _ hop' hx hty hb hb' hl hop hv ihl =>
    show ValueGives _ _ _ _ _ f.valued _
    rw [← Bool.and_true f.valued]
    exact valueGives_comparison hop' (fun _ => resolveSide_ends ihl hl.valued_of_dotIdent)
      (fun _ => resolveSide_dotIdent hx hty hb) hl.lt hb' hv hop
  | ternary hc h ihc ih =>
    rw [Forms.valued_or]
    exact valueGives_branch (fun _ => rfl) ihc hc.lt ih
  | @whenExpr _ _ _ _ _ _ _ _ _ _ f g hc h ihc ih =>
    show ValueGives _ _ _ _ _ (f.or g).valued _
    rw [Forms.valued_or]
    exact valueGives_branch (fun _ => rfl) ihc hc.lt ih
  | @call _ _ _ d _ _ _ _ f _ cells hmac hlen hcells hargs h ihargs ih =>
    have hdeep : Forms.valued ⟨decide (maxMacroEvalDepth ≤ d), false, false⟩ =
        !decide (maxMacroEvalDepth ≤ d) := Bool.and_true _
    rw [Forms.valued_or, Forms.valued_or, hdeep]
    exact valueGives_call hmac hlen hcells ihargs ih

/-! ## The evaluator of types -/

section

variable {P : Program} {i : Nat} {args : List (Name × Nat)} {m : ModulePath} {d : Nat} {e : Expr}

theorem typeArgs_lookup (x : Name) :
    (typeArgs args).lookup x = (args.lookup x).map (BitVec.ofNat 64) :=
  lookup_map_snd (BitVec.ofNat 64) args x

theorem typeArgs_zip (params : List Name) (cells : List (Nat × Forms)) :
    typeArgs (params.zip (cells.map (·.1))) =
      params.zip (cells.map fun c => BitVec.ofNat 64 c.1) :=
  zip_map_args (BitVec.ofNat 64) params cells

theorem Forms.typed_valueOnly (f : Forms) : { f with valueOnly := true }.typed = false :=
  Bool.and_false _

/-- A form with a value that is looked up. -/
theorem TypeGives.of_value {b : BitVec 64}
    (h : ∀ nest, evalIntegerConstExpr P ⟨m, typeArgs args, BitVec.ofNat 64 i, d, nest, e⟩ =
      pure (.ok b)) :
    TypeGives P i args m d e true b.toNat := by
  intro nest
  refine .call ?_
  rw [h, BitVec.ofNat_toNat, BitVec.setWidth_eq]
  exact .pure gives_ok

/-- A form there is no case for. -/
theorem TypeGives.of_missing {f : Forms} {v : Nat}
    (h : ∀ nest, evalIntegerConstExpr P ⟨m, typeArgs args, BitVec.ofNat 64 i, d, nest, e⟩ =
      pure notConstant) :
    TypeGives P i args m d e { f with valueOnly := true }.typed v := by
  intro nest
  refine .call ?_
  rw [h, Forms.typed_valueOnly]
  exact .pure gives_notConstant

theorem TypeGives.of_call {args' : List (Name × Nat)} {m' : ModulePath} {d' : Nat} {e' : Expr}
    {ok : Bool} {v : Nat}
    (h : ∀ nest, evalIntegerConstExpr P ⟨m, typeArgs args, BitVec.ofNat 64 i, d, nest, e⟩ =
      call ⟨m', typeArgs args', BitVec.ofNat 64 0, d', nest, e'⟩)
    (h' : TypeGives P 0 args' m' d' e' ok v) : TypeGives P i args m d e ok v := by
  intro nest
  refine .call ?_
  rw [h]
  exact h' nest

theorem typeGives_unary {k : ExprKey} {op : UnaryOp} {a v : Nat} {ok : Bool}
    (h : TypeGives P 0 args m 0 e ok a) (ha : a < 2 ^ 63) (hop : natUnary op a = some v) :
    TypeGives P i args m d (.unary k op e) ok v := by
  intro nest
  refine .call ((h nest).bind fun r hr => .pure ?_)
  have := hr.bind (c := true) (w := BitVec.ofNat 64 v) (g := foldUnaryOp op) fun _ => by
    rw [foldUnaryOp_ofNat ha hop]
    exact gives_ok
  rwa [Bool.and_true] at this

theorem typeGives_binary {k : ExprKey} {op : BinaryOp} {lhs rhs : Expr} {a b v : Nat}
    {ok ok' : Bool} (hl : TypeGives P 0 args m 0 lhs ok a) (hr : TypeGives P 0 args m 0 rhs ok' b)
    (ha : a < 2 ^ 63) (hb : b < 2 ^ 63) (hv : v < 2 ^ 63) (hop : natBinary op a b = some v) :
    TypeGives P i args m d (.binary k op lhs rhs) (ok && ok') v := by
  intro nest
  refine .call ((hl nest).bind fun l hl => (hr nest).bind fun r hr => .pure ?_)
  have := gives_foldBinary (g := pure) (s := .unsigned) hl hr ha hb hv hop rfl
  simpa only [bind_pure] using this

theorem typeGives_branch {k : ExprKey} {condition thenExpr elseExpr : Expr} {b v : Nat}
    {ok ok' : Bool} (hc : TypeGives P 0 args m 0 condition ok b) (hb : b < 2 ^ 63)
    (h : TypeGives P 0 args m 0 (if b ≠ 0 then thenExpr else elseExpr) ok' v) :
    TypeGives P i args m d (.ternary k condition thenExpr elseExpr) (ok && ok') v := by
  intro nest
  refine .call ((hc nest).bind fun r hr => ?_)
  cases r with
  | error f =>
    cases hr
    exact .pure rfl
  | ok u =>
    obtain ⟨rfl, rfl⟩ := hr
    have hne : (BitVec.ofNat 64 b ≠ 0) = (b ≠ 0) := propext (not_congr (ofNat_eq_zero_iff hb))
    dsimp only
    simp only [hne]
    exact h nest

theorem evalIntegerArgs_ends {nest : Nat} {whole : Expr} {es : List Expr}
    {cells : List (Nat × Forms)} (hlen : es.length = cells.length)
    (h : ∀ p ∈ es.zip cells, TypeGives P 0 args m (d + 1) p.1 p.2.2.typed p.2.1) :
    Ends (evalIntegerConstExpr P)
      (evalIntegerArgs ⟨m, typeArgs args, BitVec.ofNat 64 i, d, nest, whole⟩ es)
      (Gives (Forms.all (cells.map (·.2))).typed (cells.map fun c => BitVec.ofNat 64 c.1)) := by
  induction es generalizing cells with
  | nil =>
    cases cells with
    | nil => exact .pure gives_ok
    | cons c cells => cases hlen
  | cons e es ih =>
    cases cells with
    | nil => cases hlen
    | cons c cells =>
      have hhead := h (e, c) List.mem_cons_self
      have htail := ih (Nat.succ.inj hlen) fun p hp => h p (List.mem_cons_of_mem _ hp)
      rw [List.map_cons, Forms.all_cons, Forms.typed_or]
      refine (hhead nest).bind fun r hr => ?_
      cases r with
      | error f =>
        have hr : c.2.typed = false := hr
        rw [hr]
        exact .pure rfl
      | ok v =>
        obtain ⟨hok, rfl⟩ := hr
        rw [hok]
        exact htail.bind fun vs hvs => .pure (hvs.map rfl)

theorem typeGives_call {k : ExprKey} {callee : Expr} {mac : MacroSymbol} {v : Nat} {ok : Bool}
    {es : List Expr} {cells : List (Nat × Forms)} (hmac : P.macroOf m callee = some mac)
    (hlen : es.length = mac.params.length) (hcells : es.length = cells.length)
    (hargs : ∀ p ∈ es.zip cells, TypeGives P 0 args m (d + 1) p.1 p.2.2.typed p.2.1)
    (h : TypeGives P 0 (mac.params.zip (cells.map (·.1))) m (d + 1) mac.exprTemplate ok v) :
    TypeGives P i args m d (.call k callee es)
      (!decide (maxMacroEvalDepth ≤ d) && ((Forms.all (cells.map (·.2))).typed && ok)) v := by
  intro nest
  refine .call ?_
  rw [evalIntegerConstExpr]
  dsimp only
  rw [hmac]
  dsimp only
  by_cases hd : maxMacroEvalDepth ≤ d
  · rw [if_neg fun hcap => absurd hcap.2 (Nat.not_lt.2 hd), decide_eq_true hd]
    exact .pure rfl
  · rw [if_pos ⟨hlen, Nat.not_le.1 hd⟩, decide_eq_false hd]
    refine (evalIntegerArgs_ends hcells hargs).bind fun r hr => ?_
    cases r with
    | error f =>
      have hr : (Forms.all (cells.map (·.2))).typed = false := hr
      rw [hr]
      exact .pure rfl
    | ok vs =>
      obtain ⟨hok, rfl⟩ := hr
      rw [hok]
      have := h (nest + 1)
      rwa [typeArgs_zip] at this

/-- A side that has no value leaves the comparison without one. -/
theorem typeGives_dotIdent {k : ExprKey} {x : Name} {v : Nat} :
    TypeGives P i args m d (.dotIdent k x) false v :=
  fun _ => .call (.pure gives_notConstant)

end

/-- The evaluator of types gives the number of an expression, unless there is a form it has no
    case for or a macro call too deep. -/
theorem Means.type {P : Program} {i : Nat} {args : List (Name × Nat)} {m : ModulePath} {d : Nat}
    {e : Expr} {v : Nat} {f : Forms} (h : Means P i args m d e v f) :
    TypeGives P i args m d e f.typed v := by
  induction h with
  | iota hi => exact fun _ => .call (.pure gives_ok)
  | literalInteger hb => exact .of_value fun _ => rfl
  | literalBool =>
    refine fun _ => .call (.pure ⟨rfl, ?_⟩)
    split <;> rfl
  | literalChar => exact .of_missing fun _ => rfl
  | rttiEnabled => exact .of_missing fun _ => rfl
  | param hx hv =>
    refine fun _ => .call ?_
    rw [evalIntegerConstExpr]
    dsimp only
    rw [typeArgs_lookup, hx]
    exact .pure gives_ok
  | generic hx hg hb =>
    refine .of_value fun _ => ?_
    rw [evalIntegerConstExpr]
    dsimp only
    rw [typeArgs_lookup, hx]
    simp only [Option.map_none, hg]
    rfl
  | global hx hg hinit _ ih =>
    refine TypeGives.of_call (fun _ => ?_) ih
    rw [evalIntegerConstExpr]
    dsimp only
    rw [typeArgs_lookup, hx]
    simp only [Option.map_none, hg, hinit]
    rfl
  | member hm hinit _ ih => exact .of_missing fun _ => rfl
  | dotIdent hx hb => exact .of_missing fun _ => rfl
  | bitsetExpr hx hb => exact .of_missing fun _ => rfl
  | option hx hb => exact .of_missing fun _ => rfl
  | sizeOf hb => exact .of_value fun _ => rfl
  | alignOf hb => exact .of_value fun _ => rfl
  | cast _ ih => exact TypeGives.of_call (fun _ => rfl) ih
  | unary h hop hv ih => exact typeGives_unary ih h.lt hop
  | binary hl hr hop hv ihl ihr =>
    rw [Forms.typed_or]
    exact typeGives_binary ihl ihr hl.lt hr.lt hv hop
  | @dotLeft _ _ _ _ _ _ _ _ _ _ _ _ g _ _ hop' hx hty ha ha' hr hop hv ihr =>
    rw [Forms.typed_valueOnly, ← Bool.false_and g.typed]
    exact typeGives_binary typeGives_dotIdent ihr ha' hr.lt hv hop
  | @dotRight _ _ _ _ _ _ _ _ _ _ _ _ f _ _ hop' hx hty hb hb' hl hop hv ihl =>
    rw [Forms.typed_valueOnly, ← Bool.and_false f.typed]
    exact typeGives_binary ihl typeGives_dotIdent hl.lt hb' hv hop
  | ternary hc h ihc ih =>
    rw [Forms.typed_or]
    exact typeGives_branch ihc hc.lt ih
  | whenExpr hc h ihc ih => exact .of_missing fun _ => rfl
  | @call _ _ _ d _ _ _ _ f _ cells hmac hlen hcells hargs h ihargs ih =>
    have hdeep : Forms.typed ⟨decide (maxMacroEvalDepth ≤ d), false, false⟩ =
        !decide (maxMacroEvalDepth ≤ d) := Bool.and_true _
    rw [Forms.typed_or, Forms.typed_or, hdeep]
    exact typeGives_call hmac hlen hcells ihargs ih

/-! ## Agreement -/

/-- The evaluator of types gives a number for an expression of a module; `i` is the index of
    the enum field it initializes. -/
def EvaluatesToLength (P : Program) (m : ModulePath) (i : Nat) (e : Expr) (v : BitVec 64) : Prop :=
  Returns (evalIntegerConstExpr P) ⟨m, [], BitVec.ofNat 64 i, 0, 0, e⟩ (.ok v)

/-- The constant is a number. -/
def EvaluatesToInteger (P : Program) (m : ModulePath) (e : Expr) (v : BitVec 64) : Prop :=
  EvaluatesTo P m e (.ok (.int v))

/-- Either evaluator gives a number when the other does, and they are the same, the one read
    as unsigned and the other as signed. -/
def EvaluatorsAgree (P : Program) (m : ModulePath) (i : Nat) (e : Expr) : Prop :=
  ((∃ v, EvaluatesToLength P m i e v) ↔ ∃ v, EvaluatesToInteger P m e v) ∧
    ∀ v w, EvaluatesToLength P m i e v → EvaluatesToInteger P m e w → (v.toNat : Int) = w.toInt

section

variable {P : Program} {i : Nat} {m : ModulePath} {e : Expr} {v : Nat} {f : Forms}

theorem Means.evaluatesToLength_iff (h : Means P i [] m 0 e v f) {w : BitVec 64} :
    EvaluatesToLength P m i e w ↔ f.typed = true ∧ w = BitVec.ofNat 64 v := by
  obtain ⟨r, hr, hg⟩ := (h.type 0).returns
  constructor
  · intro hw
    obtain rfl := hr.unique hw
    exact hg
  · rintro ⟨hok, rfl⟩
    rw [hok] at hg
    obtain ⟨-, rfl⟩ | ⟨hbad, -⟩ := gives_iff.1 hg
    · exact hr
    · cases hbad

theorem Means.evaluatesToInteger_iff (h : Means P i [] m 0 e v f) {w : BitVec 64} :
    EvaluatesToInteger P m e w ↔ f.valued = true ∧ w = BitVec.ofNat 64 v := by
  obtain ⟨r, hr, hg⟩ := (h.value 0).returns
  constructor
  · intro hw
    obtain rfl := hr.unique hw
    exact ⟨hg.1, Value.int.inj hg.2⟩
  · rintro ⟨hok, rfl⟩
    rw [hok] at hg
    obtain ⟨-, rfl⟩ | ⟨hbad, -⟩ := gives_iff.1 hg
    · exact hr
    · cases hbad

theorem Forms.valued_eq_typed_iff (f : Forms) :
    (f.typed = true ↔ f.valued = true) ↔ f.deep = true ∨ f.iota = f.valueOnly := by
  obtain ⟨a, b, c⟩ := f
  cases a <;> cases b <;> cases c <;> decide

/-- The evaluators agree on an expression where both refuse a macro call that is too deep,
    and otherwise where there is an `iota` if and only if there is a form that only the
    evaluator of values has. -/
theorem evaluators_agree_iff (h : Means P i [] m 0 e v f) :
    EvaluatorsAgree P m i e ↔ f.deep = true ∨ f.iota = f.valueOnly := by
  rw [← Forms.valued_eq_typed_iff, EvaluatorsAgree]
  simp only [h.evaluatesToLength_iff, h.evaluatesToInteger_iff, exists_and_left, exists_eq,
    and_true]
  refine and_iff_left ?_
  rintro _ _ ⟨-, rfl⟩ ⟨-, rfl⟩
  rw [BitVec.toInt_eq_toNat_of_msb (msb_small h.lt)]

end

/-- `macro f(x) -> x + 1` -/
def increment : Program :=
  oneModule [("f", .macroSymbol
    ⟨["x"], .binary 1 .add (.ident 2 "x") (.literalInteger 3 1), true⟩)]

/-- `f(2)` -/
def incrementTwo : Expr := .call 4 (.ident 5 "f") [.literalInteger 6 2]

theorem incrementTwo_means : Means increment 0 [] "m" 0 incrementTwo 3 .none := by
  have hargs : ∀ p ∈ [Expr.literalInteger 6 2].zip [(2, Forms.none)],
      Means increment 0 [] "m" 1 p.1 p.2.1 p.2.2 := by
    intro p hp
    obtain rfl := List.mem_singleton.1 hp
    exact .literalInteger (by decide)
  have hmac : increment.macroOf "m" (.ident 5 "f") =
      some ⟨["x"], .binary 1 .add (.ident 2 "x") (.literalInteger 3 1), true⟩ := rfl
  have htemplate : Means increment 0 [("x", 2)] "m" 1
      (.binary 1 .add (.ident 2 "x") (.literalInteger 3 1)) 3 (Forms.or .none .none) :=
    .binary (.param rfl (by decide)) (.literalInteger (by decide)) rfl (by decide)
  exact .call hmac rfl rfl hargs htemplate

theorem evaluators_agree_increment : EvaluatorsAgree increment "m" 0 incrementTwo :=
  (evaluators_agree_iff incrementTwo_means).2 (.inr rfl)

/-- A character is a number for one evaluator only. -/
theorem literalChar_evaluators_differ :
    Means (oneModule []) 0 [] "m" 0 (.literalChar 1 97) 97 { Forms.none with valueOnly := true } ∧
      EvaluatesToInteger (oneModule []) "m" (.literalChar 1 97) 97 ∧
      ¬ EvaluatorsAgree (oneModule []) "m" 0 (.literalChar 1 97) := by
  have hint : EvaluatesToInteger (oneModule []) "m" (.literalChar 1 97) 97 := ⟨1, rfl⟩
  refine ⟨.literalChar, hint, fun h => ?_⟩
  obtain ⟨v, n, hv⟩ := h.1.2 ⟨97, hint⟩
  cases n with
  | zero => cases hv
  | succ n => cases hv

end Mirage.Consts

import Mathlib.Tactic.Common
import Mirage.Lang.ConstTermination

/-!
# Constants at run time

The evaluator folds every number as a signed one of 64 bits and asks for no type. What an
expression is worth at run time depends on its type: arithmetic wraps at the width, casts
truncate or extend, and division, remainder, right shift and ordering follow the sign. Here
a value of a type is held in 64 bits, extended as its type says (`Scalar.extend`), and
`Runs` gives an expression its type and its value at run time.

A fold can be right in two ways (`Trust`). It has the right *bits* if it agrees on the bits of
the type, and it is *exact* if it agrees on all 64. Sums, products and bitwise operators only
need the bits of their operands. All the other operators, conditions and casts to a wider
type read more than the bits, so their operands have to be exact: no operation in them may
leave the range of its type and no cast may change a number. With that, the folded value has
the bits of the value at run time (`folded_eq_runtime`).
-/

namespace Mirage.Consts

open Ast Calls

/-! ## Types and their values -/

/-- An integer type; `bool` is the unsigned one of a bit. -/
structure Scalar where
  width : Nat
  signed : Bool
  width_le : width ≤ 64
  deriving DecidableEq

namespace Scalar

def bool : Scalar := ⟨1, false, by decide⟩

def u8 : Scalar := ⟨8, false, by decide⟩

def i32 : Scalar := ⟨32, true, by decide⟩

/-- The bits of a type. -/
def bits (τ : Scalar) (x : BitVec 64) : BitVec τ.width := x.setWidth τ.width

/-- The value of a type with the low bits of a number, extended to 64 bits. -/
def extend (τ : Scalar) (x : BitVec 64) : BitVec 64 :=
  if τ.signed then (τ.bits x).signExtend 64 else (τ.bits x).setWidth 64

/-- The least value of a signed type. -/
def least (τ : Scalar) : BitVec 64 := (BitVec.intMin τ.width).signExtend 64

end Scalar

def Ty.scalar : Ty → Option Scalar
  | .int w s => if h : w ≤ 64 then some ⟨w, s, h⟩ else none
  | .bool => some .bool
  | _ => none

/-- The type an expression is checked to have. -/
def HasScalar (P : Program) (m : ModulePath) (k : ExprKey) (τ : Scalar) : Prop :=
  (P.exprType m k).bind Ty.scalar = some τ

/-! ## Operators at run time -/

/-- A truth value. -/
def truth (b : Bool) : BitVec 64 := if b then 1 else 0

/-- An operator of which the low bits of the result depend on those of the operands only. -/
def modular : BinaryOp → Option (BitVec 64 → BitVec 64 → BitVec 64)
  | .add => some (· + ·)
  | .sub => some (· - ·)
  | .mul => some (· * ·)
  | .bitwiseAnd => some (· &&& ·)
  | .bitwiseOr => some (· ||| ·)
  | .bitwiseXor => some (· ^^^ ·)
  | _ => none

/-- The other operators, on operands of a type. A division by zero or one that overflows, and a
    shift by the width or more, have no result. -/
def sensitive (τ : Scalar) (op : BinaryOp) (u v : BitVec 64) : Option (BitVec 64) :=
  match op with
  | .div =>
    if v = 0 ∨ (τ.signed ∧ u = τ.least ∧ v = -1) then none
    else some (if τ.signed then u.sdiv v else u / v)
  | .mod =>
    if v = 0 ∨ (τ.signed ∧ u = τ.least ∧ v = -1) then none
    else some (if τ.signed then u.srem v else u % v)
  | .shiftRight =>
    if τ.width ≤ v.toNat then none
    else some (if τ.signed then u.sshiftRight v.toNat else u >>> v.toNat)
  | .equal => some (truth (u == v))
  | .notEqual => some (truth (u != v))
  | .less => some (truth (if τ.signed then u.slt v else u.ult v))
  | .greater => some (truth (if τ.signed then v.slt u else v.ult u))
  | .lessEqual => some (truth (if τ.signed then u.sle v else u.ule v))
  | .greaterEqual => some (truth (if τ.signed then v.sle u else v.ule u))
  | .logicalAnd => some (truth (u != 0 && v != 0))
  | .logicalOr => some (truth (u != 0 || v != 0))
  | _ => none

/-- The type of the result of an operator on operands of a type. -/
def resultType (τ : Scalar) : BinaryOp → Scalar
  | .equal | .notEqual | .less | .greater | .lessEqual | .greaterEqual | .logicalAnd
  | .logicalOr => .bool
  | _ => τ

/-- The operator reads the sign of its operands. -/
def readsSign : BinaryOp → Bool
  | .div | .mod | .shiftRight | .less | .greater | .lessEqual | .greaterEqual => true
  | _ => false

/-! ## The value at run time -/

/-- How far a fold can be trusted: it has the bits of the value at run time, or all of it. -/
structure Trust where
  bits : Bool
  exact : Bool
  deriving DecidableEq

/-- A value at run time, with its type and the trust in its fold. -/
structure Cell where
  type : Scalar
  value : BitVec 64
  trust : Trust
  deriving DecidableEq

/-- A value that is folded to the number `x`. -/
def Cell.folded (τ : Scalar) (x : BitVec 64) : Cell :=
  ⟨τ, τ.extend x, ⟨true, τ.extend x = x⟩⟩

/-- A cast. One to a wider type reads more than the bits of the operand. -/
def Cell.cast (c : Cell) (τ : Scalar) : Cell :=
  ⟨τ, τ.extend c.value,
    ⟨if τ.width ≤ c.type.width then c.trust.bits else c.trust.exact,
      c.trust.exact && decide (τ.extend c.value = c.value)⟩⟩

/-- The condition is exact in front of the branch it takes. -/
def Trust.after (cond branch : Trust) : Trust :=
  ⟨cond.exact && branch.bits, cond.exact && branch.exact⟩

/-- The fold of a sensitive operator: right if the operands are exact and read with the right
    sign. -/
def sensitiveTrust (op : BinaryOp) (l r : Cell) : Trust :=
  let ok := l.trust.exact && r.trust.exact &&
    (!readsSign op || l.type.signed || (!l.value.msb && !r.value.msb))
  ⟨ok, ok⟩

/-- The value of an expression at run time; `args` holds the values of the parameters of the
    template around it. -/
inductive Runs (P : Program) : List (Name × Cell) → ModulePath → Expr → Cell → Prop
  | literalInteger {args m k b τ} (hτ : HasScalar P m k τ) :
    Runs P args m (.literalInteger k b) (.folded τ b)
  | literalBool {args m k b} :
    Runs P args m (.literalBool k b) (.folded .bool (truth b))
  | literalChar {args m k} {b : BitVec 8} :
    Runs P args m (.literalChar k b) (.folded .u8 (b.setWidth 64))
  | param {args m k x c} (hx : args.lookup x = some c) : Runs P args m (.ident k x) c
  | generic {args m k x b τ} (hx : args.lookup x = none)
      (hg : P.genericEnv.lookup x = some (.int b)) (hτ : HasScalar P m k τ) :
    Runs P args m (.ident k x) (.folded τ b)
  | global {args m k x init c} (hx : args.lookup x = none) (hg : P.genericEnv.lookup x = none)
      (hinit : P.constInit m x = some init) (h : Runs P [] m init c) :
    Runs P args m (.ident k x) c
  | member {args m k object x m' init c}
      (hm : P.resolveMemberObjectImportPath m object = some m')
      (hinit : P.constInit m' x = some init) (h : Runs P [] m' init c) :
    Runs P args m (.member k object x) c
  | cast {args m k value c τ} (h : Runs P args m value c) (hτ : HasScalar P m k τ) :
    Runs P args m (.cast k value) (c.cast τ)
  | negate {args m k operand c} (h : Runs P args m operand c) :
    Runs P args m (.unary k .negate operand) ⟨c.type, c.type.extend (-c.value),
      ⟨c.trust.bits, c.trust.exact && decide (c.type.extend (-c.value) = -c.value)⟩⟩
  | bitwiseNot {args m k operand c} (h : Runs P args m operand c) :
    Runs P args m (.unary k .bitwiseNot operand) ⟨c.type, c.type.extend (~~~c.value),
      ⟨c.trust.bits, c.trust.exact && decide (c.type.extend (~~~c.value) = ~~~c.value)⟩⟩
  | logicalNot {args m k operand c} (h : Runs P args m operand c) :
    Runs P args m (.unary k .logicalNot operand) ⟨.bool, truth (c.value == 0),
      ⟨c.trust.exact, c.trust.exact⟩⟩
  | modular {args m k op lhs rhs l r g} (hl : Runs P args m lhs l) (hr : Runs P args m rhs r)
      (hτ : l.type = r.type) (hop : modular op = some g) :
    Runs P args m (.binary k op lhs rhs) ⟨l.type, l.type.extend (g l.value r.value),
      ⟨l.trust.bits && r.trust.bits, l.trust.exact && r.trust.exact &&
        decide (l.type.extend (g l.value r.value) = g l.value r.value)⟩⟩
  | shiftLeft {args m k lhs rhs l r} (hl : Runs P args m lhs l) (hr : Runs P args m rhs r)
      (hτ : l.type = r.type) (hcount : r.value.toNat < l.type.width) :
    Runs P args m (.binary k .shiftLeft lhs rhs)
      ⟨l.type, l.type.extend (l.value <<< r.value.toNat),
        ⟨l.trust.bits && r.trust.exact, l.trust.exact && r.trust.exact &&
          decide (l.type.extend (l.value <<< r.value.toNat) = l.value <<< r.value.toNat)⟩⟩
  | sensitive {args m k op lhs rhs l r u} (hl : Runs P args m lhs l) (hr : Runs P args m rhs r)
      (hτ : l.type = r.type) (hop : sensitive l.type op l.value r.value = some u) :
    Runs P args m (.binary k op lhs rhs) ⟨resultType l.type op, u, sensitiveTrust op l r⟩
  /-- The right operand of `&&` is not run after a false one. -/
  | shortAnd {args m k lhs rhs l} (hl : Runs P args m lhs l) (hzero : l.value = 0) :
    Runs P args m (.binary k .logicalAnd lhs rhs) ⟨.bool, 0, ⟨l.trust.exact, l.trust.exact⟩⟩
  | shortOr {args m k lhs rhs l} (hl : Runs P args m lhs l) (hone : l.value ≠ 0) :
    Runs P args m (.binary k .logicalOr lhs rhs) ⟨.bool, 1, ⟨l.trust.exact, l.trust.exact⟩⟩
  | ternary {args m k condition thenExpr elseExpr b c} (hc : Runs P args m condition b)
      (h : Runs P args m (if b.value ≠ 0 then thenExpr else elseExpr) c) :
    Runs P args m (.ternary k condition thenExpr elseExpr)
      { c with trust := b.trust.after c.trust }
  | whenExpr {args m k condition thenExpr elseExpr b c} (hc : Runs P args m condition b)
      (h : Runs P args m (if b.value ≠ 0 then thenExpr else elseExpr) c) :
    Runs P args m (.whenExpr k condition thenExpr elseExpr)
      { c with trust := b.trust.after c.trust }
  | call {args m k callee mac c} {es : List Expr} {cells : List Cell}
      (hmac : P.macroOf m callee = some mac) (hlen : es.length = cells.length)
      (hargs : ∀ p ∈ es.zip cells, Runs P args m p.1 p.2)
      (h : Runs P (mac.params.zip cells) m mac.exprTemplate c) :
    Runs P args m (.call k callee es) c

/-! ## Bits -/

section

variable {τ : Scalar} {x y x' y' : BitVec 64}

theorem Scalar.bits_extend (τ : Scalar) (x : BitVec 64) : τ.bits (τ.extend x) = τ.bits x := by
  refine BitVec.eq_of_getLsbD_eq fun i hi => ?_
  have h64 : i < 64 := Nat.lt_of_lt_of_le hi τ.width_le
  simp only [Scalar.bits, Scalar.extend, BitVec.getLsbD_setWidth, hi, decide_true, Bool.true_and]
  split
  · simp only [BitVec.getLsbD_signExtend, h64, hi, decide_true, Bool.true_and, if_true,
      BitVec.getLsbD_setWidth]
  · simp only [BitVec.getLsbD_setWidth, h64, hi, decide_true, Bool.true_and]

theorem Scalar.bits_narrow {τ' : Scalar} (hle : τ'.width ≤ τ.width) (h : τ.bits x = τ.bits y) :
    τ'.bits x = τ'.bits y := by
  have := congrArg (BitVec.setWidth τ'.width) h
  simpa only [Scalar.bits, BitVec.setWidth_setWidth_of_le _ hle] using this

theorem bits_modular {op : BinaryOp} {g : BitVec 64 → BitVec 64 → BitVec 64}
    (hop : modular op = some g) (hx : τ.bits x = τ.bits x') (hy : τ.bits y = τ.bits y') :
    τ.bits (g x y) = τ.bits (g x' y') := by
  have hle := τ.width_le
  simp only [Scalar.bits] at hx hy ⊢
  cases op with
  | add =>
    obtain rfl := Option.some.inj hop
    rw [BitVec.setWidth_add _ _ hle, BitVec.setWidth_add _ _ hle, hx, hy]
  | sub =>
    obtain rfl := Option.some.inj hop
    simp only [BitVec.sub_eq_add_neg, BitVec.setWidth_add _ _ hle, BitVec.setWidth_neg_of_le hle,
      hx, hy]
  | mul =>
    obtain rfl := Option.some.inj hop
    rw [BitVec.setWidth_mul _ _ hle, BitVec.setWidth_mul _ _ hle, hx, hy]
  | bitwiseAnd =>
    obtain rfl := Option.some.inj hop
    rw [BitVec.setWidth_and, BitVec.setWidth_and, hx, hy]
  | bitwiseOr =>
    obtain rfl := Option.some.inj hop
    rw [BitVec.setWidth_or, BitVec.setWidth_or, hx, hy]
  | bitwiseXor =>
    obtain rfl := Option.some.inj hop
    rw [BitVec.setWidth_xor, BitVec.setWidth_xor, hx, hy]
  | _ => cases hop

theorem bits_shiftLeft (n : Nat) (hx : τ.bits x = τ.bits x') :
    τ.bits (x <<< n) = τ.bits (x' <<< n) := by
  refine BitVec.eq_of_getLsbD_eq fun i hi => ?_
  have hbit := congrArg (fun z => z.getLsbD (i - n)) hx
  have hlt : i - n < τ.width := Nat.lt_of_le_of_lt (Nat.sub_le _ _) hi
  simp only [Scalar.bits, BitVec.getLsbD_setWidth, hlt, decide_true, Bool.true_and] at hbit
  simp only [Scalar.bits, BitVec.getLsbD_setWidth, BitVec.getLsbD_shiftLeft, hbit]

/-- The fold of a modular operator. -/
theorem foldBinaryOp_modular {op : BinaryOp} {g : BitVec 64 → BitVec 64 → BitVec 64}
    (hop : modular op = some g) : foldBinaryOp op x y .signed = .ok (g x y) := by
  cases op with
  | add | sub | mul | bitwiseAnd | bitwiseOr | bitwiseXor =>
    obtain rfl := Option.some.inj hop
    rfl
  | _ => cases hop

theorem boolean_eq_ok {b : Bool} {v : BitVec 64} (h : boolean b = .ok v) : v = truth b :=
  (Except.ok.inj h).symm

/-- On exact operands, read with the right sign, the fold is what happens at run time. -/
theorem foldBinaryOp_sensitive {op : BinaryOp} {u v : BitVec 64}
    (hop : sensitive τ op x y = some u) (hfold : foldBinaryOp op x y .signed = .ok v)
    (hsign : readsSign op = true → τ.signed = false → x.msb = false ∧ y.msb = false) :
    v = u := by
  -- an unsigned operator on numbers without their sign bit is the signed one
  have hread : ∀ {α : Type} (a b : α), (τ.signed = false → b = a) →
      (if τ.signed then a else b) = a := fun a b h => by
    cases hs : τ.signed with
    | true => rfl
    | false => exact h hs
  cases op with
  | div =>
    have hdiv := hread (x.sdiv y) (x / y) fun hs => by
      obtain ⟨hx, hy⟩ := hsign rfl hs
      rw [BitVec.sdiv_eq, hx, hy]
      rfl
    simp only [sensitive, foldBinaryOp, hdiv, if_true] at hop hfold
    split_ifs at hop
    split_ifs at hfold
    rw [← Except.ok.inj hfold, Option.some.inj hop]
  | mod =>
    have hrem := hread (x.srem y) (x % y) fun hs => by
      obtain ⟨hx, hy⟩ := hsign rfl hs
      rw [BitVec.srem_eq, hx, hy]
    simp only [sensitive, foldBinaryOp, hrem, if_true] at hop hfold
    split_ifs at hop
    split_ifs at hfold
    rw [← Except.ok.inj hfold, Option.some.inj hop]
  | shiftRight =>
    have hshr := hread (x.sshiftRight y.toNat) (x >>> y.toNat) fun hs => by
      rw [BitVec.sshiftRight_eq_of_msb_false (hsign rfl hs).1]
    simp only [sensitive, foldBinaryOp, hshr, if_true] at hop hfold
    split_ifs at hop
    split_ifs at hfold
    rw [← Except.ok.inj hfold, Option.some.inj hop]
  | less =>
    have hlt := hread (x.slt y) (x.ult y) fun hs => by
      obtain ⟨hx, hy⟩ := hsign rfl hs
      rw [BitVec.slt_eq_ult_of_msb_eq (hx.trans hy.symm)]
    simp only [sensitive, hlt] at hop
    exact (boolean_eq_ok hfold).trans (Option.some.inj hop)
  | greater =>
    have hlt := hread (y.slt x) (y.ult x) fun hs => by
      obtain ⟨hx, hy⟩ := hsign rfl hs
      rw [BitVec.slt_eq_ult_of_msb_eq (hy.trans hx.symm)]
    simp only [sensitive, hlt] at hop
    exact (boolean_eq_ok hfold).trans (Option.some.inj hop)
  | lessEqual =>
    have hle := hread (x.sle y) (x.ule y) fun hs => by
      obtain ⟨hx, hy⟩ := hsign rfl hs
      rw [BitVec.sle_eq_ule_of_msb_eq (hx.trans hy.symm)]
    simp only [sensitive, hle] at hop
    exact (boolean_eq_ok hfold).trans (Option.some.inj hop)
  | greaterEqual =>
    have hle := hread (y.sle x) (y.ule x) fun hs => by
      obtain ⟨hx, hy⟩ := hsign rfl hs
      rw [BitVec.sle_eq_ule_of_msb_eq (hy.trans hx.symm)]
    simp only [sensitive, hle] at hop
    exact (boolean_eq_ok hfold).trans (Option.some.inj hop)
  | equal | notEqual | logicalAnd | logicalOr =>
    exact (boolean_eq_ok hfold).trans (Option.some.inj hop)
  | _ => cases hop

end

/-! ## Folded values -/

/-- The folded number agrees with the value at run time as far as it can be trusted. -/
structure Cell.Agrees (c : Cell) (x : BitVec 64) : Prop where
  bits : c.trust.bits = true → c.type.bits x = c.type.bits c.value
  exact : c.trust.exact = true → x = c.value

/-- So does the outcome of the evaluator, if it is a number. -/
def AgreesWith (c : Cell) (r : Outcome) : Prop :=
  ∀ x, r = .ok (.int x) → c.Agrees x

/-- The bindings of the evaluator agree with those at run time. -/
def ArgsAgree : List (Name × Cell) → List (Name × Value) → Prop :=
  List.Forall₂ fun a b => a.1 = b.1 ∧ AgreesWith a.2 (.ok b.2)

/-- The evaluator agrees with the value at run time. -/
def FoldAgrees (P : Program) (args : List (Name × Cell)) (m : ModulePath) (e : Expr) (c : Cell) :
    Prop :=
  ∀ margs d nest, ArgsAgree args margs →
    Only (evaluateConstValueImpl P) (call ⟨m, margs, d, nest, e⟩) (AgreesWith c)

section

variable {P : Program} {args : List (Name × Cell)} {margs : List (Name × Value)} {m : ModulePath}
  {e : Expr} {c l r : Cell}

theorem Cell.folded_agrees (τ : Scalar) (x : BitVec 64) : (Cell.folded τ x).Agrees x := by
  refine ⟨fun _ => ?_, fun h => ?_⟩
  · exact (τ.bits_extend x).symm
  · exact (of_decide_eq_true h).symm

/-- A result `y` agrees with the value at run time, which is `x` wrapped at its type. -/
theorem Cell.agrees_extend {τ : Scalar} {x y : BitVec 64} {bits exact : Bool}
    (hbits : bits = true → τ.bits y = τ.bits x) (hexact : exact = true → y = x) :
    Cell.Agrees ⟨τ, τ.extend x, ⟨bits, exact && decide (τ.extend x = x)⟩⟩ y := by
  refine ⟨fun ht => ?_, fun ht => ?_⟩
  · exact (hbits ht).trans (τ.bits_extend x).symm
  · obtain ⟨hexact', hsame⟩ := Bool.and_eq_true_iff.1 ht
    exact (hexact hexact').trans (of_decide_eq_true hsame).symm

/-- A result that is exact agrees. -/
theorem Cell.agrees_of_exact {τ : Scalar} {u x : BitVec 64} {t : Bool} (h : t = true → x = u) :
    Cell.Agrees ⟨τ, u, ⟨t, t⟩⟩ x :=
  ⟨fun ht => by rw [h ht], h⟩

theorem AgreesWith.int {x : BitVec 64} (h : c.Agrees x) : AgreesWith c (.ok (.int x)) := by
  rintro _ ⟨⟩
  exact h

theorem agreesWith_error {f : Failure} : AgreesWith c (.error f) := nofun

theorem AgreesWith.asInt {o : Outcome} {x : BitVec 64} (h : AgreesWith c o) (hx : asInt o = .ok x) :
    c.Agrees x := by
  match o, hx with
  | .ok (.int _), rfl => exact h _ rfl

/-- A fold of a number, which agrees if it does where there is a number. -/
theorem agreesWith_bind {o : Except Failure (BitVec 64)} {g : BitVec 64 → Outcome}
    (h : ∀ x, o = .ok x → AgreesWith c (g x)) : AgreesWith c (o >>= g) := by
  cases o with
  | ok x => exact h x rfl
  | error f => exact agreesWith_error

theorem agreesWith_fold {o : Except Failure (BitVec 64)} (h : ∀ x, o = .ok x → c.Agrees x) :
    AgreesWith c (do (← o) |> Value.int |> .ok) :=
  agreesWith_bind fun x hx => .int (h x hx)

theorem ArgsAgree.lookup (h : ArgsAgree args margs) (x : Name) :
    (args.lookup x = none ∧ margs.lookup x = none) ∨
      ∃ c v, args.lookup x = some c ∧ margs.lookup x = some v ∧ AgreesWith c (.ok v) := by
  induction h with
  | nil => exact .inl ⟨rfl, rfl⟩
  | @cons a b args margs hab _ ih =>
    obtain ⟨y, c⟩ := a
    obtain ⟨z, v⟩ := b
    obtain ⟨rfl, hv⟩ := hab
    cases hx : x == y with
    | true => exact .inr ⟨c, v, by simp [List.lookup_cons, hx], by simp [List.lookup_cons, hx], hv⟩
    | false =>
      simp only [List.lookup_cons, hx]
      exact ih

theorem ArgsAgree.zip {params : List Name} {cells : List Cell} {vs : List Value}
    (h : List.Forall₂ (fun c v => AgreesWith c (.ok v)) cells vs) :
    ArgsAgree (params.zip cells) (params.zip vs) := by
  induction h generalizing params with
  | nil => simp only [List.zip_nil_right]; exact .nil
  | cons hcv _ ih =>
    cases params with
    | nil => exact .nil
    | cons x params => exact .cons ⟨rfl, hcv⟩ ih

/-- A form that is folded to a number at once. -/
theorem FoldAgrees.of_folded {τ : Scalar} {x : BitVec 64}
    (h : ∀ margs d nest, ArgsAgree args margs →
      evaluateConstValueImpl P ⟨m, margs, d, nest, e⟩ = pure (.ok (.int x))) :
    FoldAgrees P args m e (.folded τ x) := by
  intro margs d nest hargs
  refine .call ?_
  rw [h margs d nest hargs]
  exact .pure (.int (Cell.folded_agrees τ x))

/-- A form that stands for another expression. -/
theorem FoldAgrees.of_call {args' : List (Name × Cell)} {m' : ModulePath} {e' : Expr}
    (h : ∀ margs d nest, ArgsAgree args margs → ∃ margs' d', ArgsAgree args' margs' ∧
      evaluateConstValueImpl P ⟨m, margs, d, nest, e⟩ = call ⟨m', margs', d', nest, e'⟩)
    (h' : FoldAgrees P args' m' e' c) : FoldAgrees P args m e c := by
  intro margs d nest hargs
  obtain ⟨margs', d', hargs', heq⟩ := h margs d nest hargs
  refine .call ?_
  rw [heq]
  exact h' margs' d' nest hargs'

theorem foldAgrees_unary {k : ExprKey} {op : UnaryOp} {operand : Expr} {c' : Cell}
    (h : FoldAgrees P args m operand c)
    (hop : ∀ x y, c.Agrees x → foldUnaryOp op x = .ok y → c'.Agrees y) :
    FoldAgrees P args m (.unary k op operand) c' := by
  intro margs d nest hargs
  refine .call ?_
  rw [evaluateConstValueImpl]
  dsimp only
  split
  · exact .pure agreesWith_error
  · refine (h margs 0 nest hargs).bind fun o ho => .pure ?_
    exact agreesWith_bind fun x hx => agreesWith_fold fun y hy => hop x y (ho.asInt hx) hy

end

/-- The number an expression is folded to, if there is one, is as required. -/
def FoldsTo (P : Program) (args : List (Name × Cell)) (m : ModulePath) (e : Expr)
    (Q : BitVec 64 → Prop) : Prop :=
  ∀ margs d nest, ArgsAgree args margs → Only (evaluateConstValueImpl P)
    (call ⟨m, margs, d, nest, e⟩) fun o => ∀ x, asInt o = .ok x → Q x

section

variable {P : Program} {args : List (Name × Cell)} {m : ModulePath} {e : Expr} {c : Cell}

theorem FoldAgrees.foldsTo (h : FoldAgrees P args m e c) : FoldsTo P args m e c.Agrees :=
  fun margs d nest hargs o ho _ hx => (h margs d nest hargs o ho).asInt hx

theorem FoldsTo.any : FoldsTo P args m e fun _ => True := fun _ _ _ _ _ _ _ _ => trivial

/-- A side of a comparison that is not a `.Variant`. -/
theorem resolveSide_only {Q : BitVec 64 → Prop} {side other : Expr} {margs : List (Name × Value)}
    {d nest : Nat} {whole : Expr} (h : FoldsTo P args m side Q) (hargs : ArgsAgree args margs)
    (hdot : ∀ k x, side ≠ .dotIdent k x) :
    Only (evaluateConstValueImpl P) (resolveSide P ⟨m, margs, d, nest, whole⟩ side other)
      fun o => ∀ x, o = .ok x → Q x := by
  refine (h margs 0 nest hargs).bind fun o ho => ?_
  cases o with
  | ok v => exact .pure ho
  | error f =>
    cases side with
    | dotIdent k x => exact absurd rfl (hdot k x)
    | _ => exact .pure nofun

theorem foldAgrees_binary {Q R : BitVec 64 → Prop} {k : ExprKey} {op : BinaryOp} {lhs rhs : Expr}
    (hl : FoldsTo P args m lhs Q) (hr : FoldsTo P args m rhs R)
    (hdot : op = .equal ∨ op = .notEqual →
      (∀ k x, lhs ≠ .dotIdent k x) ∧ ∀ k x, rhs ≠ .dotIdent k x)
    (hop : ∀ x y z, Q x → R y → foldBinaryOp op x y .signed = .ok z → c.Agrees z) :
    FoldAgrees P args m (.binary k op lhs rhs) c := by
  intro margs d nest hargs
  refine .call ?_
  rw [evaluateConstValueImpl]
  dsimp only
  split
  · rename_i hcmp
    obtain ⟨hdotl, hdotr⟩ := hdot hcmp
    refine (resolveSide_only hl hargs hdotl).bind fun o ho => ?_
    refine (resolveSide_only hr hargs hdotr).bind fun o' ho' => .pure ?_
    exact agreesWith_bind fun x hx => agreesWith_bind fun y hy =>
      agreesWith_fold fun z hz => hop x y z (ho x hx) (ho' y hy) hz
  · refine (hl margs 0 nest hargs).bind fun o ho => ?_
    refine (hr margs 0 nest hargs).bind fun o' ho' => .pure ?_
    exact agreesWith_bind fun x hx => agreesWith_bind fun y hy =>
      agreesWith_fold fun z hz => hop x y z (ho x hx) (ho' y hy) hz

theorem foldAgrees_branch {condition thenExpr elseExpr : Expr} {b : Cell}
    (hstep : ∀ margs d nest, evaluateConstValueImpl P ⟨m, margs, d, nest, e⟩ = (do
      match asInt (← call ⟨m, margs, 0, nest, condition⟩) with
      | .ok v => call ⟨m, margs, 0, nest, if v ≠ 0 then thenExpr else elseExpr⟩
      | .error f => pure (.error f)))
    (hc : FoldAgrees P args m condition b)
    (h : FoldAgrees P args m (if b.value ≠ 0 then thenExpr else elseExpr) c) :
    FoldAgrees P args m e { c with trust := b.trust.after c.trust } := by
  intro margs d nest hargs
  refine .call ?_
  rw [hstep]
  refine (hc.foldsTo margs 0 nest hargs).bind fun o ho => ?_
  cases hx : asInt o with
  | error f => exact .pure agreesWith_error
  | ok x =>
    intro r hr y hy
    refine ⟨fun ht => ?_, fun ht => ?_⟩
    · obtain ⟨hexact, ht⟩ := Bool.and_eq_true_iff.1 ht
      obtain rfl := (ho x hx).exact hexact
      exact (h margs 0 nest hargs r hr y hy).bits ht
    · obtain ⟨hexact, ht⟩ := Bool.and_eq_true_iff.1 ht
      obtain rfl := (ho x hx).exact hexact
      exact (h margs 0 nest hargs r hr y hy).exact ht

theorem evaluateArgs_only {es : List Expr} {cells : List Cell} {margs : List (Name × Value)}
    {d nest : Nat} {whole : Expr} (hlen : es.length = cells.length)
    (h : ∀ p ∈ es.zip cells, FoldAgrees P args m p.1 p.2) (hargs : ArgsAgree args margs) :
    Only (evaluateConstValueImpl P) (evaluateArgs ⟨m, margs, d, nest, whole⟩ es) fun o =>
      ∀ vs, o = .ok vs → List.Forall₂ (fun c v => AgreesWith c (.ok v)) cells vs := by
  induction es generalizing cells with
  | nil =>
    cases cells with
    | nil =>
      refine .pure ?_
      rintro _ ⟨⟩
      exact .nil
    | cons c cells => cases hlen
  | cons e es ih =>
    cases cells with
    | nil => cases hlen
    | cons c cells =>
      have hhead := h (e, c) List.mem_cons_self
      have htail := ih (Nat.succ.inj hlen) fun p hp => h p (List.mem_cons_of_mem _ hp)
      refine (hhead margs (d + 1) nest hargs).bind fun o ho => ?_
      cases o with
      | error f => exact .pure nofun
      | ok v =>
        refine htail.bind fun o' ho' => .pure ?_
        cases o' with
        | error f => exact nofun
        | ok vs =>
          rintro _ ⟨⟩
          exact .cons ho (ho' vs rfl)

theorem foldAgrees_call {k : ExprKey} {callee : Expr} {mac : MacroSymbol} {es : List Expr}
    {cells : List Cell} (hmac : P.macroOf m callee = some mac) (hlen : es.length = cells.length)
    (hargs : ∀ p ∈ es.zip cells, FoldAgrees P args m p.1 p.2)
    (h : FoldAgrees P (mac.params.zip cells) m mac.exprTemplate c) :
    FoldAgrees P args m (.call k callee es) c := by
  intro margs d nest hmargs
  refine .call ?_
  rw [evaluateConstValueImpl]
  dsimp only
  rw [hmac]
  dsimp only
  split
  · refine (evaluateArgs_only hlen hargs hmargs).bind fun o ho => ?_
    cases o with
    | error f => exact .pure agreesWith_error
    | ok vs => exact h _ (d + 1) (nest + 1) (.zip (ho vs rfl))
  · exact .pure agreesWith_error

end

theorem Runs.ne_dotIdent {P : Program} {args : List (Name × Cell)} {m : ModulePath} {e : Expr}
    {c : Cell} (h : Runs P args m e c) (k : ExprKey) (x : Name) : e ≠ .dotIdent k x := by
  rintro rfl
  cases h

/-- The evaluator folds an expression to its value at run time, as far as it can be trusted. -/
theorem Runs.foldAgrees {P : Program} {args : List (Name × Cell)} {m : ModulePath} {e : Expr}
    {c : Cell} (h : Runs P args m e c) : FoldAgrees P args m e c := by
  induction h with
  | literalInteger hτ => exact .of_folded fun _ _ _ _ => rfl
  | literalBool => exact .of_folded fun _ _ _ _ => rfl
  | literalChar => exact .of_folded fun _ _ _ _ => rfl
  | @param args m k x c hx =>
    intro margs d nest hargs
    refine .call ?_
    rw [evaluateConstValueImpl]
    dsimp only
    obtain ⟨hnone, -⟩ | ⟨c', v, hc, hv, hagree⟩ := hargs.lookup x
    · cases hx.symm.trans hnone
    · obtain rfl := Option.some.inj (hx.symm.trans hc)
      rw [hv]
      exact .pure hagree
  | @generic args m k x b τ hx hg hτ =>
    refine .of_folded fun margs d nest hargs => ?_
    obtain ⟨-, hnone⟩ | ⟨c', v, hc, -⟩ := hargs.lookup x
    · rw [evaluateConstValueImpl]
      simp only [hnone, hg]
    · cases hx.symm.trans hc
  | @global args m k x init c hx hg hinit _ ih =>
    refine .of_call (fun margs d nest hargs => ⟨[], 0, .nil, ?_⟩) ih
    obtain ⟨-, hnone⟩ | ⟨c', v, hc, -⟩ := hargs.lookup x
    · rw [evaluateConstValueImpl]
      simp only [hnone, hg, hinit]
    · cases hx.symm.trans hc
  | member hm hinit _ ih =>
    refine .of_call (fun margs d nest hargs => ⟨[], 0, .nil, ?_⟩) ih
    rw [evaluateConstValueImpl]
    simp only [hm, hinit]
  | @cast args m k value c τ _ hτ ih =>
    intro margs d nest hargs
    refine .call ?_
    refine fun o ho x hx => ?_
    have hc := ih margs 0 nest hargs o ho x hx
    refine Cell.agrees_extend (fun ht => ?_) hc.exact
    by_cases hle : τ.width ≤ c.type.width
    · rw [if_pos hle] at ht
      exact Scalar.bits_narrow hle (hc.bits ht)
    · rw [if_neg hle] at ht
      rw [hc.exact ht]
  | @negate args m k operand c _ ih =>
    refine foldAgrees_unary ih fun x y hx hy => ?_
    obtain rfl := Except.ok.inj hy
    have hneg : (0 : BitVec 64) - x = -x := BitVec.zero_sub x
    rw [hneg]
    refine Cell.agrees_extend (fun ht => ?_) fun ht => by rw [hx.exact ht]
    have hbits := hx.bits ht
    simp only [Scalar.bits] at hbits ⊢
    rw [BitVec.setWidth_neg_of_le c.type.width_le, BitVec.setWidth_neg_of_le c.type.width_le, hbits]
  | @bitwiseNot args m k operand c _ ih =>
    refine foldAgrees_unary ih fun x y hx hy => ?_
    obtain rfl := Except.ok.inj hy
    refine Cell.agrees_extend (fun ht => ?_) fun ht => by rw [hx.exact ht]
    have hbits := hx.bits ht
    simp only [Scalar.bits] at hbits ⊢
    rw [BitVec.setWidth_not c.type.width_le, BitVec.setWidth_not c.type.width_le, hbits]
  | @logicalNot args m k operand c _ ih =>
    refine foldAgrees_unary ih fun x y hx hy => Cell.agrees_of_exact fun ht => ?_
    obtain rfl := Except.ok.inj hy
    obtain rfl := hx.exact ht
    by_cases h0 : c.value = 0 <;> simp [truth, h0]
  | @modular args m k op lhs rhs l r g hl hr hτ hop ihl ihr =>
    refine foldAgrees_binary ihl.foldsTo ihr.foldsTo (fun _ => ⟨hl.ne_dotIdent, hr.ne_dotIdent⟩)
      fun x y z hx hy hz => ?_
    rw [foldBinaryOp_modular hop] at hz
    obtain rfl := Except.ok.inj hz
    refine Cell.agrees_extend (fun ht => ?_) fun ht => ?_
    · obtain ⟨htl, htr⟩ := Bool.and_eq_true_iff.1 ht
      refine bits_modular hop (hx.bits htl) ?_
      rw [hτ]
      exact hy.bits htr
    · obtain ⟨htl, htr⟩ := Bool.and_eq_true_iff.1 ht
      rw [hx.exact htl, hy.exact htr]
  | @shiftLeft args m k lhs rhs l r hl hr hτ hcount ihl ihr =>
    refine foldAgrees_binary ihl.foldsTo ihr.foldsTo (fun _ => ⟨hl.ne_dotIdent, hr.ne_dotIdent⟩)
      fun x y z hx hy hz => ?_
    simp only [foldBinaryOp] at hz
    split at hz
    · cases hz
    · obtain rfl := Except.ok.inj hz
      refine Cell.agrees_extend (fun ht => ?_) fun ht => ?_
      · obtain ⟨htl, htr⟩ := Bool.and_eq_true_iff.1 ht
        rw [hy.exact htr]
        exact bits_shiftLeft _ (hx.bits htl)
      · obtain ⟨htl, htr⟩ := Bool.and_eq_true_iff.1 ht
        rw [hx.exact htl, hy.exact htr]
  | @sensitive args m k op lhs rhs l r u hl hr hτ hop ihl ihr =>
    refine foldAgrees_binary ihl.foldsTo ihr.foldsTo (fun _ => ⟨hl.ne_dotIdent, hr.ne_dotIdent⟩)
      fun x y z hx hy hz => Cell.agrees_of_exact fun ht => ?_
    obtain ⟨hexact, hsign⟩ := Bool.and_eq_true_iff.1 ht
    obtain ⟨htl, htr⟩ := Bool.and_eq_true_iff.1 hexact
    rw [hx.exact htl, hy.exact htr] at hz
    refine foldBinaryOp_sensitive hop hz fun hreads hunsigned => ?_
    simpa [hreads, hunsigned] using hsign
  | shortAnd hl hzero ih =>
    refine foldAgrees_binary ih.foldsTo .any (by rintro (h | h) <;> cases h) fun x y z hx _ hz => ?_
    refine Cell.agrees_of_exact fun ht => ?_
    obtain rfl := hx.exact ht
    rw [boolean_eq_ok hz, hzero]
    rfl
  | shortOr hl hone ih =>
    refine foldAgrees_binary ih.foldsTo .any (by rintro (h | h) <;> cases h) fun x y z hx _ hz => ?_
    refine Cell.agrees_of_exact fun ht => ?_
    obtain rfl := hx.exact ht
    have hne := bne_iff_ne.2 hone
    rw [boolean_eq_ok hz, hne]
    rfl
  | ternary hc h ihc ih => exact foldAgrees_branch (fun _ _ _ => rfl) ihc ih
  | whenExpr hc h ihc ih => exact foldAgrees_branch (fun _ _ _ => rfl) ihc ih
  | call hmac hlen hargs h ihargs ih => exact foldAgrees_call hmac hlen ihargs ih

/-! ## Folded constants and values at run time -/

/-- A module without symbols, with the types of its expressions. -/
def typedModule (types : List (ExprKey × Ty)) : Program where
  modules := [("m", ⟨[], types, [], [], []⟩)]
  enums := []
  bitsets := []
  structs := []
  rttiEnabled := false
  genericEnv := []
  sizeOf := fun _ _ => 0
  alignOf := fun _ _ => 0

/-- `cast(n, u8) > 100` -/
def castExceeds (n : BitVec 64) : Expr :=
  .binary 1 .greater (.cast 2 (.literalInteger 3 n)) (.literalInteger 4 100)

def castProgram : Program :=
  typedModule [(1, .bool), (2, .int 8 false), (3, .int 32 true), (4, .int 8 false)]

theorem castExceeds_runs (n : BitVec 64) : Runs castProgram [] "m" (castExceeds n)
    ⟨.bool, truth ((Scalar.u8.extend 100).ult ((Cell.folded .i32 n).cast .u8).value),
      sensitiveTrust .greater ((Cell.folded .i32 n).cast .u8) (.folded .u8 100)⟩ := by
  have h3 : HasScalar castProgram "m" 3 .i32 := rfl
  have h2 : HasScalar castProgram "m" 2 .u8 := rfl
  have h4 : HasScalar castProgram "m" 4 .u8 := rfl
  exact .sensitive (.cast (.literalInteger h3) h2) (.literalInteger h4) rfl rfl

end Mirage.Consts

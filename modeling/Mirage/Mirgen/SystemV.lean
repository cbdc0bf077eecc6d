import Mirage.Mirgen.CAbi

/-!
# The System V convention

The classes and registers that the AMD64 convention prescribes, compared with the plans for the
64-bit target.

An aggregate of more than two eightbytes, or with an unaligned scalar, is passed in memory; of
any other each eightbyte is passed in an SSE register if all scalars that lie in it are
floating point, and in an integer register otherwise. An aggregate whose eightbytes do not all
fit in the registers that are left is passed in memory; a scalar for which none is left is
passed on the stack, and takes none from those behind it.

The plan counts the registers that were asked for. An integer argument on the stack raises its
count above the number of registers, and from then on an aggregate that asks for no integer
register is taken not to fit.

* `c_abi_follows_iff`: the plan follows the convention exactly when no aggregate is empty, and
  none is passed in registers of one class while a scalar of the other before it is on the stack
  (`Unobstructed`);
* `double_pair_not_follows`: seven integers and a pair of doubles.
-/

namespace Mirage.Mirgen

/-! ## The convention -/

/-- The class of an eightbyte in a register. -/
inductive ArgClass
  | integer | sse
  deriving DecidableEq, Repr

/-- How an argument is passed. -/
inductive Passing
  | scalar
  | memory
  | registers (words : List ArgClass)
  deriving DecidableEq, Repr

/-- The size of a scalar on the 64-bit target. -/
abbrev size64 (ty : Ty) : Nat := scalarSize 64 ty

mutual

/-- The scalars of a type with their positions. -/
def CType.scalars : CType → Nat → List (Nat × Ty)
  | .scalar ty, base => [(base, ty)]
  | .struct fields _ _, base => fields.scalars base
  | .array element count, base =>
    (List.range count).flatMap fun i => element.scalars (base + i * element.size 64)
  | .other _ _, _ => []

def CFields.scalars : CFields → Nat → List (Nat × Ty)
  | .nil, _ => []
  | .cons offset type rest, base => type.scalars (base + offset) ++ rest.scalars base

end

/-- Whether a scalar lies in an eightbyte, in part or whole. -/
def InEightbyte (w : Nat) (s : Nat × Ty) : Prop := s.1 < 8 * (w + 1) ∧ 8 * w < s.1 + size64 s.2

instance (w : Nat) (s : Nat × Ty) : Decidable (InEightbyte w s) :=
  inferInstanceAs (Decidable (_ ∧ _))

/-- The class of an eightbyte. -/
def eightbyteClass (type : CType) (w : Nat) : ArgClass :=
  if ∀ s ∈ type.scalars 0, InEightbyte w s → isFloat s.2 = true then .sse else .integer

/-- How an aggregate is passed while there are registers. -/
def abiClass (type : CType) : Passing :=
  if 16 < type.size 64 ∨ ∃ s ∈ type.scalars 0, ¬ size64 s.2 ∣ s.1 then .memory
  else .registers ((List.range ((type.size 64 + 7) / 8)).map (eightbyteClass type))

/-- The registers that are left. -/
structure Left where
  ints : Nat
  sses : Nat
  deriving DecidableEq, Repr

/-- The registers of an aggregate are left. -/
def Left.Fits (l : Left) (words : List ArgClass) : Prop :=
  words.count .integer ≤ l.ints ∧ words.count .sse ≤ l.sses

instance (l : Left) (words : List ArgClass) : Decidable (l.Fits words) :=
  inferInstanceAs (Decidable (_ ∧ _))

def Left.take (l : Left) (words : List ArgClass) : Left :=
  ⟨l.ints - words.count .integer, l.sses - words.count .sse⟩

/-- The class of a scalar. -/
def scalarClass (ty : Ty) : ArgClass := if isFloat ty then .sse else .integer

/-- How the arguments are passed, in order. -/
def passArgs : Left → List CType → List Passing
  | _, [] => []
  | l, .scalar ty :: types => .scalar :: passArgs (l.take [scalarClass ty]) types
  | l, type :: types =>
    match abiClass type with
    | .registers words =>
      if l.Fits words then .registers words :: passArgs (l.take words) types
      else .memory :: passArgs l types
    | _ => .memory :: passArgs l types

/-- The registers for arguments: a pointer to a result in memory takes the first. -/
def argRegisters (returns : List CType) : Left :=
  match aggregateRet returns with
  | some type => if abiClass type = .memory then ⟨5, 8⟩ else ⟨6, 8⟩
  | none => ⟨6, 8⟩

/-! ## Signatures -/

mutual

/-- The layout of a scalar, a struct or an array over them: the fields lie inside the struct, and
    the size is a multiple of the alignment. -/
def CType.Sound : CType → Prop
  | .scalar ty => ty ≠ .void
  | .struct fields size align => 0 < align ∧ align ∣ size ∧ size < 2 ^ 32 ∧ fields.Sound size
  | .array element count => element.Sound ∧ element.size 64 * count < 2 ^ 32
  | .other _ _ => False

def CFields.Sound : CFields → Nat → Prop
  | .nil, _ => True
  | .cons offset type rest, size =>
    type.Sound ∧ offset + type.size 64 ≤ size ∧ rest.Sound size

end

/-- The parameters and the return of a function with the C convention; it returns one value at
    most. -/
structure CSignature where
  params : List CType
  returns : List CType
  params_sound : ∀ type ∈ params, type.Sound
  returns_sound : ∀ type ∈ returns, type.Sound
  returns_le : returns.length ≤ 1

/-- The class a word type stands for. -/
def wordClass (ty : Ty) : ArgClass := if ty = .f64 then .sse else .integer

/-- What a lowering means. -/
def CLowering.passing (lowering : CLowering) : Passing :=
  match lowering.kind with
  | .scalar => .scalar
  | .oneWord => .registers [wordClass lowering.w0]
  | .twoWords => .registers [wordClass lowering.w0, wordClass lowering.w1]
  | .memory => .memory

/-- The plan follows the convention, and the parameters are bound in the order of the
    signature. -/
structure CSignature.Follows (sig : CSignature) : Prop where
  params : (buildCAbiPlan 64 sig.params sig.returns).params.map CLowering.passing =
    passArgs (argRegisters sig.returns) sig.params
  ret : ∀ type, aggregateRet sig.returns = some type →
    (buildCAbiPlan 64 sig.params sig.returns).ret.passing = abiClass type
  order : ∀ pointerBits isVariadic,
    (bindCParams pointerBits sig.params sig.returns
      (buildCAbiPlan pointerBits sig.params sig.returns)).blockParams =
    (signatureForC pointerBits sig.params sig.returns isVariadic
      (buildCAbiPlan pointerBits sig.params sig.returns)).params

/-- Which scalars are already on the stack. -/
structure OnStack where
  ints : Bool
  sses : Bool
  deriving DecidableEq, Repr

def OnStack.add (s : OnStack) (l : Left) (ty : Ty) : OnStack :=
  match scalarClass ty with
  | .integer => { s with ints := s.ints || l.ints == 0 }
  | .sse => { s with sses := s.sses || l.sses == 0 }

/-- None of the aggregates that are passed in registers asks for no register of a class of which
    a scalar before it is on the stack. -/
def Unobstructed : Left → OnStack → List CType → Prop
  | _, _, [] => True
  | l, s, .scalar ty :: types => Unobstructed (l.take [scalarClass ty]) (s.add l ty) types
  | l, s, type :: types =>
    match abiClass type with
    | .registers words =>
      if l.Fits words then
        ¬ (s.ints = true ∧ .integer ∉ words) ∧ ¬ (s.sses = true ∧ .sse ∉ words) ∧
          Unobstructed (l.take words) s types
      else Unobstructed l s types
    | _ => Unobstructed l s types

/-! ## Positions of the scalars -/

theorem size64_pos (ty : Ty) : 0 < size64 ty := le_max_left 1 _

theorem CType.Sound.size_lt {type : CType} (h : type.Sound) : type.size 64 < 2 ^ 32 := by
  cases type with
  | scalar ty => cases ty <;> decide
  | struct fields size align => exact h.2.2.1
  | array element count => exact (min_le_left _ _).trans_lt h.2
  | other => exact h.elim

theorem CType.Sound.size_array {element : CType} {count : Nat}
    (h : (CType.array element count).Sound) :
    (CType.array element count).size 64 = element.size 64 * count :=
  min_eq_left (Nat.le_sub_one_of_lt h.2)

theorem CType.Sound.align {type : CType} (h : type.Sound) :
    0 < type.align 64 ∧ type.align 64 ∣ type.size 64 := by
  induction type using CType.rec (motive_2 := fun _ => True) with
  | scalar ty => exact ⟨size64_pos ty, dvd_rfl⟩
  | struct fields size align => exact ⟨h.1, h.2.1⟩
  | array element count ih =>
    obtain ⟨hpos, hdvd⟩ := ih h.1
    refine ⟨hpos, ?_⟩
    rw [h.size_array]
    exact hdvd.mul_right count
  | other => exact h.elim
  | nil => trivial
  | cons => trivial

/-- The distance of the elements of an array is the size of an element. -/
theorem stride_eq {element : CType} (h : element.Sound) (hsize : 0 < element.size 64) :
    stride 64 element = element.size 64 := by
  obtain ⟨hpos, k, hk⟩ := h.align
  have hdiv : (element.align 64 * k + element.align 64 - 1) / element.align 64 = k := by
    rw [show element.align 64 * k + element.align 64 - 1 =
      (element.align 64 - 1) + element.align 64 * k by omega, Nat.add_mul_div_left _ _ hpos,
      Nat.div_eq_of_lt (by omega), Nat.zero_add]
  rw [stride, max_eq_right hsize, max_eq_right hpos, hk, hdiv, Nat.mul_comm]

mutual

/-- The scalars of a type lie inside it. -/
theorem CType.Sound.inside : ∀ {type : CType}, type.Sound → ∀ {base : Nat} {s : Nat × Ty},
    s ∈ type.scalars base → base ≤ s.1 ∧ s.1 + size64 s.2 ≤ base + type.size 64
  | .scalar ty, _, base, s, hs => by
    rw [CType.scalars, List.mem_singleton] at hs
    rw [hs]
    exact ⟨le_rfl, le_rfl⟩
  | .struct fields size align, h, base, s, hs => CFields.Sound.inside h.2.2.2 hs
  | .array element count, h, base, s, hs => by
    rw [CType.scalars] at hs
    obtain ⟨i, hi, hs⟩ := List.mem_flatMap.1 hs
    obtain ⟨hlow, hhigh⟩ := CType.Sound.inside h.1 hs
    have hi : i + 1 ≤ count := List.mem_range.1 hi
    have hle : (i + 1) * element.size 64 ≤ count * element.size 64 := Nat.mul_le_mul_right _ hi
    rw [Nat.succ_mul] at hle
    rw [h.size_array, Nat.mul_comm]
    omega
  | .other _ _, h, _, _, _ => h.elim

theorem CFields.Sound.inside : ∀ {fields : CFields} {size : Nat}, fields.Sound size →
    ∀ {base : Nat} {s : Nat × Ty}, s ∈ fields.scalars base →
      base ≤ s.1 ∧ s.1 + size64 s.2 ≤ base + size
  | .cons offset type rest, size, h, base, s, hs => by
    rw [CFields.scalars] at hs
    rcases List.mem_append.1 hs with hs | hs
    · obtain ⟨hlow, hhigh⟩ := CType.Sound.inside h.1 hs
      have := h.2.1
      omega
    · exact CFields.Sound.inside h.2.2 hs

end

/-- An empty type has no scalars. -/
theorem CType.Sound.scalars_empty {type : CType} (h : type.Sound) (hsize : type.size 64 = 0)
    (base : Nat) : type.scalars base = [] := by
  refine List.eq_nil_iff_forall_not_mem.2 fun s hs => ?_
  obtain ⟨hlow, hhigh⟩ := h.inside hs
  have := size64_pos s.2
  omega

/-! ## The scalars that are collected -/

/-- What a scalar is collected as. -/
def leafOf (s : Nat × Ty) : CLeaf := ⟨s.1, s.2, size64 s.2⟩

theorem mapM_some {α β : Type} {f : α → Option β} {g : α → β} {xs : List α}
    (h : ∀ x ∈ xs, f x = some (g x)) : xs.mapM f = some (xs.map g) := by
  induction xs with
  | nil => rfl
  | cons x xs ih =>
    obtain ⟨hx, hxs⟩ := List.forall_mem_cons.1 h
    rw [List.mapM_cons, hx, ih hxs]
    rfl

mutual

/-- All scalars are collected, at their positions. -/
theorem collect_eq : ∀ {type : CType}, type.Sound → ∀ {base : Nat},
    base + type.size 64 < 2 ^ 32 →
      collectCLeaves 64 type base = some ((type.scalars base).map leafOf)
  | .scalar ty, _, base, _ => rfl
  | .struct fields size align, h, base, hbase => collectFields_eq h.2.2.2 hbase
  | .array element count, h, base, hbase => by
    rw [h.size_array] at hbase
    rw [collectCLeaves, CType.scalars]
    have hmap : ∀ i ∈ List.range count, collectCLeaves 64 element
        ((base + i * stride 64 element % 2 ^ 32) % 2 ^ 32) =
          some ((element.scalars (base + i * element.size 64)).map leafOf) := by
      intro i hi
      have hi : i + 1 ≤ count := List.mem_range.1 hi
      have hle : (i + 1) * element.size 64 ≤ count * element.size 64 :=
        Nat.mul_le_mul_right _ hi
      rw [Nat.succ_mul, Nat.mul_comm count] at hle
      rcases Nat.eq_zero_or_pos (element.size 64) with h0 | hpos
      · have hlt : (base + i * stride 64 element % 2 ^ 32) % 2 ^ 32 + element.size 64 < 2 ^ 32 := by
          rw [h0]
          exact Nat.mod_lt _ (by decide)
        rw [collect_eq h.1 hlt, h.1.scalars_empty h0, h.1.scalars_empty h0]
      · rw [stride_eq h.1 hpos, Nat.mod_eq_of_lt (show i * element.size 64 < 2 ^ 32 by omega),
          Nat.mod_eq_of_lt (show base + i * element.size 64 < 2 ^ 32 by omega)]
        exact collect_eq h.1 (by omega)
    rw [mapM_some hmap, Option.map_some, List.map_flatMap, List.flatMap_def]
  | .other _ _, h, _, _ => h.elim

theorem collectFields_eq : ∀ {fields : CFields} {size : Nat}, fields.Sound size →
    ∀ {base : Nat}, base + size < 2 ^ 32 →
      collectFields 64 fields base = some ((fields.scalars base).map leafOf)
  | .nil, _, _, _, _ => rfl
  | .cons offset type rest, size, h, base, hbase => by
    have hoffset := h.2.1
    rw [collectFields, CFields.scalars, Nat.mod_eq_of_lt (show base + offset < 2 ^ 32 by omega),
      collect_eq h.1 (by omega), collectFields_eq h.2.2 hbase]
    simp

end

/-! ## Classes -/

theorem size64_le (ty : Ty) : size64 ty ≤ 8 := by cases ty <;> decide

theorem inWord_leafOf (w : Nat) (s : Nat × Ty) :
    (leafOf s).inWord w = decide (InEightbyte w s) := by
  have hpos := size64_pos s.2
  rw [Bool.eq_iff_iff, CLeaf.inWord, Bool.and_eq_true, decide_eq_true_iff, decide_eq_true_iff,
    decide_eq_true_iff]
  change s.1 / 8 ≤ w ∧ w ≤ (s.1 + size64 s.2 - 1) / 8 ↔ s.1 < 8 * (w + 1) ∧ 8 * w < s.1 + size64 s.2
  refine and_congr ?_ ?_
  · rw [← Nat.lt_succ_iff, Nat.div_lt_iff_lt_mul (by decide), Nat.succ_eq_add_one, Nat.mul_comm]
  · rw [Nat.le_div_iff_mul_le (by decide), Nat.mul_comm]
    omega

/-- A scalar that is no float marks the words it lies in. -/
def floatIn (s : Nat × Ty) (w : Nat) : Bool := !decide (InEightbyte w s) || isFloat s.2

theorem markWords_eq (scalars : List (Nat × Ty)) (sse : Bool × Bool) :
    markWords (scalars.map leafOf) sse =
      if ∃ s ∈ scalars, ¬ size64 s.2 ∣ s.1 then none
      else some (sse.1 && scalars.all (floatIn · 0), sse.2 && scalars.all (floatIn · 1)) := by
  induction scalars generalizing sse with
  | nil => simp [markWords]
  | cons s scalars ih =>
    rw [List.map_cons, markWords]
    have hmin : min (leafOf s).size 8 = size64 s.2 := min_eq_left (size64_le s.2)
    have hdvd : ((leafOf s).offset % min (leafOf s).size 8 ≠ 0) ↔ ¬ size64 s.2 ∣ s.1 := by
      rw [hmin, ne_eq, ← Nat.dvd_iff_mod_eq_zero]
      rfl
    by_cases hal : size64 s.2 ∣ s.1
    · rw [if_neg (fun h => hdvd.1 h hal), ih]
      have hex : (∃ t ∈ s :: scalars, ¬ size64 t.2 ∣ t.1) ↔ ∃ t ∈ scalars, ¬ size64 t.2 ∣ t.1 := by
        rw [List.exists_mem_cons_iff, or_iff_right (fun h => h hal)]
      have hmark (w : Nat) (b : Bool) :
          (if (leafOf s).inWord w && !isFloat (leafOf s).type then false else b) =
            (b && floatIn s w) := by
        rw [inWord_leafOf, floatIn]
        change (if decide (InEightbyte w s) && !isFloat s.2 then false else b) = _
        cases decide (InEightbyte w s) <;> cases isFloat s.2 <;> cases b <;> rfl
      simp only [hex, hmark, List.all_cons, Bool.and_assoc]
    · rw [if_pos (hdvd.2 hal), if_pos ⟨s, List.mem_cons_self, hal⟩]

theorem eightbyteClass_eq (type : CType) (w : Nat) :
    eightbyteClass type w = if (type.scalars 0).all (floatIn · w) then .sse else .integer := by
  rw [eightbyteClass]
  congr 1
  rw [eq_iff_iff, List.all_eq_true]
  refine forall₂_congr fun s _ => ?_
  rw [floatIn, Bool.or_eq_true, Bool.not_eq_true', decide_eq_false_iff_not, imp_iff_not_or]

/-- What the plan makes of an aggregate on its own. -/
structure Classified (lowering : CLowering) (passing : Passing) : Prop where
  passing_eq : lowering.passing = passing
  words : ∀ cs, passing = .registers cs → (lowering.kind = .oneWord ∨ lowering.kind = .twoWords) ∧
    lowering.intWords = cs.count .integer ∧ lowering.sseWords = cs.count .sse
  memory : passing = .memory → lowering.kind = .memory

theorem classified_memory : Classified { kind := .memory } .memory where
  passing_eq := rfl
  words _ h := nomatch h
  memory _ := rfl

/-- The plan finds the class of an aggregate. -/
theorem classify_spec {type : CType} (h : type.Sound) (hpos : 0 < type.size 64) :
    Classified (classifyCAggregate 64 type) (abiClass type) := by
  have hcollect : collectCLeaves 64 type 0 = _ := collect_eq h (by rw [Nat.zero_add]; exact h.size_lt)
  have hsize : max 1 (type.size 64) = type.size 64 := max_eq_right hpos
  have hwasm : wasmCAbi 64 = false := rfl
  simp only [classifyCAggregate, hwasm, hcollect, hsize, Option.bind_some, markWords_eq,
    Bool.true_and, Bool.false_eq_true, if_false]
  by_cases hbig : 16 < type.size 64
  · rw [if_pos hbig, abiClass, if_pos (.inl hbig)]
    exact classified_memory
  · rw [if_neg hbig, abiClass]
    by_cases hun : ∃ s ∈ type.scalars 0, ¬ size64 s.2 ∣ s.1
    · rw [if_pos (Or.inr hun), if_pos hun]
      exact classified_memory
    · rw [if_neg (not_or.2 ⟨hbig, hun⟩), if_neg hun]
      simp only
      by_cases hone : type.size 64 ≤ 8
      · rw [if_pos hone, show (type.size 64 + 7) / 8 = 1 by omega, List.range_one, List.map_singleton,
          eightbyteClass_eq]
        cases (type.scalars 0).all (floatIn · 0) <;>
          exact ⟨rfl, fun cs hcs => by cases hcs; exact ⟨.inl rfl, rfl, rfl⟩, fun h => by cases h⟩
      · rw [if_neg hone, show (type.size 64 + 7) / 8 = 2 by omega, show List.range 2 = [0, 1] from rfl,
          List.map_cons, List.map_singleton, eightbyteClass_eq, eightbyteClass_eq]
        cases (type.scalars 0).all (floatIn · 0) <;> cases (type.scalars 0).all (floatIn · 1) <;>
          exact ⟨rfl, fun cs hcs => by cases hcs; exact ⟨.inr rfl, rfl, rfl⟩, fun h => by cases h⟩

/-- An empty aggregate has no class, but the plan gives it a word. -/
theorem classify_empty {type : CType} (h : type.Sound) (h0 : type.size 64 = 0) :
    abiClass type = .registers [] ∧
      classifyCAggregate 64 type = { kind := .oneWord, w0 := .f64, w1 := .f64, sseWords := 1 } := by
  have hcollect : collectCLeaves 64 type 0 = _ := collect_eq h (by rw [Nat.zero_add]; exact h.size_lt)
  rw [h.scalars_empty h0] at hcollect
  constructor
  · rw [abiClass, h.scalars_empty h0, h0]
    rfl
  · rw [classifyCAggregate, hcollect, h0]
    rfl

/-! ## Registers -/

section Aggregates

variable {type : CType} (h : type.isScalar = false) (types : List CType)
include h

theorem planParams_aggregate (ints sses : Nat) :
    planParams 64 ints sses (type :: types) =
      let lowering := classifyCAggregate 64 type
      if lowering.kind == .oneWord || lowering.kind == .twoWords then
        if ints + lowering.intWords > 6 ∨ sses + lowering.sseWords > 8 then
          { kind := .memory } :: planParams 64 ints sses types
        else
          lowering :: planParams 64 (ints + lowering.intWords) (sses + lowering.sseWords) types
      else lowering :: planParams 64 ints sses types := by
  cases type with
  | scalar ty => cases h
  | struct | array | other => rfl

theorem passArgs_aggregate (l : Left) :
    passArgs l (type :: types) =
      match abiClass type with
      | .registers words =>
        if l.Fits words then .registers words :: passArgs (l.take words) types
        else .memory :: passArgs l types
      | _ => .memory :: passArgs l types := by
  cases type with
  | scalar ty => cases h
  | struct | array | other => rfl

theorem unobstructed_aggregate (l : Left) (s : OnStack) :
    Unobstructed l s (type :: types) ↔
      match abiClass type with
      | .registers words =>
        if l.Fits words then
          ¬ (s.ints = true ∧ .integer ∉ words) ∧ ¬ (s.sses = true ∧ .sse ∉ words) ∧
            Unobstructed (l.take words) s types
        else Unobstructed l s types
      | _ => Unobstructed l s types := by
  cases type with
  | scalar ty => cases h
  | struct | array | other => rfl

end Aggregates

/-- The counts of a plan, as registers that are left and scalars on the stack. -/
structure Counted (ints sses : Nat) (l : Left) (s : OnStack) : Prop where
  left_ints : l.ints = 6 - ints
  left_sses : l.sses = 8 - sses
  stack_ints : s.ints = decide (6 < ints)
  stack_sses : s.sses = decide (8 < sses)

theorem beq_zero_eq (n m : Nat) : (decide (m < n) || m - n == 0) = decide (m < n + 1) := by
  rw [Bool.eq_iff_iff, Bool.or_eq_true, decide_eq_true_iff, beq_iff_eq, decide_eq_true_iff]
  omega

/-- A scalar asks for one register of its class. -/
theorem Counted.scalar {ints sses : Nat} {l : Left} {s : OnStack} (h : Counted ints sses l s)
    (ty : Ty) :
    Counted (if isFloat ty then ints else ints + 1) (if isFloat ty then sses + 1 else sses)
      (l.take [scalarClass ty]) (s.add l ty) := by
  obtain ⟨hi, hs, hsi, hss⟩ := h
  cases hf : isFloat ty <;>
    simp only [Left.take, OnStack.add, scalarClass, hf, Bool.false_eq_true, if_false, if_true] <;>
    refine ⟨?_, ?_, ?_, ?_⟩
  · rw [hi]
    exact Nat.sub_sub _ _ _
  · exact hs
  · rw [hsi, hi]
    exact beq_zero_eq ints 6
  · exact hss
  · exact hi
  · rw [hs]
    exact Nat.sub_sub _ _ _
  · exact hsi
  · rw [hss, hs]
    exact beq_zero_eq sses 8

/-- The plan takes an aggregate to fit exactly when it does and nothing is in its way. -/
theorem Counted.fits_iff {ints sses : Nat} {l : Left} {s : OnStack} (h : Counted ints sses l s)
    {words : List ArgClass} (hfits : l.Fits words) :
    ¬ (ints + words.count .integer > 6 ∨ sses + words.count .sse > 8) ↔
      ¬ (s.ints = true ∧ .integer ∉ words) ∧ ¬ (s.sses = true ∧ .sse ∉ words) := by
  obtain ⟨hi, hs, hsi, hss⟩ := h
  obtain ⟨hfi, hfs⟩ := hfits
  rw [hsi, hss, decide_eq_true_iff, decide_eq_true_iff, ← List.count_eq_zero, ← List.count_eq_zero]
  omega

theorem Counted.take {ints sses : Nat} {l : Left} {s : OnStack} (h : Counted ints sses l s)
    {words : List ArgClass}
    (hle : ¬ (ints + words.count .integer > 6 ∨ sses + words.count .sse > 8)) :
    Counted (ints + words.count .integer) (sses + words.count .sse) (l.take words) s := by
  obtain ⟨hi, hs, hsi, hss⟩ := h
  refine ⟨?_, ?_, ?_, ?_⟩
  · rw [Left.take, hi, Nat.sub_sub]
  · rw [Left.take, hs, Nat.sub_sub]
  · rw [hsi, decide_eq_decide]
    omega
  · rw [hss, decide_eq_decide]
    omega

/-- One argument after the other, the plan follows the convention until an aggregate is empty or
    obstructed. -/
theorem planParams_iff {types : List CType} (hsound : ∀ type ∈ types, type.Sound)
    {ints sses : Nat} {l : Left} {s : OnStack} (hc : Counted ints sses l s) :
    (planParams 64 ints sses types).map CLowering.passing = passArgs l types ↔
      (∀ type ∈ types, 0 < type.size 64) ∧ Unobstructed l s types := by
  induction types generalizing ints sses l s with
  | nil => exact iff_of_true rfl ⟨nofun, trivial⟩
  | cons type types ih =>
    obtain ⟨htype, htypes⟩ := List.forall_mem_cons.1 hsound
    rw [List.forall_mem_cons]
    by_cases hscalar : type.isScalar = true
    · obtain ⟨ty, rfl⟩ : ∃ ty, type = .scalar ty := by
        cases type with
        | scalar ty => exact ⟨ty, rfl⟩
        | struct | array | other => cases hscalar
      have hplan : planParams 64 ints sses (.scalar ty :: types) =
          { kind := .scalar } :: planParams 64 (if isFloat ty then ints else ints + 1)
            (if isFloat ty then sses + 1 else sses) types := by
        rw [planParams]
        cases isFloat ty <;> rfl
      rw [hplan, List.map_cons, passArgs, Unobstructed]
      have hpos : 0 < (CType.scalar ty).size 64 := size64_pos ty
      simp only [CLowering.passing, List.cons.injEq, true_and, hpos]
      exact ih htypes (hc.scalar ty)
    · have hagg : type.isScalar = false := Bool.eq_false_iff.2 hscalar
      rw [planParams_aggregate hagg, passArgs_aggregate hagg, unobstructed_aggregate hagg]
      rcases Nat.eq_zero_or_pos (type.size 64) with h0 | hpos
      · -- an empty aggregate has no eightbyte, and the plan passes one
        obtain ⟨hclass, hlow⟩ := classify_empty htype h0
        refine iff_of_false ?_ fun h => absurd h0 h.1.1.ne'
        have hfits : l.Fits [] := ⟨Nat.zero_le _, Nat.zero_le _⟩
        rw [hclass, hlow]
        simp only [hfits, if_true, beq_self_eq_true, Bool.true_or]
        split_ifs <;> simp [CLowering.passing]
      · have hspec := classify_spec htype hpos
        simp only [hpos, true_and]
        cases hclass : abiClass type with
        | scalar =>
          rw [abiClass] at hclass
          split_ifs at hclass
        | memory =>
          have hkind := hspec.memory hclass
          simp only [hkind, show (CParamKind.memory == .oneWord || CParamKind.memory == .twoWords) =
            false from rfl, Bool.false_eq_true, if_false, List.map_cons, hspec.passing_eq, hclass,
            List.cons.injEq, true_and]
          exact ih htypes hc
        | registers words =>
          obtain ⟨hkind, hint, hsse⟩ := hspec.words words hclass
          have hreg : ((classifyCAggregate 64 type).kind == .oneWord ||
              (classifyCAggregate 64 type).kind == .twoWords) = true := by
            rcases hkind with hk | hk <;> rw [hk] <;> rfl
          simp only [hreg, if_true, hint, hsse]
          by_cases hfits : l.Fits words
          · have hclear := hc.fits_iff hfits
            rw [if_pos hfits, if_pos hfits]
            split_ifs with hover
            · refine iff_of_false ?_ fun h => hclear.2 ⟨h.2.1, h.2.2.1⟩ hover
              rw [List.map_cons, List.cons.injEq]
              exact fun h => nomatch h.1
            · obtain ⟨hints, hsses⟩ := hclear.1 hover
              rw [List.map_cons, hspec.passing_eq, hclass, List.cons.injEq, and_iff_right rfl,
                and_iff_right hints, and_iff_right hsses]
              exact ih htypes (hc.take hover)
          · have hover : ints + words.count .integer > 6 ∨ sses + words.count .sse > 8 := by
              by_contra h
              refine hfits ⟨?_, ?_⟩
              · rw [hc.left_ints]
                omega
              · rw [hc.left_sses]
                omega
            rw [if_neg hfits, if_neg hfits, if_pos hover, List.map_cons, List.cons.injEq]
            simp only [CLowering.passing, true_and]
            exact ih htypes hc

/-! ## Plans -/

theorem counted_start : Counted 0 0 ⟨6, 8⟩ ⟨false, false⟩ := ⟨rfl, rfl, rfl, rfl⟩

/-- **The plan follows the convention exactly when no aggregate is empty, and none is obstructed
    by a scalar on the stack.** -/
theorem c_abi_follows_iff (sig : CSignature) :
    sig.Follows ↔
      (∀ type ∈ sig.params ++ sig.returns, 0 < type.size 64) ∧
        Unobstructed (argRegisters sig.returns) ⟨false, false⟩ sig.params := by
  obtain ⟨params, returns, hparams, hreturns, hle⟩ := sig
  have horder : ∀ pointerBits isVariadic,
      (bindCParams pointerBits params returns
        (buildCAbiPlan pointerBits params returns)).blockParams =
      (signatureForC pointerBits params returns isVariadic
        (buildCAbiPlan pointerBits params returns)).params :=
    fun _ isVariadic => bindCParams_types params returns isVariadic
  rw [List.forall_mem_append]
  change CSignature.Follows ⟨params, returns, _, _, _⟩ ↔ (_ ∧ _) ∧
    Unobstructed (argRegisters returns) _ params
  cases hret : aggregateRet returns with
  | none =>
    -- a scalar is not empty
    have hpos : ∀ type ∈ returns, 0 < type.size 64 := by
      rcases returns with - | ⟨type, - | ⟨u, rest⟩⟩
      · exact nofun
      · cases type with
        | scalar ty => exact List.forall_mem_singleton.2 (size64_pos ty)
        | struct | array | other => cases hret
      · exact absurd hle (by simp)
    have hiff := planParams_iff hparams counted_start
    have hregs : argRegisters returns = ⟨6, 8⟩ := by rw [argRegisters, hret]
    have hplan : buildCAbiPlan 64 params returns = { params := planParams 64 0 0 params } := by
      rw [buildCAbiPlan, hret]
    rw [and_iff_left hpos, hregs, ← hiff]
    refine ⟨fun h => ?_, fun h => ⟨?_, fun type htype => ?_, horder⟩⟩
    · have hp := h.params
      rwa [hregs, hplan] at hp
    · change (buildCAbiPlan 64 params returns).params.map _ = passArgs (argRegisters returns) params
      rwa [hregs, hplan]
    · cases hret.symm.trans htype
  | some type =>
    obtain rfl : returns = [type] := by
      rcases returns with - | ⟨t, - | ⟨u, rest⟩⟩ <;> simp [aggregateRet] at hret
      rw [hret.2]
    have htype := hreturns type (List.mem_singleton_self _)
    have hplan : buildCAbiPlan 64 params [type] =
        { params := planParams 64
            (if (classifyCAggregate 64 type).kind == .memory && !wasmCAbi 64 then 1 else 0) 0 params
          ret := classifyCAggregate 64 type
          hasAggregateRet := true } := by rw [buildCAbiPlan, hret]
    rw [List.forall_mem_singleton]
    rcases Nat.eq_zero_or_pos (type.size 64) with h0 | hpos
    · obtain ⟨hclass, hlow⟩ := classify_empty htype h0
      refine iff_of_false (fun h => ?_) fun h => absurd h0 h.1.2.ne'
      have hr := h.ret type hret
      rw [hplan, hclass] at hr
      change (classifyCAggregate 64 type).passing = _ at hr
      rw [hlow] at hr
      cases hr
    · have hspec := classify_spec htype hpos
      have hcount : Counted
          (if (classifyCAggregate 64 type).kind == .memory && !wasmCAbi 64 then 1 else 0) 0
          (argRegisters [type]) ⟨false, false⟩ := by
        rw [argRegisters, hret]
        simp only
        by_cases hm : abiClass type = .memory
        · rw [hspec.memory hm, if_pos hm]
          exact ⟨rfl, rfl, rfl, rfl⟩
        · have hkind : (classifyCAggregate 64 type).kind ≠ .memory := by
            intro hk
            have hp := hspec.passing_eq
            rw [CLowering.passing, hk] at hp
            exact hm hp.symm
          rw [if_neg hm, beq_false_of_ne hkind]
          exact ⟨rfl, rfl, rfl, rfl⟩
      have hiff := planParams_iff hparams hcount
      rw [and_iff_left hpos, ← hiff]
      refine ⟨fun h => ?_, fun h => ⟨?_, fun t ht => ?_, horder⟩⟩
      · have hp := h.params
        rwa [hplan] at hp
      · change (buildCAbiPlan 64 params [type]).params.map _ = _
        rwa [hplan]
      · obtain rfl : type = t := Option.some.inj (hret.symm.trans ht)
        change (buildCAbiPlan 64 params [type]).ret.passing = _
        rw [hplan]
        exact hspec.passing_eq

/-- Two doubles. -/
def doublePair : CType := .struct (.cons 0 (.scalar .f64) (.cons 8 (.scalar .f64) .nil)) 16 8

/-- Seven integers and a pair of doubles, which the convention passes in two SSE registers. -/
def doublePairSignature : CSignature where
  params := List.replicate 7 (.scalar .i64) ++ [doublePair]
  returns := []
  params_sound := by simp [doublePair, CType.Sound, CFields.Sound, CType.size, scalarSize, typeBits]
  returns_sound := nofun
  returns_le := Nat.zero_le 1

/-- The pair is passed in memory. -/
theorem double_pair_not_follows :
    ¬ doublePairSignature.Follows ∧
      ((buildCAbiPlan 64 doublePairSignature.params []).params.map CLowering.passing)[7]? =
        some .memory ∧
      (passArgs ⟨6, 8⟩ doublePairSignature.params)[7]? = some (.registers [.sse, .sse]) := by
  have hcode : ((buildCAbiPlan 64 doublePairSignature.params []).params.map CLowering.passing)[7]? =
      some .memory := by decide
  have habi : (passArgs ⟨6, 8⟩ doublePairSignature.params)[7]? =
      some (.registers [.sse, .sse]) := by decide
  refine ⟨fun h => ?_, hcode, habi⟩
  have hp : (buildCAbiPlan 64 doublePairSignature.params []).params.map CLowering.passing =
      passArgs ⟨6, 8⟩ doublePairSignature.params := h.params
  rw [hp, habi] at hcode
  cases hcode

end Mirage.Mirgen

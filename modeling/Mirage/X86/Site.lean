import Mirage.X86.AllocSound
import Mirage.X86.Lease

/-!
# The site of an instruction

What a template can rely on at its instruction, from the allocation of the function:
its operands and its result have homes (`Site.use`, `Site.result`), in different registers
unless the result is written late, none of them among the registers the template names
itself, and the sweep counts their registers as occupied.

`mem_active` says which intervals the sweep holds active at an instruction: the ones in
a register that meet its positions.
-/

namespace Mirage.X86

variable {module : Module} {fn : Function} {mode : Mode}

/-! ## The sweep -/

theorem mem_takeWhile_start {l : List Interval} (h : l.Pairwise fun i j => i.start ≤ j.start)
    {p : Nat} {i : Interval} :
    i ∈ l.takeWhile (fun i => i.start ≤ p) ↔ i ∈ l ∧ i.start ≤ p := by
  induction l with
  | nil => simp
  | cons j l ih =>
    obtain ⟨hj, hl⟩ := List.pairwise_cons.1 h
    rw [List.takeWhile_cons]
    split_ifs with hp
    · simp only [decide_eq_true_eq] at hp
      rw [List.mem_cons, ih hl, List.mem_cons]
      constructor
      · rintro (rfl | h)
        · exact ⟨.inl rfl, hp⟩
        · exact ⟨.inr h.1, h.2⟩
      · rintro ⟨rfl | h, h'⟩
        · exact .inl rfl
        · exact .inr ⟨h, h'⟩
    · simp only [decide_eq_true_eq] at hp
      simp only [List.not_mem_nil, List.mem_cons, false_iff, not_and]
      rintro (rfl | h)
      · exact hp
      · have := hj i h
        omega

theorem mem_dropWhile_start {l : List Interval} (h : l.Pairwise fun i j => i.start ≤ j.start)
    {p : Nat} {i : Interval} :
    i ∈ l.dropWhile (fun i => i.start ≤ p) ↔ i ∈ l ∧ p < i.start := by
  induction l with
  | nil => simp
  | cons j l ih =>
    obtain ⟨hj, hl⟩ := List.pairwise_cons.1 h
    rw [List.dropWhile_cons]
    split_ifs with hp
    · simp only [decide_eq_true_eq] at hp
      rw [ih hl, List.mem_cons]
      constructor
      · exact fun h => ⟨.inr h.1, h.2⟩
      · rintro ⟨rfl | h, h'⟩
        · omega
        · exact ⟨h, h'⟩
    · simp only [decide_eq_true_eq] at hp
      refine ⟨fun h => ⟨h, ?_⟩, fun h => h.1⟩
      rcases List.mem_cons.1 h with rfl | h
      · omega
      · have := hj i h
        omega

/-- The state of the sweep at an instruction. -/
theorem mem_sweepTo {c : Ctx} (hsorted : c.ra.intervals.Pairwise fun i j => i.start ≤ j.start)
    (hle : ∀ i ∈ c.ra.intervals, i.start ≤ i.end) (index : Nat) :
    (∀ i, i ∈ (c.sweepTo index).active ↔ i ∈ c.ra.intervals ∧ c.inReg i.value = true ∧
      i.start ≤ posL index ∧ posE index ≤ i.end) ∧
    (∀ i, i ∈ (c.sweepTo index).rest ↔ i ∈ c.ra.intervals ∧ posL index < i.start) ∧
    (c.sweepTo index).rest.Pairwise fun i j => i.start ≤ j.start := by
  induction index with
  | zero =>
    simp only [Ctx.sweepTo, Ctx.advanceTo, List.filter_nil, List.nil_append, List.mem_filter,
      mem_takeWhile_start hsorted, mem_dropWhile_start hsorted]
    refine ⟨fun i => ?_, fun _ => trivial, hsorted.sublist (List.dropWhile_sublist _)⟩
    have hE : posE 0 ≤ i.end := by simp [posE]
    tauto
  | succ index ih =>
    obtain ⟨hactive, hrest, hpair⟩ := ih
    simp only [Ctx.sweepTo, Ctx.advanceTo, List.mem_append, List.mem_filter,
      mem_takeWhile_start hpair, mem_dropWhile_start hpair, hactive, hrest, decide_eq_true_eq]
    refine ⟨fun i => ?_, fun i => ?_, hpair.sublist (List.dropWhile_sublist _)⟩
    · constructor
      · rintro (⟨⟨h1, h2, h3, h4⟩, h5⟩ | ⟨⟨⟨h1, h2⟩, h3⟩, h4⟩)
        · exact ⟨h1, h2, by simp only [posL] at *; omega, by simp only [posE] at *; omega⟩
        · have := hle i h1
          exact ⟨h1, h4, h3, by simp only [posE, posL] at *; omega⟩
      · rintro ⟨h1, h2, h3, h4⟩
        by_cases hs : i.start ≤ posL index
        · exact .inl ⟨⟨h1, h2, hs, by simp only [posE] at *; omega⟩, by omega⟩
        · exact .inr ⟨⟨⟨h1, by omega⟩, h3⟩, h2⟩
    · constructor
      · exact fun h => ⟨h.1.1, h.2⟩
      · exact fun h => ⟨⟨h.1, by simp only [posL] at *; omega⟩, h.2⟩

/-- The intervals active at an instruction. -/
theorem mem_active {index : Nat} {i : Interval} :
    i ∈ (context module fn mode).active index ↔ i ∈ buildIntervals fn ∧
      (context module fn mode).inReg i.value = true ∧ i.start ≤ posL index ∧ posE index ≤ i.end :=
  (mem_sweepTo (c := context module fn mode) (intervals_sorted fn) (fun _ => start_le_end)
    index).1 i

/-- The register of a value covered at a position of an instruction is occupied there. -/
theorem mem_occupied {index pos : Nat} {v : ValueId} {reg : PhysReg} (hv : Covers fn v pos)
    (hE : posE index ≤ pos) (hL : pos ≤ posL index)
    (hin : (context module fn mode).inReg v = true)
    (hreg : ((context module fn mode).assignment v).reg = some reg) :
    reg ∈ (context module fn mode).occupied index := by
  obtain ⟨i, hi, rfl, hs, he⟩ := hv
  exact List.mem_filterMap.2 ⟨i, mem_active.2 ⟨hi, hin, by omega, by omega⟩, hreg⟩

/-! ## Homes -/

/-- A value with an interval has a home. -/
theorem placed_of_covers {pos : Nat} {v : ValueId} (hv : Covers fn v pos) :
    (context module fn mode).Placed v := by
  obtain ⟨i, hi, rfl, -, -⟩ := hv
  have hassigned := (allocate_spec module fn mode).assigned i hi
  have hfloat : i.isFloat = isFloat (fn.valueType i.value) := by
    obtain ⟨v, s, t, -, -, rfl⟩ := mem_buildIntervals.1 hi
    rfl
  have hval : (context module fn mode).assignment i.value =
      (allocate module fn mode).values i.value := rfl
  have hframe : ∀ {reg}, ((allocate module fn mode).values i.value).reg = some reg → _ :=
    fun h => reg_ne_frame h
  refine ⟨fun hin => ?_, fun hin => ?_⟩
  · rw [Ctx.inReg] at hin
    rw [hval] at hin ⊢
    generalize (allocate module fn mode).values i.value = a at hin hassigned hframe
    cases hassigned with
    | spilled => simp at hin
    | inReg reg save hreg hkill hsave =>
      have hne := hframe rfl
      have hclass : ∀ r ∈ xmmOrder, ∃ x, r = .xmm x := by decide
      have hclass' : ∀ r ∈ gprPreferCallee ++ gprPreferScratchy, ∃ x, r = .gpr x := by
        intro r hr
        cases r with
        | gpr r => exact ⟨r, rfl⟩
        | xmm x =>
          have : ∀ x : XReg, .xmm x ∉ gprPreferCallee ++ gprPreferScratchy := by decide
          exact absurd hr (this x)
      show if isFloat (fn.valueType i.value) = true then _ else _
      rw [registerOrder, hfloat] at hreg
      split_ifs at hreg ⊢ with h1 h2
      · obtain ⟨x, rfl⟩ := hclass reg hreg
        exact ⟨x, rfl⟩
      all_goals
        obtain ⟨r, rfl⟩ := hclass' reg (by simp [hreg])
        exact ⟨r, rfl, fun h => hne.1 (h ▸ rfl), fun h => hne.2 (h ▸ rfl)⟩
  · rw [Ctx.inReg] at hin
    rw [hval] at hin ⊢
    show ∃ k < (allocate module fn mode).spillAreaCount, _
    generalize (allocate module fn mode).values i.value = a at hin hassigned
    cases hassigned with
    | spilled k hk => exact ⟨k, hk, rfl⟩
    | inReg reg save hreg hkill hsave => simp at hin

namespace Ctx

variable {c : Ctx}

/-- An integer or a pointer with a home. -/
structure IntPlaced (c : Ctx) (v : ValueId) : Prop extends c.Placed v where
  int : isFloat (c.fn.valueType v) = false

/-- A float with a home. -/
structure FloatPlaced (c : Ctx) (v : ValueId) : Prop extends c.Placed v where
  float : isFloat (c.fn.valueType v) = true

theorem IntPlaced.reg_eq {v : ValueId} (h : c.IntPlaced v) (hin : c.inReg v = true) :
    (c.assignment v).reg = some (.gpr (c.valGpr v)) := by
  have := h.reg hin
  rw [if_neg (by simp [h.int])] at this
  obtain ⟨r, hr, -⟩ := this
  rw [valGpr, hr]
  rfl

theorem IntPlaced.ne_frame {v : ValueId} (h : c.IntPlaced v) (hin : c.inReg v = true) :
    c.valGpr v ≠ .rsp ∧ c.valGpr v ≠ .rbp := by
  have := h.reg hin
  rw [if_neg (by simp [h.int])] at this
  obtain ⟨r, hr, hne⟩ := this
  rw [valGpr, hr]
  exact hne

theorem FloatPlaced.reg_eq {v : ValueId} (h : c.FloatPlaced v) (hin : c.inReg v = true) :
    (c.assignment v).reg = some (.xmm (c.valXmm v)) := by
  have := h.reg hin
  rw [if_pos h.float] at this
  obtain ⟨x, hx⟩ := this
  rw [valXmm, hx]
  rfl

/-! ## Sites -/

/-- Only the registers of asm blocks depend on the context. -/
theorem clobbers_eq (c c' : Ctx) {inst : Inst} (h : inst.op ≠ .asm) :
    c.clobbers inst = c'.clobbers inst := by
  rw [clobbers, clobbers]
  split <;> first | rfl | contradiction

/-- What holds where the template of an instruction is run. -/
structure Site (c : Ctx) (index : Nat) (inst : Inst) : Prop where
  use : ∀ v ∈ valueOperands inst, c.Placed v
  result : inst.result ≠ noValue → c.Placed inst.result
  /-- A result written early is not in the register of an operand. -/
  apart : ∀ v ∈ valueOperands inst, v ≠ inst.result → inst.result ≠ noValue →
    definesLate inst = false → ∀ reg, (c.assignment v).reg = some reg →
    (c.assignment inst.result).reg ≠ some reg
  /-- The registers the template names are not those of its operands, -/
  clobber : definesLate inst = false → ∀ v ∈ valueOperands inst, ∀ reg,
    (c.assignment v).reg = some reg → reg ∉ c.clobbers inst
  /-- nor that of its result. -/
  clobberResult : definesLate inst = false → inst.result ≠ noValue → ∀ reg,
    (c.assignment inst.result).reg = some reg → reg ∉ c.clobbers inst
  frame : ∀ v reg, (c.assignment v).reg = some reg → reg ≠ .gpr .rsp ∧ reg ≠ .gpr .rbp
  /-- The registers of the operands are occupied. -/
  occupied : ∀ v ∈ valueOperands inst, c.inReg v = true → ∀ reg,
    (c.assignment v).reg = some reg → reg ∈ c.occupied index

end Ctx

/-- The operands of the instruction are values of the function, and so is its result. -/
def Operands (fn : Function) (inst : Inst) : Prop :=
  (∀ v ∈ valueOperands inst, IsValue fn v) ∧ (inst.result ≠ noValue → IsValue fn inst.result)

/-- Every instruction of a function has its site. -/
theorem site {b i : Nat} {block : Block} {inst : Inst} (hb : fn.blocks[b]? = some block)
    (hi : block.insts[i]? = some inst) (ho : Operands fn inst) :
    (context module fn mode).Site (firstIndex fn b + i) inst := by
  have hU : ∀ v ∈ valueOperands inst, Covers fn v (posU (firstIndex fn b + i)) :=
    fun v hv => use_covers hb hi (ho.1 v hv) hv
  have hD : inst.result ≠ noValue → Covers fn inst.result (defPos inst (firstIndex fn b + i)) :=
    fun h => def_covers hb hi (ho.2 h)
  have hearly : definesLate inst = false → defPos inst (firstIndex fn b + i) =
      posU (firstIndex fn b + i) := fun h => by rw [defPos, if_neg]; simpa [definesLate] using h
  -- a covered position of a straight-line template rules its named registers out
  have hclob : definesLate inst = false → ∀ v, Covers fn v (posU (firstIndex fn b + i)) → ∀ reg,
      ((allocate module fn mode).values v).reg = some reg →
      reg ∉ (context module fn mode).clobbers inst := by
    intro hlate v hv reg hreg hmem
    simp only [definesLate, Bool.or_eq_false_iff, beq_eq_false_iff_ne, ne_eq] at hlate
    rw [Ctx.clobbers_eq _ (context module fn .linear) hlate.2] at hmem
    obtain ⟨k, hk, hfrom, hto, hcall⟩ := exists_kill_of_clobbers (firstIndex fn b + i)
      (fun hop => absurd hop hlate.2) (reg_ne_frame hreg) hmem
    have hpos := tolerable_of_kill hv hreg (mem_buildKills hb hi hk)
      ⟨by simp only [posE, posU] at *; omega, by simp only [posD, posU] at *; omega⟩
    rw [hcall hpos.1] at hlate
    exact absurd hlate.1 (by simp)
  refine ⟨fun v hv => placed_of_covers (hU v hv), fun h => placed_of_covers (hD h), ?_, ?_, ?_,
    fun _ _ h => reg_ne_frame h, ?_⟩
  · intro v hv hne hres hlate reg hreg
    have hD' := hD hres
    rw [hearly hlate] at hD'
    exact reg_ne_of_covers (hU v hv) hD' hne hreg
  · exact fun hlate v hv reg hreg => hclob hlate v (hU v hv) reg hreg
  · intro hlate hres reg hreg
    have hD' := hD hres
    rw [hearly hlate] at hD'
    exact hclob hlate _ hD' reg hreg
  · intro v hv hin reg hreg
    exact mem_occupied (hU v hv) (by simp [posE, posU]) (by simp [posU, posL]) hin hreg

end Mirage.X86

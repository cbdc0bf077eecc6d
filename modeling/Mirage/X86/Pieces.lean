import Mirage.X86.Emit
import Mirage.X86.FrameLayout
import Mirage.X86.Keeps

/-!
# The pieces of the templates

What the helpers of the emitter do to a machine whose frame is in place
(`FrameOk`). The *home* of a value is the register or the spill area it is assigned to.

* `computes_gprInto`, `computes_canonicalize`, `computes_aluOperand`, …: the
  steps of a computation in one register.
* `exec_commitGpr`, `exec_commitXmm`: the result goes to its home.
* `Keeps.leased`, `Keeps.xleased`: a leased register is either restored on release or was
  not occupied in the first place.
-/

namespace Mirage.X86

variable {env : Env} {c : Ctx} {m M : Machine} {v : ValueId} {n : Nat}
  {R : Set Reg} {X : Set XReg} {A : Set (BitVec 64)}

namespace Ctx

/-! ## Frames and homes -/

/-- The frame is in place: it lies between the stack pointer and the frame pointer,
    with some room below the stack pointer. -/
structure FrameOk (c : Ctx) (m : Machine) (room : Nat) : Prop where
  size : c.frameSize < 2 ^ 31
  above : (m.gpr .rsp).toNat + c.frameSize ≤ (m.gpr .rbp).toNat
  room : room ≤ (m.gpr .rsp).toNat

/-- The home of an integer or a pointer. -/
def gprHome (c : Ctx) (m : Machine) (v : ValueId) : BitVec 64 :=
  if c.inReg v then m.gpr (c.valGpr v) else m.mem.read (m.addr .rbp (c.valOff v)) 8

/-- The home of a float. -/
def xmmHome (c : Ctx) (m : Machine) (v : ValueId) : BitVec 64 :=
  if c.inReg v then m.xmm (c.valXmm v)
  else m.mem.read (m.addr .rbp (c.valOff v)) (if c.isDouble v then 8 else 4)

/-- The register of a value that has one. -/
def homeReg (c : Ctx) (v : ValueId) : Set Reg := {r | c.inReg v = true ∧ r = c.valGpr v}

def homeXmm (c : Ctx) (v : ValueId) : Set XReg := {x | c.inReg v = true ∧ x = c.valXmm v}

/-- The bytes of the spill area of a value that has one. -/
def homeBytes (c : Ctx) (fp : BitVec 64) (v : ValueId) : Set (BitVec 64) :=
  {x | c.inReg v = false ∧ x ∈ Mem.bytes (fp + BitVec.ofInt 64 (c.valOff v)) 8}

/-- The allocator gave the value a home: a register of its class, not a frame
    register, or one of the areas of the frame. -/
structure Placed (c : Ctx) (v : ValueId) : Prop where
  reg : c.inReg v = true →
    if isFloat (c.fn.valueType v) then ∃ x, (c.assignment v).reg = some (.xmm x)
    else ∃ r, (c.assignment v).reg = some (.gpr r) ∧ r ≠ .rsp ∧ r ≠ .rbp
  area : c.inReg v = false → ∃ k < c.ra.spillAreaCount, (c.assignment v).spillIndex = some k

/-- Code that keeps the frame registers keeps the frame in place. -/
theorem FrameOk.of_gpr (h : c.FrameOk m n) (hrsp : M.gpr .rsp = m.gpr .rsp)
    (hrbp : M.gpr .rbp = m.gpr .rbp) : c.FrameOk M n :=
  ⟨h.size, by rw [hrsp, hrbp]; exact h.above, by rw [hrsp]; exact h.room⟩

/-- The bytes of a cell lie inside the frame, above the stack pointer. -/
theorem FrameOk.mem_cell (h : c.FrameOk m n) {key : CellKey} {size : Nat}
    (hc : c.HasCell key size) {x : BitVec 64}
    (hx : x ∈ Mem.bytes (m.addr .rbp (c.offsetOf key)) size) :
    (m.gpr .rsp).toNat ≤ x.toNat ∧
      (m.gpr .rbp).toNat + c.offsetOf key ≤ x.toNat ∧
      x.toNat < (m.gpr .rbp).toNat + c.offsetOf key + size := by
  have hb := offsetOf_bounds hc
  have habove := h.above
  have hlt := (m.gpr .rbp).isLt
  have := Mem.toNat_of_mem_bytes hx (by omega) (by omega)
  omega

/-- The bytes of different cells are different. -/
theorem FrameOk.cells_disjoint (h : c.FrameOk m n) {key key' : CellKey} {size size' : Nat}
    (hc : c.HasCell key size) (hc' : c.HasCell key' size') (hne : key ≠ key') {x : BitVec 64}
    (hx : x ∈ Mem.bytes (m.addr .rbp (c.offsetOf key)) size) :
    x ∉ Mem.bytes (m.addr .rbp (c.offsetOf key')) size' := by
  intro hx'
  have h1 := h.mem_cell hc hx
  have h2 := h.mem_cell hc' hx'
  rcases offsetOf_apart hc hc' hne with ha | ha <;> omega

theorem Placed.hasCell (h : c.Placed v) (hv : c.inReg v = false) :
    ∃ k, c.valOff v = c.offsetOf (.area k) ∧ c.HasCell (.area k) 8 ∧
      (c.assignment v).spillIndex = some k := by
  obtain ⟨k, hk, hs⟩ := h.area hv
  exact ⟨k, by rw [valOff, hs]; rfl, hasCell_area hk, hs⟩

/-- The home of a value in memory lies above the stack pointer. -/
theorem FrameOk.mem_home (h : c.FrameOk m n) (hv : c.Placed v) {x : BitVec 64}
    (hx : x ∈ c.homeBytes (m.gpr .rbp) v) : (m.gpr .rsp).toNat ≤ x.toNat := by
  obtain ⟨k, hoff, hcell, -⟩ := hv.hasCell hx.1
  have hx2 := hx.2
  rw [hoff] at hx2
  exact (h.mem_cell hcell hx2).1

/-- Code that leaves the home of a value alone keeps it. -/
theorem gprHome_of_keeps (h : Keeps R X A m M) (hf : c.FrameOk m n)
    (hv : c.Placed v) (hrbp : .rbp ∉ R) (hreg : c.inReg v = true → c.valGpr v ∉ R)
    (hA : ∀ x ∈ c.homeBytes (m.gpr .rbp) v, x ∉ A) : c.gprHome M v = c.gprHome m v := by
  rw [Ctx.gprHome, Ctx.gprHome]
  split_ifs with hin
  · exact h.gpr _ (hreg hin)
  · have hin' : c.inReg v = false := by simpa using hin
    rw [Machine.addr, h.gpr .rbp hrbp]
    exact h.read (le_refl 8) fun x hx => ⟨hA x ⟨hin', hx⟩, hf.mem_home hv ⟨hin', hx⟩⟩

/-- The same for a float. -/
theorem xmmHome_of_keeps (h : Keeps R X A m M) (hf : c.FrameOk m n)
    (hv : c.Placed v) (hrbp : .rbp ∉ R) (hreg : c.inReg v = true → c.valXmm v ∉ X)
    (hA : ∀ x ∈ c.homeBytes (m.gpr .rbp) v, x ∉ A) : c.xmmHome M v = c.xmmHome m v := by
  rw [Ctx.xmmHome, Ctx.xmmHome]
  split_ifs with hin hdbl
  · exact h.xmm _ (hreg hin)
  all_goals
    have hin' : c.inReg v = false := by simpa using hin
    rw [Machine.addr, h.gpr .rbp hrbp]
    refine h.read (by decide) fun x hx => ?_
    have hx8 : x ∈ c.homeBytes (m.gpr .rbp) v := ⟨hin', by rw [Mem.mem_bytes] at hx ⊢; omega⟩
    exact ⟨hA x hx8, hf.mem_home hv hx8⟩

/-! ## Moves -/

/-- Reading a value into a register. -/
theorem computes_gprInto (env : Env) (c : Ctx) (v : ValueId) (dst : Reg) (m : Machine) :
    Computes env (c.gprInto v dst) dst (c.gprHome m v) m := by
  rw [gprInto, gprHome]
  split_ifs with hin hne
  · exact .single rfl rfl (sets_setGpr m dst _)
  · rw [not_not.1 hne]
    exact .nil m dst
  · exact .single rfl rfl (sets_setGpr m dst _)

theorem zeroExtend_w64 (x : BitVec 64) : zeroExtend .w64 x = x := by simp [zeroExtend, Width.bits]

theorem signExtend_w64 (x : BitVec 64) : signExtend .w64 x = x := by simp [signExtend, Width.bits]

/-- Re-establishing the canonical form. -/
theorem computes_canonicalize (env : Env) (reg : Reg) (type : Ty) (m : Machine) :
    Computes env (canonicalize reg type) reg (zeroExtend (widthOf type) (m.gpr reg)) m := by
  rw [canonicalize]
  split <;> rename_i hw <;> rw [hw]
  · exact .single rfl rfl (sets_setGpr m reg _)
  · exact .single rfl rfl (sets_setGpr m reg _)
  · exact .single rfl rfl (sets_setGpr m reg _)
  · rw [zeroExtend_w64]
    exact .nil m reg

/-- Reading a value sign-extended. -/
theorem computes_gprIntoSigned (env : Env) (c : Ctx) (v : ValueId) (dst : Reg) (m : Machine) :
    Computes env (c.gprIntoSigned v dst) dst
      (signExtend (widthOf (c.fn.valueType v)) (c.gprHome m v)) m := by
  rw [gprIntoSigned]
  refine (computes_gprInto env c v dst m).append fun M hM => ?_
  split_ifs with hw
  · refine .single rfl rfl ?_
    rw [if_neg hw, hM.value]
    exact sets_setGpr M dst _
  · rw [not_not.1 hw, signExtend_w64, ← hM.value]
    exact .nil M dst

/-- An ALU operation with a second operand wherever it is. -/
theorem computes_aluOperand (env : Env) (c : Ctx) {op : Alu} (hop : op ≠ .cmp) (dst : Reg) (v : ValueId)
    (m : Machine) :
    Computes env (c.aluOperand op dst v) dst (op.apply (m.gpr dst) (c.gprHome m v)) m := by
  have halu : ∀ y, Sets dst (op.apply (m.gpr dst) y) m (m.alu op .w64 dst y) := fun y => by
    simp only [Machine.alu, hop, if_false, Width.bits, BitVec.setWidth_eq, mergeWidth]
    exact (sets_setGpr m dst _).setFlags _
  rw [aluOperand, gprHome]
  split_ifs with hin
  · exact .single rfl rfl (halu _)
  · exact .single rfl rfl (halu _)

theorem computes_mulOperand (env : Env) (c : Ctx) (dst : Reg) (v : ValueId) (m : Machine) :
    Computes env (c.mulOperand dst v) dst (m.gpr dst * c.gprHome m v) m := by
  rw [mulOperand, gprHome]
  split_ifs with hin
  · exact .single rfl rfl ((sets_setGpr m dst _).setFlags _)
  · exact .single rfl rfl ((sets_setGpr m dst _).setFlags _)

/-- The computed value goes to the home of the result. -/
theorem exec_commitGpr (env : Env) (c : Ctx) (v : ValueId) (r : Reg) (m : Machine) :
    ∃ M, exec env (c.commitGpr v r) m = .next M ∧ c.gprHome M v = m.gpr r ∧
      Keeps (c.homeReg v) ∅ (c.homeBytes (m.gpr .rbp) v) m M := by
  rw [commitGpr]
  split_ifs with hin hne
  · refine ⟨_, exec_cons env rfl rfl [], by simp [gprHome, hin, mergeWidth], ?_⟩
    refine Sets.keeps (sets_setGpr m (c.valGpr v) _) ?_
    exact ⟨hin, rfl⟩
  · exact ⟨m, rfl, by rw [gprHome, if_pos hin, not_not.1 hne], .refl _ _ _ m⟩
  · refine ⟨_, exec_cons env rfl rfl [], ?_, ?_⟩
    · rw [gprHome, if_neg hin]
      exact Mem.read_write_word
    · refine keeps_write ?_ m (m.gpr r)
      exact fun x hx => ⟨by simpa using hin, hx⟩

end Ctx

end Mirage.X86

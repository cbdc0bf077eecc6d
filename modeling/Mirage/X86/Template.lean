import Mirage.X86.Site

/-!
# Templates

The frame condition of a template: outside the home of its result it changes only the
registers it names itself and the scratch registers it leases (`Ctx.touched`,
`Ctx.xtouched`). `Ctx.leases` lists the scratch registers of each template.

`does_defTemplate` is the common part of the templates that compute an integer in one
register: it is enough to follow the computation. `Near` is the relation between the
machine at the start of a template and the machine inside the brackets of its leases.
-/

namespace Mirage.X86

variable {env : Env} {c : Ctx} {m m₁ M : Machine} {v : ValueId} {index n : Nat} {inst : Inst}
  {R : Set Reg} {X : Set XReg} {A : Set (BitVec 64)}

namespace Ctx

/-! ## What a template changes -/

/-- The scratch registers the template of an instruction leases. -/
def leases (c : Ctx) (index : Nat) (inst : Inst) : List Lease :=
  let occ := c.occupied index
  match inst.op with
  | .constFloat => [leaseGpr occ []]
  | .constInt | .constNull | .globalAddr | .funcAddr | .slotAddr => [(c.useGpr occ inst.result []).2]
  | .load =>
    let (addr, al) := c.useGpr occ inst.a (c.excl [inst.result])
    al :: if isFloat inst.type then []
      else [(c.useGpr (occ ++ al.mask) inst.result (c.excl [inst.a] ++ [.gpr addr])).2]
  | .store =>
    let (addr, al) := c.useGpr occ inst.a (c.excl [inst.b])
    al :: if isFloat (c.fn.valueType inst.b) then []
      else [(c.useGpr (occ ++ al.mask) inst.b (c.excl [inst.a] ++ [.gpr addr])).2]
  | .ptrAdd | .add | .sub | .and | .or | .xor | .mul =>
    [(c.useGpr occ inst.result (c.excl [inst.a, inst.b])).2]
  | .sdiv | .srem =>
    if widthOf (c.fn.valueType inst.b) = .w64 then []
    else [leaseGpr occ (c.excl [inst.a, inst.b, inst.result] ++ [.gpr .rax, .gpr .rdx])]
  | .shl | .lshr | .ashr => [(c.useGpr occ inst.result (c.excl [inst.a, inst.b] ++ [.gpr .rcx])).2]
  | .ptrAddConst | .not | .neg | .trunc | .zext | .ptrToInt | .intToPtr | .sext =>
    [(c.useGpr occ inst.result (c.excl [inst.a])).2]
  | .fneg =>
    let l := leaseGpr occ []
    [l, leaseGpr (occ ++ l.mask) [.gpr l.reg]]
  | .icmpEq | .icmpNe | .icmpSlt | .icmpSle | .icmpSgt | .icmpSge
  | .icmpUlt | .icmpUle | .icmpUgt | .icmpUge =>
    [(c.useGpr occ inst.a (c.excl [inst.b, inst.result])).2,
      (c.useGpr occ inst.result (c.excl [inst.a, inst.b])).2]
  | .fcmpOeq =>
    let (dst, dl) := c.useGpr occ inst.result []
    [dl, leaseGpr (occ ++ dl.mask) [.gpr dst]]
  | .fcmpOne | .fcmpOlt | .fcmpOle | .fcmpOgt | .fcmpOge => [(c.useGpr occ inst.result []).2]
  | .bitcast | .sitofp | .uitofp => [leaseGpr occ (c.excl [inst.a, inst.result])]
  | .fptosi | .fptoui =>
    [(c.useGpr (occ ++ (c.useXmm occ inst.a []).2.mask) inst.result (c.excl [inst.a])).2]
  | .select =>
    (c.useGpr occ inst.a (c.excl [inst.b, inst.c, inst.result])).2 ::
      if isFloat inst.type then []
      else [(c.useGpr occ inst.result (c.excl [inst.a, inst.b, inst.c])).2]
  | .branch => [(c.useGpr occ inst.a []).2]
  | .jump =>
    (inst.args.zip (c.fn.blocks.getD inst.a {}).params).flatMap fun (arg, param) =>
      [(c.useGpr occ arg []).2, (c.useGpr occ param []).2]
  | _ => []

/-- The XMM scratch registers it leases. -/
def xleases (c : Ctx) (index : Nat) (inst : Inst) : List XLease :=
  let occ := c.occupied index
  match inst.op with
  | .load =>
    if isFloat inst.type then
      [(c.useXmm (occ ++ (c.useGpr occ inst.a (c.excl [inst.result])).2.mask) inst.result []).2]
    else []
  | .store =>
    if isFloat (c.fn.valueType inst.b) then
      [(c.useXmm (occ ++ (c.useGpr occ inst.a (c.excl [inst.b])).2.mask) inst.b []).2]
    else []
  | .fadd | .fsub | .fmul | .fdiv => [(c.useXmm occ inst.result (c.excl [inst.a, inst.b])).2]
  | .fcmpOlt | .fcmpOle => [(c.useXmm occ inst.b (c.excl [inst.a])).2]
  | .fcmpOeq | .fcmpOne | .fcmpOgt | .fcmpOge => [(c.useXmm occ inst.a (c.excl [inst.b])).2]
  | .fptrunc | .fpext => [(c.useXmm occ inst.result (c.excl [inst.a])).2]
  | .sitofp | .uitofp =>
    [(c.useXmm (occ ++ (leaseGpr occ (c.excl [inst.a, inst.result])).mask) inst.result []).2]
  | .fptosi | .fptoui => [(c.useXmm occ inst.a []).2]
  | .select =>
    if isFloat inst.type then [(c.useXmm occ inst.result (c.excl [inst.b, inst.c])).2] else []
  | _ => []

/-- The general registers the template of an instruction may change. -/
def touched (c : Ctx) (index : Nat) (inst : Inst) : Set Reg :=
  {r | inst.result ≠ noValue ∧ (c.assignment inst.result).reg = some (.gpr r) ∨
    .gpr r ∈ c.clobbers inst ∨ ∃ l ∈ c.leases index inst, r ∈ l.scratch}

/-- The XMM registers it may change. -/
def xtouched (c : Ctx) (index : Nat) (inst : Inst) : Set XReg :=
  {x | inst.result ≠ noValue ∧ (c.assignment inst.result).reg = some (.xmm x) ∨
    .xmm x ∈ c.clobbers inst ∨ ∃ l ∈ c.xleases index inst, x ∈ l.scratch}

/-- The bytes of the home of its result. -/
def resultBytes (c : Ctx) (fp : BitVec 64) (inst : Inst) : Set (BitVec 64) :=
  {x | inst.result ≠ noValue ∧ x ∈ c.homeBytes fp inst.result}

/-- The template runs to its end, changes only what it may, and ends with `Q`. -/
def Runs (c : Ctx) (env : Env) (index : Nat) (inst : Inst) (code : List Instr) (m : Machine)
    (Q : Machine → Prop) : Prop :=
  Does env code (c.touched index inst) (c.xtouched index inst)
    (c.resultBytes (m.gpr .rbp) inst) m Q

/-! ## Inside the brackets -/

/-- The stack pointer moved down, over memory that is free. -/
structure Near (m m₁ : Machine) : Prop extends Keeps {.rsp} ∅ ∅ m m₁ where
  flags : m₁.flags = m.flags

theorem Near.other (h : Near m m₁) {r : Reg} (hr : r ≠ .rsp) : m₁.gpr r = m.gpr r := h.gpr r hr

theorem near_enter (l : Lease) (hroom : 8 ≤ (m.gpr .rsp).toNat) : Near m (l.enter m) where
  toKeeps := l.keeps_enter hroom
  flags := by
    rw [Lease.enter]
    split_ifs <;> rfl

theorem Near.gprHome (h : Near m m₁) (hf : c.FrameOk m n) (hv : c.IntPlaced v) :
    c.gprHome m₁ v = c.gprHome m v :=
  gprHome_of_keeps h.toKeeps hf hv.toPlaced (by simp) (fun hin => (hv.ne_frame hin).1) (by simp)

theorem Near.xmmHome (h : Near m m₁) (hf : c.FrameOk m n) (hv : c.Placed v) :
    c.xmmHome m₁ v = c.xmmHome m v :=
  xmmHome_of_keeps h.toKeeps hf hv (by simp) (by simp) (by simp)

/-- A computation in one register leaves the values in others alone. -/
theorem gprHome_of_sets {dst : Reg} {x : BitVec 64} (h : Sets dst x m M) (hrbp : dst ≠ .rbp)
    (hv : c.inReg v = true → c.valGpr v ≠ dst) : c.gprHome M v = c.gprHome m v := by
  rw [Ctx.gprHome, Ctx.gprHome, Machine.addr, Machine.addr, h.mem, h.other hrbp.symm]
  split_ifs with hin
  · exact h.other (hv hin)
  · rfl

/-! ## The register of an operand or a result -/

variable {occ exclude : List PhysReg}

theorem useGpr_sane (c : Ctx) (occ : List PhysReg) (v : ValueId) (exclude : List PhysReg) :
    (c.useGpr occ v exclude).2.Sane := by
  rw [useGpr]
  split_ifs
  · exact Lease.sane_none
  · exact leaseGpr_sane occ exclude

theorem useGpr_of_inReg (hin : c.inReg v = true) :
    c.useGpr occ v exclude = (c.valGpr v, .none) := by rw [useGpr, if_pos hin]

theorem useGpr_of_spilled (hin : c.inReg v = false) :
    c.useGpr occ v exclude = ((leaseGpr occ exclude).reg, leaseGpr occ exclude) := by
  rw [useGpr, if_neg (by simp [hin])]

/-- The register is the one of the value or the leased one. -/
theorem useGpr_mem (c : Ctx) (occ : List PhysReg) (v : ValueId) (hex : exclude.length < 14) :
    (c.useGpr occ v exclude).1 ∈ c.homeReg v ∪ (c.useGpr occ v exclude).2.regs := by
  by_cases hin : c.inReg v = true
  · rw [useGpr_of_inReg hin]
    exact .inl ⟨hin, rfl⟩
  · rw [useGpr_of_spilled (by simpa using hin)]
    exact .inr ⟨(leaseGpr_spec hex).1, rfl⟩

theorem useGpr_ne_frame (hv : c.IntPlaced v) :
    (c.useGpr occ v exclude).1 ≠ .rsp ∧ (c.useGpr occ v exclude).1 ≠ .rbp := by
  by_cases hin : c.inReg v = true
  · rw [useGpr_of_inReg hin]
    exact hv.ne_frame hin
  · rw [useGpr_of_spilled (by simpa using hin)]
    exact ⟨(leaseGpr_sane occ exclude).rsp, (leaseGpr_sane occ exclude).rbp⟩

/-- A register that is excluded, and not the one of the value. -/
theorem useGpr_ne {r : Reg} (hv : c.inReg v = true → c.valGpr v ≠ r) (hex : exclude.length < 14)
    (hr : .gpr r ∈ exclude) : (c.useGpr occ v exclude).1 ≠ r := by
  by_cases hin : c.inReg v = true
  · rw [useGpr_of_inReg hin]
    exact hv hin
  · rw [useGpr_of_spilled (by simpa using hin)]
    exact fun h => (leaseGpr_spec hex).2.1 (h ▸ hr)

/-- A register that is excluded is not leased. -/
theorem useGpr_lease_ne {r : Reg} (hex : exclude.length < 14) (hr : .gpr r ∈ exclude)
    (hheld : (c.useGpr occ v exclude).2.held = true) : r ≠ (c.useGpr occ v exclude).2.reg := by
  by_cases hin : c.inReg v = true
  · rw [useGpr_of_inReg hin] at hheld
    cases hheld
  · rw [useGpr_of_spilled (by simpa using hin)]
    exact fun h => (leaseGpr_spec hex).2.1 (h ▸ hr)

theorem IntPlaced.homeReg_subset (h : c.IntPlaced inst.result) (hd : inst.result ≠ noValue) :
    c.homeReg inst.result ⊆ c.touched index inst :=
  fun _ hr => .inl ⟨hd, hr.2 ▸ h.reg_eq hr.1⟩

theorem homeBytes_subset (hd : inst.result ≠ noValue) (fp : BitVec 64) :
    c.homeBytes fp inst.result ⊆ c.resultBytes fp inst := fun _ hx => ⟨hd, hx⟩

theorem scratch_subset {l : Lease} (h : l ∈ c.leases index inst) :
    l.scratch ⊆ c.touched index inst := fun _ hr => .inr (.inr ⟨l, h, hr⟩)

theorem length_excl_lt (c : Ctx) (values : List ValueId) (extra : List PhysReg)
    (h : values.length + extra.length < 14) : (c.excl values ++ extra).length < 14 := by
  have := length_excl_le c values
  rw [List.length_append]
  omega

/-- The lease of a template: none, or a lease that respects the sweep. -/
def OfSweep (c : Ctx) (index : Nat) (l : Lease) : Prop :=
  l = .none ∨ ∃ extra exclude, l = leaseGpr (c.occupied index ++ extra) exclude

theorem ofSweep_leaseGpr (extra exclude : List PhysReg) :
    c.OfSweep index (leaseGpr (c.occupied index ++ extra) exclude) :=
  .inr ⟨extra, exclude, rfl⟩

theorem ofSweep_useGpr (extra : List PhysReg) (v : ValueId) (exclude : List PhysReg) :
    c.OfSweep index (c.useGpr (c.occupied index ++ extra) v exclude).2 := by
  rw [useGpr]
  split_ifs
  · exact .inl rfl
  · exact ofSweep_leaseGpr extra exclude

/-- The leases of all templates respect the sweep. -/
theorem ofSweep_of_mem : ∀ {l : Lease}, l ∈ c.leases index inst → c.OfSweep index l := by
  have hue : ∀ extra v exclude,
      c.OfSweep index (c.useGpr (c.occupied index ++ extra) v exclude).2 := ofSweep_useGpr
  have hle : ∀ extra exclude, c.OfSweep index (leaseGpr (c.occupied index ++ extra) exclude) :=
    ofSweep_leaseGpr
  have hu : ∀ v exclude, c.OfSweep index (c.useGpr (c.occupied index) v exclude).2 :=
    fun v exclude => by simpa using hue [] v exclude
  have hl : ∀ exclude, c.OfSweep index (leaseGpr (c.occupied index) exclude) :=
    fun exclude => by simpa using hle [] exclude
  rw [leases]
  split <;>
    simp only [List.not_mem_nil, List.mem_flatMap, Prod.exists, hu, hl, hue, hle,
      List.mem_ite_nil_left, IsEmpty.forall_iff, implies_true, and_true, true_and, List.mem_cons,
      or_false, and_imp, forall_exists_index, forall_eq, forall_eq_or_imp]
  -- left are a jump, and the second lease of a template that has it only for integers
  case h_53 =>
    rintro l arg param - (rfl | rfl)
    · exact hu arg []
    · exact hu param []
  all_goals
    rintro l - rfl
    first | exact hu _ _ | exact hue _ _ _ | exact hl _

theorem leases_sane {l : Lease} (h : l ∈ c.leases index inst) : l.Sane := by
  rcases ofSweep_of_mem h with rfl | ⟨extra, exclude, rfl⟩
  · exact Lease.sane_none
  · exact leaseGpr_sane _ _

/-- Templates do not change the frame registers. -/
theorem frame_not_mem_touched (hs : c.Site index inst) (hasm : inst.op ≠ .asm) :
    .rsp ∉ c.touched index inst ∧ .rbp ∉ c.touched index inst := by
  have hclob : .gpr .rsp ∉ c.clobbers inst ∧ .gpr .rbp ∉ c.clobbers inst := by
    rw [clobbers]
    split <;> first | contradiction | decide
  constructor
  · rintro (⟨hd, hr⟩ | hr | ⟨l, hl, hr⟩)
    · exact (hs.frame _ _ hr).1 rfl
    · exact hclob.1 hr
    · exact (leases_sane hl).rsp hr.2.2.symm
  · rintro (⟨hd, hr⟩ | hr | ⟨l, hl, hr⟩)
    · exact (hs.frame _ _ hr).2 rfl
    · exact hclob.2 hr
    · exact (leases_sane hl).rbp hr.2.2.symm

theorem IntPlaced.rsp_not_mem (h : c.IntPlaced v) : .rsp ∉ c.homeReg v :=
  fun hr => (h.ne_frame hr.1).1 hr.2.symm

theorem IntPlaced.rbp_not_mem (h : c.IntPlaced v) : .rbp ∉ c.homeReg v :=
  fun hr => (h.ne_frame hr.1).2 hr.2.symm

/-! ## Results computed in one register -/

/-- The common part of the templates that compute an integer in one register. -/
theorem does_defTemplate {body : Reg → List Instr} {x : BitVec 64} (hf : c.FrameOk m 8)
    (hv : c.IntPlaced inst.result) (hex : exclude.length < 14)
    (hbody : ∀ m₁, Near m m₁ →
      Computes env (body (c.useGpr (c.occupied index) inst.result exclude).1)
        (c.useGpr (c.occupied index) inst.result exclude).1 x m₁) :
    Does env (c.defTemplate index inst exclude body)
      (c.homeReg inst.result ∪ (c.useGpr (c.occupied index) inst.result exclude).2.scratch) ∅
      (c.homeBytes (m.gpr .rbp) inst.result) m fun M => c.gprHome M inst.result = x := by
  rw [defTemplate]
  have hsane := useGpr_sane c (c.occupied index) inst.result exclude
  have hmem := useGpr_mem c (c.occupied index) inst.result hex
  have hpushed : c.inReg inst.result = true →
      (c.useGpr (c.occupied index) inst.result exclude).2.pushed = false := fun hin => by
    rw [useGpr_of_inReg hin]
    rfl
  generalize c.useGpr (c.occupied index) inst.result exclude = u at hbody hsane hmem hpushed
  obtain ⟨dst, l⟩ := u
  simp only at hbody hsane hmem hpushed
  have hroom := hf.room
  have hnear := near_enter l hroom
  have hrsp : .rsp ∉ c.homeReg inst.result ∪ l.regs := by
    rintro (h | h)
    · exact hv.rsp_not_mem h
    · exact hsane.rsp h.2.symm
  have hrbp : .rbp ∉ c.homeReg inst.result ∪ l.regs := by
    rintro (h | h)
    · exact hv.rbp_not_mem h
    · exact hsane.rbp h.2.symm
  simp only [List.append_assoc]
  rw [← List.append_assoc (body dst)]
  refine Does.leased hsane hroom (Q := fun M => c.gprHome M inst.result = x) ?_
    (fun h => hrsp (.inl h)) (fun a ha => hf.mem_home hv.toPlaced ha) ?_
  · -- the computation, then the commit
    refine ((hbody _ hnear).does hmem).append hrsp fun M hk hM => ?_
    obtain ⟨M', he, hhome, hk'⟩ := exec_commitGpr env c inst.result dst M
    rw [hk.gpr .rbp hrbp, hnear.other (by simp)] at hk'
    exact ⟨M', he, hk'.mono Set.subset_union_left subset_rfl subset_rfl, hhome.trans hM.value⟩
  · intro M _ hM
    rw [Lease.gprHome_leave hsane, hM]
    exact fun hin => ⟨(hv.ne_frame hin).1, fun h => absurd h (by simp [hpushed hin])⟩

/-! ## Operands read through a register -/

/-- Inside the bracket of the lease for an operand: the stack pointer moved down, and the
    leased register holds the operand. -/
structure Inside (c : Ctx) (m : Machine) (l : Lease) (r : Reg) (v : ValueId) (m₁ : Machine) :
    Prop extends Keeps ({.rsp} ∪ l.regs) ∅ ∅ m m₁ where
  value : m₁.gpr r = c.gprHome m v
  low : (m₁.gpr .rsp).toNat ≤ (m.gpr .rsp).toNat
  room : (m.gpr .rsp).toNat ≤ (m₁.gpr .rsp).toNat + 8

/-- A value in another register is where it was. -/
theorem Inside.gprHome {l : Lease} {r : Reg} {w : ValueId} (h : c.Inside m l r v m₁)
    (hl : l.Sane) (hf : c.FrameOk m n) (hw : c.IntPlaced w)
    (hne : c.inReg w = true → l.held = true → c.valGpr w ≠ l.reg) :
    c.gprHome m₁ w = c.gprHome m w := by
  refine gprHome_of_keeps h.toKeeps hf hw.toPlaced ?_ (fun hin => ?_) (by simp)
  · rintro (hr | hr)
    · cases hr
    · exact hl.rbp hr.2.symm
  · rintro (hr | hr)
    · exact (hw.ne_frame hin).1 hr
    · exact hne hin hr.1 hr.2

/-- Code around an operand that is read through `use_gpr`. -/
theorem does_useGpr {code : List Instr} {Q Q' : Machine → Prop} (hf : c.FrameOk m 8)
    (hv : c.IntPlaced v) (hex : exclude.length < 14) (hrsp : .rsp ∉ R)
    (hA : ∀ a ∈ A, (m.gpr .rsp).toNat ≤ a.toNat)
    (hcode : ∀ m₁, c.Inside m (c.useGpr occ v exclude).2 (c.useGpr occ v exclude).1 v m₁ →
      Does env code (R ∪ (c.useGpr occ v exclude).2.regs) X A m₁ Q)
    (hQ : ∀ M, Q M → Q' ((c.useGpr occ v exclude).2.leave M)) :
    Does env (c.useGprCode v (c.useGpr occ v exclude).2 ++
      (code ++ (c.useGpr occ v exclude).2.release)) (R ∪ (c.useGpr occ v exclude).2.scratch) X A m
      Q' := by
  have hroom := hf.room
  by_cases hin : c.inReg v = true
  · rw [useGpr_of_inReg hin] at *
    have h := hcode m ⟨.refl _ _ _ m, by rw [gprHome, if_pos hin], le_refl _, by omega⟩
    rw [useGprCode, if_pos hin, List.nil_append]
    have hnil : Lease.none.release = [] := rfl
    rw [hnil, List.append_nil]
    exact h.mono (Set.union_subset_union_right R fun r hr => by simp [Lease.regs, Lease.none] at hr)
      subset_rfl subset_rfl fun M _ h => hQ M h
  · have hin' : c.inReg v = false := by simpa using hin
    rw [useGpr_of_spilled hin'] at *
    generalize hl : leaseGpr occ exclude = l at *
    have hsane : l.Sane := hl ▸ leaseGpr_sane occ exclude
    have hheld : l.held = true := hl ▸ (leaseGpr_spec hex).1
    have hnear := near_enter l hroom
    simp only [useGprCode, hin', Bool.false_eq_true, if_false, List.append_assoc]
    rw [← List.append_assoc [_] code]
    refine Does.leased hsane hroom (Q := Q) ?_ hrsp hA fun M _ h => hQ M h
    -- the load, then the code
    have hload : Computes env [.load .w64 l.reg .rbp (c.valOff v)] l.reg (c.gprHome m v)
        (l.enter m) := by
      rw [← hnear.gprHome hf hv, gprHome, if_neg hin]
      exact .single rfl rfl (sets_setGpr _ _ _)
    have hrsp' : .rsp ∉ R ∪ l.regs := fun h => h.elim hrsp fun h => hsane.rsp h.2.symm
    obtain ⟨M₁, he₁, hM₁⟩ := hload
    have hsp : M₁.gpr .rsp = (l.enter m).gpr .rsp := hM₁.other hsane.rsp.symm
    have hpush : (l.enter m).gpr .rsp = m.gpr .rsp ∨
        ((l.enter m).gpr .rsp).toNat = (m.gpr .rsp).toNat - 8 := by
      rw [Lease.enter]
      split_ifs
      · exact .inr (push_rsp m _ hroom)
      · exact .inl rfl
    have hinside : c.Inside m l l.reg v M₁ := by
      refine ⟨⟨fun r hr => ?_, fun x hx => ?_, fun a ha hle => ?_⟩, hM₁.value, ?_, ?_⟩
      · simp only [Set.mem_union, Set.mem_singleton_iff, not_or] at hr
        rw [hM₁.other fun h => hr.2 ⟨hheld, h⟩, hnear.other hr.1]
      · rw [hM₁.xmm, hnear.xmm x hx]
      · rw [hM₁.mem, hnear.mem a ha hle]
      · rw [hsp]
        rcases hpush with h | h
        · rw [h]
        · omega
      · rw [hsp]
        rcases hpush with h | h
        · rw [h]; omega
        · omega
    obtain ⟨M, he, hk, hq⟩ := hcode M₁ hinside
    exact ⟨M, by rw [exec_append_of_next env he₁, he],
      (hM₁.keeps (.inr ⟨hheld, rfl⟩)).trans hk hrsp', hq⟩

end Ctx

end Mirage.X86

import Mirage.X86.Pieces

/-!
# Scratch registers

A template that needs a register of its own leases one. The lease is *transparent*:
between acquiring and releasing it the template may do what it wants with the register,
and outside nothing has changed, except for a register no active value is in.

* `leaseGpr_spec`, `leaseXmm_spec`: which register is leased.
* `Keeps.leased`, `Keeps.xleased`: what a bracket of acquire and release keeps.
* `mem_occupied`: the sweep knows every register that holds a value at an
  instruction.
-/

namespace Mirage.X86

variable {env : Env} {c : Ctx} {m M : Machine} {n : Nat}
  {R : Set Reg} {X : Set XReg} {A : Set (BitVec 64)}

/-! ## Which register is leased -/

/-- What a lease relies on: a victim is given back, and the frame registers are never
    leased. -/
structure Lease.Sane (l : Lease) : Prop where
  held : l.pushed = true → l.held = true
  rsp : l.reg ≠ .rsp
  rbp : l.reg ≠ .rbp

theorem Lease.sane_none : Lease.none.Sane := ⟨by simp [none], by simp [none], by simp [none]⟩

theorem leaseGpr_sane (occupied exclude : List PhysReg) : (leaseGpr occupied exclude).Sane := by
  have hcand : ∀ r ∈ gprCandidates, r ≠ .rsp ∧ r ≠ .rbp := by decide
  rw [leaseGpr]
  split
  · rename_i r hr
    have := hcand r (List.mem_of_find?_eq_some hr)
    exact ⟨by simp, this.1, this.2⟩
  · split
    · rename_i r hr
      have := hcand r (List.mem_of_find?_eq_some hr)
      exact ⟨by simp, this.1, this.2⟩
    · exact ⟨by simp, by simp, by simp⟩

/-- A lease with fewer exclusions than candidates finds a register that is not
    excluded; one that is not pushed is not occupied. -/
theorem leaseGpr_spec {occupied exclude : List PhysReg} (h : exclude.length < 14) :
    (leaseGpr occupied exclude).held = true ∧
      .gpr (leaseGpr occupied exclude).reg ∉ exclude ∧
      ((leaseGpr occupied exclude).pushed = false →
        .gpr (leaseGpr occupied exclude).reg ∉ occupied) := by
  rw [leaseGpr]
  split
  · rename_i r hr
    have := List.find?_some hr
    simp only [decide_eq_true_eq] at this
    exact ⟨rfl, this.1, fun _ => this.2⟩
  · split
    · rename_i r hr
      have := List.find?_some hr
      simp only [decide_eq_true_eq] at this
      exact ⟨rfl, this, by simp⟩
    · -- all fourteen candidates would have to be excluded
      rename_i hnone
      exfalso
      have hsub : gprCandidates.map PhysReg.gpr ⊆ exclude := by
        intro r hr
        obtain ⟨r', hr', rfl⟩ := List.mem_map.1 hr
        simpa using List.find?_eq_none.1 hnone r' hr'
      have hnodup : (gprCandidates.map PhysReg.gpr).Nodup := by decide
      have := (hnodup.subperm hsub).length_le
      simp [gprCandidates] at this
      omega

/-- A held lease that is not pushed is not occupied. -/
theorem leaseGpr_not_occupied {occupied exclude : List PhysReg}
    (hheld : (leaseGpr occupied exclude).held = true)
    (hpushed : (leaseGpr occupied exclude).pushed = false) :
    .gpr (leaseGpr occupied exclude).reg ∉ occupied := by
  revert hheld hpushed
  rw [leaseGpr]
  split
  · rename_i r hr
    have := List.find?_some hr
    simp only [decide_eq_true_eq] at this
    exact fun _ _ => this.2
  · split <;> simp

theorem leaseXmm_spec {occupied exclude : List PhysReg} (h : exclude.length < 16) :
    (leaseXmm occupied exclude).held = true ∧
      .xmm (leaseXmm occupied exclude).reg ∉ exclude ∧
      ((leaseXmm occupied exclude).saved = false →
        .xmm (leaseXmm occupied exclude).reg ∉ occupied) := by
  rw [leaseXmm]
  split
  · rename_i r hr
    have := List.find?_some hr
    simp only [decide_eq_true_eq] at this
    exact ⟨rfl, this.1, fun _ => this.2⟩
  · split
    · rename_i r hr
      have := List.find?_some hr
      simp only [decide_eq_true_eq] at this
      exact ⟨rfl, this, by simp⟩
    · rename_i hnone
      exfalso
      have hsub : xmmCandidates.map PhysReg.xmm ⊆ exclude := by
        intro r hr
        obtain ⟨r', hr', rfl⟩ := List.mem_map.1 hr
        simpa using List.find?_eq_none.1 hnone r' hr'
      have hnodup : (xmmCandidates.map PhysReg.xmm).Nodup := by decide
      have := (hnodup.subperm hsub).length_le
      simp [xmmCandidates] at this
      omega

theorem leaseXmm_held (occupied exclude : List PhysReg) :
    (leaseXmm occupied exclude).saved = true → (leaseXmm occupied exclude).held = true := by
  rw [leaseXmm]
  split
  · simp
  · split <;> simp

/-- The registers excluded for some values. -/
theorem length_excl_le (c : Ctx) (values : List ValueId) :
    (c.excl values).length ≤ values.length := List.length_filterMap_le _ _

theorem mem_excl {values : List ValueId} {v : ValueId} {reg : PhysReg} (hv : v ∈ values)
    (hne : v ≠ noValue) (hin : c.inReg v = true) (hreg : (c.assignment v).reg = some reg) :
    reg ∈ c.excl values :=
  List.mem_filterMap.2 ⟨v, hv, by rw [if_pos ⟨hne, hin⟩, hreg]⟩

/-! ## Acquire and release -/

/-- The register of a held lease. -/
def Lease.regs (l : Lease) : Set Reg := {r | l.held = true ∧ r = l.reg}

/-- The register of a held lease that is not restored on release. -/
def Lease.scratch (l : Lease) : Set Reg := {r | l.held = true ∧ l.pushed = false ∧ r = l.reg}

/-- The machine after acquiring a lease. -/
def Lease.enter (l : Lease) (m : Machine) : Machine :=
  if l.pushed then m.push (m.gpr l.reg) else m

/-- The machine after releasing it. -/
def Lease.leave (l : Lease) (m : Machine) : Machine :=
  if l.held && l.pushed then m.pop l.reg else m

theorem exec_acquire (l : Lease) (m : Machine) : exec env l.acquire m = .next (l.enter m) := by
  rw [Lease.acquire, Lease.enter]
  split_ifs <;> rfl

theorem exec_release (l : Lease) (m : Machine) : exec env l.release m = .next (l.leave m) := by
  rw [Lease.release, Lease.leave]
  split_ifs <;> rfl

theorem Lease.scratch_subset (l : Lease) : l.scratch ⊆ l.regs := fun _ h => ⟨h.1, h.2.2⟩

/-- Acquiring a lease only moves the stack pointer. -/
theorem Lease.keeps_enter (l : Lease) (hroom : 8 ≤ (m.gpr .rsp).toNat) :
    Keeps {.rsp} ∅ ∅ m (l.enter m) := by
  rw [Lease.enter]
  split_ifs
  · exact keeps_push m _ hroom
  · exact .refl _ _ _ m

/-- Inside a bracket the frame is still in place. -/
theorem Ctx.FrameOk.enter (h : c.FrameOk m (n + 8)) (l : Lease) : c.FrameOk (l.enter m) n := by
  have hroom := h.room
  have hrbp := (l.keeps_enter (m := m) (by omega)).gpr .rbp (by simp)
  have habove := h.above
  refine ⟨h.size, ?_, ?_⟩ <;> rw [Lease.enter] at * <;> split_ifs at * <;>
    first
    | (rw [push_rsp m _ (by omega)]; first | (rw [hrbp]; omega) | omega)
    | omega

/-- What a bracket keeps: a pushed register is restored. -/
theorem Keeps.leased {l : Lease} (hl : l.Sane) (hroom : 8 ≤ (m.gpr .rsp).toNat)
    (h : Keeps (R ∪ l.regs) X A (l.enter m) M) (hrsp : .rsp ∉ R)
    (hA : ∀ a ∈ A, (m.gpr .rsp).toNat ≤ a.toNat) :
    Keeps (R ∪ l.scratch) X A m (l.leave M) := by
  rw [Lease.enter] at h
  rw [Lease.leave]
  by_cases hp : l.pushed = true
  · have hheld := hl.held hp
    rw [if_pos hp] at h
    rw [if_pos (by simp [hheld, hp])]
    have h' : Keeps (insert l.reg R) X A (m.push (m.gpr l.reg)) M :=
      h.mono (by rintro r (hr | ⟨-, rfl⟩) <;> simp [*]) subset_rfl subset_rfl
    exact (Keeps.pushed hroom h' hl.rsp hrsp hA).mono Set.subset_union_left subset_rfl subset_rfl
  · rw [if_neg hp] at h
    rw [if_neg (by simp [hp])]
    exact h.mono (Set.union_subset_union_right R fun r hr => ⟨hr.1, by simpa using hp, hr.2⟩)
      subset_rfl subset_rfl

/-- A bracket around a piece of code. -/
theorem Does.leased {l : Lease} {code : List Instr} {Q Q' : Machine → Prop} (hl : l.Sane)
    (hroom : 8 ≤ (m.gpr .rsp).toNat) (h : Does env code (R ∪ l.regs) X A (l.enter m) Q)
    (hrsp : .rsp ∉ R) (hA : ∀ a ∈ A, (m.gpr .rsp).toNat ≤ a.toNat)
    (hQ : ∀ M, Keeps (R ∪ l.regs) X A (l.enter m) M → Q M → Q' (l.leave M)) :
    Does env (l.acquire ++ (code ++ l.release)) (R ∪ l.scratch) X A m Q' := by
  obtain ⟨M, he, hk, hq⟩ := h
  refine ⟨l.leave M, ?_, hk.leased hl hroom hrsp hA, hQ M hk hq⟩
  rw [exec_append_of_next env (exec_acquire l m), exec_append_of_next env he, exec_release]

/-- Releasing a lease does not change the home of a value in another register. -/
theorem Lease.gprHome_leave {l : Lease} (hl : l.Sane) {v : ValueId}
    (hv : c.inReg v = true → c.valGpr v ≠ .rsp ∧ (l.pushed = true → c.valGpr v ≠ l.reg)) :
    c.gprHome (l.leave M) v = c.gprHome M v := by
  rw [Lease.leave]
  split_ifs with hp
  · simp only [Bool.and_eq_true] at hp
    rw [Ctx.gprHome, Ctx.gprHome]
    split_ifs with hin
    · simp [Machine.pop, (hv hin).1, (hv hin).2 hp.2]
    · simp [Machine.pop, Machine.addr, hl.rbp.symm]
  · rfl

/-! ## XMM leases -/

def XLease.regs (l : XLease) : Set XReg := {x | l.held = true ∧ x = l.reg}

def XLease.scratch (l : XLease) : Set XReg := {x | l.held = true ∧ l.saved = false ∧ x = l.reg}

/-- The stack pointer moved by a constant. -/
def Machine.moveRsp (m : Machine) (op : Alu) (bytes : Int) : Machine :=
  m.alu op .w64 .rsp (BitVec.ofInt 64 bytes)

def XLease.enter (l : XLease) (m : Machine) : Machine :=
  if l.saved then
    (m.moveRsp .sub 16).setMem
      (m.mem.write ((m.moveRsp .sub 16).addr .rsp 0) 8 (m.xmm l.reg))
  else m

def XLease.leave (l : XLease) (m : Machine) : Machine :=
  if l.held && l.saved then
    (m.setXmm l.reg (m.mem.read (m.addr .rsp 0) 8)).moveRsp .add 16
  else m

theorem exec_xacquire (l : XLease) (m : Machine) : exec env l.acquire m = .next (l.enter m) := by
  rw [XLease.acquire, XLease.enter]
  split_ifs
  · rfl
  · rfl

theorem exec_xrelease (l : XLease) (m : Machine) : exec env l.release m = .next (l.leave m) := by
  rw [XLease.release, XLease.leave]
  split_ifs
  · rfl
  · rfl

theorem moveRsp_sub (m : Machine) (bytes : Int) :
    (m.moveRsp .sub bytes).gpr .rsp = m.gpr .rsp - BitVec.ofInt 64 bytes := by
  have h : ∀ x y : BitVec 64,
      mergeWidth .w64 x ((Alu.apply .sub (x.setWidth 64) (y.setWidth 64)).setWidth 64) = x - y :=
    fun x y => by simp [mergeWidth, Alu.apply]
  exact h _ _

theorem moveRsp_add (m : Machine) (bytes : Int) :
    (m.moveRsp .add bytes).gpr .rsp = m.gpr .rsp + BitVec.ofInt 64 bytes := by
  have h : ∀ x y : BitVec 64,
      mergeWidth .w64 x ((Alu.apply .add (x.setWidth 64) (y.setWidth 64)).setWidth 64) = x + y :=
    fun x y => by simp [mergeWidth, Alu.apply]
  exact h _ _

theorem moveRsp_gpr (m : Machine) (op : Alu) (bytes : Int) {r : Reg} (hr : r ≠ .rsp) :
    (m.moveRsp op bytes).gpr r = m.gpr r := by
  simp only [Machine.moveRsp, Machine.alu]
  split_ifs
  · rfl
  · simp [hr]

theorem moveRsp_xmm (m : Machine) (op : Alu) (bytes : Int) :
    (m.moveRsp op bytes).xmm = m.xmm := by
  simp only [Machine.moveRsp, Machine.alu]
  split_ifs <;> rfl

theorem moveRsp_mem (m : Machine) (op : Alu) (bytes : Int) :
    (m.moveRsp op bytes).mem = m.mem := by
  simp only [Machine.moveRsp, Machine.alu]
  split_ifs <;> rfl

theorem XLease.keeps_enter (l : XLease) (hroom : 16 ≤ (m.gpr .rsp).toNat) :
    Keeps {.rsp} ∅ ∅ m (l.enter m) := by
  rw [XLease.enter]
  split_ifs
  · refine ⟨fun r hr => by rw [Machine.setMem_gpr, moveRsp_gpr m _ _ hr],
      fun x _ => by rw [Machine.setMem_xmm, moveRsp_xmm],
      fun a _ hle => ?_⟩
    refine Mem.write_of_not_mem fun h => ?_
    have hlt := (m.gpr .rsp).isLt
    rw [Machine.addr, moveRsp_sub] at h
    have := Mem.toNat_of_mem_bytes h (by bv_omega) (by bv_omega)
    bv_omega
  · exact .refl _ _ _ m

theorem XLease.enter_rsp (l : XLease) (hroom : 16 ≤ (m.gpr .rsp).toNat) :
    (m.gpr .rsp).toNat - 16 ≤ ((l.enter m).gpr .rsp).toNat ∧
      ((l.enter m).gpr .rsp).toNat ≤ (m.gpr .rsp).toNat := by
  have hlt := (m.gpr .rsp).isLt
  rw [XLease.enter]
  split_ifs
  · rw [Machine.setMem_gpr, moveRsp_sub]
    constructor <;> bv_omega
  · omega

/-- What a bracket of an XMM lease keeps. -/
theorem Keeps.xleased {l : XLease} (hl : l.saved = true → l.held = true)
    (hroom : 16 ≤ (m.gpr .rsp).toNat) (h : Keeps R (X ∪ l.regs) A (l.enter m) M) (hrsp : .rsp ∉ R)
    (hA : ∀ a ∈ A, (m.gpr .rsp).toNat ≤ a.toNat) :
    Keeps R (X ∪ l.scratch) A m (l.leave M) := by
  by_cases hs : l.saved = true
  · have hM : M.gpr .rsp = m.gpr .rsp - 16 := by
      rw [h.gpr .rsp hrsp, XLease.enter, if_pos hs, Machine.setMem_gpr, moveRsp_sub]
      rfl
    have hlt := (m.gpr .rsp).isLt
    have hlow := l.enter_rsp (m := m) hroom
    have henter := l.keeps_enter (m := m) hroom
    rw [XLease.leave, if_pos (by simp [hl hs, hs])]
    refine ⟨fun r hr => ?_, fun x hx => ?_, fun a ha hle => ?_⟩
    · by_cases hr' : r = .rsp
      · subst hr'
        rw [moveRsp_add, Machine.setXmm_gpr, hM]
        bv_omega
      · rw [moveRsp_gpr _ _ _ hr', Machine.setXmm_gpr, h.gpr r hr, henter.gpr r hr']
    · rw [moveRsp_xmm, Machine.setXmm_xmm]
      split_ifs with hxl
      · -- the parked value is read back
        have hread : M.mem.read (M.addr .rsp 0) 8 = (l.enter m).mem.read (M.addr .rsp 0) 8 := by
          refine h.read (le_refl 8) fun y hy => ?_
          rw [Machine.addr, hM] at hy
          have hy' := Mem.toNat_of_mem_bytes hy (by bv_omega) (by bv_omega)
          have hrsp16 : (m.gpr .rsp - 16).toNat = (m.gpr .rsp).toNat - 16 := by bv_omega
          have hent : ((l.enter m).gpr .rsp) = m.gpr .rsp - 16 := by rw [← h.gpr .rsp hrsp, hM]
          refine ⟨fun hyA => absurd (hA y hyA) (by omega), by rw [hent]; omega⟩
        have haddr : (m.moveRsp .sub 16).addr .rsp 0 = M.addr .rsp 0 := by
          rw [Machine.addr, Machine.addr, hM, moveRsp_sub]
          rfl
        rw [hread, XLease.enter, if_pos hs, Machine.setMem_mem, haddr, Mem.read_write_word, hxl]
      · rw [h.xmm x (by rintro (hX | ⟨-, hX⟩) <;> simp_all), henter.xmm x (by simp)]
    · rw [moveRsp_mem, Machine.setXmm_mem, h.mem a ha (by omega), henter.mem a (by simp) hle]
  · rw [XLease.leave, if_neg (by simp [hs])]
    rw [XLease.enter, if_neg hs] at h
    exact h.mono subset_rfl (Set.union_subset_union_right X fun x hx => ⟨hx.1, by simpa using hs, hx.2⟩)
      subset_rfl

theorem Does.xleased {l : XLease} {code : List Instr} {Q Q' : Machine → Prop}
    (hl : l.saved = true → l.held = true) (hroom : 16 ≤ (m.gpr .rsp).toNat)
    (h : Does env code R (X ∪ l.regs) A (l.enter m) Q) (hrsp : .rsp ∉ R)
    (hA : ∀ a ∈ A, (m.gpr .rsp).toNat ≤ a.toNat)
    (hQ : ∀ M, Keeps R (X ∪ l.regs) A (l.enter m) M → Q M → Q' (l.leave M)) :
    Does env (l.acquire ++ (code ++ l.release)) R (X ∪ l.scratch) A m Q' := by
  obtain ⟨M, he, hk, hq⟩ := h
  refine ⟨l.leave M, ?_, hk.xleased hl hroom hrsp hA, hQ M hk hq⟩
  rw [exec_append_of_next env (exec_xacquire l m), exec_append_of_next env he, exec_xrelease]

end Mirage.X86

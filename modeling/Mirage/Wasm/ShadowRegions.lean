import Mirage.Wasm.ShadowStack

/-!
# What is taken of the shadow stack

The slots whose addresses are taken, and the blocks that are allocated, in a run of a function
(`Event.region`). They are laid out (`LaidOut`) when they are in between the stack pointer and
that of the entry, and apart from each other. Nothing looks whether there is room for them:
this is a condition on the run (`Room`).

* `Laid.note`: a slot at its place in the frame, or a block below all before it, is laid out
  with the others.
* `Inv`: the invariant between two instructions of a function, which every instruction keeps
  (`Inv.note`, `Inv.slotAddr`, `Inv.stackAlloc`).
-/

namespace Mirage.Wasm.ShadowStack

/-! ## What is to be shown -/

/-- So many bytes from an address up. -/
structure Region where
  addr : Nat
  size : Nat
  deriving DecidableEq, Repr

namespace Region

/-- The bytes are in between two addresses. -/
def Within (r : Region) (low high : Nat) : Prop := low ≤ r.addr ∧ r.addr + r.size ≤ high

def Apart (r s : Region) : Prop := r.addr + r.size ≤ s.addr ∨ s.addr + s.size ≤ r.addr

end Region

section

variable (fn : Function) (l : Locals)

/-- What is taken by an instruction: the slot whose address it is, of at least one byte, or the
    block it allocates. -/
def Event.region (e : Event) : Option Region :=
  let addr := natOf (e.new.locals (l.index (.home e.inst.result)))
  match e.inst.op with
  | .slotAddr => fn.slots[e.inst.a]?.map fun slot => ⟨addr, max 1 slot.size⟩
  | .stackAlloc => some ⟨addr, natOf (e.old.locals (l.index (.home e.inst.a)))⟩
  | _ => none

/-- The addresses of the same slot. -/
def Event.SameSlot (e e' : Event) : Prop :=
  e.inst.op = .slotAddr ∧ e'.inst.op = .slotAddr ∧ e.inst.a = e'.inst.a

/-- There is room for the frame and for every block when it is allocated. -/
structure Room (sp : BitVec 32) (trace : List Event) : Prop where
  frame : frameSize fn ≤ sp.toNat
  alloc : ∀ e ∈ trace, e.inst.op = .stackAlloc →
    natOf (e.old.locals (l.index (.home e.inst.a))) ≤ e.old.sp.toNat

/-- Whenever an instruction has been executed, all the regions so far are between the stack
    pointer of then and the one at the entry; and the regions are apart from each other, but
    for the same slot. -/
structure LaidOut (entry : Nat) (trace : List Event) : Prop where
  within : ∀ e older, e :: older <:+ trace → ∀ e' ∈ e :: older, ∀ r, e'.region fn l = some r →
    r.Within e.new.sp.toNat entry
  apart : trace.Pairwise fun e e' => e.SameSlot e' ∨
    ∀ r r', e.region fn l = some r → e'.region fn l = some r' → r.Apart r'

end

/-! ## The backend's own locals -/

section

variable {ctx : Context} {module : Module} {fn : Function} {l : Locals} {i : Nat}
  {useDispatch : Bool}

/-- The locals that hold the stack pointer of the entry, and the frame. -/
def Kept (fn : Function) (i : Nat) : Prop :=
  needsFrame fn = true ∧ (i = savedSpLocal fn ∨ i = frameLocal fn)

/-- No place of a value is a local of the backend's own, as locals are numbered by 32 bits. -/
theorem index_ne (hown : l.Own i) (hlen : l.types.length < 4294967296) (k : Staging.Place ValueId) :
    l.index k ≠ i := by
  have hlt := hown.lt
  rw [Locals.index]
  cases hk : l.localOf k with
  | none =>
    rw [Option.getD_none]
    omega
  | some j =>
    rintro rfl
    exact hown.place k hk

theorem kept_own (h : Kept fn i) : (assignLocals module fn useDispatch).Own i := by
  obtain ⟨hframe, rfl | rfl⟩ := h
  · exact own_of_lt module fn useDispatch (j := 0) (by rw [if_pos hframe]; omega)
  · exact own_of_lt module fn useDispatch (j := 1) (by rw [if_pos hframe]; omega)

theorem vaSaved_own (h : hasVariadicCall module fn = true) :
    (assignLocals module fn useDispatch).Own (vaSavedLocal fn) :=
  own_of_lt module fn useDispatch (by rw [if_pos h]; omega)

/-- The locals for the frame come before all others of the backend. -/
theorem kept_lt (h : Kept fn i) : i < vaSavedLocal fn := by
  obtain ⟨hframe, hi⟩ := h
  rw [vaSavedLocal, if_pos hframe]
  rcases hi with rfl | rfl
  · rw [savedSpLocal]
    omega
  · rw [frameLocal, savedSpLocal]
    omega

theorem vaSavedLocal_le (module : Module) (fn : Function) :
    vaSavedLocal fn ≤ stateIndex module fn := Nat.le_add_right _ _

/-- The places of values have none of the locals that hold the stack pointer. -/
structure OwnLocals (module : Module) (fn : Function) (l : Locals) : Prop where
  index : ∀ k, ¬Kept fn (l.index k)
  staging : ∀ p i, l.localOf (.staging p) = some i → ¬Kept fn i
  saved : hasVariadicCall module fn = true → ∀ k, l.index k ≠ vaSavedLocal fn

theorem ownLocals (hlen : (assignLocals module fn useDispatch).types.length < 4294967296) :
    OwnLocals module fn (assignLocals module fn useDispatch) where
  index k h := index_ne (kept_own h) hlen k rfl
  staging p _ hp h := (kept_own h).place (.staging p) hp
  saved h k := index_ne (vaSaved_own h) hlen k

/-- The function has the locals for a call that takes its tail by a buffer. -/
theorem hasVariadicCall_of {block : Block} {inst : Inst} {indirect : Bool} (hb : block ∈ fn.blocks)
    (hi : inst ∈ block.insts) (hop : inst.op = if indirect then .callIndirect else .call)
    (h : isCVariadic ctx inst indirect = true) : hasVariadicCall ctx.module fn = true := by
  rw [hasVariadicCall]
  refine List.any_eq_true.2 ⟨block, hb, List.any_eq_true.2 ⟨inst, hi, ?_⟩⟩
  rw [isCVariadic, calledSignature] at h
  cases indirect with
  | true =>
    simp only [hop, if_true]
    simpa using h
  | false =>
    simp only [hop]
    simpa using h

end

/-! ## The slots in the frame -/

section

variable {fn : Function} {a b off off' : Nat} {slot slot' : Slot}

theorem foldl_slots (slots : List Slot) (offset : Nat) :
    slots.foldl (fun offset slot =>
      (offset + max 1 slot.align - 1) / max 1 slot.align * max 1 slot.align + max 1 slot.size)
      offset = ends offset (slots.map slotExtent) := by
  induction slots generalizing offset with
  | nil => rfl
  | cons slot slots ih => exact ih _

theorem ends_le_frameSize (fn : Function) : ends 0 (fn.slots.map slotExtent) ≤ frameSize fn := by
  rw [frameSize, foldl_slots]
  exact le_roundUp (a := 16) (by decide)

/-- A slot and its place among the extents. -/
theorem getElem?_zip_slot (hslot : fn.slots[a]? = some slot)
    (hoff : (slotOffsets fn)[a]? = some off) :
    ((fn.slots.map slotExtent).zip (slotOffsets fn))[a]? = some (slotExtent slot, off) := by
  rw [List.getElem?_zip_eq_some, List.getElem?_map, hslot]
  exact ⟨rfl, hoff⟩

/-- A slot is in the frame. -/
theorem slot_le (hslot : fn.slots[a]? = some slot) (hoff : (slotOffsets fn)[a]? = some off) :
    off + max 1 slot.size ≤ frameSize fn :=
  ((placed_starts 0 (fn.slots.map slotExtent)).inside _
    (List.mem_of_getElem? (getElem?_zip_slot hslot hoff))).trans (ends_le_frameSize fn)

/-- Different slots are apart. -/
theorem slots_apart (hslot : fn.slots[a]? = some slot) (hoff : (slotOffsets fn)[a]? = some off)
    (hslot' : fn.slots[b]? = some slot') (hoff' : (slotOffsets fn)[b]? = some off') (hab : a ≠ b) :
    off + max 1 slot.size ≤ off' ∨ off' + max 1 slot'.size ≤ off := by
  have hordered : ((fn.slots.map slotExtent).zip (slotOffsets fn)).Pairwise
      fun r s => r.2 + r.1.size ≤ s.2 := (placed_starts 0 (fn.slots.map slotExtent)).ordered
  obtain ⟨ha, hgeta⟩ := List.getElem?_eq_some_iff.1 (getElem?_zip_slot hslot hoff)
  obtain ⟨hb, hgetb⟩ := List.getElem?_eq_some_iff.1 (getElem?_zip_slot hslot' hoff')
  rcases Nat.lt_or_gt_of_ne hab with hlt | hgt
  · have := List.pairwise_iff_getElem.1 hordered a b ha hb hlt
    rw [hgeta, hgetb] at this
    exact .inl this
  · have := List.pairwise_iff_getElem.1 hordered b a hb ha hgt
    rw [hgeta, hgetb] at this
    exact .inr this

/-- There is a frame where there are slots. -/
theorem needsFrame_of_slot (hslot : fn.slots[a]? = some slot)
    (hoff : (slotOffsets fn)[a]? = some off) : needsFrame fn = true := by
  have hle := slot_le hslot hoff
  rw [needsFrame, Bool.or_eq_true]
  exact .inl (decide_eq_true (by omega))

end

/-! ## What is laid out -/

section

variable {fn : Function} {l : Locals} {base sp sp' : Nat} {trace : List Event} {e : Event}
  {r r' : Region}

/-- The regions so far: the slots are in the frame from `base` up, and the blocks between the
    stack pointer and it. -/
structure Laid (fn : Function) (l : Locals) (base sp : Nat) (trace : List Event) : Prop where
  le : sp ≤ base
  slot : ∀ e ∈ trace, e.inst.op = .slotAddr → ∀ r, e.region fn l = some r → ∃ slot off,
    fn.slots[e.inst.a]? = some slot ∧ (slotOffsets fn)[e.inst.a]? = some off ∧
      r = ⟨base + off, max 1 slot.size⟩
  alloc : ∀ e ∈ trace, e.inst.op = .stackAlloc → ∀ r, e.region fn l = some r → r.Within sp base
  out : LaidOut fn l (base + frameSize fn) trace

theorem Event.op_of_region (h : e.region fn l = some r) :
    e.inst.op = .slotAddr ∨ e.inst.op = .stackAlloc := by
  rw [Event.region] at h
  split at h
  · rename_i hop
    exact .inl hop
  · rename_i hop
    exact .inr hop
  · cases h

/-- Nothing is taken. -/
theorem laid_nil (h : sp ≤ base) : Laid fn l base sp [] where
  le := h
  slot _ he := absurd he List.not_mem_nil
  alloc _ he := absurd he List.not_mem_nil
  out :=
    { within := fun e older h => absurd (List.suffix_nil.1 h) (List.cons_ne_nil e older)
      apart := .nil }

/-- One more region: a slot at its place in the frame, or a block below the stack pointer. -/
theorem Laid.note (h : Laid fn l base sp trace) (hnew : e.new.sp.toNat = sp') (hle : sp' ≤ sp)
    (hslot : e.inst.op = .slotAddr → ∀ r, e.region fn l = some r → ∃ slot off,
      fn.slots[e.inst.a]? = some slot ∧ (slotOffsets fn)[e.inst.a]? = some off ∧
        r = ⟨base + off, max 1 slot.size⟩)
    (halloc : e.inst.op = .stackAlloc → ∀ r, e.region fn l = some r → r.Within sp' sp) :
    Laid fn l base sp' (e :: trace) := by
  have hbase := h.le
  have hslots := List.forall_mem_cons.2 ⟨hslot, h.slot⟩
  have hallocs : ∀ e' ∈ e :: trace, e'.inst.op = .stackAlloc → ∀ r, e'.region fn l = some r →
      r.Within sp' base := by
    refine List.forall_mem_cons.2 ⟨fun hop r hr => ?_, fun e' he' hop r hr => ?_⟩
    · have hr := halloc hop r hr
      exact ⟨hr.1, hr.2.trans hbase⟩
    · have hr := h.alloc e' he' hop r hr
      exact ⟨hle.trans hr.1, hr.2⟩
  refine ⟨hle.trans hbase, hslots, hallocs, ⟨fun e₀ older hsuffix e' he' r hr => ?_, ?_⟩⟩
  · rcases List.suffix_cons_iff.1 hsuffix with heq | hsuffix
    · obtain ⟨rfl, rfl⟩ := List.cons_eq_cons.1 heq
      rw [hnew]
      rcases Event.op_of_region hr with hop | hop
      · obtain ⟨slot, off, hs, hoff, rfl⟩ := hslots e' he' hop r hr
        have hin := slot_le hs hoff
        exact ⟨by show sp' ≤ base + off; omega, by
          show base + off + max 1 slot.size ≤ base + frameSize fn
          omega⟩
      · have hr := hallocs e' he' hop r hr
        exact ⟨hr.1, hr.2.trans (Nat.le_add_right _ _)⟩
    · exact h.out.within e₀ older hsuffix e' he' r hr
  · refine List.pairwise_cons.2 ⟨fun e' he' => ?_, h.out.apart⟩
    by_cases hsame : e.SameSlot e'
    · exact .inl hsame
    refine .inr fun r r' hr hr' => ?_
    rcases Event.op_of_region hr with hop | hop <;> rcases Event.op_of_region hr' with hop' | hop'
    · obtain ⟨slot, off, hs, hoff, rfl⟩ := hslot hop r hr
      obtain ⟨slot', off', hs', hoff', rfl⟩ := h.slot e' he' hop' r' hr'
      rcases slots_apart hs hoff hs' hoff' fun heq => hsame ⟨hop, hop', heq⟩ with hlt | hlt
      · exact .inl (by show base + off + max 1 slot.size ≤ base + off'; omega)
      · exact .inr (by show base + off' + max 1 slot'.size ≤ base + off; omega)
    · -- the blocks end below the frame
      obtain ⟨slot, off, -, -, rfl⟩ := hslot hop r hr
      have hr' := (h.alloc e' he' hop' r' hr').2
      exact .inr (hr'.trans (Nat.le_add_right _ _))
    · obtain ⟨slot, off, -, -, rfl⟩ := h.slot e' he' hop' r' hr'
      have hr := (halloc hop r hr).2
      exact .inl ((hr.trans hbase).trans (Nat.le_add_right _ _))
    · -- a block ends at the stack pointer before it, where the others begin
      have hr := (halloc hop r hr).2
      have hr' := (h.alloc e' he' hop' r' hr').1
      exact .inl (hr.trans hr')

end

/-! ## The invariant -/

section

variable {W : Type} {env : Env W} {ctx : Context} {module : Module} {callee : Target → Callee W}
  {turns : Nat} {fn : Function} {l : Locals} {entry : BitVec 32} {m m' : Machine W} {inst : Inst}
  {code : List Plain}

/-- Between two instructions of the function: the stack pointer of the entry and the frame are in
    their locals, where there is a frame; otherwise the pointer has not moved. The regions are
    laid out, as long as there is room. -/
structure Inv (fn : Function) (l : Locals) (entry : BitVec 32) (m : Machine W) : Prop where
  saved : needsFrame fn = true → m.state.locals (savedSpLocal fn) = .i32 entry
  frame : needsFrame fn = true →
    m.state.locals (frameLocal fn) = .i32 (entry - BitVec.ofNat 32 (frameSize fn))
  still : needsFrame fn = false → m.sp = entry
  laid : Room fn l entry m.trace →
    Laid fn l (entry.toNat - frameSize fn) m.sp.toNat m.trace

theorem Room.of_cons {e : Event} {trace : List Event} (h : Room fn l entry (e :: trace)) :
    Room fn l entry trace := ⟨h.frame, fun e' he' => h.alloc e' (List.mem_cons_of_mem _ he')⟩

/-- Code that leaves the stack pointer and the two locals alone. -/
theorem Inv.steady (h : Inv fn l entry m) (hs : Steady (Kept fn) m m') : Inv fn l entry m' where
  saved hframe := (hs.locals _ ⟨hframe, .inl rfl⟩).trans (h.saved hframe)
  frame hframe := (hs.locals _ ⟨hframe, .inr rfl⟩).trans (h.frame hframe)
  still hframe := hs.sp.trans (h.still hframe)
  laid hroom := by
    rw [hs.trace] at hroom ⊢
    rw [hs.sp]
    exact h.laid hroom

theorem Inv.clear (h : Inv fn l entry m) (stack : List Val) : Inv fn l entry (m.clear stack) :=
  h.steady (.of_eq rfl rfl rfl)

/-- The pointer to the frame, where there is room for it. -/
theorem toNat_frame {size : Nat} (h : size ≤ entry.toNat) :
    (entry - BitVec.ofNat 32 size).toNat = entry.toNat - size := by
  have hlt := entry.isLt
  rw [BitVec.toNat_sub, BitVec.toNat_ofNat]
  omega

/-- An instruction that takes nothing. -/
theorem Inv.note (h : Inv fn l entry m) (hs : Steady (Kept fn) m m')
    (hop : inst.op ≠ .slotAddr ∧ inst.op ≠ .stackAlloc) : Inv fn l entry (m'.note inst m) where
  saved := (h.steady hs).saved
  frame := (h.steady hs).frame
  still := (h.steady hs).still
  laid hroom := by
    rw [Machine.note, hs.trace] at hroom ⊢
    refine (h.laid hroom.of_cons).note rfl (le_of_eq (congrArg BitVec.toNat hs.sp))
      (fun heq => absurd heq hop.1) fun heq => absurd heq hop.2

/-- The address of a slot. -/
theorem Inv.slotAddr (hcallee : ∀ target, (callee target).Balanced)
    (hindex : ∀ k, ¬Kept fn (l.index k)) (h : Inv fn l entry m) (hop : inst.op = .slotAddr)
    (hcode : emitOrdinary ctx fn l inst = some code)
    (hrun : runPlain env module callee code m = .ok m') : Inv fn l entry (m'.note inst m) := by
  have hs : Steady (Kept fn) m m' :=
    (spared_emitOrdinary hindex (by simp [hop]) hcode).steady hcallee hrun
  refine ⟨(h.steady hs).saved, (h.steady hs).frame, (h.steady hs).still, fun hroom => ?_⟩
  rw [Machine.note, hs.trace] at hroom ⊢
  refine (h.laid hroom.of_cons).note rfl (le_of_eq (congrArg BitVec.toNat hs.sp))
    (fun _ r hr => ?_) fun heq => absurd (hop.symm.trans heq) (by decide)
  simp only [emitOrdinary, hop] at hcode
  obtain ⟨off, hoff, rfl⟩ := Option.map_eq_some_iff.1 hcode
  simp only [Event.region, hop] at hr
  obtain ⟨slot, hslot, rfl⟩ := Option.map_eq_some_iff.1 hr
  refine ⟨slot, off, hslot, hoff, congrArg (Region.mk · _) ?_⟩
  have hframe := h.frame (needsFrame_of_slot hslot hoff)
  show natOf (m'.state.locals (l.index (.home inst.result))) = _
  rw [run_slotAddrCode hframe hrun]
  -- the slot ends in the frame, and this below the entry
  have hle := slot_le hslot hoff
  have hroom := hroom.frame
  have hlt := entry.isLt
  show (entry - BitVec.ofNat 32 (frameSize fn) + BitVec.ofNat 32 off).toNat = _
  rw [BitVec.toNat_add, toNat_frame hroom, BitVec.toNat_ofNat]
  omega

/-- A block below the stack pointer, when there is room for it. -/
theorem toNat_alloc {sp size : BitVec 32} (h : size.toNat ≤ sp.toNat) :
    ((sp - size) &&& (-16)).toNat + size.toNat ≤ sp.toNat := by
  have hlt := sp.isLt
  have hand : ((sp - size) &&& (-16)).toNat ≤ (sp - size).toNat := by
    rw [BitVec.toNat_and]
    exact Nat.and_le_left
  rw [BitVec.toNat_sub] at hand
  omega

/-- A block is allocated. -/
theorem Inv.stackAlloc (hindex : ∀ k, ¬Kept fn (l.index k)) (hframe : needsFrame fn = true)
    (h : Inv fn l entry m) (hop : inst.op = .stackAlloc)
    (hrun : runPlain env module callee (stackAllocCode fn l inst) m = .ok m') :
    Inv fn l entry (m'.note inst m) := by
  obtain ⟨size, hsize, hsp, hresult, hother, htrace⟩ := run_stackAllocCode hrun
  have hkept : ∀ i, Kept fn i → m'.state.locals i = m.state.locals i := fun i hi =>
    hother i fun heq => hindex _ (heq ▸ hi)
  refine ⟨fun _ => (hkept _ ⟨hframe, .inl rfl⟩).trans (h.saved hframe),
    fun _ => (hkept _ ⟨hframe, .inr rfl⟩).trans (h.frame hframe),
    fun hno => absurd (hframe.symm.trans hno) (by decide), fun hroom => ?_⟩
  rw [Machine.note, htrace] at hroom ⊢
  -- the size is a number of 32 bits, as there is room for it
  have hfits : natOf (m.state.locals (l.index (.home inst.a))) ≤ m.sp.toNat :=
    hroom.alloc _ List.mem_cons_self hop
  rw [Nat.mod_eq_of_lt (hfits.trans_lt m.sp.isLt)] at hsize
  rw [← hsize] at hfits
  have hblock := toNat_alloc hfits
  rw [← hsp] at hblock
  have hle : m'.sp.toNat ≤ m.sp.toNat := by omega
  refine (h.laid hroom.of_cons).note rfl hle (fun heq => absurd (hop.symm.trans heq) (by decide))
    fun _ r hr => ?_
  simp only [Event.region, hop] at hr
  obtain rfl := Option.some.inj hr
  show m'.sp.toNat ≤ natOf (m'.state.locals _) ∧ natOf (m'.state.locals _) + _ ≤ m.sp.toNat
  rw [hresult]
  refine ⟨le_rfl, ?_⟩
  show m'.sp.toNat + natOf (m.state.locals _) ≤ m.sp.toNat
  rw [← hsize]
  exact hblock

end

end Mirage.Wasm.ShadowStack

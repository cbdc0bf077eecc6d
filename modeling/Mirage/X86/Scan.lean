import Mirage.X86.Liveness

/-!
# The scan

What the linear scan leaves behind (`ScanSpec`), whatever the intervals and the
kill ranges are, as long as the intervals come in order of their starts:

* an interval in a register meets no kill range of it, unless it crosses the call
  that kills it and the value is saved around calls;
* two intervals in one register do not overlap;
* every other interval has an area, and no two values share one;
* the callee-saved registers in use are recorded.

Both modes satisfy it (`allocate_spec`), and the machine verifier finds nothing
in an assignment that does (`machineVerify_eq_nil`).
-/

namespace Mirage.X86

/-! ## Kill ranges -/

/-- The interval and the kill range have a position in common. -/
def KillRange.meets (k : KillRange) (interval : Interval) : Prop :=
  k.fromPos ≤ interval.end ∧ interval.start ≤ k.toPos

/-- A call that kills the register, and that the interval crosses. -/
def KillRange.tolerable (k : KillRange) (interval : Interval) (reg : PhysReg) : Prop :=
  k.isCallClobber = true ∧ reg.isCalleeSaved = false ∧ crosses interval (k.fromPos / 4) = true

/-- A register is accepted when every kill range the interval meets is tolerable,
    and then a save is asked for if there is one. -/
theorem overlappingKillOk_eq_some {interval : Interval} {reg : PhysReg} {ks : List KillRange}
    {needsSave ns : Bool} (hsorted : ks.Pairwise fun k k' => k.fromPos ≤ k'.fromPos)
    (h : overlappingKillOk interval reg ks needsSave = some ns) :
    (needsSave = true → ns = true) ∧
      ∀ k ∈ ks, k.meets interval → k.tolerable interval reg ∧ ns = true := by
  induction ks generalizing needsSave with
  | nil =>
    rw [overlappingKillOk, Option.some.injEq] at h
    exact ⟨fun hn => h ▸ hn, by simp⟩
  | cons k ks ih =>
    rw [List.pairwise_cons] at hsorted
    rw [overlappingKillOk] at h
    split_ifs at h with h1 h2 h3
    · -- the rest of the ranges starts after the interval too
      rw [Option.some.injEq] at h
      refine ⟨fun hn => h ▸ hn, fun k' hk' hm => ?_⟩
      have hle : k.fromPos ≤ k'.fromPos := by
        rcases List.mem_cons.1 hk' with rfl | hk'
        · exact le_refl _
        · exact hsorted.1 k' hk'
      exact absurd hm.1 (by omega)
    · obtain ⟨hmono, hall⟩ := ih hsorted.2 h
      refine ⟨hmono, fun k' hk' hm => ?_⟩
      rcases List.mem_cons.1 hk' with rfl | hk'
      · exact absurd hm.2 (by omega)
      · exact hall k' hk' hm
    · obtain ⟨hmono, hall⟩ := ih hsorted.2 h
      refine ⟨fun _ => hmono rfl, fun k' hk' hm => ?_⟩
      rcases List.mem_cons.1 hk' with rfl | hk'
      · simp only [Bool.and_eq_true, Bool.not_eq_true'] at h3
        exact ⟨⟨h3.1.1, h3.1.2, h3.2⟩, hmono rfl⟩
      · exact hall k' hk' hm

/-- A chosen register is one of the interval's order, free, and accepted. -/
theorem tryPass_eq_some {kills : PhysReg → List KillRange} {active : List Active}
    {interval : Interval} {allowSave : Bool} {order : List PhysReg} {reg : PhysReg}
    {needsSave : Bool} (h : tryPass kills active interval allowSave order = some (reg, needsSave)) :
    reg ∈ order ∧ (∀ a ∈ active, a.reg ≠ reg) ∧
      overlappingKillOk interval reg (kills reg) false = some needsSave := by
  induction order with
  | nil => simp [tryPass] at h
  | cons r order ih =>
    rw [tryPass] at h
    have hrest : tryPass kills active interval allowSave order = some (reg, needsSave) →
        reg ∈ r :: order ∧ (∀ a ∈ active, a.reg ≠ reg) ∧
          overlappingKillOk interval reg (kills reg) false = some needsSave := fun h =>
      ⟨List.mem_cons_of_mem _ (ih h).1, (ih h).2⟩
    split_ifs at h with hact
    · exact hrest h
    · split at h
      · exact hrest h
      · rename_i ns hns
        split_ifs at h
        · exact hrest h
        · rw [Option.some.injEq, Prod.mk.injEq] at h
          obtain ⟨rfl, rfl⟩ := h
          exact ⟨List.mem_cons_self, by simpa using hact, hns⟩

theorem choose_eq_some {kills : PhysReg → List KillRange} {active : List Active}
    {interval : Interval} {reg : PhysReg} {needsSave : Bool}
    (h : choose kills active interval = some (reg, needsSave)) :
    reg ∈ registerOrder interval ∧ (∀ a ∈ active, a.reg ≠ reg) ∧
      overlappingKillOk interval reg (kills reg) false = some needsSave := by
  rw [choose, Option.or_eq_some_iff] at h
  rcases h with h | ⟨-, h⟩
  · exact tryPass_eq_some h
  · exact tryPass_eq_some h

/-! ## The specification -/

/-- The frame area of an assignment: a spilled value's home, or the save area of
    a value saved around calls. -/
def Assignment.area (a : Assignment) : Option Nat := if a.spilled then a.spillIndex else a.saveIndex

/-- What the scan guarantees for one interval. -/
inductive Assigned (kills : PhysReg → List KillRange) (interval : Interval) (areas : Nat) :
    Assignment → Prop
  | spilled (k : Nat) (hk : k < areas) :
      Assigned kills interval areas { spilled := true, spillIndex := some k }
  | inReg (reg : PhysReg) (save : Option Nat) (hreg : reg ∈ registerOrder interval)
      (hkill : ∀ k ∈ kills reg, k.meets interval → k.tolerable interval reg ∧ save ≠ none)
      (hsave : ∀ k, save = some k → k < areas) :
      Assigned kills interval areas
        { spilled := false, reg := some reg, saveAroundCalls := save.isSome, saveIndex := save }

/-- Two intervals have no position in common. -/
def Interval.Apart (a b : Interval) : Prop := a.end < b.start ∨ b.end < a.start

/-- What the scan of some intervals leaves behind. -/
structure ScanSpec (kills : PhysReg → List KillRange) (intervals : List Interval)
    (values : ValueId → Assignment) (areas : Nat) (calleeSaved : List Reg) : Prop where
  assigned : ∀ i ∈ intervals, Assigned kills i areas (values i.value)
  /-- A value without an interval keeps the default. -/
  default : ∀ v, (∀ i ∈ intervals, i.value ≠ v) → values v = {}
  apart : intervals.Pairwise fun i j =>
    (values i.value).reg = (values j.value).reg → (values i.value).reg ≠ none → i.Apart j
  areas : intervals.Pairwise fun i j =>
    (values i.value).area = (values j.value).area → (values i.value).area = none
  callee : ∀ i ∈ intervals, ∀ r, (values i.value).reg = some (.gpr r) →
    (PhysReg.gpr r).isCalleeSaved = true → r ∈ calleeSaved
  isCallee : ∀ r ∈ calleeSaved, (PhysReg.gpr r).isCalleeSaved = true

theorem Assigned.mono {kills : PhysReg → List KillRange} {interval : Interval} {n n' : Nat}
    {a : Assignment} (h : Assigned kills interval n a) (hn : n ≤ n') :
    Assigned kills interval n' a := by
  cases h with
  | spilled k hk => exact .spilled k (hk.trans_le hn)
  | inReg reg save hreg hkill hsave =>
    exact .inReg reg save hreg hkill fun k hk => (hsave k hk).trans_le hn

theorem Assigned.area_lt {kills : PhysReg → List KillRange} {interval : Interval} {n k : Nat}
    {a : Assignment} (h : Assigned kills interval n a) (ha : a.area = some k) : k < n := by
  cases h with
  | spilled k' hk => exact (Option.some.inj ha) ▸ hk
  | inReg reg save hreg hkill hsave => exact hsave k ha

/-! ## One step -/

/-- Adding a new interval, whose value gets the assignment `a`, to a scan: its area
    is fresh and its register is apart from the others. -/
theorem ScanSpec.snoc {kills : PhysReg → List KillRange} {pre : List Interval}
    {values : ValueId → Assignment} {n n' : Nat} {cs cs' : List Reg} {interval : Interval}
    {a : Assignment} (h : ScanSpec kills pre values n cs)
    (hnew : ∀ i ∈ pre, i.value ≠ interval.value) (ha : Assigned kills interval n' a) (hn : n ≤ n')
    (hfresh : ∀ k, a.area = some k → n ≤ k)
    (hapart : ∀ i ∈ pre, (values i.value).reg = a.reg → (values i.value).reg ≠ none →
      i.Apart interval)
    (hcs : ∀ r ∈ cs, r ∈ cs')
    (hcallee : ∀ r, a.reg = some (.gpr r) → (PhysReg.gpr r).isCalleeSaved = true → r ∈ cs')
    (hisCallee : ∀ r ∈ cs', (PhysReg.gpr r).isCalleeSaved = true) :
    ScanSpec kills (pre ++ [interval])
      (fun v => if v = interval.value then a else values v) n' cs' := by
  have hold : ∀ i ∈ pre, (if i.value = interval.value then a else values i.value) =
      values i.value := fun i hi => if_neg (hnew i hi)
  have hpre : ∀ {R R' : Interval → Interval → Prop}, pre.Pairwise R →
      (∀ i ∈ pre, ∀ j ∈ pre, R i j → R' i j) → pre.Pairwise R' := fun hp himp =>
    hp.imp_of_mem fun hi hj => himp _ hi _ hj
  constructor
  · intro i hi
    rcases List.mem_append.1 hi with hi | hi
    · simp only [hold i hi]
      exact (h.assigned i hi).mono hn
    · rw [List.mem_singleton.1 hi]
      simp only [if_true]
      exact ha
  · intro v hv
    have hne : interval.value ≠ v := hv interval (by simp)
    simp only [if_neg hne.symm]
    exact h.default v fun i hi => hv i (by simp [hi])
  · refine List.pairwise_append.2 ⟨hpre h.apart fun i hi j hj hij => ?_, List.pairwise_singleton _ _,
      fun i hi j hj => ?_⟩
    · simp only [hold i hi, hold j hj]
      exact hij
    · rw [List.mem_singleton.1 hj]
      simp only [hold i hi, if_true]
      exact hapart i hi
  · refine List.pairwise_append.2 ⟨hpre h.areas fun i hi j hj hij => ?_, List.pairwise_singleton _ _,
      fun i hi j hj => ?_⟩
    · simp only [hold i hi, hold j hj]
      exact hij
    · rw [List.mem_singleton.1 hj]
      simp only [hold i hi, if_true]
      intro heq
      cases hk : (values i.value).area with
      | none => rfl
      | some k =>
        have h1 := (h.assigned i hi).area_lt hk
        have h2 := hfresh k (heq ▸ hk)
        omega
  · intro i hi r hr hc
    rcases List.mem_append.1 hi with hi | hi
    · simp only [hold i hi] at hr
      exact hcs r (h.callee i hi r hr hc)
    · rw [List.mem_singleton.1 hi] at hr
      simp only [if_true] at hr
      exact hcallee r hr hc
  · exact hisCallee

/-- Spilling a value keeps the specification. -/
theorem ScanSpec.spill {kills : PhysReg → List KillRange} {pre : List Interval} {s : ScanState}
    {interval : Interval}
    (h : ScanSpec kills pre s.values s.spillAreaCount s.usedCalleeSaved)
    (hnew : ∀ i ∈ pre, i.value ≠ interval.value) :
    ScanSpec kills (pre ++ [interval]) (s.spill interval.value).values
      (s.spill interval.value).spillAreaCount (s.spill interval.value).usedCalleeSaved := by
  refine h.snoc hnew (.spilled s.spillAreaCount (Nat.lt_succ_self _)) (Nat.le_succ _) ?_ ?_
    (fun _ hr => hr) ?_ h.isCallee
  · intro k hk
    exact (Option.some.inj hk) ▸ le_refl _
  · intro i _ hr hne
    exact absurd hr hne
  · intro r hr
    simp at hr

/-- Taking a free and accepted register keeps the specification. -/
theorem ScanSpec.take {kills : PhysReg → List KillRange} {pre : List Interval} {s : ScanState}
    {interval : Interval} {reg : PhysReg} {needsSave : Bool}
    (h : ScanSpec kills pre s.values s.spillAreaCount s.usedCalleeSaved)
    (hnew : ∀ i ∈ pre, i.value ≠ interval.value) (hreg : reg ∈ registerOrder interval)
    (hkill : ∀ k ∈ kills reg, k.meets interval → k.tolerable interval reg ∧ needsSave = true)
    (hapart : ∀ i ∈ pre, (s.values i.value).reg = some reg → i.Apart interval) :
    ScanSpec kills (pre ++ [interval]) (s.take interval reg needsSave).values
      (s.take interval reg needsSave).spillAreaCount
      (s.take interval reg needsSave).usedCalleeSaved := by
  have ha : Assigned kills interval (s.take interval reg needsSave).spillAreaCount
      { spilled := false, reg := some reg, saveAroundCalls := needsSave
        saveIndex := if needsSave then some s.spillAreaCount else none } := by
    cases needsSave with
    | true =>
      exact .inReg reg (some s.spillAreaCount) hreg (fun k hk hm => ⟨(hkill k hk hm).1, by simp⟩)
        fun k hk => by simp [ScanState.take, ← Option.some.inj hk]
    | false =>
      exact .inReg reg none hreg (fun k hk hm => absurd (hkill k hk hm).2 (by simp)) (by simp)
  refine h.snoc hnew ha ?_ ?_ ?_ ?_ ?_ ?_
  · simp only [ScanState.take]
    split_ifs <;> omega
  · intro k hk
    simp only [Assignment.area, Bool.false_eq_true, if_false] at hk
    split_ifs at hk
    exact (Option.some.inj hk) ▸ le_refl _
  · exact fun i hi hr _ => hapart i hi hr
  · intro r hr
    simp only [ScanState.take]
    split
    · split_ifs <;> simp [hr]
    · exact hr
  · intro r hr hc
    simp only [Option.some.injEq] at hr
    simp [ScanState.take, hr, hc]
  · intro r hr
    simp only [ScanState.take] at hr
    split at hr
    · split_ifs at hr with hc
      · rcases List.mem_cons.1 hr with rfl | hr
        · exact hc
        · exact h.isCallee r hr
      · exact h.isCallee r hr
    · exact h.isCallee r hr

/-! ## The whole scan -/

/-- The registers held by intervals that may still overlap the next one are active:
    those whose end is not before the start of a scanned interval. -/
def ActiveSpec (pre : List Interval) (s : ScanState) : Prop :=
  ∀ i ∈ pre, ∀ reg, (s.values i.value).reg = some reg →
    ⟨i.end, reg⟩ ∈ s.active ∨ ∃ j ∈ pre, i.end < j.start

theorem scanStep_spec {kills : PhysReg → List KillRange} {pre : List Interval} {s : ScanState}
    {interval : Interval}
    (hkills : ∀ reg, (kills reg).Pairwise fun k k' => k.fromPos ≤ k'.fromPos)
    (hnew : ∀ i ∈ pre, i.value ≠ interval.value) (hle : ∀ i ∈ pre, i.start ≤ interval.start)
    (h : ScanSpec kills pre s.values s.spillAreaCount s.usedCalleeSaved)
    (hactive : ActiveSpec pre s) :
    ScanSpec kills (pre ++ [interval]) (scanStep kills s interval).values
        (scanStep kills s interval).spillAreaCount (scanStep kills s interval).usedCalleeSaved ∧
      ActiveSpec (pre ++ [interval]) (scanStep kills s interval) := by
  -- the active intervals left after the ones that ended are dropped
  have hactive' : ∀ i ∈ pre, ∀ reg, (s.values i.value).reg = some reg →
      ⟨i.end, reg⟩ ∈ (s.active.filter fun a => ¬a.end < interval.start) ∨
        i.end < interval.start := by
    intro i hi reg hr
    rcases Nat.lt_or_ge i.end interval.start with hlt | hge
    · exact .inr hlt
    · rcases hactive i hi reg hr with ha | ⟨j, hj, hij⟩
      · exact .inl (List.mem_filter.2 ⟨ha, by simpa using hge⟩)
      · have := hle j hj
        omega
  rw [scanStep]
  generalize hs' : ({ s with active := s.active.filter fun a => ¬a.end < interval.start } :
    ScanState) = s'
  have hspec' : ScanSpec kills pre s'.values s'.spillAreaCount s'.usedCalleeSaved := by
    rw [← hs']; exact h
  have hact : ∀ i ∈ pre, ∀ reg, (s'.values i.value).reg = some reg →
      ⟨i.end, reg⟩ ∈ s'.active ∨ i.end < interval.start := by
    rw [← hs']; exact hactive'
  cases hch : choose kills s'.active interval with
  | none =>
    refine ⟨hspec'.spill hnew, fun i hi reg hr => ?_⟩
    simp only [ScanState.spill, ScanState.assign] at hr ⊢
    split_ifs at hr with hv
    rcases List.mem_append.1 hi with hi | hi
    · rcases hact i hi reg hr with ha | hlt
      · exact .inl ha
      · exact .inr ⟨interval, by simp, hlt⟩
    · exact absurd (congrArg Interval.value (List.mem_singleton.1 hi)) hv
  | some choice =>
    obtain ⟨reg, needsSave⟩ := choice
    obtain ⟨hreg, hfree, hok⟩ := choose_eq_some hch
    obtain ⟨-, hmeets⟩ := overlappingKillOk_eq_some (hkills reg) hok
    refine ⟨hspec'.take hnew hreg hmeets fun i hi hr => ?_, fun i hi r hr => ?_⟩
    · rcases hact i hi reg hr with ha | hlt
      · exact absurd rfl (hfree _ ha)
      · exact .inl hlt
    · simp only [ScanState.take] at hr ⊢
      rcases List.mem_append.1 hi with hi | hi
      · rw [if_neg (hnew i hi)] at hr
        rcases hact i hi r hr with ha | hlt
        · exact .inl (List.mem_append_left _ ha)
        · exact .inr ⟨interval, by simp, hlt⟩
      · rw [List.mem_singleton.1 hi] at hr ⊢
        simp only [if_true, Option.some.injEq] at hr
        exact .inl (by simp [hr])

/-- The scan meets its specification, by induction on the intervals still to come. -/
theorem scan_spec {kills : PhysReg → List KillRange}
    (hkills : ∀ reg, (kills reg).Pairwise fun k k' => k.fromPos ≤ k'.fromPos) (mode : Mode)
    {intervals : List Interval} (hsorted : intervals.Pairwise fun i j => i.start ≤ j.start)
    (hnodup : intervals.Pairwise fun i j => i.value ≠ j.value) :
    ScanSpec kills intervals (scan kills mode intervals).values
      (scan kills mode intervals).spillAreaCount (scan kills mode intervals).usedCalleeSaved := by
  have hinit : ScanSpec kills [] ({} : ScanState).values ({} : ScanState).spillAreaCount
      ({} : ScanState).usedCalleeSaved :=
    ⟨by simp, fun _ _ => rfl, .nil, .nil, by simp, by simp⟩
  have hsnoc : ∀ {pre : List Interval} {i : Interval} {rest : List Interval}
      {R : Interval → Interval → Prop}, (pre ++ i :: rest).Pairwise R → ∀ j ∈ pre, R j i :=
    fun h j hj => (List.pairwise_append.1 h).2.2 j hj _ List.mem_cons_self
  cases mode with
  | trivial =>
    suffices hmain : ∀ (rest pre : List Interval) (s : ScanState),
        (pre ++ rest).Pairwise (fun i j => i.value ≠ j.value) →
        ScanSpec kills pre s.values s.spillAreaCount s.usedCalleeSaved →
        let s' := rest.foldl (fun s (interval : Interval) => s.spill interval.value) s
        ScanSpec kills (pre ++ rest) s'.values s'.spillAreaCount s'.usedCalleeSaved from
      hmain intervals [] {} hnodup hinit
    intro rest
    induction rest with
    | nil => intro pre s _ h; simpa using h
    | cons i rest ih =>
      intro pre s hn h
      have := ih (pre ++ [i]) _ (by simpa using hn) (h.spill (hsnoc hn))
      simpa using this
  | linear =>
    suffices hmain : ∀ (rest pre : List Interval) (s : ScanState),
        (pre ++ rest).Pairwise (fun i j => i.value ≠ j.value) →
        (pre ++ rest).Pairwise (fun i j => i.start ≤ j.start) →
        ScanSpec kills pre s.values s.spillAreaCount s.usedCalleeSaved → ActiveSpec pre s →
        let s' := rest.foldl (scanStep kills) s
        ScanSpec kills (pre ++ rest) s'.values s'.spillAreaCount s'.usedCalleeSaved from
      hmain intervals [] {} hnodup hsorted hinit (by simp [ActiveSpec])
    intro rest
    induction rest with
    | nil => intro pre s _ _ h _; simpa using h
    | cons i rest ih =>
      intro pre s hn hs h ha
      obtain ⟨h', ha'⟩ := scanStep_spec hkills (hsnoc hn) (hsnoc hs) h ha
      have := ih (pre ++ [i]) _ (by simpa using hn) (by simpa using hs) h' ha'
      simpa using this

/-! ## Spilling is a last resort -/

theorem tryPass_eq_none {kills : PhysReg → List KillRange} {active : List Active}
    {interval : Interval} {order : List PhysReg} {reg : PhysReg}
    (h : tryPass kills active interval true order = none) (hreg : reg ∈ order)
    (hok : overlappingKillOk interval reg (kills reg) false ≠ none) :
    ∃ a ∈ active, a.reg = reg := by
  induction order with
  | nil => simp at hreg
  | cons r order ih =>
    rw [tryPass] at h
    split_ifs at h with hact
    · rcases List.mem_cons.1 hreg with rfl | hreg
      · simpa using hact
      · exact ih h hreg
    · split at h
      · rename_i hkill
        rcases List.mem_cons.1 hreg with rfl | hreg
        · exact absurd hkill hok
        · exact ih h hreg
      · simp at h

/-- Every active entry is an interval that was scanned and took a register. -/
def ActiveFrom (pre : List Interval) (s : ScanState) : Prop :=
  ∀ a ∈ s.active, ∃ j ∈ pre, (s.values j.value).reg = some a.reg ∧ j.end = a.end

/-- The register is held by another interval where the given one starts. -/
def HeldAt (intervals : List Interval) (values : ValueId → Assignment) (i : Interval)
    (reg : PhysReg) : Prop :=
  ∃ j ∈ intervals, (values j.value).reg = some reg ∧ j.start ≤ i.start ∧ i.start ≤ j.end

/-- A spilled interval found every register that its kill ranges allow held. -/
def SpilledFull (kills : PhysReg → List KillRange) (intervals : List Interval)
    (values : ValueId → Assignment) : Prop :=
  ∀ i ∈ intervals, (values i.value).reg = none → ∀ reg ∈ registerOrder i,
    overlappingKillOk i reg (kills reg) false ≠ none → HeldAt intervals values i reg

theorem scanStep_spilled {kills : PhysReg → List KillRange} {pre : List Interval} {s : ScanState}
    {interval : Interval} (hnew : ∀ i ∈ pre, i.value ≠ interval.value)
    (hle : ∀ i ∈ pre, i.start ≤ interval.start) (hfrom : ActiveFrom pre s)
    (hfull : SpilledFull kills pre s.values) :
    ActiveFrom (pre ++ [interval]) (scanStep kills s interval) ∧
      SpilledFull kills (pre ++ [interval]) (scanStep kills s interval).values := by
  rw [scanStep]
  generalize hs' : ({ s with active := s.active.filter fun a => ¬a.end < interval.start } :
    ScanState) = s'
  have hvalues : s'.values = s.values := by rw [← hs']
  have hfrom' : ∀ a ∈ s'.active, ∃ j ∈ pre, (s'.values j.value).reg = some a.reg ∧
      j.end = a.end ∧ interval.start ≤ j.end := by
    intro a ha
    rw [← hs', List.mem_filter] at ha
    obtain ⟨j, hj, hr, he⟩ := hfrom a ha.1
    exact ⟨j, hj, by rw [hvalues]; exact hr, he, by simpa [he] using ha.2⟩
  -- the assignments of the intervals scanned before stay
  have hheld : ∀ {values : ValueId → Assignment}, (∀ i ∈ pre, values i.value = s.values i.value) →
      ∀ i ∈ pre, (values i.value).reg = none → ∀ reg ∈ registerOrder i,
        overlappingKillOk i reg (kills reg) false ≠ none →
        HeldAt (pre ++ [interval]) values i reg := by
    intro values hsame i hi hr reg hreg hok
    rw [hsame i hi] at hr
    obtain ⟨j, hj, hjr, h⟩ := hfull i hi hr reg hreg hok
    exact ⟨j, List.mem_append_left _ hj, by rw [hsame j hj]; exact hjr, h⟩
  cases hch : choose kills s'.active interval with
  | none =>
    have hsame : ∀ i ∈ pre, (s'.spill interval.value).values i.value = s.values i.value := by
      intro i hi
      simp [ScanState.spill, ScanState.assign, hnew i hi, hvalues]
    refine ⟨fun a ha => ?_, fun i hi hr reg hreg hok => ?_⟩
    · obtain ⟨j, hj, hjr, he, -⟩ := hfrom' a ha
      rw [hvalues] at hjr
      exact ⟨j, List.mem_append_left _ hj, by rw [hsame j hj]; exact hjr, he⟩
    · rcases List.mem_append.1 hi with hi | hi
      · exact hheld hsame i hi hr reg hreg hok
      · obtain rfl := List.mem_singleton.1 hi
        rw [choose, Option.or_eq_none_iff] at hch
        obtain ⟨a, ha, rfl⟩ := tryPass_eq_none hch.2 hreg hok
        obtain ⟨j, hj, hjr, he, hlive⟩ := hfrom' a ha
        rw [hvalues] at hjr
        exact ⟨j, List.mem_append_left _ hj, by rw [hsame j hj]; exact hjr, hle j hj, hlive⟩
  | some choice =>
    obtain ⟨reg, needsSave⟩ := choice
    have hsame : ∀ i ∈ pre,
        (s'.take interval reg needsSave).values i.value = s.values i.value := by
      intro i hi
      simp [ScanState.take, hnew i hi, hvalues]
    refine ⟨fun a ha => ?_, fun i hi hr reg' hreg hok => ?_⟩
    · rcases List.mem_append.1 ha with ha | ha
      · obtain ⟨j, hj, hjr, he, -⟩ := hfrom' a ha
        rw [hvalues] at hjr
        exact ⟨j, List.mem_append_left _ hj, by rw [hsame j hj]; exact hjr, he⟩
      · obtain rfl := List.mem_singleton.1 ha
        exact ⟨interval, by simp, by simp [ScanState.take], rfl⟩
    · rcases List.mem_append.1 hi with hi | hi
      · exact hheld hsame i hi hr reg' hreg hok
      · obtain rfl := List.mem_singleton.1 hi
        simp [ScanState.take] at hr

/-- An interval is only spilled when all its registers are killed or held. -/
theorem scan_spilled {kills : PhysReg → List KillRange} {intervals : List Interval}
    (hsorted : intervals.Pairwise fun i j => i.start ≤ j.start)
    (hnodup : intervals.Pairwise fun i j => i.value ≠ j.value) :
    SpilledFull kills intervals (scan kills .linear intervals).values := by
  have hsnoc : ∀ {pre : List Interval} {i : Interval} {rest : List Interval}
      {R : Interval → Interval → Prop}, (pre ++ i :: rest).Pairwise R → ∀ j ∈ pre, R j i :=
    fun h j hj => (List.pairwise_append.1 h).2.2 j hj _ List.mem_cons_self
  suffices hmain : ∀ (rest pre : List Interval) (s : ScanState),
      (pre ++ rest).Pairwise (fun i j => i.value ≠ j.value) →
      (pre ++ rest).Pairwise (fun i j => i.start ≤ j.start) →
      ActiveFrom pre s → SpilledFull kills pre s.values →
      SpilledFull kills (pre ++ rest) (rest.foldl (scanStep kills) s).values from
    hmain intervals [] {} hnodup hsorted (by simp [ActiveFrom]) (by simp [SpilledFull])
  intro rest
  induction rest with
  | nil => intro pre s _ _ _ h; simpa using h
  | cons i rest ih =>
    intro pre s hn hs hf h
    obtain ⟨hf', h'⟩ := scanStep_spilled (hsnoc hn) (hsnoc hs) hf h
    have := ih (pre ++ [i]) _ (by simpa using hn) (by simpa using hs) hf' h'
    simpa using this

/-! ## The allocation -/

variable {module : Module} {fn : Function}

theorem kills_sorted (module : Module) (fn : Function) (reg : PhysReg) :
    (kills module fn reg).Pairwise fun k k' => k.fromPos ≤ k'.fromPos := by
  have : IsTrans KillRange fun k k' => k.fromPos ≤ k'.fromPos := ⟨fun _ _ _ => Nat.le_trans⟩
  have : Std.Total (α := KillRange) fun k k' => k.fromPos ≤ k'.fromPos :=
    ⟨fun _ _ => Nat.le_total _ _⟩
  exact List.pairwise_insertionSort _ _

theorem mem_kills {reg : PhysReg} {k : KillRange} :
    k ∈ kills module fn reg ↔ (reg, k) ∈ buildKills module fn := by
  rw [kills, List.mem_insertionSort, List.mem_map]
  constructor
  · rintro ⟨⟨r, k'⟩, h, rfl⟩
    rw [List.mem_filter, decide_eq_true_eq] at h
    exact h.2 ▸ h.1
  · exact fun h => ⟨(reg, k), List.mem_filter.2 ⟨h, by simp⟩, rfl⟩

theorem intervals_sorted (fn : Function) :
    (buildIntervals fn).Pairwise fun i j => i.start ≤ j.start := by
  have : IsTrans Interval fun a b =>
      a.start < b.start ∨ (a.start = b.start ∧ a.value ≤ b.value) := ⟨fun a b c h h' => by
    rcases h with h | ⟨h1, h2⟩ <;> rcases h' with h' | ⟨h1', h2'⟩
    · exact .inl (by omega)
    · exact .inl (by omega)
    · exact .inl (by omega)
    · exact .inr ⟨h1.trans h1', Nat.le_trans h2 h2'⟩⟩
  have : Std.Total (α := Interval) fun a b =>
      a.start < b.start ∨ (a.start = b.start ∧ a.value ≤ b.value) :=
    ⟨fun a b => by
      rcases Nat.lt_trichotomy a.start b.start with h | h | h
      · exact .inl (.inl h)
      · rcases Nat.le_total a.value b.value with h' | h'
        · exact .inl (.inr ⟨h, h'⟩)
        · exact .inr (.inr ⟨h.symm, h'⟩)
      · exact .inr (.inl h)⟩
  exact (List.pairwise_insertionSort (α := Interval) (fun a b =>
    a.start < b.start ∨ (a.start = b.start ∧ a.value ≤ b.value)) _).imp fun h => by omega

theorem intervals_nodup (fn : Function) :
    (buildIntervals fn).Pairwise fun i j => i.value ≠ j.value := by
  refine (List.perm_insertionSort _ _).symm.pairwise ?_ fun h => Ne.symm h
  rw [List.pairwise_filterMap]
  refine List.nodup_range.imp fun hne i hi j hj => ?_
  obtain ⟨⟨s, t⟩, -, rfl⟩ := Option.map_eq_some_iff.1 hi
  obtain ⟨⟨s', t'⟩, -, rfl⟩ := Option.map_eq_some_iff.1 hj
  exact hne

/-- Both modes of the allocator meet the specification of the scan. -/
theorem allocate_spec (module : Module) (fn : Function) (mode : Mode) :
    ScanSpec (kills module fn) (buildIntervals fn) (allocate module fn mode).values
      (allocate module fn mode).spillAreaCount (allocate module fn mode).usedCalleeSaved :=
  scan_spec (kills_sorted module fn) mode (intervals_sorted fn) (intervals_nodup fn)

/-- An interval starts where it ends, or before. -/
theorem start_le_end {i : Interval} (hi : i ∈ buildIntervals fn) : i.start ≤ i.end := by
  obtain ⟨v, s, t, -, hst, rfl⟩ := mem_buildIntervals.1 hi
  have hmono : ∀ (l : List Extension) (ext : Extents),
      (∀ v s t, ext v = some (s, t) → s ≤ t) → ∀ v s t, l.foldl extend ext v = some (s, t) → s ≤ t := by
    intro l
    induction l with
    | nil => exact fun ext h => h
    | cons e l ih =>
      intro ext h
      refine ih _ fun v s t hv => ?_
      rw [extend] at hv
      split_ifs at hv
      · split at hv
        · obtain ⟨rfl, rfl⟩ := Prod.mk.inj (Option.some.inj hv)
          exact le_refl _
        · rename_i s' t' he
          obtain ⟨rfl, rfl⟩ := Prod.mk.inj (Option.some.inj hv)
          have := h v s' t' he
          omega
      · exact h v s t hv
  exact hmono _ _ (by simp) v s t hst

/-! ## The machine verifier agrees -/

theorem checkNeighbours_eq_nil (name : String) (reg : PhysReg) {l : List Interval}
    (h : l.Pairwise fun a b => a.end < b.start) : checkNeighbours name reg l = [] := by
  induction l with
  | nil => rfl
  | cons a l ih =>
    cases l with
    | nil => rfl
    | cons b l =>
      rw [List.pairwise_cons] at h
      have hab := h.1 b List.mem_cons_self
      rw [checkNeighbours, if_neg (by omega), ih h.2, List.append_nil]

theorem checkKills_eq_nil (name : String) (reg : PhysReg) {interval : Interval} {a : Assignment}
    {ks : List KillRange} (h : ∀ k ∈ ks, k.meets interval →
      k.isCallClobber = true ∧ a.saveAroundCalls = true ∧ crosses interval (k.fromPos / 4) = true) :
    checkKills name reg interval a ks = [] := by
  induction ks with
  | nil => rfl
  | cons k ks ih =>
    have hrest := ih fun k' hk' => h k' (List.mem_cons_of_mem _ hk')
    rw [checkKills]
    split_ifs with h1 h2 h3
    · rfl
    · exact hrest
    · rw [hrest]
      rfl
    · obtain ⟨hc, hs, hx⟩ := h k List.mem_cons_self ⟨by omega, by omega⟩
      simp [hc, hs, hx] at h3

/-- The verifier finds nothing in an assignment that meets the specification. -/
theorem machineVerify_eq_nil (name : String) {kills : PhysReg → List KillRange}
    {intervals : List Interval} {values : ValueId → Assignment} {areas : Nat} {cs : List Reg}
    (h : ScanSpec kills intervals values areas cs) (hle : ∀ i ∈ intervals, i.start ≤ i.end) :
    machineVerify name kills intervals values = [] := by
  rw [machineVerify, List.append_eq_nil_iff, List.flatMap_eq_nil_iff, List.flatMap_eq_nil_iff]
  constructor
  · intro i hi
    cases hv : values i.value with
    | mk spilled reg save spillIndex saveIndex =>
      have := h.assigned i hi
      rw [hv] at this
      cases this <;> simp
  · intro reg _
    have : IsTrans Interval fun a b => a.start ≤ b.start := ⟨fun _ _ _ => Nat.le_trans⟩
    have : Std.Total (α := Interval) fun a b => a.start ≤ b.start := ⟨fun _ _ => Nat.le_total _ _⟩
    set holders := intervals.filter fun interval =>
      !(values interval.value).spilled && (values interval.value).reg = some reg with hholders
    have hmem : ∀ i ∈ holders, i ∈ intervals ∧ (values i.value).reg = some reg := by
      intro i hi
      rw [hholders, List.mem_filter, Bool.and_eq_true, decide_eq_true_eq] at hi
      exact ⟨hi.1, hi.2.2⟩
    -- the holders of one register are pairwise apart, in any order
    have hapart : (holders.insertionSort fun a b => a.start ≤ b.start).Pairwise Interval.Apart := by
      refine (List.perm_insertionSort _ _).symm.pairwise ?_ fun h => h.symm
      refine (h.apart.sublist List.filter_sublist).imp_of_mem fun {i j} hi hj hij => ?_
      have h1 := (hmem i hi).2
      have h2 := (hmem j hj).2
      exact hij (h1.trans h2.symm) (by rw [h1]; simp)
    have hmem' : ∀ i ∈ holders.insertionSort fun a b => a.start ≤ b.start, i ∈ holders := fun i hi =>
      (List.mem_insertionSort _).1 hi
    simp only [List.append_eq_nil_iff, List.flatMap_eq_nil_iff]
    constructor
    · refine checkNeighbours_eq_nil name reg ?_
      refine ((List.pairwise_insertionSort _ holders).and hapart).imp_of_mem ?_
      intro a b ha hb hab
      obtain ⟨hs, ha' | hb'⟩ := hab
      · exact ha'
      · have := hle b (hmem b (hmem' b hb)).1
        omega
    · intro i hi
      obtain ⟨hi', hr⟩ := hmem i (hmem' i hi)
      refine checkKills_eq_nil name reg fun k hk hm => ?_
      have hassigned := h.assigned i hi'
      cases hv : values i.value with
      | mk spilled reg' save spillIndex saveIndex =>
        rw [hv] at hassigned hr
        cases hassigned with
        | spilled k hk => simp at hr
        | inReg reg' save hreg hkill hsave =>
          obtain rfl := Option.some.inj hr
          obtain ⟨ht, hs⟩ := hkill k hk hm
          exact ⟨ht.1, Option.ne_none_iff_isSome.1 hs, ht.2.2⟩

/-- The allocator reports no error. -/
theorem allocate_errors (module : Module) (fn : Function) (mode : Mode) :
    (allocate module fn mode).errors = [] := by
  cases mode with
  | trivial => rfl
  | linear =>
    exact machineVerify_eq_nil fn.name (allocate_spec module fn .linear) fun _ hi => start_le_end hi

end Mirage.X86

import Mathlib.Algebra.Order.BigOperators.Group.Finset
import Mathlib.Tactic.Ring
import Mirage.X86.Regalloc

/-!
# Liveness and intervals

A value is *live* at a point when some path from there reads it before anything
writes it (`LiveAt`; the parameters of a block are written by the jump to it).

* The rounds of `liveness` end with sets that are closed under the backward
  dataflow equations (`liveness_closed`), so they contain every live value
  (`mem_liveIn_of_live`).
* Every position at which the allocator extends a value lies in the interval it
  builds for it (`covers_of_extension`), so the interval covers every point at which
  the value is live (`live_covers`), read, written or passed.
-/

namespace Mirage.X86

variable {fn : Function}

/-! ## Live values -/

/-- The value `v` is live before the instruction `i` of the block `b`: some path
    from there reads it before anything writes it. The point after the last
    instruction is the way to the successors. -/
inductive LiveAt (fn : Function) (v : ValueId) : BlockId → Nat → Prop
  | use {b i : Nat} {block : Block} {inst : Inst} (hb : fn.blocks[b]? = some block)
      (hi : block.insts[i]? = some inst) (hv : v ∈ forEachUse inst) : LiveAt fn v b i
  | skip {b i : Nat} {block : Block} {inst : Inst} (hb : fn.blocks[b]? = some block)
      (hi : block.insts[i]? = some inst) (hv : inst.result ≠ v) (h : LiveAt fn v b (i + 1)) :
      LiveAt fn v b i
  | edge {b s : Nat} {block target : Block} (hb : fn.blocks[b]? = some block)
      (hs : s ∈ block.successors) (ht : fn.blocks[s]? = some target) (hv : v ∉ target.params)
      (h : LiveAt fn v s 0) : LiveAt fn v b block.insts.length

/-! ## The rounds end -/

/-- The number of set members, over all blocks. -/
def LiveSets.size (fn : Function) (s : LiveSets) : Nat :=
  ∑ b ∈ Finset.range fn.blocks.length, ((s.liveIn b).card + (s.liveOut b).card)

/-- Only values that are read somewhere are in the sets. -/
def LiveSets.Bounded (fn : Function) (s : LiveSets) : Prop :=
  ∀ b, s.liveIn b ⊆ usedValues fn ∧ s.liveOut b ⊆ usedValues fn

theorem mem_foldl_union {α : Type*} (f : α → Finset ValueId) (l : List α) (init : Finset ValueId)
    (v : ValueId) :
    v ∈ l.foldl (fun out a => out ∪ f a) init ↔ v ∈ init ∨ ∃ a ∈ l, v ∈ f a := by
  induction l generalizing init with
  | nil => simp
  | cons a l ih =>
    rw [List.foldl_cons, ih, Finset.mem_union, List.exists_mem_cons_iff, or_assoc]

theorem mem_foldl_gen (defs : Finset ValueId) (l : List ValueId) (init : Finset ValueId)
    (v : ValueId) :
    v ∈ l.foldl (fun gen w => if w ∈ defs then gen else insert w gen) init ↔
      v ∈ init ∨ v ∈ l ∧ v ∉ defs := by
  induction l generalizing init with
  | nil => simp
  | cons w l ih =>
    rw [List.foldl_cons, ih]
    split_ifs with hw
    · constructor
      · rintro (h | h)
        · exact .inl h
        · exact .inr ⟨List.mem_cons_of_mem _ h.1, h.2⟩
      · rintro (h | ⟨h, hv⟩)
        · exact .inl h
        · rcases List.mem_cons.1 h with rfl | h
          · exact absurd hw hv
          · exact .inr ⟨h, hv⟩
    · constructor
      · rintro (h | h)
        · rcases Finset.mem_insert.1 h with rfl | h
          · exact .inr ⟨List.mem_cons_self, hw⟩
          · exact .inl h
        · exact .inr ⟨List.mem_cons_of_mem _ h.1, h.2⟩
      · rintro (h | ⟨h, hv⟩)
        · exact .inl (Finset.mem_insert_of_mem h)
        · rcases List.mem_cons.1 h with rfl | h
          · exact .inl (Finset.mem_insert_self _ _)
          · exact .inr ⟨h, hv⟩

/-- The walk over a block, from any state: what it reads and what it defines. -/
theorem genDef_foldl (insts : List Inst) (s : GenDef) (v : ValueId) :
    (v ∈ (insts.foldl GenDef.inst s).gen ↔ v ∈ s.gen ∨ v ∉ s.defs ∧
      ∃ (i : Nat) (inst : Inst), insts[i]? = some inst ∧ v ∈ forEachUse inst ∧
        ∀ j < i, ∀ inst' : Inst, insts[j]? = some inst' → inst'.result = v →
          inst'.result = noValue) ∧
    (v ∈ (insts.foldl GenDef.inst s).defs ↔
      v ∈ s.defs ∨ ∃ inst ∈ insts, inst.result = v ∧ inst.result ≠ noValue) := by
  induction insts generalizing s with
  | nil => simp
  | cons inst insts ih =>
    have hdefs : v ∈ (s.inst inst).defs ↔ v ∈ s.defs ∨ inst.result = v ∧ inst.result ≠ noValue := by
      simp only [GenDef.inst]
      split_ifs with h
      · rw [Finset.mem_insert]
        tauto
      · simp [not_not.1 h]
    have hgen : v ∈ (s.inst inst).gen ↔ v ∈ s.gen ∨ v ∈ forEachUse inst ∧ v ∉ s.defs := by
      simp only [GenDef.inst, mem_foldl_gen]
    rw [List.foldl_cons, (ih _).1, (ih _).2, hdefs, hgen]
    constructor
    · constructor
      · rintro ((h | ⟨h, hv⟩) | ⟨hv, i, inst', hi, hu, hno⟩)
        · exact .inl h
        · exact .inr ⟨hv, 0, inst, rfl, h, by simp⟩
        · refine .inr ⟨fun h => hv (.inl h), i + 1, inst', hi, hu, fun j hj inst'' hj' hr => ?_⟩
          cases j with
          | zero =>
            cases hj'
            exact by_contra fun hne => hv (.inr ⟨hr, hne⟩)
          | succ j => exact hno j (by omega) inst'' hj' hr
      · rintro (h | ⟨hv, i, inst', hi, hu, hno⟩)
        · exact .inl (.inl h)
        · cases i with
          | zero =>
            cases hi
            exact .inl (.inr ⟨hu, hv⟩)
          | succ i =>
            refine .inr ⟨?_, i, inst', hi, hu, fun j hj => hno (j + 1) (by omega)⟩
            rintro (h | ⟨h, hne⟩)
            · exact hv h
            · exact hne (hno 0 (by omega) inst rfl h)
    · rw [List.exists_mem_cons_iff]
      tauto

/-- What a block reads before defining it is read somewhere. -/
theorem gen_subset (fn : Function) (b : BlockId) :
    (genDef (fn.blocks.getD b {})).gen ⊆ usedValues fn := by
  intro v hv
  rw [genDef, (genDef_foldl _ _ _).1] at hv
  obtain h | ⟨-, i, inst, hi, hu, -⟩ := hv
  · simp at h
  · have hmem := List.mem_of_getElem? hi
    cases hb : fn.blocks[b]? with
    | none => simp [List.getD_eq_getElem?_getD, hb] at hmem
    | some block =>
      rw [List.getD_eq_getElem?_getD, hb, Option.getD_some] at hmem
      simp only [usedValues, layout, List.mem_toFinset, List.mem_flatMap]
      exact ⟨inst, ⟨block, List.mem_of_getElem? hb, hmem⟩, hu⟩

/-- The visit of a block keeps the sets bounded. -/
theorem liveBlock_bounded {s : LiveSets} (hs : s.Bounded fn) (b : BlockId) :
    (liveBlock fn s b).1.Bounded fn := by
  have hout : (fn.successors b).foldl (fun out succ => out ∪ s.liveIn succ) (s.liveOut b) ⊆
      usedValues fn := by
    intro v hv
    rw [mem_foldl_union] at hv
    rcases hv with h | ⟨a, -, h⟩
    · exact (hs b).2 h
    · exact (hs a).1 h
  intro b'
  simp only [liveBlock]
  constructor
  · split_ifs
    · refine Finset.union_subset (hs b).1 (Finset.union_subset (gen_subset fn b) ?_)
      exact (Finset.sdiff_subset).trans hout
    · exact (hs b').1
  · split_ifs
    · exact hout
    · exact (hs b').2

/-- The visit of a block changes nothing it does not report. -/
theorem liveBlock_eq_of_unchanged {s : LiveSets} {b : BlockId}
    (h : (liveBlock fn s b).2 = false) : (liveBlock fn s b).1 = s := by
  simp only [liveBlock, Bool.or_eq_false_iff, decide_eq_false_iff_not, not_not] at h
  obtain ⟨hout, hin⟩ := h
  rw [hout] at hin
  cases s with
  | mk liveIn liveOut =>
    simp only [liveBlock] at hout hin ⊢
    rw [hout]
    congr 1
    · funext b'
      split_ifs with hb
      · rw [hb]; exact hin
      · rfl
    · funext b'
      split_ifs with hb
      · rw [hb]
      · rfl

/-- The visit of a block only adds members, and adds one if it reports a change. -/
theorem liveBlock_size {s : LiveSets} {b : BlockId} (hb : b < fn.blocks.length) :
    s.size fn ≤ (liveBlock fn s b).1.size fn ∧
      ((liveBlock fn s b).2 = true → s.size fn < (liveBlock fn s b).1.size fn) := by
  have hin : ∀ b', s.liveIn b' ⊆ (liveBlock fn s b).1.liveIn b' := by
    intro b' v hv
    simp only [liveBlock]
    split_ifs with h
    · rw [h] at hv
      exact Finset.mem_union_left _ hv
    · exact hv
  have hout : ∀ b', s.liveOut b' ⊆ (liveBlock fn s b).1.liveOut b' := by
    intro b' v hv
    simp only [liveBlock]
    split_ifs with h
    · rw [h] at hv
      exact (mem_foldl_union _ _ _ _).2 (.inl hv)
    · exact hv
  have hle : ∀ b', (s.liveIn b').card + (s.liveOut b').card ≤
      ((liveBlock fn s b).1.liveIn b').card + ((liveBlock fn s b).1.liveOut b').card := fun b' =>
    Nat.add_le_add (Finset.card_le_card (hin b')) (Finset.card_le_card (hout b'))
  refine ⟨Finset.sum_le_sum fun b' _ => hle b', fun hc => ?_⟩
  refine Finset.sum_lt_sum (fun b' _ => hle b') ⟨b, Finset.mem_range.2 hb, ?_⟩
  -- one of the two sets of `b` is a strict superset
  by_cases hne : (liveBlock fn s b).1.liveOut b = s.liveOut b
  · have : (liveBlock fn s b).1.liveIn b ≠ s.liveIn b := by
      intro heq
      simp only [liveBlock, if_true] at hne heq hc
      simp [hne] at heq hc
      exact hc heq
    have := Finset.card_lt_card (lt_of_le_of_ne (hin b) this.symm)
    have := Finset.card_le_card (hout b)
    omega
  · have := Finset.card_lt_card (lt_of_le_of_ne (hout b) (Ne.symm hne))
    have := Finset.card_le_card (hin b)
    omega

/-- A round over blocks: it keeps the bound, only adds members, and if it reports
    no change then no visit did. -/
theorem liveRound_spec (blocks : List BlockId) (hblocks : ∀ b ∈ blocks, b < fn.blocks.length)
    (s : LiveSets) :
    (s.Bounded fn → (liveRound fn blocks s).1.Bounded fn) ∧
    s.size fn ≤ (liveRound fn blocks s).1.size fn ∧
    ((liveRound fn blocks s).2 = true → s.size fn < (liveRound fn blocks s).1.size fn) ∧
    ((liveRound fn blocks s).2 = false → (liveRound fn blocks s).1 = s ∧
      ∀ b ∈ blocks, (liveBlock fn s b).2 = false) := by
  suffices h : ∀ c : Bool,
      let r := blocks.foldl (fun acc b => ((liveBlock fn acc.1 b).1, acc.2 || (liveBlock fn acc.1 b).2))
        (s, c)
      (s.Bounded fn → r.1.Bounded fn) ∧ s.size fn ≤ r.1.size fn ∧
      (c = false → r.2 = true → s.size fn < r.1.size fn) ∧
      (r.2 = false → c = false ∧ r.1 = s ∧ ∀ b ∈ blocks, (liveBlock fn s b).2 = false) by
    obtain ⟨h1, h2, h3, h4⟩ := h false
    exact ⟨h1, h2, h3 rfl, fun h => (h4 h).2⟩
  induction blocks generalizing s with
  | nil => intro c; simp
  | cons b blocks ih =>
    intro c
    have hb := liveBlock_size (s := s) (hblocks b List.mem_cons_self)
    obtain ⟨h1, h2, h3, h4⟩ := ih (fun b' hb' => hblocks b' (List.mem_cons_of_mem _ hb'))
      (liveBlock fn s b).1 (c || (liveBlock fn s b).2)
    refine ⟨fun h => h1 (liveBlock_bounded h b), hb.1.trans h2, fun hc hr => ?_, fun hr => ?_⟩
    · cases hch : (liveBlock fn s b).2 with
      | true => exact lt_of_lt_of_le (hb.2 hch) h2
      | false => exact lt_of_le_of_lt hb.1 (h3 (by rw [hc, hch]; rfl) hr)
    · obtain ⟨hc, heq, hrest⟩ := h4 hr
      rw [Bool.or_eq_false_iff] at hc
      have hsame := liveBlock_eq_of_unchanged hc.2
      refine ⟨hc.1, heq.trans hsame, fun b' hb' => ?_⟩
      rw [hsame] at hrest
      rcases List.mem_cons.1 hb' with rfl | hb'
      · exact hc.2
      · exact hrest b' hb'

/-- The live sets are closed: what a successor needs leaves the block, and what the
    block reads or lets through enters it. -/
structure LiveSets.Closed (fn : Function) (s : LiveSets) : Prop where
  out : ∀ b < fn.blocks.length, ∀ succ ∈ fn.successors b, s.liveIn succ ⊆ s.liveOut b
  gen : ∀ b < fn.blocks.length, (genDef (fn.blocks.getD b {})).gen ⊆ s.liveIn b
  through : ∀ b < fn.blocks.length,
    s.liveOut b \ (genDef (fn.blocks.getD b {})).defs ⊆ s.liveIn b

/-- The rounds end with sets that are bounded and closed. -/
theorem liveness_spec (fn : Function) :
    (liveness fn).Bounded fn ∧ (liveness fn).Closed fn := by
  have hrange : ∀ b ∈ (List.range fn.blocks.length).reverse, b < fn.blocks.length := by
    intro b hb
    simpa using hb
  -- the measure is bounded by the size of all sets when full
  have hle : ∀ s : LiveSets, s.Bounded fn →
      s.size fn ≤ 2 * fn.blocks.length * (usedValues fn).card := by
    intro s hs
    calc s.size fn
        ≤ ∑ _b ∈ Finset.range fn.blocks.length, 2 * (usedValues fn).card := by
          refine Finset.sum_le_sum fun b _ => ?_
          have h1 := Finset.card_le_card (hs b).1
          have h2 := Finset.card_le_card (hs b).2
          omega
      _ = 2 * fn.blocks.length * (usedValues fn).card := by
          rw [Finset.sum_const, Finset.card_range, Nat.nsmul_eq_mul]
          ring
  obtain ⟨y, hy, hyc, heq⟩ := whileChanged_stable
    (LiveSets.Bounded fn) (LiveSets.size fn)
    (fun s hs => (liveRound_spec _ hrange s).1 hs)
    (fun s _ hc => (liveRound_spec _ hrange s).2.2.1 hc) hle
    (2 * fn.blocks.length * (usedValues fn).card + 1) ⟨fun _ => ∅, fun _ => ∅⟩
    (fun b => by simp) (by omega)
  obtain ⟨hsame, hstable⟩ := (liveRound_spec _ hrange y).2.2.2 hyc
  rw [hsame] at heq
  rw [liveness, heq]
  refine ⟨hy, ?_⟩
  have hblock : ∀ b < fn.blocks.length, (liveBlock fn y b).2 = false := fun b hb =>
    hstable b (by simpa using hb)
  constructor
  · intro b hb succ hsucc v hv
    have h := hblock b hb
    simp only [liveBlock, Bool.or_eq_false_iff, decide_eq_false_iff_not, not_not] at h
    rw [← h.1]
    exact (mem_foldl_union _ _ _ _).2 (.inr ⟨succ, hsucc, hv⟩)
  · intro b hb v hv
    have h := hblock b hb
    simp only [liveBlock, Bool.or_eq_false_iff, decide_eq_false_iff_not, not_not] at h
    rw [← h.2]
    exact Finset.mem_union_right _ (Finset.mem_union_left _ hv)
  · intro b hb v hv
    have h := hblock b hb
    simp only [liveBlock, Bool.or_eq_false_iff, decide_eq_false_iff_not, not_not] at h
    rw [h.1] at h
    rw [← h.2]
    exact Finset.mem_union_right _ (Finset.mem_union_right _ hv)

theorem liveness_closed (fn : Function) : (liveness fn).Closed fn := (liveness_spec fn).2

/-! ## Live values are in the sets -/

/-- The name is the name of a value of the function. -/
def IsValue (fn : Function) (v : ValueId) : Prop := v ≠ noValue ∧ v < fn.values.length

/-- No instruction of the block from `i` up to `j` writes `v`. -/
def NotWritten (block : Block) (v : ValueId) (i j : Nat) : Prop :=
  ∀ k, i ≤ k → k < j → ∀ inst : Inst, block.insts[k]? = some inst → inst.result ≠ v

/-- From `i` on, the block reads `v` before writing it, or lets it through. -/
def Needs (fn : Function) (b : BlockId) (block : Block) (v : ValueId) (i : Nat) : Prop :=
  (∃ j inst, i ≤ j ∧ block.insts[j]? = some inst ∧ v ∈ forEachUse inst ∧ NotWritten block v i j) ∨
    (v ∈ (liveness fn).liveOut b ∧ NotWritten block v i block.insts.length)

theorem successors_of_getElem? {b : BlockId} {block : Block} (hb : fn.blocks[b]? = some block) :
    fn.successors b = block.successors := by
  rw [Function.successors, List.getD_eq_getElem?_getD, hb, Option.getD_some]

/-- What a block needs and neither is a parameter nor written before enters it. -/
theorem Needs.mem_liveIn {b i : Nat} {block : Block} {v : ValueId} (h : Needs fn b block v i)
    (hb : fn.blocks[b]? = some block) (hparam : v ∉ block.params)
    (hnew : NotWritten block v 0 i) : v ∈ (liveness fn).liveIn b := by
  have hlt := (List.getElem?_eq_some_iff.1 hb).1
  have hblock : fn.blocks.getD b {} = block := by
    rw [List.getD_eq_getElem?_getD, hb, Option.getD_some]
  have hparam' : v ∉ block.params.toFinset := by rwa [List.mem_toFinset]
  rcases h with ⟨j, inst, hij, hj, hu, hw⟩ | ⟨hout, hw⟩
  · refine (liveness_closed fn).gen b hlt ?_
    rw [hblock, genDef, (genDef_foldl _ _ _).1]
    refine .inr ⟨hparam', j, inst, hj, hu, fun k hk inst' hk' hr => ?_⟩
    rcases Nat.lt_or_ge k i with hki | hki
    · exact absurd hr (hnew k (Nat.zero_le _) hki inst' hk')
    · exact absurd hr (hw k hki hk inst' hk')
  · refine (liveness_closed fn).through b hlt ?_
    rw [hblock, Finset.mem_sdiff]
    refine ⟨hout, fun hdef => ?_⟩
    rw [genDef, (genDef_foldl _ _ _).2] at hdef
    obtain h | ⟨inst, hmem, hr, -⟩ := hdef
    · exact hparam' h
    · obtain ⟨k, hk, rfl⟩ := List.mem_iff_getElem.1 hmem
      have hk' := List.getElem?_eq_getElem hk
      rcases Nat.lt_or_ge k i with hki | hki
      · exact hnew k (Nat.zero_le _) hki _ hk' hr
      · exact hw k hki hk _ hk' hr

/-- A block needs what is live in it. -/
theorem LiveAt.needs {b i : Nat} {v : ValueId} (h : LiveAt fn v b i) {block : Block}
    (hb : fn.blocks[b]? = some block) : Needs fn b block v i := by
  induction h generalizing block with
  | @use b i block' inst hb' hi hv =>
    rw [hb', Option.some.injEq] at hb
    subst hb
    exact .inl ⟨i, inst, le_refl _, hi, hv, fun k h1 h2 => absurd h2 (by omega)⟩
  | @skip b i block' inst hb' hi hv _ ih =>
    rw [hb', Option.some.injEq] at hb
    subst hb
    have hstep : ∀ {j}, NotWritten block' v (i + 1) j → NotWritten block' v i j := by
      intro j hw k h1 h2 inst' hk
      rcases Nat.eq_or_lt_of_le h1 with rfl | h1
      · rw [hi, Option.some.injEq] at hk
        exact hk ▸ hv
      · exact hw k h1 h2 inst' hk
    rcases ih hb' with ⟨j, inst', hij, hj, hu, hw⟩ | ⟨hout, hw⟩
    · exact .inl ⟨j, inst', by omega, hj, hu, hstep hw⟩
    · exact .inr ⟨hout, hstep hw⟩
  | @edge b s block' target hb' hs ht hv _ ih =>
    rw [hb', Option.some.injEq] at hb
    subst hb
    have hin := (ih ht).mem_liveIn ht hv fun k _ h2 => absurd h2 (Nat.not_lt_zero k)
    refine .inr ⟨?_, fun k h1 h2 => absurd h2 (by omega)⟩
    exact (liveness_closed fn).out b (List.getElem?_eq_some_iff.1 hb').1 s
      (by rwa [successors_of_getElem? hb']) hin

/-! ## Intervals cover the recorded positions -/

/-- The position lies in the interval of the value. -/
def Covers (fn : Function) (v : ValueId) (pos : Nat) : Prop :=
  ∃ interval ∈ buildIntervals fn, interval.value = v ∧ interval.start ≤ pos ∧ pos ≤ interval.end

/-- The extent of each value after all extensions. -/
def extents (fn : Function) : Extents := (extensions fn).foldl extend fun _ => none

/-- The intervals are the extents of the values. -/
theorem mem_buildIntervals {interval : Interval} :
    interval ∈ buildIntervals fn ↔
      ∃ v s t, v < fn.values.length ∧ extents fn v = some (s, t) ∧ interval = mkInterval fn v s t := by
  rw [buildIntervals, List.mem_insertionSort, List.mem_filterMap]
  constructor
  · rintro ⟨v, hv, he⟩
    obtain ⟨⟨s, t⟩, hst, rfl⟩ := Option.map_eq_some_iff.1 he
    exact ⟨v, s, t, List.mem_range.1 hv, hst, rfl⟩
  · rintro ⟨v, s, t, hv, hst, rfl⟩
    exact ⟨v, List.mem_range.2 hv, by rw [← extents, hst]; rfl⟩

/-- A value has at most one interval. -/
theorem interval_unique {i j : Interval} (hi : i ∈ buildIntervals fn) (hj : j ∈ buildIntervals fn)
    (h : i.value = j.value) : i = j := by
  obtain ⟨v, s, t, -, hst, rfl⟩ := mem_buildIntervals.1 hi
  obtain ⟨w, s', t', -, hst', rfl⟩ := mem_buildIntervals.1 hj
  obtain rfl : v = w := h
  rw [hst, Option.some.injEq, Prod.mk.injEq] at hst'
  rw [hst'.1, hst'.2]

/-- Extending only widens. -/
theorem extend_foldl_mono (l : List Extension) {ext : Extents} {v : ValueId} {s t : Nat}
    (h : ext v = some (s, t)) : ∃ s' t', l.foldl extend ext v = some (s', t') ∧ s' ≤ s ∧ t ≤ t' := by
  induction l generalizing ext s t with
  | nil => exact ⟨s, t, h, le_refl _, le_refl _⟩
  | cons e l ih =>
    by_cases hv : v = e.1
    · obtain ⟨s', t', h', hs, ht⟩ := ih (s := min s e.2) (t := max t e.2)
        (show extend ext e v = _ by rw [extend, if_pos hv, h])
      exact ⟨s', t', h', by omega, by omega⟩
    · exact ih (by rw [extend, if_neg hv, h])

/-- Every extension is inside the final extent. -/
theorem extend_foldl_covers (l : List Extension) (ext : Extents) {e : Extension} (he : e ∈ l) :
    ∃ s t, l.foldl extend ext e.1 = some (s, t) ∧ s ≤ e.2 ∧ e.2 ≤ t := by
  induction l generalizing ext with
  | nil => simp at he
  | cons e' l ih =>
    rcases List.mem_cons.1 he with rfl | he
    · cases hext : ext e.1 with
      | none =>
        exact extend_foldl_mono l (by rw [extend, if_pos rfl, hext])
      | some st =>
        obtain ⟨s', t', h, hs, ht⟩ := extend_foldl_mono l
          (s := min st.1 e.2) (t := max st.2 e.2)
          (show extend ext e e.1 = _ by rw [extend, if_pos rfl, hext])
        exact ⟨s', t', h, by omega, by omega⟩
    · exact ih (extend ext e') he

/-- The ends of an extent are recorded positions. -/
theorem extend_foldl_mem (l : List Extension) {ext : Extents} {v s t : Nat}
    (h : l.foldl extend ext v = some (s, t)) :
    ((v, s) ∈ l ∨ ∃ t', ext v = some (s, t')) ∧ ((v, t) ∈ l ∨ ∃ s', ext v = some (s', t)) := by
  induction l generalizing ext with
  | nil => exact ⟨.inr ⟨t, h⟩, .inr ⟨s, h⟩⟩
  | cons e l ih =>
    obtain ⟨hs, ht⟩ := ih h
    have hstep : ∀ {s t}, extend ext e v = some (s, t) →
        ((v, s) = e ∨ ∃ t', ext v = some (s, t')) ∧ ((v, t) = e ∨ ∃ s', ext v = some (s', t)) := by
      intro s t h
      rw [extend] at h
      split_ifs at h with hv
      · subst hv
        split at h
        · obtain ⟨rfl, rfl⟩ := Prod.mk.inj (Option.some.inj h)
          exact ⟨.inl rfl, .inl rfl⟩
        · rename_i s' t' hext
          obtain ⟨rfl, rfl⟩ := Prod.mk.inj (Option.some.inj h)
          constructor
          · rcases Nat.le_total s' e.2 with hle | hle
            · exact .inr ⟨t', by rw [hext, Nat.min_eq_left hle]⟩
            · exact .inl (by rw [Nat.min_eq_right hle])
          · rcases Nat.le_total t' e.2 with hle | hle
            · exact .inl (by rw [Nat.max_eq_right hle])
            · exact .inr ⟨s', by rw [hext, Nat.max_eq_left hle]⟩
      · exact ⟨.inr ⟨t, h⟩, .inr ⟨s, h⟩⟩
    constructor
    · rcases hs with hs | ⟨t', hs⟩
      · exact .inl (List.mem_cons_of_mem _ hs)
      · rcases (hstep hs).1 with rfl | h
        · exact .inl List.mem_cons_self
        · exact .inr h
    · rcases ht with ht | ⟨s', ht⟩
      · exact .inl (List.mem_cons_of_mem _ ht)
      · rcases (hstep ht).2 with rfl | h
        · exact .inl List.mem_cons_self
        · exact .inr h

/-- The start of an interval is a recorded position of its value. -/
theorem start_mem_extensions {i : Interval} (hi : i ∈ buildIntervals fn) :
    (i.value, i.start) ∈ extensions fn := by
  obtain ⟨v, s, t, -, hst, rfl⟩ := mem_buildIntervals.1 hi
  exact (extend_foldl_mem _ hst).1.resolve_right (by simp)

/-- A recorded position is covered. -/
theorem covers_of_extension {v pos : Nat} (hv : v < fn.values.length)
    (h : (v, pos) ∈ extensions fn) : Covers fn v pos := by
  obtain ⟨s, t, hst, hs, ht⟩ := extend_foldl_covers (extensions fn) (fun _ => none) h
  exact ⟨mkInterval fn v s t, mem_buildIntervals.2 ⟨v, s, t, hv, hst, rfl⟩, rfl, hs, ht⟩

/-- Intervals have no holes. -/
theorem Covers.between {v p q r : Nat} (hp : Covers fn v p) (hr : Covers fn v r) (hpq : p ≤ q)
    (hqr : q ≤ r) : Covers fn v q := by
  obtain ⟨i, hi, hiv, h1, -⟩ := hp
  obtain ⟨j, hj, hjv, -, h2⟩ := hr
  obtain rfl := interval_unique hi hj (hiv.trans hjv.symm)
  exact ⟨i, hi, hiv, h1.trans hpq, hqr.trans h2⟩

/-! ## The recorded positions -/

/-- The index of the first instruction of a block, in layout order. -/
def firstIndex (fn : Function) (b : BlockId) : Nat :=
  ((fn.blocks.take b).map (·.insts.length)).sum

theorem indexBlocks_getElem? (blocks : List Block) (k b : Nat) {block : Block}
    (hb : blocks[b]? = some block) :
    (indexBlocks k blocks)[b]? = some
      ⟨k + ((blocks.take b).map (·.insts.length)).sum,
        k + ((blocks.take b).map (·.insts.length)).sum + block.insts.length - 1⟩ := by
  induction blocks generalizing k b with
  | nil => simp at hb
  | cons block' blocks ih =>
    cases b with
    | zero =>
      simp only [List.getElem?_cons_zero, Option.some.injEq] at hb
      subst hb
      simp [indexBlocks]
    | succ b =>
      rw [List.getElem?_cons_succ] at hb
      rw [indexBlocks, List.getElem?_cons_succ, ih _ _ hb]
      simp only [List.take_succ_cons, List.map_cons, List.sum_cons, Option.some.injEq,
        BlockSpan.mk.injEq]
      omega

/-- The recorded positions of a block are recorded. -/
theorem mem_extensions {b : BlockId} {block : Block} (hb : fn.blocks[b]? = some block)
    {e : Extension}
    (he : e ∈ blockExtensions fn (liveness fn) b block
      ⟨firstIndex fn b, firstIndex fn b + block.insts.length - 1⟩) : e ∈ extensions fn := by
  rw [extensions, List.mem_flatMap]
  refine ⟨((block, ⟨firstIndex fn b, firstIndex fn b + block.insts.length - 1⟩), b), ?_, he⟩
  rw [List.mem_zipIdx_iff_getElem?]
  have hspan := indexBlocks_getElem? fn.blocks 0 b hb
  simp only [Nat.zero_add] at hspan
  simp only [List.getElem?_zip_eq_some]
  exact ⟨hb, hspan⟩

section Positions

variable {b : BlockId} {block : Block} {i : Nat} {inst : Inst} {v : ValueId}

theorem instExtension_mem (hb : fn.blocks[b]? = some block) (hi : block.insts[i]? = some inst)
    {e : Extension} (he : e ∈ instExtensions fn inst (firstIndex fn b + i)) :
    e ∈ extensions fn := by
  refine mem_extensions hb ?_
  simp only [blockExtensions, List.mem_append, List.mem_flatMap]
  refine .inr ⟨(inst, firstIndex fn b + i), ?_, he⟩
  rw [List.mem_zipIdx_iff_le_and_getElem?_sub]
  exact ⟨Nat.le_add_right _ _, by simpa using hi⟩

/-- An operand is covered where it is read. -/
theorem use_covers (hb : fn.blocks[b]? = some block) (hi : block.insts[i]? = some inst)
    (hv : IsValue fn v) (hu : v ∈ forEachUse inst) : Covers fn v (posU (firstIndex fn b + i)) := by
  refine covers_of_extension hv.2 (instExtension_mem hb hi ?_)
  simp only [instExtensions, List.mem_append, List.mem_map]
  exact .inl (.inl ⟨v, hu, rfl⟩)

/-- Where an instruction writes its result. -/
def defPos (inst : Inst) (index : Nat) : Nat :=
  if isCallLike inst.op || inst.op == .asm then posL index else posU index

/-- A result is covered where it is written. -/
theorem def_covers (hb : fn.blocks[b]? = some block) (hi : block.insts[i]? = some inst)
    (hv : IsValue fn inst.result) :
    Covers fn inst.result (defPos inst (firstIndex fn b + i)) := by
  refine covers_of_extension hv.2 (instExtension_mem hb hi ?_)
  simp only [instExtensions, List.mem_append, if_pos hv.1, List.mem_singleton]
  exact .inl (.inr rfl)

/-- The parameters of a block are covered at its start, -/
theorem param_covers (hb : fn.blocks[b]? = some block) (hv : IsValue fn v) (hp : v ∈ block.params) :
    Covers fn v (posE (firstIndex fn b)) := by
  refine covers_of_extension hv.2 (mem_extensions hb ?_)
  simp only [blockExtensions, List.mem_append, List.mem_map]
  exact .inl (.inr ⟨v, hp, rfl⟩)

/-- and where a jump to the block writes them. -/
theorem jump_covers (hb : fn.blocks[b]? = some block) (hi : block.insts[i]? = some inst)
    (hop : inst.op = .jump) {target : Block} (ht : fn.blocks[inst.a]? = some target)
    (hv : IsValue fn v) (hp : v ∈ target.params) :
    Covers fn v (posL (firstIndex fn b + i)) := by
  refine covers_of_extension hv.2 (instExtension_mem hb hi ?_)
  simp only [instExtensions, List.mem_append, hop, beq_self_eq_true, if_true, List.mem_map,
    List.getD_eq_getElem?_getD, ht, Option.getD_some]
  exact .inr ⟨v, hp, rfl⟩

theorem liveIn_covers (hb : fn.blocks[b]? = some block) (hv : IsValue fn v)
    (h : v ∈ (liveness fn).liveIn b) : Covers fn v (posE (firstIndex fn b)) := by
  refine covers_of_extension hv.2 (mem_extensions hb ?_)
  simp only [blockExtensions, List.mem_append, List.mem_map, List.mem_filter, List.mem_range,
    decide_eq_true_eq]
  exact .inl (.inl (.inl ⟨v, ⟨hv.2, h⟩, rfl⟩))

theorem liveOut_covers (hb : fn.blocks[b]? = some block) (hv : IsValue fn v)
    (h : v ∈ (liveness fn).liveOut b) :
    Covers fn v (posL (firstIndex fn b + block.insts.length - 1)) := by
  refine covers_of_extension hv.2 (mem_extensions hb ?_)
  simp only [blockExtensions, List.mem_append, List.mem_flatMap, List.mem_filter, List.mem_range,
    decide_eq_true_eq, List.mem_singleton]
  exact .inl (.inl (.inr ⟨v, ⟨hv.2, h⟩, .inr rfl⟩))

theorem defPos_le (inst : Inst) (index : Nat) : defPos inst index ≤ posL index := by
  rw [defPos]
  split_ifs <;> simp [posL, posU]

theorem le_defPos (inst : Inst) (index : Nat) : posU index ≤ defPos inst index := by
  rw [defPos]
  split_ifs <;> simp [posL, posU]

/-- What a block needs from `i` on and holds before `i` is covered before `i`. -/
theorem Needs.covers (h : Needs fn b block v i) (hb : fn.blocks[b]? = some block)
    (hv : IsValue fn v) (hi : i < block.insts.length) :
    Covers fn v (posE (firstIndex fn b + i)) := by
  -- a covered position at or after the point
  obtain ⟨q, hq, hle⟩ : ∃ q, Covers fn v q ∧ posE (firstIndex fn b + i) ≤ q := by
    rcases h with ⟨j, inst, hij, hj, hu, -⟩ | ⟨hout, -⟩
    · exact ⟨_, use_covers hb hj hv hu, by simp only [posE, posU]; omega⟩
    · exact ⟨_, liveOut_covers hb hv hout, by simp only [posE, posL]; omega⟩
  -- and one at or before it
  obtain ⟨p, hp, hle'⟩ : ∃ p, Covers fn v p ∧ p ≤ posE (firstIndex fn b + i) := by
    by_cases hnew : NotWritten block v 0 i
    · by_cases hparam : v ∈ block.params
      · exact ⟨_, param_covers hb hv hparam, by simp only [posE]; omega⟩
      · exact ⟨_, liveIn_covers hb hv (h.mem_liveIn hb hparam hnew), by simp only [posE]; omega⟩
    · simp only [NotWritten, not_forall, not_not] at hnew
      obtain ⟨k, -, hki, inst, hk, rfl⟩ := hnew
      refine ⟨_, def_covers hb hk hv, (defPos_le _ _).trans ?_⟩
      simp only [posE, posL]
      omega
  exact hp.between hq hle' hle

/-- A value is covered where it is live. -/
theorem live_covers (h : LiveAt fn v b i) (hb : fn.blocks[b]? = some block) (hv : IsValue fn v)
    (hi : i < block.insts.length) : Covers fn v (posE (firstIndex fn b + i)) :=
  (h.needs hb).covers hb hv hi

/-- A recorded position of a value that is read nowhere is one where it is written:
    by an instruction, at the start of its block, or by a jump to it. -/
theorem extension_cases {pos : Nat} (h : (v, pos) ∈ extensions fn) :
    v ∈ usedValues fn ∨
    (∃ b block, fn.blocks[b]? = some block ∧ v ∈ block.params ∧ pos = posE (firstIndex fn b)) ∨
    ∃ b block i inst, fn.blocks[b]? = some block ∧ block.insts[i]? = some inst ∧
      (inst.result = v ∧ pos = defPos inst (firstIndex fn b + i) ∨
        inst.op = .jump ∧ v ∈ (fn.blocks.getD inst.a {}).params ∧ pos = posL (firstIndex fn b + i)) := by
  have hlive := (liveness_spec fn).1
  rw [extensions, List.mem_flatMap] at h
  obtain ⟨⟨⟨block, span⟩, b⟩, hb, h⟩ := h
  rw [List.mem_zipIdx_iff_getElem?, List.getElem?_zip_eq_some] at hb
  obtain ⟨hblock, hspan⟩ := hb
  have hfirst : span.first = firstIndex fn b := by
    rw [indexBlocks_getElem? fn.blocks 0 b hblock, Option.some.injEq] at hspan
    have := congrArg BlockSpan.first hspan
    simp only [Nat.zero_add] at this
    exact this.symm
  simp only [blockExtensions, List.mem_append, List.mem_map, List.mem_flatMap, List.mem_filter,
    decide_eq_true_eq, hfirst] at h
  rcases h with ((⟨w, hw, he⟩ | ⟨w, hw, he⟩) | ⟨param, hp, he⟩) | ⟨⟨inst, index⟩, hi, he⟩
  · exact .inl ((Prod.mk.inj he).1 ▸ (hlive b).1 hw.2)
  · have hwv : v = w := by
      rcases he with he | he
      · split_ifs at he
        · simp at he
        · exact (Prod.mk.inj (List.mem_singleton.1 he)).1
      · exact (Prod.mk.inj (List.mem_singleton.1 he)).1
    exact .inl (hwv ▸ (hlive b).2 hw.2)
  · obtain ⟨rfl, rfl⟩ := Prod.mk.inj he
    exact .inr (.inl ⟨b, block, hblock, hp, rfl⟩)
  · rw [List.mem_zipIdx_iff_le_and_getElem?_sub] at hi
    obtain ⟨hle, hi⟩ := hi
    have hidx : firstIndex fn b + (index - firstIndex fn b) = index := by omega
    simp only [instExtensions, List.mem_append, List.mem_map] at he
    rcases he with (⟨w, hw, he⟩ | he) | he
    · refine .inl ?_
      rw [usedValues, List.mem_toFinset, List.mem_flatMap, ← (Prod.mk.inj he).1]
      exact ⟨inst, List.mem_flatMap.2 ⟨block, List.mem_of_getElem? hblock, List.mem_of_getElem? hi⟩, hw⟩
    · by_cases hr : inst.result ≠ noValue
      · rw [if_pos hr] at he
        obtain ⟨rfl, rfl⟩ := Prod.mk.inj (List.mem_singleton.1 he)
        exact .inr (.inr ⟨b, block, _, inst, hblock, hi, .inl ⟨rfl, by rw [hidx]; rfl⟩⟩)
      · rw [if_neg hr] at he
        simp at he
    · split_ifs at he with hj
      · obtain ⟨param, hp, he⟩ := List.mem_map.1 he
        obtain ⟨rfl, rfl⟩ := Prod.mk.inj he
        exact .inr (.inr ⟨b, block, _, inst, hblock, hi, .inr ⟨by simpa using hj, hp, by rw [hidx]⟩⟩)
      · simp at he

end Positions

end Mirage.X86

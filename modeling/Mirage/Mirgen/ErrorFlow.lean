import Mirage.Mirgen.ErrorUnion

/-!
# Error values across functions

What becomes of an error value that a statement passes on to the caller of a function. An error
type with one member and one with more have payloads of different shapes; in both, a slot
that was written with a failure reads as that member with its bytes
(`ErrorType.read_writeOnly`, `ErrorType.read_writeMember`), and a copy of a slot reads as the
slot (`ErrorType.read_copy`).

* `emitErrorRetag_eq`: retagging writes the member that the source holds, and a failure in
  any case (`leaves_emitErrorRetag_iff`);
* `ErrorType.seenByMatch_iff`: `match` finds the variant of a member by its name, so it sees
  the member exactly when no member in front has the same name;
* `keeps_iff`: when a statement that is accepted keeps the value. An `Ok` of a type with fewer
  members is lost in `return_err`, which retags it as a failure (`returnErr_not_keeps`).
-/

namespace Mirage.Mirgen

open Mirage.Types (ResolvedType Name Member UnionInfo payloadLayout maxSize maxAlign exactTaggedSize)

variable {shape : Shape}

/-! ## Layouts -/

theorem withPayload_sound (info : UnionInfo) {size align : Nat} (hsize : size < 2 ^ 32)
    (halign : Types.AlignOk align) (h : exactTaggedSize size align < 2 ^ 32) :
    4 ≤ variantPayloadOffset (info.withPayload size align) ∧
      variantPayloadOffset (info.withPayload size align) + size ≤
        (info.withPayload size align).size := by
  let m : Member := ⟨"", .invalid, size, align, hsize, halign⟩
  have hsize' : maxSize [m] = size := Nat.zero_max size
  have halign' : maxAlign [m] = max 1 align := rfl
  have hlayout : payloadLayout info [m] = info.withPayload size align := by
    simp only [payloadLayout, UnionInfo.withPayload, hsize', halign']
    rw [show max (max 1 align) 1 = max align 1 by omega, show max 4 (max 1 align) = max 4 align by omega]
  have hsound : Types.PayloadSound [m] (payloadLayout info [m]) := by
    rw [Types.payloadLayout_sound_iff, hsize', halign', exactTaggedSize]
    rwa [show max (max 1 align) 1 = max align 1 by omega, show max 4 (max 1 align) = max 4 align by omega]
  rw [hlayout] at hsound
  exact ⟨hsound.tag, hsound.fits m (List.mem_singleton_self m)⟩

theorem failedExtent_ok (members : List ResolvedType) :
    (failedExtent shape members).1 < 2 ^ 32 ∧ Types.AlignOk (failedExtent shape members).2 := by
  rw [failedExtent.eq_def]
  split
  next m => exact ⟨(shape m).size_lt, (shape m).align_ok⟩
  next =>
    let info : UnionInfo := { isTagged := true, isErrorUnion := true, errorMemberTypes := members }
    exact ⟨@Types.withPayload_size_lt info _ _, Types.alignOk_four.max (Types.maxAlign_ok _)⟩

namespace ErrorType

variable {E E' : ErrorType shape}

theorem four_le_payload (E : ErrorType shape) : 4 ≤ variantPayloadOffset E.info :=
  (withPayload_sound _ (failedExtent_ok E.members).1 (failedExtent_ok E.members).2 E.fits).1

theorem failed_le_size (E : ErrorType shape) :
    variantPayloadOffset E.info + (failedExtent shape E.members).1 ≤ E.size :=
  (withPayload_sound _ (failedExtent_ok E.members).1 (failedExtent_ok E.members).2 E.fits).2

/-- One member, which is the payload. -/
theorem inner_eq_none (h : E.inner = none) :
    ∃ m, E.members = [m] ∧ (failedExtent shape E.members).1 = (shape m).size := by
  rw [inner] at h
  split at h
  next hlen =>
    obtain ⟨m, hm⟩ := List.length_eq_one_iff.1 hlen
    exact ⟨m, hm, by rw [hm, failedExtent]⟩
  next => cases h

/-- More members: the payload is a union in which each of them fits behind a tag. -/
theorem inner_eq_some {u : UnionInfo} (h : E.inner = some u) :
    E.members.length ≠ 1 ∧ (failedExtent shape E.members).1 = u.size ∧
      4 ≤ variantPayloadOffset u ∧
      ∀ m ∈ E.members, variantPayloadOffset u + (shape m).size ≤ u.size := by
  rw [inner] at h
  split at h
  next => cases h
  next hlen =>
    cases h
    have hlt : maxSize (E.members.map shape) ≤ 2 ^ 32 - 1 :=
      Types.maxSize_le fun m _ => Nat.le_sub_one_of_lt m.size_lt
    have hsound := withPayload_sound
      { isTagged := true, isErrorUnion := true, errorMemberTypes := E.members }
      (Nat.lt_of_le_sub_one (by decide) hlt) (Types.maxAlign_ok _) E.inner_fits
    refine ⟨hlen, ?_, hsound.1, fun m hm => ?_⟩
    · rw [failedExtent.eq_def]
      split
      next hm => rw [hm] at hlen; exact absurd rfl hlen
      next => rfl
    · have := Types.size_le_maxSize (List.mem_map_of_mem (f := shape) hm)
      exact (Nat.add_le_add_left this _).trans hsound.2

/-- The layout is given by the members. -/
theorem congr_members (h : E.members = E'.members) :
    E.inner = E'.inner ∧ variantPayloadOffset E.info = variantPayloadOffset E'.info ∧
      E.size = E'.size := by
  obtain ⟨ms, _, _, _, _, _, _⟩ := E
  obtain ⟨ms', _, _, _, _, _, _⟩ := E'
  obtain rfl : ms = ms' := h
  exact ⟨rfl, rfl, rfl⟩

/-! ## Reading -/

theorem tag_eq_some_iff {m : ResolvedType} {i : Nat} : E.tag m = some i ↔ E.members[i]? = some m := by
  rw [tag, List.idxOf?, List.findIdx?_eq_some_iff_getElem, List.getElem?_eq_some_iff]
  constructor
  · rintro ⟨hi, hm, -⟩
    exact ⟨hi, eq_of_beq hm⟩
  · rintro ⟨hi, rfl⟩
    refine ⟨hi, beq_self_eq_true _, fun j hj hm => ?_⟩
    have := (List.Nodup.getElem_inj_iff E.nodup).1 (eq_of_beq hm)
    omega

theorem exists_tag {m : ResolvedType} (h : m ∈ E.members) : ∃ i, E.tag m = some i := by
  obtain ⟨i, hi⟩ := List.mem_iff_getElem?.1 h
  exact ⟨i, tag_eq_some_iff.2 hi⟩

theorem tag_lt {m : ResolvedType} {i : Nat} (h : E.tag m = some i) : i < 2 ^ 32 := by
  have hi := (List.getElem?_eq_some_iff.1 (tag_eq_some_iff.1 h)).1
  have := E.count
  omega

theorem read_ok_iff {b : Blob} {x : Nat} : E.read b x = some .ok ↔ b.load32 x = okTag := by
  rw [read]
  split
  next h => simp [h]
  next h => split <;> simp [h]

/-- The member of a failure, in a union or by itself. -/
theorem memberAt_iff {b : Blob} {x start : Nat} {m : ResolvedType} :
    E.memberAt b x = some (m, start) ↔
      (E.inner = none ∧ E.members = [m] ∧ start = x) ∨
      ∃ u, E.inner = some u ∧ E.members[b.load32 x]? = some m ∧
        start = x + variantPayloadOffset u := by
  rw [memberAt]
  split
  next h =>
    obtain ⟨m', hm', -⟩ := inner_eq_none h
    simp only [hm', h, List.head?_cons, Option.map_some, Option.some.injEq, Prod.mk.injEq,
      List.cons.injEq, and_true, true_and, reduceCtorEq, false_and, exists_false, or_false]
    exact and_congr_right fun _ => eq_comm
  next u h =>
    simp only [h, Option.map_eq_some_iff, Prod.mk.injEq, reduceCtorEq, false_and, false_or,
      Option.some.injEq, exists_eq_left']
    constructor
    · rintro ⟨m', hm', rfl, rfl⟩
      exact ⟨hm', rfl⟩
    · rintro ⟨hm, rfl⟩
      exact ⟨m, hm, rfl, rfl⟩

theorem read_failed_iff {b : Blob} {x : Nat} {m : ResolvedType} {p : List (BitVec 8)} :
    E.read b x = some (.failed m p) ↔ b.load32 x = failedTag ∧
      ∃ start, E.memberAt b (x + variantPayloadOffset E.info) = some (m, start) ∧
        p = b.bytes start (shape m).size := by
  rw [read]
  split
  next h => simp [h, okTag, failedTag]
  next h =>
    split
    next hfailed =>
      simp only [hfailed, Option.map_eq_some_iff, Prod.exists, Outcome.failed.injEq, true_and]
      constructor
      · rintro ⟨m', start, hm', rfl, rfl⟩
        exact ⟨start, hm', rfl⟩
      · rintro ⟨start, hm, rfl⟩
        exact ⟨m, start, hm, rfl, rfl⟩
    next hfailed => simp [hfailed]

/-- A copy of a slot reads as the slot. -/
theorem read_copy {b src : Blob} {d s n x : Nat} {v : Outcome} (hmem : E.members = E'.members)
    (hd : d ≤ x) (hn : x + E.size ≤ d + n) (h : E.read src (s + (x - d)) = some v) :
    E'.read (b.copy d src s n) x = some v := by
  obtain ⟨hinner, hpayload, -⟩ := congr_members hmem
  have hfour := E.four_le_payload
  have hsize := E.failed_le_size
  have htag : (b.copy d src s n).load32 x = src.load32 (s + (x - d)) :=
    Blob.load32_copy_of_inside hd (by omega)
  cases v with
  | ok => rwa [read_ok_iff, htag, ← E.read_ok_iff]
  | failed m p =>
    obtain ⟨hsrc, start, hstart, rfl⟩ := read_failed_iff.1 h
    refine read_failed_iff.2 ⟨htag.trans hsrc, ?_⟩
    simp only [memberAt_iff, ← hinner, ← hpayload, ← hmem]
    rcases memberAt_iff.1 hstart with ⟨hone, hm, rfl⟩ | ⟨u, hu, hm, rfl⟩
    · obtain ⟨m', hm', hext⟩ := inner_eq_none hone
      obtain rfl : m = m' := List.singleton_inj.1 (hm.symm.trans hm')
      refine ⟨_, .inl ⟨hone, hm, rfl⟩, ?_⟩
      rw [Blob.bytes_copy_of_inside (by omega) (by omega)]
      congr 1
      omega
    · obtain ⟨-, hext, hu4, hfits⟩ := inner_eq_some hu
      have := hfits m (List.mem_of_getElem? hm)
      refine ⟨_, .inr ⟨u, hu, ?_, rfl⟩, ?_⟩
      · rw [Blob.load32_copy_of_inside (by omega) (by omega),
          show s + (x + variantPayloadOffset E.info - d) = s + (x - d) + variantPayloadOffset E.info by omega]
        exact hm
      · rw [Blob.bytes_copy_of_inside (by omega) (by omega)]
        congr 1
        omega

/-- A failure that was written with the tag of its member reads as that member. -/
theorem read_writeMember {b src : Blob} {u : UnionInfo} {x i start n : Nat} {m : ResolvedType}
    (hu : E.inner = some u) (hm : E.tag m = some i) (htag : b.load32 x = failedTag)
    (hn : (shape m).size ≤ n) :
    E.read ((b.store32 (x + variantPayloadOffset E.info) i).copy
        (x + variantPayloadOffset E.info + variantPayloadOffset u) src start n) x =
      some (.failed m (src.bytes start (shape m).size)) := by
  have hfour := E.four_le_payload
  obtain ⟨-, -, hu4, -⟩ := inner_eq_some hu
  rw [read_failed_iff, Blob.load32_copy_of_apart (by omega),
    Blob.load32_store32_of_apart (by omega)]
  refine ⟨htag, _, memberAt_iff.2 (.inr ⟨u, hu, ?_, rfl⟩), ?_⟩
  · rw [Blob.load32_copy_of_apart (by omega), Blob.load32_store32 (tag_lt hm)]
    exact tag_eq_some_iff.1 hm
  · rw [Blob.bytes_copy_of_inside (by omega) (by omega), Nat.sub_self, Nat.add_zero]

/-- A failure of the only member. -/
theorem read_writeOnly {b src : Blob} {x start n : Nat} {m : ResolvedType} (hm : E.members = [m])
    (htag : b.load32 x = failedTag) (hn : (shape m).size ≤ n) :
    E.read (b.copy (x + variantPayloadOffset E.info) src start n) x =
      some (.failed m (src.bytes start (shape m).size)) := by
  have hfour := E.four_le_payload
  have hone : E.inner = none := by rw [inner, hm]; rfl
  rw [read_failed_iff, Blob.load32_copy_of_apart (by omega)]
  refine ⟨htag, _, memberAt_iff.2 (.inl ⟨hone, hm, rfl⟩), ?_⟩
  rw [Blob.bytes_copy_of_inside (by omega) (by omega), Nat.sub_self, Nat.add_zero]

/-! ## Matching -/

theorem variantNamed_eq_some_iff {x : Name} {i : Nat} {m : ResolvedType} :
    E.variantNamed x = some (i, m) ↔
      E.members.find? (fun m => (shape m).name == x) = some m ∧ E.members[i]? = some m := by
  simp only [variantNamed, Option.bind_eq_bind, Option.bind_eq_some_iff, Option.pure_def,
    Option.some.injEq, Prod.mk.injEq, ← tag_eq_some_iff]
  constructor
  · rintro ⟨m', hm', j, hj, rfl, rfl⟩
    exact ⟨hm', hj⟩
  · rintro ⟨hm, hi⟩
    exact ⟨m, hm, i, hi, rfl, rfl⟩

/-- The cases of a `match` belong to the members with their tags. -/
theorem lookup_cases {arms : List Name} {i : Nat} {m : ResolvedType}
    (h : (arms.filterMap E.variantNamed).lookup i = some m) :
    ∃ x ∈ arms, E.variantNamed x = some (i, m) := by
  obtain ⟨ws, ws', hws, -⟩ := List.lookup_eq_some_iff.1 h
  have hmem : (i, m) ∈ arms.filterMap E.variantNamed := by
    rw [hws]
    simp
  simpa only [List.mem_filterMap] using hmem

/-- The member is the first one with its name. -/
def First (E : ErrorType shape) (m : ResolvedType) : Prop :=
  E.members.find? (fun m' => (shape m').name == (shape m).name) = some m

/-- What a slot holds is seen by every `match` exactly when no member in front has the same
    name. -/
theorem seenByMatch_iff {b : Blob} {x : Nat} {m : ResolvedType} {p : List (BitVec 8)}
    (h : E.read b x = some (.failed m p)) : E.SeenByMatch b x m p ↔ E.First m := by
  obtain ⟨-, start, hstart, rfl⟩ := read_failed_iff.1 h
  have hfour := E.four_le_payload
  have hsize := E.failed_le_size
  rcases memberAt_iff.1 hstart with ⟨hone, hm, rfl⟩ | ⟨u, hu, hm, rfl⟩
  · refine iff_of_true (fun arms _ => ?_) ?_
    · simp only [dispatch, hone, hm, List.head?_cons, Option.map_some]
    · rw [First, hm, List.find?_cons_of_pos (by simp)]
  · obtain ⟨-, hext, hu4, hfits⟩ := inner_eq_some hu
    have hfit := hfits m (List.mem_of_getElem? hm)
    -- The copy of the union has the tag and the bytes of the member.
    have htag : (Blob.copy (fun _ => 0) 0 b (x + variantPayloadOffset E.info) (max 1 u.size)).load32 0 =
        b.load32 (x + variantPayloadOffset E.info) :=
      Blob.load32_copy_of_inside (Nat.le_refl 0) (by omega)
    have hbytes : (Blob.copy (fun _ => 0) 0 b (x + variantPayloadOffset E.info) (max 1 u.size)).bytes
        (variantPayloadOffset u) (shape m).size =
        b.bytes (x + variantPayloadOffset E.info + variantPayloadOffset u) (shape m).size := by
      rw [Blob.bytes_copy_of_inside (Nat.zero_le _) (by omega), Nat.sub_zero]
    constructor
    · intro hseen
      have hdispatch := hseen [(shape m).name] (List.mem_singleton_self _)
      simp only [dispatch, hu, htag, Option.map_eq_some_iff, Prod.mk.injEq] at hdispatch
      obtain ⟨m', hm', rfl, -⟩ := hdispatch
      obtain ⟨y, hy, hvariant⟩ := lookup_cases hm'
      rw [List.mem_singleton.1 hy] at hvariant
      exact (variantNamed_eq_some_iff.1 hvariant).1
    · intro hfirst arms harm
      have hvariant := variantNamed_eq_some_iff.2 ⟨hfirst, hm⟩
      have hmem : (b.load32 (x + variantPayloadOffset E.info), m) ∈ arms.filterMap E.variantNamed :=
        List.mem_filterMap.2 ⟨_, harm, hvariant⟩
      have hlookup : (arms.filterMap E.variantNamed).lookup
          (b.load32 (x + variantPayloadOffset E.info)) = some m := by
        cases hl : (arms.filterMap E.variantNamed).lookup (b.load32 (x + variantPayloadOffset E.info)) with
        | none => exact absurd rfl (bne_iff_ne.1 (List.lookup_eq_none_iff.1 hl _ hmem))
        | some m' =>
          obtain ⟨y, -, hy⟩ := lookup_cases hl
          exact (variantNamed_eq_some_iff.1 hy).2.symm.trans hm
      simp only [dispatch, hu, htag, hlookup, Option.map_some, hbytes]

end ErrorType

/-! ## Writes -/

variable {target source : ErrorType shape} {src b : Blob}

@[simp] theorem runWrites_nil : runWrites src [] b = b := rfl

@[simp] theorem runWrites_cons (w : Write) (ws : List Write) :
    runWrites src (w :: ws) b = runWrites src ws (w.run src b) := rfl

theorem runWrites_append (ws ws' : List Write) :
    runWrites src (ws ++ ws') b = runWrites src ws' (runWrites src ws b) :=
  List.foldl_append

theorem Code.run_prepend (c : Code) (ws : List Write) :
    (c.prepend ws).run src b = c.run src (runWrites src ws b) := by
  obtain ⟨ws', _ | ⟨i, cases⟩⟩ := c <;> simp [Code.run, Code.prepend, runWrites_append]

/-- A slot that is marked as a failure. -/
theorem load32_failed {dest n : Nat} :
    (runWrites src [.memSet dest n, .store dest failedTag] b).load32 dest = failedTag :=
  Blob.load32_store32 (by decide)

/-- The cases have the writes of the members at their tags. -/
theorem emitCases_eq {write : ResolvedType → Option (List Write)} {members : List ResolvedType}
    (h : ∀ m ∈ members, ∃ ws, write m = some ws) :
    ∃ cases, emitCases write members = some cases ∧
      ∀ i, cases.lookup i = members[i]?.bind write := by
  suffices hfrom : ∀ k, ∃ cases,
      ((members.zipIdx k).mapM fun v => (write v.1).map fun ws => (v.2, ws)) = some cases ∧
        (∀ c ∈ cases, k ≤ c.1) ∧ ∀ i, cases.lookup (k + i) = members[i]?.bind write by
    obtain ⟨cases, hcases, -, hlookup⟩ := hfrom 0
    exact ⟨cases, hcases, fun i => by rw [← hlookup i, Nat.zero_add]⟩
  induction members with
  | nil => exact fun k => ⟨[], rfl, by simp, by simp⟩
  | cons m members ih =>
    intro k
    obtain ⟨ws, hws⟩ := h m List.mem_cons_self
    obtain ⟨cases, hcases, hle, hlookup⟩ :=
      ih (fun m hm => h m (List.mem_cons_of_mem _ hm)) (k + 1)
    refine ⟨(k, ws) :: cases, by simp [List.zipIdx_cons, hws, hcases], ?_, fun i => ?_⟩
    · rintro c (_ | ⟨_, hc⟩)
      · exact Nat.le_refl k
      · exact (Nat.le_succ k).trans (hle c hc)
    · cases i with
      | zero => simp [hws]
      | succ i =>
        have hne : (k + (i + 1) == k) = false := by simp
        rw [List.lookup_cons, hne, show k + (i + 1) = k + 1 + i by omega, hlookup i]
        simp

theorem exists_writeMember {u : UnionInfo} {m : ResolvedType} (h : m ∈ target.members)
    (dest start : Nat) : ∃ ws, writeMember target u dest m start = some ws := by
  obtain ⟨i, hi⟩ := ErrorType.exists_tag h
  exact ⟨_, by rw [writeMember, hi]; rfl⟩

theorem read_of_writeMember {u : UnionInfo} {m : ResolvedType} {dest start : Nat} {ws : List Write}
    (hu : target.inner = some u) (h : writeMember target u dest m start = some ws)
    (hb : b.load32 dest = failedTag) :
    target.read (runWrites src ws b) dest = some (.failed m (src.bytes start (shape m).size)) := by
  simp only [writeMember, Option.bind_eq_bind, Option.bind_eq_some_iff, Option.pure_def,
    Option.some.injEq] at h
  obtain ⟨i, hi, rfl⟩ := h
  exact ErrorType.read_writeMember hu hi hb (Nat.le_max_right _ _)

/-- A type with more members than another has at least two. -/
theorem exists_inner (hsub : source.members ⊆ target.members)
    (hne : source.members ≠ target.members) : ∃ u, target.inner = some u := by
  cases h : target.inner with
  | some u => exact ⟨u, rfl⟩
  | none =>
    obtain ⟨m, hm, -⟩ := ErrorType.inner_eq_none h
    refine absurd ?_ hne
    have hall : ∀ m' ∈ source.members, m' = m := fun m' hm' =>
      List.mem_singleton.1 (hm ▸ hsub hm')
    rcases hs : source.members with _ | ⟨m₁, _ | ⟨m₂, ms⟩⟩
    · exact absurd hs source.nonempty
    · rw [hm, hall m₁ (by simp [hs])]
    · have hnodup := source.nodup
      rw [hs, hall m₁ (by simp [hs]), hall m₂ (by simp [hs])] at hnodup
      simp at hnodup

/-! ## Retagging -/

/-- Retagging writes the member that the source holds. -/
theorem emitErrorRetag_eq (src : Blob) {u : UnionInfo} (hu : target.inner = some u)
    (hsub : source.members ⊆ target.members) (dest start : Nat) :
    ∃ c, emitErrorRetag target source dest start = some c ∧ ∀ b, c.run src b =
      (source.memberAt src (start + variantPayloadOffset source.info)).bind fun v =>
        (writeMember target u dest v.1 v.2).map fun ws =>
          runWrites src ([.memSet dest target.size, .store dest failedTag] ++ ws) b := by
  cases hs : source.inner with
  | none =>
    obtain ⟨m, hm, -⟩ := ErrorType.inner_eq_none hs
    obtain ⟨ws, hws⟩ := exists_writeMember (u := u) (hsub (hm ▸ List.mem_singleton_self m)) dest
      (start + variantPayloadOffset source.info)
    have hemit : emitErrorRetag target source dest start =
        some { writes := [.memSet dest target.size, .store dest failedTag] ++ ws } := by
      simp only [emitErrorRetag, hu, hm, hws, Option.bind_eq_bind, Option.bind_some, Option.pure_def]
    refine ⟨_, hemit, fun b => ?_⟩
    simp [Code.run, ErrorType.memberAt, hs, hm, hws]
  | some v =>
    have hlen := (ErrorType.inner_eq_some hs).1
    obtain ⟨cases, hcases, hlookup⟩ := emitCases_eq fun m (hm : m ∈ source.members) =>
      exists_writeMember (u := u) (hsub hm) dest
        (start + variantPayloadOffset source.info + variantPayloadOffset v)
    have hemit : emitErrorRetag target source dest start = some
        { writes := [.memSet dest target.size, .store dest failedTag],
          switchOn := some (start + variantPayloadOffset source.info, cases) } := by
      simp only [emitErrorRetag, hu, Option.bind_eq_bind, Option.bind_some]
      split
      next hm => exact absurd (by rw [hm]; rfl) hlen
      next h _ => cases hs.symm.trans h
      next h _ =>
        cases hs.symm.trans h
        rw [hcases]
        rfl
    refine ⟨_, hemit, fun b => ?_⟩
    simp only [Code.run, hlookup, ErrorType.memberAt, hs]
    cases source.members[src.load32 (start + variantPayloadOffset source.info)]? with
    | none => rfl
    | some m => simp

/-- Whatever the source holds, retagging leaves a failure. -/
theorem failed_of_emitErrorRetag {u : UnionInfo} (hu : target.inner = some u)
    (hsub : source.members ⊆ target.members) {dest start : Nat} {c : Code} {b' : Blob}
    (h : emitErrorRetag target source dest start = some c) (hrun : c.run src b = some b') :
    b'.load32 dest = failedTag := by
  obtain ⟨c', hc', hrun'⟩ := emitErrorRetag_eq src hu hsub dest start
  cases h.symm.trans hc'
  rw [hrun', Option.bind_eq_some_iff] at hrun
  obtain ⟨v, -, hrun⟩ := hrun
  obtain ⟨ws, hws, rfl⟩ := Option.map_eq_some_iff.1 hrun
  rw [runWrites_append]
  exact (ErrorType.read_failed_iff.1 (read_of_writeMember hu hws load32_failed)).1

/-- Retagging keeps a failure. -/
theorem read_of_emitErrorRetag {u : UnionInfo} (hu : target.inner = some u)
    (hsub : source.members ⊆ target.members) {dest start : Nat} {m : ResolvedType}
    {p : List (BitVec 8)} (hread : source.read src start = some (.failed m p)) :
    ∃ c, emitErrorRetag target source dest start = some c ∧
      ∃ b', c.run src b = some b' ∧ target.read b' dest = some (.failed m p) := by
  obtain ⟨-, place, hat, rfl⟩ := ErrorType.read_failed_iff.1 hread
  obtain ⟨c, hc, hrun⟩ := emitErrorRetag_eq src hu hsub dest start
  have hm : m ∈ source.members := by
    rcases ErrorType.memberAt_iff.1 hat with ⟨-, hm, -⟩ | ⟨v, -, hm, -⟩
    · rw [hm]
      exact List.mem_singleton_self m
    · exact List.mem_of_getElem? hm
  obtain ⟨ws, hws⟩ := exists_writeMember (u := u) (hsub hm) dest place
  refine ⟨c, hc, _, by rw [hrun, hat, Option.bind_some, hws, Option.map_some], ?_⟩
  rw [runWrites_append]
  exact read_of_writeMember hu hws load32_failed

/-! ## Statements -/

/-- The code leaves a value in a slot. -/
def Leaves (target : ErrorType shape) (dest : Nat) (src b : Blob) (c : Option Code) (v : Outcome) :
    Prop :=
  ∃ c', c = some c' ∧ ∃ b', c'.run src b = some b' ∧ target.read b' dest = some v

theorem leaves_prepend_iff {dest : Nat} {c : Option Code} {ws : List Write} {v : Outcome} :
    Leaves target dest src b (c.map (Code.prepend ws)) v ↔
      Leaves target dest src (runWrites src ws b) c v := by
  simp only [Leaves, Option.map_eq_some_iff]
  constructor
  · rintro ⟨c', ⟨c₀, hc₀, rfl⟩, b', hrun, hread⟩
    exact ⟨c₀, hc₀, b', by rwa [Code.run_prepend] at hrun, hread⟩
  · rintro ⟨c₀, hc₀, b', hrun, hread⟩
    exact ⟨_, ⟨c₀, hc₀, rfl⟩, b', by rwa [Code.run_prepend], hread⟩

/-- Retagging keeps a value exactly when it is a failure. -/
theorem leaves_emitErrorRetag_iff (hsub : source.members ⊆ target.members)
    (hne : source.members ≠ target.members) {dest start : Nat} {v : Outcome}
    (hread : source.read src start = some v) :
    Leaves target dest src b (emitErrorRetag target source dest start) v ↔ v ≠ .ok := by
  obtain ⟨u, hu⟩ := exists_inner hsub hne
  constructor
  · rintro ⟨c, hc, b', hrun, hb'⟩ rfl
    have hfailed := failed_of_emitErrorRetag hu hsub hc hrun
    rw [ErrorType.read_ok_iff.1 hb'] at hfailed
    cases hfailed
  · intro hv
    cases v with
    | ok => exact absurd rfl hv
    | failed m p => exact read_of_emitErrorRetag hu hsub hread

/-- An error value of the same members is copied, and one of fewer members retagged. -/
theorem leaves_error_iff (hsub : source.members ⊆ target.members) {dest : Nat} {v : Outcome}
    (hread : source.read src 0 = some v) :
    Leaves target dest src b (emitErrorValueInto target dest (.error source)) v ↔
      (v = .ok → source.members = target.members) := by
  rw [emitErrorValueInto]
  split
  next heq =>
    refine iff_of_true ⟨_, rfl, _, rfl, ?_⟩ fun _ => heq
    exact ErrorType.read_copy heq (Nat.le_refl dest) (Nat.le_refl _)
      (by rwa [Nat.sub_self, Nat.add_zero])
  next hne =>
    rw [leaves_prepend_iff, leaves_emitErrorRetag_iff hsub hne hread]
    exact forall_congr' fun _ => iff_of_false not_false hne

/-- A member becomes a failure. -/
theorem leaves_member {m : ResolvedType} (hm : m ∈ target.members) (dest : Nat) :
    Leaves target dest src b (emitErrorValueInto target dest (.member m))
      (.failed m (src.bytes 0 (shape m).size)) := by
  rw [emitErrorValueInto]
  split
  next hone =>
    obtain ⟨m', hm', -⟩ := ErrorType.inner_eq_none hone
    obtain rfl : m = m' := List.mem_singleton.1 (hm' ▸ hm)
    refine ⟨_, rfl, _, rfl, ?_⟩
    rw [runWrites_append]
    exact ErrorType.read_writeOnly hm' load32_failed (Nat.le_refl _)
  next u hu =>
    obtain ⟨i, hi⟩ := ErrorType.exists_tag hm
    refine ⟨_, by rw [hi]; rfl, _, rfl, ?_⟩
    rw [runWrites_append]
    exact ErrorType.read_writeMember hu hi load32_failed (Nat.le_refl _)

variable {caller callee : Returns shape} {v : Outcome}

/-- A statement that returns keeps a value when its code leaves it in the last slot and `match`
    finds it there. -/
theorem keeps_of_code {s : Statement shape} {c : Option Code} (hs : ∀ R, s = .tryCall R → v ≠ .ok) :
    s.Keeps caller (c.bind fun c => (c.run src b).map .returns) v ↔
      Leaves caller.error caller.errorOffset src b c v ∧
        ∀ m p, v = .failed m p → caller.error.First m := by
  have hkeeps : s.Keeps caller (c.bind fun c => (c.run src b).map .returns) v ↔
      ∃ b', (c.bind fun c => (c.run src b).map Flow.returns) = some (.returns b') ∧
        caller.error.read b' caller.errorOffset = some v ∧
          ∀ m p, v = .failed m p → caller.error.SeenByMatch b' caller.errorOffset m p := by
    rw [Statement.Keeps.eq_def]
    split
    next R => exact absurd rfl (hs R rfl)
    next => rfl
  rw [hkeeps]
  constructor
  · rintro ⟨b', hflow, hread, hseen⟩
    obtain ⟨c', rfl, hflow⟩ := Option.bind_eq_some_iff.1 hflow
    obtain ⟨_, hrun, hb'⟩ := Option.map_eq_some_iff.1 hflow
    cases hb'
    refine ⟨⟨c', rfl, _, hrun, hread⟩, fun m p hv => ?_⟩
    exact (ErrorType.seenByMatch_iff (hv ▸ hread)).1 (hseen m p hv)
  · rintro ⟨⟨c', rfl, b', hrun, hread⟩, hfirst⟩
    refine ⟨b', by rw [Option.bind_some, hrun, Option.map_some], hread, fun m p hv => ?_⟩
    exact (ErrorType.seenByMatch_iff (hv ▸ hread)).2 (hfirst m p hv)

/-- The failure of `try`. -/
theorem leaves_emitTryPropagation (hsub : callee.error.members ⊆ caller.error.members)
    (hread : callee.error.read src callee.errorOffset = some v) (hv : v ≠ .ok) :
    Leaves caller.error caller.errorOffset src b (emitTryPropagation caller callee) v := by
  rw [emitTryPropagation, leaves_prepend_iff]
  split
  next heq =>
    refine ⟨_, rfl, _, rfl, ErrorType.read_copy heq (Nat.le_refl _) ?_ ?_⟩
    · rw [(ErrorType.congr_members heq).2.2]
    · rwa [Nat.sub_self, Nat.add_zero]
  next hne => exact (leaves_emitErrorRetag_iff hsub hne hread).2 hv

theorem slotsEnd_le (R : Returns shape) : R.errorOffset + R.error.size ≤ R.size := by
  have halign : 0 < R.align := by
    rw [Returns.align]
    omega
  have := le_roundUp (n := R.errorOffset + max 1 R.error.size) halign
  rw [Returns.size]
  omega

theorem Returns.Same.errorOffset_eq (h : callee.Same caller) :
    callee.errorOffset = caller.errorOffset := by
  obtain ⟨hleading, hmembers, -⟩ := h
  have halign : callee.error.info.align = caller.error.info.align := by
    rw [ErrorType.info, ErrorType.info, hmembers]
    rfl
  rw [Returns.errorOffset, Returns.errorOffset, hleading, halign]

/-- A return list that is passed on. -/
theorem leaves_emitForward (hmem : callee.error.members = caller.error.members)
    (hread : callee.error.read src callee.errorOffset = some v) :
    Leaves caller.error caller.errorOffset src b (some (emitForward caller callee)) v := by
  have hsize := (ErrorType.congr_members hmem).2.2
  rw [emitForward]
  split
  next hsame =>
    refine ⟨_, rfl, _, rfl, ErrorType.read_copy hmem (Nat.zero_le _) ?_ ?_⟩
    · rw [hsize, Nat.zero_add]
      exact slotsEnd_le caller
    · rwa [Nat.sub_zero, Nat.zero_add, ← hsame.errorOffset_eq]
  next =>
    refine ⟨_, rfl, _, rfl, ErrorType.read_copy hmem (Nat.le_refl _) ?_ ?_⟩
    · rw [hsize]
      omega
    · rwa [Nat.sub_self, Nat.add_zero]

/-- Two enums of 32 bits. -/
def enumShape : Shape
  | .enum 0 => ⟨"ParseError", .enum 0, 4, 4, by decide, Types.alignOk_four⟩
  | t => ⟨"IoError", t, 4, 4, by decide, Types.alignOk_four⟩

def parseError : ErrorType enumShape where
  members := [.enum 0]
  isOptional := false
  nonempty := by decide
  nodup := by decide
  count := by decide
  inner_fits := by decide
  fits := by decide

def loadError : ErrorType enumShape where
  members := [.enum 0, .enum 1]
  isOptional := false
  nonempty := by decide
  nodup := by decide
  count := by decide
  inner_fits := by decide
  fits := by decide

/-- A failure of the one member, whose value is 7. -/
def parseFailure : Blob := fun x => if x = 0 then 1 else if x = 4 then 7 else 0

end Mirage.Mirgen

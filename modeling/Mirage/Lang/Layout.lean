import Mirage.Lang.TypeResolver
import Mirage.Lib.Align

/-!
# Layouts

The layouts of structs, unions and error unions as functions of the members, each given by
the size and the alignment the resolver reads for it (`Member`), and when they are sound.
Positions are computed in 32 bits, and nothing checks that they stay in range.

* `structLayout_sound_iff`: the layout of a struct is sound exactly when its exact size
  is below `2 ^ 32`;
* `unionLayout_sound_iff`, `payloadLayout_sound_iff`, `errorLayout_sound_iff`: so is that of a
  union, of a tag and a payload, and of an error union.
-/

namespace Mirage.Types

/-! ## Members -/

/-- An alignment of a type: none, or a power of two of at most 16. -/
def AlignOk (a : Nat) : Prop := max a 1 ∣ 2 ^ 4

/-- A field or the payload of a variant, with the size and the alignment of its type. -/
structure Member where
  name : Name
  type : ResolvedType
  size : Nat
  align : Nat
  size_lt : size < 2 ^ 32
  align_ok : AlignOk align

/-- What the member asks of its position. -/
def Member.extent (isPacked : Bool) (m : Member) : Extent where
  size := m.size
  align := if isPacked then 1 else max m.align 1
  align_pos := by split <;> omega

/-- The layout of the fields so far with one more. -/
def FieldsLayout.addMember (isPacked : Bool) (l : FieldsLayout) (m : Member) : FieldsLayout :=
  l.add isPacked m.name m.type m.size m.align

def structLayout (isPacked : Bool) (ms : List Member) : StructInfo :=
  (ms.foldl (FieldsLayout.addMember isPacked) {}).info isPacked

/-- The largest size of a member. -/
def maxSize (ms : List Member) : Nat := ms.foldl (fun n m => max n m.size) 0

/-- The largest alignment of a member, and one where there is none. -/
def maxAlign (ms : List Member) : Nat := ms.foldl (fun n m => max n m.align) 1

def unionLayout (ms : List Member) : UnionInfo where
  members := ms.map fun m => (m.name, m.type)
  size := alignUp (maxSize ms) (maxAlign ms)
  align := maxAlign ms
  layoutDone := true

/-- The exact size of a struct. -/
def exactStructSize (isPacked : Bool) (ms : List Member) : Nat :=
  let extents := ms.map (Member.extent isPacked)
  roundUp (ends 0 extents) ((extents.map Extent.align).foldl max 1)

/-- The exact size of an untagged union. -/
def exactUnionSize (ms : List Member) : Nat := roundUp (maxSize ms) (maxAlign ms)

/-- The exact size of a tag and the largest payload. -/
def exactTaggedSize (size align : Nat) : Nat :=
  roundUp (roundUp 4 (max align 1) + size) (max 4 align)

/-! ## Soundness -/

/-- The fields lie in order, apart from each other, at multiples of their alignments and
    inside the struct; those of a packed struct next to each other. -/
structure StructSound (isPacked : Bool) (ms : List Member) (info : StructInfo) : Prop where
  fields : info.fields.map (fun f => (f.name, f.type)) = ms.map fun m => (m.name, m.type)
  placed : Placed 0 info.size
    ((ms.map (Member.extent isPacked)).zip (info.fields.map StructField.offset))
  adjacent : isPacked = true → info.fields.map StructField.offset =
    starts 0 (ms.map (Member.extent isPacked))
  size_dvd : info.align ∣ info.size
  align_eq : info.align = ((ms.map (Member.extent isPacked)).map Extent.align).foldl max 1

/-- Every member fits in the union, which is as aligned as any of them. -/
structure UnionSound (ms : List Member) (info : UnionInfo) : Prop where
  members : info.members = ms.map fun m => (m.name, m.type)
  fits : ∀ m ∈ ms, m.size ≤ info.size
  aligned : ∀ m ∈ ms, max m.align 1 ∣ info.align
  size_dvd : info.align ∣ info.size
  align_eq : info.align = maxAlign ms

/-- Every payload fits behind the tag, at a multiple of its alignment. -/
structure PayloadSound (ms : List Member) (info : UnionInfo) : Prop where
  tag : 4 ≤ info.payloadOffset
  aligned : ∀ m ∈ ms, max m.align 1 ∣ info.payloadOffset
  fits : ∀ m ∈ ms, info.payloadOffset + m.size ≤ info.size
  size_dvd : info.align ∣ info.size
  align_eq : info.align = max 4 (maxAlign ms)

/-! ## Alignments -/

theorem alignOk_zero : AlignOk 0 := one_dvd _

theorem alignOk_one : AlignOk 1 := one_dvd _

theorem AlignOk.le {a : Nat} (h : AlignOk a) : a ≤ 16 :=
  (le_max_left a 1).trans (Nat.le_of_dvd (by decide) h)

theorem AlignOk.max {a b : Nat} (ha : AlignOk a) (hb : AlignOk b) : AlignOk (max a b) := by
  rcases le_total a b with h | h
  · rwa [max_eq_right h]
  · rwa [max_eq_left h]

/-- An alignment divides every larger one. -/
theorem AlignOk.dvd {a b : Nat} (ha : AlignOk a) (hb : AlignOk b) (h : a ≤ b) :
    Max.max a 1 ∣ Max.max b 1 := by
  have hdvd := dvd_max_of_dvd_pow Nat.prime_two ha hb
  rwa [max_eq_right (max_le_max_right 1 h)] at hdvd

theorem AlignOk.dvd_range {a : Nat} (h : AlignOk a) : Max.max a 1 ∣ 2 ^ 32 :=
  h.trans (pow_dvd_pow 2 (by decide))

/-- In range, rounding in 32 bits is exact. -/
theorem alignUp_eq {n a : Nat} (h : 0 < a) (ha : a ∣ 2 ^ 32) (hn : roundUp n a < 2 ^ 32) :
    alignUp n a = roundUp n a := by
  have hle : roundUp n a + a ≤ 2 ^ 32 := by
    obtain ⟨k, hk⟩ := ha
    obtain ⟨j, hj⟩ := dvd_roundUp n a
    rw [hj, hk] at hn ⊢
    have hjk : j < k := Nat.lt_of_mul_lt_mul_left hn
    calc a * j + a = a * (j + 1) := (Nat.mul_succ a j).symm
      _ ≤ a * k := Nat.mul_le_mul_left a hjk
  have hn' : n ≤ roundUp n a := le_roundUp h
  have hrange : n + a - 1 < 2 ^ 32 := by omega
  rw [alignUp, roundUp, wrap32, Nat.mod_eq_of_lt hrange]

theorem alignUp_lt (n a : Nat) : alignUp n a < 2 ^ 32 :=
  (Nat.div_mul_le_self _ a).trans_lt (Nat.mod_lt _ (by decide))

/-! ## Structs -/

/-- In range, a field begins where its extent does. -/
theorem add_spec {isPacked : Bool} {m : Member} {l : FieldsLayout}
    (hrange : roundUp l.offset (m.extent isPacked).align < 2 ^ 32) (halign : 0 < l.maxAlign) :
    let l' := l.addMember isPacked m
    l'.fields = l.fields ++ [⟨m.name, m.type, roundUp l.offset (m.extent isPacked).align⟩] ∧
      l'.offset = wrap32 (roundUp l.offset (m.extent isPacked).align + m.size) ∧
      l'.maxAlign = max l.maxAlign (m.extent isPacked).align := by
  have hone (n : Nat) : roundUp n 1 = n := by simp [roundUp]
  cases isPacked with
  | true => simp [FieldsLayout.addMember, FieldsLayout.add, Member.extent, hone]
  | false =>
    obtain h0 | hpos := Nat.eq_zero_or_pos m.align
    · simp [FieldsLayout.addMember, FieldsLayout.add, Member.extent, h0, hone]
      exact halign
    · have hmax : max m.align 1 = m.align := max_eq_left hpos
      have hextent : (m.extent false).align = m.align := hmax
      have hdvd : m.align ∣ 2 ^ 32 := hmax ▸ m.align_ok.dvd_range
      rw [hextent] at hrange ⊢
      simp [FieldsLayout.addMember, FieldsLayout.add, hpos, alignUp_eq hpos hdvd hrange]

/-- The fields behind those that are laid out. -/
theorem foldl_add {isPacked : Bool} {ms : List Member} {l : FieldsLayout}
    (hrange : ends l.offset (ms.map (Member.extent isPacked)) < 2 ^ 32) (halign : 0 < l.maxAlign) :
    let l' := ms.foldl (FieldsLayout.addMember isPacked) l
    l'.fields.map StructField.offset = l.fields.map StructField.offset ++
        starts l.offset (ms.map (Member.extent isPacked)) ∧
      l'.offset = ends l.offset (ms.map (Member.extent isPacked)) ∧
      l'.maxAlign = ((ms.map (Member.extent isPacked)).map Extent.align).foldl max l.maxAlign := by
  induction ms generalizing l with
  | nil => simp [starts, ends]
  | cons m ms ih =>
    rw [List.map_cons, ends] at hrange
    have hend := (le_ends _ _).trans_lt hrange
    obtain ⟨hfields, hoffset, hmax⟩ :=
      add_spec ((Nat.le_add_right _ _).trans_lt hend) halign
    have hexact : (l.addMember isPacked m).offset =
        roundUp l.offset (m.extent isPacked).align + (m.extent isPacked).size := by
      rw [hoffset]
      exact Nat.mod_eq_of_lt hend
    have h := ih (l := l.addMember isPacked m) (by rwa [hexact])
      (by rw [hmax]; exact halign.trans_le (le_max_left _ _))
    rw [hexact, hfields, hmax, List.map_append] at h
    simpa [starts, ends] using h

/-- The fields have the names and the types of the members. -/
theorem fields_foldl_add {isPacked : Bool} {ms : List Member} {l : FieldsLayout} :
    (ms.foldl (FieldsLayout.addMember isPacked) l).fields.map
        (fun f => (f.name, f.type)) =
      l.fields.map (fun f => (f.name, f.type)) ++ ms.map fun m => (m.name, m.type) := by
  induction ms generalizing l with
  | nil => simp
  | cons m ms ih =>
    rw [List.foldl_cons, ih]
    simp [FieldsLayout.addMember, FieldsLayout.add]

/-- The largest of some alignments is one. -/
theorem foldl_max_ok {as : List Nat} {a : Nat} (ha : AlignOk a) (h : ∀ b ∈ as, AlignOk b) :
    AlignOk (as.foldl max a) := by
  induction as generalizing a with
  | nil => exact ha
  | cons b as ih =>
    obtain ⟨hb, hrest⟩ := List.forall_mem_cons.1 h
    exact ih (ha.max hb) hrest

theorem le_foldl_max (as : List Nat) (a : Nat) : a ≤ as.foldl max a := by
  induction as generalizing a with
  | nil => exact le_rfl
  | cons b as ih => exact (le_max_left a b).trans (ih _)

theorem le_foldl_max_of_mem {as : List Nat} {a b : Nat} (h : b ∈ as) : b ≤ as.foldl max a := by
  induction as generalizing a with
  | nil => cases h
  | cons c as ih =>
    obtain rfl | h := List.mem_cons.1 h
    · exact (le_max_right a b).trans (le_foldl_max as _)
    · exact ih h

theorem foldl_max_le {as : List Nat} {a n : Nat} (ha : a ≤ n) (h : ∀ b ∈ as, b ≤ n) :
    as.foldl max a ≤ n := by
  induction as generalizing a with
  | nil => exact ha
  | cons b as ih =>
    obtain ⟨hb, hrest⟩ := List.forall_mem_cons.1 h
    exact ih (max_le ha hb) hrest

theorem Member.extent_align_ok {isPacked : Bool} {m : Member} : AlignOk (m.extent isPacked).align := by
  cases isPacked with
  | true => exact alignOk_one
  | false => exact m.align_ok.max alignOk_one

/-- The alignment of a struct. -/
def structAlign (isPacked : Bool) (ms : List Member) : Nat :=
  ((ms.map (Member.extent isPacked)).map Extent.align).foldl max 1

theorem structAlign_pos {isPacked : Bool} {ms : List Member} : 0 < structAlign isPacked ms :=
  le_foldl_max _ 1

theorem structAlign_dvd {isPacked : Bool} {ms : List Member} : structAlign isPacked ms ∣ 2 ^ 32 := by
  have hok : AlignOk (structAlign isPacked ms) := by
    refine foldl_max_ok alignOk_one fun a ha => ?_
    obtain ⟨b, hb, rfl⟩ := List.mem_map.1 ha
    obtain ⟨m, -, rfl⟩ := List.mem_map.1 hb
    exact m.extent_align_ok
  have hdvd := hok.dvd_range
  rwa [max_eq_left structAlign_pos] at hdvd

theorem structAlign_packed {ms : List Member} : structAlign true ms = 1 := by
  refine le_antisymm (foldl_max_le le_rfl fun a ha => ?_) structAlign_pos
  obtain ⟨b, hb, rfl⟩ := List.mem_map.1 ha
  obtain ⟨m, -, rfl⟩ := List.mem_map.1 hb
  exact le_rfl

theorem structLayout_size_lt {isPacked : Bool} {ms : List Member} :
    (structLayout isPacked ms).size < 2 ^ 32 := by
  rw [structLayout, FieldsLayout.info]
  cases isPacked with
  | false => exact alignUp_lt _ _
  | true =>
    simp only [if_true]
    rcases ms.eq_nil_or_concat with rfl | ⟨ms, m, rfl⟩
    · decide
    · rw [List.concat_eq_append, List.foldl_append]
      exact Nat.mod_lt _ (by decide)

/-- A sound layout is in range, as it is not smaller than the exact one. -/
theorem StructSound.exact_lt {isPacked : Bool} {ms : List Member}
    (h : StructSound isPacked ms (structLayout isPacked ms)) :
    exactStructSize isPacked ms < 2 ^ 32 := by
  have hlength : ((structLayout isPacked ms).fields.map StructField.offset).length =
      (ms.map (Member.extent isPacked)).length := by
    have := congrArg List.length h.fields
    simpa using this
  have hends := ends_le h.placed
  rw [List.map_fst_zip hlength.ge] at hends
  have hdvd := h.size_dvd
  rw [h.align_eq] at hdvd
  exact (roundUp_le structAlign_pos hends hdvd).trans_lt structLayout_size_lt

/-- The layout of a struct is sound exactly when its exact size is in range. -/
theorem structLayout_sound_iff (isPacked : Bool) (ms : List Member) :
    StructSound isPacked ms (structLayout isPacked ms) ↔ exactStructSize isPacked ms < 2 ^ 32 := by
  refine ⟨StructSound.exact_lt, fun hrange => ?_⟩
  have hle : ends 0 (ms.map (Member.extent isPacked)) ≤ exactStructSize isPacked ms :=
    le_roundUp structAlign_pos
  obtain ⟨hoffsets, hoffset, hmax⟩ :=
    @foldl_add isPacked ms {} (hle.trans_lt hrange) Nat.one_pos
  have hsize : (structLayout isPacked ms).size = exactStructSize isPacked ms := by
    rw [structLayout, FieldsLayout.info]
    cases isPacked with
    | true =>
      have hexact : exactStructSize true ms = roundUp (ends 0 (ms.map (Member.extent true)))
          (structAlign true ms) := rfl
      rw [hexact, structAlign_packed]
      simpa [roundUp] using hoffset
    | false =>
      simp only [Bool.false_eq_true, if_false]
      rw [hoffset, hmax]
      exact alignUp_eq structAlign_pos structAlign_dvd hrange
  have halign : (structLayout isPacked ms).align = structAlign isPacked ms := by
    rw [structLayout, FieldsLayout.info]
    cases isPacked with
    | true => exact structAlign_packed.symm
    | false => exact hmax
  have hstarts : (structLayout isPacked ms).fields.map StructField.offset =
      starts 0 (ms.map (Member.extent isPacked)) := hoffsets
  refine ⟨?_, ?_, fun _ => hstarts, ?_, halign⟩
  · exact fields_foldl_add
  · have hplaced := placed_starts 0 (ms.map (Member.extent isPacked))
    rw [hstarts, hsize]
    exact { hplaced with
      inside := fun r hr => (hplaced.inside r hr).trans hle
      bounds := Nat.zero_le _ }
  · rw [hsize, halign]
    exact dvd_roundUp _ _

/-! ## Unions -/

theorem maxSize_eq (ms : List Member) : maxSize ms = (ms.map Member.size).foldl max 0 :=
  List.foldl_map.symm

theorem maxAlign_eq (ms : List Member) : maxAlign ms = (ms.map Member.align).foldl max 1 :=
  List.foldl_map.symm

theorem size_le_maxSize {ms : List Member} {m : Member} (h : m ∈ ms) : m.size ≤ maxSize ms :=
  maxSize_eq ms ▸ le_foldl_max_of_mem (List.mem_map_of_mem h)

theorem align_le_maxAlign {ms : List Member} {m : Member} (h : m ∈ ms) : m.align ≤ maxAlign ms :=
  maxAlign_eq ms ▸ le_foldl_max_of_mem (List.mem_map_of_mem h)

theorem maxSize_le {ms : List Member} {n : Nat} (h : ∀ m ∈ ms, m.size ≤ n) : maxSize ms ≤ n := by
  rw [maxSize_eq]
  refine foldl_max_le (Nat.zero_le n) fun a ha => ?_
  obtain ⟨m, hm, rfl⟩ := List.mem_map.1 ha
  exact h m hm

theorem maxAlign_pos (ms : List Member) : 0 < maxAlign ms := maxAlign_eq ms ▸ le_foldl_max _ 1

theorem maxAlign_ok (ms : List Member) : AlignOk (maxAlign ms) := by
  rw [maxAlign_eq]
  refine foldl_max_ok alignOk_one fun a ha => ?_
  obtain ⟨m, -, rfl⟩ := List.mem_map.1 ha
  exact m.align_ok

theorem dvd_maxAlign {ms : List Member} {m : Member} (h : m ∈ ms) :
    max m.align 1 ∣ maxAlign ms := by
  have hdvd := m.align_ok.dvd (maxAlign_ok ms) (align_le_maxAlign h)
  have hone : max (maxAlign ms) 1 = maxAlign ms := max_eq_left (maxAlign_pos ms)
  rwa [hone] at hdvd

theorem maxAlign_dvd (ms : List Member) : maxAlign ms ∣ 2 ^ 32 := by
  have hdvd := (maxAlign_ok ms).dvd_range
  rwa [max_eq_left (maxAlign_pos ms)] at hdvd

/-- The layout of a union is sound exactly when its exact size is in range. -/
theorem unionLayout_sound_iff (ms : List Member) :
    UnionSound ms (unionLayout ms) ↔ exactUnionSize ms < 2 ^ 32 := by
  constructor
  · intro h
    exact (roundUp_le (maxAlign_pos ms) (maxSize_le h.fits) h.size_dvd).trans_lt (alignUp_lt _ _)
  · intro hrange
    have hsize : (unionLayout ms).size = exactUnionSize ms :=
      alignUp_eq (maxAlign_pos ms) (maxAlign_dvd ms) hrange
    refine ⟨rfl, fun m hm => ?_, fun m hm => dvd_maxAlign hm, ?_, rfl⟩
    · rw [hsize]
      exact (size_le_maxSize hm).trans (le_roundUp (maxAlign_pos ms))
    · rw [hsize]
      exact dvd_roundUp _ _

/-! ## A tag and a payload -/

/-- The layout of a tag and the payloads. -/
def payloadLayout (info : UnionInfo) (ms : List Member) : UnionInfo :=
  info.withPayload (maxSize ms) (maxAlign ms)

theorem withPayload_size_lt {info : UnionInfo} {size align : Nat} :
    (info.withPayload size align).size < 2 ^ 32 := by
  simp only [UnionInfo.withPayload]
  split_ifs
  · decide
  · exact alignUp_lt _ _

/-- The offset of a payload is the larger of the size of the tag and the alignment. -/
theorem alignUp_four {a : Nat} (h : AlignOk a) (hpos : 0 < a) : alignUp 4 a = roundUp 4 a := by
  have hdvd := h.dvd_range
  rw [max_eq_left hpos] at hdvd
  have hle : roundUp 4 a ≤ 4 * a := roundUp_le hpos (Nat.le_mul_of_pos_right 4 hpos) ⟨4, Nat.mul_comm 4 a⟩
  have := h.le
  exact alignUp_eq hpos hdvd (by omega)

theorem alignOk_four : AlignOk 4 := ⟨4, rfl⟩

/-- The layout of a tag and payloads is sound exactly when its exact size is in range. -/
theorem payloadLayout_sound_iff (info : UnionInfo) (ms : List Member) :
    PayloadSound ms (payloadLayout info ms) ↔
      exactTaggedSize (maxSize ms) (maxAlign ms) < 2 ^ 32 := by
  have hpos := maxAlign_pos ms
  have hone : max (maxAlign ms) 1 = maxAlign ms := max_eq_left hpos
  have hok : AlignOk (max 4 (maxAlign ms)) := alignOk_four.max (maxAlign_ok ms)
  have hpos' : 0 < max 4 (maxAlign ms) := by omega
  have hdvd' : max 4 (maxAlign ms) ∣ 2 ^ 32 := by
    have hdvd := hok.dvd_range
    rwa [max_eq_left hpos'] at hdvd
  have hoffset : (payloadLayout info ms).payloadOffset = roundUp 4 (maxAlign ms) := by
    rw [payloadLayout, UnionInfo.withPayload, hone]
    exact alignUp_four (maxAlign_ok ms) hpos
  have halign : (payloadLayout info ms).align = max 4 (maxAlign ms) := rfl
  have hfour : 4 ≤ roundUp 4 (maxAlign ms) := le_roundUp hpos
  constructor
  · intro h
    have hraw : roundUp 4 (maxAlign ms) + maxSize ms ≤ (payloadLayout info ms).size := by
      rcases ms.eq_nil_or_concat with rfl | ⟨ms', m, hms⟩
      · have hdvd := h.size_dvd
        have htag : (payloadLayout info []).size = 4 := rfl
        rw [htag]
        decide
      · have hm : m ∈ ms := by rw [hms]; simp
        have hle : maxSize ms ≤ (payloadLayout info ms).size - roundUp 4 (maxAlign ms) := by
          refine maxSize_le fun m' hm' => ?_
          have := h.fits m' hm'
          rw [hoffset] at this
          omega
        have := h.fits m hm
        rw [hoffset] at this
        omega
    have hsize := roundUp_le hpos' hraw (halign ▸ h.size_dvd)
    rw [exactTaggedSize, hone]
    exact hsize.trans_lt withPayload_size_lt
  · intro hrange
    rw [exactTaggedSize, hone] at hrange
    have hraw : roundUp 4 (maxAlign ms) + maxSize ms < 2 ^ 32 :=
      (le_roundUp hpos').trans_lt hrange
    have hsize : (payloadLayout info ms).size =
        roundUp (roundUp 4 (maxAlign ms) + maxSize ms) (max 4 (maxAlign ms)) := by
      have hne : roundUp (roundUp 4 (maxAlign ms) + maxSize ms) (max 4 (maxAlign ms)) ≠ 0 := by
        have := le_roundUp (n := roundUp 4 (maxAlign ms) + maxSize ms) hpos'
        omega
      simp only [payloadLayout, UnionInfo.withPayload, hone, alignUp_four (maxAlign_ok ms) hpos]
      rw [wrap32, Nat.mod_eq_of_lt hraw, alignUp_eq hpos' hdvd' hrange, if_neg hne]
    refine ⟨?_, fun m hm => ?_, fun m hm => ?_, ?_, halign⟩
    · rwa [hoffset]
    · rw [hoffset]
      exact (dvd_maxAlign hm).trans (dvd_roundUp _ _)
    · rw [hoffset, hsize]
      exact (Nat.add_le_add_left (size_le_maxSize hm) _).trans (le_roundUp hpos')
    · rw [hsize, halign]
      exact dvd_roundUp _ _

end Mirage.Types

import Mirage.Lib.Rulers

/-!
# Positions of the language server

Columns are byte columns inside the server and UTF-16 columns on the wire. A line is any
sequence of bytes. `stepAt` tells by the first byte how long a character is on both; the two
conversions walk along the line character by character.

* `characters`: the characters of a line, with their lengths.
* `Exact`: the conversions are monotone and inverse to each other between characters, behind
  the end of the line too, and count the code units of valid UTF-8.
* `exact_iff`: so they are exactly on the lines whose last character is complete. Behind a
  character that the end of the line cuts short, `byteToUtf16Column` counts the bytes that
  are missing, and `utf16ToByteColumn` does not.
-/

namespace Mirage.Lsp.Encoding

open Rulers

/-! ## The conversions -/

/-- The lengths of a character in bytes and in UTF-16 code units. -/
structure Utf8Step where
  bytes : Nat
  utf16Units : Nat
  deriving DecidableEq

/-- A malformed first byte counts as one byte and one unit. -/
def stepAt (c : UInt8) : Utf8Step :=
  if c < 0x80 then ⟨1, 1⟩
  else if c &&& 0xE0 = 0xC0 then ⟨2, 1⟩
  else if c &&& 0xF0 = 0xE0 then ⟨3, 1⟩
  else if c &&& 0xF8 = 0xF0 then ⟨4, 2⟩
  else ⟨1, 1⟩

/-- The loop of the conversions, for at most so many characters: the units and the bytes
    that are behind it. -/
def walk (text : List UInt8) (going : Nat → Nat → Bool) : Nat → Nat → Nat → Nat × Nat
  | 0, units, i => (units, i)
  | fuel + 1, units, i =>
    match text[i]? with
    | none => (units, i)
    | some c =>
      if going units i then
        walk text going fuel (units + (stepAt c).utf16Units) (i + (stepAt c).bytes)
      else (units, i)

/-- A sum of type `size_t`. -/
def sizeT (n : Nat) : Nat := n % 18446744073709551616

def utf16ToByteColumn (text : List UInt8) (utf16Col : Nat) : Nat :=
  let (units, i) := walk text (fun units _ => units < utf16Col) text.length 0 0
  -- a character that the end of the line cuts short
  let i := if i > text.length then text.length else i
  if utf16Col > units then sizeT (i + (utf16Col - units)) else i

def byteToUtf16Column (text : List UInt8) (byteCol : Nat) : Nat :=
  let (units, i) := walk text (fun _ i => i < byteCol) text.length 0 0
  if byteCol > i then sizeT (units + (byteCol - i)) else units

/-- A column of a request, from 1, in UTF-16 code units, as a byte column, from 1. -/
def requestByteColumn (text : List UInt8) (utf16Character : Nat) : Nat :=
  utf16ToByteColumn text (utf16Character - 1) + 1

/-! ## Characters -/

/-- The characters of a line from the given byte on, by their first bytes: their lengths in
    code units and in bytes. -/
def charactersFrom : Nat → List UInt8 → List (Nat × Nat)
  | _, [] => []
  | 0, c :: rest =>
    ((stepAt c).utf16Units, (stepAt c).bytes) :: charactersFrom ((stepAt c).bytes - 1) rest
  | skip + 1, _ :: rest => charactersFrom skip rest

def characters (text : List UInt8) : List (Nat × Nat) := charactersFrom 0 text

/-- The bytes of the characters of a line: more than the line has, when its end cuts the last
    one short. -/
def span (text : List UInt8) : Nat := ((characters text).map Prod.snd).sum

/-- The last character of the line is complete. -/
def Complete (text : List UInt8) : Prop := span text = text.length

instance (text : List UInt8) : Decidable (Complete text) := inferInstanceAs (Decidable (_ = _))

/-- A byte column between two characters, at the end of the line or behind it. -/
def IsByteBoundary (text : List UInt8) (c : Nat) : Prop :=
  text.length ≤ c ∨ IsMark (swap (characters text)) c

/-- A UTF-16 column between two characters, at the end of the line or behind it. -/
def IsUtf16Boundary (text : List UInt8) (x : Nat) : Prop := IsMark (characters text) x

/-- The bytes of a text in UTF-8. -/
def utf8 (text : List Char) : List UInt8 := text.flatMap String.utf8EncodeChar

/-- The UTF-16 code units of a character: a surrogate pair beyond the basic plane. -/
def utf16Units (c : Char) : Nat := if c.toNat < 0x10000 then 1 else 2

/-- A column that has a place in `size_t` on the other side. -/
def Fits (text : List UInt8) (c : Nat) : Prop := c + text.length < 18446744073709551616

/-- The conversions are a correspondence of columns. -/
structure Exact (text : List UInt8) : Prop where
  byte_mono : ∀ c c', c ≤ c' → Fits text c' → byteToUtf16Column text c ≤ byteToUtf16Column text c'
  utf16_mono : ∀ x x', x ≤ x' → Fits text x' →
    utf16ToByteColumn text x ≤ utf16ToByteColumn text x'
  byte_round : ∀ c, Fits text c → IsByteBoundary text c →
    utf16ToByteColumn text (byteToUtf16Column text c) = c
  utf16_round : ∀ x, Fits text x → IsUtf16Boundary text x →
    byteToUtf16Column text (utf16ToByteColumn text x) = x
  units : ∀ chars chars', text = utf8 (chars ++ chars') →
    byteToUtf16Column text (utf8 chars).length = (chars.map utf16Units).sum

/-! ## The loop -/

theorem bytes_pos (c : UInt8) : 0 < (stepAt c).bytes ∧ 0 < (stepAt c).utf16Units := by
  rw [stepAt]
  split_ifs <;> decide

theorem units_le_bytes (c : UInt8) : (stepAt c).utf16Units ≤ (stepAt c).bytes := by
  rw [stepAt]
  split_ifs <;> decide

theorem charactersFrom_skip (skip : Nat) (text : List UInt8) :
    charactersFrom skip text = characters (text.drop skip) := by
  induction text generalizing skip with
  | nil => cases skip <;> rfl
  | cons c rest ih =>
    cases skip with
    | zero => rfl
    | succ skip => exact ih skip

theorem characters_cons (c : UInt8) (rest : List UInt8) : characters (c :: rest) =
    ((stepAt c).utf16Units, (stepAt c).bytes) ::
      characters ((c :: rest).drop (stepAt c).bytes) := by
  obtain ⟨n, hn⟩ := Nat.exists_eq_succ_of_ne_zero (Nat.pos_iff_ne_zero.1 (bytes_pos c).1)
  rw [characters, charactersFrom, charactersFrom_skip, hn]
  rfl

/-- The loop walks over the characters. -/
theorem walk_eq (text : List UInt8) (going : Nat → Nat → Bool) (fuel units i : Nat)
    (h : text.length - i ≤ fuel) :
    walk text going fuel units i = scan going (characters (text.drop i)) units i := by
  induction fuel generalizing units i with
  | zero =>
    rw [List.drop_eq_nil_of_le (by omega)]
    rfl
  | succ fuel ih =>
    rw [walk]
    cases hget : text[i]? with
    | none =>
      rw [List.drop_eq_nil_of_le (List.getElem?_eq_none_iff.1 hget)]
      rfl
    | some c =>
      obtain ⟨hlt, hc⟩ := List.getElem?_eq_some_iff.1 hget
      have hpos := (bytes_pos text[i]).1
      rw [List.drop_eq_getElem_cons hlt, hc, characters_cons, scan, ← hc,
        ← List.drop_eq_getElem_cons hlt, List.drop_drop, ← ih _ _ (by omega)]

theorem solid_characters (text : List UInt8) : Solid (characters text) := by
  suffices h : ∀ skip, Solid (charactersFrom skip text) from h 0
  induction text with
  | nil =>
    intro skip piece hpiece
    cases skip <;> cases hpiece
  | cons c rest ih =>
    intro skip
    cases skip with
    | zero => exact List.forall_mem_cons.2 ⟨(bytes_pos c).symm, ih _⟩
    | succ skip => exact ih skip

theorem units_le (text : List UInt8) : ∀ piece ∈ characters text, piece.1 ≤ piece.2 := by
  suffices h : ∀ skip, ∀ piece ∈ charactersFrom skip text, piece.1 ≤ piece.2 from h 0
  induction text with
  | nil =>
    intro skip piece hpiece
    cases skip <;> cases hpiece
  | cons c rest ih =>
    intro skip
    cases skip with
    | zero => exact List.forall_mem_cons.2 ⟨units_le_bytes c, ih _⟩
    | succ skip => exact ih skip

/-! ## The conversions as walks over the characters -/

variable {text : List UInt8} {c x : Nat}

theorem sizeT_eq {n : Nat} (h : n < 18446744073709551616) : sizeT n = n := Nat.mod_eq_of_lt h

theorem byteToUtf16Column_eq (hfits : c < 18446744073709551616) :
    byteToUtf16Column text c = convert (swap (characters text)) c := by
  have hscan := scan_second (characters text) c 0 0
  have hle := scan_fst_le (fun _ i => i < c) (units_le text) (Nat.le_refl 0)
  rw [Nat.zero_add, Nat.sub_zero] at hscan
  rw [byteToUtf16Column, walk_eq text _ _ 0 0 (by omega), List.drop_zero, ← hscan]
  simp only
  split_ifs with h
  · exact sizeT_eq (by omega)
  · omega

/-- A column is not moved to the right, except to the end of the last character. -/
theorem convert_bytes_le (text : List UInt8) (c : Nat) :
    convert (swap (characters text)) c ≤ c ∨ convert (swap (characters text)) c ≤ span text := by
  have hscan := scan_second (characters text) c 0 0
  have hle := scan_fst_le (fun _ i => i < c) (units_le text) (Nat.le_refl 0)
  have hspan : (scan (fun _ i => i < c) (characters text) 0 0).2 ≤ 0 + span text :=
    (scan_le _ _ 0 0).2
  rw [Nat.zero_add, Nat.sub_zero] at hscan
  omega

theorem convert_units_le (text : List UInt8) (x : Nat) :
    convert (characters text) x ≤ span text + x := by
  have hscan := scan_first (characters text) x 0 0
  have hspan : (scan (fun u _ => u < x) (characters text) 0 0).2 ≤ 0 + span text :=
    (scan_le _ _ 0 0).2
  rw [Nat.zero_add, Nat.sub_zero] at hscan
  omega

/-- The end of the line cuts a walk short only inside the last character. -/
theorem utf16ToByteColumn_eq (hcomplete : Complete text) (hfits : Fits text x) :
    utf16ToByteColumn text x = convert (characters text) x := by
  have hscan := scan_first (characters text) x 0 0
  have hle : (scan (fun u _ => u < x) (characters text) 0 0).2 ≤ 0 + span text :=
    (scan_le _ _ 0 0).2
  rw [hcomplete] at hle
  rw [Nat.zero_add, Nat.sub_zero] at hscan
  rw [utf16ToByteColumn, walk_eq text _ _ 0 0 (by omega), List.drop_zero]
  rw [Fits] at hfits
  generalize scan (fun u _ => u < x) (characters text) 0 0 = behind at hle hscan ⊢
  obtain ⟨units, i⟩ := behind
  have hi : ¬i > text.length := by simp only at hle; omega
  simp only [if_neg hi]
  simp only at hscan
  split_ifs with h
  · rw [sizeT_eq (by omega), hscan]
  · omega

/-! ## Complete lines -/

theorem isMark_of_boundary (hcomplete : Complete text) (h : IsByteBoundary text c) :
    IsMark (swap (characters text)) c := by
  rcases h with hle | hmark
  · refine isMark_of_sum_le ?_
    rw [swap, List.map_map]
    exact Nat.le_trans (Nat.le_of_eq hcomplete) hle
  · exact hmark

/-- A line that is over between two characters has no character that is cut short. -/
theorem complete_of_isMark (h : IsMark (swap (characters text)) text.length) : Complete text := by
  induction hn : text.length using Nat.strongRecOn generalizing text with
  | ind n ih =>
    cases text with
    | nil => rfl
    | cons c rest =>
      have hpos := (bytes_pos c).1
      rw [characters_cons] at h
      obtain h | ⟨hle, hmark⟩ := h
      · cases h
      · have hdrop : ((c :: rest).drop (stepAt c).bytes).length =
            (c :: rest).length - (stepAt c).bytes := List.length_drop
        have hspan : span ((c :: rest).drop (stepAt c).bytes) = _ :=
          ih _ (by rw [hdrop]; exact hn ▸ Nat.sub_lt (by simp) hpos) (by rw [hdrop]; exact hmark)
            rfl
        rw [Complete, span, characters_cons, List.map_cons, List.sum_cons]
        rw [hdrop, span] at hspan
        rw [hspan]
        exact Nat.add_sub_cancel' hle

/-! ## UTF-8 -/

theorem stepAt_ofNat :
    (∀ v < 0x80, stepAt (UInt8.ofNat v) = ⟨1, 1⟩) ∧
    (∀ v < 0x20, stepAt (UInt8.ofNat (v + 0xC0)) = ⟨2, 1⟩) ∧
    (∀ v < 0x10, stepAt (UInt8.ofNat (v + 0xE0)) = ⟨3, 1⟩) ∧
    ∀ v < 0x08, stepAt (UInt8.ofNat (v + 0xF0)) = ⟨4, 2⟩ := by
  decide +kernel

/-- A character is one, and has its code units. -/
theorem characters_utf8EncodeChar (c : Char) (rest : List UInt8) :
    characters (String.utf8EncodeChar c ++ rest) =
      (utf16Units c, (String.utf8EncodeChar c).length) :: characters rest := by
  obtain ⟨hone, htwo, hthree, hfour⟩ := stepAt_ofNat
  have hval : c.toNat = c.val.toNat := rfl
  rw [String.utf8EncodeChar, utf16Units, hval]
  split_ifs with h₁ h₂ h₃ hbasic <;> try omega
  · rw [List.cons_append, characters_cons, hone _ (by omega)]
    rfl
  · rw [List.cons_append, characters_cons, htwo _ (Nat.mod_lt _ (by decide))]
    rfl
  · rw [List.cons_append, characters_cons, hthree _ (Nat.mod_lt _ (by decide))]
    rfl
  · rw [List.cons_append, characters_cons, hfour _ (Nat.mod_lt _ (by decide))]
    rfl

theorem characters_utf8 (text : List Char) : characters (utf8 text) =
    text.map fun c => (utf16Units c, (String.utf8EncodeChar c).length) := by
  induction text with
  | nil => rfl
  | cons c text ih => rw [utf8, List.flatMap_cons, characters_utf8EncodeChar, ← utf8, ih, List.map_cons]

theorem length_utf8 (text : List Char) :
    (utf8 text).length = (text.map fun c => (String.utf8EncodeChar c).length).sum :=
  List.length_flatMap

/-- In valid UTF-8 the UTF-16 column is the number of code units before it. -/
theorem byteToUtf16Column_utf8 (text text' : List Char)
    (hfits : (utf8 text).length < 18446744073709551616) :
    byteToUtf16Column (utf8 (text ++ text')) (utf8 text).length = (text.map utf16Units).sum := by
  have hsolid : Solid (swap (characters (utf8 text))) := (solid_characters _).swap
  have happend := convert_append _ (swap (characters (utf8 text'))) hsolid
  rw [byteToUtf16Column_eq hfits]
  rw [swap, swap, ← List.map_append] at happend
  simp only [characters_utf8, ← List.map_append, List.map_map] at happend
  rw [swap, characters_utf8, length_utf8, List.map_map]
  exact happend

/-! ## Exactness -/

theorem exact_of_complete (hlen : text.length < 9223372036854775808)
    (hcomplete : Complete text) : Exact text where
  byte_mono c c' h hfits := by
    rw [Fits] at hfits
    rw [byteToUtf16Column_eq (by omega), byteToUtf16Column_eq (by omega)]
    exact convert_mono _ h
  utf16_mono x x' h hfits := by
    have hfits' : Fits text x := Nat.lt_of_le_of_lt (Nat.add_le_add_right h _) hfits
    rw [utf16ToByteColumn_eq hcomplete hfits, utf16ToByteColumn_eq hcomplete hfits']
    exact convert_mono _ h
  byte_round c hfits hboundary := by
    have hround := convert_swap (solid_characters text).swap
      (isMark_of_boundary hcomplete hboundary)
    have hle := convert_bytes_le text c
    rw [Fits] at hfits
    rw [Complete] at hcomplete
    rw [byteToUtf16Column_eq (by omega),
      utf16ToByteColumn_eq hcomplete (by rw [Fits]; omega)]
    rwa [swap_swap] at hround
  utf16_round x hfits hboundary := by
    have hle := convert_units_le text x
    rw [utf16ToByteColumn_eq hcomplete hfits]
    rw [Fits] at hfits
    rw [Complete] at hcomplete
    rw [byteToUtf16Column_eq (by omega)]
    exact convert_swap (solid_characters text) hboundary
  units text text' hline := by
    subst hline
    refine byteToUtf16Column_utf8 text text' ?_
    rw [utf8, List.flatMap_append, List.length_append, ← utf8] at hlen
    omega

/-- Where the end of the line cuts a character short, the two columns behind it are one. -/
theorem complete_of_exact (hlen : text.length < 9223372036854775808) (h : Exact text) :
    Complete text := by
  refine Decidable.byContradiction fun hcut => ?_
  have hstay := convert_succ (mt complete_of_isMark hcut)
  have hend := h.byte_round text.length (by rw [Fits]; omega) (.inl (Nat.le_refl _))
  have hbehind := h.byte_round (text.length + 1) (by rw [Fits]; omega) (.inl (Nat.le_succ _))
  rw [byteToUtf16Column_eq (by omega)] at hend hbehind
  rw [hstay, hend] at hbehind
  omega

/-- The conversions of a line are exact if and only if its last character is complete. -/
theorem exact_iff (text : List UInt8) (hlen : text.length < 9223372036854775808) :
    Exact text ↔ Complete text :=
  ⟨complete_of_exact hlen, exact_of_complete hlen⟩

/-- A line with a surrogate pair and a byte that begins no character. -/
theorem exact_iff_sample : Exact [0x61, 0xF0, 0x9F, 0x98, 0x80, 0xFF] ↔
    Complete [0x61, 0xF0, 0x9F, 0x98, 0x80, 0xFF] :=
  exact_iff _ (by decide)

/-- A line that ends behind the first byte of a character of two: the column behind its end is
    taken to its end. -/
theorem cut_short : byteToUtf16Column [0xC3] 2 = 1 ∧ utf16ToByteColumn [0xC3] 1 = 1 ∧
    ¬Exact [0xC3] := by
  refine ⟨by decide, by decide, fun h => ?_⟩
  have hround := h.byte_round 2 (by rw [Fits]; decide) (.inl (by decide))
  exact absurd hround (by decide)

/-- A request for the column the server sends is for the byte column it comes from. -/
theorem requestByteColumn_eq (hlen : text.length < 9223372036854775808) (h : Complete text)
    (hfits : Fits text c) (hboundary : IsByteBoundary text c) :
    requestByteColumn text (byteToUtf16Column text c + 1) = c + 1 := by
  rw [requestByteColumn, Nat.add_sub_cancel,
    (exact_of_complete hlen h).byte_round c hfits hboundary]

end Mirage.Lsp.Encoding

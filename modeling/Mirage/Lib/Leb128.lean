import Mirage.Lib.Reader
import Mathlib.Algebra.Ring.Int.Defs
import Mathlib.Tactic.Ring

/-!
# LEB128

Integers as bytes of seven bits each, the lowest first, every byte but the last with
its high bit set (`uleb`). The signed form is two's complement of as many groups as
it takes: it ends where the value left is all sign, and bit 6 of the last byte is that
sign (`sleb`).

Readers of a given width take the numbers of that width and refuse the bytes of any
other (`readU`, `readS`); a reader of lengths has no width (`readUleb`).

* `readUleb_uleb`: every number is read back;
* `readU_uleb`, `readS_sleb`: so is, by the reader of its width, every number of a width.
-/

namespace Mirage.Leb128

/-- The bytes of an unsigned number, by its low seven bits until nothing is left. -/
def uleb (value : Nat) : List (BitVec 8) :=
  if value / 128 = 0 then [BitVec.ofNat 8 (value % 128)]
  else BitVec.ofNat 8 (value % 128 + 128) :: uleb (value / 128)
termination_by value
decreasing_by omega

/-- The bytes of a signed number: the shift is arithmetic, and the number ends where what is
    left is the sign of the last byte's bit 6. -/
def sleb (value : Int) : List (BitVec 8) :=
  if (value / 128 = 0 ∧ (value % 128).toNat < 64) ∨
      (value / 128 = -1 ∧ 64 ≤ (value % 128).toNat) then
    [BitVec.ofNat 8 (value % 128).toNat]
  else BitVec.ofNat 8 ((value % 128).toNat + 128) :: sleb (value / 128)
termination_by value.natAbs
decreasing_by omega

/-- An unsigned number of any size. -/
def readUleb : Reader (BitVec 8) Nat
  | [] => none
  | b :: rest =>
    if b.toNat < 128 then some (b.toNat, rest)
    else (readUleb rest).map fun (m, rest) => (128 * m + (b.toNat - 128), rest)

/-- An unsigned number of `width` bits, in no more bytes than these take. -/
def readU : Nat → Reader (BitVec 8) Nat
  | _, [] => none
  | width, b :: rest =>
    if b.toNat < 128 then if b.toNat < 2 ^ width then some (b.toNat, rest) else none
    else if 7 < width then
      (readU (width - 7) rest).map fun (m, rest) => (128 * m + (b.toNat - 128), rest)
    else none

/-- A signed number of `width` bits, in no more bytes than these take. -/
def readS : Nat → Reader (BitVec 8) Int
  | _, [] => none
  | width, b :: rest =>
    if b.toNat < 64 then if b.toNat < 2 ^ (width - 1) then some (b.toNat, rest) else none
    else if b.toNat < 128 then
      if 128 - 2 ^ (width - 1) ≤ b.toNat then some ((b.toNat : Int) - 128, rest) else none
    else if 7 < width then
      (readS (width - 7) rest).map fun (m, rest) => (128 * m + ((b.toNat : Int) - 128), rest)
    else none

theorem toNat_group {n : Nat} (h : n < 256) : (BitVec.ofNat 8 n).toNat = n :=
  Nat.mod_eq_of_lt h

/-- Every number is read back from its bytes. -/
theorem readUleb_uleb (value : Nat) : Reads readUleb (uleb value) value := by
  intro rest
  induction value using uleb.induct with
  | case1 value h =>
    rw [uleb, if_pos h, List.singleton_append, readUleb, toNat_group (by omega),
      if_pos (by omega), show value % 128 = value by omega]
  | case2 value h ih =>
    rw [uleb, if_neg h, List.cons_append, readUleb, toNat_group (by omega),
      if_neg (by omega), ih]
    show some (128 * (value / 128) + (value % 128 + 128 - 128), rest) = _
    rw [show 128 * (value / 128) + (value % 128 + 128 - 128) = value by omega]

/-- A number of a width is read back by the reader of that width. -/
theorem readU_uleb {value w : Nat} (h : value < 2 ^ w) :
    Reads (readU w) (uleb value) value := by
  intro rest
  induction value using uleb.induct generalizing w with
  | case1 value hlast =>
    rw [uleb, if_pos hlast, List.singleton_append, readU, toNat_group (by omega),
      if_pos (by omega), show value % 128 = value by omega, if_pos h]
  | case2 value hmore ih =>
    have hwidth : 7 < w := by
      by_contra hw
      have : 2 ^ w ≤ 2 ^ 7 := Nat.pow_le_pow_right (by omega) (by omega)
      omega
    have hpow : 2 ^ w = 128 * 2 ^ (w - 7) := by
      rw [show w = 7 + (w - 7) by omega, pow_add, show 7 + (w - 7) - 7 = w - 7 by
        omega]
      rfl
    rw [uleb, if_neg hmore, List.cons_append, readU, toNat_group (by omega),
      if_neg (by omega), if_pos hwidth, ih (w := w - 7) (by omega)]
    show some (128 * (value / 128) + (value % 128 + 128 - 128), rest) = _
    rw [show 128 * (value / 128) + (value % 128 + 128 - 128) = value by omega]

/-- A signed number of a width is read back by the reader of that width. -/
theorem readS_sleb {value : Int} {w : Nat} (hlo : -2 ^ (w - 1) ≤ value)
    (hhi : value < 2 ^ (w - 1)) : Reads (readS w) (sleb value) value := by
  intro rest
  induction value using sleb.induct generalizing w with
  | case1 value hlast =>
    rw [sleb, if_pos hlast, List.singleton_append, readS, toNat_group (by omega)]
    rcases hlast with ⟨hzero, hsmall⟩ | ⟨hsign, hlarge⟩
    · have hvalue : ((value % 128).toNat : Int) = value := by omega
      have hfits : (value % 128).toNat < 2 ^ (w - 1) := by
        have : ((value % 128).toNat : Int) < ((2 ^ (w - 1) : Nat) : Int) := by
          rw [hvalue]; push_cast; exact hhi
        exact Int.ofNat_lt.1 this
      rw [if_pos hsmall, if_pos hfits, hvalue]
    · have hvalue : ((value % 128).toNat : Int) - 128 = value := by omega
      have hfits : 128 - 2 ^ (w - 1) ≤ (value % 128).toNat := by
        have : -((2 ^ (w - 1) : Nat) : Int) ≤ value := by push_cast; exact hlo
        omega
      rw [if_neg (by omega), if_pos (by omega), if_pos hfits, hvalue]
  | case2 value hmore ih =>
    have hcast : ((2 ^ (w - 1) : Nat) : Int) = 2 ^ (w - 1) := by push_cast; rfl
    have hwidth : 7 < w := by
      by_contra hw
      have : 2 ^ (w - 1) ≤ 2 ^ 6 := Nat.pow_le_pow_right (by omega) (by omega)
      omega
    have hpow : 2 ^ (w - 1) = 128 * 2 ^ (w - 7 - 1) := by
      rw [show w - 1 = 7 + (w - 7 - 1) by omega, pow_add]
      rfl
    have hcast' : ((2 ^ (w - 7 - 1) : Nat) : Int) = 2 ^ (w - 7 - 1) := by push_cast; rfl
    rw [sleb, if_neg hmore, List.cons_append, readS, toNat_group (by omega),
      if_neg (by omega), if_neg (by omega), if_pos hwidth,
      ih (w := w - 7) (by omega) (by omega)]
    show some (128 * (value / 128) + ((((value % 128).toNat + 128 : Nat) : Int) - 128), rest) = _
    rw [show 128 * (value / 128) + ((((value % 128).toNat + 128 : Nat) : Int) - 128) = value by
      omega]

end Mirage.Leb128

import Mathlib.Data.Nat.Digits.Lemmas

/-!
# Text in bytes

Text of ASCII characters as bytes (`text`), and numbers written in decimal (`decimalText`).
The digits of a number are those of `Nat.digits`, the first one first.

* `decimalValue_decimalText`: the digits of a number have its value;
* `isDigit_of_mem_decimalText`, `decimalText_ne_nil`: they are digits, at least one;
* `length_decimalText_le`: not more than a power of ten above the number says.
-/

namespace Mirage

/-- The bytes of a text of ASCII characters. -/
def text (s : String) : List (BitVec 8) := s.toList.map fun c => BitVec.ofNat 8 c.toNat

/-- A character from `0` to `9`. -/
def isDigit (c : BitVec 8) : Bool := 48 ≤ c && c ≤ 57

/-- The value of digits, continuing a number. -/
def decimalFrom (n : Nat) (cs : List (BitVec 8)) : Nat :=
  cs.foldl (fun n c => 10 * n + (c.toNat - 48)) n

/-- The value of digits. -/
def decimalValue (cs : List (BitVec 8)) : Nat := decimalFrom 0 cs

def digitByte (d : Nat) : BitVec 8 := BitVec.ofNat 8 (48 + d)

/-- A number in decimal. -/
def decimalText (n : Nat) : List (BitVec 8) :=
  if n = 0 then [digitByte 0] else (Nat.digits 10 n).reverse.map digitByte

theorem toNat_digitByte {d : Nat} (h : d < 10) : (digitByte d).toNat = 48 + d := by
  rw [digitByte, BitVec.toNat_ofNat, Nat.mod_eq_of_lt (by omega)]

theorem isDigit_digitByte {d : Nat} (h : d < 10) : isDigit (digitByte d) = true := by
  rw [isDigit, Bool.and_eq_true, decide_eq_true_iff, decide_eq_true_iff, BitVec.le_def,
    BitVec.le_def, toNat_digitByte h]
  exact ⟨Nat.le_add_right 48 d, by show 48 + d ≤ 57; omega⟩

theorem isDigit_of_mem_decimalText {n : Nat} {c : BitVec 8} (h : c ∈ decimalText n) :
    isDigit c = true := by
  rw [decimalText] at h
  split at h
  · rw [List.mem_singleton.1 h]
    rfl
  · obtain ⟨d, hd, rfl⟩ := List.mem_map.1 h
    exact isDigit_digitByte (Nat.digits_lt_base (by decide) (List.mem_reverse.1 hd))

theorem decimalText_ne_nil (n : Nat) : decimalText n ≠ [] := by
  rw [decimalText]
  split
  · exact List.cons_ne_nil _ _
  · rename_i h
    exact fun hnil => Nat.digits_ne_nil_iff_ne_zero.2 h
      (List.reverse_eq_nil_iff.1 (List.map_eq_nil_iff.1 hnil))

theorem length_decimalText_le {n k : Nat} (hk : 0 < k) (h : n < 10 ^ k) :
    (decimalText n).length ≤ k := by
  rw [decimalText]
  split
  · exact hk
  · rw [List.length_map, List.length_reverse]
    exact (Nat.digits_length_le_iff (by decide) n).2 h

/-- The digits of a number have its value. -/
theorem decimalValue_decimalText (n : Nat) : decimalValue (decimalText n) = n := by
  have hfold : ∀ ds : List Nat, (∀ d ∈ ds, d < 10) →
      decimalValue (ds.reverse.map digitByte) = Nat.ofDigits 10 ds := by
    intro ds hds
    rw [decimalValue, decimalFrom, List.foldl_map, List.foldl_reverse]
    induction ds with
    | nil => rfl
    | cons d ds ih =>
      rw [List.foldr_cons, ih fun d hd => hds d (List.mem_cons_of_mem _ hd),
        toNat_digitByte (hds d List.mem_cons_self), Nat.ofDigits_cons, Nat.add_sub_cancel_left,
        Nat.add_comm]
  rw [decimalText]
  split
  · rename_i h
    rw [h]
    rfl
  · rw [hfold _ fun d hd => Nat.digits_lt_base (by decide) hd, Nat.ofDigits_digits]

end Mirage

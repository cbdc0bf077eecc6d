import Mirage.Lib.Blob
import Mirage.Lib.Reader

/-!
# Little-endian words

A number as so many bytes, the low byte first (`word`), and the reader of it. What lies in
a file is found by its offset and its length (`slice`), and stays where it is when the file
grows.

* `reads_word`: a number that fits in its bytes is read back;
* `slice_eq`: the slice behind a part of a file is what was put there.
-/

namespace Mirage

open Reader (takeExactly)

/-- The `n` low bytes of a number, the lowest first. -/
def word (n : Nat) {w : Nat} (v : BitVec w) : List (BitVec 8) :=
  (List.range n).map fun i => (v >>> (8 * i)).setWidth 8

/-- A number of `n` bytes, the lowest first. -/
def readWord (n w : Nat) : Reader (BitVec 8) (BitVec w) := do
  let bytes ← takeExactly n
  pure (BitVec.ofNat w (bytesValue bytes))

/-- The `n` bytes of a file from an offset on, if it has so many. -/
def slice {β : Type} (file : List β) (offset n : Nat) : Option (List β) :=
  if offset + n ≤ file.length then some ((file.drop offset).take n) else none

@[simp] theorem length_word (n : Nat) {w : Nat} (v : BitVec w) : (word n v).length = n := by
  simp [word]

theorem word_succ (n : Nat) {w : Nat} (v : BitVec w) :
    word (n + 1) v = v.setWidth 8 :: word n (v >>> 8) := by
  rw [word, List.range_succ_eq_map, List.map_cons, List.map_map, word]
  refine congrArg₂ _ (by simp) (List.map_congr_left fun i _ => ?_)
  show (v >>> (8 * (i + 1))).setWidth 8 = ((v >>> 8) >>> (8 * i)).setWidth 8
  rw [Nat.mul_succ, Nat.add_comm, BitVec.shiftRight_add]

/-- The bytes of a word are the number, as far as they reach. -/
theorem bytesValue_word (n : Nat) {w : Nat} (v : BitVec w) :
    bytesValue (word n v) = v.toNat % 2 ^ (8 * n) := by
  induction n generalizing v with
  | zero => simp [word, bytesValue, Nat.mod_one]
  | succ n ih =>
    have hsplit : 2 ^ (8 * (n + 1)) = 256 * 2 ^ (8 * n) := by
      rw [Nat.mul_succ, Nat.add_comm, Nat.pow_add]
    rw [word_succ, bytesValue, ih, hsplit, Nat.mod_mul, BitVec.toNat_setWidth,
      BitVec.toNat_ushiftRight, Nat.shiftRight_eq_div_pow]

/-- A number that fits in its bytes is read back. -/
theorem reads_word {n w : Nat} (h : w ≤ 8 * n) (v : BitVec w) :
    Reads (readWord n w) (word n v) v := by
  have htake := Reads.takeExactly (word n v)
  rw [length_word] at htake
  have hread := htake.bind_pure (g := fun bytes => BitVec.ofNat w (bytesValue bytes))
  have hfits : v.toNat % 2 ^ (8 * n) = v.toNat :=
    Nat.mod_eq_of_lt (v.isLt.trans_le (Nat.pow_le_pow_right two_pos h))
  rw [bytesValue_word, hfits, BitVec.ofNat_toNat, BitVec.setWidth_eq] at hread
  exact hread

/-! ## Slices -/

section

variable {β : Type} {file content : List β} {offset n : Nat}

/-- What was put between two parts of a file. -/
theorem slice_eq (before content after : List β) :
    slice (before ++ content ++ after) before.length content.length = some content := by
  have hle : before.length + content.length ≤ (before ++ content ++ after).length := by
    rw [List.length_append, List.length_append]
    omega
  rw [slice, if_pos hle, List.append_assoc, List.drop_left, List.take_left]

/-- A slice stays where it is when the file grows. -/
theorem slice_append (after : List β) (h : slice file offset n = some content) :
    slice (file ++ after) offset n = some content := by
  rw [slice] at h
  split at h
  · rename_i hle
    have hle' : offset + n ≤ (file ++ after).length := by
      rw [List.length_append]
      omega
    have htake : n ≤ (file.drop offset).length := by
      rw [List.length_drop]
      omega
    rw [slice, if_pos hle', List.drop_append_of_le_length (by omega),
      List.take_append_of_le_length htake, h]
  · cases h

end

end Mirage

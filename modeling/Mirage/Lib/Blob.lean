import Mathlib.Data.List.Basic
import Mathlib.Algebra.Order.Ring.Nat

/-!
# Byte blobs

A blob is a function from offsets to bytes. Every write puts a range of bytes over it
(`splice`): a fill, a copy from another blob, or a number of four bytes. What is read from a
range depends only on the writes that meet it:

* `bytes_splice_of_apart`: a write apart from the range is not seen;
* `bytes_splice_of_inside`: a range inside a write reads what was written;
* `load32_store32`: a number of 32 bits is read back.
-/

namespace Mirage

/-- Offsets to bytes. -/
abbrev Blob := Nat → BitVec 8

/-- The bytes as a little-endian number. -/
def bytesValue : List (BitVec 8) → Nat
  | [] => 0
  | byte :: bytes => byte.toNat + 256 * bytesValue bytes

theorem bytesValue_lt (bytes : List (BitVec 8)) : bytesValue bytes < 2 ^ (8 * bytes.length) := by
  induction bytes with
  | nil => simp [bytesValue]
  | cons byte bytes ih =>
    have := byte.isLt
    rw [bytesValue, List.length_cons, Nat.mul_succ, Nat.pow_add]
    omega

namespace Blob

/-- The `n` bytes from an offset on. -/
def bytes (b : Blob) (offset n : Nat) : List (BitVec 8) := (List.range n).map fun i => b (offset + i)

/-- `n` bytes put over a blob. -/
def splice (b : Blob) (offset n : Nat) (f : Nat → BitVec 8) : Blob := fun x =>
  if offset ≤ x ∧ x < offset + n then f (x - offset) else b x

def fill (b : Blob) (offset n : Nat) : Blob := b.splice offset n fun _ => 0

/-- `n` bytes of another blob, from `start` on. -/
def copy (b : Blob) (offset : Nat) (src : Blob) (start n : Nat) : Blob :=
  b.splice offset n fun i => src (start + i)

def write (b : Blob) (offset : Nat) (data : List (BitVec 8)) : Blob :=
  b.splice offset data.length fun i => data.getD i 0

/-- A byte of a number. -/
def digit (value i : Nat) : BitVec 8 := BitVec.ofNat 8 (value / 256 ^ i)

def store32 (b : Blob) (offset value : Nat) : Blob := b.splice offset 4 (digit value)

def load32 (b : Blob) (offset : Nat) : Nat := bytesValue (b.bytes offset 4)

variable {b src : Blob} {offset n x k : Nat} {f : Nat → BitVec 8}

@[simp] theorem length_bytes (b : Blob) (offset n : Nat) : (b.bytes offset n).length = n := by
  simp [bytes]

theorem bytes_congr {b' : Blob} (h : ∀ i < n, b (offset + i) = b' (x + i)) :
    b.bytes offset n = b'.bytes x n := by
  refine List.map_congr_left fun i hi => h i (List.mem_range.1 hi)

/-- A write apart from a range. -/
theorem bytes_splice_of_apart (h : x + k ≤ offset ∨ offset + n ≤ x) :
    (b.splice offset n f).bytes x k = b.bytes x k := by
  refine bytes_congr fun i hi => if_neg ?_
  omega

/-- A range inside a write. -/
theorem bytes_splice_of_inside (h : offset ≤ x) (h' : x + k ≤ offset + n) :
    (b.splice offset n f).bytes x k = (List.range k).map fun i => f (x - offset + i) := by
  refine List.map_congr_left fun i hi => ?_
  have := List.mem_range.1 hi
  rw [splice, if_pos (by omega)]
  congr 1
  omega

/-- A range inside a copy. -/
theorem bytes_copy_of_inside {start : Nat} (h : offset ≤ x) (h' : x + k ≤ offset + n) :
    (b.copy offset src start n).bytes x k = src.bytes (start + (x - offset)) k := by
  rw [copy, bytes_splice_of_inside h h']
  refine List.map_congr_left fun i _ => ?_
  rw [Nat.add_assoc]

theorem bytes_copy_of_apart {start : Nat} (h : x + k ≤ offset ∨ offset + n ≤ x) :
    (b.copy offset src start n).bytes x k = b.bytes x k :=
  bytes_splice_of_apart h

theorem bytes_store32_of_apart {value : Nat} (h : x + k ≤ offset ∨ offset + 4 ≤ x) :
    (b.store32 offset value).bytes x k = b.bytes x k :=
  bytes_splice_of_apart h

/-- A number of 32 bits is read back. -/
theorem load32_store32 {value : Nat} (h : value < 2 ^ 32) :
    (b.store32 offset value).load32 offset = value := by
  rw [load32, store32, bytes_splice_of_inside (Nat.le_refl _) (Nat.le_refl _), Nat.sub_self]
  simp only [List.range, List.range.loop, List.map_cons, List.map_nil, bytesValue, digit,
    BitVec.toNat_ofNat]
  omega

theorem load32_store32_of_apart {value : Nat} (h : x + 4 ≤ offset ∨ offset + 4 ≤ x) :
    (b.store32 offset value).load32 x = b.load32 x := by
  rw [load32, bytes_store32_of_apart h, load32]

theorem load32_copy_of_apart {start : Nat} (h : x + 4 ≤ offset ∨ offset + n ≤ x) :
    (b.copy offset src start n).load32 x = b.load32 x := by
  rw [load32, bytes_copy_of_apart h, load32]

theorem load32_copy_of_inside {start : Nat} (h : offset ≤ x) (h' : x + 4 ≤ offset + n) :
    (b.copy offset src start n).load32 x = src.load32 (start + (x - offset)) := by
  rw [load32, bytes_copy_of_inside h h', load32]

/-! ## Sequences of writes -/

section

variable {α : Type*} {step : Blob → α → Blob} {l : List α} {y : Nat}

/-- A byte that no step writes. -/
theorem foldl_of_frame (h : ∀ a ∈ l, ∀ b, step b a y = b y) (b : Blob) : l.foldl step b y = b y := by
  induction l generalizing b with
  | nil => rfl
  | cons a l ih =>
    rw [List.foldl_cons, ih fun a' ha' => h a' (List.mem_cons_of_mem _ ha'), h a List.mem_cons_self]

/-- A blob from an offset on. -/
def view (b : Blob) (base : Nat) : Blob := fun x => b (base + x)

theorem view_store32 (b : Blob) (base offset value : Nat) :
    (b.store32 (base + offset) value).view base = (b.view base).store32 offset value := by
  funext x
  rw [view, store32, splice, store32, splice, view]
  by_cases h : offset ≤ x ∧ x < offset + 4
  · rw [if_pos h, if_pos (by omega), Nat.add_sub_add_left]
  · rw [if_neg h, if_neg (by omega)]

/-- A number that is stored behind others, and apart from the ones after it. -/
theorem load32_foldl_store32 {offset value : α → Nat} {before after : List α} {a : α}
    (hvalue : value a < 2 ^ 32)
    (hafter : ∀ s ∈ after, offset s + 4 ≤ offset a ∨ offset a + 4 ≤ offset s) (b : Blob) :
    ((before ++ a :: after).foldl (fun b s => b.store32 (offset s) (value s)) b).load32 (offset a) =
      value a := by
  rw [List.foldl_append, List.foldl_cons]
  generalize before.foldl (fun b s => b.store32 (offset s) (value s)) b = b
  have hframe : ∀ b : Blob, (after.foldl (fun b s => b.store32 (offset s) (value s)) b).load32
      (offset a) = b.load32 (offset a) := by
    induction after with
    | nil => exact fun _ => rfl
    | cons s after ih =>
      intro b
      obtain ⟨hs, hafter⟩ := List.forall_mem_cons.1 hafter
      rw [List.foldl_cons, ih hafter, load32_store32_of_apart hs.symm]
  rw [hframe, load32_store32 hvalue]

end

end Blob

end Mirage

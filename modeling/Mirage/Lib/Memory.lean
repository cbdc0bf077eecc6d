import Mathlib.Data.BitVec
import Mathlib.Data.Int.Basic
import Mathlib.Data.Set.Basic
import Mathlib.Tactic.Ring

/-!
# Byte memories

A memory is a function from 64-bit addresses to bytes; addresses wrap around.
`Mem.read m a n` reads `n` bytes from `a` on as a little-endian number and
`Mem.write m a n v` writes the `n` low bytes of `v` there.

* `read_write_same`: reading back what was written gives its low bytes;
* `bytes a n` is the range as a set of addresses: what a write changes
  (`write_of_not_mem`) and what a read depends on (`read_congr`).
-/

namespace Mirage

/-- A byte-addressed memory. -/
abbrev Mem := BitVec 64 → BitVec 8

namespace Mem

/-- The `n` bytes from `a` on, as a little-endian number. -/
def readNat (m : Mem) (a : BitVec 64) : Nat → Nat
  | 0 => 0
  | n + 1 => (m a).toNat + 256 * readNat m (a + 1) n

/-- The `n` bytes from `a` on (at most eight of them). -/
def read (m : Mem) (a : BitVec 64) (n : Nat) : BitVec 64 := BitVec.ofNat 64 (m.readNat a n)

/-- The memory with the `n` low bytes of `v` written from `a` on. -/
def write (m : Mem) (a : BitVec 64) (n : Nat) (v : BitVec 64) : Mem := fun x =>
  if (x - a).toNat < n then BitVec.ofNat 8 (v.toNat / 256 ^ (x - a).toNat) else m x

/-- The `n` bytes from `b` on contain none of the `k` bytes from `a` on. -/
def Apart (a : BitVec 64) (k : Nat) (b : BitVec 64) (n : Nat) : Prop :=
  ∀ i < k, n ≤ ((a + BitVec.ofNat 64 i) - b).toNat

theorem readNat_congr {m m' : Mem} {a : BitVec 64} {n : Nat}
    (h : ∀ i < n, m (a + BitVec.ofNat 64 i) = m' (a + BitVec.ofNat 64 i)) :
    m.readNat a n = m'.readNat a n := by
  induction n generalizing a with
  | zero => rfl
  | succ n ih =>
    have h0 := h 0 (Nat.succ_pos n)
    rw [BitVec.add_zero] at h0
    rw [readNat, readNat, h0]
    congr 2
    refine ih fun i hi => ?_
    have := h (i + 1) (Nat.succ_lt_succ hi)
    rwa [Nat.add_comm i 1, BitVec.ofNat_add, ← BitVec.add_assoc] at this

/-- Reading a part of what was written: `j` bytes from the `k`-th on. -/
theorem readNat_write {m : Mem} {a : BitVec 64} {n : Nat} {v : BitVec 64} (hn : n ≤ 8) :
    ∀ j k, k + j ≤ n →
      (m.write a n v).readNat (a + BitVec.ofNat 64 k) j = v.toNat / 256 ^ k % 256 ^ j := by
  intro j
  induction j with
  | zero => intro k _; rw [readNat, Nat.pow_zero, Nat.mod_one]
  | succ j ih =>
    intro k hk
    have hoff : (a + BitVec.ofNat 64 k - a).toNat = k := by
      rw [BitVec.add_comm, BitVec.add_sub_cancel, BitVec.toNat_ofNat]
      exact Nat.mod_eq_of_lt (by omega)
    have hnext : a + BitVec.ofNat 64 k + 1 = a + BitVec.ofNat 64 (k + 1) := by
      rw [BitVec.add_assoc, BitVec.ofNat_add]
      rfl
    rw [readNat, hnext, ih (k + 1) (by omega), write, hoff, if_pos (by omega), BitVec.toNat_ofNat,
      Nat.pow_succ 256 k, ← Nat.div_div_eq_div_mul, Nat.pow_succ 256 j,
      Nat.mul_comm (256 ^ j) 256, Nat.mod_mul]

/-- Reading back a write gives the written bytes. -/
theorem read_write_same {m : Mem} {a : BitVec 64} {n : Nat} {v : BitVec 64} (hn : n ≤ 8) :
    (m.write a n v).read a n = BitVec.ofNat 64 (v.toNat % 256 ^ n) := by
  have := readNat_write (m := m) (a := a) (v := v) hn n 0 (by omega)
  rw [BitVec.add_zero, Nat.pow_zero, Nat.div_one] at this
  rw [read, this]

/-- Reading back eight written bytes gives the written word. -/
theorem read_write_word {m : Mem} {a v : BitVec 64} : (m.write a 8 v).read a 8 = v := by
  rw [read_write_same (Nat.le_refl 8)]
  have : v.toNat % 256 ^ 8 = v.toNat := Nat.mod_eq_of_lt v.isLt
  rw [this, BitVec.ofNat_toNat, BitVec.setWidth_eq]

/-- `n` bytes make a number below `256 ^ n`. -/
theorem readNat_lt (m : Mem) (a : BitVec 64) (n : Nat) : m.readNat a n < 256 ^ n := by
  induction n generalizing a with
  | zero => simp [readNat]
  | succ n ih =>
    have h0 : (m a).toNat < 256 := (m a).isLt
    have := ih (a + 1)
    rw [readNat, Nat.pow_succ]
    omega

/-- The first `n` of `n + k` bytes are the low ones. -/
theorem readNat_mod (m : Mem) (a : BitVec 64) (n k : Nat) :
    m.readNat a (n + k) % 256 ^ n = m.readNat a n := by
  induction n generalizing a with
  | zero => rw [Nat.pow_zero, Nat.mod_one, readNat]
  | succ n ih =>
    have h0 : (m a).toNat < 256 := (m a).isLt
    rw [Nat.succ_add, readNat, readNat, Nat.pow_succ, Nat.mul_comm (256 ^ n), Nat.mod_mul,
      Nat.add_mul_mod_self_left, Nat.mod_eq_of_lt h0, Nat.add_mul_div_left _ _ (by decide),
      Nat.div_eq_of_lt h0, Nat.zero_add, ih]

/-- The low half of a word. -/
theorem read_low_half (m : Mem) (a : BitVec 64) :
    (m.read a 4).setWidth 32 = (m.read a 8).setWidth 32 := by
  have h : m.readNat a 8 % 256 ^ 4 = m.readNat a 4 := m.readNat_mod a 4 4
  refine BitVec.eq_of_toNat_eq ?_
  simp only [read, BitVec.toNat_setWidth, BitVec.toNat_ofNat]
  omega

/-- The `n` addresses from `a` on. -/
def bytes (a : BitVec 64) (n : Nat) : Set (BitVec 64) := {x | (x - a).toNat < n}

theorem mem_bytes {a x : BitVec 64} {n : Nat} : x ∈ bytes a n ↔ (x - a).toNat < n := Iff.rfl

/-- A write changes nothing outside its bytes. -/
theorem write_of_not_mem {m : Mem} {a x v : BitVec 64} {n : Nat} (h : x ∉ bytes a n) :
    m.write a n v x = m x := if_neg h

/-- A read depends on its bytes only. -/
theorem read_congr {m m' : Mem} {a : BitVec 64} {n : Nat} (hn : n ≤ 8)
    (h : ∀ x ∈ bytes a n, m x = m' x) : m.read a n = m'.read a n := by
  rw [read, read, readNat_congr fun i hi => h _ ?_]
  rw [mem_bytes, BitVec.add_comm, BitVec.add_sub_cancel, BitVec.toNat_ofNat]
  omega

/-- Where the bytes at a signed offset from a base lie, when they do not wrap around. -/
theorem toNat_of_mem_bytes {base x : BitVec 64} {off : Int} {n : Nat}
    (h : x ∈ bytes (base + BitVec.ofInt 64 off) n) (hlo : 0 ≤ base.toNat + off)
    (hhi : base.toNat + off + n ≤ 2 ^ 64) :
    base.toNat + off ≤ x.toNat ∧ x.toNat < base.toNat + off + n := by
  rw [mem_bytes, BitVec.toNat_sub, BitVec.toNat_add, BitVec.toNat_ofInt] at h
  have hx := x.isLt
  have hb := base.isLt
  omega

end Mem

end Mirage

import Mathlib.Data.Nat.Prime.Basic
import Mathlib.Algebra.Order.Ring.Nat

/-!
# Alignment

The least multiple of an alignment that is not below a position (`roundUp`), and the
places of a row of extents, each of which begins at the first multiple of its alignment
behind the one before it (`ends`, `starts`). The numbers are exact.

* `roundUp_le`: a multiple that is not below the position is not below `roundUp`;
* `ends_le`: however extents are placed in order, at multiples of their alignments, they
  do not end before `ends`.
-/

namespace Mirage

/-- The least multiple of `a` that is not below `n`. -/
def roundUp (n a : Nat) : Nat := (n + a - 1) / a * a

section

variable {n m a b : Nat}

theorem dvd_roundUp (n a : Nat) : a ∣ roundUp n a := Dvd.intro_left _ rfl

theorem le_roundUp (h : 0 < a) : n ≤ roundUp n a := by
  have hdiv := Nat.div_add_mod (n + a - 1) a
  have hmod := Nat.mod_lt (n + a - 1) h
  rw [roundUp, Nat.mul_comm]
  omega

theorem roundUp_le (h : 0 < a) (hn : n ≤ m) (hm : a ∣ m) : roundUp n a ≤ m := by
  obtain ⟨k, rfl⟩ := hm
  rw [roundUp, Nat.mul_comm]
  refine Nat.mul_le_mul_left a (Nat.lt_succ_iff.1 ((Nat.div_lt_iff_lt_mul h).2 ?_))
  rw [Nat.succ_mul, Nat.mul_comm]
  omega

/-- Of two powers of a prime the smaller divides the larger. -/
theorem dvd_max_of_dvd_pow {p k : Nat} (hp : p.Prime) (ha : a ∣ p ^ k) (hb : b ∣ p ^ k) :
    a ∣ max a b := by
  obtain ⟨i, -, rfl⟩ := (Nat.dvd_prime_pow hp).1 ha
  obtain ⟨j, -, rfl⟩ := (Nat.dvd_prime_pow hp).1 hb
  rcases le_total i j with hij | hji
  · rw [max_eq_right (Nat.pow_le_pow_right hp.pos hij)]
    exact pow_dvd_pow p hij
  · rw [max_eq_left (Nat.pow_le_pow_right hp.pos hji)]

end

/-! ## Rows of extents -/

/-- A extent, with its size and an alignment that is not zero. -/
structure Extent where
  size : Nat
  align : Nat
  align_pos : 0 < align

/-- Where the extents begin, the first behind a position. -/
def starts (n : Nat) : List Extent → List Nat
  | [] => []
  | b :: bs => roundUp n b.align :: starts (roundUp n b.align + b.size) bs

/-- Where the last extent ends. -/
def ends (n : Nat) : List Extent → Nat
  | [] => n
  | b :: bs => ends (roundUp n b.align + b.size) bs

/-- The extents are in order, apart from each other and at multiples of their alignments,
    between two positions. -/
structure Placed (n e : Nat) (rows : List (Extent × Nat)) : Prop where
  aligned : ∀ r ∈ rows, r.1.align ∣ r.2
  ordered : rows.Pairwise fun r s => r.2 + r.1.size ≤ s.2
  behind : ∀ r ∈ rows, n ≤ r.2
  inside : ∀ r ∈ rows, r.2 + r.1.size ≤ e
  bounds : n ≤ e

theorem le_ends (n : Nat) (bs : List Extent) : n ≤ ends n bs := by
  induction bs generalizing n with
  | nil => exact le_rfl
  | cons b bs ih =>
    calc n ≤ roundUp n b.align := le_roundUp b.align_pos
      _ ≤ roundUp n b.align + b.size := Nat.le_add_right _ _
      _ ≤ ends n (b :: bs) := ih _

theorem length_starts (n : Nat) (bs : List Extent) : (starts n bs).length = bs.length := by
  induction bs generalizing n with
  | nil => rfl
  | cons b bs ih => exact congrArg Nat.succ (ih _)

theorem ends_append (n : Nat) (bs bs' : List Extent) : ends n (bs ++ bs') = ends (ends n bs) bs' := by
  induction bs generalizing n with
  | nil => rfl
  | cons b bs ih => exact ih _

/-- The extents are placed where they begin. -/
theorem placed_starts (n : Nat) (bs : List Extent) :
    Placed n (ends n bs) (bs.zip (starts n bs)) := by
  induction bs generalizing n with
  | nil => exact ⟨by simp, .nil, by simp, by simp, le_rfl⟩
  | cons b bs ih =>
    have h := ih (roundUp n b.align + b.size)
    have hn : n ≤ roundUp n b.align := le_roundUp b.align_pos
    rw [starts, List.zip_cons_cons]
    refine ⟨?_, ?_, ?_, ?_, le_ends n (b :: bs)⟩
    · exact List.forall_mem_cons.2 ⟨dvd_roundUp n b.align, h.aligned⟩
    · exact List.pairwise_cons.2 ⟨h.behind, h.ordered⟩
    · exact List.forall_mem_cons.2 ⟨hn, fun r hr => (hn.trans (Nat.le_add_right _ _)).trans (h.behind r hr)⟩
    · exact List.forall_mem_cons.2 ⟨h.bounds, h.inside⟩

/-- One more extent, behind the others. -/
theorem Placed.concat {n e : Nat} {rows : List (Extent × Nat)} (h : Placed n e rows) (b : Extent) :
    Placed n (roundUp e b.align + b.size) (rows ++ [(b, roundUp e b.align)]) := by
  have hle : e ≤ roundUp e b.align := le_roundUp b.align_pos
  have hend : e ≤ roundUp e b.align + b.size := hle.trans (Nat.le_add_right _ _)
  refine ⟨?_, ?_, ?_, ?_, h.bounds.trans hend⟩
  · exact List.forall_mem_append.2
      ⟨h.aligned, List.forall_mem_singleton.2 (dvd_roundUp e b.align)⟩
  · refine List.pairwise_append.2 ⟨h.ordered, List.pairwise_singleton _ _, fun r hr s hs => ?_⟩
    obtain rfl := List.mem_singleton.1 hs
    exact (h.inside r hr).trans hle
  · exact List.forall_mem_append.2
      ⟨h.behind, List.forall_mem_singleton.2 (h.bounds.trans hle)⟩
  · exact List.forall_mem_append.2
      ⟨fun r hr => (h.inside r hr).trans hend, List.forall_mem_singleton.2 le_rfl⟩

/-- Some extent ends where the row does. -/
theorem exists_end (n : Nat) {bs : List Extent} (h : bs ≠ []) :
    ∃ r ∈ bs.zip (starts n bs), r.2 + r.1.size = ends n bs := by
  induction bs generalizing n with
  | nil => exact absurd rfl h
  | cons b bs ih =>
    rw [starts, List.zip_cons_cons, ends]
    rcases eq_or_ne bs [] with rfl | hne
    · exact ⟨_, List.mem_cons_self, rfl⟩
    · obtain ⟨r, hr, hend⟩ := ih (roundUp n b.align + b.size) hne
      exact ⟨r, List.mem_cons_of_mem _ hr, hend⟩

/-- However the extents are placed, they do not end before `ends`. -/
theorem ends_le {n e : Nat} {rows : List (Extent × Nat)} (h : Placed n e rows) :
    ends n (rows.map Prod.fst) ≤ e := by
  induction rows generalizing n with
  | nil => exact h.bounds
  | cons r rows ih =>
    obtain ⟨haligned, haligned'⟩ := List.forall_mem_cons.1 h.aligned
    obtain ⟨hordered, hordered'⟩ := List.pairwise_cons.1 h.ordered
    obtain ⟨hbehind, -⟩ := List.forall_mem_cons.1 h.behind
    obtain ⟨hinside, hinside'⟩ := List.forall_mem_cons.1 h.inside
    have hstart : roundUp n r.1.align + r.1.size ≤ r.2 + r.1.size :=
      Nat.add_le_add_right (roundUp_le r.1.align_pos hbehind haligned) _
    exact ih ⟨haligned', hordered', fun s hs => hstart.trans (hordered s hs), hinside',
      hstart.trans hinside⟩

end Mirage

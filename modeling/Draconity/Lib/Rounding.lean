import Mathlib.Algebra.Order.Ring.Nat
import Mathlib.Data.Nat.ModEq

/-!
Rounding to multiples of a block size `p`.

The rules say when the start of a range rounded down and its size rounded up, each on its own, still
give all of it: the two offsets within a block must not carry.
-/

namespace Lib.Rounding

variable {p a n N : ℕ}

/-- The multiple of `p` at or below a number. -/
def down (p a : ℕ) : ℕ := a / p * p

/-- The multiple of `p` at or above a number. -/
def up (p n : ℕ) : ℕ := (n + (p - 1)) / p * p

theorem down_add_mod (p a : ℕ) : down p a + a % p = a := Nat.div_add_mod' a p

theorem up_eq (hp : 0 < p) (hn : 0 < n) : up p n = n + (p - 1 - (n - 1) % p) := by
  have hsum : n + (p - 1) = n - 1 + p := by omega
  have hmod : (n - 1) % p < p := Nat.mod_lt _ hp
  have hdown := down_add_mod p (n - 1)
  have hdiv : up p n = down p (n - 1) + p := by
    unfold up down
    rw [hsum, Nat.add_div_right _ hp, Nat.succ_mul]
  omega

theorem dvd_up (p n : ℕ) : p ∣ up p n := Nat.dvd_mul_left ..

theorem le_up (hp : 0 < p) (n : ℕ) : n ≤ up p n := by
  rcases Nat.eq_zero_or_pos n with rfl | hn
  · exact Nat.zero_le _
  · rw [up_eq hp hn]
    exact Nat.le_add_right ..

theorem up_le (hp : 0 < p) (hn : n ≤ N) (hN : p ∣ N) : up p n ≤ N := by
  obtain ⟨k, rfl⟩ := hN
  have hlt : (n + (p - 1)) / p < k + 1 := by
    rw [Nat.div_lt_iff_lt_mul hp, Nat.succ_mul, Nat.mul_comm k]
    omega
  unfold up
  rw [Nat.mul_comm p]
  exact Nat.mul_le_mul_right p (Nat.le_of_lt_succ hlt)

theorem up_lt_iff (hp : 0 < p) (hN : p ∣ N) : up p n < N ↔ n + p ≤ N := by
  constructor
  · intro h
    obtain ⟨k, hk⟩ := dvd_up p n
    obtain ⟨j, rfl⟩ := hN
    have hkj : k < j := Nat.lt_of_mul_lt_mul_left (hk ▸ h)
    calc n + p ≤ up p n + p := Nat.add_le_add_right (le_up hp n) p
      _ = p * (k + 1) := by rw [hk, Nat.mul_succ]
      _ ≤ p * j := Nat.mul_le_mul_left p hkj
  · intro h
    have hpN : p ≤ N := (Nat.le_add_left p n).trans h
    have hle : up p n ≤ N - p := up_le hp (by omega) (Nat.dvd_sub hN (Nat.dvd_refl p))
    omega

/-- The range from `a` of `n` units lies in its rounded start and size just when the offset of its
first unit and that of the last unit of a range of its size do not carry. -/
theorem covers_iff (hp : 0 < p) (hn : 0 < n) :
    a + n ≤ down p a + up p n ↔ a % p + (n - 1) % p < p := by
  have hdown := down_add_mod p a
  have hmod : (n - 1) % p < p := Nat.mod_lt _ hp
  rw [up_eq hp hn]
  omega

/-- A sum that wraps around at a multiple of `p` is rounded as one that does not. -/
theorem down_mod (hN : p ∣ N) : down p (a % N) = down p a % N := by
  obtain ⟨k, rfl⟩ := hN
  unfold down
  rw [Nat.mod_mul_right_div_self, Nat.mul_comm p k, Nat.mul_mod_mul_right]

end Lib.Rounding

import Mathlib.Data.List.TakeWhile
import Mathlib.Data.Nat.Bitwise

/-!
Blocks of memory, and what a program does through pointers into one.

A block is the list of its bytes, and a pointer into it the number of bytes before it.  What leaves
the block is `none`, so that a function that loads, stores and reads C strings returns `some` just
when it stays inside.
-/

namespace Lib

abbrev Buffer := List UInt8

namespace Buffer

def calloc (n : ℕ) : Buffer := List.replicate n 0

def load (b : Buffer) (pos n : ℕ) : Option (List UInt8) :=
  if pos + n ≤ b.length then some ((b.drop pos).take n) else none

/-- `memcpy` to a position. -/
def store (b : Buffer) (pos : ℕ) (bytes : List UInt8) : Option Buffer :=
  if pos + bytes.length ≤ b.length then
    some (b.take pos ++ bytes ++ b.drop (pos + bytes.length))
  else none

/-- The C string at a position, without its NUL. -/
def cString (b : Buffer) (pos : ℕ) : Option (List UInt8) :=
  if 0 ∈ b.drop pos then some ((b.drop pos).takeWhile (· ≠ 0)) else none

variable {b : Buffer} {pos n : ℕ} {xs ys zs bytes : List UInt8}

@[simp] theorem length_calloc (n : ℕ) : (calloc n).length = n := List.length_replicate

theorem calloc_add (m n : ℕ) : calloc (m + n) = calloc m ++ calloc n :=
  List.replicate_append_replicate.symm

theorem load_append (xs ys zs : List UInt8) :
    load (xs ++ ys ++ zs) xs.length ys.length = some ys := by
  unfold load
  rw [if_pos (by simp only [List.length_append]; omega), List.append_assoc,
    List.drop_left, List.take_left]

/-- A store in front of zeros, as a block is filled from its start. -/
theorem store_calloc (xs bytes : List UInt8) (n : ℕ) :
    store (xs ++ calloc (bytes.length + n)) xs.length bytes = some (xs ++ bytes ++ calloc n) := by
  unfold store
  rw [if_pos (by simp only [List.length_append, length_calloc]; omega), List.take_left,
    List.drop_length_add_append, calloc_add, List.drop_left' (length_calloc _)]

/-- A string that is followed by a NUL is read back as far as it has none itself. -/
theorem cString_append (xs ys zs : List UInt8) :
    cString (xs ++ ys ++ 0 :: zs) xs.length = some (ys.takeWhile (· ≠ 0)) := by
  have hdrop : (xs ++ ys ++ 0 :: zs).drop xs.length = ys ++ 0 :: zs := by
    rw [List.append_assoc, List.drop_left]
  unfold cString
  rw [hdrop, if_pos (List.mem_append_right _ (List.mem_cons_self ..))]
  congr 1
  induction ys with
  | nil => rfl
  | cons a ys ih =>
    by_cases ha : a = 0
    · simp [ha]
    · simpa [List.takeWhile_cons, ha] using ih

theorem takeWhile_eq_self_iff : xs.takeWhile (· ≠ 0) = xs ↔ (0 : UInt8) ∉ xs := by
  rw [List.takeWhile_eq_self_iff]
  exact ⟨fun h hx => by simpa using h 0 hx, fun h a ha => by
    have : a ≠ 0 := fun h0 => h (h0 ▸ ha)
    simpa using this⟩

theorem zero_notMem_of_cString (h : cString b pos = some xs) : (0 : UInt8) ∉ xs := by
  unfold cString at h
  split_ifs at h
  cases h
  exact fun h0 => by simpa using List.mem_takeWhile_imp h0

/-! ### Sizes -/

/-- `n & ~(2 ^ k - 1)` is the multiple of `2 ^ k` at or below `n`. -/
theorem ldiff_mask (n k : ℕ) : n.ldiff (2 ^ k - 1) = n / 2 ^ k * 2 ^ k := by
  refine Nat.eq_of_testBit_eq fun i => ?_
  rw [Nat.testBit_ldiff, Nat.testBit_two_pow_sub_one, Nat.testBit_mul_two_pow, Nat.testBit_div_two_pow]
  by_cases hi : i < k
  · simp [hi]
  · have hk : k ≤ i := Nat.le_of_not_lt hi
    simp [hk, Nat.not_lt.2 hk]

end Buffer

end Lib

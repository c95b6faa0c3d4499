import Mathlib.Data.List.Basic
import Mathlib.Data.Nat.Basic

/-!
Loops over an array that stop at the first entry for which something fails.

`scan` is such a loop, told how many passes to make.  It reads outside of the array just when it is told
to make more passes than the array has entries, and none of them stops it.
-/

namespace Lib.Scan

variable {α β : Type*} {f : α → Option β} {xs : List α} {n i : ℕ}

/-- The values of `f` up to the first entry that has none. -/
def collect (f : α → Option β) : List α → List β
  | [] => []
  | a :: l =>
    match f a with
    | none => []
    | some b => b :: collect f l

/-- At most `n` passes from the index `i` on: the values, with the indices of their entries.  It is
`none` when a pass reads outside of the array. -/
def scan (f : α → Option β) (xs : List α) : ℕ → ℕ → Option (List (β × ℕ))
  | 0, _ => some []
  | n + 1, i =>
    match xs[i]? with
    | none => none
    | some a =>
      match f a with
      | none => some []
      | some b => (scan f xs n (i + 1)).map fun l => (b, i) :: l

/-- **When a scan stays inside, and what it gives.** -/
theorem scan_eq (hi : i ≤ xs.length) :
    scan f xs n i =
      if xs.length - i < n ∧ ∀ a ∈ xs.drop i, (f a).isSome then none
      else some ((collect f ((xs.drop i).take n)).zipIdx i) := by
  induction n generalizing i with
  | zero => simp [scan, collect]
  | succ n ih =>
    by_cases hlt : i < xs.length
    · have hdrop : xs.drop i = xs[i] :: xs.drop (i + 1) := List.drop_eq_getElem_cons hlt
      have hlength : xs.length - i < n + 1 ↔ xs.length - (i + 1) < n := by omega
      rw [scan, List.getElem?_eq_getElem hlt, ih hlt, hdrop, List.take_succ_cons]
      generalize xs[i] = a
      generalize xs.drop (i + 1) = l
      rw [collect]
      simp only [hlength, List.forall_mem_cons]
      cases f a with
      | none => simp
      | some b =>
        simp only [Option.isSome_some, true_and]
        split_ifs <;> simp
    · obtain rfl : i = xs.length := by omega
      rw [scan, List.getElem?_eq_none le_rfl, List.drop_length]
      simp

end Lib.Scan

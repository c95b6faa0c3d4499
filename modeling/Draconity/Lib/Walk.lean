import Mathlib.Data.Nat.Basic
import Mathlib.Order.Basic

/-!
Walks over entries that say themselves how far it is to the next one.

`read` gives what is at a position and the distance to the next, `none` where reading fails.  A walk
goes on while its position is below `fin`, and it ends just when every entry it comes to can be read
and is not of size zero.
-/

namespace Lib.Walk

variable {β : Type*}

/-- The walk from a position on, in at most `fuel` passes: what was read, and where it ends. -/
def walk (fin : ℕ) (read : ℕ → Option (β × ℕ)) : ℕ → ℕ → Option (List β × ℕ)
  | 0, _ => none
  | fuel + 1, pos =>
    if pos < fin then do
      let (b, d) ← read pos
      let (bs, last) ← walk fin read fuel (pos + d)
      return (b :: bs, last)
    else some ([], pos)

/-- The walk from one position comes to the other. -/
inductive Visits (fin : ℕ) (read : ℕ → Option (β × ℕ)) : ℕ → ℕ → Prop
  | refl (p : ℕ) : Visits fin read p p
  | step {p q d : ℕ} {b : β} (hp : p < fin) (hread : read p = some (b, d))
    (h : Visits fin read (p + d) q) : Visits fin read p q

variable {fin fuel p q d : ℕ} {read : ℕ → Option (β × ℕ)} {b : β}

theorem walk_succ (hp : p < fin) (hread : read p = some (b, d)) :
    walk fin read (fuel + 1) p =
      (walk fin read fuel (p + d)).map fun r => (b :: r.1, r.2) := by
  rw [walk, if_pos hp, hread, Option.bind_eq_bind, Option.bind_some]
  dsimp only
  cases walk fin read fuel (p + d) <;> rfl

/-- An entry of size zero is read again and again. -/
theorem walk_zero (hp : p < fin) (hread : read p = some (b, 0)) (fuel : ℕ) :
    walk fin read fuel p = none := by
  induction fuel with
  | zero => rfl
  | succ fuel ih =>
    rw [walk_succ hp hread, Nat.add_zero, ih]
    rfl

theorem Visits.snoc (h : Visits fin read p q) (hq : q < fin)
    (hread : read q = some (b, d)) : Visits fin read p (q + d) := by
  induction h with
  | refl => exact .step hq hread (.refl _)
  | step hp hread' _ ih => exact .step hp hread' (ih hq hread)

/-- A walk that ends does so from every position it comes to. -/
theorem Visits.isSome (h : Visits fin read p q) (hend : ∃ fuel, (walk fin read fuel p).isSome) :
    ∃ fuel, (walk fin read fuel q).isSome := by
  induction h with
  | refl => exact hend
  | step hp hread _ ih =>
    obtain ⟨fuel, hfuel⟩ := hend
    cases fuel with
    | zero => cases hfuel
    | succ fuel =>
      rw [walk_succ hp hread, Option.isSome_map] at hfuel
      exact ih ⟨fuel, hfuel⟩

/-- The walk ends after at most one pass for each unit of the range, and one more. -/
theorem walk_isSome
    (h : ∀ q, Visits fin read p q → q < fin → ∃ b d, read q = some (b, d) ∧ d ≠ 0)
    (hfuel : fin ≤ p + fuel) : (walk fin read (fuel + 1) p).isSome := by
  induction fuel generalizing p with
  | zero =>
    rw [walk, if_neg (show ¬ p < fin from Nat.not_lt.2 hfuel)]
    rfl
  | succ fuel ih =>
    by_cases hp : p < fin
    · obtain ⟨b, d, hread, hd⟩ := h p (.refl p) hp
      rw [walk_succ hp hread, Option.isSome_map]
      exact ih (fun q hq => h q (.step hp hread hq)) (by omega)
    · rw [walk, if_neg hp]
      rfl

/-- **When a walk ends.** -/
theorem walk_isSome_iff : (∃ fuel, (walk fin read fuel p).isSome) ↔
    ∀ q, Visits fin read p q → q < fin → ∃ b d, read q = some (b, d) ∧ d ≠ 0 := by
  constructor
  · intro hend q hvisits hq
    obtain ⟨fuel, hfuel⟩ := hvisits.isSome hend
    cases hread : read q with
    | none =>
      cases fuel with
      | zero => cases hfuel
      | succ fuel =>
        rw [walk, if_pos hq, hread] at hfuel
        cases hfuel
    | some r =>
      obtain ⟨b, d⟩ := r
      refine ⟨b, d, rfl, ?_⟩
      rintro rfl
      rw [walk_zero hq hread] at hfuel
      cases hfuel
  · intro h
    exact ⟨fin + 1, walk_isSome h (Nat.le_add_left ..)⟩

end Lib.Walk

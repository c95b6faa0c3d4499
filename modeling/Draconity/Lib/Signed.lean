import Mathlib.Algebra.Order.Ring.Int
import Mathlib.Order.Basic
import Mathlib.Data.Option.Basic

/-!
Signed arithmetic in 64 bits, where an overflow is undefined.

An operation returns `some` just when its exact value is one of the type, so an expression that
returns `some` has overflowed in no step of it.
-/

namespace Lib.Signed

/-- The value of the type that an integer is, if it is one. -/
def ofExact (z : ℤ) : Option Int64 :=
  if -2 ^ 63 ≤ z ∧ z < 2 ^ 63 then some (.ofInt z) else none

def add (a b : Int64) : Option Int64 := ofExact (a.toInt + b.toInt)

def mul (a b : Int64) : Option Int64 := ofExact (a.toInt * b.toInt)

/-- Division truncates. -/
def div (a b : Int64) : Option Int64 := if b = 0 then none else ofExact (a.toInt.tdiv b.toInt)

/-- The remainder is undefined where the quotient is. -/
def rem (a b : Int64) : Option Int64 :=
  (div a b).bind fun _ => ofExact (a.toInt.tmod b.toInt)

variable {a b c : Int64} {z : ℤ}

theorem ofExact_eq_some_iff : ofExact z = some a ↔ a.toInt = z := by
  unfold ofExact
  constructor
  · intro h
    split_ifs at h with hz
    obtain rfl := Option.some.inj h
    exact Int64.toInt_ofInt_of_le hz.1 hz.2
  · rintro rfl
    rw [if_pos ⟨a.le_toInt, a.toInt_lt⟩, Int64.ofInt_toInt]

theorem add_eq_some_iff : add a b = some c ↔ c.toInt = a.toInt + b.toInt := ofExact_eq_some_iff

theorem mul_eq_some_iff : mul a b = some c ↔ c.toInt = a.toInt * b.toInt := ofExact_eq_some_iff

theorem div_eq_some_iff : div a b = some c ↔ b.toInt ≠ 0 ∧ c.toInt = a.toInt.tdiv b.toInt := by
  have hzero : b = 0 ↔ b.toInt = 0 := Int64.toInt_inj.symm
  unfold div
  by_cases hb : b = 0
  · rw [if_pos hb]
    exact iff_of_false nofun fun h => h.1 (hzero.1 hb)
  · rw [if_neg hb, ofExact_eq_some_iff]
    exact (and_iff_right fun h => hb (hzero.2 h)).symm

/-- What is not negative and below the bound of the type is a value of it. -/
theorem exists_toInt (h₀ : 0 ≤ z) (h : z < 2 ^ 63) : ∃ a : Int64, a.toInt = z :=
  ⟨.ofInt z, Int64.toInt_ofInt_of_le (h₀.trans' (by decide)) h⟩

/-- The quotient of what is not negative is the exact one, rounded down. -/
theorem div_of_nonneg (ha : 0 ≤ a.toInt) (hb : 0 < b.toInt) :
    ∃ c, div a b = some c ∧ c.toInt = a.toInt / b.toInt := by
  have hle : a.toInt / b.toInt ≤ a.toInt := Int.ediv_le_self _ ha
  obtain ⟨c, hc⟩ := exists_toInt (Int.ediv_nonneg ha hb.le) (hle.trans_lt a.toInt_lt)
  refine ⟨c, div_eq_some_iff.2 ⟨hb.ne', ?_⟩, hc⟩
  rw [hc, Int.tdiv_eq_ediv_of_nonneg ha]

theorem rem_of_nonneg (ha : 0 ≤ a.toInt) (hb : 0 < b.toInt) :
    ∃ c, rem a b = some c ∧ c.toInt = a.toInt % b.toInt := by
  obtain ⟨q, hq, -⟩ := div_of_nonneg ha hb
  have hlt : a.toInt % b.toInt < b.toInt := Int.emod_lt_of_pos _ hb
  obtain ⟨c, hc⟩ := exists_toInt (Int.emod_nonneg _ hb.ne') (hlt.trans b.toInt_lt)
  refine ⟨c, ?_, hc⟩
  unfold rem
  rw [hq, Option.bind_some, ofExact_eq_some_iff, hc, Int.tmod_eq_emod_of_nonneg ha]

end Lib.Signed

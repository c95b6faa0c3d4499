import Mathlib.Tactic.Ring
import Mathlib.Algebra.Order.Ring.Int
import Draconity.Lib.Signed

/-!
`dr_monotonic_time`, where it scales the ticks of a counter: on macOS and on Windows.

The source computes `(ticks / div) * mul + (ticks % div) * mul / div` in `int64_t`s.  The branches
with a `timespec` or a `timeval` are left out.
-/

namespace Draconity

open Lib

/-- The `static` variables of `dr_monotonic_time`. -/
structure Timebase where
  mul : Int64
  div : Int64
  deriving DecidableEq

def Timebase.init : Timebase := ⟨1, 0⟩

/-- What the system says of its counter: `mach_timebase_info` on macOS, and on Windows
`QueryPerformanceFrequency`, `none` when it fails. -/
inductive Counter
  | mach (numer denom : UInt32)
  | performance (freq : Option Int64)

/-- What the first call sets the variables to. -/
def Counter.timebase : Counter → Option Timebase
  | .mach numer denom => some ⟨.ofNat numer.toNat, .ofNat denom.toNat⟩
  | .performance freq => freq.map fun freq => ⟨1000000000, freq⟩

/-- The value that is returned, `none` when a step of the computation is undefined. -/
def scaleTicks (ticks mul div : Int64) : Option Int64 := do
  let quot ← Signed.div ticks div
  let high ← Signed.mul quot mul
  let rem ← Signed.rem ticks div
  let prod ← Signed.mul rem mul
  let low ← Signed.div prod div
  Signed.add high low

/-- `dr_monotonic_time`: what it returns and the variables it leaves. -/
def drMonotonicTime (counter : Counter) (ticks : Int64) (s : Timebase) : Option Int64 × Timebase :=
  if s.div = 0 then
    match counter.timebase with
    | none => (some (-1), s)
    | some t => (scaleTicks ticks t.mul t.div, t)
  else (scaleTicks ticks s.mul s.div, s)

def drMonotonicTimes (counter : Counter) : Timebase → List Int64 → List (Option Int64)
  | _, [] => []
  | s, t :: ts =>
    (drMonotonicTime counter t s).1 :: drMonotonicTimes counter (drMonotonicTime counter t s).2 ts

variable {counter : Counter} {s : Timebase} {t t' mul div : Int64}

theorem scaled_parts (t m : ℤ) {d : ℤ} (hd : d ≠ 0) :
    t * m / d = t / d * m + t % d * m / d := by
  have hsplit : t * m = t % d * m + d * (t / d * m) := by
    conv_lhs => rw [← Int.emod_add_mul_ediv t d]
    ring
  rw [hsplit, Int.add_mul_ediv_left _ _ hd, Int.add_comm]

/-- The time in nanoseconds fits, and so does the part of it that is scaled before it is divided. -/
structure Scales (t mul div : Int64) : Prop where
  nonneg_ticks : 0 ≤ t.toInt
  nonneg_mul : 0 ≤ mul.toInt
  pos_div : 0 < div.toInt
  fits : t.toInt * mul.toInt / div.toInt < 2 ^ 63
  fits_low : (div.toInt - 1) * mul.toInt < 2 ^ 63

theorem Scales.mono (h : Scales t mul div) (h₀ : 0 ≤ t'.toInt) (hle : t'.toInt ≤ t.toInt) :
    t'.toInt * mul.toInt / div.toInt ≤ t.toInt * mul.toInt / div.toInt ∧ Scales t' mul div := by
  have hmul : t'.toInt * mul.toInt ≤ t.toInt * mul.toInt :=
    mul_le_mul_of_nonneg_right hle h.nonneg_mul
  have hdiv := Int.ediv_le_ediv h.pos_div hmul
  exact ⟨hdiv, h₀, h.nonneg_mul, h.pos_div, hdiv.trans_lt h.fits, h.fits_low⟩

/-- No step overflows, and the result is exact. -/
theorem Scales.eq (h : Scales t mul div) :
    ∃ v, scaleTicks t mul div = some v ∧ v.toInt = t.toInt * mul.toInt / div.toInt := by
  have hsum := scaled_parts t.toInt mul.toInt h.pos_div.ne'
  -- the quotient, scaled
  have hhigh₀ : 0 ≤ t.toInt / div.toInt * mul.toInt :=
    mul_nonneg (Int.ediv_nonneg h.nonneg_ticks h.pos_div.le) h.nonneg_mul
  -- the remainder, scaled and divided
  have hrem₀ : 0 ≤ t.toInt % div.toInt := Int.emod_nonneg _ h.pos_div.ne'
  have hrem : t.toInt % div.toInt ≤ div.toInt - 1 :=
    Int.le_sub_one_of_lt (Int.emod_lt_of_pos _ h.pos_div)
  have hprod₀ : 0 ≤ t.toInt % div.toInt * mul.toInt := mul_nonneg hrem₀ h.nonneg_mul
  have hprod : t.toInt % div.toInt * mul.toInt < 2 ^ 63 :=
    (mul_le_mul_of_nonneg_right hrem h.nonneg_mul).trans_lt h.fits_low
  have hlow₀ : 0 ≤ t.toInt % div.toInt * mul.toInt / div.toInt :=
    Int.ediv_nonneg hprod₀ h.pos_div.le
  have hfits : t.toInt / div.toInt * mul.toInt + t.toInt % div.toInt * mul.toInt / div.toInt <
      2 ^ 63 := hsum ▸ h.fits
  -- one value for each step
  obtain ⟨q, hq, hq'⟩ := Signed.div_of_nonneg h.nonneg_ticks h.pos_div
  obtain ⟨a, ha⟩ := Signed.exists_toInt hhigh₀ (lt_of_le_of_lt (le_add_of_nonneg_right hlow₀) hfits)
  obtain ⟨r, hr, hr'⟩ := Signed.rem_of_nonneg h.nonneg_ticks h.pos_div
  obtain ⟨p, hp⟩ := Signed.exists_toInt hprod₀ hprod
  obtain ⟨b, hb, hb'⟩ := Signed.div_of_nonneg (hp ▸ hprod₀) h.pos_div
  rw [hp] at hb'
  obtain ⟨v, hv⟩ := Signed.exists_toInt (add_nonneg hhigh₀ hlow₀) hfits
  have hqa : Signed.mul q mul = some a := Signed.mul_eq_some_iff.2 (by rw [ha, hq'])
  have hrp : Signed.mul r mul = some p := Signed.mul_eq_some_iff.2 (by rw [hp, hr'])
  have hab : Signed.add a b = some v := Signed.add_eq_some_iff.2 (by rw [hv, ha, hb'])
  refine ⟨v, ?_, hv.trans hsum.symm⟩
  unfold scaleTicks
  simp only [hq, hqa, hr, hrp, hb, hab, Option.bind_eq_bind, Option.bind_some]

theorem drMonotonicTime_of_set (counter : Counter) (t : Int64) (hs : 0 < s.div.toInt) :
    drMonotonicTime counter t s = (scaleTicks t s.mul s.div, s) := by
  have hdiv : s.div ≠ 0 := fun h => hs.ne' (congrArg Int64.toInt h)
  unfold drMonotonicTime
  rw [if_neg hdiv]

/-- **The conversion is exact and monotone.**  Where the time fits, and the largest remainder scaled
does, no step of `dr_monotonic_time` overflows, it returns `⌊ticks * mul / div⌋`, and what it returns
for fewer ticks is no later. -/
theorem drMonotonicTime_exact (counter : Counter) (h : Scales t s.mul s.div) :
    ∃ v, drMonotonicTime counter t s = (some v, s) ∧
      v.toInt = t.toInt * s.mul.toInt / s.div.toInt ∧
      ∀ t', 0 ≤ t'.toInt → t' ≤ t → ∃ v', drMonotonicTime counter t' s = (some v', s) ∧
        v'.toInt = t'.toInt * s.mul.toInt / s.div.toInt ∧ v' ≤ v := by
  obtain ⟨v, hv, hexact⟩ := h.eq
  refine ⟨v, by rw [drMonotonicTime_of_set counter t h.pos_div, hv], hexact, fun t' h₀ hle => ?_⟩
  obtain ⟨hmono, h'⟩ := h.mono h₀ (Int64.le_iff_toInt_le.1 hle)
  obtain ⟨v', hv', hexact'⟩ := h'.eq
  refine ⟨v', by rw [drMonotonicTime_of_set counter t' h.pos_div, hv'], hexact', ?_⟩
  rw [Int64.le_iff_toInt_le, hexact, hexact']
  exact hmono

theorem drMonotonicTime_exact_mach : ∃ v,
    drMonotonicTime (.mach 125 3) (.ofNat (2 ^ 57)) ⟨125, 3⟩ = (some v, ⟨125, 3⟩) ∧
      v.toInt = 2 ^ 57 * 125 / 3 := by
  obtain ⟨v, hv, hexact, -⟩ := drMonotonicTime_exact (t := .ofNat (2 ^ 57)) (s := ⟨125, 3⟩)
    (.mach 125 3) ⟨by decide, by decide, by decide, by decide, by decide⟩
  exact ⟨v, hv, hexact⟩

/-- **Successive calls.**  The first one sets the variables, and from then on each call returns what
its ticks are in nanoseconds. -/
theorem drMonotonicTimes_eq {tb : Timebase} (hc : counter.timebase = some tb)
    (hs : s = .init ∨ s = tb) {ts : List Int64} (h : ∀ t ∈ ts, Scales t tb.mul tb.div) :
    drMonotonicTimes counter s ts = ts.map fun t => scaleTicks t tb.mul tb.div := by
  induction ts generalizing s with
  | nil => rfl
  | cons t ts ih =>
    have hcall : drMonotonicTime counter t s = (scaleTicks t tb.mul tb.div, tb) := by
      rcases hs with rfl | rfl
      · unfold drMonotonicTime
        rw [hc]
        rfl
      · exact drMonotonicTime_of_set counter t (h t (List.mem_cons_self ..)).pos_div
    rw [drMonotonicTimes, hcall, List.map_cons,
      ih (.inr rfl) fun t' ht' => h t' (List.mem_cons_of_mem _ ht')]

theorem drMonotonicTimes_sorted {tb : Timebase} (hc : counter.timebase = some tb)
    {ts : List Int64} (h : ∀ t ∈ ts, Scales t tb.mul tb.div) (hsorted : ts.Pairwise (· ≤ ·)) :
    ∃ vs : List Int64, drMonotonicTimes counter .init ts = vs.map some ∧ vs.Pairwise (· ≤ ·) := by
  let time : Int64 → Int64 := fun t => .ofInt (t.toInt * tb.mul.toInt / tb.div.toInt)
  have htime : ∀ t ∈ ts, scaleTicks t tb.mul tb.div = some (time t) := by
    intro t ht
    obtain ⟨v, hv, hexact⟩ := (h t ht).eq
    rw [hv, ← Int64.ofInt_toInt v, hexact]
  refine ⟨ts.map time, ?_, List.pairwise_map.2 (hsorted.imp_of_mem fun {t t'} ht ht' hle => ?_)⟩
  · rw [drMonotonicTimes_eq hc (.inl rfl) h, List.map_map]
    exact List.map_congr_left htime
  · obtain ⟨v, hv, hexact⟩ := (h t ht).eq
    obtain ⟨v', hv', hexact'⟩ := (h t' ht').eq
    have hmono := ((h t' ht').mono (h t ht).nonneg_ticks (Int64.le_iff_toInt_le.1 hle)).1
    rw [htime t ht, Option.some.injEq] at hv
    rw [htime t' ht', Option.some.injEq] at hv'
    rw [hv, hv', Int64.le_iff_toInt_le, hexact, hexact']
    exact hmono

end Draconity

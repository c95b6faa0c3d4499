import Mathlib.Data.List.Range
import Mathlib.Data.Nat.Notation
import Mathlib.Data.Set.Defs

/-!
A processor that fetches its instructions from memory, and code that is moved.

The memory holds the code only; what the instructions work on is the rest of the state.  The length
of an instruction is determined by its own bytes.  Code whose instructions do not depend on where they
are does the same at another place (`Straight.run`), and code that is not changed does what it did
(`run_of_avoids`).
-/

namespace Lib

/-- The `n` bytes of the memory at an address. -/
def block (mem : ℕ → UInt8) (a n : ℕ) : List UInt8 := (List.range n).map fun j => mem (a + j)

@[simp] theorem length_block (mem : ℕ → UInt8) (a n : ℕ) : (block mem a n).length = n := by
  simp [block]

theorem block_congr {mem mem' : ℕ → UInt8} {a a' n : ℕ}
    (h : ∀ j < n, mem' (a' + j) = mem (a + j)) : block mem' a' n = block mem a n :=
  List.map_congr_left fun j hj => h j (List.mem_range.1 hj)

/-- A processor: how long the instruction is that some bytes begin with, `none` if there is none, and
what an instruction at an address does. -/
structure Processor (ρ : Type*) where
  length : (ℕ → UInt8) → Option ℕ
  effect : List UInt8 → ℕ → ρ → ℕ × ρ
  congr : ∀ f g l, length f = some l → (∀ j < l, g j = f j) → length g = some l

namespace Processor

variable {ρ : Type*} (P : Processor ρ)

/-- The length of the instruction at an address. -/
def lengthAt (mem : ℕ → UInt8) (a : ℕ) : Option ℕ := P.length fun j => mem (a + j)

/-- One instruction, at the address it is fetched from. -/
def step (mem : ℕ → UInt8) (x : ℕ × ρ) : Option (ℕ × ρ) :=
  (P.lengthAt mem x.1).map fun l => P.effect (block mem x.1 l) x.1 x.2

def run (mem : ℕ → UInt8) : ℕ → ℕ × ρ → Option (ℕ × ρ)
  | 0, x => some x
  | k + 1, x => (step P mem x).bind (run mem k)

variable {P} {mem mem' : ℕ → UInt8} {a a' b d k l : ℕ} {s : ρ} {x y : ℕ × ρ}

theorem run_succ : P.run mem (k + 1) x = (P.step mem x).bind (P.run mem k) := rfl

theorem run_add (j k : ℕ) (x : ℕ × ρ) :
    P.run mem (j + k) x = (P.run mem j x).bind (P.run mem k) := by
  induction j generalizing x with
  | zero => rw [Nat.zero_add]; rfl
  | succ j ih =>
    rw [Nat.succ_add, run_succ, run_succ, Option.bind_assoc]
    exact congrArg _ (funext ih)

theorem lengthAt_congr (hl : P.lengthAt mem a = some l)
    (h : ∀ j < l, mem' (a' + j) = mem (a + j)) : P.lengthAt mem' a' = some l :=
  P.congr _ _ l hl h

/-- A step in a memory that has the same bytes for the instruction. -/
theorem step_congr (hl : P.lengthAt mem a = some l) (h : ∀ j < l, mem' (a' + j) = mem (a + j))
    (s : ρ) : P.step mem' (a', s) = some (P.effect (block mem a l) a' s) := by
  have hl' := lengthAt_congr hl h
  show (P.lengthAt mem' a').map _ = _
  rw [hl', Option.map_some, block_congr h]

/-! ### Code that is moved -/

/-- The instruction leads to the next one, and does the same wherever it is. -/
def Movable (P : Processor ρ) (bytes : List UInt8) : Prop :=
  ∀ a a' s, P.effect bytes a s = (a + bytes.length, (P.effect bytes a' s).2)

/-- From the one address movable instructions lead to the other. -/
inductive Straight (P : Processor ρ) (mem : ℕ → UInt8) : ℕ → ℕ → Prop
  | refl (a : ℕ) : P.Straight mem a a
  | step {a b l : ℕ} : P.lengthAt mem a = some l → P.Movable (block mem a l) →
      P.Straight mem (a + l) b → P.Straight mem a b

theorem Straight.le (h : P.Straight mem a b) : a ≤ b := by
  induction h with
  | refl => exact Nat.le_refl _
  | step _ _ _ ih => exact Nat.le_trans (Nat.le_add_right ..) ih

/-- **Moved code does the same.** -/
theorem Straight.run (h : P.Straight mem a b) : ∃ k, ∃ f : ρ → ρ,
    ∀ (mem' : ℕ → UInt8) (d : ℕ), (∀ j, a + j < b → mem' (d + j) = mem (a + j)) →
      ∀ s, P.run mem' k (d, s) = some (d + (b - a), f s) := by
  induction h with
  | refl a =>
    refine ⟨0, id, fun mem' d _ s => ?_⟩
    rw [Nat.sub_self]
    rfl
  | @step a b l hl hmove hrest ih =>
    obtain ⟨k, f, hk⟩ := ih
    have hb := hrest.le
    refine ⟨k + 1, fun s => f (P.effect (block mem a l) 0 s).2, fun mem' d hmem s => ?_⟩
    have hsame : ∀ j < l, mem' (d + j) = mem (a + j) := fun j hj => hmem j (by omega)
    have hstep := step_congr hl hsame s
    rw [hmove d 0 s, length_block] at hstep
    have hmem' : ∀ j, a + l + j < b → mem' (d + l + j) = mem (a + l + j) := fun j hj => by
      rw [Nat.add_assoc, Nat.add_assoc]
      exact hmem (l + j) (by omega)
    rw [run_succ, hstep, Option.bind_some, hk mem' (d + l) hmem', Nat.add_assoc,
      (by omega : l + (b - (a + l)) = b - a)]

/-! ### Code that is not changed -/

/-- None of the instructions has a byte in the set. -/
def Avoids (P : Processor ρ) (mem : ℕ → UInt8) (B : Set ℕ) : ℕ → ℕ × ρ → Prop
  | 0, _ => True
  | k + 1, x => (∀ l, P.lengthAt mem x.1 = some l → ∀ j < l, x.1 + j ∉ B) ∧
      ∀ y, P.step mem x = some y → Avoids P mem B k y

/-- **Code that is not changed does what it did.** -/
theorem run_of_avoids {B : Set ℕ} (h : ∀ i ∉ B, mem' i = mem i) (hx : P.Avoids mem B k x)
    (hrun : P.run mem k x = some y) : P.run mem' k x = some y := by
  induction k generalizing x with
  | zero => exact hrun
  | succ k ih =>
    obtain ⟨z, hz, hrest⟩ := Option.bind_eq_some_iff.1 hrun
    have hstep : P.step mem' x = some z := by
      obtain ⟨l, hl, rfl⟩ := Option.map_eq_some_iff.1 hz
      exact step_congr hl (fun j hj => h _ (hx.1 l hl j hj)) x.2
    rw [run_succ, hstep]
    exact ih (hx.2 z hz) hrest

end Processor

end Lib

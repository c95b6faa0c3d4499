import Mathlib.Data.List.Sort
import Mathlib.Order.Lattice

/-!
Sets kept as strictly increasing lists, the way an ordered tree set is walked.

The list is the order of iteration, so a program that loops over such a set can be followed step
by step, and two sets are equal exactly when they have the same members (`OrdSet.ext`).
-/

namespace Lib

/-- A finite set, as the strictly increasing list of its members. -/
structure OrdSet (α : Type*) [LinearOrder α] where
  toList : List α
  sorted : toList.Pairwise (· < ·)
  deriving DecidableEq

namespace OrdSet

variable {α : Type*} [LinearOrder α]

instance : Membership α (OrdSet α) := ⟨fun s a => a ∈ s.toList⟩

instance : EmptyCollection (OrdSet α) := ⟨⟨[], List.Pairwise.nil⟩⟩

instance (a : α) (s : OrdSet α) : Decidable (a ∈ s) := inferInstanceAs (Decidable (a ∈ s.toList))

theorem mem_def {a : α} {s : OrdSet α} : a ∈ s ↔ a ∈ s.toList := Iff.rfl

@[simp] theorem notMem_empty (a : α) : a ∉ (∅ : OrdSet α) := List.not_mem_nil

/-- Two sets with the same members are the same list. -/
@[ext] theorem ext {s t : OrdSet α} (h : ∀ a, a ∈ s ↔ a ∈ t) : s = t := by
  obtain ⟨l, hl⟩ := s
  obtain ⟨m, hm⟩ := t
  have hp : l.Perm m := (List.perm_ext_iff_of_nodup (hl.imp ne_of_lt) (hm.imp ne_of_lt)).2 h
  have : l = m := hp.eq_of_pairwise (fun a b _ _ h₁ h₂ => absurd h₁ (lt_asymm h₂)) hl hm
  subst this
  rfl

theorem nodup (s : OrdSet α) : s.toList.Nodup := s.sorted.imp ne_of_lt

theorem eq_empty_iff {s : OrdSet α} : s = ∅ ↔ ∀ a, a ∉ s :=
  ⟨fun h a => h ▸ notMem_empty a, fun h => ext fun a => by simp [h a]⟩

/-! ### Insertion -/

/-- Insertion of `a` into an increasing list, at its place. -/
def insertInto (a : α) : List α → List α
  | [] => [a]
  | b :: l => if a < b then a :: b :: l else if a = b then b :: l else b :: insertInto a l

theorem mem_insertInto {a b : α} : ∀ {l : List α}, b ∈ insertInto a l ↔ b = a ∨ b ∈ l
  | [] => by simp [insertInto]
  | c :: l => by
    unfold insertInto
    split_ifs with h₁ h₂
    · simp
    · subst h₂; simp
    · simp only [List.mem_cons, mem_insertInto (l := l)]
      tauto

theorem insertInto_sorted (a : α) : ∀ {l : List α}, l.Pairwise (· < ·) →
    (insertInto a l).Pairwise (· < ·)
  | [], _ => by simp [insertInto]
  | b :: l, h => by
    obtain ⟨hb, hl⟩ := List.pairwise_cons.1 h
    unfold insertInto
    split_ifs with h₁ h₂
    · refine List.pairwise_cons.2 ⟨fun c hc => ?_, h⟩
      rcases List.mem_cons.1 hc with rfl | hc
      · exact h₁
      · exact h₁.trans (hb c hc)
    · exact h
    · refine List.pairwise_cons.2 ⟨fun c hc => ?_, insertInto_sorted a hl⟩
      rcases mem_insertInto.1 hc with rfl | hc
      · exact lt_of_le_of_ne (not_lt.1 h₁) (Ne.symm h₂)
      · exact hb c hc

def insert (a : α) (s : OrdSet α) : OrdSet α := ⟨insertInto a s.toList, insertInto_sorted a s.sorted⟩

@[simp] theorem mem_insert {a b : α} {s : OrdSet α} : b ∈ s.insert a ↔ b = a ∨ b ∈ s :=
  mem_insertInto

def ofList (l : List α) : OrdSet α := l.foldl (fun s a => s.insert a) ∅

theorem mem_foldl_insert {b : α} (l : List α) (s : OrdSet α) :
    b ∈ l.foldl (fun s a => s.insert a) s ↔ b ∈ l ∨ b ∈ s := by
  induction l generalizing s with
  | nil => simp
  | cons a l ih =>
    rw [List.foldl_cons, ih]
    simp only [mem_insert, List.mem_cons]
    tauto

@[simp] theorem mem_ofList {b : α} {l : List α} : b ∈ ofList l ↔ b ∈ l := by
  simp [ofList, mem_foldl_insert]

/-! ### Removal and difference -/

def filter (p : α → Bool) (s : OrdSet α) : OrdSet α := ⟨s.toList.filter p, s.sorted.filter p⟩

@[simp] theorem mem_filter {p : α → Bool} {a : α} {s : OrdSet α} :
    a ∈ s.filter p ↔ a ∈ s ∧ p a = true := List.mem_filter

def erase (a : α) (s : OrdSet α) : OrdSet α := s.filter fun b => decide (b ≠ a)

@[simp] theorem mem_erase {a b : α} {s : OrdSet α} : b ∈ s.erase a ↔ b ∈ s ∧ b ≠ a := by
  simp [erase]

def diff (s t : OrdSet α) : OrdSet α := s.filter fun a => decide (a ∉ t)

@[simp] theorem mem_diff {a : α} {s t : OrdSet α} : a ∈ s.diff t ↔ a ∈ s ∧ a ∉ t := by
  simp [diff]

@[simp] theorem diff_self (s : OrdSet α) : s.diff s = ∅ :=
  eq_empty_iff.2 fun _ h => (mem_diff.1 h).2 (mem_diff.1 h).1

end OrdSet

end Lib

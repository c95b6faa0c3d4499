import Mathlib.Logic.Relator
import Mathlib.Logic.Function.Basic
import Mathlib.Data.List.Forall2
import Mathlib.Data.Option.Defs
import Mathlib.Order.Basic

/-!
Two runs that give out identities in order, but not the same ones.

What was given out before both runs keeps its identity, and the first identity a run gives out
corresponds to the first of the other run, and so on.  Maps on identities match when corresponding
identities have corresponding values.
-/

namespace Lib.Renaming

/-- The correspondence of two runs that share the identities below `N`, where one gives out new ones
from `m` on and the other from `n` on. -/
def Shift (N m n : ℕ) (a b : ℕ) : Prop := (a = b ∧ a < N) ∨ ∃ i, a = m + i ∧ b = n + i

theorem shift_old {N a : ℕ} (h : a < N) (m n : ℕ) : Shift N m n a a := .inl ⟨rfl, h⟩

theorem shift_new (N m n i : ℕ) : Shift N m n (m + i) (n + i) := .inr ⟨i, rfl, rfl⟩

theorem biUnique_shift {N m n : ℕ} (hm : N ≤ m) (hn : N ≤ n) : Relator.BiUnique (Shift N m n) := by
  constructor
  · rintro a b c (⟨rfl, h⟩ | ⟨i, rfl, rfl⟩) (⟨rfl, h'⟩ | ⟨j, rfl, hj⟩) <;> omega
  · rintro a b c (⟨rfl, h⟩ | ⟨i, rfl, rfl⟩) (⟨rfl, h'⟩ | ⟨j, hj, rfl⟩) <;> omega

/-! ### One correspondence out of many -/

section Join

variable {κ α α' : Type*} {R : κ → α → α' → Prop} {U : κ → α → Prop} {U' : κ → α' → Prop}

/-- Identities that both runs use for the same key correspond as the key says. -/
def Join (R : κ → α → α' → Prop) (U : κ → α → Prop) (U' : κ → α' → Prop) (a : α) (b : α') : Prop :=
  ∃ k, U k a ∧ U' k b ∧ R k a b

/-- What is used for several keys corresponds to the same for all of them. -/
structure Agree (R : κ → α → α' → Prop) (U : κ → α → Prop) (U' : κ → α' → Prop) : Prop where
  biUnique : ∀ k, Relator.BiUnique (R k)
  left : ∀ k j a b, U k a → U j a → R k a b → R j a b
  right : ∀ k j a b, U' k b → U' j b → R k a b → R j a b

theorem Agree.biUnique_join (h : Agree R U U') : Relator.BiUnique (Join R U U') := by
  constructor
  · rintro a b c ⟨k, -, hc, hkR⟩ ⟨j, -, hc', hjR⟩
    exact (h.biUnique j).1 (h.right k j a c hc hc' hkR) hjR
  · rintro a b c ⟨k, ha, -, hkR⟩ ⟨j, ha', -, hjR⟩
    exact (h.biUnique j).2 (h.left k j a b ha ha' hkR) hjR

/-- The joint correspondence is that of each key on what is used for it. -/
theorem Agree.of_join (h : Agree R U U') {k : κ} {a : α} {b : α'} (hj : Join R U U' a b)
    (hk : U k a ∨ U' k b) : R k a b := by
  obtain ⟨j, ha, hb, hjR⟩ := hj
  rcases hk with hk | hk
  · exact h.left j k a b ha hk hjR
  · exact h.right j k a b hb hk hjR

end Join

/-! ### Maps on identities -/

variable {α α' β β' : Type*} {ρ : α → α' → Prop} {R : β → β' → Prop} {f : α → Option β}
  {f' : α' → Option β'} {a : α} {a' : α'}

/-- Corresponding identities have corresponding values, and only they have values. -/
structure Matches (ρ : α → α' → Prop) (R : β → β' → Prop) (f : α → Option β)
    (f' : α' → Option β') : Prop where
  rel : ∀ a a', ρ a a' → Option.Rel R (f a) (f' a')
  left : ∀ a, f a ≠ none → ∃ a', ρ a a'
  right : ∀ a', f' a' ≠ none → ∃ a, ρ a a'

/-- Corresponding changes keep maps that match. -/
theorem Matches.update [DecidableEq α] [DecidableEq α'] (hρ : Relator.BiUnique ρ)
    (h : Matches ρ R f f') (ha : ρ a a') {o : Option β} {o' : Option β'} (ho : Option.Rel R o o') :
    Matches ρ R (Function.update f a o) (Function.update f' a' o') where
  rel b b' hb := by
    by_cases hba : b = a
    · subst hba
      obtain rfl : b' = a' := hρ.2 hb ha
      rwa [Function.update_self, Function.update_self]
    · have hba' : b' ≠ a' := by
        rintro rfl
        exact hba (hρ.1 hb ha)
      rw [Function.update_of_ne hba, Function.update_of_ne hba']
      exact h.rel b b' hb
  left b hb := by
    by_cases hba : b = a
    · exact ⟨a', hba ▸ ha⟩
    · rw [Function.update_of_ne hba] at hb
      exact h.left b hb
  right b' hb := by
    by_cases hba : b' = a'
    · exact ⟨a, hba ▸ ha⟩
    · rw [Function.update_of_ne hba] at hb
      exact h.right b' hb

/-- Maps that match have corresponding values or none when they are asked for more. -/
theorem rel_bind {o : Option β} {o' : Option β'} (h : Option.Rel R o o') {u : β → Option β}
    {u' : β' → Option β'} (hu : ∀ b b', R b b' → Option.Rel R (u b) (u' b')) :
    Option.Rel R (o.bind u) (o'.bind u') := by
  cases h with
  | none => exact .none
  | some h => exact hu _ _ h

/-! ### Only what is used matters -/

theorem forall₂_imp_mem {R S : β → β' → Prop} {l : List β} {l' : List β'} (h : List.Forall₂ R l l')
    (hS : ∀ b ∈ l, ∀ b' ∈ l', R b b' → S b b') : List.Forall₂ S l l' := by
  induction h with
  | nil => exact .nil
  | cons hab _ ih =>
    refine .cons (hS _ (List.mem_cons_self ..) _ (List.mem_cons_self ..) hab) ?_
    exact ih fun b hb b' hb' => hS b (List.mem_cons_of_mem _ hb) b' (List.mem_cons_of_mem _ hb')

theorem optionRel_imp_mem {R S : β → β' → Prop} {o : Option β} {o' : Option β'}
    (h : Option.Rel R o o') (hS : ∀ b b', o = some b → o' = some b' → R b b' → S b b') :
    Option.Rel S o o' := by
  cases h with
  | none => exact .none
  | some h => exact .some (hS _ _ rfl rfl h)

theorem rel_none_iff {o : Option β} {o' : Option β'} (h : Option.Rel R o o') :
    o = none ↔ o' = none := by
  cases h with
  | none => exact iff_of_true rfl rfl
  | some _ => exact iff_of_false nofun nofun

theorem optionRel_left {R : β → β' → Prop} {o : Option β} {o' : Option β'} (h : Option.Rel R o o')
    {b : β} (hb : o = some b) : ∃ b', o' = some b' ∧ R b b' := by
  cases h with
  | none => cases hb
  | some h =>
    cases hb
    exact ⟨_, rfl, h⟩

theorem forall₂_left {R : β → β' → Prop} {l : List β} {l' : List β'} (h : List.Forall₂ R l l')
    {b : β} (hb : b ∈ l) : ∃ b' ∈ l', R b b' := by
  induction h with
  | nil => cases hb
  | cons hab _ ih =>
    rcases List.mem_cons.1 hb with rfl | hb
    · exact ⟨_, List.mem_cons_self .., hab⟩
    · obtain ⟨b', hb', hrel⟩ := ih hb
      exact ⟨b', List.mem_cons_of_mem _ hb', hrel⟩

/-- Maps match by any correspondence that agrees on the identities with values. -/
theorem Matches.change {S : β → β' → Prop} {σ : α → α' → Prop} (h : Matches ρ R f f')
    (hS : ∀ a a' b b', f a = some b → f' a' = some b' → R b b' → S b b')
    (hσ : ∀ a a', f a ≠ none → f' a' ≠ none → ρ a a' → σ a a')
    (hρ : ∀ a a', f a ≠ none ∨ f' a' ≠ none → σ a a' → ρ a a') : Matches σ S f f' where
  rel a a' ha := by
    by_cases hused : f a ≠ none ∨ f' a' ≠ none
    · exact optionRel_imp_mem (h.rel a a' (hρ a a' hused ha)) fun b b' => hS a a' b b'
    · obtain ⟨hnone, hnone'⟩ := not_or.1 hused
      rw [not_not.1 hnone, not_not.1 hnone']
      exact .none
  left a ha := by
    obtain ⟨a', haa⟩ := h.left a ha
    have ha' : f' a' ≠ none := fun h' => ha ((rel_none_iff (h.rel a a' haa)).2 h')
    exact ⟨a', hσ a a' ha ha' haa⟩
  right a' ha' := by
    obtain ⟨a, haa⟩ := h.right a' ha'
    have ha : f a ≠ none := fun h' => ha' ((rel_none_iff (h.rel a a' haa)).1 h')
    exact ⟨a, hσ a a' ha ha' haa⟩

end Lib.Renaming

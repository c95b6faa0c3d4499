import Mathlib.Order.BooleanAlgebra.Set
import Mathlib.Tactic.Tauto

/-!
Bringing what is loaded in line with what is wanted, when loading and unloading can fail.

A round loads what is missing and unloads what is left over.  What could not be loaded is not wanted
any more after the round, and what could not be unloaded stays.
-/

namespace Lib

/-- One round: what was loaded and wanted before it, and what it failed to load and to unload. -/
structure Reconcile (α : Type*) where
  loaded : Set α
  wanted : Set α
  addFailed : Set α
  deleteFailed : Set α

namespace Reconcile

variable {α : Type*} (r : Reconcile α)

def missing : Set α := r.wanted \ r.loaded

def surplus : Set α := r.loaded \ r.wanted

def after : Set α := (r.loaded ∪ (r.missing \ r.addFailed)) \ (r.surplus \ r.deleteFailed)

def pruned : Set α := r.wanted \ (r.missing ∩ r.addFailed)

/-- What stays loaded without being wanted. -/
def leftOver : Set α := r.surplus ∩ r.deleteFailed

theorem after_eq : r.after = r.pruned ∪ r.leftOver := by
  ext a
  simp only [after, pruned, leftOver, missing, surplus, Set.mem_sdiff, Set.mem_union, Set.mem_inter_iff]
  tauto

theorem disjoint_leftOver {a : α} (ha : a ∈ r.leftOver) : a ∉ r.pruned := fun h => ha.1.2 h.1

/-- The next round has nothing to load. -/
theorem pruned_subset_after : r.pruned ⊆ r.after := by
  rw [after_eq]
  exact Set.subset_union_left

/-- The next round unloads what this one could not. -/
theorem after_diff_pruned : r.after \ r.pruned = r.leftOver := by
  rw [after_eq]
  ext a
  refine ⟨fun h => h.1.resolve_left h.2, fun h => ⟨.inr h, r.disjoint_leftOver h⟩⟩

end Reconcile

end Lib

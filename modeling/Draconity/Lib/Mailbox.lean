import Mathlib.Data.List.Basic

/-!
A mailbox with one slot: what becomes of updates that overwrite each other until they are synced.

The history of the mailbox is a list of marks, an accepted update or a sync.  An update is settled
by the mark that follows it: *skipped* when that is another update, *synced* when it is a sync, and
while no mark follows, it is pending.  `answered` and `pending` read this off the whole history;
the `_snoc` lemmas say how the two change with one more mark, which is how an implementation that
keeps only the slot sees it.
-/

namespace Lib.Mailbox

variable {U : Type*}

inductive Mark (U : Type*)
  | accept (u : U)
  | sync
  deriving DecidableEq

/-- What became of a settled update. -/
inductive Fate
  | skipped
  | synced
  deriving DecidableEq

/-- The settled updates of a history, in the order they were accepted. -/
def answered : List (Mark U) → List (U × Fate)
  | [] => []
  | .sync :: l => answered l
  | [.accept _] => []
  | .accept u :: .accept v :: l => (u, .skipped) :: answered (.accept v :: l)
  | .accept u :: .sync :: l => (u, .synced) :: answered l

/-- The update that has not been settled. -/
def pending : List (Mark U) → Option U
  | [] => none
  | [.accept u] => some u
  | _ :: l => pending l

def accepted : List (Mark U) → List U
  | [] => []
  | .accept u :: l => u :: accepted l
  | .sync :: l => accepted l

@[simp] theorem pending_sync_cons (l : List (Mark U)) : pending (.sync :: l) = pending l := by
  cases l <;> rfl

theorem pending_cons_cons (a b : Mark U) (l : List (Mark U)) :
    pending (a :: b :: l) = pending (b :: l) := by
  cases a <;> rfl

@[simp] theorem pending_snoc_accept (l : List (Mark U)) (u : U) :
    pending (l ++ [.accept u]) = some u := by
  induction l with
  | nil => rfl
  | cons a l ih =>
    cases l with
    | nil => cases a <;> rfl
    | cons b l => rw [List.cons_append, List.cons_append, pending_cons_cons]; exact ih

@[simp] theorem pending_snoc_sync (l : List (Mark U)) : pending (l ++ [.sync]) = none := by
  induction l with
  | nil => rfl
  | cons a l ih =>
    cases l with
    | nil => cases a <;> rfl
    | cons b l => rw [List.cons_append, List.cons_append, pending_cons_cons]; exact ih

/-- One more update settles the pending one as skipped. -/
theorem answered_snoc_accept (l : List (Mark U)) (v : U) :
    answered (l ++ [.accept v]) = answered l ++ (pending l).toList.map fun u => (u, .skipped) := by
  fun_induction answered l with
  | case1 => rfl
  | case2 l ih => simpa [answered] using ih
  | case3 u => rfl
  | case4 u w l ih =>
    rw [pending_cons_cons]
    exact congrArg ((u, .skipped) :: ·) ih
  | case5 u l ih =>
    rw [pending_cons_cons, pending_sync_cons]
    exact congrArg ((u, .synced) :: ·) ih

/-- A sync settles the pending update as synced. -/
theorem answered_snoc_sync (l : List (Mark U)) :
    answered (l ++ [.sync]) = answered l ++ (pending l).toList.map fun u => (u, .synced) := by
  fun_induction answered l with
  | case1 => rfl
  | case2 l ih => simpa [answered] using ih
  | case3 u => rfl
  | case4 u w l ih =>
    rw [pending_cons_cons]
    exact congrArg ((u, .skipped) :: ·) ih
  | case5 u l ih =>
    rw [pending_cons_cons, pending_sync_cons]
    exact congrArg ((u, .synced) :: ·) ih

/-- **Accounting.**  Every accepted update is settled once, in order, or is the pending one. -/
theorem accepted_eq (l : List (Mark U)) :
    accepted l = (answered l).map Prod.fst ++ (pending l).toList := by
  fun_induction answered l with
  | case1 => rfl
  | case2 l ih => simpa [accepted] using ih
  | case3 u => rfl
  | case4 u w l ih =>
    rw [pending_cons_cons]
    exact congrArg (u :: ·) ih
  | case5 u l ih =>
    rw [pending_cons_cons, pending_sync_cons]
    exact congrArg (u :: ·) ih

end Lib.Mailbox

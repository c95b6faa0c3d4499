import Mathlib.Data.Finset.Basic
import Mathlib.Data.Finset.Dedup
import Mathlib.Data.Finset.Lattice.Lemmas
import Mathlib.Data.Finset.SDiff
import Mathlib.Data.List.Induction

/-!
A gate between a client that adds and removes elements and a resource that holds a set of them.

The gate keeps a record of what the client has added, with one entry for each time, and passes on what
the client does while it is open.  Opening it adds all of the record to the resource, and closing it
removes all of the record.  `transparent_iff` says when the client does not notice.
-/

namespace Lib.Gate

inductive Op (α : Type*)
  | add (a : α)
  | remove (a : α)
  | set (opened : Bool)

/-- The gate, its record, and what the resource holds. -/
structure State (α : Type*) where
  opened : Bool
  record : List α
  live : Finset α

variable {α : Type*} [DecidableEq α]

def init : State α := ⟨false, [], ∅⟩

def step (s : State α) : Op α → State α
  | .add a =>
    { s with record := s.record ++ [a], live := if s.opened then insert a s.live else s.live }
  | .remove a =>
    { s with record := s.record.erase a, live := if s.opened then s.live.erase a else s.live }
  | .set opened =>
    if opened = s.opened then s else
      { s with
        opened := opened
        live := if opened then s.record.foldl (fun live a => insert a live) s.live
          else s.record.foldl Finset.erase s.live }

def after (ops : List (Op α)) : State α := ops.foldl step init

/-! ### What the client sees of it -/

/-- What an operation does to a resource without a gate. -/
def Op.own (held : Finset α) : Op α → Finset α
  | .add a => insert a held
  | .remove a => held.erase a
  | .set _ => held

/-- What the resource would hold if the client had it alone. -/
def own (ops : List (Op α)) : Finset α := ops.foldl Op.own ∅

/-- What an operation does to the number of outstanding adds of an element. -/
def Op.count (a : α) (n : ℕ) : Op α → ℕ
  | .add b => if b = a then n + 1 else n
  | .remove b => if b = a then n - 1 else n
  | .set _ => n

/-- How often an element was added and not removed again. -/
def outstanding (a : α) (ops : List (Op α)) : ℕ := ops.foldl (Op.count a) 0

def Op.opens (b : Bool) : Op α → Bool
  | .add _ | .remove _ => b
  | .set opened => opened

def isOpen (ops : List (Op α)) : Bool := ops.foldl Op.opens false

/-- Open, the gate makes no difference and the record is what the resource holds; closed, nothing gets
to the resource. -/
structure Transparent (ops : List (Op α)) : Prop where
  own : (after ops).opened = true → (after ops).live = own ops
  record : (after ops).opened = true → (after ops).live = (after ops).record.toFinset
  closed : (after ops).opened = false → (after ops).live = ∅

variable {ops : List (Op α)} {a : α} {s : State α}

theorem foldl_insert (l : List α) (t : Finset α) :
    l.foldl (fun t a => insert a t) t = t ∪ l.toFinset := by
  induction l generalizing t with
  | nil => simp
  | cons a l ih =>
    rw [List.foldl_cons, ih, List.toFinset_cons, Finset.insert_union, Finset.union_insert]

theorem foldl_erase (l : List α) (t : Finset α) : l.foldl Finset.erase t = t \ l.toFinset := by
  induction l generalizing t with
  | nil => simp
  | cons a l ih =>
    rw [List.foldl_cons, ih, List.toFinset_cons, Finset.sdiff_insert, Finset.erase_sdiff_comm]

theorem map_eraseP {β : Type*} (f : β → α) {p : β → Bool} (hp : ∀ b, p b = true ↔ f b = a)
    (l : List β) : (l.eraseP p).map f = (l.map f).erase a := by
  rw [List.erase_eq_eraseP, List.eraseP_map]
  congr 2
  funext b
  rw [Bool.eq_iff_iff, hp, Function.comp_apply, beq_iff_eq, eq_comm]

/-! ### What one operation does -/

theorem after_snoc (ops : List (Op α)) (op : Op α) : after (ops ++ [op]) = step (after ops) op :=
  List.foldl_append

theorem own_snoc (ops : List (Op α)) (op : Op α) : own (ops ++ [op]) = op.own (own ops) :=
  List.foldl_append

theorem outstanding_snoc (a : α) (ops : List (Op α)) (op : Op α) :
    outstanding a (ops ++ [op]) = op.count a (outstanding a ops) := List.foldl_append

omit [DecidableEq α] in
theorem isOpen_snoc (ops : List (Op α)) (op : Op α) :
    isOpen (ops ++ [op]) = op.opens (isOpen ops) := List.foldl_append

theorem opened_after (ops : List (Op α)) : (after ops).opened = isOpen ops := by
  induction ops using List.reverseRecOn with
  | nil => rfl
  | append_singleton ops op ih =>
    rw [after_snoc, isOpen_snoc, ← ih]
    cases op with
    | add _ | remove _ => rfl
    | set opened =>
      unfold step
      dsimp only
      split_ifs with h
      · exact h.symm
      · rfl
      · rfl

/-- The record has an entry for each outstanding add. -/
theorem count_record (ops : List (Op α)) (a : α) :
    (after ops).record.count a = outstanding a ops := by
  induction ops using List.reverseRecOn with
  | nil => rfl
  | append_singleton ops op ih =>
    rw [after_snoc, outstanding_snoc, ← ih]
    cases op with
    | add b =>
      show ((after ops).record ++ [b]).count a = _
      rw [List.count_append, List.count_singleton]
      by_cases h : b = a <;> simp [Op.count, h]
    | remove b =>
      show ((after ops).record.erase b).count a = _
      rw [List.count_erase]
      by_cases h : b = a <;> simp [Op.count, h]
    | set opened =>
      unfold step
      dsimp only
      split_ifs <;> rfl

theorem mem_record_iff : a ∈ (after ops).record ↔ outstanding a ops ≠ 0 := by
  rw [← count_record, ne_eq, List.count_eq_zero, not_not]

/-- What the client alone would hold is in the record. -/
theorem own_subset_record (ops : List (Op α)) : own ops ⊆ (after ops).record.toFinset := by
  intro a ha
  rw [List.mem_toFinset, mem_record_iff]
  induction ops using List.reverseRecOn with
  | nil => cases ha
  | append_singleton ops op ih =>
    rw [own_snoc] at ha
    rw [outstanding_snoc]
    cases op with
    | add b =>
      by_cases h : b = a
      · simp [Op.count, h]
      · rcases Finset.mem_insert.1 ha with hab | ha
        · exact absurd hab.symm h
        · simpa [Op.count, h] using ih ha
    | remove b =>
      obtain ⟨hab, ha⟩ := Finset.mem_erase.1 ha
      simpa [Op.count, hab.symm] using ih ha
    | set _ => exact ih ha

/-! ### What gets to the resource -/

/-- The resource holds nothing that is not in the record, and nothing when the gate is closed. -/
structure Kept (s : State α) : Prop where
  live : s.live ⊆ s.record.toFinset
  closed : s.opened = false → s.live = ∅

theorem Kept.step (hs : Kept s) (op : Op α) : Kept (step s op) := by
  obtain ⟨opened, record, live⟩ := s
  cases opened with
  | false =>
    obtain rfl : live = ∅ := hs.closed rfl
    cases op with
    | add a | remove a => exact ⟨Finset.empty_subset _, fun _ => rfl⟩
    | set opened =>
      cases opened with
      | false => exact hs
      | true =>
        refine ⟨?_, fun h => by cases h⟩
        show record.foldl (fun t a => insert a t) ∅ ⊆ record.toFinset
        -- the gate opens: everything in the record is added
        rw [foldl_insert, Finset.empty_union]
  | true =>
    have hlive : live ⊆ record.toFinset := hs.live
    cases op with
    | add a =>
      refine ⟨?_, fun h => by cases h⟩
      show insert a live ⊆ (record ++ [a]).toFinset
      rw [List.toFinset_append, Finset.union_comm]
      exact Finset.insert_subset_insert a hlive
    | remove a =>
      refine ⟨fun b hb => ?_, fun h => by cases h⟩
      obtain ⟨hne, hb⟩ := Finset.mem_erase.1 hb
      show b ∈ (record.erase a).toFinset
      rw [List.mem_toFinset, List.mem_erase_of_ne hne]
      exact List.mem_toFinset.1 (hlive hb)
    | set opened =>
      cases opened with
      | true => exact hs
      | false =>
        have hnone : record.foldl Finset.erase live = ∅ := by
          rw [foldl_erase, Finset.sdiff_eq_empty_iff_subset]
          exact hlive
        exact ⟨hnone.subset.trans (Finset.empty_subset _), fun _ => hnone⟩

theorem kept_after (ops : List (Op α)) : Kept (after ops) := by
  induction ops using List.reverseRecOn with
  | nil => exact ⟨Finset.Subset.refl _, fun _ => rfl⟩
  | append_singleton ops op ih =>
    rw [after_snoc]
    exact ih.step op

/-- Nothing that the client has removed has an add outstanding. -/
def Balanced (ops : List (Op α)) : Prop := ∀ a ∉ own ops, outstanding a ops = 0

theorem balanced_iff : Balanced ops ↔ own ops = (after ops).record.toFinset := by
  constructor
  · intro h
    refine (own_subset_record ops).antisymm fun a ha => ?_
    by_contra hown
    exact mem_record_iff.1 (List.mem_toFinset.1 ha) (h a hown)
  · intro h a hown
    by_contra hout
    exact hown (h ▸ List.mem_toFinset.2 (mem_record_iff.2 hout))

/-- While the gate is open, the resource holds what the client alone would hold, if the record did at
each opening. -/
theorem live_eq_own (h : ∀ fs, fs <+: ops → isOpen fs = true → Balanced fs)
    (ho : (after ops).opened = true) : (after ops).live = own ops := by
  induction ops using List.reverseRecOn with
  | nil => cases ho
  | append_singleton ops op ih =>
    have ih := ih fun fs hfs => h fs (hfs.trans (List.prefix_append ..))
    have hlast := balanced_iff.1 (h _ List.prefix_rfl (opened_after (ops ++ [op]) ▸ ho))
    have hclosed := (kept_after ops).closed
    rw [after_snoc, own_snoc] at hlast
    rw [after_snoc] at ho ⊢
    rw [own_snoc]
    generalize after ops = s at ih hlast hclosed ho ⊢
    obtain ⟨opened, record, live⟩ := s
    cases op with
    | add a =>
      obtain rfl : opened = true := ho
      exact congrArg (insert a) (ih rfl)
    | remove a =>
      obtain rfl : opened = true := ho
      exact congrArg (Finset.erase · a) (ih rfl)
    | set b =>
      cases opened with
      | true =>
        cases b with
        | true => exact ih rfl
        | false => cases ho
      | false =>
        cases b with
        | false => cases ho
        | true =>
          -- the gate opens with the record, which is what the client alone would hold
          obtain rfl : live = ∅ := hclosed rfl
          show record.foldl (fun t a => insert a t) ∅ = _
          rw [hlast, foldl_insert, Finset.empty_union]
          rfl

/-- **When the client does not notice the gate**: when, each time the gate is open, what the client
has removed has no add outstanding. -/
theorem transparent_iff (ops : List (Op α)) :
    (∀ fs, fs <+: ops → Transparent fs) ↔
      ∀ fs, fs <+: ops → isOpen fs = true → Balanced fs := by
  constructor
  · intro h fs hfs ho
    rw [← opened_after] at ho
    exact balanced_iff.2 (((h fs hfs).own ho).symm.trans ((h fs hfs).record ho))
  · intro h fs hfs
    have hopen : (after fs).opened = true → (after fs).live = own fs :=
      live_eq_own fun gs hgs => h gs (hgs.trans hfs)
    refine ⟨hopen, fun ho => (hopen ho).trans ?_, (kept_after fs).closed⟩
    exact balanced_iff.1 (h fs hfs (opened_after fs ▸ ho))

end Lib.Gate

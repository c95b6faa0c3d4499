import Draconity.Lib.Walk
import Draconity.ListBuffer

/-!
`phrase_to_bson` on any block of bytes.

The loop compares its position with the end of the block and nothing else: it takes the size of an
entry as it is, and the name up to the next NUL.  So it ends, and stays inside, just when each entry it
comes to has a size, and a NUL behind its id.
-/

namespace Draconity

open Lib Lib.Walk

/-- What the loop takes from an entry: its name, and its size, which it adds to its position.  The
address space has `room` bytes from `phrase` on, and a pointer may not leave it. -/
def readEntry (o : ByteOrder) (room : ℕ) (phrase : Buffer) (pos : ℕ) :
    Option (List UInt8 × ℕ) := do
  let name ← Buffer.cString phrase (pos + sizeofDsxId)
  let size ← Buffer.load phrase pos 4
  if pos + (o.load size).toNat < room then return (name, (o.load size).toNat) else none

/-- `phrase_to_bson` on a block with so much room, in at most `fuel` passes of its loop: the strings
that it appends. -/
def phraseToBsonIn (o : ByteOrder) (room : ℕ) (phrase : Buffer) (fuel : ℕ) :
    Option (List (List UInt8)) := do
  let len ← Buffer.load phrase 0 4
  let (names, _) ← walk (o.load len).toNat (readEntry o room phrase) fuel 4
  return names

/-- The size that an entry claims for itself. -/
def claimedSize (o : ByteOrder) (phrase : Buffer) (pos : ℕ) : ℕ :=
  (o.load ((phrase.drop pos).take 4)).toNat

/-- Where an entry starts: behind the length of the block, and behind an entry that starts inside. -/
inductive EntryStart (o : ByteOrder) (phrase : Buffer) : ℕ → Prop
  | first : EntryStart o phrase 4
  | next {pos : ℕ} (h : EntryStart o phrase pos) (hpos : pos < phrase.length) :
    EntryStart o phrase (pos + claimedSize o phrase pos)

variable {o : ByteOrder} {room : ℕ} {phrase : Buffer} {pos fin fuel : ℕ}

/-! ### The model without bounds on pointers -/

/-- With enough room the loop is `walkEntries`. -/
theorem walk_readEntry (hroom : fin + 2 ^ 32 ≤ room) (fuel pos : ℕ) :
    walk fin (readEntry o room phrase) fuel pos = walkEntries o phrase fin fuel pos := by
  induction fuel generalizing pos with
  | zero => rfl
  | succ fuel ih =>
    rw [walk, walkEntries]
    by_cases hpos : pos < fin
    · rw [if_pos hpos, if_pos hpos, readEntry]
      cases Buffer.cString phrase (pos + sizeofDsxId) with
      | none => rfl
      | some name =>
        cases Buffer.load phrase pos 4 with
        | none => rfl
        | some size =>
          have hsize : pos + (o.load size).toNat < room := by
            have := (o.load size).toNat_lt
            omega
          simp only [Option.bind_eq_bind, Option.bind_some, if_pos hsize, ih]
          rfl
    · rw [if_neg hpos, if_neg hpos]

theorem phraseToBsonIn_eq (hroom : 2 ^ 33 ≤ room) (phrase : Buffer) (fuel : ℕ) :
    phraseToBsonIn o room phrase fuel = phraseToBson o phrase fuel := by
  unfold phraseToBsonIn phraseToBson
  cases Buffer.load phrase 0 4 with
  | none => rfl
  | some len =>
    have hlen : (o.load len).toNat + 2 ^ 32 ≤ room := by
      have := (o.load len).toNat_lt
      omega
    simp only [Option.bind_eq_bind, Option.bind_some, walk_readEntry hlen]

/-! ### One entry -/

theorem lt_length_of_zero_mem (h : (0 : UInt8) ∈ phrase.drop (pos + sizeofDsxId)) :
    pos + sizeofDsxId < phrase.length := by
  have hlen := List.length_pos_of_mem h
  rw [List.length_drop] at hlen
  omega

/-- When an entry can be read: its name ends inside the block, and behind it is an address. -/
theorem readEntry_eq_some_iff {name : List UInt8} {d : ℕ} :
    readEntry o room phrase pos = some (name, d) ↔
      0 ∈ phrase.drop (pos + sizeofDsxId) ∧ pos + claimedSize o phrase pos < room ∧
        (phrase.drop (pos + sizeofDsxId)).takeWhile (· ≠ 0) = name ∧
          claimedSize o phrase pos = d := by
  unfold readEntry Buffer.cString Buffer.load
  by_cases hname : 0 ∈ phrase.drop (pos + sizeofDsxId)
  · have hload : pos + 4 ≤ phrase.length := by
      have := lt_length_of_zero_mem hname
      unfold sizeofDsxId at this
      omega
    simp only [if_pos hname, if_pos hload, Option.bind_eq_bind, Option.bind_some, claimedSize,
      Option.ite_none_right_eq_some, Option.pure_def, Option.some.injEq, Prod.mk.injEq]
    exact (and_iff_right hname).symm
  · rw [if_neg hname]
    simp [hname]

theorem EntryStart.visits (h : EntryStart o phrase pos)
    (hread : ∀ q, Visits phrase.length (readEntry o room phrase) 4 q → q < phrase.length →
      ∃ name d, readEntry o room phrase q = some (name, d) ∧ d ≠ 0) :
    Visits phrase.length (readEntry o room phrase) 4 pos := by
  induction h with
  | first => exact .refl 4
  | next _ hpos ih =>
    obtain ⟨name, d, hsome, -⟩ := hread _ ih hpos
    obtain ⟨-, -, -, rfl⟩ := readEntry_eq_some_iff.1 hsome
    exact ih.snoc hpos hsome

/-- The loop comes only to entries. -/
theorem entryStart_of_visits {q : ℕ} (h : Visits phrase.length (readEntry o room phrase) pos q)
    (hpos : EntryStart o phrase pos) : EntryStart o phrase q := by
  induction h with
  | refl => exact hpos
  | step hp hread _ ih =>
    obtain ⟨-, -, -, rfl⟩ := readEntry_eq_some_iff.1 hread
    exact ih (hpos.next hp)

/-! ### Any block -/

/-- **When `phrase_to_bson` ends and stays inside.**  For a block that starts with its length: the loop
ends, and reads nothing outside, just when each entry that starts inside has a size that is not zero,
a NUL behind its id, and an address behind it. -/
theorem phraseToBson_ends_iff (o : ByteOrder) (room : ℕ) (phrase : Buffer)
    (hlength : 4 ≤ phrase.length) (hfirst : (o.load (phrase.take 4)).toNat = phrase.length) :
    (∃ fuel, (phraseToBsonIn o room phrase fuel).isSome) ↔
      ∀ pos, EntryStart o phrase pos → pos < phrase.length →
        claimedSize o phrase pos ≠ 0 ∧ 0 ∈ phrase.drop (pos + sizeofDsxId) ∧
          pos + claimedSize o phrase pos < room := by
  have hload : Buffer.load phrase 0 4 = some (phrase.take 4) := if_pos (by omega)
  have hwalk : ∀ fuel, (phraseToBsonIn o room phrase fuel).isSome =
      (walk phrase.length (readEntry o room phrase) fuel 4).isSome := by
    intro fuel
    unfold phraseToBsonIn
    rw [hload, Option.bind_eq_bind, Option.bind_some, hfirst]
    cases walk phrase.length (readEntry o room phrase) fuel 4 <;> rfl
  simp only [hwalk, walk_isSome_iff]
  constructor
  · intro h pos hstart hpos
    obtain ⟨name, d, hread, hd⟩ := h pos (hstart.visits h) hpos
    obtain ⟨hname, hroom, -, rfl⟩ := readEntry_eq_some_iff.1 hread
    exact ⟨hd, hname, hroom⟩
  · intro h pos hvisits hpos
    obtain ⟨hsize, hname, hroom⟩ := h pos (entryStart_of_visits hvisits .first) hpos
    exact ⟨_, _, readEntry_eq_some_iff.2 ⟨hname, hroom, rfl, rfl⟩, hsize⟩

/-- A block of one entry, whose name has no byte to spare and ends with the block. -/
def oddBlock : Buffer := [15, 0, 0, 0, 11, 0, 0, 0, 0, 0, 0, 0, 97, 98, 0]

theorem phraseToBson_ends_iff_odd :
    ∃ fuel, (phraseToBsonIn .little (2 ^ 32) oddBlock fuel).isSome := by
  refine (phraseToBson_ends_iff .little (2 ^ 32) oddBlock (by decide) (by decide)).2 ?_
  have hstarts : ∀ pos, EntryStart .little oddBlock pos → pos = 4 ∨ pos = 15 := by
    intro pos hstart
    induction hstart with
    | first => exact .inl rfl
    | next _ hpos ih =>
      obtain rfl | rfl := ih
      · exact .inr (by decide)
      · exact absurd hpos (by decide)
  intro pos hstart hpos
  obtain rfl | rfl := hstarts pos hstart
  · decide
  · exact absurd hpos (by decide)

/-- On an entry of size zero the loop does not end. -/
theorem phraseToBson_ends_fails : ¬ ∀ (o : ByteOrder) (room : ℕ) (phrase : Buffer),
    4 ≤ phrase.length → (o.load (phrase.take 4)).toNat = phrase.length →
      phrase.length + 2 ^ 32 ≤ room → ∃ fuel, (phraseToBsonIn o room phrase fuel).isSome := by
  intro h
  obtain ⟨fuel, hfuel⟩ := h .little (2 ^ 64)
    [16, 0, 0, 0, 0, 0, 0, 0, 0, 0, 0, 0, 97, 0, 0, 0] (by decide) (by decide) (by decide)
  have hread : readEntry .little (2 ^ 64) [16, 0, 0, 0, 0, 0, 0, 0, 0, 0, 0, 0, 97, 0, 0, 0] 4 =
      some ([97], 0) := by decide
  have hnone : phraseToBsonIn .little (2 ^ 64) [16, 0, 0, 0, 0, 0, 0, 0, 0, 0, 0, 0, 97, 0, 0, 0]
      fuel = none := by
    have hwalk := walk_zero (show 4 < 16 by decide) hread fuel
    have hlen : (ByteOrder.load .little [16, 0, 0, 0]).toNat = 16 := by decide
    unfold phraseToBsonIn
    rw [show Buffer.load _ 0 4 = some [16, 0, 0, 0] from rfl, Option.bind_eq_bind, Option.bind_some,
      hlen, hwalk]
    rfl
  rw [hnone] at hfuel
  cases hfuel

end Draconity

import Draconity.Lib.Keyed

/-!
Objects that are found again by their place.

A map gives each key that has an object the place of the object.  An object is found by its place
when no two objects have the same one, and this stays so when a new object is given any place that
none of the others has: the place of an object that is gone may be used again.
-/

namespace Lib.Places

variable {κ α β : Type*} [DecidableEq κ] {m : AList fun _ : κ => α} {k j : κ} {a : α}

/-- No two keys have the same place. -/
def Apart (m : AList fun _ : κ => α) : Prop :=
  ∀ ⦃j k a⦄, m.lookup j = some a → m.lookup k = some a → j = k

def used (m : AList fun _ : κ => α) : List α := m.entries.map Sigma.snd

theorem mem_used (h : m.lookup k = some a) : a ∈ used m :=
  List.mem_map.2 ⟨⟨k, a⟩, AList.mem_lookup_iff.1 h, rfl⟩

theorem apart_empty : Apart (∅ : AList fun _ : κ => α) := fun _ _ _ h => nomatch h

theorem Apart.erase (hm : Apart m) (k : κ) : Apart (m.erase k) := by
  intro i j a hi hj
  rw [Keyed.lookup_erase_eq] at hi hj
  split_ifs at hi hj
  exact hm hi hj

theorem Apart.insert (hm : Apart m) (h : ∀ j, j ≠ k → m.lookup j ≠ some a) :
    Apart (m.insert k a) := by
  intro i j b hi hj
  rw [Keyed.lookup_insert_eq] at hi hj
  split_ifs at hi hj with hik hjk hjk
  · exact hik.trans hjk.symm
  · cases hi
    exact absurd hj (h j hjk)
  · cases hj
    exact absurd hi (h i hik)
  · exact hm hi hj

/-- The place that a key has, or a place that is not in use, belongs to no other key. -/
theorem Apart.getD_ne (hm : Apart m) (ha : a ∉ used m) (hj : j ≠ k) :
    m.lookup j ≠ some ((m.lookup k).getD a) := by
  cases hk : m.lookup k with
  | none => exact fun h => ha (mem_used h)
  | some b => exact fun h => hj (hm h hk)

/-- What is found at a place, among the objects of another map. -/
def find [DecidableEq α] (m : AList fun _ : κ => α) (objects : AList fun _ : κ => β) (a : α) :
    Option β := (objects.entries.find? fun e => m.lookup e.1 = some a).map Sigma.snd

/-- **An object is found by its place**, in whichever order the objects are looked at. -/
theorem Apart.find_eq [DecidableEq α] (hm : Apart m) {objects : AList fun _ : κ => β} {b : β}
    (hk : m.lookup k = some a) (hb : objects.lookup k = some b) : find m objects a = some b := by
  have hmem : (⟨k, b⟩ : Σ _ : κ, β) ∈ objects.entries := AList.mem_lookup_iff.1 hb
  unfold find
  cases hfind : objects.entries.find? fun e => m.lookup e.1 = some a with
  | none => exact absurd (List.find?_eq_none.1 hfind _ hmem) (by simpa using hk)
  | some e =>
    have hplace : m.lookup e.1 = some a := by simpa using List.find?_some hfind
    have he : objects.lookup e.1 = some e.2 :=
      AList.mem_lookup_iff.2 (List.mem_of_find?_eq_some hfind)
    rw [hm hplace hk, hb, Option.some.injEq] at he
    exact congrArg some he.symm

end Lib.Places

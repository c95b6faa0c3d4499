import Mathlib.Data.List.Basic

/-!
Streams of length-prefixed frames.

A frame is a header of a fixed size, which says how long the body after it is.  `Format.split` is
the reference decoder of a stream that is there as a whole; `split_append` says that decoding can
stop after any part of the stream and go on with what was left of it, so a receiver that gets the
stream in chunks finds the frames of the whole stream.  `Holds` is what such a receiver keeps.
-/

namespace Lib

/-- A format of frames: how long a header is, what its bytes say, and how long the body is. -/
structure Format (α η : Type*) where
  size : ℕ
  size_pos : 0 < size
  header : List α → η
  length : η → ℕ

structure Frame (α η : Type*) where
  header : η
  body : List α

namespace Format

variable {α η : Type*} (F : Format α η) {h : η} {xs ys bytes rest buffer : List α} {f : Frame α η}

/-- The first frame of a stream and what follows it, when the frame is complete. -/
def next (bytes : List α) : Option (Frame α η × List α) :=
  let h := F.header (bytes.take F.size)
  let rest := bytes.drop F.size
  if F.size ≤ bytes.length ∧ F.length h ≤ rest.length then
    some (⟨h, rest.take (F.length h)⟩, rest.drop (F.length h))
  else none

theorem length_of_next (hn : F.next bytes = some (f, rest)) : rest.length < bytes.length := by
  unfold next at hn
  dsimp only at hn
  split_ifs at hn with hc
  cases hn
  have := F.size_pos
  simp only [List.length_drop]
  omega

/-- The complete frames of a stream, in order, and what is left of it. -/
def split (bytes : List α) : List (Frame α η) × List α :=
  match _hn : F.next bytes with
  | none => ([], bytes)
  | some (f, rest) => (f :: (split rest).1, (split rest).2)
termination_by bytes.length
decreasing_by all_goals exact F.length_of_next ‹_›

theorem split_of_none (hn : F.next bytes = none) : F.split bytes = ([], bytes) := by
  rw [split]
  split
  · rfl
  · rename_i h
    rw [hn] at h
    cases h

theorem split_of_some (hn : F.next bytes = some (f, rest)) :
    F.split bytes = (f :: (F.split rest).1, (F.split rest).2) := by
  rw [split]
  split
  · rename_i h
    rw [hn] at h
    cases h
  · rename_i h
    rw [hn] at h
    cases h
    rfl

/-- A complete frame stays the first one when more of the stream arrives. -/
theorem next_append (hn : F.next xs = some (f, rest)) (ys : List α) :
    F.next (xs ++ ys) = some (f, rest ++ ys) := by
  unfold next at hn ⊢
  dsimp only at hn ⊢
  split_ifs at hn with hc
  obtain ⟨h₁, h₂⟩ := hc
  cases hn
  rw [List.take_append_of_le_length h₁, List.drop_append_of_le_length h₁,
    List.take_append_of_le_length h₂, List.drop_append_of_le_length h₂,
    if_pos ⟨by rw [List.length_append]; omega, by rw [List.length_append]; omega⟩]

/-- **Decoding goes on with what was left.** -/
theorem split_append (xs ys : List α) :
    F.split (xs ++ ys) = ((F.split xs).1 ++ (F.split ((F.split xs).2 ++ ys)).1,
      (F.split ((F.split xs).2 ++ ys)).2) := by
  induction xs using Format.split.induct (F := F) with
  | case1 xs hn => rw [F.split_of_none hn]; rfl
  | case2 xs f rest hn ih =>
    rw [F.split_of_some (F.next_append hn ys), F.split_of_some hn, ih]
    rfl

/-- What is left of a stream has no complete frame. -/
theorem next_split (bytes : List α) : F.next (F.split bytes).2 = none := by
  induction bytes using Format.split.induct (F := F) with
  | case1 bytes hn => rw [F.split_of_none hn]; exact hn
  | case2 bytes f rest hn ih => rw [F.split_of_some hn]; exact ih

/-- The frames of a part of a stream that has arrived are the first ones of the stream. -/
theorem split_prefix (h : xs <+: bytes) : (F.split xs).1 <+: (F.split bytes).1 := by
  obtain ⟨ys, rfl⟩ := h
  rw [split_append]
  exact List.prefix_append ..

/-! ### Encoders -/

/-- The decoder takes what the encoder put in front of a stream. -/
def Decodes (encode : Frame α η → List α) (f : Frame α η) : Prop :=
  ∀ rest, F.next (encode f ++ rest) = some (f, rest)

/-- **The decoder undoes the encoder**, when it does so for each frame. -/
theorem split_flatMap {encode : Frame α η → List α} {fs : List (Frame α η)}
    (h : ∀ f ∈ fs, F.Decodes encode f) : F.split (fs.flatMap encode) = (fs, []) := by
  induction fs with
  | nil =>
    refine F.split_of_none (if_neg fun hc => ?_)
    have := F.size_pos
    have := hc.1
    simp at this
    omega
  | cons f fs ih =>
    rw [List.flatMap_cons, F.split_of_some (h f (List.mem_cons_self ..) _),
      ih fun g hg => h g (List.mem_cons_of_mem _ hg)]

/-- **The encoder undoes the decoder**, when it does so for the first frame of a stream. -/
theorem flatMap_split {encode : Frame α η → List α}
    (h : ∀ bytes f rest, F.next bytes = some (f, rest) → bytes = encode f ++ rest)
    (bytes : List α) : (F.split bytes).1.flatMap encode ++ (F.split bytes).2 = bytes := by
  induction bytes using Format.split.induct (F := F) with
  | case1 bytes hn => rw [F.split_of_none hn]; rfl
  | case2 bytes f rest hn ih =>
    rw [F.split_of_some hn, List.flatMap_cons, List.append_assoc, ih]
    exact (h _ _ _ hn).symm

/-! ### What a receiver keeps -/

/-- A receiver with this header, if it has read one, and this buffer stands at these bytes. -/
def Holds (header : Option η) (buffer bytes : List α) : Prop :=
  match header with
  | none => buffer = bytes
  | some h => ∃ raw, raw.length = F.size ∧ F.header raw = h ∧ bytes = raw ++ buffer

variable {F} {header : Option η}

theorem Holds.append (hh : F.Holds header buffer bytes) (chunk : List α) :
    F.Holds header (buffer ++ chunk) (bytes ++ chunk) := by
  cases header with
  | none => exact congrArg (· ++ chunk) hh
  | some h =>
    obtain ⟨raw, hl, hr, rfl⟩ := hh
    exact ⟨raw, hl, hr, List.append_assoc ..⟩

theorem Holds.read (hh : F.Holds none buffer bytes) (hl : F.size ≤ buffer.length) :
    F.Holds (some (F.header (buffer.take F.size))) (buffer.drop F.size) bytes :=
  ⟨buffer.take F.size, List.length_take_of_le hl, rfl, hh ▸ (List.take_append_drop ..).symm⟩

theorem Holds.next_of_short (hh : F.Holds none buffer bytes) (hl : ¬ F.size ≤ buffer.length) :
    F.next bytes = none := by
  cases hh
  exact if_neg fun hc => hl hc.1

/-- With a header, the frame is complete when the buffer has its body. -/
theorem Holds.next_eq (hh : F.Holds (some h) buffer bytes) :
    F.next bytes = if F.length h ≤ buffer.length then
      some (⟨h, buffer.take (F.length h)⟩, buffer.drop (F.length h)) else none := by
  obtain ⟨raw, hl, rfl, rfl⟩ := hh
  have htake : (raw ++ buffer).take F.size = raw := hl ▸ List.take_left
  have hdrop : (raw ++ buffer).drop F.size = buffer := hl ▸ List.drop_left
  unfold next
  dsimp only
  rw [htake, hdrop, List.length_append, hl]
  simp only [Nat.le_add_right, true_and]

end Format

end Lib

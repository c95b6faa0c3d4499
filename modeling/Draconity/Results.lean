import Draconity.Lib.Scan
import Draconity.Types

/-!
`result_to_bson`: the words of a recognition result.

The best path is asked for twice, first with room for one number to learn how much is needed, and
then with an array of `needed` numbers.  What the second call stores in `needed` is taken for a number
of bytes, and says how many entries of the array are read.
-/

namespace Draconity

open Lib

/-- `dsx_word_node`, as far as it is read. -/
structure WordNode where
  startTime : UInt64
  endTime : UInt64
  rule : UInt32

/-- A `dsx_result`: what the engine answers about it. -/
structure Result where
  /-- The first call of `_DSXResult_BestPathWord`: its return code, and `needed`. -/
  needed : Int × ℕ
  /-- The second call: its return code, what is in an array of so many numbers afterwards, and
  `needed`. -/
  bestPathWord : ℕ → Int × List UInt32 × ℕ
  length_bestPathWord : ∀ n, (bestPathWord n).2.1.length = n
  /-- The index of the loop, a `uint32_t`, gets to the number of entries. -/
  entries_lt : ∀ n, (bestPathWord n).2.2 / 4 < 2 ^ 32
  /-- `_DSXResult_GetWordNode`: the node, the id and the word, `none` when it fails or stores no
  word. -/
  getWordNode : UInt32 → Option (WordNode × UInt32 × List UInt8)
  /-- `_DSXResult_GetWAV`: its return code, and the data, `none` for the null pointer. -/
  getWAV : Int × Option (List UInt8)

/-- One document of the array `words`. -/
structure WordDoc where
  key : ℕ
  word : List UInt8
  id : Int32
  rule : Int32
  start : Int64
  «end» : Int64
  deriving DecidableEq

/-- The document of a word, with `ns` for the conversion of its times. -/
def WordDoc.ofNode (ns : Int64 → Int64) (p : (WordNode × UInt32 × List UInt8) × ℕ) : WordDoc where
  key := p.2
  word := p.1.2.2
  id := p.1.2.1.toInt32
  rule := p.1.1.rule.toInt32
  start := ns p.1.1.startTime.toInt64
  «end» := ns p.1.1.endTime.toInt64

/-- `result_to_bson`: the array `words`, `none` when the loop reads outside of the array of paths.
`ns` converts milliseconds to nanoseconds and adds the offset of the clocks. -/
def resultToBson (ns : Int64 → Int64) (r : Result) : Option (List WordDoc) :=
  if r.needed.1 = 33 then
    let second := r.bestPathWord r.needed.2
    if second.1 = 0 then
      (Scan.scan r.getWordNode second.2.1 (second.2.2 / 4) 0).map fun ws =>
        ws.map (WordDoc.ofNode ns)
    else some []
  else some []

/-- Both calls for the best path answer as they do for a result with words. -/
def Result.HasPath (r : Result) : Prop :=
  r.needed.1 = 33 ∧ (r.bestPathWord r.needed.2).1 = 0

instance (r : Result) : Decidable r.HasPath := inferInstanceAs (Decidable (_ ∧ _))

/-- The second call asks for more numbers than the first, and each number it stored is a word. -/
def Result.Overruns (r : Result) : Prop :=
  r.HasPath ∧ r.needed.2 < (r.bestPathWord r.needed.2).2.2 / 4 ∧
    ∀ path ∈ (r.bestPathWord r.needed.2).2.1, (r.getWordNode path).isSome

instance (r : Result) : Decidable r.Overruns :=
  inferInstanceAs (Decidable (_ ∧ _ < _ ∧ ∀ path ∈ _, (r.getWordNode path).isSome))

/-- The words of the best path, up to the first that the engine does not give. -/
def Result.words (r : Result) : List (WordNode × UInt32 × List UInt8) :=
  if r.HasPath then
    Scan.collect r.getWordNode
      ((r.bestPathWord r.needed.2).2.1.take ((r.bestPathWord r.needed.2).2.2 / 4))
  else []

/-- **What `result_to_bson` reads and appends**, whatever the engine answers: it reads outside of its
array just when the result overruns, and else it appends the words of the path, numbered from `0`. -/
theorem resultToBson_eq (ns : Int64 → Int64) (r : Result) :
    resultToBson ns r =
      if r.Overruns then none else some (r.words.zipIdx.map (WordDoc.ofNode ns)) := by
  have hscan := Scan.scan_eq (f := r.getWordNode) (n := (r.bestPathWord r.needed.2).2.2 / 4)
    (i := 0) (Nat.zero_le (r.bestPathWord r.needed.2).2.1.length)
  rw [List.drop_zero, Nat.sub_zero, r.length_bestPathWord] at hscan
  unfold resultToBson Result.words Result.Overruns Result.HasPath
  dsimp only
  rw [hscan]
  by_cases h₁ : r.needed.1 = 33
  · by_cases h₂ : (r.bestPathWord r.needed.2).1 = 0
    · simp only [h₁, h₂, if_true, true_and, and_self]
      split_ifs <;> rfl
    · simp [h₁, h₂]
  · simp [h₁]

end Draconity

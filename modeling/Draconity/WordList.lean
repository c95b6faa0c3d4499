import Draconity.ListBuffer
import Draconity.MimicBuffer

/-!
The bytes behind `w.list`: the records that `_DSXWordEnum_Next` fills a buffer with, and the loop that
reads them back.

The loop goes by the number of records of a batch and never looks at its size: behind each word it
rounds up, and comes to the next record only because the engine rounds the same way.  `readWords` is
what is left of the loop when the words of a batch are given.
-/

namespace Draconity

open Lib

/-! ### The loop -/

def maxSize : UInt32 := 0x200000

/-- What a call of `_DSXWordEnum_Next` leaves: its return code, `count`, `size`, and the bytes of
`buf`. -/
structure EnumAnswer where
  err : Int
  count : UInt32
  size : UInt32
  buf : Buffer
  length_buf : buf.length = maxSize.toNat

/-- What `w.list` takes for a failure. -/
def EnumAnswer.Failed (a : EnumAnswer) : Prop := (a.err ≠ 0 ∧ a.err ≠ -1) ∨ a.size > maxSize

instance (a : EnumAnswer) : Decidable a.Failed := inferInstanceAs (Decidable (_ ∨ _))

def sizeofWordinfo : ℕ := 20

/-- `bson_uint32_to_string`. -/
def indexKey (i : ℕ) : CString := .lit (toString i)

/-- The inner loop, over so many records: the array, and where `pos` and `i` end. -/
def readRecords (buf : Buffer) : ℕ → ℕ → ℕ → Elements → Option (Elements × ℕ × ℕ)
  | 0, pos, i, words => some (words, pos, i)
  | count + 1, pos, i, words => do
    let pos := pos + sizeofWordinfo
    let word ← Buffer.cString buf pos
    readRecords buf count (pos + align4 word.length) (i + 1) (words ++ [(indexKey i, .utf8 word)])

/-- The outer loop, from a call of the enumerator on, in at most `fuel` passes. -/
def readBatches (next : ℕ → EnumAnswer) :
    ℕ → ℕ → ℕ → Elements → Option (Except Refusal Elements)
  | 0, _, _, _ => none
  | fuel + 1, k, i, words =>
    let a := next k
    if a.Failed then some (.error .wordIteration)
    else if a.size = 0 then some (.ok words)
    else do
      let (words, _, i) ← readRecords a.buf a.count.toNat 0 i words
      readBatches next fuel (k + 1) i words

/-- `w.list`, with the answers of the enumerator: the array `words` of the response, or the
`errmsg`. -/
def wListArray (wenum : Option (ℕ → EnumAnswer)) (fuel : ℕ) : Option (Except Refusal Elements) :=
  match wenum with
  | none => some (.error .nullWordIterator)
  | some next => readBatches next fuel 0 0 []

/-! ### What the enumerator promises -/

/-- A word as the enumerator lists it. -/
structure WordRecord where
  info : List UInt8
  length_info : info.length = sizeofWordinfo
  word : CString

/-- A record: the header, and the word with zeros up to the next multiple of four. -/
def WordRecord.bytes (r : WordRecord) : List UInt8 :=
  r.info ++ r.word.bytes ++ Buffer.calloc (4 - r.word.bytes.length % 4)

def batchBytes (batch : List WordRecord) : List UInt8 := batch.flatMap WordRecord.bytes

def batchWords (batch : List WordRecord) : List (List UInt8) := batch.map fun r => r.word.bytes

/-- The answer holds the records of a batch. -/
structure EnumAnswer.Holds (a : EnumAnswer) (batch : List WordRecord) : Prop where
  err : a.err = 0 ∨ a.err = -1
  count : a.count.toNat = batch.length
  size : a.size.toNat = (batchBytes batch).length
  fits : a.size ≤ maxSize
  bytes : a.buf.take a.size.toNat = batchBytes batch

/-- The answer says that there are no more words. -/
structure EnumAnswer.Exhausted (a : EnumAnswer) : Prop where
  err : a.err = 0 ∨ a.err = -1
  size : a.size = 0

/-- The first answers of the enumerator hold the batches, none of which is empty. -/
structure Enumerates (next : ℕ → EnumAnswer) (batches : List (List WordRecord)) : Prop where
  holds : ∀ k (hk : k < batches.length), (next k).Holds batches[k]
  nonempty : ∀ batch ∈ batches, batch ≠ []

/-- The elements of an array of words, from an index on. -/
def indexed (i : ℕ) (words : List (List UInt8)) : Elements :=
  (words.zipIdx i).map fun p => (indexKey p.2, .utf8 p.1)

variable {a : EnumAnswer} {next : ℕ → EnumAnswer} {r : WordRecord} {batch : List WordRecord}
  {batches : List (List WordRecord)} {words acc : List (List UInt8)} {fuel i k : ℕ}

theorem indexed_append (i : ℕ) (words words' : List (List UInt8)) :
    indexed i (words ++ words') = indexed i words ++ indexed (i + words.length) words' := by
  rw [indexed, List.zipIdx_append, List.map_append]
  rfl

theorem batchWords_flatten_cons (batch : List WordRecord) (batches : List (List WordRecord)) :
    batchWords (batch :: batches).flatten = batchWords batch ++ batchWords batches.flatten :=
  List.map_append

/-! ### A batch -/

/-- The loop goes on behind a word by as much as the enumerator does. -/
theorem align4_eq_add (n : ℕ) : align4 n = n + (4 - n % 4) := by
  rw [align4_eq]
  omega

theorem WordRecord.length_bytes (r : WordRecord) :
    r.bytes.length = sizeofWordinfo + align4 r.word.bytes.length := by
  rw [align4_eq_add, WordRecord.bytes, List.length_append, List.length_append, r.length_info,
    Buffer.length_calloc, Nat.add_assoc]

theorem length_batchBytes_cons (r : WordRecord) (batch : List WordRecord) :
    (batchBytes (r :: batch)).length =
      sizeofWordinfo + align4 r.word.bytes.length + (batchBytes batch).length := by
  rw [batchBytes, List.flatMap_cons, List.length_append, r.length_bytes]
  rfl

theorem length_le_batchBytes (batch : List WordRecord) :
    batch.length ≤ (batchBytes batch).length := by
  induction batch with
  | nil => exact Nat.zero_le _
  | cons r batch ih =>
    rw [List.length_cons, length_batchBytes_cons, sizeofWordinfo]
    omega

/-- The record at a position is read, and the position comes to stand behind it. -/
theorem readRecords_cons (xs zs : List UInt8) (count i : ℕ) (es : Elements) :
    readRecords (xs ++ r.bytes ++ zs) (count + 1) xs.length i es =
      readRecords (xs ++ r.bytes ++ zs) count (xs ++ r.bytes).length (i + 1)
        (es ++ [(indexKey i, .utf8 r.word.bytes)]) := by
  obtain ⟨n, hn⟩ : ∃ n, 4 - r.word.bytes.length % 4 = n + 1 :=
    ⟨3 - r.word.bytes.length % 4, by omega⟩
  have hpos : xs.length + sizeofWordinfo = (xs ++ r.info).length := by
    rw [List.length_append, r.length_info]
  have hread : Buffer.cString (xs ++ r.bytes ++ zs) (xs.length + sizeofWordinfo) =
      some r.word.bytes := by
    have h := Buffer.cString_append (xs ++ r.info) r.word.bytes (Buffer.calloc n ++ zs)
    rw [Buffer.takeWhile_eq_self_iff.2 r.word.noNul] at h
    rw [hpos, ← h, WordRecord.bytes, hn, Nat.add_comm n, Buffer.calloc_add]
    simp only [List.append_assoc]
    rfl
  have hlast : xs.length + sizeofWordinfo + align4 r.word.bytes.length =
      (xs ++ r.bytes).length := by
    rw [List.length_append, r.length_bytes, Nat.add_assoc]
  rw [readRecords]
  simp only [hread, Option.bind_eq_bind, Option.bind_some, hlast]

theorem readRecords_batch (xs zs : List UInt8) (batch : List WordRecord) (i : ℕ) (es : Elements) :
    readRecords (xs ++ batchBytes batch ++ zs) batch.length xs.length i es =
      some (es ++ indexed i (batchWords batch), (xs ++ batchBytes batch).length,
        i + batch.length) := by
  induction batch generalizing xs i es with
  | nil => simp [readRecords, batchBytes, batchWords, indexed]
  | cons r batch ih =>
    have hbytes : xs ++ batchBytes (r :: batch) = xs ++ r.bytes ++ batchBytes batch := by
      rw [batchBytes, List.flatMap_cons, List.append_assoc]
      rfl
    have hindexed : indexed i (batchWords (r :: batch)) =
        (indexKey i, .utf8 r.word.bytes) :: indexed (i + 1) (batchWords batch) := rfl
    rw [hbytes, List.length_cons, List.append_assoc (xs ++ r.bytes), readRecords_cons,
      ← List.append_assoc, ih, hindexed, List.append_assoc, List.singleton_append,
      Nat.add_right_comm, Nat.add_assoc]

/-- The first `size` bytes of the buffer are enough, and the position ends behind the last of them. -/
theorem EnumAnswer.Holds.read_take (h : a.Holds batch) (i : ℕ) (es : Elements) :
    readRecords (a.buf.take a.size.toNat) a.count.toNat 0 i es =
      some (es ++ indexed i (batchWords batch), a.size.toNat, i + batch.length) := by
  have hread := readRecords_batch [] [] batch i es
  rw [List.nil_append, List.append_nil, List.length_nil] at hread
  rw [h.bytes, h.count, hread, h.size]

theorem EnumAnswer.Holds.read (h : a.Holds batch) (i : ℕ) (es : Elements) :
    readRecords a.buf a.count.toNat 0 i es =
      some (es ++ indexed i (batchWords batch), a.size.toNat, i + batch.length) := by
  have hread := readRecords_batch [] (a.buf.drop a.size.toNat) batch i es
  rw [List.nil_append, List.length_nil, ← h.bytes, List.take_append_drop, h.bytes] at hread
  rw [h.count, hread, h.size]

theorem EnumAnswer.not_failed_of (herr : a.err = 0 ∨ a.err = -1) (hsize : a.size ≤ maxSize) :
    ¬ a.Failed := by
  rintro (⟨h0, h1⟩ | hlarge)
  · exact herr.elim h0 h1
  · exact absurd hsize (UInt32.not_le.2 hlarge)

theorem EnumAnswer.Holds.not_failed (h : a.Holds batch) : ¬ a.Failed :=
  not_failed_of h.err h.fits

theorem EnumAnswer.Exhausted.not_failed (h : a.Exhausted) : ¬ a.Failed :=
  not_failed_of h.err (h.size ▸ by decide)

theorem EnumAnswer.Holds.size_ne_zero (h : a.Holds batch) (hne : batch ≠ []) : a.size ≠ 0 := by
  intro h0
  have hsize := h.size
  have hlength := length_le_batchBytes batch
  rw [h0, UInt32.toNat_zero] at hsize
  exact hne (List.eq_nil_of_length_eq_zero (Nat.le_zero.1 (hlength.trans_eq hsize.symm)))

/-! ### The batches -/

theorem readBatches_holds (h : (next k).Holds batch) (hne : batch ≠ []) (acc : List (List UInt8)) :
    readBatches next (fuel + 1) k acc.length (indexed 0 acc) =
      readBatches next fuel (k + 1) (acc ++ batchWords batch).length
        (indexed 0 (acc ++ batchWords batch)) := by
  rw [readBatches, if_neg h.not_failed, if_neg (h.size_ne_zero hne), h.read]
  simp only [Option.bind_eq_bind, Option.bind_some, indexed_append, Nat.zero_add,
    List.length_append, batchWords, List.length_map]

theorem Enumerates.holds_zero (h : Enumerates next batches) (j : ℕ) (hj : j < batches.length) :
    (next (0 + j)).Holds batches[j] := by
  rw [Nat.zero_add]
  exact h.holds j hj

theorem holds_succ
    (h : ∀ j (hj : j < (batch :: batches).length), (next (k + j)).Holds (batch :: batches)[j])
    (j : ℕ) (hj : j < batches.length) : (next (k + 1 + j)).Holds batches[j] := by
  have hsucc := h (j + 1) (Nat.succ_lt_succ hj)
  rwa [← Nat.add_assoc, Nat.add_right_comm] at hsucc

/-- The outer loop passes through all the batches. -/
theorem readBatches_run (hholds : ∀ j (hj : j < batches.length), (next (k + j)).Holds batches[j])
    (hne : ∀ batch ∈ batches, batch ≠ []) (acc : List (List UInt8)) (fuel : ℕ) :
    readBatches next (batches.length + fuel) k acc.length (indexed 0 acc) =
      readBatches next fuel (k + batches.length) (acc ++ batchWords batches.flatten).length
        (indexed 0 (acc ++ batchWords batches.flatten)) := by
  induction batches generalizing k acc with
  | nil => simp [batchWords]
  | cons batch batches ih =>
    have hfirst : (next k).Holds batch := hholds 0 (Nat.zero_lt_succ _)
    rw [List.length_cons, Nat.add_right_comm, readBatches_holds hfirst (hne _ (List.mem_cons_self ..)),
      ih (holds_succ hholds) (fun b hb => hne b (List.mem_cons_of_mem _ hb)), List.append_assoc,
      ← batchWords_flatten_cons, Nat.add_right_comm, Nat.add_assoc k]

theorem wListArray_run (h : Enumerates next batches) (fuel : ℕ) :
    wListArray (some next) (batches.length + fuel) =
      readBatches next fuel batches.length (batchWords batches.flatten).length
        (indexed 0 (batchWords batches.flatten)) := by
  have hrun := readBatches_run (k := 0) h.holds_zero h.nonempty [] fuel
  rwa [List.nil_append, Nat.zero_add] at hrun

/-- **`w.list` returns the whole vocabulary.**  For any batches of records: each batch is read inside
the first `size` bytes of the buffer, with the position ending at `size`; when there are no more words
the loop ends, and the array has all the words in order under the keys from `0` on; and when a call
fails instead, the reply is an error. -/
theorem wListArray_whole (h : Enumerates next batches) :
    (∀ k (hk : k < batches.length) (i : ℕ) (es : Elements),
      readRecords ((next k).buf.take (next k).size.toNat) (next k).count.toNat 0 i es =
          some (es ++ indexed i (batchWords batches[k]), (next k).size.toNat,
            i + batches[k].length) ∧
        readRecords (next k).buf (next k).count.toNat 0 i es =
          readRecords ((next k).buf.take (next k).size.toNat) (next k).count.toNat 0 i es) ∧
      ((next batches.length).Exhausted → ∀ fuel, batches.length < fuel →
        wListArray (some next) fuel = some (.ok (indexed 0 (batchWords batches.flatten)))) ∧
      ((next batches.length).Failed → ∀ fuel, batches.length < fuel →
        wListArray (some next) fuel = some (.error .wordIteration)) := by
  refine ⟨fun k hk i es => ?_, fun hend fuel hfuel => ?_, fun hfail fuel hfuel => ?_⟩
  · have hholds := h.holds k hk
    exact ⟨hholds.read_take i es, (hholds.read i es).trans (hholds.read_take i es).symm⟩
  · obtain ⟨fuel, rfl⟩ := Nat.exists_eq_add_of_lt hfuel
    rw [Nat.add_assoc, wListArray_run h, readBatches, if_neg hend.not_failed, if_pos hend.size]
  · obtain ⟨fuel, rfl⟩ := Nat.exists_eq_add_of_lt hfuel
    rw [Nat.add_assoc, wListArray_run h, readBatches, if_pos hfail]

/-! ### The words without their bytes -/

/-- What is left of the answers when the words of the batches are given. -/
def enumBatches (next : ℕ → EnumAnswer) : ℕ → List (List WordRecord) → List EnumBatch
  | k, [] => [⟨(next k).err, (next k).size, []⟩]
  | k, batch :: batches =>
    ⟨(next k).err, (next k).size, batchWords batch⟩ :: enumBatches next (k + 1) batches

/-- How the command ends. -/
def wListOutcome : Except Refusal Elements → Outcome
  | .ok es => .reply (.words (es.map fun e => e.2.utf8Bytes))
  | .error e => .refuse e

theorem readWords_answer (a : EnumAnswer) (words acc : List (List UInt8)) (bs : List EnumBatch) :
    readWords (⟨a.err, a.size, words⟩ :: bs) acc =
      if a.Failed then .error .wordIteration
      else if a.size = 0 then .ok acc
      else readWords bs (acc ++ words) := rfl

theorem readWords_enumBatches
    (hholds : ∀ j (hj : j < batches.length), (next (k + j)).Holds batches[j])
    (hne : ∀ batch ∈ batches, batch ≠ []) (acc : List (List UInt8)) :
    readWords (enumBatches next k batches) acc =
      readWords [⟨(next (k + batches.length)).err, (next (k + batches.length)).size, []⟩]
        (acc ++ batchWords batches.flatten) := by
  induction batches generalizing k acc with
  | nil => simp [enumBatches, batchWords]
  | cons batch batches ih =>
    have hfirst : (next k).Holds batch := hholds 0 (Nat.zero_lt_succ _)
    rw [enumBatches, readWords_answer, if_neg hfirst.not_failed,
      if_neg (hfirst.size_ne_zero (hne _ (List.mem_cons_self ..))),
      ih (holds_succ hholds) (fun b hb => hne b (List.mem_cons_of_mem _ hb)), List.append_assoc,
      ← batchWords_flatten_cons, List.length_cons, Nat.add_right_comm, Nat.add_assoc k]

/-- The loop over the bytes does what `wList` does with the words. -/
theorem wListArray_refines (E : Env) (s : State) (h : Enumerates next batches)
    (hend : (next batches.length).Exhausted ∨ (next batches.length).Failed)
    (hE : E.enumWords s.dragon.log = some (enumBatches next 0 batches))
    (hfuel : batches.length < fuel) :
    (wListArray (some next) fuel).map wListOutcome = some (wList E s) := by
  obtain ⟨fuel, rfl⟩ := Nat.exists_eq_add_of_lt hfuel
  have hwords := readWords_enumBatches (k := 0) h.holds_zero h.nonempty []
  have hvalues : (indexed 0 (batchWords batches.flatten)).map (fun e => e.2.utf8Bytes) =
      batchWords batches.flatten := by
    rw [indexed, List.map_map]
    exact List.zipIdx_map_fst 0 _
  rw [List.nil_append, Nat.zero_add, readWords_answer] at hwords
  rw [Nat.add_assoc, wListArray_run h, readBatches, wList, hE]
  obtain hend | hfail := hend
  · rw [if_neg hend.not_failed, if_pos hend.size] at hwords
    simp only [hwords, if_neg hend.not_failed, if_pos hend.size, Option.map_some, wListOutcome,
      hvalues]
  · rw [if_pos hfail] at hwords
    simp only [hwords, if_pos hfail, Option.map_some, wListOutcome]

/-! ### An enumerator -/

/-- An answer with a batch. -/
def EnumAnswer.ofBatch (batch : List WordRecord) : EnumAnswer where
  err := 0
  count := .ofNat batch.length
  size := .ofNat (batchBytes batch).length
  buf := (batchBytes batch ++ Buffer.calloc maxSize.toNat).take maxSize.toNat
  length_buf := by simp

theorem EnumAnswer.ofBatch_holds (hfits : (batchBytes batch).length ≤ maxSize.toNat) :
    (EnumAnswer.ofBatch batch).Holds batch := by
  have hlength := length_le_batchBytes batch
  have hmax : maxSize.toNat < 2 ^ 32 := by decide
  have hsize : (UInt32.ofNat (batchBytes batch).length).toNat = (batchBytes batch).length :=
    UInt32.toNat_ofNat_of_lt' (hfits.trans_lt hmax)
  have hcount : (UInt32.ofNat batch.length).toNat = batch.length :=
    UInt32.toNat_ofNat_of_lt' ((hlength.trans hfits).trans_lt hmax)
  refine ⟨.inl rfl, hcount, hsize, UInt32.le_iff_toNat_le.2 (hsize.trans_le hfits), ?_⟩
  rw [EnumAnswer.ofBatch, hsize, List.take_take, Nat.min_eq_left hfits, List.take_left]

/-- The enumerator that answers with the batches one after the other. -/
theorem enumerates_ofBatch (hfits : ∀ batch ∈ batches, (batchBytes batch).length ≤ maxSize.toNat)
    (hne : ∀ batch ∈ batches, batch ≠ []) :
    Enumerates (fun k => .ofBatch (batches.getD k [])) batches where
  holds k hk := by
    rw [List.getD_eq_getElem _ _ hk]
    exact EnumAnswer.ofBatch_holds (hfits _ (List.getElem_mem hk))
  nonempty := hne

def twoBatches : List (List WordRecord) :=
  [[⟨Buffer.calloc 20, Buffer.length_calloc 20, .lit "four"⟩],
    [⟨Buffer.calloc 20, Buffer.length_calloc 20, .lit "on"⟩,
      ⟨Buffer.calloc 20, Buffer.length_calloc 20, .lit "and on"⟩]]

theorem wListArray_whole_two :
    wListArray (some fun k => .ofBatch (twoBatches.getD k [])) 3 =
      some (.ok (indexed 0 (batchWords twoBatches.flatten))) := by
  have h : Enumerates (fun k => .ofBatch (twoBatches.getD k [])) twoBatches :=
    enumerates_ofBatch (by decide) (by decide)
  exact (wListArray_whole h).2.1 ⟨.inl rfl, by decide⟩ 3 (by decide)

theorem wListArray_refines_two :
    let next := fun k => EnumAnswer.ofBatch (twoBatches.getD k [])
    (wListArray (some next) 3).map wListOutcome = some
      (wList { Env.obliging with enumWords := fun _ => some (enumBatches next 0 twoBatches) }
        (.init 0)) := by
  intro next
  have h : Enumerates next twoBatches := enumerates_ofBatch (by decide) (by decide)
  exact wListArray_refines _ _ h (.inl ⟨.inl rfl, by decide⟩) rfl (by decide)

end Draconity

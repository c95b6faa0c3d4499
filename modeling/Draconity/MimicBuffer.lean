import Draconity.Lib.Buffer
import Draconity.Server

/-!
The buffer `mimic` hands to the engine: the strings of the phrase, each with a NUL behind it, and
their number.

A first pass over the array computes the size of the buffer, and a second one copies the strings into
it.  The copies take all bytes of a string, a NUL among them too, so the engine, which can only go by
the NULs, sees the phrase just when its strings have none of their own.
-/

namespace Draconity

open Lib

/-! ### The two passes -/

/-- The first pass: `dp.size`, `none` at an element that is no string. -/
def phraseSize : Elements → UInt32 → Option UInt32
  | [], size => some size
  | (_, .utf8 b) :: es, size => phraseSize es (size + (.ofNat b.length + 1))
  | _ :: _, _ => none

/-- What `bson_iter_utf8` gives for a value: its bytes, or the null pointer and a length of `0`. -/
def Value.utf8Bytes : Value → List UInt8
  | .utf8 b => b
  | .bool _ | .int32 _ | .int64 _ | .array _ _ | .document _ _ | .binary _ | .other => []

/-- The second pass, with the block, `pos` and `count`. -/
def fillPhrase : Elements → Buffer → ℕ → ℕ → Option (Buffer × ℕ × ℕ)
  | [], data, pos, count => some (data, pos, count)
  | (_, v) :: es, data, pos, count => do
    let data ← Buffer.store data pos v.utf8Bytes
    fillPhrase es data (pos + (UInt32.ofNat v.utf8Bytes.length + 1).toNat) (count + 1)

/-- What `_DSXEngine_Mimic` is given, and the position the second pass ended at. -/
structure MimicData where
  data : Buffer
  size : UInt32
  count : ℕ
  last : ℕ

/-- The two passes of `mimic`, `none` when a string is missing or a copy leaves the block. -/
def mimicData (es : Elements) : Option MimicData := do
  let size ← phraseSize es 0
  let (data, last, count) ← fillPhrase es (Buffer.calloc size.toNat) 0 0
  return { data, size, count, last }

/-! ### The reader -/

/-- The strings of a number of C strings one after the other, and the position behind the last. -/
def readCStrings : ℕ → Buffer → ℕ → Option (List (List UInt8) × ℕ)
  | 0, _, pos => some ([], pos)
  | count + 1, data, pos => do
    let word ← Buffer.cString data pos
    let (words, last) ← readCStrings count data (pos + word.length + 1)
    return (word :: words, last)

/-! ### Arrays in BSON -/

/-- The bytes the string elements of an array take: a type, a key with its NUL, a length, and the
string with its NUL. -/
def stringsSize : Elements → ℕ
  | [] => 0
  | (key, v) :: es => 1 + (key.bytes.length + 1) + 4 + (v.utf8Bytes.length + 1) + stringsSize es

/-- The strings of a phrase, each with its NUL. -/
def phraseBytes (phrase : List (List UInt8)) : List UInt8 := phrase.flatMap (· ++ [0])

variable {es : Elements} {phrase : List (List UInt8)}

theorem readPhrase_cons {e : CString × Value} (h : readPhrase (e :: es) = some phrase) :
    ∃ b words, e.2 = .utf8 b ∧ readPhrase es = some words ∧ phrase = b :: words := by
  obtain ⟨key, v⟩ := e
  cases v with
  | utf8 b =>
    obtain ⟨words, hw, rfl⟩ := Option.map_eq_some_iff.1 h
    exact ⟨b, words, rfl, hw, rfl⟩
  | bool _ | int32 _ | int64 _ | array _ _ | document _ _ | binary _ | other => cases h

theorem phraseBytes_cons (b : List UInt8) (words : List (List UInt8)) :
    phraseBytes (b :: words) = b ++ 0 :: phraseBytes words := by
  simp [phraseBytes]

theorem length_phraseBytes_le (h : readPhrase es = some phrase) :
    (phraseBytes phrase).length ≤ stringsSize es := by
  induction es generalizing phrase with
  | nil => cases h; exact le_rfl
  | cons e es ih =>
    obtain ⟨b, words, hv, hw, rfl⟩ := readPhrase_cons h
    have := ih hw
    rw [phraseBytes_cons, stringsSize, hv]
    simp only [List.length_append, List.length_cons, Value.utf8Bytes]
    omega

theorem toNat_length_succ {b : List UInt8} (h : b.length + 1 < 2 ^ 32) :
    (UInt32.ofNat b.length + 1).toNat = b.length + 1 := by
  rw [UInt32.toNat_add, UInt32.toNat_ofNat', Nat.mod_eq_of_lt (by omega : b.length < 2 ^ 32)]
  exact Nat.mod_eq_of_lt h

/-- The first pass computes the number of bytes. -/
theorem phraseSize_eq (h : readPhrase es = some phrase) (size : UInt32)
    (hsize : size.toNat + (phraseBytes phrase).length < 2 ^ 32) :
    ∃ size', phraseSize es size = some size' ∧
      size'.toNat = size.toNat + (phraseBytes phrase).length := by
  induction es generalizing phrase size with
  | nil => cases h; exact ⟨size, rfl, rfl⟩
  | cons e es ih =>
    obtain ⟨b, words, hv, hw, rfl⟩ := readPhrase_cons h
    obtain ⟨key, v⟩ := e
    cases hv
    rw [phraseBytes_cons, List.length_append, List.length_cons] at hsize ⊢
    have hadd : (size + (UInt32.ofNat b.length + 1)).toNat = size.toNat + (b.length + 1) := by
      rw [UInt32.toNat_add, toNat_length_succ (by omega)]
      exact Nat.mod_eq_of_lt (by omega)
    obtain ⟨size', hs, hn⟩ := ih hw (size + (UInt32.ofNat b.length + 1)) (by omega)
    exact ⟨size', hs, by omega⟩

/-- The second pass stays inside the block, and writes the strings, each with its NUL. -/
theorem fillPhrase_eq (h : readPhrase es = some phrase) (xs : List UInt8) (n count : ℕ)
    (hsize : (phraseBytes phrase).length < 2 ^ 32) :
    fillPhrase es (xs ++ Buffer.calloc ((phraseBytes phrase).length + n)) xs.length count =
      some (xs ++ phraseBytes phrase ++ Buffer.calloc n, xs.length + (phraseBytes phrase).length,
        count + phrase.length) := by
  induction es generalizing phrase xs count with
  | nil => cases h; simp [fillPhrase, phraseBytes]
  | cons e es ih =>
    obtain ⟨b, words, hv, hw, rfl⟩ := readPhrase_cons h
    obtain ⟨key, v⟩ := e
    cases hv
    rw [phraseBytes_cons] at hsize ⊢
    simp only [List.length_append, List.length_cons] at hsize ⊢
    -- the copy leaves the zero behind the string as it is
    have hstore := Buffer.store_calloc xs b (1 + ((phraseBytes words).length + n))
    rw [Buffer.calloc_add 1, ← List.append_assoc] at hstore
    have hrest := ih hw (xs ++ b ++ Buffer.calloc 1) (count + 1) (by omega)
    have hpos : (xs ++ b ++ Buffer.calloc 1).length = xs.length + (b.length + 1) := by
      simp only [List.length_append, Buffer.length_calloc, Nat.add_assoc]
    rw [hpos] at hrest
    have hn : b.length + ((phraseBytes words).length + 1) + n =
        b.length + (1 + ((phraseBytes words).length + n)) := by omega
    rw [fillPhrase, Value.utf8Bytes, hn, hstore, toNat_length_succ (by omega)]
    refine (Eq.trans ?_ hrest).trans ?_
    · rfl
    · simp only [List.append_assoc, Buffer.calloc, List.replicate_succ, List.replicate_zero,
        List.cons_append, List.nil_append, Option.some.injEq, Prod.mk.injEq, true_and]
      omega

/-- Strings without NULs are read back. -/
theorem readCStrings_eq (hn : ∀ b ∈ phrase, (0 : UInt8) ∉ b) (xs zs : List UInt8) :
    readCStrings phrase.length (xs ++ phraseBytes phrase ++ zs) xs.length =
      some (phrase, xs.length + (phraseBytes phrase).length) := by
  induction phrase generalizing xs with
  | nil => rfl
  | cons b words ih =>
    have hread := Buffer.cString_append xs b (phraseBytes words ++ zs)
    rw [Buffer.takeWhile_eq_self_iff.2 (hn b (List.mem_cons_self ..))] at hread
    have hrest := ih (fun b' hb' => hn b' (List.mem_cons_of_mem _ hb')) (xs ++ b ++ [0])
    have hpos : (xs ++ b ++ [0]).length = xs.length + b.length + 1 := by simp; omega
    rw [hpos] at hrest
    simp only [List.append_assoc, List.cons_append, List.nil_append] at hread hrest
    rw [phraseBytes_cons, List.length_cons, readCStrings]
    simp only [List.append_assoc, List.cons_append, hread, hrest, Option.bind_eq_bind,
      Option.bind_some, List.length_append, List.length_cons, Option.pure_def]
    congr 2
    omega

theorem zero_notMem_of_readCStrings {count pos last : ℕ} {data : Buffer}
    (h : readCStrings count data pos = some (phrase, last)) : ∀ b ∈ phrase, (0 : UInt8) ∉ b := by
  induction count generalizing phrase pos with
  | zero => cases h; simp
  | succ count ih =>
    simp only [readCStrings, Option.bind_eq_bind, Option.bind_eq_some_iff, Option.pure_def,
      Option.some.injEq, Prod.mk.injEq] at h
    obtain ⟨word, hword, ⟨words, last'⟩, hwords, rfl, rfl⟩ := h
    exact List.forall_mem_cons.2 ⟨Buffer.zero_notMem_of_cString hword, ih hwords⟩

/-! ### The phrase the engine sees -/

/-- What `_DSXEngine_Mimic` is given is the phrase: the size is that of the strings with their NULs,
the second pass ended there, and so many C strings in the data are the phrase and end there. -/
structure Carries (phrase : List (List UInt8)) (m : MimicData) : Prop where
  size : m.size.toNat = (phrase.map fun b => b.length + 1).sum
  length : m.data.length = m.size.toNat
  last : m.last = m.size.toNat
  read : readCStrings m.count m.data 0 = some (phrase, m.size.toNat)

/-- What the two passes leave for an array of strings of a message. -/
theorem mimicData_eq (h : readPhrase es = some phrase) (hes : stringsSize es < 2 ^ 32) :
    ∃ size : UInt32, size.toNat = (phraseBytes phrase).length ∧
      mimicData es = some ⟨phraseBytes phrase, size, phrase.length, size.toNat⟩ := by
  have hlen := length_phraseBytes_le h
  obtain ⟨size, hs, hn⟩ := phraseSize_eq h 0 (by rw [UInt32.toNat_zero]; omega)
  rw [UInt32.toNat_zero, Nat.zero_add] at hn
  have hfill := fillPhrase_eq h [] 0 0 (by omega)
  rw [List.nil_append, List.nil_append, List.length_nil, Nat.zero_add, Nat.add_zero, Nat.zero_add,
    show Buffer.calloc 0 = [] from rfl, List.append_nil, ← hn] at hfill
  refine ⟨size, hn, ?_⟩
  unfold mimicData
  simp only [hs, hfill, Option.bind_eq_bind, Option.bind_some, Option.pure_def]

/-- **When the buffer carries the phrase.**  For an array of strings that `mimic` accepts, whose
elements lie in its `len` bytes: the engine is given the phrase just when no string has a NUL. -/
theorem mimicData_carries_iff (len : UInt32) (h : readPhrase es = some phrase)
    (hlen : stringsSize es ≤ len.toNat) :
    (∃ m, mimicData es = some m ∧ Carries phrase m) ↔ ∀ b ∈ phrase, (0 : UInt8) ∉ b := by
  constructor
  · rintro ⟨m, -, hm⟩
    exact zero_notMem_of_readCStrings hm.read
  · intro hn
    obtain ⟨size, hsize, hm⟩ := mimicData_eq h (hlen.trans_lt len.toNat_lt)
    refine ⟨_, hm, ?_, hsize.symm, rfl, ?_⟩
    · rw [hsize, phraseBytes, List.length_flatMap]
      simp only [List.length_append, List.length_singleton]
    · have hread := readCStrings_eq hn [] []
      rw [List.nil_append, List.append_nil, List.length_nil, Nat.zero_add, ← hsize] at hread
      exact hread

theorem mimicData_carries_iff_words :
    ∃ m, mimicData [(.lit "0", .utf8 (ascii "go")), (.lit "1", .utf8 (ascii "home"))] = some m ∧
      Carries [ascii "go", ascii "home"] m :=
  (mimicData_carries_iff 64 rfl (by decide)).2 (by decide)

/-- A word with a NUL in it is read as two, of which the engine is told the first. -/
theorem mimicData_carries_fails : ¬ ∀ (es : Elements) (phrase : List (List UInt8)) (len : UInt32),
    readPhrase es = some phrase → stringsSize es ≤ len.toNat →
      ∃ m, mimicData es = some m ∧ Carries phrase m := by
  intro h
  obtain ⟨m, -, hm⟩ := h [(.lit "0", .utf8 [97, 0, 98])] [[97, 0, 98]] 64 rfl (by decide)
  exact zero_notMem_of_readCStrings hm.read _ (List.mem_singleton_self _) (by decide)

end Draconity

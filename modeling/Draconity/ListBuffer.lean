import Draconity.Lib.Buffer
import Draconity.Stream

/-!
The bytes of the `dsx_dataptr` that `set_list` builds, and the walk of `phrase_to_bson` over the
entries of such a block.

An entry is a `dsx_id`: its size, an id that stays `0`, and the name.  The size takes the name up to a
multiple of four, with at least one byte to spare, so the NUL behind the name is part of the padding.
-/

namespace Draconity

open Lib

/-! ### The writer -/

/-- The macro `align4`. -/
def align4 (len : ℕ) : ℕ := (len + 4).ldiff 3

def sizeofDsxId : ℕ := 8

/-- What both loops of `set_list` take for the entry of a word. -/
def entrySize (word : CString) : UInt32 := .ofNat (sizeofDsxId + align4 word.bytes.length)

/-- The first loop of `set_list`. -/
def listSize (list : List CString) : UInt32 := list.foldl (fun size w => size + entrySize w) 0

/-- The second loop of `set_list`, from a position of the block on. -/
def fillList (o : ByteOrder) : List CString → Buffer → ℕ → Option (Buffer × ℕ)
  | [], buf, pos => some (buf, pos)
  | word :: list, buf, pos => do
    let buf ← Buffer.store buf pos (o.store (entrySize word))
    let buf ← Buffer.store buf (pos + sizeofDsxId) word.bytes
    let size ← Buffer.load buf pos 4
    fillList o list buf (pos + (o.load size).toNat)

/-- `set_list` up to its call of the engine: the data, its size, and the position the second loop
ends at. -/
def listData (o : ByteOrder) (list : OrdSet CString) : Option (Buffer × UInt32 × ℕ) := do
  let size := listSize list.toList
  let (data, pos) ← fillList o list.toList (Buffer.calloc size.toNat) 0
  return (data, size, pos)

/-! ### The reader -/

/-- The loop of `phrase_to_bson`, from a position on, in at most `fuel` passes: the names, and the
position it ends at. -/
def walkEntries (o : ByteOrder) (buf : Buffer) (fin : ℕ) : ℕ → ℕ → Option (List (List UInt8) × ℕ)
  | 0, _ => none
  | fuel + 1, pos =>
    if pos < fin then do
      let name ← Buffer.cString buf (pos + sizeofDsxId)
      let size ← Buffer.load buf pos 4
      let (names, last) ← walkEntries o buf fin fuel (pos + (o.load size).toNat)
      return (name :: names, last)
    else some ([], pos)

/-- `phrase_to_bson`: the strings it appends to the array `phrase`.  The block starts with its
length. -/
def phraseToBson (o : ByteOrder) (phrase : Buffer) (fuel : ℕ) : Option (List (List UInt8)) := do
  let len ← Buffer.load phrase 0 4
  let (names, _) ← walkEntries o phrase (o.load len).toNat fuel 4
  return names

/-! ### The layout -/

def entryBytes (o : ByteOrder) (word : CString) : List UInt8 :=
  o.store (entrySize word) ++ Buffer.calloc 4 ++ word.bytes ++
    Buffer.calloc (align4 word.bytes.length - word.bytes.length)

def listBytes (o : ByteOrder) (list : List CString) : List UInt8 := list.flatMap (entryBytes o)

def encodedSize (list : List CString) : ℕ :=
  (list.map fun w => sizeofDsxId + align4 w.bytes.length).sum

variable {o : ByteOrder} {word : CString} {list : List CString} {n : ℕ}

theorem align4_eq (len : ℕ) : align4 len = (len + 4) / 4 * 4 := Buffer.ldiff_mask (len + 4) 2

/-- `align4` leaves from one to four bytes behind the name. -/
theorem align4_spec (len : ℕ) : 4 ∣ align4 len ∧ len + 1 ≤ align4 len ∧ align4 len ≤ len + 4 := by
  rw [align4_eq]
  exact ⟨Nat.dvd_mul_left .., by omega, by omega⟩

theorem load_store (o : ByteOrder) (w : UInt32) : o.load (o.store w) = w := by
  cases o <;> exact wordOfBytes_byteOfWord w

theorem length_entryBytes (o : ByteOrder) (word : CString) :
    (entryBytes o word).length = sizeofDsxId + align4 word.bytes.length := by
  have := align4_spec word.bytes.length
  simp only [entryBytes, List.length_append, length_store, Buffer.length_calloc, sizeofDsxId]
  omega

theorem length_listBytes (o : ByteOrder) (list : List CString) :
    (listBytes o list).length = encodedSize list := by
  simp only [listBytes, encodedSize, List.length_flatMap, length_entryBytes]

theorem toNat_entrySize (h : encodedSize (word :: list) < 2 ^ 31) :
    (entrySize word).toNat = sizeofDsxId + align4 word.bytes.length := by
  have : sizeofDsxId + align4 word.bytes.length ≤ encodedSize (word :: list) := by
    simp [encodedSize]
  rw [entrySize, UInt32.toNat_ofNat']
  exact Nat.mod_eq_of_lt (by omega)

theorem encodedSize_cons (word : CString) (list : List CString) :
    encodedSize (word :: list) = sizeofDsxId + align4 word.bytes.length + encodedSize list := by
  simp [encodedSize]

theorem listSize_toNat (h : encodedSize list < 2 ^ 31) : (listSize list).toNat = encodedSize list := by
  have fold : ∀ (list : List CString) (size : UInt32), size.toNat + encodedSize list < 2 ^ 31 →
      (list.foldl (fun size w => size + entrySize w) size).toNat =
        size.toNat + encodedSize list := by
    intro list
    induction list with
    | nil => exact fun _ _ => rfl
    | cons w list ih =>
      intro size hsize
      have hlt : encodedSize (w :: list) < 2 ^ 31 := by omega
      have hw := toNat_entrySize hlt
      rw [encodedSize_cons] at hsize ⊢
      have hadd : (size + entrySize w).toNat =
          size.toNat + (sizeofDsxId + align4 w.bytes.length) := by
        rw [UInt32.toNat_add, hw]
        exact Nat.mod_eq_of_lt (by omega)
      rw [List.foldl_cons, ih _ (by omega), hadd]
      omega
  exact (fold list 0 (by simpa using h)).trans (Nat.zero_add _)

/-- What one pass of the second loop does to a block that is filled up to its position. -/
theorem fillList_cons (o : ByteOrder) (xs : List UInt8) (n : ℕ)
    (h : encodedSize (word :: list) < 2 ^ 31) :
    fillList o (word :: list)
        (xs ++ Buffer.calloc (sizeofDsxId + align4 word.bytes.length + n)) xs.length =
      fillList o list (xs ++ entryBytes o word ++ Buffer.calloc n)
        (xs.length + (entryBytes o word).length) := by
  obtain ⟨-, hspare, -⟩ := align4_spec word.bytes.length
  obtain ⟨k, hk⟩ := Nat.exists_eq_add_of_le (Nat.le_of_succ_le hspare)
  have hstore : (o.store (entrySize word)).length = 4 := length_store _ _
  have hentry : entryBytes o word =
      o.store (entrySize word) ++ Buffer.calloc 4 ++ word.bytes ++ Buffer.calloc k := by
    rw [entryBytes, hk, Nat.add_sub_cancel_left]
  have hsize : (o.load (o.store (entrySize word))).toNat = (entryBytes o word).length := by
    rw [load_store, toNat_entrySize h, length_entryBytes]
  -- The size, then the name behind the id, then the size is read again.
  have hfirst : Buffer.store (xs ++ Buffer.calloc (sizeofDsxId + align4 word.bytes.length + n))
      xs.length (o.store (entrySize word)) = some (xs ++ o.store (entrySize word) ++
        Buffer.calloc (4 + (word.bytes.length + (k + n)))) := by
    rw [← Buffer.store_calloc, hstore, hk, sizeofDsxId]
    congr 3
    omega
  have hsecond : Buffer.store (xs ++ o.store (entrySize word) ++
      Buffer.calloc (4 + (word.bytes.length + (k + n)))) (xs.length + sizeofDsxId) word.bytes =
        some (xs ++ entryBytes o word ++ Buffer.calloc n) := by
    have hpos : xs.length + sizeofDsxId =
        (xs ++ o.store (entrySize word) ++ Buffer.calloc 4).length := by
      simp only [List.length_append, hstore, Buffer.length_calloc]
      rfl
    rw [hpos, Buffer.calloc_add, ← List.append_assoc, Buffer.store_calloc, Buffer.calloc_add, hentry]
    simp only [List.append_assoc]
  have hload : Buffer.load (xs ++ entryBytes o word ++ Buffer.calloc n) xs.length 4 =
      some (o.store (entrySize word)) := by
    have := Buffer.load_append xs (o.store (entrySize word))
      (Buffer.calloc 4 ++ word.bytes ++ Buffer.calloc k ++ Buffer.calloc n)
    rw [hstore] at this
    rw [← this, hentry]
    simp only [List.append_assoc]
  rw [fillList]
  simp only [hfirst, hsecond, hload, Option.bind_eq_bind, Option.bind_some, hsize]

/-- The second loop writes the bytes of the list and ends behind them. -/
theorem fillList_eq (o : ByteOrder) (list : List CString) (xs : List UInt8) (n : ℕ)
    (h : encodedSize list < 2 ^ 31) :
    fillList o list (xs ++ Buffer.calloc (encodedSize list + n)) xs.length =
      some (xs ++ listBytes o list ++ Buffer.calloc n, xs.length + encodedSize list) := by
  induction list generalizing xs with
  | nil => simp [fillList, encodedSize, listBytes]
  | cons word list ih =>
    have hrest := ih (xs ++ entryBytes o word) (by rw [encodedSize_cons] at h; omega)
    rw [encodedSize_cons, Nat.add_assoc, fillList_cons o xs _ h, ← List.length_append, hrest]
    simp only [listBytes, List.flatMap_cons, List.append_assoc, List.length_append,
      length_entryBytes, Nat.add_assoc]

/-- What a block has at the place of an entry. -/
structure EntryAt (o : ByteOrder) (buf : Buffer) (fin : ℕ) (word : CString) (start : ℕ) : Prop where
  aligned : 4 ∣ start
  inside : start + (entrySize word).toNat ≤ fin
  size : Buffer.load buf start 4 = some (o.store (entrySize word))
  name : Buffer.load buf (start + sizeofDsxId) word.bytes.length = some word.bytes
  padding : ∃ k, 1 ≤ k ∧ k ≤ 4 ∧
    (entrySize word).toNat = sizeofDsxId + word.bytes.length + k ∧
    Buffer.load buf (start + sizeofDsxId + word.bytes.length) k = some (Buffer.calloc k)

theorem dvd_encodedSize (list : List CString) : 4 ∣ encodedSize list := by
  induction list with
  | nil => exact Nat.dvd_zero 4
  | cons word list ih =>
    rw [encodedSize_cons]
    exact Nat.dvd_add (Nat.dvd_add (by decide) (align4_spec _).1) ih

theorem entryAt_append (o : ByteOrder) (xs zs : List UInt8) {fin : ℕ}
    (h : encodedSize (word :: list) < 2 ^ 31) (hxs : 4 ∣ xs.length)
    (hfin : xs.length + (entryBytes o word).length ≤ fin) :
    EntryAt o (xs ++ entryBytes o word ++ zs) fin word xs.length ∧
      Buffer.cString (xs ++ entryBytes o word ++ zs) (xs.length + sizeofDsxId) = some word.bytes := by
  obtain ⟨-, hone, hfour⟩ := align4_spec word.bytes.length
  obtain ⟨k, hk⟩ := Nat.exists_eq_add_of_le hone
  have hstore : (o.store (entrySize word)).length = 4 := length_store _ _
  have hpos : xs.length + sizeofDsxId =
      (xs ++ o.store (entrySize word) ++ Buffer.calloc 4).length := by
    simp only [List.length_append, hstore, Buffer.length_calloc]
    rfl
  -- size, id, name, and zeros up to the end of the entry
  have hsplit : xs ++ entryBytes o word ++ zs = xs ++ o.store (entrySize word) ++ Buffer.calloc 4 ++
      word.bytes ++ Buffer.calloc (k + 1) ++ zs := by
    have hpad : align4 word.bytes.length - word.bytes.length = k + 1 := by omega
    simp only [entryBytes, hpad, List.append_assoc]
  have hsize := toNat_entrySize h
  rw [hsplit]
  refine ⟨⟨hxs, ?_, ?_, ?_, k + 1, by omega, by omega, by omega, ?_⟩, ?_⟩
  · rwa [hsize, ← length_entryBytes o]
  · have hload := Buffer.load_append xs (o.store (entrySize word))
      (Buffer.calloc 4 ++ word.bytes ++ Buffer.calloc (k + 1) ++ zs)
    rw [hstore] at hload
    simpa only [List.append_assoc] using hload
  · have hload := Buffer.load_append (xs ++ o.store (entrySize word) ++ Buffer.calloc 4) word.bytes
      (Buffer.calloc (k + 1) ++ zs)
    rw [← hpos] at hload
    simpa only [List.append_assoc] using hload
  · have hload := Buffer.load_append (xs ++ o.store (entrySize word) ++ Buffer.calloc 4 ++ word.bytes)
      (Buffer.calloc (k + 1)) zs
    rwa [List.length_append, ← hpos, Buffer.length_calloc] at hload
  · -- the first of these zeros ends the name
    have hread := Buffer.cString_append (xs ++ o.store (entrySize word) ++ Buffer.calloc 4) word.bytes
      (Buffer.calloc k ++ zs)
    rw [← hpos, Buffer.takeWhile_eq_self_iff.2 word.noNul] at hread
    rw [← hread, Nat.add_comm k, Buffer.calloc_add]
    simp only [List.append_assoc]
    rfl

/-- The reader visits the entries of a list between other bytes. -/
theorem walkEntries_eq (o : ByteOrder) (list : List CString) (xs zs : List UInt8)
    (h : encodedSize list < 2 ^ 31) (hxs : 4 ∣ xs.length) {fuel : ℕ} (hfuel : list.length < fuel) :
    walkEntries o (xs ++ listBytes o list ++ zs) (xs.length + encodedSize list) fuel xs.length =
      some (list.map CString.bytes, xs.length + encodedSize list) := by
  induction list generalizing xs fuel with
  | nil =>
    obtain ⟨fuel, rfl⟩ := Nat.exists_eq_add_of_lt hfuel
    simp [walkEntries, encodedSize]
  | cons word list ih =>
    obtain ⟨fuel, rfl⟩ : ∃ n, fuel = n + 1 := ⟨fuel - 1, by omega⟩
    have hlen := length_entryBytes o word
    have hbytes : xs ++ listBytes o (word :: list) ++ zs =
        xs ++ entryBytes o word ++ (listBytes o list ++ zs) := by
      simp only [listBytes, List.flatMap_cons, List.append_assoc]
    have hfin : xs.length + encodedSize (word :: list) =
        (xs ++ entryBytes o word).length + encodedSize list := by
      rw [encodedSize_cons, List.length_append, hlen]
      omega
    obtain ⟨hentry, hname⟩ := entryAt_append o xs (listBytes o list ++ zs) h hxs le_rfl
    have hrest := ih (xs ++ entryBytes o word) (by rw [encodedSize_cons] at h; omega)
      (by rw [List.length_append, hlen]
          exact Nat.dvd_add hxs (Nat.dvd_add (by decide) (align4_spec _).1))
      (Nat.le_of_succ_le_succ hfuel)
    have hlt : xs.length < (xs ++ entryBytes o word).length + encodedSize list := by
      rw [List.length_append, hlen]
      unfold sizeofDsxId
      omega
    have hnext : xs.length + (o.load (o.store (entrySize word))).toNat =
        (xs ++ entryBytes o word).length := by
      rw [load_store, toNat_entrySize h, List.length_append, hlen]
    rw [List.append_assoc] at hrest
    rw [hbytes, hfin, walkEntries, if_pos hlt, hname, hentry.size]
    simp only [Option.bind_eq_bind, Option.bind_some, hnext, hrest]
    rfl

/-- **The list encoding is exact and decodable.**  For a set of strings that takes less than `2 ^ 31`
bytes: the second loop of `set_list` stays inside the block and ends where the first one said; each
entry starts at a multiple of four, holds its size and its name, and ends with one to four zeros; and
the walk of `phrase_to_bson` visits exactly the strings, in order, and stops at the end. -/
theorem listData_decodable (o : ByteOrder) (list : OrdSet CString)
    (h : encodedSize list.toList < 2 ^ 31) :
    ∃ data size, listData o list = some (data, size, size.toNat) ∧ data.length = size.toNat ∧
      (∀ pre word post, list.toList = pre ++ word :: post →
        ∃ data' start, fillList o pre (Buffer.calloc size.toNat) 0 = some (data', start) ∧
          EntryAt o data size.toNat word start) ∧
      ∀ fuel, list.toList.length < fuel →
        walkEntries o data size.toNat fuel 0 =
          some (list.toList.map CString.bytes, size.toNat) := by
  have hsize := listSize_toNat h
  have hfill := fillList_eq o list.toList [] 0 h
  simp only [List.nil_append, List.length_nil, Nat.add_zero, Nat.zero_add, Buffer.calloc,
    List.replicate_zero, List.append_nil] at hfill
  refine ⟨listBytes o list.toList, listSize list.toList, ?_, ?_, ?_, ?_⟩
  · unfold listData Buffer.calloc
    simp [hsize, hfill]
  · rw [length_listBytes, hsize]
  · rintro pre word post hlist
    have hsum : encodedSize list.toList = encodedSize pre + encodedSize (word :: post) := by
      rw [hlist]
      simp [encodedSize]
    have hpre := fillList_eq o pre [] (encodedSize (word :: post)) (by omega)
    rw [← hsum, ← hsize, List.nil_append, List.nil_append, List.length_nil, Nat.zero_add] at hpre
    refine ⟨_, _, hpre, ?_⟩
    have hbytes : listBytes o list.toList =
        listBytes o pre ++ entryBytes o word ++ listBytes o post := by
      rw [hlist]
      simp [listBytes]
    have hentrySize : encodedSize (word :: post) < 2 ^ 31 := by omega
    have hfin : (listBytes o pre).length + (entryBytes o word).length ≤
        (listSize list.toList).toNat := by
      rw [length_listBytes, length_entryBytes, hsize, hsum, encodedSize_cons]
      omega
    -- the entries before the word end at a multiple of four
    obtain ⟨hentry, -⟩ := entryAt_append o (listBytes o pre) (listBytes o post) hentrySize
      (by rw [length_listBytes]; exact dvd_encodedSize pre) hfin
    rwa [hbytes, ← length_listBytes o pre]
  · intro fuel hfuel
    have hwalk := walkEntries_eq o list.toList [] [] h (Nat.dvd_zero 4) hfuel
    rwa [List.nil_append, List.append_nil, List.length_nil, Nat.zero_add, ← hsize] at hwalk

theorem listData_decodable_two : ∃ data size,
    listData .little (OrdSet.ofList [.lit "four", .lit "on"]) = some (data, size, size.toNat) ∧
      walkEntries .little data size.toNat 3 0 =
        some ([(CString.lit "four").bytes, (CString.lit "on").bytes], size.toNat) := by
  obtain ⟨data, size, hdata, -, -, hwalk⟩ := listData_decodable .little
    (OrdSet.ofList [.lit "four", .lit "on"]) (by simp only [encodedSize, align4_eq]; decide)
  exact ⟨data, size, hdata, hwalk 3 (by decide)⟩

/-- `phrase_to_bson` appends the strings of a block of such entries behind its length. -/
theorem phraseToBson_listBytes (o : ByteOrder) (list : List CString)
    (h : 4 + encodedSize list < 2 ^ 31) {fuel : ℕ} (hfuel : list.length < fuel) :
    phraseToBson o (o.store (.ofNat (4 + encodedSize list)) ++ listBytes o list) fuel =
      some (list.map CString.bytes) := by
  have hfin : (UInt32.ofNat (4 + encodedSize list)).toNat = 4 + encodedSize list := by
    rw [UInt32.toNat_ofNat']
    exact Nat.mod_eq_of_lt (by omega)
  generalize UInt32.ofNat (4 + encodedSize list) = len at hfin
  have hlen := length_store o len
  have hload := Buffer.load_append [] (o.store len) (listBytes o list)
  have hwalk := walkEntries_eq o list (o.store len) [] (by omega) (by rw [hlen]) hfuel
  rw [List.nil_append, hlen, List.length_nil] at hload
  rw [hlen, List.append_nil] at hwalk
  unfold phraseToBson
  simp [hload, load_store, hfin, hwalk]

theorem phraseToBson_listBytes_two :
    phraseToBson .little (ByteOrder.little.store 32 ++
      listBytes .little [.lit "four", .lit "on"]) 3 =
        some [(CString.lit "four").bytes, (CString.lit "on").bytes] := by
  have hsize : encodedSize [.lit "four", .lit "on"] = 28 := by
    simp only [encodedSize, align4_eq]
    decide
  have hfuel : [CString.lit "four", .lit "on"].length < 3 := by decide
  have hphrase := phraseToBson_listBytes .little [.lit "four", .lit "on"]
    (by rw [hsize]; decide) hfuel
  rw [hsize] at hphrase
  exact hphrase

end Draconity

import Draconity.Shadow

/-!
What `handle_message` records of a `w.set` or a `g.set`, against what the bytes of the message hold.

`bson_iter_next` returns false at the end of a document and at the first malformed element, and the
loops of `handle_message` do not ask which of the two it was.  So a message is an `Iteration` here,
which says where it stops, and the elements of `handle_message` are those before the stop.
-/

namespace Draconity

open Lib

/-! ### What libbson shows of a message -/

mutual

/-- The calls of `bson_iter_next` on a document: the elements it yields, and why it returns false. -/
inductive Iteration
  | atEnd
  | malformed
  | element (key : CString) (value : Element) (rest : Iteration)

/-- The value of an element, as in `Value`, with the whole iteration over an array or a document. -/
inductive Element
  | utf8 (bytes : List UInt8)
  | bool (b : Bool)
  | int32 (i : Int32)
  | int64 (i : Int64)
  | array (len : UInt32) (iter : Option Iteration)
  | document (len : UInt32) (iter : Option Iteration)
  | binary (bytes : List UInt8)
  | other

end

mutual

def Iteration.elements : Iteration → Elements
  | .atEnd | .malformed => []
  | .element key v rest => (key, v.value) :: rest.elements

/-- The value, less why iterations over it stop. -/
def Element.value : Element → Value
  | .utf8 b => .utf8 b
  | .bool b => .bool b
  | .int32 i => .int32 i
  | .int64 i => .int64 i
  | .array len none => .array len none
  | .array len (some it) => .array len (some it.elements)
  | .document len none => .document len none
  | .document len (some it) => .document len (some it.elements)
  | .binary b => .binary b
  | .other => .other

end

/-- Every element up to the end is well formed. -/
def Iteration.Complete : Iteration → Prop
  | .atEnd => True
  | .malformed => False
  | .element _ _ rest => rest.Complete

/-- What `kind` says of the last element with the key that it knows. -/
def Iteration.lastField {α : Type} (kind : Element → Option α) (key : CString) : Iteration → Option α
  | .atEnd | .malformed => none
  | .element k v rest => (rest.lastField kind key).or (if k = key then kind v else none)

def Element.asArray : Element → Option (UInt32 × Option Iteration)
  | .array len iter => some (len, iter)
  | _ => none

def Element.asDocument : Element → Option (UInt32 × Option Iteration)
  | .document len iter => some (len, iter)
  | _ => none

def Element.asBinary : Element → Option (List UInt8)
  | .binary b => some b
  | _ => none

/-! ### What a request carries -/

/-- A well formed array of the strings `bs`. -/
inductive Iteration.Strings : Iteration → List (List UInt8) → Prop
  | atEnd : Strings .atEnd []
  | element {key : CString} {b : List UInt8} {rest : Iteration} {bs : List (List UInt8)}
    (h : Strings rest bs) : Strings (.element key (.utf8 b) rest) (b :: bs)

/-- A well formed document of well formed arrays of strings. -/
inductive Iteration.Lists : Iteration → List (CString × List (List UInt8)) → Prop
  | atEnd : Lists .atEnd []
  | element {key : CString} {len : UInt32} {it rest : Iteration} {bs : List (List UInt8)}
    {ls : List (CString × List (List UInt8))} (hit : it.Strings bs) (h : Lists rest ls) :
    Lists (.element key (.array len (some it)) rest) ((key, bs) :: ls)

def lastOf {β : Type} (key : CString) : List (CString × β) → Option β
  | [] => none
  | (k, b) :: es => (lastOf key es).or (if k = key then some b else none)

/-- The set holds the strings, byte for byte. -/
def SameStrings (ws : OrdSet CString) (bs : List (List UInt8)) : Prop :=
  ∀ b, (∃ w ∈ ws, w.bytes = b) ↔ b ∈ bs

/-- The map holds the lists; of two with one name, the last. -/
def SameLists (m : AList fun _ : CString => OrdSet CString)
    (ls : List (CString × List (List UInt8))) : Prop :=
  ∀ n, Option.Rel SameStrings (m.lookup n) (lastOf n ls)

/-- The message carries the array `words`, of these strings. -/
def Iteration.CarriesWords (it : Iteration) (bs : List (List UInt8)) : Prop :=
  it.Complete ∧ ∃ len ws, it.lastField Element.asArray (.lit "words") = some (len, some ws) ∧
    ws.Strings bs

/-- The message carries the binary `data`, the array `active_rules`, and the document `lists` if it
has an element of that name. -/
structure Iteration.CarriesGrammar (it : Iteration) (data : List UInt8) (rules : List (List UInt8))
    (lists : List (CString × List (List UInt8))) : Prop where
  complete : it.Complete
  data : it.lastField Element.asBinary (.lit "data") = some data
  rules : ∃ len rs, it.lastField Element.asArray (.lit "active_rules") = some (len, some rs) ∧
    rs.Strings rules
  lists : if it.lastField some (.lit "lists") = none then lists = []
    else ∃ len ls, it.lastField Element.asDocument (.lit "lists") = some (len, some ls) ∧ ls.Lists lists

section Strings

variable {es : Elements} {ws acc : OrdSet CString} {bs : List (List UInt8)} {it : Iteration}

/-- No string of an array has a NUL. -/
def NulFree (es : Elements) : Prop := ∀ e ∈ es, ∀ b, e.2 = .utf8 b → (0 : UInt8) ∉ b

theorem readStrings_eq (acc : OrdSet CString) (es : Elements) : readStrings acc es =
    (readPhrase es).map fun bs => bs.foldl (fun acc b => acc.insert (.ofBytes b)) acc := by
  induction es generalizing acc with
  | nil => rfl
  | cons e es ih =>
    obtain ⟨key, v⟩ := e
    cases v with
    | utf8 b =>
      rw [readStrings, ih, readPhrase, Option.map_map]
      rfl
    | bool _ | int32 _ | int64 _ | array _ _ | document _ _ | binary _ | other => rfl

theorem readPhrase_isSome : (readPhrase es).isSome ↔ ∀ e ∈ es, ∃ b, e.2 = .utf8 b := by
  induction es with
  | nil => simp [readPhrase]
  | cons e es ih =>
    obtain ⟨key, v⟩ := e
    cases v <;> simp [readPhrase, ih]

theorem nulFree_iff (h : readPhrase es = some bs) : NulFree es ↔ ∀ b ∈ bs, (0 : UInt8) ∉ b := by
  induction es generalizing bs with
  | nil => cases h; simp [NulFree]
  | cons e es ih =>
    obtain ⟨key, v⟩ := e
    cases v with
    | utf8 b =>
      obtain ⟨bs, hbs, rfl⟩ := Option.map_eq_some_iff.1 h
      have ih := ih hbs
      unfold NulFree at ih ⊢
      rw [List.forall_mem_cons, List.forall_mem_cons, ih]
      simp
    | bool _ | int32 _ | int64 _ | array _ _ | document _ _ | binary _ | other => cases h

theorem CString.bytes_ofBytes {b : List UInt8} (h : (0 : UInt8) ∉ b) : (CString.ofBytes b).bytes = b :=
  List.takeWhile_eq_self_iff.2 fun x hx => by
    simpa using fun h0 : x = 0 => h (h0 ▸ hx)

/-- The set that is read of strings holds them, byte for byte, just when none has a NUL. -/
theorem sameStrings_foldl_iff (bs : List (List UInt8)) :
    SameStrings (bs.foldl (fun acc b => acc.insert (.ofBytes b)) ∅) bs ↔
      ∀ b ∈ bs, (0 : UInt8) ∉ b := by
  have hmem : ∀ (w : CString) (acc : OrdSet CString),
      w ∈ bs.foldl (fun acc b => acc.insert (.ofBytes b)) acc ↔ w ∈ acc ∨ ∃ b ∈ bs, .ofBytes b = w := by
    intro w
    induction bs with
    | nil => simp
    | cons b bs ih =>
      intro acc
      rw [List.foldl_cons, ih, OrdSet.mem_insert]
      simp only [List.mem_cons, exists_eq_or_imp, eq_comm (a := w)]
      tauto
  constructor
  · intro h b hb
    obtain ⟨w, -, rfl⟩ := (h b).2 hb
    exact w.noNul
  · intro h b
    constructor
    · rintro ⟨w, hw, rfl⟩
      obtain ⟨b, hb, rfl⟩ := ((hmem w ∅).1 hw).resolve_left (OrdSet.notMem_empty w)
      rwa [CString.bytes_ofBytes (h b hb)]
    · intro hb
      exact ⟨.ofBytes b, (hmem _ _).2 (.inr ⟨b, hb, rfl⟩), CString.bytes_ofBytes (h b hb)⟩

/-- An iteration over strings is well formed when it is complete. -/
theorem Iteration.strings_iff : ∀ {it : Iteration} {bs : List (List UInt8)},
    it.Strings bs ↔ it.Complete ∧ readPhrase it.elements = some bs
  | .atEnd, bs => by
    constructor
    · rintro ⟨⟩
      exact ⟨trivial, rfl⟩
    · rintro ⟨-, ⟨⟩⟩
      exact .atEnd
  | .malformed, bs => ⟨nofun, fun h => h.1.elim⟩
  | .element key v rest, bs => by
    constructor
    · intro h
      cases h with
      | element h =>
        obtain ⟨hc, hr⟩ := strings_iff.1 h
        exact ⟨hc, Option.map_eq_some_iff.2 ⟨_, hr, rfl⟩⟩
    · rintro ⟨hc, hr⟩
      cases v with
      | utf8 b =>
        obtain ⟨bs, hbs, rfl⟩ := Option.map_eq_some_iff.1 hr
        exact .element (strings_iff.2 ⟨hc, hbs⟩)
      | array _ it => cases it <;> cases hr
      | document _ it => cases it <;> cases hr
      | bool _ | int32 _ | int64 _ | binary _ | other => cases hr

/-- **What is read of an array**: its strings, byte for byte, just when it is well formed to its end
and no string has a NUL. -/
theorem sameStrings_iff (h : readStrings ∅ it.elements = some ws) :
    (∃ bs, it.Strings bs ∧ SameStrings ws bs) ↔ it.Complete ∧ NulFree it.elements := by
  rw [readStrings_eq] at h
  obtain ⟨bs, hbs, rfl⟩ := Option.map_eq_some_iff.1 h
  rw [nulFree_iff hbs, ← sameStrings_foldl_iff]
  constructor
  · rintro ⟨bs', hit, hsame⟩
    obtain ⟨hc, hbs'⟩ := Iteration.strings_iff.1 hit
    obtain rfl := Option.some.inj (hbs.symm.trans hbs')
    exact ⟨hc, hsame⟩
  · rintro ⟨hc, hsame⟩
    exact ⟨bs, Iteration.strings_iff.2 ⟨hc, hbs⟩, hsame⟩

end Strings

section Lists

variable {es : Elements} {m acc : AList fun _ : CString => OrdSet CString} {it : Iteration}
  {ls : List (CString × List (List UInt8))} {β γ : Type} {n : CString}

/-- Every array of a document is well formed. -/
def Iteration.ArraysComplete : Iteration → Prop
  | .atEnd | .malformed => True
  | .element _ (.array _ (some it)) rest => it.Complete ∧ rest.ArraysComplete
  | .element _ _ rest => rest.ArraysComplete

/-- Of the arrays of a document that are the last of their name, no string has a NUL. -/
def ListsNulFree (es : Elements) : Prop :=
  ∀ n len vs, lastOf n es = some (.array len (some vs)) → NulFree vs

/-- The value is an array of these strings. -/
def Value.HasStrings (v : Value) (bs : List (List UInt8)) : Prop :=
  ∃ len vs, v = .array len (some vs) ∧ readPhrase vs = some bs

/-- The elements are arrays of the strings of the lists. -/
def Arrayed : Elements → List (CString × List (List UInt8)) → Prop :=
  List.Forall₂ fun e l => e.1 = l.1 ∧ e.2.HasStrings l.2

def recordedLists (m : AList fun _ : CString => OrdSet CString)
    (ls : List (CString × List (List UInt8))) : AList fun _ : CString => OrdSet CString :=
  ls.foldl (fun m l => m.insert l.1 (l.2.foldl (fun acc b => acc.insert (.ofBytes b)) ∅)) m

theorem readLists_ok (h : readLists acc es = .ok m) :
    ∃ ls, Arrayed es ls ∧ m = recordedLists acc ls := by
  induction es generalizing acc with
  | nil => cases h; exact ⟨[], .nil, rfl⟩
  | cons e es ih =>
    obtain ⟨key, v⟩ := e
    cases v with
    | array len iter =>
      cases iter with
      | none => cases h
      | some vs =>
        rw [readLists] at h
        cases hvs : readStrings ∅ vs with
        | none => rw [hvs] at h; cases h
        | some l =>
          rw [hvs] at h
          rw [readStrings_eq] at hvs
          obtain ⟨bs, hbs, rfl⟩ := Option.map_eq_some_iff.1 hvs
          obtain ⟨ls, hls, rfl⟩ := ih h
          exact ⟨(key, bs) :: ls, .cons ⟨rfl, len, vs, rfl, hbs⟩ hls, rfl⟩
    | utf8 _ | bool _ | int32 _ | int64 _ | document _ _ | binary _ | other => cases h

theorem Arrayed.unique {ls' : List (CString × List (List UInt8))} (h : Arrayed es ls)
    (h' : Arrayed es ls') : ls = ls' := by
  refine List.right_unique_forall₂' ?_ h h'
  rintro ⟨key, v⟩ ⟨k₁, b₁⟩ ⟨k₂, b₂⟩ ⟨rfl, len, vs, rfl, h₁⟩ ⟨rfl, len', vs', hv, h₂⟩
  cases hv
  exact Prod.ext rfl (Option.some.inj (h₁.symm.trans h₂))

theorem lastOf_rel {R : β → γ → Prop} {es : List (CString × β)} {ls : List (CString × γ)}
    (h : List.Forall₂ (fun e l => e.1 = l.1 ∧ R e.2 l.2) es ls) (n : CString) :
    Option.Rel R (lastOf n es) (lastOf n ls) := by
  induction h with
  | nil => exact .none
  | @cons e l es ls he _ ih =>
    obtain ⟨key, v⟩ := e
    obtain ⟨key', v'⟩ := l
    obtain ⟨rfl, hr⟩ := he
    rw [lastOf, lastOf]
    generalize lastOf n es = a at ih
    generalize lastOf n ls = b at ih
    cases ih with
    | some hl => exact .some hl
    | none =>
      rw [Option.none_or, Option.none_or]
      split_ifs
      · exact .some hr
      · exact .none

theorem lookup_recordedLists (n : CString) (m : AList fun _ : CString => OrdSet CString)
    (ls : List (CString × List (List UInt8))) : (recordedLists m ls).lookup n =
      ((lastOf n ls).map fun bs => bs.foldl (fun acc b => acc.insert (.ofBytes b)) ∅).or
        (m.lookup n) := by
  induction ls generalizing m with
  | nil => rfl
  | cons l ls ih =>
    obtain ⟨key, bs⟩ := l
    refine (ih _).trans ?_
    rw [Keyed.lookup_insert_eq, lastOf, Option.map_or, Option.or_assoc]
    congr 1
    by_cases h : key = n
    · rw [if_pos h.symm, if_pos h]
      rfl
    · rw [if_neg (Ne.symm h), if_neg h]
      rfl

theorem sameLists_recordedLists_iff : SameLists (recordedLists ∅ ls) ls ↔
    ∀ n bs, lastOf n ls = some bs → ∀ b ∈ bs, (0 : UInt8) ∉ b := by
  refine forall_congr' fun n => ?_
  rw [lookup_recordedLists, show (∅ : AList fun _ : CString => OrdSet CString).lookup n = none from rfl,
    Option.or_none]
  cases lastOf n ls with
  | none => exact iff_of_true .none (fun _ h => absurd h.symm (Option.some_ne_none _))
  | some bs =>
    constructor
    · rintro ⟨h⟩ _ ⟨⟩
      exact (sameStrings_foldl_iff bs).1 h
    · intro h
      exact .some ((sameStrings_foldl_iff bs).2 (h bs rfl))

/-- A document of lists is well formed when it and its arrays are complete. -/
theorem Iteration.lists_iff : ∀ {it : Iteration} {ls : List (CString × List (List UInt8))},
    it.Lists ls ↔ it.Complete ∧ it.ArraysComplete ∧ Arrayed it.elements ls
  | .atEnd, ls => by
    constructor
    · rintro ⟨⟩
      exact ⟨trivial, trivial, .nil⟩
    · rintro ⟨-, -, ⟨⟩⟩
      exact .atEnd
  | .malformed, ls => ⟨nofun, fun h => h.1.elim⟩
  | .element key v rest, ls => by
    constructor
    · intro h
      cases h with
      | element hit h =>
        obtain ⟨hc, ha, hl⟩ := lists_iff.1 h
        obtain ⟨hit, hbs⟩ := strings_iff.1 hit
        exact ⟨hc, ⟨hit, ha⟩, .cons ⟨rfl, _, _, rfl, hbs⟩ hl⟩
    · rintro ⟨hc, ha, hl⟩
      rw [Iteration.elements] at hl
      cases hl with
      | cons he hl =>
        rename_i l ls
        obtain ⟨key', bs⟩ := l
        obtain ⟨hkey, len, vs, hv, hvs⟩ := he
        cases hkey
        cases v with
        | array len' iter =>
          cases iter with
          | none => cases hv
          | some it =>
            cases hv
            exact .element (strings_iff.2 ⟨ha.1, hvs⟩) (lists_iff.2 ⟨hc, ha.2, hl⟩)
        | document _ it => cases it <;> cases hv
        | utf8 _ | bool _ | int32 _ | int64 _ | binary _ | other => cases hv

/-- **What is read of a document of lists**: its lists, byte for byte, just when it and its arrays are
well formed to their ends and no string of a list that stays has a NUL. -/
theorem sameLists_iff (h : readLists ∅ it.elements = .ok m) :
    (∃ ls, it.Lists ls ∧ SameLists m ls) ↔
      it.Complete ∧ it.ArraysComplete ∧ ListsNulFree it.elements := by
  obtain ⟨ls, hls, rfl⟩ := readLists_ok h
  have hfree : ListsNulFree it.elements ↔ SameLists (recordedLists ∅ ls) ls := by
    rw [sameLists_recordedLists_iff]
    refine forall_congr' fun n => ?_
    have hrel := lastOf_rel hls n
    generalize lastOf n it.elements = a at hrel
    generalize lastOf n ls = b at hrel
    cases hrel with
    | none => simp
    | some hr =>
      obtain ⟨len, vs, rfl, hbs⟩ := hr
      simp [← nulFree_iff hbs]
  rw [hfree]
  constructor
  · rintro ⟨ls', hit, hsame⟩
    obtain ⟨hc, ha, hls'⟩ := Iteration.lists_iff.1 hit
    exact ⟨hc, ha, hls.unique hls' ▸ hsame⟩
  · rintro ⟨hc, ha, hsame⟩
    exact ⟨ls, Iteration.lists_iff.2 ⟨hc, ha, hls⟩, hsame⟩

end Lists

/-! ### The fields -/

section Fields

variable {α γ : Type} {kind : Element → Option α} {known : Value → Option γ} {g : α → γ}
  {key : CString} {p : Fields → Option γ} {it : Iteration}

theorem foldl_read (hknown : ∀ v : Element, known v.value = (kind v).map g)
    (hread : ∀ f k v, p (f.read (k, v)) = (if k = key then known v else none).or (p f)) :
    ∀ (it : Iteration) (f : Fields),
      p (it.elements.foldl Fields.read f) = ((it.lastField kind key).map g).or (p f)
  | .atEnd, _ | .malformed, _ => rfl
  | .element k v rest, f => by
    have hv : ((if k = key then kind v else none).map g) = if k = key then known v.value else none := by
      split_ifs
      · exact (hknown v).symm
      · rfl
    rw [Iteration.elements, List.foldl_cons, foldl_read hknown hread rest, hread, Iteration.lastField,
      Option.map_or, Option.or_assoc, hv]

/-- A field that each element with its key and of its type replaces holds the last of them. -/
theorem ofRoot_field (hknown : ∀ v : Element, known v.value = (kind v).map g)
    (hread : ∀ f k v, p (f.read (k, v)) = (if k = key then known v else none).or (p f))
    (hinit : p .init = none) (it : Iteration) :
    p (.ofRoot it.elements) = (it.lastField kind key).map g := by
  refine (foldl_read hknown hread it .init).trans ?_
  rw [hinit, Option.or_none]

/-- The bytes of an array or a document. -/
def Nested.ofIteration (b : UInt32 × Option Iteration) : Nested := ⟨b.1, b.2.map Iteration.elements⟩

def Value.asArray : Value → Option Nested
  | .array len iter => some ⟨len, iter⟩
  | _ => none

def Value.asDocument : Value → Option Nested
  | .document len iter => some ⟨len, iter⟩
  | _ => none

def Value.asBinary : Value → Option (List UInt8)
  | .binary b => some b
  | _ => none

theorem asArray_value (v : Element) : v.value.asArray = v.asArray.map .ofIteration := by
  cases v with
  | array len iter => cases iter <;> rfl
  | document len iter => cases iter <;> rfl
  | utf8 _ | bool _ | int32 _ | int64 _ | binary _ | other => rfl

theorem asDocument_value (v : Element) : v.value.asDocument = v.asDocument.map .ofIteration := by
  cases v with
  | array len iter => cases iter <;> rfl
  | document len iter => cases iter <;> rfl
  | utf8 _ | bool _ | int32 _ | int64 _ | binary _ | other => rfl

theorem asBinary_value (v : Element) : v.value.asBinary = v.asBinary.map id := by
  cases v with
  | array len iter => cases iter <;> rfl
  | document len iter => cases iter <;> rfl
  | utf8 _ | bool _ | int32 _ | int64 _ | binary _ | other => rfl

theorem ofRoot_words (it : Iteration) : (Fields.ofRoot it.elements).words =
    (it.lastField Element.asArray (.lit "words")).map .ofIteration := by
  refine ofRoot_field (p := Fields.words) asArray_value (fun f k v => ?_) rfl it
  by_cases hk : k = .lit "words"
  · subst hk
    cases v <;> rfl
  · rw [if_neg hk, Option.none_or]
    cases v <;> simp only [Fields.read, hk, if_false] <;> split_ifs <;> rfl

theorem ofRoot_activeRules (it : Iteration) : (Fields.ofRoot it.elements).activeRules =
    (it.lastField Element.asArray (.lit "active_rules")).map .ofIteration := by
  refine ofRoot_field (p := Fields.activeRules) asArray_value (fun f k v => ?_) rfl it
  by_cases hk : k = .lit "active_rules"
  · subst hk
    cases v <;> rfl
  · rw [if_neg hk, Option.none_or]
    cases v <;> simp only [Fields.read, hk, if_false] <;> split_ifs <;> rfl

theorem ofRoot_lists (it : Iteration) : (Fields.ofRoot it.elements).lists =
    (it.lastField Element.asDocument (.lit "lists")).map .ofIteration := by
  refine ofRoot_field (p := Fields.lists) asDocument_value (fun f k v => ?_) rfl it
  by_cases hk : k = .lit "lists"
  · subst hk
    cases v <;> rfl
  · rw [if_neg hk, Option.none_or]
    cases v <;> simp only [Fields.read, hk, if_false] <;> split_ifs <;> rfl

theorem ofRoot_data (it : Iteration) : (Fields.ofRoot it.elements).data =
    it.lastField Element.asBinary (.lit "data") := by
  refine (ofRoot_field (p := Fields.data) asBinary_value (fun f k v => ?_) rfl it).trans Option.map_id'
  by_cases hk : k = .lit "data"
  · subst hk
    cases v <;> rfl
  · rw [if_neg hk, Option.none_or]
    cases v <;> simp only [Fields.read, hk, if_false] <;> split_ifs <;> rfl

end Fields

/-! ### What is accepted -/

/-- An array that an iterator shows nothing but strings of. -/
def Nested.OfStrings (n : Nested) : Prop :=
  n.len ≠ 0 ∧ ∃ es, n.iter = some es ∧ ∀ e ∈ es, ∃ b, e.2 = .utf8 b

/-- A document that an iterator shows nothing but such arrays of. -/
def Nested.OfLists (n : Nested) : Prop :=
  n.len ≠ 0 ∧ ∃ es, n.iter = some es ∧ ∀ e ∈ es, ∃ len vs, e.2 = .array len (some vs) ∧
    ∀ e' ∈ vs, ∃ b, e'.2 = .utf8 b

/-- What `handle_message` asks of a `w.set`; `words_buf` and `words_len` may hold anything when the
message has no array `words`. -/
def AcceptsWords (E : Env) (f : Fields) (found : Found) (s : State) : Prop :=
  s.ready = true ∧ E.vocabulary = true ∧ (f.words.getD found.words).OfStrings

/-- What `handle_message` asks of a `g.set`. -/
structure AcceptsGrammar (f : Fields) (s : State) : Prop where
  ready : s.ready = true
  name : f.name.isSome
  data : ∃ data, f.data = some data ∧ data ≠ []
  rules : ∃ n, f.activeRules = some n ∧ n.OfStrings
  lists : ∀ n, f.lists = some n → n.OfLists

section Commands

variable {E : Env} {s : State} {c : ClientId} {tid : UInt32} {f : Fields} {found : Found} {n : Nested}
  {es : Elements}

theorem readStrings_isSome : (readStrings ∅ es).isSome ↔ ∀ e ∈ es, ∃ b, e.2 = .utf8 b := by
  rw [readStrings_eq, Option.isSome_map, readPhrase_isSome]

theorem ofStrings_iff : n.OfStrings ↔
    n.len ≠ 0 ∧ ∃ es ws, n.iter = some es ∧ readStrings ∅ es = some ws := by
  unfold Nested.OfStrings
  simp only [← readStrings_isSome, Option.isSome_iff_exists, exists_and_left]

theorem readLists_isOk (m : AList fun _ : CString => OrdSet CString) :
    (∃ m', readLists m es = .ok m') ↔ ∀ e ∈ es, ∃ len vs, e.2 = .array len (some vs) ∧
      ∀ e' ∈ vs, ∃ b, e'.2 = .utf8 b := by
  induction es generalizing m with
  | nil => simp [readLists]
  | cons e es ih =>
    obtain ⟨key, v⟩ := e
    cases v with
    | array len iter =>
      cases iter with
      | none => simp [readLists]
      | some vs =>
        rw [readLists, List.forall_mem_cons]
        cases hvs : readStrings ∅ vs with
        | none =>
          have hno : ¬ ∀ e ∈ vs, ∃ b, e.2 = .utf8 b := by
            rw [← readStrings_isSome, hvs]
            exact Bool.false_ne_true
          refine iff_of_false (by simp) ?_
          rintro ⟨⟨_, _, ⟨⟩, h⟩, -⟩
          exact hno h
        | some l =>
          have hyes : ∀ e ∈ vs, ∃ b, e.2 = .utf8 b := by
            rw [← readStrings_isSome, hvs]
            rfl
          exact (ih _).trans (and_iff_right ⟨len, vs, rfl, hyes⟩).symm
    | utf8 _ | bool _ | int32 _ | int64 _ | document _ _ | binary _ | other => simp [readLists]

theorem ofLists_iff : n.OfLists ↔ n.len ≠ 0 ∧ ∃ es m, n.iter = some es ∧ readLists ∅ es = .ok m := by
  unfold Nested.OfLists
  simp only [← readLists_isOk ∅, exists_and_left]

/-- **A `w.set` is recorded when it is accepted**, and refused otherwise. -/
theorem wSet_outcome (E : Env) (s : State) (c : ClientId) (tid : UInt32) (found : Found)
    (hcmd : f.cmd = some (.lit "w.set")) :
    (∃ es ws, AcceptsWords E f found s ∧ (f.words.getD found.words).iter = some es ∧
        readStrings ∅ es = some ws ∧
        dispatch E c tid f found s = (.noResponse, setShadowWords c tid ws s)) ∨
      ¬ AcceptsWords E f found s ∧ ∃ e, dispatch E c tid f found s = (.refuse e, s) := by
  have hdispatch : dispatch E c tid f found s = wCommand E c tid (.lit "w.set") f found s := by
    unfold dispatch
    rw [hcmd]
    exact if_pos (by decide)
  rw [hdispatch]
  unfold wCommand AcceptsWords
  by_cases hready : s.ready = false
  · rw [if_pos hready]
    exact .inr ⟨fun h => absurd (hready.symm.trans h.1) Bool.false_ne_true, _, rfl⟩
  rw [if_neg hready]
  by_cases hvoc : E.vocabulary = false
  · rw [if_pos hvoc]
    exact .inr ⟨fun h => absurd (hvoc.symm.trans h.2.1) Bool.false_ne_true, _, rfl⟩
  rw [if_neg hvoc, if_neg (by decide), if_pos rfl, ofStrings_iff]
  unfold wSet
  dsimp only
  generalize f.words.getD found.words = n
  obtain ⟨len, iter⟩ := n
  by_cases hlen : len = 0
  · rw [if_pos hlen]
    exact .inr ⟨fun h => h.2.2.1 hlen, _, rfl⟩
  rw [if_neg hlen]
  cases iter with
  | none => exact .inr ⟨by simp, _, rfl⟩
  | some es =>
    dsimp only
    cases hes : readStrings ∅ es with
    | none => exact .inr ⟨by simp [hes], _, rfl⟩
    | some ws =>
      refine .inl ⟨es, ws, ⟨?_, ?_, hlen, es, ws, rfl, hes⟩, rfl, hes, rfl⟩
      · simpa using hready
      · simpa using hvoc

/-- What the fields of an accepted `g.set` are read as. -/
structure GrammarRead (f : Fields) (shadow : GrammarState) : Prop where
  data : f.data = some shadow.blob
  rules : ∃ n es, f.activeRules = some n ∧ n.iter = some es ∧
    readStrings ∅ es = some shadow.activeRules
  noLists : f.lists = none → shadow.lists = ∅
  lists : ∀ n, f.lists = some n → ∃ es, n.iter = some es ∧ readLists ∅ es = .ok shadow.lists

theorem gSetState_outcome (c : ClientId) (tid : UInt32) (f : Fields) :
    (∃ shadow, gSetState c tid f = .ok shadow ∧ GrammarRead f shadow ∧
        (∃ data, f.data = some data ∧ data ≠ []) ∧ (∃ n, f.activeRules = some n ∧ n.OfStrings) ∧
        ∀ n, f.lists = some n → n.OfLists) ∨
      (∃ e, gSetState c tid f = .error e) ∧
        ¬ ((∃ data, f.data = some data ∧ data ≠ []) ∧ (∃ n, f.activeRules = some n ∧ n.OfStrings) ∧
          ∀ n, f.lists = some n → n.OfLists) := by
  unfold gSetState
  simp only [ofStrings_iff, ofLists_iff]
  rcases hdata : f.data with _ | _ | ⟨b, bs⟩
  · exact .inr ⟨⟨_, rfl⟩, by simp⟩
  · exact .inr ⟨⟨_, rfl⟩, by simp⟩
  dsimp only
  rcases hrules : f.activeRules with _ | ⟨len, iter⟩
  · exact .inr ⟨⟨_, rfl⟩, by simp⟩
  dsimp only
  by_cases hlen : len = 0
  · rw [if_pos hlen]
    exact .inr ⟨⟨_, rfl⟩, by simp [hlen]⟩
  rw [if_neg hlen]
  rcases iter with _ | es
  · exact .inr ⟨⟨_, rfl⟩, by simp⟩
  dsimp only
  rcases hes : readStrings ∅ es with _ | rules
  · exact .inr ⟨⟨_, rfl⟩, by simp [hes]⟩
  dsimp only
  rcases hlists : f.lists with _ | ⟨listsLen, listsIter⟩
  · refine .inl ⟨_, rfl, ⟨hdata, ⟨_, es, hrules, rfl, hes⟩, fun _ => rfl, by simp [hlists]⟩,
      ⟨_, rfl, by simp⟩, ⟨_, rfl, hlen, es, rules, rfl, hes⟩, by simp⟩
  dsimp only
  by_cases hlistsLen : listsLen = 0
  · rw [if_pos hlistsLen]
    exact .inr ⟨⟨_, rfl⟩, by simp [hlistsLen]⟩
  rw [if_neg hlistsLen]
  rcases listsIter with _ | ls
  · exact .inr ⟨⟨_, rfl⟩, by simp⟩
  dsimp only
  cases hls : readLists ∅ ls with
  | error e => exact .inr ⟨⟨e, rfl⟩, by simp [hls]⟩
  | ok lists =>
    refine .inl ⟨_, rfl, ⟨hdata, ⟨_, es, hrules, rfl, hes⟩, by simp [hlists], ?_⟩,
      ⟨_, rfl, by simp⟩, ⟨_, rfl, hlen, es, rules, rfl, hes⟩, ?_⟩
    · rintro n hn
      obtain rfl := Option.some.inj (hlists.symm.trans hn)
      exact ⟨ls, rfl, hls⟩
    · rintro n ⟨⟩
      exact ⟨hlistsLen, ls, lists, rfl, hls⟩

/-- **A `g.set` is recorded when it is accepted**, and refused otherwise. -/
theorem gSet_outcome (E : Env) (s : State) (c : ClientId) (tid : UInt32) (found : Found)
    (hcmd : f.cmd = some (.lit "g.set")) :
    (∃ name shadow, AcceptsGrammar f s ∧ gSetState c tid f = .ok shadow ∧ GrammarRead f shadow ∧
        dispatch E c tid f found s = (.noResponse, acceptGrammar E name shadow s)) ∨
      ¬ AcceptsGrammar f s ∧ ∃ e, dispatch E c tid f found s = (.refuse e, s) := by
  have hdispatch : dispatch E c tid f found s = gCommand E c tid (.lit "g.set") f s := by
    unfold dispatch
    rw [hcmd]
    dsimp only
    rw [if_neg (by decide), if_neg (by decide), if_pos (by decide)]
  rw [hdispatch]
  unfold gCommand
  by_cases hready : s.ready = false
  · rw [if_pos hready]
    exact .inr ⟨fun h => absurd (hready.symm.trans h.ready) Bool.false_ne_true, _, rfl⟩
  rw [if_neg hready]
  cases hname : f.name with
  | none => exact .inr ⟨fun h => absurd h.name (by simp [hname]), _, rfl⟩
  | some name =>
    dsimp only
    rw [if_pos rfl]
    rcases gSetState_outcome c tid f with ⟨shadow, hok, hread, hd, hr, hl⟩ | ⟨⟨e, herr⟩, hno⟩
    · rw [hok]
      refine .inl ⟨name, shadow, ⟨by simpa using hready, by simp [hname], hd, hr, hl⟩, rfl, hread, rfl⟩
    · rw [herr]
      exact .inr ⟨fun h => hno ⟨h.data, h.rules, h.lists⟩, e, rfl⟩

/-! ### What is recorded -/

/-- The request gets an error reply, and nothing is recorded. -/
def Refused (E : Env) (c : ClientId) (tid : UInt32) (it : Iteration) (found : Found) (s : State) :
    Prop :=
  ∃ e, handleMessage E c tid (some it.elements) found s =
    (some (.error e), s.issue (.publish (.cmd false it.elements)))

/-- A `w.set` is refused, or the words the message carries are recorded, byte for byte. -/
def RecordsWords (E : Env) (c : ClientId) (tid : UInt32) (it : Iteration) (found : Found)
    (s : State) : Prop :=
  Refused E c tid it found s ∨ ∃ ws bs, it.CarriesWords bs ∧ SameStrings ws bs ∧
    handleMessage E c tid (some it.elements) found s =
      (none, (setShadowWords c tid ws s).issue (.publish (.cmd true it.elements)))

/-- A `g.set` is refused, or the grammar the message carries is recorded, byte for byte. -/
def RecordsGrammar (E : Env) (c : ClientId) (tid : UInt32) (it : Iteration) (found : Found)
    (s : State) : Prop :=
  Refused E c tid it found s ∨ ∃ name shadow rules lists,
    gSetState c tid (.ofRoot it.elements) = .ok shadow ∧
      it.CarriesGrammar shadow.blob rules lists ∧ SameStrings shadow.activeRules rules ∧
      SameLists shadow.lists lists ∧
      handleMessage E c tid (some it.elements) found s =
        (none, (acceptGrammar E name shadow s).issue (.publish (.cmd true it.elements)))

/-- The message has an array `words`, is well formed to its end as that is, and no word has a NUL. -/
def SafeWords (it : Iteration) : Prop :=
  it.Complete ∧ ∃ len ws, it.lastField Element.asArray (.lit "words") = some (len, some ws) ∧
    ws.Complete ∧ NulFree ws.elements

/-- The message, its array `active_rules` and what it has as `lists`, which is a document, are well
formed to their ends, and no string that is read has a NUL. -/
structure SafeGrammar (it : Iteration) : Prop where
  complete : it.Complete
  rules : ∀ len rs, it.lastField Element.asArray (.lit "active_rules") = some (len, some rs) →
    rs.Complete ∧ NulFree rs.elements
  lists : it.lastField some (.lit "lists") ≠ none → ∃ len ls,
    it.lastField Element.asDocument (.lit "lists") = some (len, some ls) ∧
      ls.Complete ∧ ls.ArraysComplete ∧ ListsNulFree ls.elements

variable {it : Iteration}

theorem handleMessage_of_dispatch {o : Outcome} {s' : State}
    (h : dispatch E c tid (.ofRoot it.elements) found s = (o, s')) :
    handleMessage E c tid (some it.elements) found s =
      (o.toReply, s'.issue (.publish (.cmd o.ok it.elements))) := by
  unfold handleMessage
  dsimp only
  rw [h]

/-- The words of a message that has none are what `words_buf` held. -/
theorem carriesWords_iff {ws : OrdSet CString} {es : Elements}
    (hes : ((Fields.ofRoot it.elements).words.getD found.words).iter = some es)
    (hws : readStrings ∅ es = some ws) :
    (∃ bs, it.CarriesWords bs ∧ SameStrings ws bs) ↔ SafeWords it := by
  rw [ofRoot_words] at hes
  have hsame : ∀ {len w}, it.lastField Element.asArray (.lit "words") = some (len, some w) →
      readStrings ∅ w.elements = some ws := by
    intro len w hlast
    rw [hlast] at hes
    obtain rfl : w.elements = es := Option.some.inj hes
    exact hws
  constructor
  · rintro ⟨bs, ⟨hc, len, w, hlast, hw⟩, hbs⟩
    exact ⟨hc, len, w, hlast, (sameStrings_iff (hsame hlast)).1 ⟨bs, hw, hbs⟩⟩
  · rintro ⟨hc, len, w, hlast, hw⟩
    obtain ⟨bs, hit, hbs⟩ := (sameStrings_iff (hsame hlast)).2 hw
    exact ⟨bs, ⟨hc, len, w, hlast, hit⟩, hbs⟩

theorem lastField_of_absent {α : Type} {kind : Element → Option α} {key : CString} :
    ∀ {it : Iteration}, it.lastField some key = none → it.lastField kind key = none
  | .atEnd, _ | .malformed, _ => rfl
  | .element k v rest, h => by
    rw [Iteration.lastField, Option.or_eq_none_iff] at h ⊢
    refine ⟨lastField_of_absent h.1, ?_⟩
    split_ifs at h ⊢ with hk
    · exact absurd h.2 id
    · rfl

theorem carriesGrammar_iff {shadow : GrammarState} (h : GrammarRead (.ofRoot it.elements) shadow) :
    (∃ rules lists, it.CarriesGrammar shadow.blob rules lists ∧
        SameStrings shadow.activeRules rules ∧ SameLists shadow.lists lists) ↔ SafeGrammar it := by
  obtain ⟨hdata, ⟨n, es, hn, hes, hrules⟩, hnoLists, hlists⟩ := h
  rw [ofRoot_data] at hdata
  rw [ofRoot_activeRules] at hn
  rw [ofRoot_lists] at hnoLists hlists
  obtain ⟨⟨len, iter⟩, hlast, rfl⟩ := Option.map_eq_some_iff.1 hn
  obtain ⟨rs, rfl, rfl⟩ := Option.map_eq_some_iff.1 hes
  have hls : ∀ {len ls}, it.lastField Element.asDocument (.lit "lists") = some (len, some ls) →
      readLists ∅ ls.elements = .ok shadow.lists := by
    intro len ls hdoc
    rw [hdoc] at hlists
    obtain ⟨es, hes, hok⟩ := hlists _ rfl
    obtain rfl : ls.elements = es := Option.some.inj hes
    exact hok
  constructor
  · rintro ⟨rules, lists, ⟨hc, -, ⟨len', rs', hlast', hrs⟩, hcarried⟩, hsame, hsameLists⟩
    cases hlast.symm.trans hlast'
    refine ⟨hc, ?_, fun hpresent => ?_⟩
    · rintro len'' rs'' hlast''
      cases hlast.symm.trans hlast''
      exact (sameStrings_iff hrules).1 ⟨rules, hrs, hsame⟩
    · rw [if_neg hpresent] at hcarried
      obtain ⟨len'', ls, hdoc, hlists⟩ := hcarried
      exact ⟨len'', ls, hdoc, (sameLists_iff (hls hdoc)).1 ⟨lists, hlists, hsameLists⟩⟩
  · rintro ⟨hc, hr, hl⟩
    obtain ⟨rules, hrs, hsame⟩ := (sameStrings_iff hrules).2 (hr len rs hlast)
    by_cases hpresent : it.lastField some (.lit "lists") = none
    · have hempty := hnoLists (by rw [lastField_of_absent hpresent]; rfl)
      refine ⟨rules, [], ⟨hc, hdata, ⟨len, rs, hlast, hrs⟩, by rw [if_pos hpresent]⟩, hsame, ?_⟩
      rw [hempty]
      exact fun _ => .none
    · obtain ⟨len', ls, hdoc, hsafe⟩ := hl hpresent
      obtain ⟨lists, hcarried, hsameLists⟩ := (sameLists_iff (hls hdoc)).2 hsafe
      refine ⟨rules, lists, ⟨hc, hdata, ⟨len, rs, hlast, hrs⟩, ?_⟩, hsame, hsameLists⟩
      rw [if_neg hpresent]
      exact ⟨len', ls, hdoc, hcarried⟩

theorem not_refused {s' : State} (h : handleMessage E c tid (some it.elements) found s = (none, s')) :
    ¬ Refused E c tid it found s := by
  rintro ⟨e, he⟩
  exact absurd (congrArg Prod.fst (he.symm.trans h)) (Option.some_ne_none _)

theorem recordsWords_iff (hcmd : (Fields.ofRoot it.elements).cmd = some (.lit "w.set")) :
    RecordsWords E c tid it found s ↔
      (AcceptsWords E (.ofRoot it.elements) found s → SafeWords it) := by
  rcases wSet_outcome E s c tid found hcmd with
    ⟨es, ws, hacc, hes, hws, hd⟩ | ⟨hno, e, hd⟩
  · have hm := handleMessage_of_dispatch hd
    rw [RecordsWords, or_iff_right (not_refused hm), imp_iff_right hacc, ← carriesWords_iff hes hws]
    constructor
    · rintro ⟨ws', bs, hcarries, hsame, hm'⟩
      have hlook : (setShadowWords c tid ws s).shadowWords.lookup c =
          (setShadowWords c tid ws' s).shadowWords.lookup c :=
        congrArg (fun r : Option Reply × State => r.2.shadowWords.lookup c) (hm.symm.trans hm')
      rw [lookup_setShadowWords, lookup_setShadowWords, if_pos rfl, if_pos rfl] at hlook
      cases hlook
      exact ⟨bs, hcarries, hsame⟩
    · rintro ⟨bs, hcarries, hsame⟩
      exact ⟨ws, bs, hcarries, hsame, hm⟩
  · exact iff_of_true (.inl ⟨e, handleMessage_of_dispatch hd⟩) fun h => absurd h hno

theorem recordsGrammar_iff (hcmd : (Fields.ofRoot it.elements).cmd = some (.lit "g.set")) :
    RecordsGrammar E c tid it found s ↔
      (AcceptsGrammar (.ofRoot it.elements) s → SafeGrammar it) := by
  rcases gSet_outcome E s c tid found hcmd with
    ⟨name, shadow, hacc, hok, hread, hd⟩ | ⟨hno, e, hd⟩
  · have hm := handleMessage_of_dispatch hd
    rw [RecordsGrammar, or_iff_right (not_refused hm), imp_iff_right hacc,
      ← carriesGrammar_iff hread]
    constructor
    · rintro ⟨name', shadow', rules, lists, hok', hcarries, hsame, hsameLists, -⟩
      cases hok.symm.trans hok'
      exact ⟨rules, lists, hcarries, hsame, hsameLists⟩
    · rintro ⟨rules, lists, hcarries, hsame, hsameLists⟩
      exact ⟨name, shadow, rules, lists, hok, hcarries, hsame, hsameLists, hm⟩
  · exact iff_of_true (.inl ⟨e, handleMessage_of_dispatch hd⟩) fun h => absurd h hno

/-- **When an update is recorded exactly.**  For any message, whatever `words_buf` and `words_len`
hold: a `w.set` or `g.set` is refused, or recorded as the message carries it byte for byte, just when
what is accepted is well formed to its end, is all in this message, and has no string with a NUL. -/
theorem records_exactly_iff (E : Env) (c : ClientId) (tid : UInt32) (it : Iteration) (found : Found)
    (s : State) :
    ((Fields.ofRoot it.elements).cmd = some (.lit "w.set") → RecordsWords E c tid it found s) ∧
        ((Fields.ofRoot it.elements).cmd = some (.lit "g.set") → RecordsGrammar E c tid it found s) ↔
      ((Fields.ofRoot it.elements).cmd = some (.lit "w.set") →
        AcceptsWords E (.ofRoot it.elements) found s → SafeWords it) ∧
      ((Fields.ofRoot it.elements).cmd = some (.lit "g.set") →
        AcceptsGrammar (.ofRoot it.elements) s → SafeGrammar it) :=
  and_congr (forall_congr' fun hcmd => recordsWords_iff hcmd)
    (forall_congr' fun hcmd => recordsGrammar_iff hcmd)

/-- A `w.set` whose words go on with a malformed element is recorded without the rest of them. -/
theorem records_exactly_fails : ¬ ∀ (E : Env) (c : ClientId) (tid : UInt32) (it : Iteration)
    (found : Found) (s : State),
    ((Fields.ofRoot it.elements).cmd = some (.lit "w.set") → RecordsWords E c tid it found s) ∧
      ((Fields.ofRoot it.elements).cmd = some (.lit "g.set") → RecordsGrammar E c tid it found s) := by
  intro h
  let it : Iteration := .element (.lit "cmd") (.utf8 (ascii "w.set"))
    (.element (.lit "words") (.array 21 (some (.element (.lit "0") (.utf8 (ascii "on")) .malformed)))
      .atEnd)
  rcases (h .obliging 0 1 it .usual { State.init 0 with ready := true }).1 (by decide) with
    ⟨e, he⟩ | ⟨ws, bs, ⟨-, len, w, hlast, hw⟩, -⟩
  · exact absurd (congrArg Prod.fst he).symm (Option.some_ne_none _)
  · cases hlast
    cases hw with
    | element hw => cases hw

end Commands

end Draconity

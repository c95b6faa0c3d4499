import Mathlib.Algebra.Group.Nat.Defs
import Mathlib.Data.List.AList
import Mathlib.Data.List.Lex
import Mathlib.Data.List.TakeWhile
import Draconity.Lib.OrdSet

/-!
The data of Draconity: C strings, the shadow and the live state of a grammar, the word state of a
client, the errors a sync reports and what is sent to the clients.

The `std::string`s of the sync code all come out of `const char *`s of a request, so they are
`CString`s here.  A `std::set<std::string>` is an `OrdSet CString`, walked in its order, and a
`std::unordered_map` is an `AList`; the order its entries are visited in is a parameter of the
functions that loop over one.
-/

namespace Draconity

open Lib

/-- The bytes of a C string, without the terminating NUL. -/
structure CString where
  bytes : List UInt8
  noNul : (0 : UInt8) ∉ bytes

namespace CString

theorem bytes_injective : Function.Injective fun s : CString => s.bytes.map UInt8.toNat := by
  rintro ⟨b, _⟩ ⟨c, _⟩ h
  have : b = c := List.map_injective_iff.2 (fun _ _ => UInt8.toNat_inj.1) h
  subst this
  rfl

/-- Strings are ordered byte by byte, as `std::string::compare` orders them. -/
instance : LinearOrder CString := LinearOrder.lift' _ bytes_injective

/-- What a reader of a `char *` sees of the bytes it points to. -/
def ofBytes (b : List UInt8) : CString where
  bytes := b.takeWhile (· ≠ 0)
  noNul h := by simpa using List.mem_takeWhile_imp h

/-- A string literal of the source. -/
def lit (s : String) : CString := ofBytes (s.toList.map fun c => c.toNat.toUInt8)

end CString

/-- The id of a client, a value `client_nonce` had. -/
abbrev ClientId := ℕ

/-- What `_DSXEngine_LoadGrammar` stores through its last argument; `0` is the null pointer. -/
abbrev Handle := ℕ

/-- `GrammarState`: what a grammar is, or what a client wants it to be. -/
structure GrammarState where
  blob : List UInt8
  activeRules : OrdSet CString
  lists : AList fun _ : CString => OrdSet CString
  unload : Bool
  /-- Client that set this state. -/
  clientId : ClientId
  /-- Transaction that set this state. -/
  tid : UInt32

/-- One entry of `Grammar::errors`. -/
structure GrammarError where
  type : String
  msg : String
  name : CString
  deriving DecidableEq

/-- `Grammar`: a live grammar. -/
structure Grammar where
  name : CString
  errors : List GrammarError
  state : GrammarState
  handle : Handle
  enabled : Bool
  priority : Int
  endkey : ℕ
  beginkey : ℕ
  hypokey : ℕ

/-- The constructor `Grammar::Grammar`.  It leaves `state.unload`, `state.client_id` and
`state.tid` unset; `syncGrammar` sets the last two before a grammar can be seen outside of it, and
nothing reads the first. -/
def Grammar.new (name : CString) : Grammar where
  name := name
  errors := []
  state := { blob := [], activeRules := ∅, lists := ∅, unload := false, clientId := 0, tid := 0 }
  handle := 0
  enabled := false
  priority := 0
  endkey := 0
  beginkey := 0
  hypokey := 0

def Grammar.recordError (g : Grammar) (type msg : String) (rc : Int) (name : CString) : Grammar :=
  { g with errors := g.errors ++ [⟨type, msg ++ ". Return code: " ++ toString rc, name⟩] }

/-- `WordState`: the words a client wants. -/
structure WordState where
  words : OrdSet CString
  lastTid : Int32
  synced : Bool

/-- One entry of the error list of a `w.set`. -/
structure WordError where
  word : CString
  message : String
  deriving DecidableEq

/-! ### Requests, as libbson shows them -/

/-- The value of an element, as the `BSON_ITER_HOLDS_*` macros tell them apart.  An array or a
document comes with its length in bytes and with the elements an iterator over it yields, `none`
when the iterator cannot be set up. -/
inductive Value
  | utf8 (bytes : List UInt8)
  | bool (b : Bool)
  | int32 (i : Int32)
  | int64 (i : Int64)
  | array (len : UInt32) (iter : Option (List (CString × Value)))
  | document (len : UInt32) (iter : Option (List (CString × Value)))
  | binary (bytes : List UInt8)
  | other

/-- The elements an iterator yields before `bson_iter_next` first returns false. -/
abbrev Elements := List (CString × Value)

/-- The bytes of a nested array or document: their number, and what an iterator over them yields. -/
structure Nested where
  len : UInt32
  iter : Option Elements

/-! ### What is sent to the clients -/

/-- The `status` of a deferred response. -/
inductive Status
  | success
  | error
  | skipped
  deriving DecidableEq

/-- The messages Draconity builds, less the `ts` that `prep_response` adds to each. -/
inductive Payload
  | gset (name : CString) (status : Status) (errors : List GrammarError)
  | wset (status : Status) (errors : List WordError)
  | mimic
  | paused (token : UInt64)
  | cmd (success : Bool) (root : Elements)
  | start
  | ready (languageId : Int)

/-- The calls of `draconity_publish` and `draconity_send`. -/
inductive Issued
  | publish (p : Payload)
  | send (p : Payload) (tid : UInt32) (client : ClientId)

end Draconity

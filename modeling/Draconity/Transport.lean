import Draconity.Types
import Draconity.Lib.Frames

/-!
`UvClient`, the server's end of a connection (`transport/client.h`).

The functions work on a `Connection`: the client, and the state that `handle_message_callback` works
on.  libbson and the callback are parameters, bundled in `Transport` with the byte order of the host.
-/

namespace Draconity

open Lib

/-! ### Words on the wire -/

/-- The order of the bytes of a word in memory. -/
inductive ByteOrder
  | little
  | big

/-- The word of four bytes, the most significant one first. -/
def wordOfBytes (a b c d : UInt8) : UInt32 :=
  .ofNat (a.toNat * 2 ^ 24 + b.toNat * 2 ^ 16 + c.toNat * 2 ^ 8 + d.toNat)

/-- The byte of a word that counts `2 ^ k`. -/
def byteOfWord (w : UInt32) (k : ℕ) : UInt8 := .ofNat (w.toNat / 2 ^ k)

/-- A `uint32_t` read from memory. -/
def ByteOrder.load (o : ByteOrder) : List UInt8 → UInt32
  | a :: b :: c :: d :: _ => match o with
    | .little => wordOfBytes d c b a
    | .big => wordOfBytes a b c d
  | _ => 0

/-- A `uint32_t` written to memory. -/
def ByteOrder.store (o : ByteOrder) (w : UInt32) : List UInt8 :=
  match o with
  | .little => [byteOfWord w 0, byteOfWord w 8, byteOfWord w 16, byteOfWord w 24]
  | .big => [byteOfWord w 24, byteOfWord w 16, byteOfWord w 8, byteOfWord w 0]

/-- `htonl`, which is also `ntohl`. -/
def ByteOrder.htonl (o : ByteOrder) (w : UInt32) : UInt32 :=
  match o with
  | .little => wordOfBytes (byteOfWord w 0) (byteOfWord w 8) (byteOfWord w 16) (byteOfWord w 24)
  | .big => w

structure MessageHeader where
  tid : UInt32
  length : UInt32
  deriving DecidableEq

def sizeofMessageHeader : ℕ := 8

/-! ### The client -/

/-- `UvClient`, less its callback.  In place of its stream it has what was written to it. -/
structure UvClient where
  id : ClientId
  secret : List UInt8
  authed : Bool
  recvBuffer : List UInt8
  receivedHeader : Option MessageHeader
  /-- What each call of `stream->write` wrote, oldest first. -/
  written : List (List UInt8)

/-- The constructor `UvClient::UvClient`. -/
def UvClient.new (secret : List UInt8) (id : ClientId) : UvClient where
  id := id
  secret := secret
  authed := false
  recvBuffer := []
  receivedHeader := none
  written := []

/-- What the code uses of libbson.  `read` is `bson_init_static`, with the elements an iterator then
yields, none of them when it cannot be set up; `write` is `bson_destroy_with_steal` of a document
that was built. -/
structure Bson where
  read : List UInt8 → Option Elements
  write : Elements → List UInt8

/-- What a client runs on.  `callback` is `handle_message_callback`: it takes the client, the
transaction and the message, and leaves the bytes of a reply, if it returns one. -/
structure Transport (σ : Type*) where
  byteOrder : ByteOrder
  bson : Bson
  callback : ClientId → UInt32 → List UInt8 → σ → Option (List UInt8) × σ

/-- A client, and the state its callback works on. -/
structure Connection (σ : Type*) where
  client : UvClient
  state : σ
  /-- What `handle_message_callback` was called with, oldest first. -/
  calls : List (UInt32 × List UInt8)

/-! ### Authentication -/

/-- The replies of `handleAuth` that refuse. -/
def authError (text : String) : Elements :=
  [(.lit "success", .bool false), (.lit "error", .utf8 (text.toList.map fun c => c.toNat.toUInt8))]

/-- One pass of the loop of `handleAuth` over the elements: the locals `cmd` and `secret`. -/
def authField (p : CString × CString) (e : CString × Value) : CString × CString :=
  match e.2 with
  | .utf8 b =>
    if e.1 = .lit "cmd" then (.ofBytes b, p.2)
    else if e.1 = .lit "secret" then (p.1, .ofBytes b)
    else p
  | _ => p

/-- The `diff` of two strings of one size: the bytes in which they differ, or-ed together.  A `char`
is widened to an `int`. -/
def secretDiff (secret secret' : List UInt8) : Int32 :=
  (List.zipWith (fun a b => a.toInt8.toInt32 ^^^ b.toInt8.toInt32) secret secret').foldl
    (fun diff x => diff ||| x) 0

def UvClient.handleAuth (bson : Bson) (msg : List UInt8) (c : UvClient) : Elements × UvClient :=
  match bson.read msg with
  | none => (authError "failed to parse BSON", c)
  | some es =>
    let p := es.foldl authField (.lit "", .lit "")
    if p.1 = .lit "auth" then
      if p.2.bytes.length = c.secret.length ∧ c.secret ≠ [] ∧ secretDiff p.2.bytes c.secret = 0 then
        ([(.lit "success", .bool true)], { c with authed := true })
      else (authError "authentication failed", c)
    else (authError "authentication required", c)

theorem UvClient.handleAuth_client (bson : Bson) (msg : List UInt8) (c : UvClient) :
    ∃ authed, (c.handleAuth bson msg).2 = { c with authed := authed } := by
  unfold UvClient.handleAuth
  split
  · exact ⟨c.authed, rfl⟩
  · dsimp only
    split_ifs
    · exact ⟨true, rfl⟩
    · exact ⟨c.authed, rfl⟩
    · exact ⟨c.authed, rfl⟩

/-! ### Messages -/

/-- The `data_to_write` of `writeMessage`: the header and the message. -/
def dataToWrite (o : ByteOrder) (tid : UInt32) (msg : List UInt8) : List UInt8 :=
  o.store (o.htonl tid) ++ o.store (o.htonl (.ofNat msg.length)) ++ msg

/-- The bytes `writeMessage` writes.  Their number is a `size_t`, and `StreamHandle::write` takes it as
an `unsigned int`. -/
def frameBytes (o : ByteOrder) (tid : UInt32) (msg : List UInt8) : List UInt8 :=
  let frameSize := sizeofMessageHeader + msg.length
  (dataToWrite o tid msg).take (frameSize % 2 ^ 32)

def UvClient.writeMessage (o : ByteOrder) (tid : UInt32) (msg : List UInt8) (c : UvClient) :
    UvClient :=
  { c with written := c.written ++ [frameBytes o tid msg] }

/-- The end of `UvClient::handleMessage`: a message that returns null is answered later. -/
def UvClient.respond (o : ByteOrder) (tid : UInt32) (reply : Option (List UInt8)) (c : UvClient) :
    UvClient :=
  match reply with
  | some msg => c.writeMessage o tid msg
  | none => c

namespace Transport

variable {σ : Type*} (T : Transport σ)

/-- `UvClient::handleMessage`, for a message of the transaction `tid`. -/
def handleMessage (tid : UInt32) (msg : List UInt8) (c : Connection σ) : Connection σ :=
  if c.client.authed = false then
    let r := c.client.handleAuth T.bson msg
    { c with client := r.2.respond T.byteOrder tid (some (T.bson.write r.1)) }
  else
    let r := T.callback c.client.id tid msg c.state
    { client := c.client.respond T.byteOrder tid r.1
      state := r.2
      calls := c.calls ++ [(tid, msg)] }

/-- The first `if` of the loop of `onData`: a header is read when its bytes are there. -/
def readHeader (c : Connection σ) : Connection σ :=
  match c.client.receivedHeader with
  | some _ => c
  | none =>
    if sizeofMessageHeader ≤ c.client.recvBuffer.length then
      { c with client := { c.client with
        receivedHeader := some
          { tid := T.byteOrder.htonl (T.byteOrder.load c.client.recvBuffer)
            length := T.byteOrder.htonl (T.byteOrder.load (c.client.recvBuffer.drop 4)) }
        recvBuffer := c.client.recvBuffer.drop sizeofMessageHeader } }
    else c

/-- The second `if` of the loop of `onData`: a message that is there is handled and dropped. -/
def takeMessage (header : MessageHeader) (c : Connection σ) : Connection σ :=
  let n := header.length.toNat
  let c := T.handleMessage header.tid (c.client.recvBuffer.take n) c
  { c with client := { c.client with
    recvBuffer := c.client.recvBuffer.drop n
    receivedHeader := none } }

theorem handleMessage_receiver (tid : UInt32) (msg : List UInt8) (c : Connection σ) :
    (T.handleMessage tid msg c).client.recvBuffer = c.client.recvBuffer ∧
      (T.handleMessage tid msg c).client.receivedHeader = c.client.receivedHeader := by
  unfold handleMessage
  split_ifs
  · obtain ⟨authed, hauth⟩ := c.client.handleAuth_client T.bson msg
    dsimp only
    rw [hauth]
    exact ⟨rfl, rfl⟩
  · dsimp only
    cases (T.callback c.client.id tid msg c.state).1 <;> exact ⟨rfl, rfl⟩

theorem takeMessage_receiver (header : MessageHeader) (c : Connection σ) :
    (T.takeMessage header c).client.recvBuffer = c.client.recvBuffer.drop header.length.toNat ∧
      (T.takeMessage header c).client.receivedHeader = none :=
  ⟨congrArg (List.drop _) (T.handleMessage_receiver ..).1, rfl⟩

theorem readHeader_lt {c : Connection σ} {header : MessageHeader}
    (h : (T.readHeader c).client.receivedHeader = some header) :
    2 * (T.readHeader c).client.recvBuffer.length <
      2 * c.client.recvBuffer.length + if c.client.receivedHeader.isSome then 1 else 0 := by
  unfold readHeader at h ⊢
  cases hc : c.client.receivedHeader with
  | some header => simp
  | none =>
    rw [hc] at h
    dsimp only at h ⊢
    by_cases hl : sizeofMessageHeader ≤ c.client.recvBuffer.length
    · rw [if_pos hl]
      simp only [List.length_drop, sizeofMessageHeader] at hl ⊢
      omega
    · rw [if_neg hl, hc] at h
      cases h

/-- A pass that handles a message leaves less to do. -/
theorem takeMessage_lt {c : Connection σ} {header : MessageHeader}
    (h : (T.readHeader c).client.receivedHeader = some header) :
    (2 * (T.takeMessage header (T.readHeader c)).client.recvBuffer.length +
        if (T.takeMessage header (T.readHeader c)).client.receivedHeader.isSome then 1 else 0) <
      2 * c.client.recvBuffer.length + if c.client.receivedHeader.isSome then 1 else 0 := by
  refine lt_of_le_of_lt ?_ (T.readHeader_lt h)
  obtain ⟨hbuf, hnone⟩ := T.takeMessage_receiver header (T.readHeader c)
  simp only [hbuf, hnone, List.length_drop, Option.isSome_none, Bool.false_eq_true, if_false,
    Nat.add_zero]
  omega

/-- The loop of `onData`. -/
def loop (c : Connection σ) : Connection σ :=
  match _h : (T.readHeader c).client.receivedHeader with
  | none => T.readHeader c
  | some header =>
    if header.length.toNat ≤ (T.readHeader c).client.recvBuffer.length then
      loop (T.takeMessage header (T.readHeader c))
    else T.readHeader c
termination_by 2 * c.client.recvBuffer.length + if c.client.receivedHeader.isSome then 1 else 0
decreasing_by exact T.takeMessage_lt ‹_›

def onData (data : List UInt8) (c : Connection σ) : Connection σ :=
  T.loop { c with client := { c.client with recvBuffer := c.client.recvBuffer ++ data } }

end Transport

end Draconity

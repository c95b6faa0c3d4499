import Mathlib.Data.List.Induction
import Draconity.Transport

/-!
`onData` finds the frames of the stream, however it comes in chunks.

The frames of a stream are those of `Lib.Format.split` for the format of Draconity.  What a client
keeps between two chunks stands at what is left of the stream so far, and everything else about its
connection is as if `handleMessage` had been called on the frames one by one (`receive_eq`).
-/

namespace Draconity

open Lib

/-! ### The byte order of the host does not matter -/

theorem toNat_wordOfBytes (a b c d : UInt8) : (wordOfBytes a b c d).toNat =
    a.toNat * 2 ^ 24 + b.toNat * 2 ^ 16 + c.toNat * 2 ^ 8 + d.toNat := by
  have ha := a.toNat_lt
  have hb := b.toNat_lt
  have hc := c.toNat_lt
  have hd := d.toNat_lt
  unfold wordOfBytes
  rw [UInt32.toNat_ofNat']
  omega

theorem byteOfWord_wordOfBytes (a b c d : UInt8) :
    byteOfWord (wordOfBytes a b c d) 24 = a ∧ byteOfWord (wordOfBytes a b c d) 16 = b ∧
      byteOfWord (wordOfBytes a b c d) 8 = c ∧ byteOfWord (wordOfBytes a b c d) 0 = d := by
  have ha := a.toNat_lt
  have hb := b.toNat_lt
  have hc := c.toNat_lt
  have hd := d.toNat_lt
  unfold byteOfWord
  rw [toNat_wordOfBytes]
  refine ⟨?_, ?_, ?_, ?_⟩ <;> rw [← UInt8.toNat_inj, UInt8.toNat_ofNat'] <;> omega

/-- A word that comes most significant byte first. -/
def bigEndian : List UInt8 → UInt32
  | a :: b :: c :: d :: _ => wordOfBytes a b c d
  | _ => 0

theorem htonl_load (o : ByteOrder) (bytes : List UInt8) :
    o.htonl (o.load bytes) = bigEndian bytes := by
  match bytes with
  | a :: b :: c :: d :: _ =>
    cases o with
    | big => rfl
    | little =>
      obtain ⟨h₁, h₂, h₃, h₄⟩ := byteOfWord_wordOfBytes d c b a
      exact congr (congr (congr (congrArg wordOfBytes h₄) h₃) h₂) h₁
  | [] | [_] | [_, _] | [_, _, _] =>
    cases o with
    | big => rfl
    | little => exact (by decide : ByteOrder.little.htonl 0 = 0)

/-! ### The format of frames -/

/-- A frame is a big-endian transaction, a big-endian length, and that many bytes. -/
def messageFormat : Format UInt8 MessageHeader where
  size := sizeofMessageHeader
  size_pos := Nat.succ_pos _
  header bytes := ⟨bigEndian bytes, bigEndian (bytes.drop 4)⟩
  length h := h.length.toNat

def frames (bytes : List UInt8) : List (Frame UInt8 MessageHeader) := (messageFormat.split bytes).1

theorem bigEndian_take {n : ℕ} (hn : 4 ≤ n) (bytes : List UInt8) :
    bigEndian (bytes.take n) = bigEndian bytes := by
  obtain ⟨m, rfl⟩ := Nat.exists_eq_add_of_le' hn
  match bytes with
  | a :: b :: c :: d :: _ => rfl
  | [] | [_] | [_, _] | [_, _, _] => simp

namespace Transport

variable {σ : Type*} (T : Transport σ) {c : Connection σ} {bytes : List UInt8}

/-- The header `onData` reads is that of the format. -/
theorem readHeader_header (bytes : List UInt8) :
    (⟨T.byteOrder.htonl (T.byteOrder.load bytes),
      T.byteOrder.htonl (T.byteOrder.load (bytes.drop 4))⟩ : MessageHeader) =
      messageFormat.header (bytes.take messageFormat.size) := by
  rw [htonl_load, htonl_load]
  show _ = MessageHeader.mk (bigEndian (bytes.take 8)) (bigEndian ((bytes.take 8).drop 4))
  rw [bigEndian_take (by decide), List.drop_take, bigEndian_take (by decide)]

/-! ### The loop -/

def StandsAt (c : UvClient) (bytes : List UInt8) : Prop :=
  messageFormat.Holds c.receivedHeader c.recvBuffer bytes

def settledClient (c : UvClient) : UvClient := { c with recvBuffer := [], receivedHeader := none }

def settled (c : Connection σ) : Connection σ := { c with client := settledClient c.client }

/-- `handleMessage`, for a frame. -/
def handleFrame (c : Connection σ) (f : Frame UInt8 MessageHeader) : Connection σ :=
  T.handleMessage f.header.tid f.body c

theorem settledClient_handleAuth (bson : Bson) (msg : List UInt8) (c : UvClient) :
    (settledClient c).handleAuth bson msg =
      ((c.handleAuth bson msg).1, settledClient (c.handleAuth bson msg).2) := by
  unfold UvClient.handleAuth
  cases bson.read msg with
  | none => rfl
  | some es =>
    dsimp only [settledClient]
    by_cases hcmd : (es.foldl authField (.lit "", .lit "")).1 = .lit "auth"
    · by_cases hsecret : (es.foldl authField (.lit "", .lit "")).2.bytes.length = c.secret.length ∧
          c.secret ≠ [] ∧ secretDiff (es.foldl authField (.lit "", .lit "")).2.bytes c.secret = 0
      · rw [if_pos hcmd, if_pos hcmd, if_pos hsecret]
        exact if_pos hsecret
      · rw [if_pos hcmd, if_pos hcmd, if_neg hsecret]
        exact if_neg hsecret
    · rw [if_neg hcmd, if_neg hcmd]

/-- What was received has no part in how a message is handled. -/
theorem settled_handleMessage (tid : UInt32) (msg : List UInt8) (c : Connection σ) :
    settled (T.handleMessage tid msg c) = T.handleMessage tid msg (settled c) := by
  unfold handleMessage
  by_cases ha : c.client.authed = false
  · rw [if_pos ha, if_pos (show (settled c).client.authed = false from ha)]
    dsimp only [settled]
    rw [settledClient_handleAuth]
    rfl
  · rw [if_neg ha, if_neg (show ¬ (settled c).client.authed = false from ha)]
    have hrespond : ∀ reply, settledClient (c.client.respond T.byteOrder tid reply) =
        (settledClient c.client).respond T.byteOrder tid reply := by
      intro reply
      cases reply <;> rfl
    dsimp only [settled]
    rw [hrespond]
    rfl

theorem settled_readHeader (c : Connection σ) : settled (T.readHeader c) = settled c := by
  unfold readHeader
  cases hc : c.client.receivedHeader with
  | some header => rfl
  | none =>
    dsimp only
    split_ifs <;> rfl

theorem settled_takeMessage (header : MessageHeader) (c : Connection σ) :
    settled (T.takeMessage header c) =
      T.handleFrame (settled c) ⟨header, c.client.recvBuffer.take header.length.toNat⟩ :=
  T.settled_handleMessage ..

/-- Reading a header does not move the client, and one is read if its bytes are there. -/
theorem readHeader_standsAt (h : StandsAt c.client bytes) :
    StandsAt (T.readHeader c).client bytes ∧
      ((T.readHeader c).client.receivedHeader = none →
        ¬ messageFormat.size ≤ (T.readHeader c).client.recvBuffer.length) := by
  unfold StandsAt at h ⊢
  unfold readHeader
  cases hc : c.client.receivedHeader with
  | some header => exact ⟨h, fun hn => absurd (hc.symm.trans hn) nofun⟩
  | none =>
    rw [hc] at h
    by_cases hl : sizeofMessageHeader ≤ c.client.recvBuffer.length
    · simp only [if_pos hl]
      refine ⟨?_, nofun⟩
      rw [readHeader_header]
      exact h.read hl
    · simp only [if_neg hl]
      exact ⟨hc ▸ h, fun _ => hl⟩

theorem loop_of_none (h : (T.readHeader c).client.receivedHeader = none) :
    T.loop c = T.readHeader c := by
  rw [loop]
  split
  · rfl
  · rename_i hsome
    exact absurd (hsome.symm.trans h) (Option.some_ne_none _)

theorem loop_of_some {header : MessageHeader}
    (h : (T.readHeader c).client.receivedHeader = some header)
    (hlen : header.length.toNat ≤ (T.readHeader c).client.recvBuffer.length) :
    T.loop c = T.loop (T.takeMessage header (T.readHeader c)) := by
  rw [loop]
  split
  · rename_i hnone
    exact absurd (h.symm.trans hnone) (Option.some_ne_none _)
  · rename_i hsome
    obtain rfl := Option.some.inj (h.symm.trans hsome)
    exact if_pos hlen

theorem loop_of_short {header : MessageHeader}
    (h : (T.readHeader c).client.receivedHeader = some header)
    (hlen : ¬ header.length.toNat ≤ (T.readHeader c).client.recvBuffer.length) :
    T.loop c = T.readHeader c := by
  rw [loop]
  split
  · rfl
  · rename_i hsome
    obtain rfl := Option.some.inj (h.symm.trans hsome)
    exact if_neg hlen

/-- The first frame of what the client stands at, once its header was read: it is there if its
bytes are, and then the client stands at the rest. -/
theorem takeMessage_standsAt {header : MessageHeader} (h : StandsAt c.client bytes)
    (hsome : c.client.receivedHeader = some header) :
    (header.length.toNat ≤ c.client.recvBuffer.length →
      messageFormat.next bytes = some (⟨header, c.client.recvBuffer.take header.length.toNat⟩,
          c.client.recvBuffer.drop header.length.toNat) ∧
        StandsAt (T.takeMessage header c).client
          (c.client.recvBuffer.drop header.length.toNat)) ∧
      (¬ header.length.toNat ≤ c.client.recvBuffer.length → messageFormat.next bytes = none) := by
  have hheld : messageFormat.Holds (some header) c.client.recvBuffer bytes := hsome ▸ h
  have hnext := hheld.next_eq
  constructor
  · intro hlen
    rw [if_pos (show messageFormat.length header ≤ _ from hlen)] at hnext
    obtain ⟨hbuf, hnone⟩ := T.takeMessage_receiver header c
    refine ⟨hnext, ?_⟩
    unfold StandsAt
    rw [hnone]
    exact hbuf
  · intro hlen
    rwa [if_neg (show ¬ messageFormat.length header ≤ _ from hlen)] at hnext

/-- **The loop handles the complete frames** of what the client stands at, and then stands at the
rest. -/
theorem loop_eq (h : StandsAt c.client bytes) :
    StandsAt (T.loop c).client (messageFormat.split bytes).2 ∧
      settled (T.loop c) = (frames bytes).foldl T.handleFrame (settled c) := by
  unfold frames
  induction c using loop.induct (T := T) generalizing bytes with
  | case1 c hnone =>
    obtain ⟨hstand, hshort⟩ := T.readHeader_standsAt h
    have hnext : messageFormat.next bytes = none :=
      Format.Holds.next_of_short (hnone ▸ hstand) (hshort hnone)
    rw [T.loop_of_none hnone, messageFormat.split_of_none hnext]
    exact ⟨hstand, T.settled_readHeader c⟩
  | case2 c header hsome hlen ih =>
    obtain ⟨hstand, -⟩ := T.readHeader_standsAt h
    obtain ⟨hnext, hrest⟩ := (T.takeMessage_standsAt hstand hsome).1 hlen
    obtain ⟨ih₁, ih₂⟩ := ih hrest
    rw [T.loop_of_some hsome hlen, messageFormat.split_of_some hnext]
    refine ⟨ih₁, ih₂.trans ?_⟩
    rw [settled_takeMessage, settled_readHeader]
    rfl
  | case3 c header hsome hlen =>
    obtain ⟨hstand, -⟩ := T.readHeader_standsAt h
    have hnext := (T.takeMessage_standsAt hstand hsome).2 hlen
    rw [T.loop_of_short hsome hlen, messageFormat.split_of_none hnext]
    exact ⟨hstand, T.settled_readHeader c⟩

/-! ### A connection -/

def accept (secret : List UInt8) (id : ClientId) (s : σ) : Connection σ := ⟨.new secret id, s, []⟩

def receive (c : Connection σ) (chunks : List (List UInt8)) : Connection σ :=
  chunks.foldl (fun c data => T.onData data c) c

/-- **However the stream is cut into chunks, its frames are handled one by one.** -/
theorem receive_eq (secret : List UInt8) (id : ClientId) (s : σ) (chunks : List (List UInt8)) :
    StandsAt (T.receive (accept secret id s) chunks).client
        (messageFormat.split chunks.flatten).2 ∧
      settled (T.receive (accept secret id s) chunks) =
        (frames chunks.flatten).foldl T.handleFrame (accept secret id s) := by
  unfold receive frames
  induction chunks using List.reverseRecOn with
  | nil =>
    rw [List.flatten_nil, messageFormat.split_of_none rfl]
    exact ⟨rfl, rfl⟩
  | append_singleton chunks data ih =>
    obtain ⟨ih₁, ih₂⟩ := ih
    rw [List.foldl_append, List.flatten_append, List.flatten_singleton, messageFormat.split_append,
      List.foldl_append, ← ih₂]
    exact T.loop_eq (ih₁.append data)

end Transport

end Draconity

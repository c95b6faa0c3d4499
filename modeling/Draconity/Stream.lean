import Mathlib.Algebra.Order.BigOperators.Group.List
import Mathlib.Algebra.Order.Ring.Nat
import Draconity.Receive

/-!
The stream of a connection, from both ends.

`onData` finds the frames of what it receives and keeps what is left over, however the stream comes
in chunks; and it finds exactly what `writeMessage` was given, whatever the byte orders of the two
hosts, as long as the size of each frame is an `unsigned int`.
-/

namespace Draconity

open Lib

/-! ### Words -/

theorem wordOfBytes_byteOfWord (w : UInt32) :
    wordOfBytes (byteOfWord w 24) (byteOfWord w 16) (byteOfWord w 8) (byteOfWord w 0) = w := by
  have hw := w.toNat_lt
  rw [← UInt32.toNat_inj, toNat_wordOfBytes]
  unfold byteOfWord
  simp only [UInt8.toNat_ofNat']
  omega

/-- In memory, a word that went through `htonl` is most significant byte first. -/
theorem store_htonl (o : ByteOrder) (w : UInt32) : o.store (o.htonl w) =
    [byteOfWord w 24, byteOfWord w 16, byteOfWord w 8, byteOfWord w 0] := by
  cases o with
  | big => rfl
  | little =>
    obtain ⟨h₁, h₂, h₃, h₄⟩ := byteOfWord_wordOfBytes (byteOfWord w 0) (byteOfWord w 8)
      (byteOfWord w 16) (byteOfWord w 24)
    simp only [ByteOrder.store, ByteOrder.htonl, h₁, h₂, h₃, h₄]

theorem bigEndian_store (o : ByteOrder) (w : UInt32) (bytes : List UInt8) :
    bigEndian (o.store (o.htonl w) ++ bytes) = w := by
  rw [store_htonl]
  exact wordOfBytes_byteOfWord w

theorem store_bigEndian (o : ByteOrder) {raw : List UInt8} (h : raw.length = 4) :
    o.store (o.htonl (bigEndian raw)) = raw := by
  match raw with
  | [a, b, c, d] =>
    obtain ⟨h₁, h₂, h₃, h₄⟩ := byteOfWord_wordOfBytes a b c d
    rw [store_htonl]
    simp only [bigEndian, h₁, h₂, h₃, h₄]

theorem length_store (o : ByteOrder) (w : UInt32) : (o.store w).length = 4 := by
  cases o <;> rfl

/-! ### Frames as `writeMessage` writes them -/

def MessageHeader.bytes (o : ByteOrder) (h : MessageHeader) : List UInt8 :=
  o.store (o.htonl h.tid) ++ o.store (o.htonl h.length)

theorem MessageHeader.length_bytes (o : ByteOrder) (h : MessageHeader) :
    (h.bytes o).length = messageFormat.size := by
  unfold MessageHeader.bytes
  rw [List.length_append, length_store, length_store]
  rfl

theorem header_bytes (o : ByteOrder) (h : MessageHeader) : messageFormat.header (h.bytes o) = h := by
  have hdrop : (h.bytes o).drop 4 = o.store (o.htonl h.length) := by
    unfold MessageHeader.bytes
    exact List.drop_left' (length_store ..)
  have hlength := bigEndian_store o h.length []
  rw [List.append_nil] at hlength
  show MessageHeader.mk (bigEndian (h.bytes o)) (bigEndian ((h.bytes o).drop 4)) = h
  rw [hdrop, hlength]
  exact congrArg (MessageHeader.mk · h.length) (bigEndian_store ..)

theorem bytes_header (o : ByteOrder) {raw : List UInt8} (h : raw.length = messageFormat.size) :
    (messageFormat.header raw).bytes o = raw := by
  have h8 : raw.length = 8 := h
  have hfour : (raw.take 4).length = 4 := by simp; omega
  have hrest : (raw.drop 4).length = 4 := by simp; omega
  show o.store (o.htonl (bigEndian raw)) ++ o.store (o.htonl (bigEndian (raw.drop 4))) = raw
  rw [← bigEndian_take (le_refl 4) raw, store_bigEndian o hfour, store_bigEndian o hrest]
  exact List.take_append_drop 4 raw

def encodeFrame (o : ByteOrder) (f : Frame UInt8 MessageHeader) : List UInt8 :=
  f.header.bytes o ++ f.body

/-- The bytes of a frame come before whatever follows it in the stream. -/
theorem next_encode (o : ByteOrder) {bytes rest : List UInt8} {f : Frame UInt8 MessageHeader}
    (h : messageFormat.next bytes = some (f, rest)) : bytes = encodeFrame o f ++ rest := by
  unfold Format.next at h
  dsimp only at h
  split_ifs at h with hc
  cases h
  unfold encodeFrame
  dsimp only
  rw [bytes_header o (List.length_take_of_le hc.1), List.append_assoc, List.take_append_drop,
    List.take_append_drop]

abbrev Message := UInt32 × List UInt8

def messageOf (f : Frame UInt8 MessageHeader) : Message := (f.header.tid, f.body)

/-- The frame `writeMessage` makes of a message. -/
def frameOf (m : Message) : Frame UInt8 MessageHeader := ⟨⟨m.1, .ofNat m.2.length⟩, m.2⟩

theorem decodes_frameOf (o : ByteOrder) {m : Message} (h : m.2.length < 2 ^ 32) :
    messageFormat.Decodes (encodeFrame o) (frameOf m) := by
  intro rest
  have hlen := (frameOf m).header.length_bytes o
  have hbody : messageFormat.length (frameOf m).header = m.2.length :=
    UInt32.toNat_ofNat_of_lt h
  have htake : (encodeFrame o (frameOf m) ++ rest).take messageFormat.size =
      (frameOf m).header.bytes o := by
    unfold encodeFrame
    rw [List.append_assoc]
    exact List.take_left' hlen
  have hdrop : (encodeFrame o (frameOf m) ++ rest).drop messageFormat.size = m.2 ++ rest := by
    unfold encodeFrame
    rw [List.append_assoc]
    exact List.drop_left' hlen
  unfold Format.next
  dsimp only
  rw [htake, hdrop, header_bytes, hbody, if_pos, List.take_left, List.drop_left]
  · rfl
  · constructor
    · unfold encodeFrame
      simp only [List.length_append, hlen]
      omega
    · simp

theorem length_encodeFrame (o : ByteOrder) (f : Frame UInt8 MessageHeader) :
    (encodeFrame o f).length = sizeofMessageHeader + f.body.length := by
  unfold encodeFrame
  rw [List.length_append, MessageHeader.length_bytes]
  rfl

theorem dataToWrite_eq (o : ByteOrder) (m : Message) :
    dataToWrite o m.1 m.2 = encodeFrame o (frameOf m) := rfl

theorem length_dataToWrite (o : ByteOrder) (m : Message) :
    (dataToWrite o m.1 m.2).length = sizeofMessageHeader + m.2.length := by
  rw [dataToWrite_eq]
  exact length_encodeFrame o (frameOf m)

theorem length_frameBytes (o : ByteOrder) (m : Message) :
    (frameBytes o m.1 m.2).length = (sizeofMessageHeader + m.2.length) % 2 ^ 32 := by
  unfold frameBytes
  rw [List.length_take, length_dataToWrite]
  exact Nat.min_eq_left (Nat.mod_le ..)

/-- A frame is written in full when its size is an `unsigned int`. -/
theorem frameBytes_eq (o : ByteOrder) {m : Message}
    (h : sizeofMessageHeader + m.2.length < 2 ^ 32) :
    frameBytes o m.1 m.2 = encodeFrame o (frameOf m) := by
  unfold frameBytes
  dsimp only
  rw [Nat.mod_eq_of_lt h, List.take_of_length_le (length_dataToWrite o m).le, dataToWrite_eq]

/-! ### What a client keeps -/

/-- The bytes a client has received and not handed on: the header it read, and its buffer. -/
def UvClient.leftover (o : ByteOrder) (c : UvClient) : List UInt8 :=
  match c.receivedHeader with
  | none => c.recvBuffer
  | some h => h.bytes o ++ c.recvBuffer

/-- What a client keeps of the bytes it stands at: it reads a header as soon as it is there. -/
def parserState (bytes : List UInt8) : Option MessageHeader × List UInt8 :=
  if messageFormat.size ≤ bytes.length then
    (some (messageFormat.header (bytes.take messageFormat.size)), bytes.drop messageFormat.size)
  else (none, bytes)

namespace Transport

variable {σ : Type*} (T : Transport σ) {c : Connection σ} {bytes : List UInt8}

theorem leftover_of_standsAt {c : UvClient} (o : ByteOrder) (h : StandsAt c bytes) :
    c.leftover o = bytes := by
  unfold StandsAt at h
  unfold UvClient.leftover
  cases hc : c.receivedHeader with
  | none =>
    rw [hc] at h
    exact h
  | some header =>
    rw [hc] at h
    obtain ⟨raw, hlen, rfl, rfl⟩ := h
    exact congrArg (· ++ c.recvBuffer) (bytes_header o hlen)

theorem parserState_of_standsAt {c : UvClient} (h : StandsAt c bytes)
    (hshort : c.receivedHeader = none → ¬ messageFormat.size ≤ c.recvBuffer.length) :
    (c.receivedHeader, c.recvBuffer) = parserState bytes := by
  unfold StandsAt at h
  unfold parserState
  cases hc : c.receivedHeader with
  | none =>
    rw [hc] at h
    obtain rfl : c.recvBuffer = bytes := h
    rw [if_neg (hshort hc)]
  | some header =>
    rw [hc] at h
    obtain ⟨raw, hlen, rfl, rfl⟩ := h
    rw [if_pos (by rw [List.length_append, hlen]; omega), List.take_left' hlen,
      List.drop_left' hlen]

/-! ### What `onData` hands on -/

/-- What the loop of `onData` hands to `handleMessage`, in order. -/
def handed (c : Connection σ) : List Message :=
  match _h : (T.readHeader c).client.receivedHeader with
  | none => []
  | some header =>
    if header.length.toNat ≤ (T.readHeader c).client.recvBuffer.length then
      (header.tid, (T.readHeader c).client.recvBuffer.take header.length.toNat) ::
        handed (T.takeMessage header (T.readHeader c))
    else []
termination_by 2 * c.client.recvBuffer.length + if c.client.receivedHeader.isSome then 1 else 0
decreasing_by exact T.takeMessage_lt ‹_›

/-- What `onData` hands to `handleMessage` over all chunks, in order. -/
def handedAll : Connection σ → List (List UInt8) → List Message
  | _, [] => []
  | c, data :: chunks =>
    T.handed { c with client := { c.client with recvBuffer := c.client.recvBuffer ++ data } } ++
      handedAll (T.onData data c) chunks

theorem handed_of_none (h : (T.readHeader c).client.receivedHeader = none) : T.handed c = [] := by
  rw [handed]
  split
  · rfl
  · rename_i hsome
    exact absurd (h.symm.trans hsome) nofun

theorem handed_of_some {header : MessageHeader}
    (h : (T.readHeader c).client.receivedHeader = some header) :
    T.handed c = if header.length.toNat ≤ (T.readHeader c).client.recvBuffer.length then
      (header.tid, (T.readHeader c).client.recvBuffer.take header.length.toNat) ::
        T.handed (T.takeMessage header (T.readHeader c)) else [] := by
  rw [handed]
  split
  · rename_i hnone
    exact absurd (h.symm.trans hnone) nofun
  · rename_i hsome
    obtain rfl := Option.some.inj (h.symm.trans hsome)
    rfl

/-- The loop hands on the complete frames, and does not stop before a header that is there. -/
theorem handed_eq (h : StandsAt c.client bytes) :
    T.handed c = (frames bytes).map messageOf ∧
      ((T.loop c).client.receivedHeader = none →
        ¬ messageFormat.size ≤ (T.loop c).client.recvBuffer.length) := by
  unfold frames
  induction c using loop.induct (T := T) generalizing bytes with
  | case1 c hnone =>
    obtain ⟨hstand, hshort⟩ := T.readHeader_standsAt h
    have hnext : messageFormat.next bytes = none :=
      Format.Holds.next_of_short (hnone ▸ hstand) (hshort hnone)
    rw [T.handed_of_none hnone, T.loop_of_none hnone, messageFormat.split_of_none hnext]
    exact ⟨rfl, hshort⟩
  | case2 c header hsome hlen ih =>
    obtain ⟨hstand, -⟩ := T.readHeader_standsAt h
    obtain ⟨hnext, hrest⟩ := (T.takeMessage_standsAt hstand hsome).1 hlen
    obtain ⟨ih₁, ih₂⟩ := ih hrest
    rw [T.handed_of_some hsome, if_pos hlen, T.loop_of_some hsome hlen,
      messageFormat.split_of_some hnext, ih₁]
    exact ⟨rfl, ih₂⟩
  | case3 c header hsome hlen =>
    obtain ⟨hstand, hshort⟩ := T.readHeader_standsAt h
    have hnext := (T.takeMessage_standsAt hstand hsome).2 hlen
    rw [T.handed_of_some hsome, if_neg hlen, T.loop_of_short hsome hlen,
      messageFormat.split_of_none hnext]
    exact ⟨rfl, hshort⟩

theorem handedAll_snoc (c : Connection σ) (chunks : List (List UInt8)) (data : List UInt8) :
    T.handedAll c (chunks ++ [data]) = T.handedAll c chunks ++ T.handed
      { T.receive c chunks with client := { (T.receive c chunks).client with
        recvBuffer := (T.receive c chunks).client.recvBuffer ++ data } } := by
  induction chunks generalizing c with
  | nil => exact List.append_nil _
  | cons d chunks ih =>
    rw [List.cons_append, handedAll, ih, handedAll, List.append_assoc]
    rfl

/-- Over all chunks, `onData` hands on the frames of the stream, and does not stop before a header
that is there. -/
theorem handedAll_eq (secret : List UInt8) (id : ClientId) (s : σ) (chunks : List (List UInt8)) :
    T.handedAll (accept secret id s) chunks = (frames chunks.flatten).map messageOf ∧
      ((T.receive (accept secret id s) chunks).client.receivedHeader = none →
        ¬ messageFormat.size ≤
          (T.receive (accept secret id s) chunks).client.recvBuffer.length) := by
  induction chunks using List.reverseRecOn with
  | nil =>
    refine ⟨?_, fun _ => by simp [receive, accept, UvClient.new, messageFormat,
      sizeofMessageHeader]⟩
    unfold frames
    rw [List.flatten_nil, messageFormat.split_of_none rfl]
    rfl
  | append_singleton chunks data ih =>
    -- what is handed on depends on the bytes alone, wherever they were cut
    have hstand := (T.receive_eq secret id s chunks).1
    obtain ⟨hhanded, hshort⟩ := T.handed_eq (c := { T.receive (accept secret id s) chunks with
      client := { (T.receive (accept secret id s) chunks).client with
        recvBuffer := (T.receive (accept secret id s) chunks).client.recvBuffer ++ data } })
      (hstand.append data)
    have hreceive : T.receive (accept secret id s) (chunks ++ [data]) =
        T.onData data (T.receive (accept secret id s) chunks) := List.foldl_append
    rw [hreceive, handedAll_snoc, ih.1, hhanded]
    refine ⟨?_, hshort⟩
    unfold frames
    rw [List.flatten_append, List.flatten_singleton,
      messageFormat.split_append chunks.flatten data, List.map_append]

/-- Two connections that agree in what they keep and in everything else are the same. -/
theorem eq_of_settled {c c' : Connection σ} (h : settled c = settled c')
    (hp : (c.client.receivedHeader, c.client.recvBuffer) =
      (c'.client.receivedHeader, c'.client.recvBuffer)) : c = c' := by
  obtain ⟨⟨id, secret, authed, buf, header, written⟩, state, calls⟩ := c
  obtain ⟨⟨id', secret', authed', buf', header', written'⟩, state', calls'⟩ := c'
  simp only [settled, settledClient, Connection.mk.injEq, UvClient.mk.injEq, Prod.mk.injEq] at h hp ⊢
  tauto

/-- The bytes a client has written after a list of messages. -/
def writtenBytes (o : ByteOrder) (c : UvClient) (msgs : List Message) : List UInt8 :=
  (msgs.foldl (fun c m => c.writeMessage o m.1 m.2) c).written.flatten

theorem writtenBytes_eq (o : ByteOrder) (secret : List UInt8) (id : ClientId)
    (msgs : List Message) : writtenBytes o (.new secret id) msgs =
      msgs.flatMap fun m => frameBytes o m.1 m.2 := by
  have hwritten : ∀ c : UvClient, writtenBytes o c msgs =
      c.written.flatten ++ msgs.flatMap fun m => frameBytes o m.1 m.2 := by
    unfold writtenBytes
    induction msgs with
    | nil => simp
    | cons m msgs ih =>
      intro c
      rw [List.foldl_cons, ih]
      simp [UvClient.writeMessage]
  exact hwritten _

theorem length_writtenBytes (o : ByteOrder) (secret : List UInt8) (id : ClientId)
    (msgs : List Message) : (writtenBytes o (.new secret id) msgs).length =
      (msgs.map fun m => (sizeofMessageHeader + m.2.length) % 2 ^ 32).sum := by
  rw [writtenBytes_eq, List.length_flatMap]
  exact congrArg (fun f => (msgs.map f).sum) (funext fun m => length_frameBytes o m)

/-- The decoder undoes the encoder for these messages.  What `writeMessage` writes for them is handed
on as the same list, however it is cut into chunks, and nothing is left over; and a part of it that has
arrived is handed on as the first messages of the list. -/
structure Undoes (o : ByteOrder) (secret secret' : List UInt8) (id id' : ClientId) (s : σ)
    (msgs : List Message) : Prop where
  whole : ∀ chunks, chunks.flatten = writtenBytes o (.new secret' id') msgs →
    T.handedAll (accept secret id s) chunks = msgs ∧
      (T.receive (accept secret id s) chunks).client.recvBuffer = [] ∧
      (T.receive (accept secret id s) chunks).client.receivedHeader = none
  part : ∀ chunks, chunks.flatten <+: writtenBytes o (.new secret' id') msgs →
    T.handedAll (accept secret id s) chunks <+: msgs

section Undoes

variable {T} {o : ByteOrder} {secret secret' : List UInt8} {id id' : ClientId} {s : σ}
  {msgs : List Message}

theorem undoes_of_lt (h : ∀ m ∈ msgs, sizeofMessageHeader + m.2.length < 2 ^ 32) :
    T.Undoes o secret secret' id id' s msgs := by
  have hwritten : writtenBytes o (.new secret' id') msgs =
      (msgs.map frameOf).flatMap (encodeFrame o) := by
    rw [writtenBytes_eq, List.flatMap_map]
    exact List.flatMap_congr fun m hm => frameBytes_eq o (h m hm)
  -- the frames of what was written are the messages, and nothing is left
  have hsplit : messageFormat.split (writtenBytes o (.new secret' id') msgs) =
      (msgs.map frameOf, []) := by
    rw [hwritten]
    refine messageFormat.split_flatMap fun f hf => ?_
    obtain ⟨m, hm, rfl⟩ := List.mem_map.1 hf
    exact decodes_frameOf o (lt_of_le_of_lt (Nat.le_add_left ..) (h m hm))
  have hmessages : (msgs.map frameOf).map messageOf = msgs := by
    rw [List.map_map]
    exact List.map_id' msgs
  refine ⟨fun chunks heq => ?_, fun chunks hpre => ?_⟩
  · obtain ⟨hhanded, hshort⟩ := T.handedAll_eq secret id s chunks
    have hstand := (T.receive_eq secret id s chunks).1
    have hstate := parserState_of_standsAt hstand hshort
    rw [heq, hsplit] at hstate
    rw [hhanded, heq]
    unfold frames
    rw [hsplit]
    exact ⟨hmessages, congrArg Prod.snd hstate, congrArg Prod.fst hstate⟩
  · have hfirst := (messageFormat.split_prefix hpre).map messageOf
    rw [hsplit, hmessages] at hfirst
    rw [(T.handedAll_eq secret id s chunks).1]
    exact hfirst

/-- The messages that come out take as many bytes as all of `data_to_write`, so that none may have been
written in part. -/
theorem Undoes.lt (h : T.Undoes o secret secret' id id' s msgs) :
    ∀ m ∈ msgs, sizeofMessageHeader + m.2.length < 2 ^ 32 := by
  have hhanded := (h.whole [writtenBytes o (.new secret' id') msgs] (List.flatten_singleton ..)).1
  rw [(T.handedAll_eq secret id s _).1, List.flatten_singleton] at hhanded
  have hbytes := congrArg List.length (messageFormat.flatMap_split
    (fun _ _ _ h => next_encode o h) (writtenBytes o (.new secret' id') msgs))
  have hframes : ((frames (writtenBytes o (.new secret' id') msgs)).flatMap (encodeFrame o)).length =
      (msgs.map fun m => sizeofMessageHeader + m.2.length).sum := by
    calc
      _ = ((frames _).map fun f => (encodeFrame o f).length).sum := List.length_flatMap
      _ = ((frames _).map fun f => sizeofMessageHeader + f.body.length).sum :=
        congrArg (fun g => ((frames _).map g).sum) (funext (length_encodeFrame o))
      _ = (((frames _).map messageOf).map fun m => sizeofMessageHeader + m.2.length).sum := by
        rw [List.map_map]
        rfl
      _ = _ := by rw [hhanded]
  have hle : (msgs.map fun m => sizeofMessageHeader + m.2.length).sum ≤
      (msgs.map fun m => (sizeofMessageHeader + m.2.length) % 2 ^ 32).sum := by
    rw [List.length_append, length_writtenBytes] at hbytes
    rw [← hframes, ← hbytes]
    exact Nat.le_add_right ..
  intro m hm
  by_contra hlong
  refine absurd hle (Nat.not_le.2 (List.sum_lt_sum _ _ (fun m _ => Nat.mod_le ..) ⟨m, hm, ?_⟩))
  exact (Nat.mod_lt _ (Nat.two_pow_pos 32)).trans_le (Nat.not_lt.1 hlong)

end Undoes

/-- libbson and a callback that do nothing, on a big-endian host. -/
def silent : Transport Unit := ⟨.big, ⟨fun _ => none, fun _ => []⟩, fun _ _ _ s => (none, s)⟩

/-- Two messages of a little-endian host, the second without a body, in three chunks that cut both
headers, on a big-endian host. -/
example : silent.handedAll (accept [] 0 ())
    [[0, 0, 0], [1, 0, 0, 0, 1, 5, 0, 0, 0, 2, 0], [0, 0, 0]] = [(1, [5]), (2, [])] := by
  have hundoes : silent.Undoes .little [] [] 0 0 () [(1, [5]), (2, [])] := undoes_of_lt (by decide)
  exact (hundoes.whole _ (by decide)).1

end Transport

end Draconity

import Draconity.Pause
import Draconity.Receive

/-!
The gate of a connection: `handle_message` is not called before a frame authenticates.

`Authenticates` says in terms of the elements of a message when it authenticates; `handleAuth` loops
over them and compares the secrets byte by byte.
-/

namespace Draconity

open Lib

/-! ### Which messages authenticate -/

/-- A string, as a reader of its `char *` sees it. -/
def Value.cstring : Value → Option CString
  | .utf8 b => some (.ofBytes b)
  | _ => none

def lastString (key : CString) (es : Elements) : Option CString :=
  (es.filterMap fun e => if e.1 = key then e.2.cstring else none).getLast?

/-- The message is an `auth` with the configured secret, and a secret is configured. -/
def Authenticates (bson : Bson) (secret msg : List UInt8) : Prop :=
  secret ≠ [] ∧ ∃ es, bson.read msg = some es ∧ lastString (.lit "cmd") es = some (.lit "auth") ∧
    (lastString (.lit "secret") es).map CString.bytes = some secret

theorem lastString_snoc (key : CString) (es : Elements) (e : CString × Value) :
    lastString key (es ++ [e]) =
      (if e.1 = key then e.2.cstring else none).or (lastString key es) := by
  unfold lastString
  rw [List.filterMap_append, List.getLast?_append]
  cases h : (if e.1 = key then e.2.cstring else none) <;> simp [h]

/-- The locals `cmd` and `secret` end up as the last strings of these keys. -/
theorem foldl_authField (es : Elements) (p : CString × CString) :
    es.foldl authField p =
      ((lastString (.lit "cmd") es).getD p.1, (lastString (.lit "secret") es).getD p.2) := by
  induction es using List.reverseRecOn with
  | nil => rfl
  | append_singleton es e ih =>
    rw [List.foldl_append, ih, lastString_snoc, lastString_snoc]
    obtain ⟨key, value⟩ := e
    have hne : CString.lit "cmd" ≠ CString.lit "secret" := by decide
    cases value with
    | utf8 b =>
      by_cases hcmd : key = .lit "cmd"
      · subst hcmd
        simp [authField, Value.cstring, hne]
      · by_cases hsecret : key = .lit "secret"
        · subst hsecret
          simp [authField, Value.cstring, hne.symm]
        · simp [authField, hcmd, hsecret]
    | bool _ | int32 _ | int64 _ | array _ _ | document _ _ | binary _ | other =>
      simp [authField, Value.cstring]

theorem toInt8_toInt32_inj {a b : UInt8} : a.toInt8.toInt32 = b.toInt8.toInt32 ↔ a = b := by
  refine ⟨fun h => ?_, fun h => h ▸ rfl⟩
  have h8 : a.toInt8 = b.toInt8 := by
    rw [← Int8.toInt_inj, ← Int8.toInt_toInt32, ← Int8.toInt_toInt32, h]
  rw [← UInt8.toUInt8_toInt8 a, h8, UInt8.toUInt8_toInt8]

/-- The comparison of secrets of one size finds every difference. -/
theorem secretDiff_eq_zero {a b : List UInt8} (hl : a.length = b.length) :
    secretDiff a b = 0 ↔ a = b := by
  have hfold : ∀ (a b : List UInt8) (d : Int32), a.length = b.length →
      ((List.zipWith (fun a b => a.toInt8.toInt32 ^^^ b.toInt8.toInt32) a b).foldl
        (fun diff x => diff ||| x) d = 0 ↔ d = 0 ∧ a = b) := by
    intro a
    induction a with
    | nil =>
      intro b d hl
      obtain rfl := List.length_eq_zero_iff.1 hl.symm
      simp
    | cons x a ih =>
      intro b d hl
      cases b with
      | nil => cases hl
      | cons y b =>
        rw [List.zipWith_cons_cons, List.foldl_cons, ih b _ (Nat.succ.inj hl),
          Int32.or_eq_zero_iff, Int32.xor_eq_zero_iff, toInt8_toInt32_inj, List.cons.injEq, and_assoc]
  exact (hfold a b 0 hl).trans (and_iff_right rfl)

/-- The check of the secret, from the local `secret` that starts empty. -/
theorem secret_matches (o : Option CString) (secret : List UInt8) :
    ((o.getD (.lit "")).bytes.length = secret.length ∧ secret ≠ [] ∧
      secretDiff (o.getD (.lit "")).bytes secret = 0) ↔
      secret ≠ [] ∧ o.map CString.bytes = some secret := by
  have hempty : (CString.lit "").bytes = [] := by decide
  cases o with
  | none =>
    rw [Option.getD_none, hempty]
    constructor
    · rintro ⟨hl, hne, -⟩
      exact absurd (List.length_eq_zero_iff.1 hl.symm) hne
    · rintro ⟨-, hn⟩
      cases hn
  | some v =>
    rw [Option.getD_some, Option.map_some, Option.some.injEq]
    constructor
    · rintro ⟨hl, hne, hd⟩
      exact ⟨hne, (secretDiff_eq_zero hl).1 hd⟩
    · rintro ⟨hne, rfl⟩
      exact ⟨rfl, hne, (secretDiff_eq_zero rfl).2 rfl⟩

theorem cmd_matches (o : Option CString) : o.getD (.lit "") = .lit "auth" ↔ o = some (.lit "auth") := by
  have hne : CString.lit "" ≠ .lit "auth" := by decide
  cases o with
  | none => simp [hne]
  | some v => simp

/-- `handleAuth` lets in exactly what authenticates. -/
theorem handleAuth_authed (bson : Bson) (msg : List UInt8) (c : UvClient) :
    (c.handleAuth bson msg).2.authed = true ↔
      c.authed = true ∨ Authenticates bson c.secret msg := by
  unfold UvClient.handleAuth Authenticates
  cases hmsg : bson.read msg with
  | none => simp
  | some es =>
    have hspec : (c.secret ≠ [] ∧ ∃ es', some es = some es' ∧
        lastString (.lit "cmd") es' = some (.lit "auth") ∧
        (lastString (.lit "secret") es').map CString.bytes = some c.secret) ↔
        lastString (.lit "cmd") es = some (.lit "auth") ∧ c.secret ≠ [] ∧
          (lastString (.lit "secret") es).map CString.bytes = some c.secret := by
      constructor
      · rintro ⟨hne, _, ⟨⟩, hcmd, hsecret⟩
        exact ⟨hcmd, hne, hsecret⟩
      · rintro ⟨hcmd, hne, hsecret⟩
        exact ⟨hne, es, rfl, hcmd, hsecret⟩
    rw [hspec, ← cmd_matches, ← secret_matches]
    dsimp only
    rw [foldl_authField]
    split_ifs with hcmd hsecret
    · exact iff_of_true rfl (.inr ⟨hcmd, hsecret⟩)
    · exact (or_iff_left fun h => hsecret h.2).symm
    · exact (or_iff_left fun h => hcmd h.1).symm

/-! ### The gate -/

namespace Transport

variable {σ : Type*} (T : Transport σ) {c : Connection σ}

/-- A frame of a client that is not authenticated is answered, and goes no further. -/
theorem handleFrame_of_not_authed (h : c.client.authed = false) (f : Frame UInt8 MessageHeader) :
    (T.handleFrame c f).calls = c.calls ∧ (T.handleFrame c f).state = c.state ∧
      ∃ reply, (T.handleFrame c f).client.written =
        c.client.written ++ [frameBytes T.byteOrder f.header.tid reply] := by
  obtain ⟨authed, hauth⟩ := c.client.handleAuth_client T.bson f.body
  unfold handleFrame handleMessage
  rw [if_pos h]
  refine ⟨rfl, rfl, T.bson.write (c.client.handleAuth T.bson f.body).1, ?_⟩
  dsimp only [UvClient.respond, UvClient.writeMessage]
  rw [hauth]

/-- A frame of a client that is authenticated goes to `handle_message`. -/
theorem handleFrame_of_authed (h : c.client.authed = true) (f : Frame UInt8 MessageHeader) :
    (T.handleFrame c f).calls = c.calls ++ [(f.header.tid, f.body)] ∧
      (T.handleFrame c f).state = (T.callback c.client.id f.header.tid f.body c.state).2 := by
  unfold handleFrame handleMessage
  rw [if_neg (by simp [h])]
  exact ⟨rfl, rfl⟩

theorem handleFrame_client (c : Connection σ) (f : Frame UInt8 MessageHeader) :
    (T.handleFrame c f).client.secret = c.client.secret ∧
      (T.handleFrame c f).client.id = c.client.id ∧
      ((T.handleFrame c f).client.authed = true ↔
        c.client.authed = true ∨ Authenticates T.bson c.client.secret f.body) := by
  unfold handleFrame handleMessage
  by_cases h : c.client.authed = false
  · rw [if_pos h]
    have hauth := handleAuth_authed T.bson f.body c.client
    obtain ⟨authed, hclient⟩ := c.client.handleAuth_client T.bson f.body
    dsimp only [UvClient.respond, UvClient.writeMessage]
    rw [hclient] at hauth ⊢
    exact ⟨rfl, rfl, hauth⟩
  · rw [if_neg h]
    have hauthed : c.client.authed = true := by simpa using h
    dsimp only
    cases (T.callback c.client.id f.header.tid f.body c.state).1 <;>
      exact ⟨rfl, rfl, iff_of_true hauthed (.inl hauthed)⟩

/-- A client is authenticated after some frames when it was before, or when one of them
authenticates: nothing revokes it. -/
theorem foldl_handleFrame_client (fs : List (Frame UInt8 MessageHeader)) (c : Connection σ) :
    (fs.foldl T.handleFrame c).client.secret = c.client.secret ∧
      (fs.foldl T.handleFrame c).client.id = c.client.id ∧
      ((fs.foldl T.handleFrame c).client.authed = true ↔
        c.client.authed = true ∨ ∃ f ∈ fs, Authenticates T.bson c.client.secret f.body) := by
  induction fs generalizing c with
  | nil => simp
  | cons f fs ih =>
    obtain ⟨h₁, h₂, h₃⟩ := T.handleFrame_client c f
    obtain ⟨ih₁, ih₂, ih₃⟩ := ih (T.handleFrame c f)
    rw [List.foldl_cons]
    refine ⟨ih₁.trans h₁, ih₂.trans h₂, ih₃.trans ?_⟩
    rw [h₃, h₁]
    simp only [List.exists_mem_cons_iff, or_assoc]

/-- Frames that do not authenticate do not get past the gate. -/
theorem foldl_handleFrame_of_none {fs : List (Frame UInt8 MessageHeader)}
    (h : c.client.authed = false)
    (hno : ∀ f ∈ fs, ¬ Authenticates T.bson c.client.secret f.body) :
    (fs.foldl T.handleFrame c).calls = c.calls ∧ (fs.foldl T.handleFrame c).state = c.state := by
  induction fs generalizing c with
  | nil => exact ⟨rfl, rfl⟩
  | cons f fs ih =>
    obtain ⟨hcalls, hstate, -⟩ := T.handleFrame_of_not_authed h f
    obtain ⟨hsecret, -, hauthed⟩ := T.handleFrame_client c f
    have hstill : (T.handleFrame c f).client.authed = false := by
      rw [← Bool.not_eq_true, hauthed, h]
      exact fun hor => hor.elim nofun (hno f (List.mem_cons_self ..))
    obtain ⟨ih₁, ih₂⟩ := ih hstill fun g hg => hsecret ▸ hno g (List.mem_cons_of_mem _ hg)
    exact ⟨ih₁.trans hcalls, ih₂.trans hstate⟩

/-- The connection when its first `k` frames were handled. -/
def after (secret : List UInt8) (id : ClientId) (s : σ) (fs : List (Frame UInt8 MessageHeader))
    (k : ℕ) : Connection σ := (fs.take k).foldl T.handleFrame (accept secret id s)

theorem after_succ {secret : List UInt8} {id : ClientId} {s : σ}
    {fs : List (Frame UInt8 MessageHeader)} {k : ℕ} {f : Frame UInt8 MessageHeader}
    (hf : fs[k]? = some f) :
    T.after secret id s fs (k + 1) = T.handleFrame (T.after secret id s fs k) f := by
  unfold after
  rw [List.take_add_one, hf, List.foldl_append]
  rfl

theorem after_authed (secret : List UInt8) (id : ClientId) (s : σ)
    (fs : List (Frame UInt8 MessageHeader)) (k : ℕ) :
    (T.after secret id s fs k).client.authed = true ↔
      ∃ f ∈ fs.take k, Authenticates T.bson secret f.body := by
  refine (T.foldl_handleFrame_client (fs.take k) (accept secret id s)).2.2.trans ?_
  exact or_iff_right fun h => absurd h nofun

/-- The callback is `handle_message`, and a reply is sent as `encode` has it. -/
def Serves (T : Transport State) (E : Env) (encode : Reply → List UInt8) : Prop :=
  ∀ c tid msg s, ∃ found, T.callback c tid msg s =
    ((Draconity.handleMessage E c tid (T.bson.read msg) found s).1.map encode,
      (Draconity.handleMessage E c tid (T.bson.read msg) found s).2)

/-- The event is the call of `handle_message` for the client. -/
def IsCall (bson : Bson) (id : ClientId) (call : UInt32 × List UInt8) (e : Event) : Prop :=
  ∃ found, e = .message id call.1 (bson.read call.2) found

theorem message_clients (E : Env) (c : ClientId) (tid : UInt32) (msg : Option Elements)
    (found : Found) (s : State) :
    (step E s (.message c tid msg found)).clients = s.clients := by
  rcases handleMessage_barrier E c tid msg found s with ⟨_, -, -, -, hb⟩ | ⟨-, hb⟩
  · exact (congrArg Barrier.members hb).trans (Barrier.strike_members ..)
  · exact congrArg Barrier.members hb

variable {T : Transport State} {E : Env} {encode : Reply → List UInt8}

theorem foldl_handleFrame_run (hT : T.Serves E encode) (fs : List (Frame UInt8 MessageHeader))
    {c : Connection State} (hid : c.client.id ∈ c.state.clients) :
    ∃ called es, (fs.foldl T.handleFrame c).calls = c.calls ++ called ∧
      (eventLoop E).Run c.state es ∧
      (eventLoop E).exec c.state es = (fs.foldl T.handleFrame c).state ∧
      List.Forall₂ (IsCall T.bson c.client.id) called es := by
  induction fs generalizing c with
  | nil => exact ⟨[], [], by simp, trivial, rfl, .nil⟩
  | cons f fs ih =>
    have hclient := (T.handleFrame_client c f).2.1
    -- a frame before the secret takes no event, and one after it takes a message
    cases hauthed : c.client.authed with
    | false =>
      obtain ⟨hcalls, hstate, -⟩ := T.handleFrame_of_not_authed hauthed f
      obtain ⟨called, es, h₁, h₂, h₃, h₄⟩ := ih (c := T.handleFrame c f) (by rwa [hclient, hstate])
      rw [hcalls] at h₁
      rw [hstate] at h₂ h₃
      rw [hclient] at h₄
      exact ⟨called, es, h₁, h₂, h₃, h₄⟩
    | true =>
      obtain ⟨hcalls, hstate⟩ := T.handleFrame_of_authed hauthed f
      obtain ⟨found, hcallback⟩ := hT c.client.id f.header.tid f.body c.state
      have hstep : (T.handleFrame c f).state = step E c.state
          (.message c.client.id f.header.tid (T.bson.read f.body) found) := by
        rw [hstate, hcallback]
        rfl
      obtain ⟨called, es, h₁, h₂, h₃, h₄⟩ := ih (c := T.handleFrame c f) (by
        rwa [hclient, hstep, message_clients])
      rw [hcalls, List.append_assoc] at h₁
      rw [hstep] at h₂ h₃
      rw [hclient] at h₄
      exact ⟨_ :: called, .message c.client.id f.header.tid (T.bson.read f.body) found :: es, h₁,
        ⟨hid, h₂⟩, h₃, .cons ⟨found, rfl⟩ h₄⟩

/-- **What is received on a connection is a run of the event loop**, one message for each call of
`handle_message`. -/
theorem receive_run (hT : T.Serves E encode) (secret : List UInt8) {id : ClientId} {s : State}
    (hid : id ∈ s.clients) (chunks : List (List UInt8)) :
    ∃ es, (eventLoop E).Run s es ∧
      (eventLoop E).exec s es = (T.receive (accept secret id s) chunks).state ∧
      List.Forall₂ (IsCall T.bson id) (T.receive (accept secret id s) chunks).calls es := by
  have hsettled := (T.receive_eq secret id s chunks).2
  obtain ⟨called, es, hcalls, hrun, hexec, hcall⟩ :=
    foldl_handleFrame_run hT (frames chunks.flatten) (c := accept secret id s) hid
  rw [← hsettled] at hcalls hexec
  exact ⟨es, hrun, hexec, (show (settled _).calls = called from hcalls) ▸ hcall⟩

end Transport

end Draconity

import Draconity.Commands
import Draconity.Unauthenticated

/-!
Whose transaction a message to one client is about.

The state owes answers to the pending updates of grammars, to the words of each client and to the
mimics.  Each of them is for a transaction of the client that is answered, since it was recorded with
the request, so that no connection is written the answer to a request that it did not send.
-/

namespace Draconity

open Lib

variable {E : Env} {K : ClientId → UInt32 → Prop} {s s' s'' : State} {c : ClientId} {tid : UInt32}
  {f : Fields} {cmd : CString}

/-- The answers the state owes are to transactions with the property. -/
structure Owes (K : ClientId → UInt32 → Prop) (s : State) : Prop where
  shadowGrammars : ∀ n shadow, s.shadowGrammars.lookup n = some shadow →
    K shadow.clientId shadow.tid
  shadowWords : ∀ c w, s.shadowWords.lookup c = some w → K c w.lastTid.toUInt32
  mimicQueue : ∀ p ∈ s.mimicQueue, K p.1 p.2

theorem owes_init (token : UInt64) : Owes K (State.init token) := ⟨nofun, nofun, nofun⟩

theorem Owes.imp {K' : ClientId → UInt32 → Prop} (h : Owes K s) (hK : ∀ c tid, K c tid → K' c tid) :
    Owes K' s :=
  ⟨fun n shadow hn => hK _ _ (h.shadowGrammars n shadow hn), fun c w hc => hK _ _ (h.shadowWords c w hc),
    fun p hp => hK _ _ (h.mimicQueue p hp)⟩

/-- A message to one client is about a transaction with the property. -/
def Issued.About (K : ClientId → UInt32 → Prop) : Issued → Prop
  | .publish _ => True
  | .send _ tid c => K c tid

/-- What is owed stays so, and only what is owed is answered. -/
def Honours (K : ClientId → UInt32 → Prop) (s s' : State) : Prop :=
  Owes K s → Owes K s' ∧ Issues (Issued.About K) s s'

namespace Honours

theorem refl (s : State) : Honours K s s := fun h => ⟨h, .refl s⟩

theorem trans (h : Honours K s s') (h' : Honours K s' s'') : Honours K s s'' := by
  intro hs
  obtain ⟨hs', hissues⟩ := h hs
  obtain ⟨hs'', hissues'⟩ := h' hs'
  exact ⟨hs'', hissues.trans hissues'⟩

theorem of_eq (hshadow : s'.shadowGrammars = s.shadowGrammars)
    (hwords : s'.shadowWords = s.shadowWords) (hmimics : s'.mimicQueue = s.mimicQueue)
    (hissued : s'.issued = s.issued) : Honours K s s' :=
  fun h => ⟨⟨hshadow ▸ h.shadowGrammars, hwords ▸ h.shadowWords, hmimics ▸ h.mimicQueue⟩,
    .of_eq hissued⟩

theorem publish (p : Payload) (s : State) : Honours K s (s.issue (.publish p)) :=
  fun h => ⟨⟨h.shadowGrammars, h.shadowWords, h.mimicQueue⟩,
    .issue (i := .publish p) trivial s⟩

end Honours

/-! ### Syncs and updates -/

theorem syncState_honours (s : State) : Honours K s (syncState E s) := by
  intro h
  refine ⟨⟨nofun, fun c w hw => ?_, ?_⟩, syncState_issues s
    (fun n shadow hn _ _ => h.shadowGrammars n shadow hn) fun c w hw _ _ => h.shadowWords c w hw⟩
  · have hrecord := (syncState_wordRecord E s c).trans (syncWords_record E s c)
    have hlookup : (syncState E s).shadowWords.lookup c = _ := congrArg Prod.fst hrecord
    rw [hlookup] at hw
    cases hold : s.shadowWords.lookup c with
    | none =>
      rw [hold] at hw
      cases hw
    | some old =>
      -- a sync changes the words of an entry, and not its transaction
      rw [hold] at hw
      cases hw
      exact h.shadowWords c old hold
  · rw [(syncState_sameMimics s).queue]
    exact h.mimicQueue

theorem setShadowGrammar_honours (n : CString) {shadow : GrammarState}
    (hK : K shadow.clientId shadow.tid) (s : State) :
    Honours K s (setShadowGrammar n shadow s) := by
  intro h
  refine ⟨⟨fun k sh hk => ?_, ?_, ?_⟩, ?_⟩
  · rw [lookup_setShadowGrammar] at hk
    split_ifs at hk
    · cases hk
      exact hK
    · exact h.shadowGrammars k sh hk
  · rw [(setShadowGrammar_sameWords n shadow s).shadowWords]
    exact h.shadowWords
  · rw [(setShadowGrammar_sameMimics n shadow s).queue]
    exact h.mimicQueue
  · unfold setShadowGrammar
    cases hn : s.shadowGrammars.lookup n with
    | none => exact .of_eq rfl
    | some skipped =>
      have hskip : Issued.About K (.send (.gset n .skipped []) skipped.tid skipped.clientId) :=
        h.shadowGrammars n skipped hn
      exact (Issues.issue hskip s).trans (.of_eq rfl)

theorem setShadowWords_honours (hK : K c tid) (ws : OrdSet CString) (s : State) :
    Honours K s (setShadowWords c tid ws s) := by
  intro h
  refine ⟨⟨?_, fun b w hw => ?_, ?_⟩, ?_⟩
  · rw [(setShadowWords_sameGrammars c tid ws s).shadowGrammars]
    exact h.shadowGrammars
  · rw [lookup_setShadowWords] at hw
    split_ifs at hw with hb
    · cases hw
      rw [hb]
      simpa using hK
    · exact h.shadowWords b w hw
  · rw [(setShadowWords_sameMimics ws s).queue]
    exact h.mimicQueue
  · unfold setShadowWords
    cases hw : s.shadowWords.lookup c with
    | none => exact .of_eq rfl
    | some w =>
      dsimp only
      split_ifs
      · have hskip : Issued.About K (.send (.wset .skipped []) w.lastTid.toUInt32 c) :=
          h.shadowWords c w hw
        exact (Issues.issue hskip s).trans (.of_eq rfl)
      · exact .of_eq rfl

theorem acceptGrammar_honours (n : CString) {shadow : GrammarState}
    (hK : K shadow.clientId shadow.tid) (s : State) :
    Honours K s (acceptGrammar E n shadow s) := by
  have h := setShadowGrammar_honours n hK s
  rw [acceptGrammar_eq]
  split_ifs
  · exact h
  · exact h.trans (syncState_honours _)

/-- The unloads that a disconnect queues are the client's, with transactions that are not set. -/
theorem clearClientState_honours (hK : ∀ tid, K c tid) (stack : CString → UInt32) (s : State) :
    Honours K s (clearClientState c stack s) := by
  refine fun h => ⟨⟨fun n shadow hn => ?_, fun b w hw => ?_, h.mimicQueue⟩, .of_eq rfl⟩
  · obtain ⟨howns, hnot⟩ := lookup_clearClientState c stack s n
    by_cases ho : s.Owns c n
    · rw [howns ho] at hn
      cases hn
      exact hK (stack n)
    · exact h.shadowGrammars n shadow ((hnot ho).symm.trans hn)
  · rw [lookup_shadowWords_clearClientState] at hw
    split_ifs at hw with hb
    · exact hb ▸ hK _
    · exact h.shadowWords b w hw

theorem doUnpause_honours (s : State) : Honours K s (doUnpause E s) := by
  unfold doUnpause
  split_ifs
  · exact .of_eq rfl rfl rfl rfl
  · exact .refl s

theorem clientUnpause_honours (c : ClientId) (token : UInt64) (s : State) :
    Honours K s (clientUnpause E c token s) := by
  have h : Honours K s { s with pauseClients := s.pauseClients.erase c } := .of_eq rfl rfl rfl rfl
  unfold clientUnpause
  dsimp only
  split_ifs
  · exact h.trans (doUnpause_honours _)
  · exact h
  · exact .refl s

theorem draconityReady_honours (s : State) : Honours K s (draconityReady E s) := by
  unfold draconityReady
  split_ifs
  · exact .refl s
  · exact (Honours.publish _ s).trans (.of_eq rfl rfl rfl rfl)

theorem engineAcquire_honours (found : Found) (s : State) :
    Honours K s (engineAcquire E found s) :=
  engineAcquire_rel .refl .trans .publish draconityReady_honours found s

/-! ### Requests -/

theorem dispatch_honours (hK : K c tid) (f : Fields) (found : Found) (s : State) :
    Honours K s (dispatch E c tid f found s).2 := by
  have h := dispatch_performs E c tid f found s
  generalize (dispatch E c tid f found s).2 = s' at h
  cases h with
  | nothing => exact .refl s
  | ready => exact draconityReady_honours s
  | words ws => exact setShadowWords_honours hK ws s
  | grammar name shadow _ _ hclient htid =>
    exact acceptGrammar_honours name (by rwa [hclient, htid]) s
  | setMicState found code => exact (engineAcquire_honours found s).trans (.of_eq rfl rfl rfl rfl)
  | mimicFailed phrase => exact .of_eq rfl rfl rfl rfl
  | unpause => exact clientUnpause_honours c _ s
  | mimic phrase =>
    refine fun h => ⟨⟨h.shadowGrammars, h.shadowWords, fun p hp => ?_⟩, .of_eq rfl⟩
    rcases List.mem_append.1 hp with hp | hp
    · exact h.mimicQueue p hp
    · rw [List.mem_singleton.1 hp]
      exact hK

theorem handleMessage_honours (hK : K c tid) (msg : Option Elements) (found : Found) (s : State) :
    Honours K s (handleMessage E c tid msg found s).2 := by
  cases msg with
  | none => exact .refl s
  | some root => exact (dispatch_honours hK (.ofRoot root) found s).trans (.publish _ _)

/-! ### Events -/

/-- The transactions that an event brings up; a mimic-done callback does what it reads where the entry
was that it has popped. -/
def Event.Brings (K : ClientId → UInt32 → Prop) : Event → Prop
  | .message c tid _ _ => K c tid
  | .close c _ => ∀ tid, K c tid
  | .mimicDone stale => ∀ p ∈ stale, K p.1 p.2
  | .connect | .paused _ | .timer | .ready => True

/-- **Only transactions are answered that are owed or that the event brings up.** -/
theorem step_honours {e : Event} (he : e.Brings K) (s : State) : Honours K s (step E s e) := by
  cases e with
  | connect => exact .of_eq rfl rfl rfl rfl
  | close c stack =>
    have hdrop : Honours K s (s.dropClient c) := .of_eq rfl rfl rfl rfl
    have h := hdrop.trans (clearClientState_honours he stack _)
    by_cases h0 : s.pauseToken = 0
    · rw [step, handleClose_of_not_paused h0]
      exact h
    · rw [step, handleClose_of_paused h0]
      exact (h.trans (syncState_honours _)).trans (clientUnpause_honours _ _ _)
  | message c tid msg found => exact handleMessage_honours he msg found s
  | paused token =>
    have htoken : Honours K s { s with pauseToken := token } := .of_eq rfl rfl rfl rfl
    have h := htoken.trans (syncState_honours (E := E) _)
    show Honours K s (handlePause E token s)
    rw [handlePause_eq]
    unfold afterPauseSync
    split_ifs
    · exact h.trans (doUnpause_honours _)
    · generalize syncState E { s with pauseToken := token } = m at h
      have hawait : Honours K m
          { m with pauseClients := m.clients.foldl (fun p c => p.insert c) m.pauseClients } :=
        .of_eq rfl rfl rfl rfl
      exact ((h.trans hawait).trans (.publish _ _)).trans (.of_eq rfl rfl rfl rfl)
  | timer =>
    have h : Honours K s { s with pauseTimer := false } := .of_eq rfl rfl rfl rfl
    exact h.trans (doUnpause_honours _)
  | ready => exact draconityReady_honours s
  | mimicDone stale =>
    show Honours K s (draconityMimicDone stale s)
    unfold draconityMimicDone
    cases hq : s.mimicQueue with
    | nil => exact .refl s
    | cons p q =>
      intro h
      -- the answer is to the entry, or to what was read in its place
      have hp : Issued.About K (.send .mimic (stale.getD p).2 (stale.getD p).1) := by
        cases stale with
        | none => exact h.mimicQueue p (hq ▸ List.mem_cons_self ..)
        | some r => exact he r rfl
      exact ⟨⟨h.shadowGrammars, h.shadowWords,
        fun r hr => h.mimicQueue r (hq ▸ List.mem_cons_of_mem _ hr)⟩,
        .issue hp { s with mimicQueue := q }⟩

/-! ### Frames of a connection -/

namespace Transport

variable {T : Transport State} {encode : Reply → List UInt8}

/-- The frames of a connection bring up its own transactions. -/
theorem foldl_handleFrame_honours (hT : T.Serves E encode) (fs : List (Frame UInt8 MessageHeader))
    {k : Connection State} (hK : ∀ f ∈ fs, K k.client.id f.header.tid) :
    Honours K k.state (fs.foldl T.handleFrame k).state := by
  induction fs generalizing k with
  | nil => exact .refl k.state
  | cons f fs ih =>
    have hid : (T.handleFrame k f).client.id = k.client.id := (T.handleFrame_client k f).2.1
    have hrest := ih (k := T.handleFrame k f) fun g hg => by
      rw [hid]
      exact hK g (List.mem_cons_of_mem _ hg)
    refine Honours.trans ?_ hrest
    cases hauthed : k.client.authed with
    | false =>
      rw [(T.handleFrame_of_not_authed hauthed f).2.1]
      exact .refl k.state
    | true =>
      obtain ⟨found, hcallback⟩ := hT k.client.id f.header.tid f.body k.state
      rw [(T.handleFrame_of_authed hauthed f).2, hcallback]
      exact handleMessage_honours (hK f (List.mem_cons_self ..)) _ found k.state

/-- What is written in reply to a frame has the transaction of the frame. -/
theorem handleFrame_written {σ : Type*} (T : Transport σ) (k : Connection σ)
    (f : Frame UInt8 MessageHeader) :
    ∃ new, (T.handleFrame k f).client.written = k.client.written ++ new ∧
      ∀ b ∈ new, ∃ msg, b = frameBytes T.byteOrder f.header.tid msg := by
  have one : ∀ msg, ∀ b ∈ [frameBytes T.byteOrder f.header.tid msg],
      ∃ msg, b = frameBytes T.byteOrder f.header.tid msg :=
    fun msg b hb => ⟨msg, List.mem_singleton.1 hb⟩
  unfold Transport.handleFrame Transport.handleMessage
  split_ifs
  · obtain ⟨authed, hclient⟩ := k.client.handleAuth_client T.bson f.body
    dsimp only [UvClient.respond, UvClient.writeMessage]
    rw [hclient]
    exact ⟨_, rfl, one _⟩
  · dsimp only
    cases (T.callback k.client.id f.header.tid f.body k.state).1 with
    | none => exact ⟨[], (List.append_nil _).symm, nofun⟩
    | some msg => exact ⟨_, rfl, one msg⟩

theorem foldl_handleFrame_written {σ : Type*} (T : Transport σ)
    (fs : List (Frame UInt8 MessageHeader)) (k : Connection σ) :
    ∃ new, (fs.foldl T.handleFrame k).client.written = k.client.written ++ new ∧
      ∀ b ∈ new, ∃ f ∈ fs, ∃ msg, b = frameBytes T.byteOrder f.header.tid msg := by
  induction fs generalizing k with
  | nil => exact ⟨[], (List.append_nil _).symm, nofun⟩
  | cons f fs ih =>
    obtain ⟨first, hfirst, hown⟩ := T.handleFrame_written k f
    obtain ⟨rest, hrest, hothers⟩ := ih (T.handleFrame k f)
    refine ⟨first ++ rest, by rw [List.foldl_cons, hrest, hfirst, List.append_assoc], fun b hb => ?_⟩
    rcases List.mem_append.1 hb with hb | hb
    · exact ⟨f, List.mem_cons_self .., hown b hb⟩
    · obtain ⟨g, hg, hmsg⟩ := hothers b hb
      exact ⟨g, List.mem_cons_of_mem _ hg, hmsg⟩

end Transport

namespace Hub

variable {N : Net} {h : Hub} {left : List UInt8}

/-- A chunk brings up the transactions of the frames that it completes, and what is written in reply
to it has these transactions. -/
theorem data_honours (hw : h.Wired N) (hleft : Transport.StandsAt (h.conns c) left)
    (bytes : List UInt8) :
    ((∀ f ∈ frames (left ++ bytes), K c f.header.tid) →
      Honours K h.state (h.data N c bytes).state) ∧
    ∃ new, ((h.data N c bytes).conns c).written = (h.conns c).written ++ new ∧
      ∀ b ∈ new, ∃ f ∈ frames (left ++ bytes), ∃ msg,
        b = frameBytes N.transport.byteOrder f.header.tid msg := by
  have hsettled := (data_frames (N := N) hleft bytes).2
  have hid : (Transport.settled (h.connection c)).client.id = c := hw.id c
  refine ⟨fun hK => ?_, ?_⟩
  · have hhonours := Transport.foldl_handleFrame_honours N.serves (frames (left ++ bytes))
      (k := Transport.settled (h.connection c)) (by rwa [hid])
    show Honours K h.state (Transport.settled ((h.data N c bytes).connection c)).state
    rw [hsettled]
    exact hhonours
  · obtain ⟨new, hnew, hown⟩ := N.transport.foldl_handleFrame_written (frames (left ++ bytes))
      (Transport.settled (h.connection c))
    have hwritten := congrArg (fun k : Connection State => k.client.written) hsettled
    exact ⟨new, hwritten.trans hnew, hown⟩

end Hub

/-! ### All threads -/

/-- A function of the queue that writes to one client has a transaction with the property, or that
of a published message. -/
def Job.About (K : ClientId → UInt32 → Prop) : Job → Prop
  | .send _ tid c => tid = Hub.publishTid ∨ K c tid
  | .publish _ | .pause _ => True

namespace System

variable {N : Net} {s : System} {e : Event} {es : List Event} {left : List UInt8}

theorem Holds.imp {P Q : Job → Prop} (h : s.Holds P) (hPQ : ∀ j, P j → Q j) : s.Holds Q :=
  ⟨fun t j hj => hPQ j (h.todo t j hj), fun p hp => hPQ _ (h.queue p hp),
    fun p hp => hPQ _ (h.batch p hp)⟩

/-- The transactions that an event brings up: those of the frames that a chunk completes, any for a
client that leaves, and what a mimic-done callback reads where the entry was that it has popped. -/
def Event.Brings (K : ClientId → UInt32 → Prop) (s : System) : Event → Prop
  | .data c bytes => ∃ left, Transport.StandsAt (s.hub.conns c) left ∧
      ∀ f ∈ frames (left ++ bytes), K c f.header.tid
  | .close c _ => ∀ tid, K c tid
  | .mimicDone _ stale => ∀ p ∈ stale, K p.1 p.2
  | _ => True

theorem Steady.honours (h : Steady N s) (he : s.Enabled e) (hK : e.Brings K s) :
    Honours K s.hub.state (step N s e).hub.state := by
  cases e with
  | connect => exact step_honours (E := N.env) (e := .connect) trivial _
  | close c stack => exact step_honours (E := N.env) (e := .close c stack) hK _
  | data c bytes =>
    obtain ⟨left, hleft, hframes⟩ := hK
    exact (Hub.data_honours h.wired hleft bytes).1 hframes
  | timer => exact step_honours (E := N.env) (e := .timer) trivial _
  | ready k => exact step_honours (E := N.env) (e := .ready) trivial _
  | mimicDone k stale => exact step_honours (E := N.env) (e := .mimicDone stale) hK _
  | exec =>
    obtain ⟨p, b, hbatch⟩ := List.exists_cons_of_ne_nil he.2.2
    rw [step_exec hbatch]
    obtain ⟨u, msg | ⟨msg, tid, c⟩ | token⟩ := p
    · have hsame := (Hub.publish_spec (N := N) (h := s.hub) msg h.consistent.nodup).1
      show Honours K s.hub.state (s.hub.publish N msg).state
      rw [hsame]
      exact .refl _
    · have hsame := (Hub.send_spec (N := N) (h := s.hub) msg tid c).1
      show Honours K s.hub.state (s.hub.send N msg tid c).state
      rw [hsame]
      exact .refl _
    · exact step_honours (E := N.env) (e := .paused token) trivial _
  | push u =>
    obtain ⟨j, js, htodo⟩ := List.exists_cons_of_ne_nil he.1
    rw [step_push htodo]
    exact .refl _
  | paused | publish | phrase | send | wake | take | finish => exact .refl _

/-- The calls of `invoke` that are begun are for transactions that are owed. -/
theorem Steady.about_begun (h : Steady N s) (he : s.Enabled e) (hK : e.Brings K s)
    (howes : Owes K s.hub.state) {t : Thread} {j : Job} (hj : j ∈ begun N t s e) : j.About K := by
  have hissues := (h.honours he hK howes).2
  cases begun_origin hj with
  | issued i msg hi hmem =>
    have habout := hissues.of_mem_drop hi
    rcases mem_issued_jobs hmem with ⟨p, -, rfl⟩ | ⟨p, tid, d, rfl, rfl⟩
    · trivial
    · exact .inr habout
  | paused k token hevent hpause =>
    subst hpause
    trivial
  | publish k msg hevent hpublish =>
    subst hpublish
    trivial
  | phrase k name msg hevent hmem =>
    obtain ⟨g, -, rfl⟩ := mem_phraseJobs hmem
    exact .inl rfl

/-! ### What a connection sent -/

def sent (N : Net) (es : List Event) (c : ClientId) : List UInt8 :=
  ((machine N).history (received c) (machine N).start es).flatten

/-- The connection sent a complete frame with the transaction. -/
def Asked (N : Net) (es : List Event) (c : ClientId) (tid : UInt32) : Prop :=
  ∃ f ∈ frames (sent N es c), f.header.tid = tid

theorem sent_snoc (es : List Event) (e : Event) (c : ClientId) :
    sent N (es ++ [e]) c =
      sent N es c ++ (received c ((machine N).exec (machine N).start es) e).flatten := by
  unfold sent
  rw [Machine.history_snoc, List.flatten_append]

theorem received_chunk (c : ClientId) (bytes : List UInt8) (s : System) :
    (received c s (.data c bytes)).flatten = bytes := by
  rw [show received c s (.data c bytes) = [bytes] from if_pos rfl, List.flatten_singleton]

theorem received_of_not_data {c : ClientId} (hno : ∀ bytes, e ≠ .data c bytes) (s : System) :
    received c s e = [] := by
  cases e with
  | data d bytes =>
    refine if_neg ?_
    rintro rfl
    exact hno bytes rfl
  | connect | close | timer | ready | mimicDone | paused | publish | phrase | push | send | wake | take
  | exec | finish => rfl

theorem frames_append (bytes more : List UInt8) : frames (bytes ++ more) =
    frames bytes ++ frames ((messageFormat.split bytes).2 ++ more) := by
  unfold frames
  rw [messageFormat.split_append]

theorem Asked.snoc {c : ClientId} {tid : UInt32} (h : Asked N es c tid) (e : Event) :
    Asked N (es ++ [e]) c tid := by
  obtain ⟨f, hf, htid⟩ := h
  refine ⟨f, ?_, htid⟩
  rw [sent_snoc, frames_append]
  exact List.mem_append_left _ hf

/-- The client was given out, and it is off the list. -/
def Departed (s : System) (c : ClientId) : Prop :=
  c < s.hub.state.clientNonce ∧ c ∉ s.hub.state.clients

/-- The client may be answered the transaction: it asked for it, or a mimic-done callback read it where
the entry was that it had popped. -/
def Due (N : Net) (es : List Event) (c : ClientId) (tid : UInt32) : Prop :=
  Asked N es c tid ∨ ∃ k, Event.mimicDone k (some (c, tid)) ∈ es

theorem Due.snoc {c : ClientId} {tid : UInt32} (h : Due N es c tid) (e : Event) :
    Due N (es ++ [e]) c tid := by
  rcases h with h | ⟨k, hk⟩
  · exact .inl (h.snoc e)
  · exact .inr ⟨k, List.mem_append_left _ hk⟩

/-- The transactions that may be answered after a run: those that are due, and any of a client that
has departed, which is written nothing. -/
def Answerable (N : Net) (es : List Event) (c : ClientId) (tid : UInt32) : Prop :=
  Departed ((machine N).exec (machine N).start es) c ∨ Due N es c tid

/-- The write is a reply to a frame of the client, a published message, or the answer to one of its
transactions; the message of a phrase has the transaction of a published one. -/
def Write.Own (N : Net) (es : List Event) (c : ClientId) : Write → Prop
  | .reply b => ∃ f ∈ frames (sent N es c), ∃ msg,
      b = frameBytes N.transport.byteOrder f.header.tid msg
  | .queued _ (.publish _) => True
  | .queued _ (.send _ tid _) => tid = Hub.publishTid ∨ Due N es c tid
  | .queued _ (.pause _) => False

theorem Write.Own.snoc {w : Write} (h : w.Own N es c) (e : Event) : w.Own N (es ++ [e]) c := by
  match w, h with
  | .reply b, ⟨f, hf, msg, hb⟩ =>
    refine ⟨f, ?_, msg, hb⟩
    rw [sent_snoc, frames_append]
    exact List.mem_append_left _ hf
  | .queued _ (.publish _), _ => exact trivial
  | .queued _ (.send _ tid _), h => exact h.imp_right fun h => h.snoc e

/-- After a run, all that is owed or on its way is answerable, each connection stands behind the
complete frames that it sent, and what was written to it is its own. -/
structure Traced (N : Net) (es : List Event) : Prop where
  owes : Owes (Answerable N es) ((machine N).exec (machine N).start es).hub.state
  jobs : ((machine N).exec (machine N).start es).Holds (Job.About (Answerable N es))
  standsAt : ∀ c, Transport.StandsAt (((machine N).exec (machine N).start es).hub.conns c)
    (messageFormat.split (sent N es c)).2
  writes : ∀ c, ∀ w ∈ (machine N).history (writes N c) (machine N).start es, w.Own N es c

theorem traced_nil (N : Net) : Traced N [] where
  owes := owes_init 0
  jobs := ⟨nofun, nofun, nofun⟩
  standsAt c := by
    rw [show sent N [] c = [] from rfl, messageFormat.split_of_none rfl]
    rfl
  writes _ _ hw := nomatch hw

theorem Answerable.snoc (hr : (machine N).Run (machine N).start es)
    (he : ((machine N).exec (machine N).start es).Enabled e) (h : Answerable N es c tid) :
    Answerable N (es ++ [e]) c tid := by
  have hsteady := steady_of_reachable hr.reachable
  rcases h with ⟨hlt, hc⟩ | hdue
  · left
    unfold Departed
    rw [Machine.exec_snoc]
    exact ⟨hlt.trans_le (hsteady.clientNonce_le he), hsteady.gone he hlt hc⟩
  · exact .inr (hdue.snoc e)

theorem Traced.brings (h : Traced N es) (hr : (machine N).Run (machine N).start es)
    (he : ((machine N).exec (machine N).start es).Enabled e) :
    e.Brings (Answerable N (es ++ [e])) ((machine N).exec (machine N).start es) := by
  have hsteady := steady_of_reachable hr.reachable
  cases e with
  | data c bytes =>
    refine ⟨_, h.standsAt c, fun f hf => .inr (.inl ⟨f, ?_, rfl⟩)⟩
    rw [sent_snoc, frames_append, received_chunk]
    exact List.mem_append_right _ hf
  | close c stack =>
    intro tid
    left
    unfold Departed
    rw [Machine.exec_snoc]
    -- whatever transactions the unloads get, their client has left
    have hgone := Barrier.leave_gone (hsteady.consistent.below c he.2)
    have hbarrier := handleClose_barrier N.env c stack
      ((machine N).exec (machine N).start es).hub.state
    rw [← hbarrier] at hgone
    exact hgone
  | mimicDone k stale =>
    rintro p rfl
    exact .inr (.inr ⟨k, List.mem_append_right _ (List.mem_singleton_self _)⟩)
  | connect | timer | ready | paused | publish | phrase | push | send | wake | take | exec
  | finish => trivial

/-- What an event writes to a connection is its own. -/
theorem Traced.writes_own (h : Traced N es) (hr : (machine N).Run (machine N).start es)
    (he : ((machine N).exec (machine N).start es).Enabled e) :
    ∀ w ∈ System.writes N c ((machine N).exec (machine N).start es) e, w.Own N (es ++ [e]) c := by
  have hsteady := steady_of_reachable hr.reachable
  intro w hw
  cases e with
  | data d bytes =>
    rw [writes_data] at hw
    split_ifs at hw with hd
    · subst hd
      obtain ⟨new, hnew, hown⟩ := (Hub.data_honours (K := fun _ _ => True) hsteady.wired
        (h.standsAt d) bytes).2
      rw [hnew, List.drop_left] at hw
      obtain ⟨b, hb, rfl⟩ := List.mem_map.1 hw
      obtain ⟨f, hf, msg, hmsg⟩ := hown b hb
      refine ⟨f, ?_, msg, hmsg⟩
      rw [sent_snoc, frames_append, received_chunk]
      exact List.mem_append_right _ hf
    · cases hw
  | exec =>
    rw [writes_exec] at hw
    split_ifs at hw with hc
    · obtain ⟨p, hp, rfl⟩ := List.mem_map.1 hw
      obtain ⟨hhead, haddressed⟩ := List.mem_filter.1 hp
      have hbatch : p ∈ ((machine N).exec (machine N).start es).courier.batch :=
        List.mem_of_mem_head? (Option.mem_toList.1 hhead)
      have habout := h.jobs.batch p hbatch
      obtain ⟨t, msg | ⟨msg, tid, d⟩ | token⟩ := p
      · trivial
      · obtain rfl : d = c := of_decide_eq_true haddressed
        -- the message is for all, or for one who has left, or is owed
        rcases habout with hpublish | hdeparted | hdue
        · exact .inl hpublish
        · exact absurd hc hdeparted.2
        · exact .inr (hdue.snoc .exec)
      · cases haddressed
    · cases hw
  | connect | close | timer | ready | mimicDone | paused | publish | phrase | push | send | wake | take
  | finish => cases hw

theorem traced_snoc (h : Traced N es) (hr : (machine N).Run (machine N).start es)
    (he : ((machine N).exec (machine N).start es).Enabled e) : Traced N (es ++ [e]) := by
  have hsteady := steady_of_reachable hr.reachable
  have hstep : (machine N).exec (machine N).start (es ++ [e]) =
      step N ((machine N).exec (machine N).start es) e := Machine.exec_snoc
  have hmono : ∀ c tid, Answerable N es c tid → Answerable N (es ++ [e]) c tid :=
    fun c tid hK => hK.snoc hr he
  have howes := h.owes.imp hmono
  have hjobs := h.jobs.imp (Q := Job.About (Answerable N (es ++ [e]))) fun j hj => by
    cases j with
    | send msg tid c => exact hj.imp_right (hmono c tid)
    | publish msg | pause token => trivial
  have hbrings := h.brings hr he
  refine ⟨?_, ?_, fun c => ?_, fun c w hw => ?_⟩
  · rw [hstep]
    exact (hsteady.honours he hbrings howes).1
  · rw [hstep]
    exact hjobs.step he fun t j hj => hsteady.about_begun he hbrings howes hj
  · rw [hstep]
    by_cases hdata : ∃ bytes, e = .data c bytes
    · obtain ⟨bytes, rfl⟩ := hdata
      have hstand := (Hub.data_frames (N := N) (h.standsAt c) bytes).1
      rw [sent_snoc, received_chunk, messageFormat.split_append]
      exact hstand
    · have hnone : received c ((machine N).exec (machine N).start es) e = [] :=
        received_of_not_data (not_exists.1 hdata) _
      rw [sent_snoc, hnone]
      simp only [List.flatten_nil, List.append_nil]
      exact hsteady.standsAt he (not_exists.1 hdata) (h.standsAt c)
  · rw [Machine.history_snoc] at hw
    rcases List.mem_append.1 hw with hold | hnew
    · exact (h.writes c w hold).snoc e
    · exact h.writes_own hr he w hnew

theorem traced_of_run (hr : (machine N).Run (machine N).start es) : Traced N es :=
  hr.snoc_induction (P := Traced N) (traced_nil N) fun _ _ hes he ih => traced_snoc ih hes he

/-- **No answer crosses connections.**  In every run, with whatever the engine returns and in any order
of the threads, each frame that is written to a connection has the transaction of a published message
or that of a complete frame the connection itself has sent; or else a mimic-done callback read the
connection and the transaction where the entry was that it had popped. -/
theorem own_transactions (N : Net) (hr : (machine N).Run (machine N).start es) (c : ClientId) :
    ∀ b ∈ (((machine N).exec (machine N).start es).hub.conns c).written, ∃ tid msg,
      b = frameBytes N.transport.byteOrder tid msg ∧ (tid = Hub.publishTid ∨
        (∃ f ∈ frames ((machine N).history (received c) (machine N).start es).flatten,
          f.header.tid = tid) ∨ ∃ k, Event.mimicDone k (some (c, tid)) ∈ es) := by
  have hstart : (machine N).Reachable (machine N).start := ⟨[], trivial, rfl⟩
  intro b hb
  rw [written_exec hstart hr c] at hb
  rcases List.mem_append.1 hb with hold | hnew
  · cases hold
  · obtain ⟨w, hw, rfl⟩ := List.mem_map.1 hnew
    have hown := (traced_of_run hr).writes c w hw
    match w, hown with
    | .reply b, ⟨f, hf, msg, hmsg⟩ => exact ⟨_, msg, hmsg, .inr (.inl ⟨f, hf, rfl⟩)⟩
    | .queued t (.publish msg), _ => exact ⟨_, msg, rfl, .inl rfl⟩
    | .queued t (.send msg tid d), hdue => exact ⟨tid, msg, rfl, hdue⟩

/-- A reader that takes one frame to authenticate, and every other one for a request to mimic. -/
def mimicBson : Bson where
  read msg :=
    if msg = [1] then some [(.lit "cmd", .utf8 (ascii "auth")), (.lit "secret", .utf8 (ascii "s"))]
    else some [(.lit "cmd", .utf8 (ascii "mimic")),
      (.lit "phrase", .array 6 (some [(.lit "0", .utf8 (ascii "a"))]))]
  write _ := [0]

/-- A server with that reader, whose messages are their numbers. -/
def mimicking : Net where
  env := .obliging
  transport :=
    { byteOrder := .little
      bson := mimicBson
      callback := fun c tid msg s =>
        let r := handleMessage .obliging c tid (mimicBson.read msg) .usual s
        (r.1.map fun _ => [0], r.2) }
  reply _ := [0]
  serves _ _ _ _ := ⟨.usual, rfl⟩
  secret := ascii "s"
  prep n _ := [.ofNat n]

/-- Two clients authenticate, and the mimic of one of them is done. -/
def answeredMimic : List Event :=
  [.connect, .connect, .ready 0, .push (.engine 0), .send (.engine 0),
    .data 0 (frameBytes .little 1 [1]), .data 1 (frameBytes .little 1 [1] ++ [0, 0]),
    .data 1 ((frameBytes .little 7 [2]).drop 2), .push .loop, .send .loop, .mimicDone 0 none,
    .push (.engine 0), .send (.engine 0), .wake, .take, .exec, .exec, .exec]

theorem own_transactions_answered :
    let s := (machine mimicking).exec (machine mimicking).start answeredMimic
    frameBytes .little 7 [2] ∈ (s.hub.conns 1).written ∧
      ∀ c, ∀ b ∈ (s.hub.conns c).written, ∃ tid msg,
        b = frameBytes .little tid msg ∧ (tid = Hub.publishTid ∨
          (∃ f ∈ frames ((machine mimicking).history (received c) (machine mimicking).start
            answeredMimic).flatten, f.header.tid = tid) ∨
          ∃ k, Event.mimicDone k (some (c, tid)) ∈ answeredMimic) :=
  ⟨by decide +kernel, own_transactions mimicking (by decide +kernel)⟩

end System

end Draconity

import Draconity.Lib.Mailbox
import Draconity.Pause

/-!
Deferred responses to grammar updates: each name is a mailbox.

The history of a name is a list of marks, an accepted `g.set` or `g.unload` with its client and
transaction, or a sync.  What the implementation keeps is the pending entry and the responses issued
so far; along every run they are the pending update and the settled ones of `Lib.Mailbox`.
-/

namespace Draconity

open Lib Lib.Mailbox

variable {E : Env} {s s' : State} {n : CString} {es : List Event} {ops : List Op}

/-- A response is `skipped`, or it is from a sync. -/
def Status.fate : Status → Fate
  | .skipped => .skipped
  | .success | .error => .synced

/-- The client and the transaction of a shadow state. -/
def GrammarState.owner (shadow : GrammarState) : ClientId × UInt32 := (shadow.clientId, shadow.tid)

/-- A response as a settled update. -/
def Answer.settled {ε : Type} (r : Answer ε) : (ClientId × UInt32) × Fate :=
  ((r.clientId, r.tid), r.status.fate)

/-- The marks of an operation for a name. -/
def Op.marks (n : CString) : Op → List (Mark (ClientId × UInt32))
  | .setGrammar m shadow => if m = n then [.accept shadow.owner] else []
  | .sync => [.sync]
  | .setWords _ _ _ | .disconnect _ _ | .other _ => []

/-- The marks of an event for a name: the update `handle_message` accepted, then a sync if the
event made one. -/
def Event.marks (E : Env) (n : CString) (s : State) (e : Event) : List (Mark (ClientId × UInt32)) :=
  (e.grammarUpdate E s n).toList.map .accept ++ if (step E s e).syncs = s.syncs then [] else [.sync]

/-- The state shows the pending update and the settled updates of the history. -/
structure Ledger (n : CString) (h : List (Mark (ClientId × UInt32))) (s : State) : Prop where
  pending : pending h = (s.shadowGrammars.lookup n).map GrammarState.owner
  answered : answered h = (gsetAnswers n s).map Answer.settled

/-- No client is cleaned up. -/
def Op.Stays : Op → Prop
  | .disconnect _ _ => False
  | _ => True

theorem ledger_op {h : List (Mark (ClientId × UInt32))} (hl : Ledger n h s) {op : Op}
    (ho : op.Enabled s) (hd : op.Stays) : Ledger n (h ++ op.marks n) (op.apply E s) := by
  have same : ∀ s' : State, s'.shadowGrammars = s.shadowGrammars →
      gsetAnswers n s' = gsetAnswers n s → Ledger n (h ++ []) s' := by
    intro s' h₁ h₂
    rw [List.append_nil]
    exact ⟨h₁ ▸ hl.pending, h₂ ▸ hl.answered⟩
  cases op with
  | setGrammar m shadow =>
    rw [Op.marks, Op.apply]
    by_cases hm : m = n
    · subst hm
      rw [if_pos rfl]
      refine ⟨?_, ?_⟩
      · rw [pending_snoc_accept, lookup_setShadowGrammar, if_pos rfl]
        rfl
      · rw [answered_snoc_accept, hl.answered, hl.pending, gsetAnswers_setShadowGrammar, if_pos rfl,
          List.map_append]
        cases s.shadowGrammars.lookup m <;> rfl
    · have hn : ¬ n = m := fun h => hm h.symm
      rw [if_neg hm, List.append_nil]
      refine ⟨?_, ?_⟩
      · rw [lookup_setShadowGrammar, if_neg hn]; exact hl.pending
      · rw [gsetAnswers_setShadowGrammar, if_neg hn, List.append_nil]; exact hl.answered
  | setWords c tid ws =>
    have hw := setShadowWords_sameGrammars c tid ws s
    exact same _ hw.shadowGrammars (hw.gset n)
  | disconnect c stack => exact hd.elim
  | sync =>
    refine ⟨pending_snoc_sync h, ?_⟩
    rw [Op.marks, Op.apply, answered_snoc_sync, hl.answered, hl.pending]
    cases hn : s.shadowGrammars.lookup n with
    | none =>
      rw [show gsetAnswers n (syncState E s) = gsetAnswers n s from
        congrArg Prod.snd (syncState_record_of_none hn)]
      simp
    | some shadow =>
      -- the pending set is settled, by the one response of its pass
      obtain ⟨r, hans, hc, ht, hs⟩ := syncState_pending (E := E) hn
      have hfate : r.status.fate = .synced := by
        cases hr : r.status with
        | skipped => exact absurd hr hs.not_skipped
        | success | error => rfl
      rw [hans, List.map_append]
      simp [Answer.settled, GrammarState.owner, hc, ht, hfate]
  | other s' => exact same s' ho.shadowGrammars (ho.gset n)

theorem ledger_run (hr : (store E).Run (store E).start ops) (hd : ∀ op ∈ ops, op.Stays) :
    Ledger n ((store E).history (fun _ op => op.marks n) (store E).start ops)
      ((store E).exec (store E).start ops) := by
  induction ops using List.reverseRecOn with
  | nil => exact ⟨rfl, rfl⟩
  | append_singleton ops op ih =>
    obtain ⟨hr, ho⟩ := Machine.run_snoc.1 hr
    rw [Machine.history_snoc, Machine.exec_snoc]
    exact ledger_op (ih hr fun op' h => hd op' (List.mem_append_left _ h)) ho (hd op (by simp))

/-! ### From the store to the event loop -/

/-- The event is not the close of a client. -/
def Event.Stays : Event → Prop
  | .close _ _ => False
  | _ => True

theorem Does.marks {e : Event} (h : Does E s e ops) (he : e.Stays) :
    (store E).history (fun _ op => op.marks n) s ops = e.marks E n s ∧ ∀ op ∈ ops, op.Stays := by
  unfold Event.marks Event.grammarUpdate
  cases h with
  | quiet hs reply =>
    refine ⟨?_, by simp [Op.Stays]⟩
    rw [if_pos hs.syncs]
    cases hdef : e.deferred E s with
    | none => rfl
    | some r =>
      have hcmd := reply _ _ _ hdef
      rw [Option.bind_some, if_neg (fun h => by rw [hcmd] at h; exact absurd h.1 (by decide))]
      rfl
  | words ws hdef cmd rest =>
    refine ⟨?_, by simp [Op.Stays]⟩
    rw [if_pos (rest.syncs.trans (setShadowWords_live _ ws s).2.2), hdef, Option.bind_some,
      if_neg (fun h => by rw [cmd] at h; exact absurd h.1 (by decide))]
    rfl
  | grammar name shadow hdef cmd hn hc ht hb rest =>
    have howner : shadow.owner = (_, _) := Prod.ext hc ht
    have hhead : (Op.setGrammar name shadow).marks n = Option.toList (Option.map Mark.accept
        (if name = n then some shadow.owner else none)) := by
      rw [Op.marks]; split_ifs <;> rfl
    have hsyncs := (setShadowGrammar_live name shadow s).2.2
    refine ⟨?_, by split_ifs <;> simp [Op.Stays]⟩
    rw [rest.syncs, acceptGrammar_eq, hdef, Option.bind_some]
    simp only [cmd, hn, true_and, Option.some.injEq, ← howner]
    -- while Dragon is paused the set is synced in the same step
    by_cases h0 : s.pauseToken = 0
    · rw [if_pos h0, if_pos hsyncs, if_neg (not_not.2 h0)]
      simp only [Machine.history, List.nil_append, hhead]
      split_ifs <;> rfl
    · have hnext : (syncState E (setShadowGrammar name shadow s)).syncs ≠ s.syncs := by
        rw [syncState_syncs, hsyncs]
        omega
      rw [if_neg h0, if_neg hnext, if_pos h0]
      simp only [Machine.history, hhead]
      split_ifs <;> rfl
  | paused rest =>
    refine ⟨?_, by simp [Op.Stays]⟩
    rw [if_neg (by rw [rest.syncs, syncState_syncs]; simp)]
    rfl
  | close => exact he.elim

/-- A request that is answered at once registers nothing for later. -/
theorem answered_at_once {c : ClientId} {tid : UInt32} {msg : Option Elements} {found : Found}
    {r : Reply} (h : (handleMessage E c tid msg found s).1 = some r) :
    SameStore s (step E s (.message c tid msg found)) := by
  cases msg with
  | none => exact .refl s
  | some root =>
    have hd := dispatch_handled E c tid (.ofRoot root) found s
    have hreply : (dispatch E c tid (.ofRoot root) found s).1.toReply = some r := h
    suffices h : SameStore s (dispatch E c tid (.ofRoot root) found s).2 from
      h.trans (sameStore_publish _ _)
    generalize dispatch E c tid (.ofRoot root) found s = p at hd hreply
    cases hd with
    | words ws | grammar name shadow => cases hreply
    | unpause => exact clientUnpause_sameStore ..
    | quiet o s' hs => exact hs

/-- **Every accepted grammar update is answered exactly once.**  After any run in which no client
closes, with any return codes, and for each name: the pending entry is the accepted update that is
not settled yet; the responses are, in order, one for each settled update, to its client and with
its transaction, `skipped` when the next mark is another update and from the sync when it is a sync;
together they are all that was accepted.  A request that is answered at once changes neither. -/
theorem gset_answered (hr : (eventLoop E).Run (eventLoop E).start es) (hc : ∀ e ∈ es, e.Stays)
    (n : CString) :
    let s := (eventLoop E).exec (eventLoop E).start es
    let h := (eventLoop E).history (fun s e => e.marks E n s) (eventLoop E).start es
    pending h = (s.shadowGrammars.lookup n).map GrammarState.owner ∧
      answered h = (gsetAnswers n s).map Answer.settled ∧
      accepted h = (gsetAnswers n s).map (fun r => (r.clientId, r.tid)) ++
        ((s.shadowGrammars.lookup n).map GrammarState.owner).toList ∧
      ∀ c tid msg found r, (handleMessage E c tid msg found s).1 = some r →
        (step E s (.message c tid msg found)).shadowGrammars = s.shadowGrammars ∧
          gsetAnswers n (step E s (.message c tid msg found)) = gsetAnswers n s := by
  have hstep : ∀ s e, (eventLoop E).enabled s e → e.Stays → ∃ ops, (store E).Run s ops ∧
      (store E).exec s ops = (eventLoop E).step s e ∧
      (store E).history (fun _ op => op.marks n) s ops = e.marks E n s ∧
      ∀ op ∈ ops, op.Stays := by
    intro s e _ hstay
    obtain ⟨ops, hops⟩ := step_does E s e
    exact ⟨ops, hops.run.1, hops.run.2, hops.marks hstay⟩
  obtain ⟨ops, hrun, hexec, hhist, hstay⟩ := Machine.Run.refine hstep hr hc
  have hl : Ledger n ((eventLoop E).history (Event.marks E n) (eventLoop E).start es)
      ((eventLoop E).exec (eventLoop E).start es) := by
    rw [← hhist, ← hexec]
    exact ledger_run hrun hstay
  refine ⟨hl.pending, hl.answered, ?_, fun c tid msg found r h => ?_⟩
  · rw [accepted_eq, hl.answered, hl.pending, List.map_map]
    rfl
  · have hs := answered_at_once h
    exact ⟨hs.shadowGrammars, hs.gset n⟩

/-- Two updates of one name before a pause: the first is skipped, the second is synced. -/
theorem gset_answered_skip :
    (gsetAnswers (.lit "g") ((eventLoop .obliging).exec (eventLoop .obliging).start
      [.connect, .connect, .ready, .message 0 1 (some (gSetRequest "g" [1])) .usual,
        .message 1 2 (some (gSetRequest "g" [2])) .usual, .paused 7])).map Answer.settled =
      [((0, 1), .skipped), ((1, 2), .synced)] := by
  have hr : (eventLoop .obliging).Run (eventLoop .obliging).start
      [.connect, .connect, .ready, .message 0 1 (some (gSetRequest "g" [1])) .usual,
        .message 1 2 (some (gSetRequest "g" [2])) .usual, .paused 7] := by decide
  exact (gset_answered hr (by simp [Event.Stays]) (.lit "g")).2.1.symm.trans (by decide)

end Draconity

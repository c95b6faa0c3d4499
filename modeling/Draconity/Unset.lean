import Draconity.Paused

/-!
Runs before the first pause, from any content of the memory the constructor leaves `pause_token` in.

The handlers take a token other than `0` to mean that Dragon is paused.  With a token of `0` none of
them acts as if it was, until a pause is handled; with any other, the close of the first client does.
-/

namespace Draconity

open Lib

variable {E : Env} {s : State} {es : List Event} {n : CString}

/-- The update of the client and transaction is the pending one of the name. -/
def Pending (n : CString) (r : ClientId × UInt32) (s : State) : Prop :=
  ∃ shadow, s.shadowGrammars.lookup n = some shadow ∧ (shadow.clientId, shadow.tid) = r

/-- The event does what is for while Dragon is paused: Dragon is resumed, an `unpause` is accepted, a
disconnect syncs, an accepted `g.set` or `g.unload` is pushed into Dragon and not pending after it, or
a name that had an update pending has none any more. -/
inductive ActsPaused (E : Env) (s : State) (e : Event) : Prop
  | resumes (h : resumes (step E s e) ≠ resumes s)
  | unpauses (t : UInt64) (h : e.unpauses E s = some t)
  | disconnects (c : ClientId) (stack : CString → UInt32) (he : e = .close c stack)
    (h : (step E s e).syncs ≠ s.syncs)
  | pushes (n : CString) (r : ClientId × UInt32) (he : e.grammarUpdate E s n = some r)
    (h : ¬ (Pending n r (step E s e) ∧ (step E s e).syncs = s.syncs ∧
      (step E s e).dragon.loaded = s.dragon.loaded))
  | drops (n : CString) (hn : s.shadowGrammars.lookup n ≠ none)
    (h : (step E s e).shadowGrammars.lookup n = none)

/-! ### With no token -/

/-- With no token, an event that is no pause leaves none. -/
theorem pauseToken_step {e : Event} (h0 : s.pauseToken = 0) (he : Enabled s e)
    (hpause : ∀ t, e ≠ .paused t) : (step E s e).pauseToken = 0 := by
  by_contra h
  rcases paused_of_step he h with h | ⟨t, rfl⟩
  · exact h h0
  · exact hpause t rfl

/-- What an event that is no pause does to the grammars when there is no token: nothing, a disconnect
queues its unloads, or the update it accepts is pending. -/
theorem idle_step (h0 : s.pauseToken = 0) {e : Event} (hpause : ∀ t, e ≠ .paused t) :
    (step E s e).syncs = s.syncs ∧ (step E s e).dragon.loaded = s.dragon.loaded ∧
      (∀ n r, e.grammarUpdate E s n = some r → Pending n r (step E s e)) ∧
      ∀ n, s.shadowGrammars.lookup n ≠ none → (step E s e).shadowGrammars.lookup n ≠ none := by
  have hupdate : ∀ {b : ClientId} {tid : UInt32} {f : Fields} {n : CString} {r : ClientId × UInt32},
      e.deferred E s = some (b, tid, f) → e.grammarUpdate E s n = some r →
        (f.cmd = some (.lit "g.set") ∨ f.cmd = some (.lit "g.unload")) ∧ f.name = some n ∧
          (b, tid) = r := by
    intro b tid f n r hdef he
    obtain ⟨r', hr', hif⟩ := Option.bind_eq_some_iff.1 he
    rw [hdef, Option.some.injEq] at hr'
    subst hr'
    split_ifs at hif with hcmd
    exact ⟨hcmd.1, hcmd.2, Option.some.inj hif⟩
  have hdeferred : ∀ {n : CString} {r : ClientId × UInt32},
      e.grammarUpdate E s n = some r → ∃ b tid f, e.deferred E s = some (b, tid, f) := by
    intro n r he
    obtain ⟨⟨b, tid, f⟩, hr', -⟩ := Option.bind_eq_some_iff.1 he
    exact ⟨b, tid, f, hr'⟩
  obtain ⟨ops, hops⟩ := step_does E s e
  cases hops with
  | quiet hs reply =>
    refine ⟨hs.syncs, hs.loaded, fun n r he => ?_, fun n hn => by rwa [hs.shadowGrammars]⟩
    -- an update of a grammar would not be quiet
    obtain ⟨b, tid, f, hdef⟩ := hdeferred he
    obtain ⟨hcmd, -, -⟩ := hupdate hdef he
    rw [reply b tid f hdef] at hcmd
    exact absurd hcmd (by decide)
  | words ws hdef cmd rest =>
    rename_i c tid f
    obtain ⟨-, hdragon, hsyncs⟩ := setShadowWords_live (c := c) tid ws s
    have hgrammars := (setShadowWords_sameGrammars c tid ws s).shadowGrammars
    refine ⟨rest.syncs.trans hsyncs, by rw [rest.loaded, hdragon], fun n r he => ?_, fun n hn => by
      rwa [rest.shadowGrammars, hgrammars]⟩
    obtain ⟨hcmd, -, -⟩ := hupdate hdef he
    rw [cmd] at hcmd
    exact absurd hcmd (by decide)
  | grammar name shadow hdef cmd hn hc ht hb rest =>
    rw [acceptGrammar_eq, if_pos h0] at rest
    obtain ⟨-, hdragon, hsyncs⟩ := setShadowGrammar_live name shadow s
    refine ⟨rest.syncs.trans hsyncs, by rw [rest.loaded, hdragon], fun n r he => ?_, fun n hlook => ?_⟩
    · obtain ⟨-, hname, rfl⟩ := hupdate hdef he
      obtain rfl := Option.some.inj (hname.symm.trans hn)
      refine ⟨shadow, ?_, by rw [hc, ht]⟩
      rw [rest.shadowGrammars, lookup_setShadowGrammar, if_pos rfl]
    · rw [rest.shadowGrammars, lookup_setShadowGrammar]
      split_ifs
      · exact Option.some_ne_none _
      · exact hlook
  | paused => exact absurd rfl (hpause _)
  | close rest =>
    rename_i c stack
    have hclose : step E s (.close c stack) = clearClientState c stack (s.dropClient c) :=
      handleClose_of_not_paused h0 c stack
    rw [hclose]
    refine ⟨rfl, rfl, fun n r he => absurd he (Option.some_ne_none _).symm, fun n hn => ?_⟩
    obtain ⟨howned, hother⟩ := lookup_clearClientState c stack (s.dropClient c) n
    by_cases h : (s.dropClient c).Owns c n
    · rw [howned h]
      exact Option.some_ne_none _
    · rwa [hother h]

theorem not_actsPaused (h0 : s.pauseToken = 0) {e : Event} (he : Enabled s e)
    (hpause : ∀ t, e ≠ .paused t) : ¬ ActsPaused E s e := by
  obtain ⟨hsyncs, hloaded, hpending, hkept⟩ := idle_step (E := E) h0 hpause
  intro h
  cases h with
  | resumes h =>
    rcases resumes_step (E := E) he with hr | ⟨t, ht, hcur | rfl, -⟩
    · exact h hr
    · exact ht (hcur.symm.trans h0)
    · exact hpause t rfl
  | unpauses t h =>
    obtain ⟨ht, hcur⟩ := unpauses_eq h
    exact ht (hcur.symm.trans h0)
  | disconnects c stack _ h => exact h hsyncs
  | pushes n r hn h => exact h ⟨hpending n r hn, hsyncs, hloaded⟩
  | drops n hn h => exact hkept n hn h

/-! ### From the constructor -/

/-- A client connects and closes. -/
def firstClose : List Event := [.connect, .close 0 fun _ => 0]

theorem actsPaused_firstClose {t : UInt64} (ht : t ≠ 0) :
    (eventLoop E).Occurs (ActsPaused E) (State.init t) firstClose := by
  refine .inr (.inl (.disconnects 0 _ rfl fun h => ?_))
  have hclose : ((eventLoop E).step (handleListen (State.init t)) (.close 0 fun _ => 0)).syncs = 1 := by
    show (handleClose E 0 (fun _ => 0) (handleListen (State.init t))).syncs = 1
    rw [handleClose_of_paused (show (handleListen (State.init t)).pauseToken ≠ 0 from ht),
      (clientUnpause_sameStore ..).syncs, syncState_syncs]
    rfl
  exact absurd (hclose.symm.trans h) Nat.one_ne_zero

/-- **When Draconity acts as paused before the first pause.**  With any engine: no run from the
constructor without a pause acts as if Dragon was paused, just when the memory of `pause_token`
happens to hold `0`. -/
theorem never_actsPaused_iff (E : Env) (t : UInt64) :
    (∀ es, (eventLoop E).Run (State.init t) es → (∀ e ∈ es, ∀ t', e ≠ .paused t') →
      ¬ (eventLoop E).Occurs (ActsPaused E) (State.init t) es) ↔ t = 0 := by
  constructor
  · intro h
    by_contra ht
    refine h firstClose ?_ (by simp [firstClose]) (actsPaused_firstClose ht)
    exact ⟨show 0 + 1 < 2 ^ 63 by decide, List.mem_singleton.2 rfl, trivial⟩
  · rintro rfl es hr hpause
    exact hr.not_occurs (I := fun s => s.pauseToken = 0) (fun _ _ h0 he hp =>
      ⟨not_actsPaused h0 he hp, pauseToken_step h0 he hp⟩) hpause rfl

/-- The memory held a `7`: the close of the first client syncs. -/
theorem never_actsPaused_fails : ¬ ∀ (E : Env) (t : UInt64) (es : List Event),
    (eventLoop E).Run (State.init t) es → (∀ e ∈ es, ∀ t', e ≠ .paused t') →
      ¬ (eventLoop E).Occurs (ActsPaused E) (State.init t) es := by
  intro h
  have hrun : (eventLoop .obliging).Run (State.init 7) firstClose := by decide
  exact h .obliging 7 firstClose hrun (by simp [firstClose]) (actsPaused_firstClose (by decide))

end Draconity

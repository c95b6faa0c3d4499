import Draconity.Requests

/-!
Which messages a step issues.

`Issues P` says that only messages with `P` were issued, after those that were issued before.  A sync
answers the pending updates of grammars and the words of each client, and nothing else.
-/

namespace Draconity

open Lib

variable {E : Env} {P : Issued → Prop} {s s' s'' : State}

/-- The client a message is for, if it is not for all. -/
def Issued.client : Issued → Option ClientId
  | .publish _ => none
  | .send _ _ c => some c

/-- From one state to another, messages with the property were issued. -/
def Issues (P : Issued → Prop) (s s' : State) : Prop :=
  ∃ l, s'.issued = s.issued ++ l ∧ ∀ i ∈ l, P i

namespace Issues

theorem of_eq (h : s'.issued = s.issued) : Issues P s s' :=
  ⟨[], by rw [h, List.append_nil], fun i hi => nomatch hi⟩

theorem refl (s : State) : Issues P s s := of_eq rfl

theorem trans (h : Issues P s s') (h' : Issues P s' s'') : Issues P s s'' := by
  obtain ⟨l, hl, hP⟩ := h
  obtain ⟨l', hl', hP'⟩ := h'
  refine ⟨l ++ l', by rw [hl', hl, List.append_assoc], fun i hi => ?_⟩
  exact (List.mem_append.1 hi).elim (hP i) (hP' i)

theorem issue {i : Issued} (hi : P i) (s : State) : Issues P s (s.issue i) :=
  ⟨[i], rfl, fun _ hj => List.mem_singleton.1 hj ▸ hi⟩

theorem foldl {α : Type*} {f : State → α → State} {l : List α} (s : State)
    (hf : ∀ s, ∀ a ∈ l, Issues P s (f s a)) : Issues P s (l.foldl f s) := by
  induction l generalizing s with
  | nil => exact .refl s
  | cons a l ih =>
    have hfirst := hf s a (List.mem_cons_self ..)
    exact hfirst.trans (ih (f s a) fun s b hb => hf s b (List.mem_cons_of_mem _ hb))

theorem of_mem_drop (h : Issues P s s') {i : Issued} (hi : i ∈ s'.issued.drop s.issued.length) :
    P i := by
  obtain ⟨l, hl, hP⟩ := h
  rw [hl, List.drop_left] at hi
  exact hP i hi

end Issues

theorem removeGrammar_issues (n : CString) (g : Grammar) (s : State) :
    Issues P s (removeGrammar E n g s) := .of_eq rfl

theorem syncEntry_issues (s : State) (e : Σ _ : CString, GrammarState)
    (he : ∀ status errors, P (.send (.gset e.1 status errors) e.2.tid e.2.clientId)) :
    Issues P s (syncEntry E s e) := by
  unfold syncEntry syncUnload syncSet
  split_ifs with hu
  · dsimp only
    split
    · exact (removeGrammar_issues ..).trans (.issue (he ..) _)
    · exact .issue (he ..) _
  · dsimp only
    generalize syncGrammar E ((s.grammars.lookup e.1).getD (Grammar.new e.1)) e.2 s.dragon = p
    have h : Issues P s { s with
        grammars := s.grammars.insert e.1 { p.1 with errors := [] }
        dragon := p.2 } := .of_eq rfl
    split_ifs
    · exact h.trans (.issue (he ..) _)
    · exact (h.trans (removeGrammar_issues ..)).trans (.issue (he ..) _)

/-- `sync_words` answers each client that has words. -/
theorem syncWords_issues (s : State)
    (hw : ∀ c w, s.shadowWords.lookup c = some w → ∀ status errors,
      P (.send (.wset status errors) w.lastTid.toUInt32 c)) : Issues P s (syncWords E s) := by
  have hentry : ∀ errors (s : State) (e : Σ _ : ClientId, WordState),
      (∀ status errors, P (.send (.wset status errors) e.2.lastTid.toUInt32 e.1)) →
      Issues P s (handleClientFailures errors s e) := by
    intro errors s e he
    have h : ∀ w, Issues P s { s with shadowWords := w } := fun _ => .of_eq rfl
    exact (h _).trans (.issue (he ..) _)
  refine Issues.trans (.of_eq rfl) (Issues.foldl _ fun s' e he => hentry _ s' e fun status errors => ?_)
  have hlook := (Keyed.mem_of_perm (E.wordOrder_perm ..)).1 he
  rw [Keyed.lookup_mapValues] at hlook
  obtain ⟨w, hold, hnew⟩ := Option.map_eq_some_iff.1 hlook
  rw [← hnew]
  exact hw e.1 w hold status errors

/-- **A sync answers the pending updates of grammars and the words of all clients.** -/
theorem syncState_issues (s : State)
    (hg : ∀ n shadow, s.shadowGrammars.lookup n = some shadow → ∀ status errors,
      P (.send (.gset n status errors) shadow.tid shadow.clientId))
    (hw : ∀ c w, s.shadowWords.lookup c = some w → ∀ status errors,
      P (.send (.wset status errors) w.lastTid.toUInt32 c)) : Issues P s (syncState E s) := by
  have hwords := syncWords_issues (E := E) s hw
  refine hwords.trans (Issues.trans ?_ (.of_eq rfl))
  refine Issues.foldl (f := syncEntry E) (syncWords E s) fun s' e he => syncEntry_issues s' e ?_
  exact hg e.1 e.2 (mem_pending.1 he)

theorem syncState_grows (s : State) : Issues (fun _ => True) s (syncState E s) :=
  syncState_issues s (fun _ _ _ _ _ => trivial) fun _ _ _ _ _ => trivial

/-- With somebody connected, a pause issues what its sync issues, and then the `paused` message. -/
theorem handlePause_issued {token : UInt64} (hne : s.clients ≠ []) :
    (handlePause E token s).issued =
      (syncState E { s with pauseToken := token }).issued ++ [.publish (.paused token)] := by
  have hclients : (syncState E { s with pauseToken := token }).clients = s.clients :=
    (syncState_samePause (E := E) { s with pauseToken := token }).clients
  have hif : (syncState E { s with pauseToken := token }).clients ≠ [] := by
    rw [hclients]
    exact hne
  unfold handlePause
  dsimp only
  rw [if_neg hif]
  rfl

end Draconity

import Mathlib.Data.List.Destutter
import Draconity.Types

/-!
`draconity_attrib_changed`, which Dragon calls when one of its attributes changes, and what the
clients are told of the microphone.

The callback runs on a thread of Dragon and shares no field with the event loop but `ready`, so the
fields it works on are a record of their own.
-/

namespace Draconity

/-- The messages of `draconity_attrib_changed`, all with the topic `status`. -/
inductive StatusMessage
  | start
  | ready (languageId : Int)
  | mic (status : CString)
  | speakerChange (languageId : Int)

/-- The fields of `Draconity` the callback reads and sets, and what it has published. -/
structure Attribs where
  /-- `none` is the null pointer. -/
  micstate : Option CString
  ready : Bool
  published : List StatusMessage

namespace Attribs

def init : Attribs := ⟨none, false, []⟩

/-- `draconity_publish`. -/
def publish (m : StatusMessage) (a : Attribs) : Attribs := { a with published := a.published ++ [m] }

def micStatuses (a : Attribs) : List CString :=
  a.published.filterMap fun
    | .mic status => some status
    | .start | .ready _ | .speakerChange _ => none

end Attribs

structure AttribChange where
  /-- The name of the attribute. -/
  attr : CString
  /-- What `_DSXEngine_GetMicState` leaves in its argument, which starts at `0`. -/
  micState : Int64
  /-- What `_DSXEngine_GetLanguageID` leaves in its argument. -/
  languageId : Int
  /-- `draconity->engine` is set. -/
  engine : Bool
  /-- `_DSXEngine_GetCurrentSpeaker` gives a speaker. -/
  speaker : Bool

/-- The table `micstates`. -/
def micstates : List CString :=
  [.lit "disabled", .lit "off", .lit "on", .lit "sleeping", .lit "pause", .lit "resume"]

/-- The name `draconity_attrib_changed` gives a state of the engine. -/
def micstateName (micState : Int64) : CString :=
  if 0 ≤ micState ∧ micState ≤ 5 then micstates.getD micState.toInt.toNat (.lit "invalid")
  else .lit "invalid"

def Attribs.draconityReady (languageId : Int) (a : Attribs) : Attribs :=
  if a.ready then a else { a.publish (.ready languageId) with ready := true }

/-- `engine_acquire`, not early. -/
def Attribs.engineAcquire (e : AttribChange) (a : Attribs) : Attribs :=
  let a := if e.engine then a else a.publish .start
  if a.ready = false ∧ e.speaker then a.draconityReady e.languageId else a

/-- `draconity_attrib_changed`.  The pointer `_DSXEngine_GetMicState` leads to Draconity's own hook,
which calls `engine_acquire` first. -/
def draconityAttribChanged (a : Attribs) (e : AttribChange) : Attribs :=
  if e.attr = .lit "MICON" ∧ (a.micstate = none ∨ a.micstate = some (.lit "on")) then
    { a.publish (.mic (.lit "on")) with micstate := some (.lit "on") }
  else if e.attr = .lit "MICSTATE" then
    let a := a.engineAcquire e
    let name := micstateName e.micState
    -- `streq` holds of equal strings, so a change of the state does not get past this test.
    if a.micstate = none ∨ a.micstate = some name then
      { a with micstate := some name }.publish (.mic name)
    else a
  else if e.attr = .lit "SPEAKERCHANGED" then
    if a.ready = false then a.draconityReady e.languageId
    else a.publish (.speakerChange e.languageId)
  else a

/-- The calls of the callback since the constructor. -/
def attribsAfter (es : List AttribChange) : Attribs := es.foldl draconityAttribChanged .init

/-! ### What one call does -/

def AttribChange.reported (e : AttribChange) : Option CString :=
  if e.attr = .lit "MICON" then some (.lit "on")
  else if e.attr = .lit "MICSTATE" then some (micstateName e.micState)
  else none

variable {a : Attribs} {e : AttribChange} {es : List AttribChange} {r m : CString}

@[simp] theorem Attribs.micStatuses_publish_mic (a : Attribs) (r : CString) :
    (a.publish (.mic r)).micStatuses = a.micStatuses ++ [r] := by
  simp [publish, micStatuses]

theorem Attribs.draconityReady_mic (languageId : Int) (a : Attribs) :
    (a.draconityReady languageId).micstate = a.micstate ∧
      (a.draconityReady languageId).micStatuses = a.micStatuses := by
  unfold draconityReady
  split_ifs <;> simp [publish, micStatuses]

theorem Attribs.engineAcquire_mic (e : AttribChange) (a : Attribs) :
    (a.engineAcquire e).micstate = a.micstate ∧
      (a.engineAcquire e).micStatuses = a.micStatuses := by
  have hstart : (if e.engine then a else a.publish .start).micstate = a.micstate ∧
      (if e.engine then a else a.publish .start).micStatuses = a.micStatuses := by
    split_ifs <;> simp [publish, micStatuses]
  unfold engineAcquire
  dsimp only
  generalize (if e.engine then a else a.publish .start) = m at hstart ⊢
  split_ifs
  · obtain ⟨hm, hs⟩ := m.draconityReady_mic e.languageId
    exact ⟨hm.trans hstart.1, hs.trans hstart.2⟩
  · exact hstart

/-- A call that reports no state leaves what is known of the microphone. -/
theorem attribChanged_unreported (h : e.reported = none) :
    (draconityAttribChanged a e).micstate = a.micstate ∧
      (draconityAttribChanged a e).micStatuses = a.micStatuses := by
  unfold AttribChange.reported at h
  split_ifs at h with hon hstate
  unfold draconityAttribChanged
  rw [if_neg fun h => hon h.1, if_neg hstate]
  split_ifs
  · exact a.draconityReady_mic e.languageId
  · simp [Attribs.publish, Attribs.micStatuses]
  · exact ⟨rfl, rfl⟩

/-- The first state is remembered and published. -/
theorem attribChanged_first (h : e.reported = some r) (ha : a.micstate = none) :
    (draconityAttribChanged a e).micstate = some r ∧
      (draconityAttribChanged a e).micStatuses = a.micStatuses ++ [r] := by
  unfold AttribChange.reported at h
  unfold draconityAttribChanged
  split_ifs at h with hon hstate
  · cases h
    rw [if_pos ⟨hon, .inl ha⟩]
    exact ⟨rfl, Attribs.micStatuses_publish_mic ..⟩
  · cases h
    obtain ⟨hmic, hstatuses⟩ := a.engineAcquire_mic e
    rw [if_neg fun h => hon h.1, if_pos hstate]
    dsimp only
    rw [if_pos (.inl (hmic.trans ha)), ← hstatuses]
    exact ⟨rfl, Attribs.micStatuses_publish_mic ..⟩

/-- A later state is published when it is the one that is remembered, and is never remembered. -/
theorem attribChanged_later (h : e.reported = some r) (ha : a.micstate = some m) :
    (draconityAttribChanged a e).micstate = some m ∧
      (draconityAttribChanged a e).micStatuses = a.micStatuses ++ if r = m then [r] else [] := by
  unfold AttribChange.reported at h
  unfold draconityAttribChanged
  split_ifs at h with hon hstate
  · cases h
    by_cases hm : m = .lit "on"
    · subst hm
      rw [if_pos ⟨hon, .inr ha⟩, if_pos rfl]
      exact ⟨rfl, Attribs.micStatuses_publish_mic ..⟩
    · -- another state is remembered, and the inverted test holds the change back
      have hguard : ¬ (e.attr = .lit "MICON" ∧ (a.micstate = none ∨ a.micstate = some (.lit "on"))) := by
        simp [ha, hm]
      have hstate : e.attr ≠ .lit "MICSTATE" := by
        rw [hon]
        decide
      have hspeaker : e.attr ≠ .lit "SPEAKERCHANGED" := by
        rw [hon]
        decide
      rw [if_neg hguard, if_neg hstate, if_neg hspeaker, if_neg (Ne.symm hm), List.append_nil]
      exact ⟨ha, rfl⟩
  · cases h
    obtain ⟨hmic, hstatuses⟩ := a.engineAcquire_mic e
    rw [if_neg fun h => hon h.1, if_pos hstate]
    dsimp only
    rw [← hmic] at ha
    rw [← hstatuses]
    generalize a.engineAcquire e = a at ha ⊢
    by_cases hm : micstateName e.micState = m
    · rw [if_pos hm, if_pos (.inr (ha.trans (congrArg some hm.symm)))]
      exact ⟨congrArg some hm, Attribs.micStatuses_publish_mic ..⟩
    · rw [if_neg hm, if_neg (by simp [ha, Ne.symm hm]), List.append_nil]
      exact ⟨ha, rfl⟩

/-! ### Sequences of calls -/

/-- The states of the microphone the calls of a sequence report. -/
def reportedStates (es : List AttribChange) : List CString := es.filterMap AttribChange.reported

/-- **What a sequence of calls leads to**: the first state stays remembered, and what is published
are its repetitions. -/
theorem attribsAfter_mic (es : List AttribChange) :
    (attribsAfter es).micstate = (reportedStates es).head? ∧
      (attribsAfter es).micStatuses =
        (reportedStates es).filter fun r => (reportedStates es).head? = some r := by
  induction es using List.reverseRecOn with
  | nil => exact ⟨rfl, rfl⟩
  | append_singleton es e ih =>
    obtain ⟨hm, hs⟩ := ih
    have hafter : attribsAfter (es ++ [e]) = draconityAttribChanged (attribsAfter es) e := by
      simp [attribsAfter]
    have hreported : reportedStates (es ++ [e]) = reportedStates es ++ e.reported.toList := by
      cases he : e.reported <;> simp [reportedStates, he]
    rw [hafter, hreported]
    cases he : e.reported with
    | none =>
      obtain ⟨h₁, h₂⟩ := attribChanged_unreported (a := attribsAfter es) he
      simpa [h₁, h₂] using ⟨hm, hs⟩
    | some r =>
      cases hl : reportedStates es with
      | nil =>
        rw [hl] at hm hs
        obtain ⟨h₁, h₂⟩ := attribChanged_first he hm
        simp [h₁, h₂, hs]
      | cons m rs =>
        rw [hl] at hm hs
        obtain ⟨h₁, h₂⟩ := attribChanged_later he hm
        refine ⟨h₁, ?_⟩
        rw [h₂, hs]
        by_cases hr : r = m
        · subst hr
          simp
        · simp [hr, Ne.symm hr]

/-- The state last reported is the one that is remembered, and the published statuses are the
reported ones without consecutive repetitions. -/
structure TracksMic (es : List AttribChange) : Prop where
  micstate : (attribsAfter es).micstate = (reportedStates es).getLast?
  published : (attribsAfter es).micStatuses = (reportedStates es).destutter (· ≠ ·)

theorem not_tracksMic {r m : CString} {rs : List CString} (h : reportedStates es = r :: m :: rs) :
    ¬ TracksMic es := by
  rintro ⟨-, hp⟩
  rw [(attribsAfter_mic es).2, h, List.head?_cons, List.destutter_cons'] at hp
  by_cases hm : r = m
  · -- The repetition is published, and the statuses with no repetitions do not have it.
    subst hm
    have hchain := List.isChain_destutter' (· ≠ ·) (r :: rs) r
    rw [← hp] at hchain
    simp at hchain
  · -- The change is not published.
    have hmem : m ∈ (m :: rs).destutter' (· ≠ ·) r := by
      rw [List.destutter'_cons_pos _ hm]
      exact List.mem_cons_of_mem _ (List.mem_destutter' ..)
    rw [← hp] at hmem
    exact hm (by simpa using (List.mem_filter.1 hmem).2)

/-- **When the microphone is tracked.**  After each of a sequence of calls the state last reported is
the one that is remembered, and its changes are what has been published, just when the sequence
reports at most one state. -/
theorem micstate_tracked_iff (es : List AttribChange) :
    (∀ fs, fs <+: es → TracksMic fs) ↔ (reportedStates es).length ≤ 1 := by
  constructor
  · intro h
    match hes : reportedStates es with
    | [] | [_] => simp
    | r :: m :: rs => exact absurd (h es List.prefix_rfl) (not_tracksMic hes)
  · intro h fs hfs
    have hpre : reportedStates fs <+: reportedStates es := hfs.filterMap _
    obtain ⟨hm, hs⟩ := attribsAfter_mic fs
    match hr : reportedStates fs, hpre.length_le.trans h with
    | [], _ =>
      rw [hr] at hm hs
      exact ⟨by rw [hm, hr]; rfl, by rw [hs, hr]; rfl⟩
    | [r], _ =>
      rw [hr] at hm hs
      exact ⟨by rw [hm, hr]; rfl, by rw [hs, hr]; simp⟩

/-- The microphone is turned on and then off: the clients do not hear of the second. -/
theorem micstate_not_tracked :
    ¬ ∀ es : List AttribChange, ∀ fs, fs <+: es → TracksMic fs := by
  intro h
  have hlast := (h [⟨.lit "MICON", 0, 0, true, true⟩, ⟨.lit "MICSTATE", 1, 0, true, true⟩] _
    List.prefix_rfl).micstate
  exact absurd hlast (by decide)

end Draconity

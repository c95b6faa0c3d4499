import Draconity.Lib.Barrier

/-!
Two barriers, one of which has a member more.

Members have names here, since the numbers they get depend on who joined before.  The member of the
name `k` is missing from the second barrier, and is a bystander of the first as long as it is not
awaited: nothing it does then is felt, and the two barriers go through the same steps.
-/

namespace Lib

namespace Barrier

variable {κ τ : Type*}

/-- The members of a consistent barrier by their names. -/
structure Named (ids : κ → Option ℕ) (b : Barrier τ) : Prop where
  consistent : b.Consistent
  distinct : ∀ {i j c}, ids i = some c → ids j = some c → i = j
  named : ∀ c ∈ b.members, ∃ j, ids j = some c
  below : ∀ {j c}, ids j = some c → c < b.next

/-- The two barriers agree but for the member of the name `k`, which is not awaited in the first and
not there in the second. -/
structure Bystander (k : κ) (ids ids' : κ → Option ℕ) (b b' : Barrier τ) : Prop where
  left : Named ids b
  right : Named ids' b'
  raised : b'.raised = b.raised
  released : b'.released = b.released
  joined : ∀ j, j ≠ k → ((ids' j).isSome ↔ (ids j).isSome)
  members : ∀ {j c c'}, j ≠ k → ids j = some c → ids' j = some c' →
    (c' ∈ b'.members ↔ c ∈ b.members)
  awaited : ∀ {j c c'}, j ≠ k → ids j = some c → ids' j = some c' →
    (c' ∈ b'.awaited ↔ c ∈ b.awaited)
  missing : ids' k = none
  next_le : b'.next ≤ b.next
  idle : ∀ {c}, ids k = some c → c ∉ b.awaited

theorem Named.keeps {ids : κ → Option ℕ} {b b₁ : Barrier τ} (h : Named ids b) (hc : b₁.Consistent)
    (hm : ∀ c ∈ b₁.members, c ∈ b.members) (hn : b₁.next = b.next) : Named ids b₁ :=
  ⟨hc, h.distinct, fun c hmem => h.named c (hm c hmem), fun hj => hn ▸ h.below hj⟩

theorem Named.joins [DecidableEq κ] {ids : κ → Option ℕ} {b : Barrier τ} {j : κ} (h : Named ids b)
    (hj : ids j = none) : Named (Function.update ids j (some b.next)) (b.step .join) := by
  have hother : ∀ {i c}, Function.update ids j (some b.next) i = some c →
      i = j ∧ c = b.next ∨ i ≠ j ∧ ids i = some c := by
    intro i c hi
    by_cases hij : i = j
    · subst hij
      rw [Function.update_self] at hi
      exact .inl ⟨rfl, (Option.some.inj hi).symm⟩
    · rw [Function.update_of_ne hij] at hi
      exact .inr ⟨hij, hi⟩
  refine ⟨consistent_step (e := .join) h.consistent trivial, ?_, fun c hc => ?_, fun hi => ?_⟩
  · intro i i' c hi hi'
    rcases hother hi with ⟨rfl, rfl⟩ | ⟨-, hold⟩
    · rcases hother hi' with ⟨rfl, -⟩ | ⟨-, hold'⟩
      · rfl
      · exact absurd (h.below hold') (lt_irrefl _)
    · rcases hother hi' with ⟨rfl, rfl⟩ | ⟨-, hold'⟩
      · exact absurd (h.below hold) (lt_irrefl _)
      · exact h.distinct hold hold'
  · rcases List.mem_append.1 hc with hc | hc
    · obtain ⟨i, hi⟩ := h.named c hc
      have hij : i ≠ j := by
        rintro rfl
        rw [hj] at hi
        cases hi
      exact ⟨i, (Function.update_of_ne hij ..).trans hi⟩
    · exact ⟨j, (Function.update_self ..).trans (congrArg some (List.mem_singleton.1 hc).symm)⟩
  · rcases hother hi with ⟨-, rfl⟩ | ⟨-, hi⟩
    · exact Nat.lt_succ_self _
    · exact (h.below hi).trans (Nat.lt_succ_self _)

/-! ### A member is settled -/

/-- The member `c` is not awaited any more, and the barrier is released if nobody else is. -/
structure Struck (c : ℕ) (b b₁ : Barrier τ) : Prop where
  raised : b₁.raised = if b.awaited.erase c = ∅ then none else b.raised
  released : b₁.released =
    if b.awaited.erase c = ∅ then b.released ++ b.raised.toList else b.released
  awaited : ∀ d, d ∈ b₁.awaited ↔ d ∈ b.awaited ∧ d ≠ c

theorem strike_struck (c : ℕ) (b : Barrier τ) : Struck c b (b.strike c) := by
  unfold strike
  split_ifs with hempty
  · refine ⟨?_, ?_, fun d => ?_⟩
    · rw [release_raised, if_pos hempty]
    · rw [release_released, if_pos hempty]
    · have hno : ({ b with awaited := b.awaited.erase c } : Barrier τ).release.awaited = ∅ := by
        unfold release
        split
        · exact hempty
        · rfl
      rw [hno, ← OrdSet.mem_erase, hempty]
  · exact ⟨(if_neg hempty).symm, (if_neg hempty).symm, fun d => OrdSet.mem_erase⟩

theorem leave_struck {b : Barrier τ} (h : b.Consistent) (c : ℕ) :
    Struck c b (b.step (.leave c)) := by
  unfold step
  dsimp only
  split_ifs with hr
  · obtain ⟨hraised, hreleased, hawaited⟩ :=
      strike_struck c { b with members := b.members.filter (· ≠ c) }
    exact ⟨hraised, hreleased, hawaited⟩
  · have hraised : b.raised = none := by simpa using hr
    have hawaited : b.awaited = ∅ := h.awaited.1 hraised
    have hempty : b.awaited.erase c = ∅ := by
      rw [OrdSet.eq_empty_iff, hawaited]
      exact fun d hd => OrdSet.notMem_empty d (OrdSet.mem_erase.1 hd).1
    refine ⟨?_, ?_, fun d => ?_⟩
    · rw [if_pos hempty]
      exact hraised
    · rw [if_pos hempty, hraised]
      exact (List.append_nil _).symm
    · show d ∈ b.awaited ↔ _
      rw [hawaited]
      exact iff_of_false (OrdSet.notMem_empty d) fun hd => OrdSet.notMem_empty d hd.1

theorem Struck.of_idle {c : ℕ} {b b₁ : Barrier τ} (hs : Struck c b b₁) (h : b.Consistent)
    (hc : c ∉ b.awaited) : b₁.raised = b.raised ∧ b₁.released = b.released ∧
      ∀ d, d ∈ b₁.awaited ↔ d ∈ b.awaited := by
  have herase : b.awaited.erase c = ∅ ↔ b.awaited = ∅ := by
    simp only [OrdSet.eq_empty_iff, OrdSet.mem_erase]
    exact forall_congr' fun d => not_congr ⟨fun hd => hd.1, fun hd => ⟨hd, fun hdc => hc (hdc ▸ hd)⟩⟩
  refine ⟨?_, ?_, fun d => ?_⟩
  · rw [hs.raised]
    split_ifs with hempty
    · exact (h.awaited.2 (herase.1 hempty)).symm
    · rfl
  · rw [hs.released]
    split_ifs with hempty
    · rw [h.awaited.2 (herase.1 hempty)]
      exact List.append_nil _
    · rfl
  · rw [hs.awaited]
    exact ⟨fun hd => hd.1, fun hd => ⟨hd, fun hdc => hc (hdc ▸ hd)⟩⟩

namespace Bystander

variable {k j : κ} {ids ids' : κ → Option ℕ} {b b' : Barrier τ} {c c' : ℕ}

theorem other_some (h : Bystander k ids ids' b b') (hj : j ≠ k) (hc : ids j = some c) :
    ∃ c', ids' j = some c' :=
  Option.isSome_iff_exists.1 ((h.joined j hj).2 (hc ▸ rfl))

theorem some_other (h : Bystander k ids ids' b b') (hj : j ≠ k) (hc : ids' j = some c') :
    ∃ c, ids j = some c :=
  Option.isSome_iff_exists.1 ((h.joined j hj).1 (hc ▸ rfl))

theorem ne_of_missing (h : Bystander k ids ids' b b') (hc : ids' j = some c') : j ≠ k := by
  rintro rfl
  rw [h.missing] at hc
  cases hc

theorem armed_iff (h : Bystander k ids ids' b b') : b'.armed = true ↔ b.armed = true := by
  rw [h.right.consistent.armed, h.left.consistent.armed, h.raised]

/-- Sets of members that agree by their names, and do not have the bystander, are empty together. -/
theorem nobody_iff (h : Bystander k ids ids' b b') {s s' : OrdSet ℕ}
    (hs : ∀ c ∈ s, c ∈ b.members ∧ ids k ≠ some c) (hs' : ∀ c ∈ s', c ∈ b'.members)
    (hsame : ∀ {j c c'}, j ≠ k → ids j = some c → ids' j = some c' → (c' ∈ s' ↔ c ∈ s)) :
    s' = ∅ ↔ s = ∅ := by
  rw [OrdSet.eq_empty_iff, OrdSet.eq_empty_iff]
  constructor
  · intro hno c hc
    obtain ⟨hmem, hk⟩ := hs c hc
    obtain ⟨j, hj⟩ := h.left.named c hmem
    have hne : j ≠ k := by
      rintro rfl
      exact hk hj
    obtain ⟨c', hc'⟩ := h.other_some hne hj
    exact hno c' ((hsame hne hj hc').2 hc)
  · intro hno c' hc'
    obtain ⟨j, hj⟩ := h.right.named c' (hs' c' hc')
    have hne := h.ne_of_missing hj
    obtain ⟨c, hc⟩ := h.some_other hne hj
    exact hno c ((hsame hne hc hj).1 hc')

theorem members_nil_iff (h : Bystander k ids ids' b b')
    (hout : ∀ c, ids k = some c → c ∉ b.members) : b'.members = [] ↔ b.members = [] := by
  rw [List.eq_nil_iff_forall_not_mem, List.eq_nil_iff_forall_not_mem]
  constructor
  · intro hno c hc
    obtain ⟨j, hj⟩ := h.left.named c hc
    have hne : j ≠ k := by
      rintro rfl
      exact hout c hj hc
    obtain ⟨c', hc'⟩ := h.other_some hne hj
    exact hno c' ((h.members hne hj hc').2 hc)
  · intro hno c' hc'
    obtain ⟨j, hj⟩ := h.right.named c' hc'
    have hne := h.ne_of_missing hj
    obtain ⟨c, hc⟩ := h.some_other hne hj
    exact hno c ((h.members hne hc hj).1 hc')

/-! ### Steps of both -/

variable {b₁ b₁' : Barrier τ}

/-- Names tell members apart, in both. -/
theorem same_iff (h : Bystander k ids ids' b b') {i : κ} {d d' : ℕ} (hc : ids j = some c)
    (hc' : ids' j = some c') (hd : ids i = some d) (hd' : ids' i = some d') :
    d' = c' ↔ d = c := by
  constructor
  · rintro rfl
    obtain rfl := h.right.distinct hd' hc'
    exact Option.some.inj (hd.symm.trans hc)
  · rintro rfl
    obtain rfl := h.left.distinct hd hc
    exact Option.some.inj (hd'.symm.trans hc')

/-- A member that has a name other than `k` is settled in both. -/
theorem struck (h : Bystander k ids ids' b b') (hc : ids j = some c)
    (hc' : ids' j = some c') (hs : Struck c b b₁) (hs' : Struck c' b' b₁') :
    b₁'.raised = b₁.raised ∧ b₁'.released = b₁.released ∧
      ∀ {i d d'}, i ≠ k → ids i = some d → ids' i = some d' →
        (d' ∈ b₁'.awaited ↔ d ∈ b₁.awaited) := by
  have hempty : b'.awaited.erase c' = ∅ ↔ b.awaited.erase c = ∅ := by
    refine h.nobody_iff (fun d hd => ?_) (fun d hd => ?_) fun hi hd hd' => ?_
    · have hmem := (OrdSet.mem_erase.1 hd).1
      exact ⟨h.left.consistent.members d hmem, fun hk => h.idle hk hmem⟩
    · exact h.right.consistent.members d (OrdSet.mem_erase.1 hd).1
    · rw [OrdSet.mem_erase, OrdSet.mem_erase, h.awaited hi hd hd', Ne, h.same_iff hc hc' hd hd']
  refine ⟨?_, ?_, fun hi hd hd' => ?_⟩
  · rw [hs.raised, hs'.raised, h.raised]
    simp only [hempty]
  · rw [hs.released, hs'.released, h.raised, h.released]
    simp only [hempty]
  · rw [hs.awaited, hs'.awaited, h.awaited hi hd hd', Ne, h.same_iff hc hc' hd hd']

theorem answer (h : Bystander k ids ids' b b') (hj : j ≠ k) (hc : ids j = some c)
    (hc' : ids' j = some c') (he : b.Enabled (.answer c)) :
    Bystander k ids ids' (b.strike c) (b'.strike c') := by
  have he' : b'.Enabled (.answer c') := ⟨(h.members hj hc hc').2 he.1, h.raised ▸ he.2⟩
  have hb := consistent_step (e := .answer c) h.left.consistent he
  have hb' := consistent_step (e := .answer c') h.right.consistent he'
  obtain ⟨hraised, hreleased, hawaited⟩ :=
    h.struck hc hc' (strike_struck c b) (strike_struck c' b')
  constructor
  · exact h.left.keeps hb (fun d hd => strike_members c b ▸ hd) (strike_next c b)
  · exact h.right.keeps hb' (fun d hd => strike_members c' b' ▸ hd) (strike_next c' b')
  · exact hraised
  · exact hreleased
  · exact h.joined
  · intro i d d' hi hd hd'
    rw [strike_members, strike_members]
    exact h.members hi hd hd'
  · exact hawaited
  · exact h.missing
  · rw [strike_next, strike_next]
    exact h.next_le
  · intro d hd hmem
    exact h.idle hd (((strike_struck c b).awaited d).1 hmem).1

theorem leave (h : Bystander k ids ids' b b') (hj : j ≠ k) (hc : ids j = some c)
    (hc' : ids' j = some c') (he : b.Enabled (.leave c)) :
    Bystander k ids ids' (b.step (.leave c)) (b'.step (.leave c')) := by
  have he' : b'.Enabled (.leave c') := (h.members hj hc hc').2 he
  have hb := consistent_step h.left.consistent he
  have hb' := consistent_step h.right.consistent he'
  have hs := leave_struck h.left.consistent c
  obtain ⟨hraised, hreleased, hawaited⟩ :=
    h.struck hc hc' hs (leave_struck h.right.consistent c')
  constructor
  · exact h.left.keeps hb (fun d hd => (List.mem_filter.1 (leave_members b c ▸ hd)).1)
      (leave_next b c)
  · exact h.right.keeps hb' (fun d hd => (List.mem_filter.1 (leave_members b' c' ▸ hd)).1)
      (leave_next b' c')
  · exact hraised
  · exact hreleased
  · exact h.joined
  · intro i d d' hi hd hd'
    rw [leave_members, leave_members, List.mem_filter, List.mem_filter, h.members hi hd hd']
    simp only [decide_eq_true_eq, Ne, h.same_iff hc hc' hd hd']
  · exact hawaited
  · exact h.missing
  · rw [leave_next, leave_next]
    exact h.next_le
  · intro d hd hmem
    exact h.idle hd ((hs.awaited d).1 hmem).1

theorem leave_bystander (h : Bystander k ids ids' b b') (hc : ids k = some c)
    (he : b.Enabled (.leave c)) : Bystander k ids ids' (b.step (.leave c)) b' := by
  have hb := consistent_step h.left.consistent he
  obtain ⟨hraised, hreleased, hawaited⟩ :=
    (leave_struck h.left.consistent c).of_idle h.left.consistent (h.idle hc)
  constructor
  · exact h.left.keeps hb (fun d hd => (List.mem_filter.1 (leave_members b c ▸ hd)).1)
      (leave_next b c)
  · exact h.right
  · rw [hraised, h.raised]
  · rw [hreleased, h.released]
  · exact h.joined
  · intro i d d' hi hd hd'
    have hne : d ≠ c := by
      rintro rfl
      exact hi (h.left.distinct hd hc)
    rw [h.members hi hd hd', leave_members, List.mem_filter]
    simp [hne]
  · intro i d d' hi hd hd'
    rw [h.awaited hi hd hd', hawaited]
  · exact h.missing
  · rw [leave_next]
    exact h.next_le
  · intro d hd hmem
    exact h.idle hd ((hawaited d).1 hmem)

theorem free (h : Bystander k ids ids' b b') (t : τ) : Bystander k ids ids'
    { b with raised := none, awaited := ∅, armed := false, released := b.released ++ [t] }
    { b' with raised := none, awaited := ∅, armed := false, released := b'.released ++ [t] } := by
  constructor
  · exact h.left.keeps ⟨by simp, by simp, by simp, h.left.consistent.nodup,
      h.left.consistent.below⟩ (fun d hd => hd) rfl
  · exact h.right.keeps ⟨by simp, by simp, by simp, h.right.consistent.nodup,
      h.right.consistent.below⟩ (fun d hd => hd) rfl
  · rfl
  · exact congrArg (· ++ [t]) h.released
  · exact h.joined
  · exact h.members
  · exact fun _ _ _ => iff_of_false (OrdSet.notMem_empty _) (OrdSet.notMem_empty _)
  · exact h.missing
  · exact h.next_le
  · exact fun _ => OrdSet.notMem_empty _

theorem expire (h : Bystander k ids ids' b b') (he : b.armed = true) :
    Bystander k ids ids' (b.step .expire) (b'.step .expire) := by
  obtain ⟨t, ht⟩ := Option.ne_none_iff_exists'.1 (h.left.consistent.armed.1 he)
  have hstep : ∀ {b : Barrier τ}, b.raised = some t → b.step .expire =
      { b with raised := none, awaited := ∅, armed := false, released := b.released ++ [t] } := by
    intro b ht
    unfold step release
    rw [ht]
  rw [hstep ht, hstep (h.raised.trans ht)]
  exact h.free t

theorem raise (h : Bystander k ids ids' b b') (t : τ)
    (hout : ∀ c, ids k = some c → c ∉ b.members) :
    Bystander k ids ids' (b.step (.raise t)) (b'.step (.raise t)) := by
  have hb := consistent_step (e := .raise t) h.left.consistent trivial
  have hb' := consistent_step (e := .raise t) h.right.consistent trivial
  have hnil := h.members_nil_iff hout
  by_cases hm : b.members = []
  · have hstep : ∀ {b : Barrier τ}, b.members = [] → b.step (.raise t) =
        { b with raised := none, awaited := ∅, armed := false, released := b.released ++ [t] } :=
      fun hm => if_pos hm
    rw [hstep hm, hstep (hnil.2 hm)]
    exact h.free t
  · have hstep : ∀ {b : Barrier τ}, b.members ≠ [] → b.step (.raise t) =
        { b with raised := some t, awaited := b.members.foldl (fun p c => p.insert c) b.awaited,
                 armed := true } := fun hm => if_neg hm
    rw [hstep hm] at hb
    rw [hstep (fun hm' => hm (hnil.1 hm'))] at hb'
    rw [hstep hm, hstep (fun hm' => hm (hnil.1 hm'))]
    constructor
    · exact h.left.keeps hb (fun d hd => hd) rfl
    · exact h.right.keeps hb' (fun d hd => hd) rfl
    · rfl
    · exact h.released
    · exact h.joined
    · exact h.members
    · intro i d d' hi hd hd'
      show d' ∈ b'.members.foldl _ _ ↔ d ∈ b.members.foldl _ _
      rw [OrdSet.mem_foldl_insert, OrdSet.mem_foldl_insert, h.members hi hd hd', h.awaited hi hd hd']
    · exact h.missing
    · exact h.next_le
    · intro d hd hmem
      rcases (OrdSet.mem_foldl_insert _ _).1 hmem with hmem | hmem
      · exact hout d hd hmem
      · exact h.idle hd hmem

/-! ### Members join -/

variable [DecidableEq κ]

theorem join (h : Bystander k ids ids' b b') (hj : j ≠ k) (hn : ids j = none) :
    Bystander k (Function.update ids j (some b.next)) (Function.update ids' j (some b'.next))
      (b.step .join) (b'.step .join) := by
  have hn' : ids' j = none := by
    rw [← Option.not_isSome_iff_eq_none, h.joined j hj, Option.not_isSome_iff_eq_none]
    exact hn
  have hfresh : ∀ {i c}, ids i = some c → c ≠ b.next := fun hi => ne_of_lt (h.left.below hi)
  have hfresh' : ∀ {i c}, ids' i = some c → c ≠ b'.next := fun hi => ne_of_lt (h.right.below hi)
  have hnew : ∀ {b : Barrier τ} {c}, c ∈ (b.step .join).members ↔ c ∈ b.members ∨ c = b.next :=
    fun {b c} => List.mem_append.trans (or_congr_right List.mem_singleton)
  have hnobody : ∀ {b : Barrier τ}, b.Consistent → b.next ∉ b.awaited := fun hb hmem =>
    lt_irrefl _ (hb.below _ (hb.members _ hmem))
  constructor
  · exact h.left.joins hn
  · exact h.right.joins hn'
  · exact h.raised
  · exact h.released
  · intro i hi
    by_cases hij : i = j
    · subst hij
      rw [Function.update_self, Function.update_self]
      exact iff_of_true rfl rfl
    · rw [Function.update_of_ne hij, Function.update_of_ne hij]
      exact h.joined i hi
  · intro i d d' hi hd hd'
    rw [hnew, hnew]
    by_cases hij : i = j
    · subst hij
      rw [Function.update_self] at hd hd'
      exact iff_of_true (.inr (Option.some.inj hd').symm) (.inr (Option.some.inj hd).symm)
    · rw [Function.update_of_ne hij] at hd hd'
      rw [h.members hi hd hd', or_iff_left (hfresh hd), or_iff_left (hfresh' hd')]
  · intro i d d' hi hd hd'
    -- the newcomer is awaited in neither, as it came after the barrier was raised
    by_cases hij : i = j
    · subst hij
      rw [Function.update_self] at hd hd'
      obtain rfl := Option.some.inj hd
      obtain rfl := Option.some.inj hd'
      exact iff_of_false (hnobody h.right.consistent) (hnobody h.left.consistent)
    · rw [Function.update_of_ne hij] at hd hd'
      exact h.awaited hi hd hd'
  · rw [Function.update_of_ne hj.symm]
    exact h.missing
  · exact Nat.succ_le_succ h.next_le
  · intro d hd
    rw [Function.update_of_ne hj.symm] at hd
    exact h.idle hd

theorem join_bystander (h : Bystander k ids ids' b b') (hn : ids k = none) :
    Bystander k (Function.update ids k (some b.next)) ids' (b.step .join) b' := by
  have hnew : ∀ {c}, c ∈ (b.step .join).members ↔ c ∈ b.members ∨ c = b.next :=
    List.mem_append.trans (or_congr_right List.mem_singleton)
  constructor
  · exact h.left.joins hn
  · exact h.right
  · exact h.raised
  · exact h.released
  · intro i hi
    rw [Function.update_of_ne hi]
    exact h.joined i hi
  · intro i d d' hi hd hd'
    rw [Function.update_of_ne hi] at hd
    rw [hnew, h.members hi hd hd', or_iff_left (ne_of_lt (h.left.below hd))]
  · intro i d d' hi hd hd'
    rw [Function.update_of_ne hi] at hd
    exact h.awaited hi hd hd'
  · exact h.missing
  · exact h.next_le.trans (Nat.le_succ _)
  · intro d hd hmem
    rw [Function.update_self] at hd
    obtain rfl := Option.some.inj hd
    exact lt_irrefl _ (h.left.consistent.below _ (h.left.consistent.members _ hmem))

end Bystander

end Barrier

end Lib

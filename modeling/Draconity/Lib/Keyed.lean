import Mathlib.Data.List.AList

/-!
Loops over the entries of a map, where the pass for one key leaves the other keys alone.

`view k s` is what a state `s` shows of the key `k`.  When every pass of the loop keeps an
invariant and changes the view of its own key only, the loop as a whole does to each key what one
pass does: `foldl_view` names the state this pass started from.  The order of the entries does not
matter for it, so a map whose order of iteration is unspecified is looped over in any order.
-/

namespace Lib.Keyed

section Loop

variable {σ ε κ π : Type*} {f : σ → ε → σ} {I : σ → Prop}

/-- An invariant of the passes is an invariant of the loop. -/
theorem foldl_inv {l : List ε}
    (hI : ∀ s, ∀ e ∈ l, I s → I (f s e)) {s : σ} (hs : I s) :
    I (l.foldl f s) := by
  induction l generalizing s with
  | nil => exact hs
  | cons e l ih =>
    exact ih (fun s e' he' => hI s e' (List.mem_cons_of_mem _ he')) (hI s e (List.mem_cons_self ..) hs)

/-- What relates a state to the next in a reflexive and transitive way relates the ends of a loop. -/
theorem foldl_rel {R : σ → σ → Prop} (refl : ∀ s, R s s) (trans : ∀ {a b c}, R a b → R b c → R a c)
    (hR : ∀ s e, R s (f s e)) (l : List ε) (s : σ) : R s (l.foldl f s) := by
  induction l generalizing s with
  | nil => exact refl s
  | cons e l ih => exact trans (hR s e) (ih (f s e))

/-- The loop leaves the view of a key alone when it has no entry for it. -/
theorem foldl_view_of_notMem (key : ε → κ) (view : κ → σ → π) {l : List ε}
    (hI : ∀ s, ∀ e ∈ l, I s → I (f s e))
    (frame : ∀ s, ∀ e ∈ l, ∀ k, I s → k ≠ key e → view k (f s e) = view k s) {s : σ} (hs : I s)
    {k : κ} (hk : k ∉ l.map key) : view k (l.foldl f s) = view k s := by
  induction l generalizing s with
  | nil => rfl
  | cons e l ih =>
    simp only [List.map_cons, List.mem_cons, not_or] at hk
    have he : e ∈ e :: l := List.mem_cons_self ..
    rw [List.foldl_cons, ih (fun s e' he' => hI s e' (List.mem_cons_of_mem _ he'))
      (fun s e' he' => frame s e' (List.mem_cons_of_mem _ he')) (hI s e he hs) hk.2]
    exact frame s e he k hs hk.1

/-- **One pass for each key.**  What the loop leaves of the key of an entry is what the pass for
this entry leaves of it, started in a state that still has the view of the key from the start. -/
theorem foldl_view (key : ε → κ) (view : κ → σ → π) {l : List ε}
    (hI : ∀ s, ∀ e ∈ l, I s → I (f s e))
    (frame : ∀ s, ∀ e ∈ l, ∀ k, I s → k ≠ key e → view k (f s e) = view k s)
    (hnd : (l.map key).Nodup) {s : σ} (hs : I s) {e : ε} (he : e ∈ l) :
    ∃ m, I m ∧ view (key e) m = view (key e) s ∧
      view (key e) (l.foldl f s) = view (key e) (f m e) := by
  induction l generalizing s with
  | nil => exact absurd he List.not_mem_nil
  | cons a l ih =>
    obtain ⟨ha, hnd⟩ := List.nodup_cons.1 hnd
    have hal : a ∈ a :: l := List.mem_cons_self ..
    have hI' : ∀ s, ∀ e ∈ l, I s → I (f s e) := fun s e' he' => hI s e' (List.mem_cons_of_mem _ he')
    have frame' : ∀ s, ∀ e ∈ l, ∀ k, I s → k ≠ key e → view k (f s e) = view k s :=
      fun s e' he' => frame s e' (List.mem_cons_of_mem _ he')
    rcases List.mem_cons.1 he with rfl | he
    · exact ⟨s, hs, rfl, foldl_view_of_notMem key view hI' frame' (hI s e hal hs) ha⟩
    · obtain ⟨m, hm, hv, hf⟩ := ih hI' frame' hnd (hI s a hal hs) he
      have hne : key e ≠ key a := fun h => ha (h ▸ List.mem_map_of_mem he)
      exact ⟨m, hm, hv.trans (frame s a hal _ hs hne), hf⟩

/-- **In any order.**  What two orders of a loop leave of each key is related, when what two passes
for one entry leave of its key is, which both start where the key still looks as at the start. -/
theorem foldl_perm (key : ε → κ) (view : κ → σ → π) {R : κ → π → π → Prop} {l l' : List ε}
    (hp : l.Perm l') (hI : ∀ s, ∀ e ∈ l, I s → I (f s e))
    (frame : ∀ s, ∀ e ∈ l, ∀ k, I s → k ≠ key e → view k (f s e) = view k s)
    (hnd : (l.map key).Nodup) {s : σ} (hs : I s) (other : ∀ k, R k (view k s) (view k s))
    (pass : ∀ e ∈ l, ∀ m m', I m → I m' → view (key e) m = view (key e) s →
      view (key e) m' = view (key e) s → R (key e) (view (key e) (f m e)) (view (key e) (f m' e)))
    (k : κ) : R k (view k (l.foldl f s)) (view k (l'.foldl f s)) := by
  have hI' : ∀ s, ∀ e ∈ l', I s → I (f s e) := fun s e he => hI s e (hp.mem_iff.2 he)
  have frame' : ∀ s, ∀ e ∈ l', ∀ k, I s → k ≠ key e → view k (f s e) = view k s :=
    fun s e he => frame s e (hp.mem_iff.2 he)
  have hnd' : (l'.map key).Nodup := (hp.map key).nodup_iff.1 hnd
  by_cases hk : k ∈ l.map key
  · obtain ⟨e, he, rfl⟩ := List.mem_map.1 hk
    obtain ⟨m, hm, hv, hf⟩ := foldl_view key view hI frame hnd hs he
    obtain ⟨m', hm', hv', hf'⟩ := foldl_view key view hI' frame' hnd' hs (hp.mem_iff.1 he)
    rw [hf, hf']
    exact pass e he m m' hm hm' hv hv'
  · have hk' : k ∉ l'.map key := fun h => hk ((hp.map key).mem_iff.2 h)
    rw [foldl_view_of_notMem key view hI frame hs hk,
      foldl_view_of_notMem key view hI' frame' hs hk']
    exact other k

/-- When each pass puts out what its key says at the start, the loop puts this out for each entry. -/
theorem foldl_out {o : Type*} (key : ε → κ) (view : κ → σ → π) (out : σ → List o) (r : ε → o)
    {l : List ε} (hI : ∀ s, ∀ e ∈ l, I s → I (f s e))
    (frame : ∀ s, ∀ e ∈ l, ∀ k, I s → k ≠ key e → view k (f s e) = view k s)
    (hnd : (l.map key).Nodup) {s : σ} (hs : I s)
    (pass : ∀ e ∈ l, ∀ m, I m → view (key e) m = view (key e) s → out (f m e) = out m ++ [r e]) :
    out (l.foldl f s) = out s ++ l.map r := by
  induction l generalizing s with
  | nil => exact (List.append_nil _).symm
  | cons a l ih =>
    obtain ⟨ha, hnd⟩ := List.nodup_cons.1 hnd
    have hal : a ∈ a :: l := List.mem_cons_self ..
    have hne : ∀ e ∈ l, key e ≠ key a := fun e he h => ha (h ▸ List.mem_map_of_mem he)
    have ih := ih (fun s e he => hI s e (List.mem_cons_of_mem _ he))
      (fun s e he => frame s e (List.mem_cons_of_mem _ he)) hnd (hI s a hal hs)
      fun e he m hm hv => pass e (List.mem_cons_of_mem _ he) m hm
        (hv.trans (frame s a hal _ hs (hne e he)))
    rw [List.foldl_cons, ih, pass a hal s hs rfl, List.append_assoc]
    rfl

end Loop

/-! ### Maps as lists of entries -/

section Entries

variable {κ β : Type*} {m : AList fun _ : κ => β}

theorem nodup_of_perm {l : List (Σ _ : κ, β)} (h : l.Perm m.entries) : (l.map Sigma.fst).Nodup :=
  (h.map _).nodup_iff.2 m.nodupKeys

variable [DecidableEq κ]

theorem mem_of_perm {l : List (Σ _ : κ, β)} (h : l.Perm m.entries) {k : κ} {b : β} :
    ⟨k, b⟩ ∈ l ↔ m.lookup k = some b := by
  rw [h.mem_iff, ← AList.mem_lookup_iff, Option.mem_def]

theorem notMem_of_perm {l : List (Σ _ : κ, β)} (h : l.Perm m.entries) {k : κ}
    (hk : m.lookup k = none) : k ∉ l.map Sigma.fst := by
  rintro hmem
  obtain ⟨⟨k', b⟩, hb, rfl⟩ := List.mem_map.1 hmem
  rw [(mem_of_perm h).1 hb] at hk
  cases hk

theorem lookup_insert_eq (k k' : κ) (b : β) (m : AList fun _ : κ => β) :
    (m.insert k b).lookup k' = if k' = k then some b else m.lookup k' := by
  split_ifs with h
  · subst h; exact AList.lookup_insert _
  · exact AList.lookup_insert_ne h

theorem lookup_erase_eq (k k' : κ) (m : AList fun _ : κ => β) :
    (m.erase k).lookup k' = if k' = k then none else m.lookup k' := by
  split_ifs with h
  · subst h; exact AList.lookup_erase ..
  · exact AList.lookup_erase_ne h

/-- The map with each value changed by `f`. -/
def mapValues (f : β → β) (m : AList fun _ : κ => β) : AList fun _ : κ => β where
  entries := m.entries.map fun e => ⟨e.1, f e.2⟩
  nodupKeys := by
    have h : (m.entries.map fun e => (⟨e.1, f e.2⟩ : Σ _ : κ, β)).keys = m.entries.keys := by
      simp [List.keys]
    exact show List.Nodup _ from h ▸ m.nodupKeys

@[simp] theorem lookup_mapValues (f : β → β) (m : AList fun _ : κ => β) (k : κ) :
    (mapValues f m).lookup k = (m.lookup k).map f := by
  obtain ⟨l, hl⟩ := m
  show List.dlookup k (l.map fun e => (⟨e.1, f e.2⟩ : Σ _ : κ, β)) = (List.dlookup k l).map f
  clear hl
  induction l with
  | nil => rfl
  | cons e l ih =>
    obtain ⟨a, b⟩ := e
    by_cases h : k = a
    · subst h; simp
    · rw [List.map_cons, List.dlookup_cons_ne _ _ h, List.dlookup_cons_ne _ _ h, ih]

end Entries

end Lib.Keyed

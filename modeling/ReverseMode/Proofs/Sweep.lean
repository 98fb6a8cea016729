import ReverseMode.Proofs.Outcome
import ReverseMode.Sweep

/-!
# What a sweep keeps and where it ends

Ways to reason about a sweep, each from what one place does.

* `sweep_preserves`: a property that every write keeps holds at the end, whether the sweep
  fails or not.
* `sweep_run`: an invariant over the places done so far, under which every read succeeds,
  gives success and the invariant over all places.
* `sweep_flatMap_run`: the same for a sweep whose places come in groups.
* `sweep_append`, `sweep_append_error`, `sweep_map`, `sweep_step`: a sweep over other places or in
  other steps.
* `sweep_agree`: two sweeps over the same places whose states stay related read the same, so
  they fail alike or end in related states.
* `sweep_follow`: a sweep whose reads succeed where those of another do ends in a related state.
* `sweep_mirror`: a sweep that mirrors another place by place ends like it in a related state.
* `failsOnly_sweep`: a sweep fails as its reads do.
* `SafeSweep` says that no read of a sweep fails and that every write is made where it has room.
  `safeSweep_of_invariant` gives it from what one place does.
-/

namespace ReverseMode

variable {σ τ ι β ε : Type}
variable {read : σ → ι → Except ε β} {write : σ → ι → β → σ}

theorem sweep_cons_ok
    {s : σ} {i : ι} {b : β}
    (rest : List ι)
    (h : read s i = .ok b) :
    sweep read write (i :: rest) s = sweep read write rest (write s i b) := by
  rw [sweep, h]

theorem sweep_cons_error
    {s : σ} {i : ι} {e : ε}
    (rest : List ι)
    (h : read s i = .error e) :
    sweep read write (i :: rest) s = (.error e, s) := by
  rw [sweep, h]

theorem sweep_preserves
    {P : σ → Prop} {places : List ι} {s : σ}
    (hs : P s)
    (hstep : ∀ i ∈ places, ∀ s b, P s → read s i = .ok b → P (write s i b)) :
    P (sweep read write places s).2 := by
  induction places generalizing s with
  | nil =>
      exact hs
  | cons i rest ih =>
      cases hr : read s i with
      | error e =>
          rw [sweep_cons_error rest hr]
          exact hs
      | ok b =>
          rw [sweep_cons_ok rest hr]
          exact ih (hstep i (by simp) s b hs hr)
            fun j hj => hstep j (List.mem_cons_of_mem i hj)

/-- A sweep that starts after the places `done`, seen as the end of a longer one. -/
theorem sweep_run_from
    {P : List ι → σ → Prop} {places : List ι}
    (hstep : ∀ done i rest s, places = done ++ i :: rest → P done s →
      ∃ b, read s i = .ok b ∧ P (done ++ [i]) (write s i b))
    (todo : List ι) :
    ∀ (done : List ι) (s : σ), places = done ++ todo → P done s →
      ∃ s', sweep read write todo s = (.ok (), s') ∧ P places s' := by
  induction todo with
  | nil =>
      intro done s hplaces hs
      rw [List.append_nil] at hplaces
      exact ⟨s, rfl, hplaces ▸ hs⟩
  | cons i rest ih =>
      intro done s hplaces hs
      obtain ⟨b, hr, hb⟩ := hstep done i rest s hplaces hs
      rw [sweep_cons_ok rest hr]
      exact ih (done ++ [i]) (write s i b) (by simp [hplaces]) hb

theorem sweep_run
    {P : List ι → σ → Prop} {places : List ι} {s : σ}
    (hs : P [] s)
    (hstep : ∀ done i rest s, places = done ++ i :: rest → P done s →
      ∃ b, read s i = .ok b ∧ P (done ++ [i]) (write s i b)) :
    ∃ s', sweep read write places s = (.ok (), s') ∧ P places s' :=
  sweep_run_from hstep places [] s rfl hs

theorem sweep_append
    {places : List ι} {s s' : σ}
    (more : List ι)
    (h : sweep read write places s = (.ok (), s')) :
    sweep read write (places ++ more) s = sweep read write more s' := by
  induction places generalizing s with
  | nil =>
      obtain rfl : s = s' := congrArg Prod.snd h
      rfl
  | cons i rest ih =>
      cases hr : read s i with
      | error e =>
          rw [sweep_cons_error rest hr] at h
          cases h
      | ok b =>
          rw [sweep_cons_ok rest hr] at h
          rw [List.cons_append, sweep_cons_ok (rest ++ more) hr]
          exact ih h

theorem sweep_append_error
    {places : List ι} {s s' : σ} {e : ε}
    (more : List ι)
    (h : sweep read write places s = (.error e, s')) :
    sweep read write (places ++ more) s = (.error e, s') := by
  induction places generalizing s with
  | nil => cases h
  | cons i rest ih =>
      cases hr : read s i with
      | error e' =>
          rw [sweep_cons_error rest hr] at h
          rw [List.cons_append, sweep_cons_error (rest ++ more) hr, h]
      | ok b =>
          rw [sweep_cons_ok rest hr] at h
          rw [List.cons_append, sweep_cons_ok (rest ++ more) hr]
          exact ih h

/-- A sweep whose places stand for others. -/
theorem sweep_map
    {ι' : Type} (f : ι' → ι) (places : List ι') (s : σ) :
    sweep read write (places.map f) s =
      sweep (fun s i => read s (f i)) (fun s i => write s (f i)) places s := by
  induction places generalizing s with
  | nil => rfl
  | cons i rest ih =>
      cases hr : read s (f i) with
      | error e => rw [List.map_cons, sweep_cons_error _ hr, sweep_cons_error rest hr]
      | ok b => rw [List.map_cons, sweep_cons_ok _ hr, sweep_cons_ok rest hr, ih]

/-- A sweep that reads and writes at once. -/
theorem sweep_step (places : List ι) (s : σ) :
    sweep (fun s i => (read s i).map (write s i)) (fun _ _ s' => s') places s =
      sweep read write places s := by
  induction places generalizing s with
  | nil => rfl
  | cons i rest ih =>
      cases hr : read s i with
      | error e =>
          rw [sweep_cons_error rest hr, sweep_cons_error (e := e) rest (by rw [hr]; rfl)]
      | ok b =>
          rw [sweep_cons_ok rest hr, sweep_cons_ok (b := write s i b) rest (by rw [hr]; rfl), ih]

/-- A sweep in groups, each of which is swept as a whole. -/
theorem sweep_flatMap_run
    {γ : Type} {f : γ → List ι} {P : List γ → σ → Prop} {groups : List γ} {s : σ}
    (hs : P [] s)
    (hstep : ∀ done k rest s, groups = done ++ k :: rest → P done s →
      ∃ s', sweep read write (f k) s = (.ok (), s') ∧ P (done ++ [k]) s') :
    ∃ s', sweep read write (groups.flatMap f) s = (.ok (), s') ∧ P groups s' := by
  suffices hfrom : ∀ (todo done : List γ) (s : σ), groups = done ++ todo → P done s →
      ∃ s', sweep read write (todo.flatMap f) s = (.ok (), s') ∧ P groups s' from
    hfrom groups [] s rfl hs
  intro todo
  induction todo with
  | nil =>
      intro done s hgroups hs
      rw [List.append_nil] at hgroups
      exact ⟨s, rfl, hgroups ▸ hs⟩
  | cons k rest ih =>
      intro done s hgroups hs
      obtain ⟨s', hs', hP⟩ := hstep done k rest s hgroups hs
      rw [List.flatMap_cons, sweep_append _ hs']
      exact ih (done ++ [k]) s' (by simp [hgroups]) hP

theorem sweep_agree_from
    {R : List ι → σ → σ → Prop} {places : List ι}
    (hstep : ∀ done i rest s t, places = done ++ i :: rest → R done s t →
      read s i = read t i ∧
        ∀ b, read s i = .ok b → R (done ++ [i]) (write s i b) (write t i b))
    (todo : List ι) :
    ∀ (done : List ι) (s t : σ), places = done ++ todo → R done s t →
      (sweep read write todo s).1 = (sweep read write todo t).1 ∧
        ((sweep read write todo s).1 = .ok () →
          R places (sweep read write todo s).2 (sweep read write todo t).2) := by
  induction todo with
  | nil =>
      intro done s t hplaces hst
      rw [List.append_nil] at hplaces
      exact ⟨rfl, fun _ => hplaces ▸ hst⟩
  | cons i rest ih =>
      intro done s t hplaces hst
      obtain ⟨hread, hwrite⟩ := hstep done i rest s t hplaces hst
      cases hr : read s i with
      | error e =>
          rw [sweep_cons_error rest hr, sweep_cons_error rest (hread ▸ hr)]
          exact ⟨rfl, fun h => by cases h⟩
      | ok b =>
          rw [sweep_cons_ok rest hr, sweep_cons_ok rest (hread ▸ hr)]
          exact ih (done ++ [i]) _ _ (by simp [hplaces]) (hwrite b hr)

theorem sweep_agree
    {R : List ι → σ → σ → Prop} {places : List ι} {s t : σ}
    (hst : R [] s t)
    (hstep : ∀ done i rest s t, places = done ++ i :: rest → R done s t →
      read s i = read t i ∧
        ∀ b, read s i = .ok b → R (done ++ [i]) (write s i b) (write t i b)) :
    (sweep read write places s).1 = (sweep read write places t).1 ∧
      ((sweep read write places s).1 = .ok () →
        R places (sweep read write places s).2 (sweep read write places t).2) :=
  sweep_agree_from hstep places [] s t rfl hst

/-- Two sweeps over the same places that read and write each in their own way: where the second
succeeds, so does the first. -/
theorem sweep_follow
    {γ : Type} {read' : τ → ι → Except ε γ} {write' : τ → ι → γ → τ}
    {R : List ι → σ → τ → Prop} {places : List ι} {s : σ} {t t' : τ}
    (hst : R [] s t)
    (hstep : ∀ done i rest s t c, places = done ++ i :: rest → R done s t → read' t i = .ok c →
      ∃ b, read s i = .ok b ∧ R (done ++ [i]) (write s i b) (write' t i c))
    (h : sweep read' write' places t = (.ok (), t')) :
    ∃ s', sweep read write places s = (.ok (), s') ∧ R places s' t' := by
  suffices hfrom : ∀ (todo done : List ι) (s : σ) (t : τ), places = done ++ todo → R done s t →
      sweep read' write' todo t = (.ok (), t') →
        ∃ s', sweep read write todo s = (.ok (), s') ∧ R places s' t' from
    hfrom places [] s t rfl hst h
  intro todo
  induction todo with
  | nil =>
      intro done s t hplaces hst h
      obtain rfl : t = t' := congrArg Prod.snd h
      rw [List.append_nil] at hplaces
      exact ⟨s, rfl, hplaces ▸ hst⟩
  | cons i rest ih =>
      intro done s t hplaces hst h
      cases hr : read' t i with
      | error e =>
          rw [sweep_cons_error rest hr] at h
          cases h
      | ok c =>
          rw [sweep_cons_ok rest hr] at h
          obtain ⟨b, hb, hwrite⟩ := hstep done i rest s t c hplaces hst hr
          rw [sweep_cons_ok rest hb]
          exact ih (done ++ [i]) _ _ (by simp [hplaces]) hwrite h

/-- A sweep that reads at each place what another reads there, in a form of its own, ends like the
other. -/
theorem sweep_mirror
    {ι' γ : Type} {read' : τ → ι' → Except ε γ} {write' : τ → ι' → γ → τ}
    {R : σ → τ → Prop} {places : List ι} {s : σ} {t : τ}
    (place : ι → ι') (form : β → γ)
    (hst : R s t)
    (hstep : ∀ i ∈ places, ∀ s t, R s t → read' t (place i) = (read s i).map form ∧
      ∀ b, read s i = .ok b → R (write s i b) (write' t (place i) (form b))) :
    (sweep read' write' (places.map place) t).1 = (sweep read write places s).1 ∧
      R (sweep read write places s).2 (sweep read' write' (places.map place) t).2 := by
  induction places generalizing s t with
  | nil => exact ⟨rfl, hst⟩
  | cons i rest ih =>
      obtain ⟨hread, hwrite⟩ := hstep i (by simp) s t hst
      rw [List.map_cons]
      cases hr : read s i with
      | error e =>
          rw [hr] at hread
          rw [sweep_cons_error rest hr, sweep_cons_error (rest.map place) hread]
          exact ⟨rfl, hst⟩
      | ok b =>
          rw [hr] at hread
          rw [sweep_cons_ok rest hr, sweep_cons_ok (rest.map place) hread]
          exact ih (hwrite b hr) fun j hj => hstep j (List.mem_cons_of_mem i hj)

/-- A sweep fails as its reads do. -/
theorem failsOnly_sweep
    {P : ε → Prop}
    (h : ∀ s i, FailsOnly P (read s i))
    (places : List ι) (s : σ) :
    FailsOnly P (sweep read write places s).1 := by
  induction places generalizing s with
  | nil => exact failsOnly_ok ()
  | cons i rest ih =>
      cases hr : read s i with
      | error e =>
          rw [sweep_cons_error rest hr]
          exact failsOnly_error (h s i e hr)
      | ok b =>
          rw [sweep_cons_ok rest hr]
          exact ih (write s i b)

/-- Every read of a sweep succeeds, and what is written then fits the state. -/
def SafeSweep (read : σ → ι → Except ε β) (write : σ → ι → β → σ) (fits : σ → ι → β → Prop) :
    List ι → σ → Prop
  | [], _ => True
  | i :: rest, s =>
      ∃ b, read s i = .ok b ∧ fits s i b ∧ SafeSweep read write fits rest (write s i b)

theorem SafeSweep.sweep_eq_ok
    {fits : σ → ι → β → Prop} {places : List ι} {s : σ}
    (h : SafeSweep read write fits places s) :
    (sweep read write places s).1 = .ok () := by
  induction places generalizing s with
  | nil => rfl
  | cons i rest ih =>
      obtain ⟨b, hr, -, hrest⟩ := h
      rw [sweep_cons_ok rest hr]
      exact ih hrest

theorem safeSweep_of_invariant
    {fits : σ → ι → β → Prop} {P : σ → Prop} {places : List ι} {s : σ}
    (hs : P s)
    (hstep : ∀ i ∈ places, ∀ s, P s → ∃ b, read s i = .ok b ∧ fits s i b ∧ P (write s i b)) :
    SafeSweep read write fits places s := by
  induction places generalizing s with
  | nil => trivial
  | cons i rest ih =>
      obtain ⟨b, hr, hfits, hb⟩ := hstep i (by simp) s hs
      exact ⟨b, hr, hfits, ih hb fun j hj => hstep j (List.mem_cons_of_mem i hj)⟩

end ReverseMode

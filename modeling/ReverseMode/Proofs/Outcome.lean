/-!
# Computations that may fail

How the results of a sequence of computations in `Except` come from the results of its
steps, and how its errors come from theirs (`FailsOnly`).
-/

namespace ReverseMode

variable {ε β γ : Type}

@[simp] theorem ok_bind (b : β) (f : β → Except ε γ) :
    (Except.ok b >>= f) = f b := by
  rfl

@[simp] theorem error_bind (e : ε) (f : β → Except ε γ) :
    (Except.error e >>= f) = .error e := by
  rfl

@[simp] theorem pure_eq_ok (b : β) :
    (pure b : Except ε β) = .ok b := by
  rfl

@[simp] theorem map_ok (b : β) (f : β → γ) :
    (Except.ok b : Except ε β).map f = .ok (f b) := by
  rfl

@[simp] theorem mapError_ok {δ : Type} (b : β) (f : ε → δ) :
    (Except.ok b : Except ε β).mapError f = .ok b := by
  rfl

theorem mapError_eq_ok_iff
    {δ : Type} {x : Except ε β} {f : ε → δ} {b : β} :
    x.mapError f = .ok b ↔ x = .ok b := by
  cases x with
  | error e => constructor <;> nofun
  | ok c => simp

theorem map_eq_ok_iff
    {x : Except ε β} {f : β → γ} {c : γ} :
    x.map f = .ok c ↔ ∃ b, x = .ok b ∧ f b = c := by
  cases x with
  | error e => simp [Except.map]
  | ok b => simp

/-- A sequence of two computations succeeds when both do. -/
theorem bind_eq_ok_iff
    {x : Except ε β} {f : β → Except ε γ} {c : γ} :
    (x >>= f) = .ok c ↔ ∃ b, x = .ok b ∧ f b = .ok c := by
  cases x with
  | error e => simp
  | ok b => simp

/-- Two sequences that begin alike and succeed go on from one result. -/
theorem exists_of_binds_eq_ok
    {δ : Type} {x : Except ε β} {f : β → Except ε γ} {g : β → Except ε δ} {c : γ} {d : δ}
    (hf : (x >>= f) = .ok c)
    (hg : (x >>= g) = .ok d) :
    ∃ b, x = .ok b ∧ f b = .ok c ∧ g b = .ok d := by
  obtain ⟨b, rfl, hc⟩ := bind_eq_ok_iff.1 hf
  exact ⟨b, rfl, hc, hg⟩

theorem mapM_eq_ok
    {l : List β} {f : β → Except ε γ} {g : β → γ}
    (h : ∀ b ∈ l, f b = .ok (g b)) :
    l.mapM f = .ok (l.map g) := by
  induction l with
  | nil => rfl
  | cons b l ih =>
      rw [List.mapM_cons, h b (by simp), ih fun c hc => h c (List.mem_cons_of_mem b hc)]
      rfl

theorem mapM_congr
    {l : List β} {f g : β → Except ε γ}
    (h : ∀ b ∈ l, f b = g b) :
    l.mapM f = l.mapM g := by
  induction l with
  | nil => rfl
  | cons b l ih =>
      rw [List.mapM_cons, List.mapM_cons, h b (by simp)]
      rw [ih fun c hc => h c (List.mem_cons_of_mem b hc)]

/-- A sequence of computations that mirrors another gives its results, each in another form. -/
theorem mapM_mirror
    {β' γ' : Type} {l : List β} {f : β → Except ε γ} {f' : β' → Except ε γ'}
    (place : β → β') (form : γ → γ')
    (h : ∀ b ∈ l, f' (place b) = (f b).map form) :
    (l.map place).mapM f' = (l.mapM f).map (List.map form) := by
  induction l with
  | nil => rfl
  | cons b l ih =>
      rw [List.map_cons, List.mapM_cons, List.mapM_cons, h b (by simp),
        ih fun c hc => h c (List.mem_cons_of_mem b hc)]
      cases f b with
      | error e => rfl
      | ok c => cases l.mapM f <;> rfl

theorem length_of_mapM_eq_ok
    {l : List β} {f : β → Except ε γ} {r : List γ}
    (h : l.mapM f = .ok r) :
    r.length = l.length := by
  induction l generalizing r with
  | nil =>
      obtain rfl : [] = r := Except.ok.inj h
      rfl
  | cons b l ih =>
      rw [List.mapM_cons] at h
      obtain ⟨c, -, h⟩ := bind_eq_ok_iff.1 h
      obtain ⟨cs, hcs, h⟩ := bind_eq_ok_iff.1 h
      obtain rfl : c :: cs = r := Except.ok.inj h
      simp [ih hcs]

theorem exists_mapM_eq_ok
    {l : List β} {f : β → Except ε γ}
    (h : ∀ b ∈ l, ∃ c, f b = .ok c) :
    ∃ r, l.mapM f = .ok r := by
  induction l with
  | nil => exact ⟨[], rfl⟩
  | cons b l ih =>
      obtain ⟨c, hc⟩ := h b (by simp)
      obtain ⟨cs, hcs⟩ := ih fun d hd => h d (List.mem_cons_of_mem b hd)
      refine ⟨c :: cs, ?_⟩
      rw [List.mapM_cons, hc, hcs]
      rfl

/-- A sequence of computations that succeed is a map. -/
theorem exists_map_of_mapM_eq_ok
    [Inhabited γ]
    {l : List β} {f : β → Except ε γ} {r : List γ}
    (h : l.mapM f = .ok r) :
    ∃ g : β → γ, r = l.map g ∧ ∀ b ∈ l, f b = .ok (g b) := by
  suffices hall : ∀ b ∈ l, ∃ c, f b = .ok c by
    have hg : ∀ b ∈ l, f b = .ok ((f b).toOption.getD default) := by
      intro b hb
      obtain ⟨c, hc⟩ := hall b hb
      rw [hc]
      rfl
    refine ⟨fun b => (f b).toOption.getD default, ?_, hg⟩
    exact Except.ok.inj (h.symm.trans (mapM_eq_ok hg))
  induction l generalizing r with
  | nil => simp
  | cons b l ih =>
      rw [List.mapM_cons] at h
      obtain ⟨c, hc, h⟩ := bind_eq_ok_iff.1 h
      obtain ⟨cs, hcs, -⟩ := bind_eq_ok_iff.1 h
      intro d hd
      rcases List.mem_cons.1 hd with rfl | hd
      · exact ⟨c, hc⟩
      · exact ih hcs d hd

section Failing

variable {P : ε → Prop}

/-- A computation that fails with certain errors only. -/
def FailsOnly (P : ε → Prop) (x : Except ε β) : Prop :=
  ∀ e, x = .error e → P e

theorem failsOnly_ok (b : β) :
    FailsOnly P (.ok b : Except ε β) := by
  rintro e ⟨⟩

theorem failsOnly_error
    {e : ε}
    (h : P e) :
    FailsOnly P (.error e : Except ε β) := by
  rintro e' ⟨⟩
  exact h

theorem failsOnly_bind
    {x : Except ε β} {f : β → Except ε γ}
    (hx : FailsOnly P x)
    (hf : ∀ b, FailsOnly P (f b)) :
    FailsOnly P (x >>= f) := by
  cases x with
  | error e => exact failsOnly_error (hx e rfl)
  | ok b => exact hf b

theorem failsOnly_mapM
    {l : List β} {f : β → Except ε γ}
    (h : ∀ b, FailsOnly P (f b)) :
    FailsOnly P (l.mapM f) := by
  induction l with
  | nil => exact failsOnly_ok []
  | cons b l ih =>
      rw [List.mapM_cons]
      exact failsOnly_bind (h b) fun c => failsOnly_bind ih fun cs => failsOnly_ok (c :: cs)

end Failing
end ReverseMode

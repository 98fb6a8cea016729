import ReverseMode.Program.Instruction
import ReverseMode.Proofs.Outcome
import ReverseMode.Proofs.Tape.Storage

/-!
# The registers of a program

What each write of a running program changes, and what each read looks at.

**Reads.**  An instruction is determined by the registers that it names: `Compute.run_congr`,
`PartialsCall.run_congr` and `Accumulation.amount_congr`.  It runs when there are these registers:
`Compute.exists_run`, `PartialsCall.exists_run` and `Accumulation.exists_amount`.

**Writes.**  Values, adjoints and cached partials are three tables, and every write changes
one of them at the places it names.
-/

namespace ReverseMode

variable {κ α : Type}

section Operands

/-- The slots whose values a computation reads. -/
def Compute.operands : Compute κ α → List Nat
  | add a b | mul a b | termPower a b | binary _ a b => [a, b]
  | copy a | square a | power a _ | exp a | ln a | unary _ a => [a]
  | sum as | nary _ as => as

/-- The slots whose values a call reads. -/
def PartialsCall.operands : PartialsCall α → List Nat
  | unary _ a => [a]
  | binary _ a b => [a, b]
  | nary _ as => as

/-- The slots whose values a factor reads. -/
def Accumulation.operands (a : Accumulation κ) : List Nat :=
  match a.factor with
  | .unit | .cached _ => []
  | .value s | .power s _ | .recip s => [s]
  | .base b e | .exponent b e => [b, e, a.consumer]

end Operands

namespace Registers

section Reads

variable {r r' : Registers α}

theorem value_eq_ok
    {s : Nat} {v : α}
    (h : r.values[s]? = some v) :
    (r.value s : Except (Fault κ) α) = .ok v := by
  simp [value, h]

theorem exists_value
    {s : Nat}
    (h : s < r.values.size) :
    ∃ v, (r.value s : Except (Fault κ) α) = .ok v :=
  ⟨r.values[s], value_eq_ok (Array.getElem?_eq_getElem h)⟩

theorem diff_eq_ok
    {s : Nat} {d : α}
    (h : r.diffs[s]? = some d) :
    (r.diff s : Except (Fault κ) α) = .ok d := by
  simp [diff, h]

theorem cachedPartial_eq_ok
    {edge : Nat} {w : α}
    (h : r.partials[edge]? = some w) :
    (r.cachedPartial edge : Except (Fault κ) α) = .ok w := by
  simp [cachedPartial, h]

theorem value_congr
    {s : Nat}
    (h : r.values[s]? = r'.values[s]?) :
    (r.value s : Except (Fault κ) α) = r'.value s := by
  rw [value, value, h]

theorem diff_congr
    {s : Nat}
    (h : r.diffs[s]? = r'.diffs[s]?) :
    (r.diff s : Except (Fault κ) α) = r'.diff s := by
  rw [diff, diff, h]

theorem cachedPartial_congr
    {edge : Nat}
    (h : r.partials[edge]? = r'.partials[edge]?) :
    (r.cachedPartial edge : Except (Fault κ) α) = r'.cachedPartial edge := by
  rw [cachedPartial, cachedPartial, h]

end Reads

section Writes

variable (r : Registers α)

theorem values_setValue_self
    {s : Nat} (v : α)
    (h : s < r.values.size) :
    (r.setValue s v).values[s]? = some v := by
  rw [setValue, Array.getElem?_setIfInBounds, if_pos rfl, if_pos h]

theorem values_setValue_ne
    {s j : Nat} (v : α)
    (h : s ≠ j) :
    (r.setValue s v).values[j]? = r.values[j]? := by
  rw [setValue, Array.getElem?_setIfInBounds, if_neg h]

@[simp] theorem size_values_setValue (s : Nat) (v : α) :
    (r.setValue s v).values.size = r.values.size := by
  simp [setValue]

theorem setPoint_eq (point : List α) :
    r.setPoint point =
      { r with
        values := point.zipIdx.foldl (fun vs x => vs.modify x.2 fun _ => x.1) r.values } := by
  simp only [setPoint, setIfInBounds_eq_modify]

theorem values_setPoint_lt
    {point : List α} {i : Nat} {x : α}
    (h : point[i]? = some x)
    (hi : i < r.values.size) :
    (r.setPoint point).values[i]? = some x := by
  have := getElem?_foldl_modify_add (fun (x : α) _ => x) point 0 r.values i h
  rw [setPoint_eq]
  simpa [hi] using this

theorem values_setPoint_ge
    {point : List α} {i : Nat}
    (h : point.length ≤ i) :
    (r.setPoint point).values[i]? = r.values[i]? := by
  rw [setPoint_eq]
  exact getElem?_foldl_modify_ge (fun (x : α) _ => x) point 0 r.values i (by omega)

@[simp] theorem size_values_setPoint (point : List α) :
    (r.setPoint point).values.size = r.values.size := by
  rw [setPoint_eq]
  exact size_foldl_modify (fun (x : α) _ => x) _ _

theorem setPartials_eq (first : Nat) (ws : List α) :
    r.setPartials first ws =
      { r with
        partials :=
          (ws.zipIdx first).foldl (fun ps x => ps.modify x.2 fun _ => x.1) r.partials } := by
  simp only [setPartials, setIfInBounds_eq_modify]

theorem partials_setPartials_lt
    {first e : Nat} {ws : List α}
    (h : e < first) :
    (r.setPartials first ws).partials[e]? = r.partials[e]? := by
  rw [setPartials_eq]
  exact getElem?_foldl_modify_lt (fun (x : α) _ => x) ws first r.partials e h

theorem partials_setPartials_ge
    {first e : Nat} {ws : List α}
    (h : first + ws.length ≤ e) :
    (r.setPartials first ws).partials[e]? = r.partials[e]? := by
  rw [setPartials_eq]
  exact getElem?_foldl_modify_ge (fun (x : α) _ => x) ws first r.partials e h

theorem partials_setPartials_add
    {first k : Nat} {ws : List α} {w : α}
    (h : ws[k]? = some w)
    (hk : first + k < r.partials.size) :
    (r.setPartials first ws).partials[first + k]? = some w := by
  have := getElem?_foldl_modify_add (fun (x : α) _ => x) ws first r.partials k h
  rw [setPartials_eq]
  simpa [hk] using this

@[simp] theorem size_partials_setPartials (first : Nat) (ws : List α) :
    (r.setPartials first ws).partials.size = r.partials.size := by
  rw [setPartials_eq]
  exact size_foldl_modify (fun (x : α) _ => x) _ _

variable [Scalar κ α]

theorem diffs_seed
    {i : Nat}
    (h : i < r.diffs.size) :
    r.seed.diffs[i]? = some (if i = r.diffs.size - 1 then 1 else 0) := by
  rw [seed, Array.getElem?_setIfInBounds, Array.getElem?_map, Array.getElem?_eq_getElem h]
  by_cases hi : i = r.diffs.size - 1
  · rw [if_pos hi.symm, if_pos hi, if_pos (by rw [Array.size_map]; exact hi ▸ h)]
  · rw [if_neg (Ne.symm hi), if_neg hi]
    rfl

@[simp] theorem size_diffs_seed : r.seed.diffs.size = r.diffs.size := by
  simp [seed]

theorem diffs_addDiff_self
    {s : Nat} {d x : α}
    (h : r.diffs[s]? = some x) :
    (r.addDiff s d).diffs[s]? = some (x + d) := by
  rw [addDiff, Array.getElem?_modify, if_pos rfl, h]
  rfl

theorem diffs_addDiff_ne
    {s j : Nat} (d : α)
    (h : s ≠ j) :
    (r.addDiff s d).diffs[j]? = r.diffs[j]? := by
  rw [addDiff, Array.getElem?_modify, if_neg h]

@[simp] theorem size_diffs_addDiff (s : Nat) (d : α) :
    (r.addDiff s d).diffs.size = r.diffs.size := by
  simp [addDiff]

end Writes
end Registers

section Instructions

variable [Exponent κ] [Scalar κ α] {r r' : Registers α}

theorem Compute.run_congr
    {c : Compute κ α}
    (h : ∀ a ∈ c.operands, r.values[a]? = r'.values[a]?) :
    c.run r = c.run r' := by
  have hval : ∀ a ∈ c.operands, (r.value a : Except (Fault κ) α) = r'.value a :=
    fun a ha => Registers.value_congr (h a ha)
  cases c with
  | sum as => rw [run, run, mapM_congr (l := as) hval]
  | nary f as => rw [run, run, mapM_congr (l := as) hval]
  | add a b => simp only [run, hval a (by simp [operands]), hval b (by simp [operands])]
  | mul a b => simp only [run, hval a (by simp [operands]), hval b (by simp [operands])]
  | termPower a b => simp only [run, hval a (by simp [operands]), hval b (by simp [operands])]
  | binary f a b => simp only [run, hval a (by simp [operands]), hval b (by simp [operands])]
  | copy a => simp only [run, hval a (by simp [operands])]
  | square a => simp only [run, hval a (by simp [operands])]
  | power a k => simp only [run, hval a (by simp [operands])]
  | exp a => simp only [run, hval a (by simp [operands])]
  | ln a => simp only [run, hval a (by simp [operands])]
  | unary f a => simp only [run, hval a (by simp [operands])]

omit [Exponent κ] in
theorem PartialsCall.run_congr
    {c : PartialsCall α}
    (h : ∀ a ∈ c.operands, r.values[a]? = r'.values[a]?) :
    (c.run r : Except (Fault κ) (List α)) = c.run r' := by
  have hval : ∀ a ∈ c.operands, (r.value a : Except (Fault κ) α) = r'.value a :=
    fun a ha => Registers.value_congr (h a ha)
  cases c with
  | unary f a => simp only [run, hval a (by simp [operands])]
  | binary f a b => simp only [run, hval a (by simp [operands]), hval b (by simp [operands])]
  | nary f as => rw [run, run, mapM_congr (l := as) hval]

theorem Accumulation.amount_congr
    {a : Accumulation κ}
    (hdiff : r.diffs[a.consumer]? = r'.diffs[a.consumer]?)
    (hval : ∀ s ∈ a.operands, r.values[s]? = r'.values[s]?)
    (hcached : ∀ e, a.factor = .cached e → r.partials[e]? = r'.partials[e]?) :
    (a.amount r : Except (Fault κ) α) = a.amount r' := by
  have hval : ∀ s ∈ a.operands, (r.value s : Except (Fault κ) α) = r'.value s :=
    fun s hs => Registers.value_congr (hval s hs)
  have hcached : ∀ e, a.factor = .cached e →
      (r.cachedPartial e : Except (Fault κ) α) = r'.cachedPartial e :=
    fun e he => Registers.cachedPartial_congr (hcached e he)
  rw [amount, amount, Registers.diff_congr hdiff]
  rw [operands] at hval
  cases hf : a.factor <;> simp_all

theorem Compute.exists_run
    {c : Compute κ α}
    (h : ∀ a ∈ c.operands, a < r.values.size) :
    ∃ v, c.run r = .ok v := by
  have hval : ∀ a ∈ c.operands, ∃ v, (r.value a : Except (Fault κ) α) = .ok v :=
    fun a ha => Registers.exists_value (h a ha)
  cases c with
  | sum as | nary f as =>
      obtain ⟨vs, hvs⟩ := exists_mapM_eq_ok (l := as) hval
      rw [run, hvs]
      exact ⟨_, rfl⟩
  | add a b | mul a b | termPower a b | binary f a b =>
      obtain ⟨x, hx⟩ := hval a (by simp [operands])
      obtain ⟨y, hy⟩ := hval b (by simp [operands])
      rw [run, hx, hy]
      exact ⟨_, rfl⟩
  | copy a => exact hval a (by simp [operands])
  | square a | power a k | exp a | ln a | unary f a =>
      obtain ⟨x, hx⟩ := hval a (by simp [operands])
      rw [run, hx]
      exact ⟨_, rfl⟩

omit [Exponent κ] in
theorem PartialsCall.exists_run
    {c : PartialsCall α}
    (h : ∀ a ∈ c.operands, a < r.values.size) :
    ∃ ws, (c.run r : Except (Fault κ) (List α)) = .ok ws := by
  have hval : ∀ a ∈ c.operands, ∃ v, (r.value a : Except (Fault κ) α) = .ok v :=
    fun a ha => Registers.exists_value (h a ha)
  cases c with
  | unary f a =>
      obtain ⟨x, hx⟩ := hval a (by simp [operands])
      rw [run, hx]
      exact ⟨_, rfl⟩
  | binary f a b =>
      obtain ⟨x, hx⟩ := hval a (by simp [operands])
      obtain ⟨y, hy⟩ := hval b (by simp [operands])
      rw [run, hx, hy]
      exact ⟨_, rfl⟩
  | nary f as =>
      obtain ⟨vs, hvs⟩ := exists_mapM_eq_ok (l := as) hval
      rw [run, hvs]
      exact ⟨_, rfl⟩

omit [Exponent κ] in
/-- A call gives one partial for each slot that it reads. -/
theorem PartialsCall.length_run
    {c : PartialsCall α} {ws : List α}
    (h : (c.run r : Except (Fault κ) (List α)) = .ok ws) :
    ws.length = c.operands.length := by
  cases c with
  | unary f a =>
      obtain ⟨x, -, h⟩ := bind_eq_ok_iff.1 h
      obtain rfl := Except.ok.inj h
      rfl
  | binary f a b =>
      obtain ⟨x, -, h⟩ := bind_eq_ok_iff.1 h
      obtain ⟨y, -, h⟩ := bind_eq_ok_iff.1 h
      obtain rfl := Except.ok.inj h
      rfl
  | nary f as =>
      obtain ⟨xs, hxs, h⟩ := bind_eq_ok_iff.1 h
      obtain rfl := Except.ok.inj h
      rw [NaryFn.length_gradient, length_of_mapM_eq_ok hxs]
      rfl

theorem Accumulation.exists_amount
    {a : Accumulation κ}
    (hdiff : a.consumer < r.diffs.size)
    (hval : ∀ s ∈ a.operands, s < r.values.size)
    (hcached : ∀ e, a.factor = .cached e → e < r.partials.size) :
    ∃ d, (a.amount r : Except (Fault κ) α) = .ok d := by
  have hval : ∀ s ∈ a.operands, ∃ v, (r.value s : Except (Fault κ) α) = .ok v :=
    fun s hs => Registers.exists_value (hval s hs)
  rw [operands] at hval
  rw [amount, Registers.diff_eq_ok (Array.getElem?_eq_getElem hdiff), ok_bind]
  cases hf : a.factor with
  | unit => exact ⟨_, rfl⟩
  | value s | power s k | recip s =>
      obtain ⟨x, hx⟩ := hval s (by simp [hf])
      simp only [hx]
      exact ⟨_, rfl⟩
  | base b e | exponent b e =>
      obtain ⟨x, hx⟩ := hval b (by simp [hf])
      obtain ⟨y, hy⟩ := hval e (by simp [hf])
      obtain ⟨z, hz⟩ := hval a.consumer (by simp [hf])
      simp only [hx, hy, hz]
      exact ⟨_, rfl⟩
  | cached e =>
      simp only [Registers.cachedPartial_eq_ok (Array.getElem?_eq_getElem (hcached e hf))]
      exact ⟨_, rfl⟩

end Instructions
end ReverseMode

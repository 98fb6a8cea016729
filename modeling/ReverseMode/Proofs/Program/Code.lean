import ReverseMode.Program.Basic
import ReverseMode.Proofs.Program.Registers
import ReverseMode.Proofs.Tape.Plan

/-!
# The code of a program

The three routines of the program of a sound tape, described without the way they are made.

* `ValueCode`: the value routine has one instruction for every slot that computes, in slot
  order, and it reads the operands of the slot.
* `PartialsCode`: the opening calls are those of the slots that call functions, in slot order.
* `accumulationRoutine_eq`: the accumulations into a slot are the places that read it, in the
  order in which a reverse sweep passes them back.

Of the tape the code shows the plan only: `valueRoutine_of_fresh_eq`,
`partialsRoutine_of_fresh_eq`, `accumulationRoutine_of_fresh_eq`.
-/

namespace ReverseMode
namespace Program

variable {κ α : Type}
variable {t u : Tape κ α}

section Defs

variable [Exponent κ]

/-- The value routine of a tape. -/
structure ValueCode (t : Tape κ α) (code : List (ValueInstruction κ α)) : Prop where
  sorted : code.Pairwise fun k l => k.target < l.target
  mem : ∀ k ∈ code, ∃ s, t.slots[k.target]? = some s ∧ t.dimension ≤ k.target ∧
    computeOf t s.op (t.sourcesIn s.inputs) = .ok (some k.compute)
  complete : ∀ i s, t.slots[i]? = some s → t.dimension ≤ i → s.op.isConst = false →
    ∃ k ∈ code, k.target = i

/-- The call for the partials of an operation over given slots. -/
inductive CallOf (t : Tape κ α) : Op κ → List Nat → PartialsCall α → Prop where
  | unary {h : Nat} {f : UnaryFn α} (a : Nat) (hf : t.callbacks.unary[h]? = some f) :
      CallOf t (.unary h) [a] (.unary f a)
  | binary {h : Nat} {f : BinaryFn α} (a b : Nat) (hf : t.callbacks.binary[h]? = some f) :
      CallOf t (.binary h) [a, b] (.binary f a b)
  | nary {h : Nat} {f : NaryFn α} (as : List Nat) (hf : t.callbacks.nary[h]? = some f) :
      CallOf t (.nary h) as (.nary f as)

omit [Exponent κ] in
theorem CallOf.isCallback
    {t : Tape κ α} {op : Op κ} {as : List Nat} {call : PartialsCall α}
    (h : CallOf t op as call) :
    op.isCallback = true := by
  cases h <;> rfl

/-- The opening calls of the derivative routine of a tape. -/
structure PartialsCode (t : Tape κ α) (code : List (PartialsInstruction α)) : Prop where
  sorted : code.Pairwise fun k l => k.slot < l.slot
  mem : ∀ k ∈ code, ∃ s, t.slots[k.slot]? = some s ∧ k.first = s.inputs.start ∧
    CallOf t s.op (t.sourcesIn s.inputs) k.call
  complete : ∀ i s, t.slots[i]? = some s → s.op.isCallback = true → ∃ k ∈ code, k.slot = i

/-- The factor for operand `k` of an operation over given slots, where the operation stands in
slot `consumer` and its window starts at `start`. -/
inductive FactorOf (consumer start : Nat) : Op κ → List Nat → Nat → Factor κ → Prop where
  | sum (as : List Nat) (k : Nat) : FactorOf consumer start .sum as k .unit
  | left (a b : Nat) : FactorOf consumer start .product [a, b] 0 (.value b)
  | right (a b : Nat) : FactorOf consumer start .product [a, b] 1 (.value a)
  | power (a : Nat) (k : κ) : FactorOf consumer start (.constPower k) [a] 0 (.power a k)
  | base (a b : Nat) : FactorOf consumer start .termPower [a, b] 0 (.base a b)
  | exponent (a b : Nat) : FactorOf consumer start .termPower [a, b] 1 (.exponent a b)
  | exp (a : Nat) : FactorOf consumer start .exp [a] 0 (.value consumer)
  | ln (a : Nat) : FactorOf consumer start .ln [a] 0 (.recip a)
  | cached {op : Op κ} (as : List Nat) (k : Nat) (h : op.isCallback = true) :
      FactorOf consumer start op as k (.cached (start + k))

/-- The operand places of a slot, upwards. -/
def readsOf (t : Tape κ α) (j : Nat) : List Reading :=
  (t.slots[j]?.map fun s =>
    (t.sourcesIn s.inputs).zipIdx.map fun a =>
      { consumer := j, position := a.2, source := a.1 : Reading }).getD []

/-- All operand places, consumers from the last slot down. -/
def reads (t : Tape κ α) : List Reading :=
  (List.range t.size).reverse.flatMap (readsOf t)

/-- The factor for an operand place; no factor where there is no such place. -/
def factor (t : Tape κ α) (r : Reading) : Factor κ :=
  (factorOf t r).toOption.getD .unit

/-- The accumulations into a slot, one for each place that reads it. -/
def accumulations (t : Tape κ α) (i : Nat) : List (Accumulation κ) :=
  if (t.slots[i]?.map (·.op.isConst)).getD true then []
  else
    ((reads t).filter fun r => r.source = i).map fun r =>
      { target := i, consumer := r.consumer, position := r.position, factor := factor t r }

end Defs

section Values

theorem sources_eq_ok
    (ht : t.Sound)
    {i : Nat} {s : Slot κ α}
    (hs : t.slots[i]? = some s) :
    sources t i = .ok (t.sourcesIn s.inputs) := by
  rw [sources, Tape.inputs_eq_ok hs (ht.slot hs).window]
  rfl

variable [Exponent κ]

/-- A slot that computes reads its operands. -/
theorem operands_of_computeOf
    {op : Op κ} {as : List Nat} {c : Compute κ α}
    (hover : op.Over as)
    (h : computeOf t op as = .ok (some c)) :
    c.operands = as := by
  cases hover with
  | input => cases h
  | const => cases h
  | sum as =>
      match as with
      | [] => cases h; rfl
      | [a] => cases h; rfl
      | [a, b] => cases h; rfl
      | a :: b :: c :: as => cases h; rfl
  | constPower k a =>
      rw [computeOf] at h
      split at h
      · cases h
        rfl
      · split at h <;> cases h <;> rfl
  | unary n a =>
      rw [computeOf] at h
      cases hf : t.unaryFn n <;> rw [hf] at h <;> cases h
      rfl
  | binary n a b =>
      rw [computeOf] at h
      cases hf : t.binaryFn n <;> rw [hf] at h <;> cases h
      rfl
  | nary n as =>
      rw [computeOf] at h
      cases hf : t.naryFn n <;> rw [hf] at h <;> cases h
      rfl
  | _ =>
      cases h
      rfl

/-- Only leaves have nothing to compute. -/
theorem computeOf_eq_none_iff
    {op : Op κ} {as : List Nat}
    (hover : op.Over as) :
    computeOf t op as = .ok none ↔ op.isInput = true ∨ op.isConst = true := by
  constructor
  · intro h
    cases hover with
    | input => exact .inl rfl
    | const => exact .inr rfl
    | sum as =>
        match as with
        | [] | [a] | [a, b] | a :: b :: c :: as => cases h
    | constPower k a =>
        rw [computeOf] at h
        split at h
        · cases h
        · split at h <;> cases h
    | unary n a =>
        rw [computeOf] at h
        cases hf : t.unaryFn n <;> rw [hf] at h <;> cases h
    | binary n a b =>
        rw [computeOf] at h
        cases hf : t.binaryFn n <;> rw [hf] at h <;> cases h
    | nary n as =>
        rw [computeOf] at h
        cases hf : t.naryFn n <;> rw [hf] at h <;> cases h
    | _ => cases h
  · rintro (h | h) <;> cases op <;> first
      | rfl
      | cases h

/-- The instruction of a slot is made from its operation and its operands. -/
theorem valueInstruction?_eq
    (ht : t.Sound)
    {i : Nat} {s : Slot κ α}
    (hs : t.slots[i]? = some s) :
    valueInstruction? t i =
      (computeOf t s.op (t.sourcesIn s.inputs)).map
        (Option.map fun c => { target := i, compute := c }) := by
  rw [valueInstruction?, Tape.slot_eq_ok hs, ok_bind, sources_eq_ok ht hs, ok_bind]
  cases computeOf t s.op (t.sourcesIn s.inputs) <;> rfl

/-- The list of what the places of a table may give, place by place. -/
theorem pairwise_filterMap_range'
    {β : Type} {a n : Nat} {g : Nat → Option β} {key : β → Nat}
    (h : ∀ i ∈ List.range' a n, ∀ b, g i = some b → key b = i) :
    ((List.range' a n).filterMap g).Pairwise fun b c => key b < key c := by
  rw [List.pairwise_filterMap]
  refine List.Pairwise.imp_of_mem ?_ List.pairwise_lt_range'
  intro i j hi hj hij b hb c hc
  rw [h i hi b hb, h j hj c hc]
  exact hij

theorem valueCode_of_valueRoutine
    (ht : t.Sound)
    {code : List (ValueInstruction κ α)}
    (h : valueRoutine t = .ok code) :
    ValueCode t code := by
  rw [valueRoutine] at h
  obtain ⟨all, hall, h⟩ := bind_eq_ok_iff.1 h
  obtain ⟨g, rfl, hg⟩ := exists_map_of_mapM_eq_ok hall
  obtain rfl : (List.map g _).filterMap id = code := Except.ok.inj h
  rw [List.filterMap_map, Function.id_comp]
  -- Each place of the routine and what its slot gives.
  have hplace : ∀ i ∈ List.range' t.dimension (t.size - t.dimension), ∃ s,
      t.slots[i]? = some s ∧ t.dimension ≤ i ∧ ∃ c,
        computeOf t s.op (t.sourcesIn s.inputs) = .ok c ∧
          g i = c.map fun c => { target := i, compute := c } := by
    intro i hi
    obtain ⟨hle, hlt⟩ := List.mem_range'_1.1 hi
    obtain ⟨s, hs⟩ := Tape.exists_slot (t := t) (i := i) (by omega)
    refine ⟨s, hs, hle, ?_⟩
    have hgi := hg i hi
    rw [valueInstruction?_eq ht hs] at hgi
    cases hc : computeOf t s.op (t.sourcesIn s.inputs) with
    | error e => rw [hc] at hgi; cases hgi
    | ok c =>
        rw [hc] at hgi
        exact ⟨c, rfl, (Except.ok.inj hgi).symm⟩
  constructor
  · apply pairwise_filterMap_range'
    intro i hi k hk
    obtain ⟨-, -, -, c, -, hgi⟩ := hplace i hi
    rw [hgi] at hk
    obtain ⟨c, -, rfl⟩ := Option.map_eq_some_iff.1 hk
    rfl
  · intro k hk
    obtain ⟨i, hi, hgi⟩ := List.mem_filterMap.1 hk
    obtain ⟨s, hs, hle, c, hc, hgi'⟩ := hplace i hi
    rw [hgi'] at hgi
    obtain ⟨c, rfl, rfl⟩ := Option.map_eq_some_iff.1 hgi
    exact ⟨s, hs, hle, hc⟩
  · intro i s hs hle hconst
    have hlt := Tape.lt_size_of_slot hs
    have hi : i ∈ List.range' t.dimension (t.size - t.dimension) := by
      rw [List.mem_range'_1]
      omega
    obtain ⟨s', hs', -, c, hc, hgi⟩ := hplace i hi
    obtain rfl : s' = s := Option.some.inj (hs'.symm.trans hs)
    cases c with
    | none =>
        have hin := (ht.slot hs).input_iff
        rcases (computeOf_eq_none_iff (ht.slot hs).applied).1 hc with h | h
        · have := hin.1 h
          omega
        · rw [hconst] at h
          cases h
    | some c => exact ⟨_, List.mem_filterMap.2 ⟨i, hi, hgi⟩, rfl⟩

/-- An instruction reads variables, constants and what instructions before it compute. -/
theorem ValueCode.covered
    (ht : t.Sound)
    {done rest : List (ValueInstruction κ α)} {k : ValueInstruction κ α}
    (h : ValueCode t (done ++ k :: rest))
    {j : Nat}
    (hj : j ∈ k.compute.operands) :
    j < t.dimension ∨ (∃ r, t.slots[j]? = some r ∧ r.op.isConst = true) ∨
      ∃ l ∈ done, l.target = j := by
  obtain ⟨s, hs, -, hc⟩ := h.mem k (by simp)
  rw [operands_of_computeOf (ht.slot hs).applied hc] at hj
  have hlt := (ht.slot hs).earlier j hj
  have hk := Tape.lt_size_of_slot hs
  obtain ⟨r, hr⟩ := Tape.exists_slot (t := t) (i := j) (by omega)
  by_cases hd : j < t.dimension
  · exact .inl hd
  · right
    cases hconst : r.op.isConst with
    | true => exact .inl ⟨_, hr, hconst⟩
    | false =>
        right
        obtain ⟨l, hl, rfl⟩ := h.complete j _ hr (by omega) hconst
        rw [List.mem_append, List.mem_cons] at hl
        -- The code is in slot order, so what comes after `k` has a greater target.
        have hsorted := (List.pairwise_append.1 h.sorted).2.1
        rw [List.pairwise_cons] at hsorted
        rcases hl with hl | rfl | hl
        · exact ⟨l, hl, rfl⟩
        · omega
        · have := hsorted.1 l hl
          omega

end Values

section Partials

theorem callOf_of_partialsInstruction?
    (ht : t.Sound)
    {i : Nat} {s : Slot κ α} {k? : Option (PartialsInstruction α)}
    (hs : t.slots[i]? = some s)
    (h : partialsInstruction? t i = .ok k?) :
    (∀ k, k? = some k → k.slot = i ∧ k.first = s.inputs.start ∧
      CallOf t s.op (t.sourcesIn s.inputs) k.call) ∧
      (k? = none → s.op.isCallback = false) := by
  rw [partialsInstruction?, Tape.slot_eq_ok hs, ok_bind, sources_eq_ok ht hs, ok_bind] at h
  have hover := (ht.slot hs).applied
  generalize s.op = op at h hover ⊢
  generalize t.sourcesIn s.inputs = as at h hover ⊢
  cases hover with
  | unary n a =>
      obtain ⟨call?, hcall, h⟩ := bind_eq_ok_iff.1 h
      obtain ⟨f, hf, rfl⟩ := map_eq_ok_iff.1 hcall
      obtain rfl := Except.ok.inj h
      constructor
      · rintro k ⟨⟩
        exact ⟨rfl, rfl, .unary a (Tape.unaryFn_eq_ok_iff.1 hf)⟩
      · rintro ⟨⟩
  | binary n a b =>
      obtain ⟨call?, hcall, h⟩ := bind_eq_ok_iff.1 h
      obtain ⟨f, hf, rfl⟩ := map_eq_ok_iff.1 hcall
      obtain rfl := Except.ok.inj h
      constructor
      · rintro k ⟨⟩
        exact ⟨rfl, rfl, .binary a b (Tape.binaryFn_eq_ok_iff.1 hf)⟩
      · rintro ⟨⟩
  | nary n as =>
      obtain ⟨call?, hcall, h⟩ := bind_eq_ok_iff.1 h
      obtain ⟨f, hf, rfl⟩ := map_eq_ok_iff.1 hcall
      obtain rfl := Except.ok.inj h
      constructor
      · rintro k ⟨⟩
        exact ⟨rfl, rfl, .nary as (Tape.naryFn_eq_ok_iff.1 hf)⟩
      · rintro ⟨⟩
  | _ =>
      obtain rfl := Except.ok.inj h
      constructor
      · rintro k ⟨⟩
      · intro _
        rfl

theorem CallOf.operands_eq
    {op : Op κ} {as : List Nat} {c : PartialsCall α}
    (h : CallOf t op as c) :
    c.operands = as := by
  cases h <;> rfl

theorem partialsCode_of_partialsRoutine
    (ht : t.Sound)
    {code : List (PartialsInstruction α)}
    (h : partialsRoutine t = .ok code) :
    PartialsCode t code := by
  rw [partialsRoutine] at h
  obtain ⟨all, hall, h⟩ := bind_eq_ok_iff.1 h
  obtain ⟨g, rfl, hg⟩ := exists_map_of_mapM_eq_ok hall
  obtain rfl : (List.map g _).filterMap id = code := Except.ok.inj h
  rw [List.filterMap_map, Function.id_comp]
  have hplace : ∀ i ∈ List.range t.size, ∃ s, t.slots[i]? = some s ∧
      (∀ k, g i = some k → k.slot = i ∧ k.first = s.inputs.start ∧
        CallOf t s.op (t.sourcesIn s.inputs) k.call) ∧
      (g i = none → s.op.isCallback = false) := by
    intro i hi
    obtain ⟨s, hs⟩ := Tape.exists_slot (List.mem_range.1 hi)
    exact ⟨s, hs, callOf_of_partialsInstruction? ht hs (hg i hi)⟩
  constructor
  · rw [List.range_eq_range'] at hplace ⊢
    apply pairwise_filterMap_range'
    intro i hi k hk
    obtain ⟨s, -, hsome, -⟩ := hplace i hi
    exact (hsome k hk).1
  · intro k hk
    obtain ⟨i, hi, hgi⟩ := List.mem_filterMap.1 hk
    obtain ⟨s, hs, hsome, -⟩ := hplace i hi
    obtain ⟨rfl, hfirst, hcall⟩ := hsome k hgi
    exact ⟨s, hs, hfirst, hcall⟩
  · intro i s hs hcb
    have hi := List.mem_range.2 (Tape.lt_size_of_slot hs)
    obtain ⟨s', hs', hsome, hnone⟩ := hplace i hi
    obtain rfl : s' = s := Option.some.inj (hs'.symm.trans hs)
    cases hgi : g i with
    | none =>
        rw [hnone hgi] at hcb
        cases hcb
    | some k => exact ⟨k, List.mem_filterMap.2 ⟨i, hi, hgi⟩, (hsome k hgi).1⟩

end Partials

section Accumulations

/-- A slot reads none but the places of its operands. -/
theorem mem_readsOf
    {j : Nat} {r : Reading} :
    r ∈ readsOf t j ↔ ∃ s, t.slots[j]? = some s ∧ r.consumer = j ∧
      (t.sourcesIn s.inputs)[r.position]? = some r.source := by
  unfold readsOf
  cases hs : t.slots[j]? with
  | none => simp
  | some s =>
      simp only [Option.map_some, Option.getD_some, List.mem_map, Option.some.injEq,
        exists_eq_left']
      constructor
      · rintro ⟨⟨a, k⟩, ha, rfl⟩
        exact ⟨rfl, List.mem_zipIdx_iff_getElem?.1 ha⟩
      · rintro ⟨rfl, hsrc⟩
        exact ⟨(r.source, r.position), List.mem_zipIdx_iff_getElem?.2 hsrc, rfl⟩

theorem mem_reads
    {r : Reading} :
    r ∈ reads t ↔ ∃ s, t.slots[r.consumer]? = some s ∧
      (t.sourcesIn s.inputs)[r.position]? = some r.source := by
  rw [reads, List.mem_flatMap]
  constructor
  · rintro ⟨j, -, hr⟩
    obtain ⟨s, hs, rfl, hsrc⟩ := mem_readsOf.1 hr
    exact ⟨s, hs, hsrc⟩
  · rintro ⟨s, hs, hsrc⟩
    refine ⟨r.consumer, ?_, mem_readsOf.2 ⟨s, hs, rfl, hsrc⟩⟩
    rw [List.mem_reverse, List.mem_range]
    exact Tape.lt_size_of_slot hs

theorem readings_eq_ok
    (ht : t.Sound) :
    readings t = .ok (reads t) := by
  have hall : (List.range t.size).reverse.mapM (readingsOf t) =
      .ok ((List.range t.size).reverse.map (readsOf t)) := by
    apply mapM_eq_ok
    intro j hj
    rw [List.mem_reverse, List.mem_range] at hj
    obtain ⟨s, hs⟩ := Tape.exists_slot hj
    rw [readingsOf, sources_eq_ok ht hs, readsOf, hs]
    rfl
  rw [readings, hall, reads, List.flatMap_def]
  rfl

/-- The consumers of a slot are the places that read it, in the order given. -/
theorem getElem?_consumers
    {n i : Nat} (rs : List Reading)
    (h : i < n) :
    (consumers n rs)[i]? = some (rs.filter fun r => r.source = i).toArray := by
  suffices hfold : ∀ table : Array (Array Reading),
      (rs.foldl (fun table r => table.modify r.source (·.push r)) table)[i]? =
        table[i]?.map fun rs' => rs' ++ (rs.filter fun r => r.source = i).toArray by
    rw [consumers, hfold, Array.getElem?_replicate, if_pos h]
    simp
  induction rs with
  | nil => simp
  | cons r rs ih =>
      intro table
      rw [List.foldl_cons, ih, Array.getElem?_modify]
      by_cases hr : r.source = i
      · rw [if_pos hr, Option.map_map, List.filter_cons_of_pos (by simpa using hr)]
        congr 1
        funext rs'
        apply Array.ext'
        simp
      · rw [if_neg hr, List.filter_cons_of_neg (by simpa using hr)]

theorem factorOf_spec
    (ht : t.Sound)
    {r : Reading} {s : Slot κ α}
    (hs : t.slots[r.consumer]? = some s)
    (hr : (t.sourcesIn s.inputs)[r.position]? = some r.source) :
    factorOf t r = .ok (factor t r) ∧
      FactorOf r.consumer s.inputs.start s.op (t.sourcesIn s.inputs) r.position
        (factor t r) := by
  suffices h : ∃ f, factorOf t r = .ok f ∧
      FactorOf r.consumer s.inputs.start s.op (t.sourcesIn s.inputs) r.position f by
    obtain ⟨f, hf, hspec⟩ := h
    rw [factor, hf]
    exact ⟨rfl, hspec⟩
  have hover := (ht.slot hs).applied
  have hsources := sources_eq_ok ht hs
  rw [factorOf, Tape.slot_eq_ok hs, ok_bind]
  generalize s.op = op at hover ⊢
  generalize t.sourcesIn s.inputs = as at hr hover hsources ⊢
  obtain ⟨j, k, a⟩ := r
  -- At most two operands: the place names one of them.
  cases hover with
  | input => simp at hr
  | const => simp at hr
  | sum as => exact ⟨_, rfl, .sum as k⟩
  | product a b =>
      simp only [hsources]
      match k with
      | 0 => exact ⟨_, rfl, .left a b⟩
      | 1 => exact ⟨_, rfl, .right a b⟩
      | k + 2 => simp at hr
  | constPower e b =>
      match k with
      | 0 =>
          obtain rfl : b = a := by simpa using hr
          exact ⟨_, rfl, .power b e⟩
      | k + 1 => simp at hr
  | termPower a b =>
      simp only [hsources]
      match k with
      | 0 => exact ⟨_, rfl, .base a b⟩
      | 1 => exact ⟨_, rfl, .exponent a b⟩
      | k + 2 => simp at hr
  | exp b =>
      match k with
      | 0 => exact ⟨_, rfl, .exp b⟩
      | k + 1 => simp at hr
  | ln b =>
      match k with
      | 0 =>
          obtain rfl : b = a := by simpa using hr
          exact ⟨_, rfl, .ln b⟩
      | k + 1 => simp at hr
  | unary n b => exact ⟨_, rfl, .cached _ k rfl⟩
  | binary n b c => exact ⟨_, rfl, .cached _ k rfl⟩
  | nary n as => exact ⟨_, rfl, .cached as k rfl⟩

/-- A factor is cached for functions only, in the place of the edge. -/
theorem FactorOf.of_cached
    {consumer start k e : Nat} {op : Op κ} {as : List Nat}
    (h : FactorOf consumer start op as k (.cached e)) :
    op.isCallback = true ∧ e = start + k := by
  cases h with
  | cached as k hcb => exact ⟨hcb, rfl⟩

theorem source_lt_of_mem_reads
    (ht : t.Sound)
    {r : Reading}
    (hr : r ∈ reads t) :
    r.source < r.consumer ∧ r.consumer < t.size := by
  obtain ⟨s, hs, hsrc⟩ := mem_reads.1 hr
  exact ⟨(ht.slot hs).earlier r.source (List.mem_of_getElem? hsrc), Tape.lt_size_of_slot hs⟩

theorem accumulationsInto_eq_ok
    (ht : t.Sound)
    {i : Nat}
    (hi : i < t.size) :
    accumulationsInto t (consumers t.size (reads t)) i = .ok (accumulations t i) := by
  obtain ⟨s, hs⟩ := Tape.exists_slot hi
  rw [accumulationsInto, Tape.slot_eq_ok hs, ok_bind, accumulations, hs]
  cases hc : s.op.isConst with
  | true => simp [hc]
  | false =>
      simp only [Option.map_some, Option.getD_some, hc, Bool.false_eq_true, if_false]
      rw [Array.getD_eq_getD_getElem?, getElem?_consumers (reads t) hi, Option.getD_some]
      apply mapM_eq_ok
      intro r hr
      obtain ⟨q, hq, hsrc⟩ := mem_reads.1 (List.mem_filter.1 hr).1
      rw [(factorOf_spec ht hq hsrc).1]
      rfl

/-- The accumulations of a program: targets from the last slot down. -/
theorem accumulationRoutine_eq
    (ht : t.Sound) :
    accumulationRoutine t = .ok ((List.range t.size).reverse.flatMap (accumulations t)) := by
  have hall : (reads t).all (fun r => decide (r.source < t.size)) = true := by
    rw [List.all_eq_true]
    intro r hr
    have := source_lt_of_mem_reads ht hr
    exact decide_eq_true (by omega)
  have hcode : (List.range t.size).reverse.mapM
      (accumulationsInto t (consumers t.size (reads t))) =
        .ok ((List.range t.size).reverse.map (accumulations t)) := by
    apply mapM_eq_ok
    intro i hi
    rw [List.mem_reverse, List.mem_range] at hi
    exact accumulationsInto_eq_ok ht hi
  rw [accumulationRoutine, readings_eq_ok ht, ok_bind, if_pos hall, List.flatMap_def]
  simp only [hcode, ok_bind, pure_eq_ok]

/-- An accumulation stands for a place that reads its target. -/
theorem mem_accumulations
    {i : Nat} {a : Accumulation κ} :
    a ∈ accumulations t i →
      ∃ r ∈ reads t, r.source = i ∧ a.target = i ∧ a.consumer = r.consumer ∧
        a.position = r.position ∧ a.factor = factor t r := by
  rw [accumulations]
  split
  · simp
  · rw [List.mem_map]
    rintro ⟨r, hr, rfl⟩
    obtain ⟨hr, hsrc⟩ := List.mem_filter.1 hr
    exact ⟨r, hr, of_decide_eq_true hsrc, rfl, rfl, rfl, rfl⟩

end Accumulations

section Sharing

variable [Exponent κ] [Scalar κ α] (h : t.fresh = u.fresh)

include h

theorem computeOf_of_fresh_eq (op : Op κ) (as : List Nat) :
    computeOf t op as = computeOf u op as := by
  unfold computeOf Tape.unaryFn Tape.binaryFn Tape.naryFn
  rw [Tape.callbacks_of_fresh_eq h]

omit [Exponent κ] in
theorem sources_of_fresh_eq (i : Nat) :
    sources t i = sources u i := by
  rcases Tape.slot_none_or_some_of_fresh_eq h i with ⟨hs, hr⟩ | ⟨s, r, hs, hr, -, hin⟩
  · rw [sources, sources, Tape.inputs, Tape.inputs, Tape.slot_eq_error hs, Tape.slot_eq_error hr]
    rfl
  · rw [sources, sources, Tape.inputs, Tape.inputs, Tape.slot_eq_ok hs, Tape.slot_eq_ok hr,
      ok_bind, ok_bind, Tape.edgesIn, Tape.edgesIn, hin, Tape.size_edges_of_fresh_eq h]
    split
    · exact congrArg Except.ok (Tape.sourcesIn_of_fresh_eq h s.inputs)
    · rfl

theorem valueRoutine_of_fresh_eq :
    valueRoutine t = valueRoutine u := by
  have hplace : ∀ i, valueInstruction? t i = valueInstruction? u i := by
    intro i
    rw [valueInstruction?, valueInstruction?, sources_of_fresh_eq h]
    rcases Tape.slot_none_or_some_of_fresh_eq h i with ⟨hs, hr⟩ | ⟨s, r, hs, hr, hop, -⟩
    · rw [Tape.slot_eq_error hs, Tape.slot_eq_error hr, error_bind, error_bind]
    · rw [Tape.slot_eq_ok hs, Tape.slot_eq_ok hr, ok_bind, ok_bind, hop]
      simp only [computeOf_of_fresh_eq h]
  rw [valueRoutine, valueRoutine, Tape.dimension_of_fresh_eq h, Tape.size_of_fresh_eq h,
    mapM_congr fun i _ => hplace i]

omit [Exponent κ] in
theorem partialsRoutine_of_fresh_eq :
    partialsRoutine t = partialsRoutine u := by
  have hplace : ∀ i, partialsInstruction? t i = partialsInstruction? u i := by
    intro i
    rw [partialsInstruction?, partialsInstruction?, sources_of_fresh_eq h]
    rcases Tape.slot_none_or_some_of_fresh_eq h i with ⟨hs, hr⟩ | ⟨s, r, hs, hr, hop, hin⟩
    · rw [Tape.slot_eq_error hs, Tape.slot_eq_error hr, error_bind, error_bind]
    · rw [Tape.slot_eq_ok hs, Tape.slot_eq_ok hr, ok_bind, ok_bind, hop, hin]
      unfold Tape.unaryFn Tape.binaryFn Tape.naryFn
      rw [Tape.callbacks_of_fresh_eq h]
  rw [partialsRoutine, partialsRoutine, Tape.size_of_fresh_eq h,
    mapM_congr fun i _ => hplace i]

omit [Exponent κ] in
theorem factorOf_of_fresh_eq (r : Reading) :
    factorOf t r = factorOf u r := by
  rw [factorOf, factorOf, sources_of_fresh_eq h]
  rcases Tape.slot_none_or_some_of_fresh_eq h r.consumer with ⟨hs, hr⟩ | ⟨s, q, hs, hq, hop, hin⟩
  · rw [Tape.slot_eq_error hs, Tape.slot_eq_error hr]
  · rw [Tape.slot_eq_ok hs, Tape.slot_eq_ok hq, ok_bind, ok_bind, hop, hin]

omit [Exponent κ] in
theorem accumulationRoutine_of_fresh_eq :
    accumulationRoutine t = accumulationRoutine u := by
  have hreads : ∀ j, readingsOf t j = readingsOf u j := by
    intro j
    rw [readingsOf, readingsOf, sources_of_fresh_eq h]
  have hinto : ∀ table i, accumulationsInto t table i = accumulationsInto u table i := by
    intro table i
    rw [accumulationsInto, accumulationsInto]
    rcases Tape.slot_none_or_some_of_fresh_eq h i with ⟨hs, hr⟩ | ⟨s, q, hs, hq, hop, -⟩
    · rw [Tape.slot_eq_error hs, Tape.slot_eq_error hr, error_bind, error_bind]
    · rw [Tape.slot_eq_ok hs, Tape.slot_eq_ok hq, ok_bind, ok_bind, hop]
      simp only [factorOf_of_fresh_eq h]
  rw [accumulationRoutine, accumulationRoutine, readings, readings, Tape.size_of_fresh_eq h,
    mapM_congr fun j _ => hreads j]
  simp only [funext (hinto _)]

end Sharing
end Program
end ReverseMode

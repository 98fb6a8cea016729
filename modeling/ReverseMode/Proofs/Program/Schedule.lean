import Mathlib.Data.List.Sort
import ReverseMode.Proofs.Integer
import ReverseMode.Proofs.Program.Forward
import ReverseMode.Proofs.Program.History
import ReverseMode.Proofs.Tape.WellFormed

/-!
# The order of the instructions of a program

**Input.**  A well-formed tape whose functions are registered.

**Argument.**  The consumers of a slot are the places that read it.  They are listed once, consumers
from the last slot down, and then taken slot by slot.  So an operand place whose source is not a
constant turns up in the list of that source and in no other, and in the lists consumers come in the
order in which all places were listed.  The windows of a well-formed tape cover the edge table, so
there are as many operand places as edges.  Since operands come before their consumers, and targets
are taken from the last down, a slot is a target only before it is a consumer.

**Results.**
* `Of.pairwise_comesBefore`, `Of.mem_map_readingOf`: the order of the accumulations, and which
  operand places they stand for.
* `runDerivatives_eq_sweep`: running the derivative routine is running its instructions in turn.
* `ofTape_schedule`: what the two routines consist of.
* `Schedule.settled_run`: what an instruction reads is not written any more when it is run.
-/

namespace ReverseMode

variable {κ α : Type}

namespace Tape

variable {t : Tape κ α}

section Places

/-- The slots whose operations have a property, in order. -/
def slotsWhere (t : Tape κ α) (P : Op κ → Bool) : List Nat :=
  (List.range t.size).filter fun i => t.slots[i]?.any fun s => P s.op

theorem mem_slotsWhere
    {P : Op κ → Bool} {i : Nat} :
    i ∈ t.slotsWhere P ↔ ∃ s, t.slots[i]? = some s ∧ P s.op = true := by
  rw [slotsWhere, List.mem_filter, List.mem_range, Option.any_eq_true_iff_get]
  constructor
  · rintro ⟨-, hsome, hP⟩
    exact ⟨_, (Option.some_get hsome).symm, hP⟩
  · rintro ⟨s, hs, hP⟩
    exact ⟨lt_size_of_slot hs, by simp [hs], by simpa [hs] using hP⟩

theorem pairwise_slotsWhere (t : Tape κ α) (P : Op κ → Bool) :
    (t.slotsWhere P).Pairwise (· < ·) :=
  List.pairwise_lt_range.filter _

/-- A list in slot order of the slots with a property. -/
theorem eq_slotsWhere
    {P : Op κ → Bool} {is : List Nat}
    (hsorted : is.Pairwise (· < ·))
    (hmem : ∀ i, i ∈ is ↔ ∃ s, t.slots[i]? = some s ∧ P s.op = true) :
    is = t.slotsWhere P :=
  List.Pairwise.eq_of_mem_iff hsorted (pairwise_slotsWhere t P) fun i =>
    (hmem i).trans mem_slotsWhere.symm

/-- A list with a slot at each place. -/
theorem map_some_slots (t : Tape κ α) :
    t.slots.toList.map some = (List.range t.size).map fun i => t.slots[i]? := by
  apply List.ext_getElem
  · simp [size]
  · intro i hi hi'
    rw [List.length_map, Array.length_toList] at hi
    simp [hi]

theorem length_slotsWhere (t : Tape κ α) (P : Op κ → Bool) :
    (t.slotsWhere P).length = t.slots.countP fun s => P s.op := by
  have hcount := congrArg (List.countP fun s => s.any fun s => P s.op) (map_some_slots t)
  rw [List.countP_map, List.countP_map] at hcount
  rw [slotsWhere, ← List.countP_eq_length_filter, ← Array.countP_toList]
  exact hcount.symm

/-- Operand `k` of slot `j` is slot `i`. -/
def OperandAt (t : Tape κ α) (i j k : Nat) : Prop :=
  ∃ s, t.slots[j]? = some s ∧ (t.sourcesIn s.inputs)[k]? = some i

/-- Whether slot `i` is a constant. -/
def isConstAt (t : Tape κ α) (i : Nat) : Bool :=
  t.slots[i]?.any fun s => s.op.isConst

end Places
end Tape

namespace Program

variable {t : Tape κ α} {p : Program κ α}

section Order

/-- Consumers come from the last slot down, the operand places of each upwards. -/
def Reading.ComesBefore (q r : Reading) : Prop :=
  r.consumer < q.consumer ∨ q.consumer = r.consumer ∧ q.position < r.position

theorem pairwise_readsOf (t : Tape κ α) (j : Nat) :
    (readsOf t j).Pairwise fun q r => q.position < r.position := by
  rw [readsOf]
  cases t.slots[j]? with
  | none => exact .nil
  | some s =>
      have hpositions : ((t.sourcesIn s.inputs).zipIdx.map Prod.snd).Pairwise (· < ·) := by
        rw [List.zipIdx_map_snd]
        exact List.pairwise_lt_range'
      rw [List.pairwise_map] at hpositions
      exact List.pairwise_map.2 hpositions

theorem pairwise_reads (t : Tape κ α) : (reads t).Pairwise Reading.ComesBefore := by
  rw [reads, List.pairwise_flatMap, List.pairwise_reverse]
  constructor
  · intro j _
    refine (pairwise_readsOf t j).imp_of_mem ?_
    intro q r hq hr hlt
    obtain ⟨-, -, hqj, -⟩ := mem_readsOf.1 hq
    obtain ⟨-, -, hrj, -⟩ := mem_readsOf.1 hr
    exact .inr ⟨hqj.trans hrj.symm, hlt⟩
  · refine List.pairwise_lt_range.imp ?_
    intro j l hlt q hq r hr
    obtain ⟨-, -, rfl, -⟩ := mem_readsOf.1 hq
    obtain ⟨-, -, rfl, -⟩ := mem_readsOf.1 hr
    exact .inl hlt

/-- Targets come from the last slot down, and for each target consumers and operand places in their
order. -/
def ComesBefore (a b : Accumulation κ) : Prop :=
  b.target < a.target ∨ a.target = b.target ∧
    (b.consumer < a.consumer ∨ a.consumer = b.consumer ∧ a.position < b.position)

theorem target_of_mem_accumulations
    {i : Nat} {a : Accumulation κ}
    (h : a ∈ accumulations t i) :
    a.target = i := by
  obtain ⟨-, -, -, htarget, -⟩ := mem_accumulations h
  exact htarget

theorem pairwise_accumulations (t : Tape κ α) (i : Nat) :
    (accumulations t i).Pairwise ComesBefore := by
  rw [accumulations]
  split
  · exact .nil
  · rw [List.pairwise_map]
    exact ((pairwise_reads t).filter _).imp fun h => .inr ⟨rfl, h⟩

variable [Exponent κ]

theorem Of.pairwise_comesBefore
    (ht : t.Sound)
    (hp : Of t p) :
    p.accumulationCode.Pairwise ComesBefore := by
  rw [hp.accumulationCode_eq_flatMap ht, List.pairwise_flatMap, List.pairwise_reverse]
  constructor
  · exact fun i _ => pairwise_accumulations t i
  · refine List.pairwise_lt_range.imp ?_
    intro i j hlt a ha b hb
    rw [ComesBefore, target_of_mem_accumulations ha, target_of_mem_accumulations hb]
    exact .inl hlt

end Order

section Complete

/-- The place of an operand that an accumulation stands for. -/
def readingOf (a : Accumulation κ) : Reading where
  consumer := a.consumer
  position := a.position
  source := a.target

theorem map_readingOf_accumulations (t : Tape κ α) (i : Nat) :
    (accumulations t i).map readingOf =
      if (t.slots[i]?.map (·.op.isConst)).getD true then []
      else (reads t).filter fun r => r.source = i := by
  rw [accumulations]
  split
  · rfl
  · rw [List.map_map]
    refine (List.map_congr_left ?_).trans (List.map_id _)
    intro r hr
    obtain rfl := of_decide_eq_true (List.mem_filter.1 hr).2
    rfl

variable [Exponent κ]

/-- The accumulations stand for the operand places whose source is not a constant. -/
theorem Of.mem_map_readingOf
    (ht : t.Sound)
    (hp : Of t p)
    {r : Reading} :
    r ∈ p.accumulationCode.map readingOf ↔ r ∈ reads t ∧ t.isConstAt r.source = false := by
  rw [hp.accumulationCode_eq_flatMap ht, List.map_flatMap, List.mem_flatMap]
  simp only [map_readingOf_accumulations, List.mem_reverse, List.mem_range]
  constructor
  · rintro ⟨i, hi, hr⟩
    obtain ⟨s, hs⟩ := Tape.exists_slot hi
    split at hr
    · cases hr
    · rename_i hconst
      have hmem := hr
      obtain rfl := of_decide_eq_true (List.mem_filter.1 hr).2
      rw [hs] at hconst
      exact ⟨List.mem_of_mem_filter hmem, by simpa [Tape.isConstAt, hs] using hconst⟩
  · rintro ⟨hr, hconst⟩
    obtain ⟨hlt, hconsumer⟩ := source_lt_of_mem_reads ht hr
    have hi : r.source < t.size := by omega
    obtain ⟨s, hs⟩ := Tape.exists_slot hi
    refine ⟨r.source, hi, ?_⟩
    rw [if_neg (by simpa [Tape.isConstAt, hs] using hconst), List.mem_filter]
    exact ⟨hr, decide_eq_true rfl⟩

/-- No operand place is taken twice. -/
theorem Of.nodup_map_readingOf
    (ht : t.Sound)
    (hp : Of t p) :
    (p.accumulationCode.map readingOf).Nodup := by
  rw [List.nodup_iff_pairwise_ne, List.pairwise_map]
  refine (hp.pairwise_comesBefore ht).imp ?_
  intro a b hab heq
  have htarget : a.target = b.target := congrArg Reading.source heq
  have hconsumer : a.consumer = b.consumer := congrArg Reading.consumer heq
  have hposition : a.position = b.position := congrArg Reading.position heq
  rw [ComesBefore] at hab
  omega

omit [Exponent κ] in
theorem nodup_reads (t : Tape κ α) : (reads t).Nodup := by
  refine (pairwise_reads t).imp ?_
  rintro q _ hqr rfl
  rw [Reading.ComesBefore] at hqr
  omega

omit [Exponent κ] in
/-- The operand places are as many as the edges, and name the same sources. -/
theorem perm_sources_reads
    (h : t.Regular) :
    ((reads t).map (·.source)).Perm (t.edges.toList.map fun e => e.source) := by
  have hsources : ∀ j, (readsOf t j).map (·.source) =
      (t.slots[j]?.map fun s => t.sourcesIn s.inputs).getD [] := by
    intro j
    rw [readsOf]
    cases t.slots[j]? with
    | none => rfl
    | some s => simp [List.zipIdx_map_fst, Function.comp_def]
  have hslots : (List.range t.size).flatMap (fun j =>
      (t.slots[j]?.map fun s => t.sourcesIn s.inputs).getD []) =
        t.slots.toList.flatMap fun s => t.sourcesIn s.inputs := by
    have hmap := congrArg (List.flatMap fun s : Option (Slot κ α) =>
      (s.map fun s => t.sourcesIn s.inputs).getD []) t.map_some_slots
    rw [List.flatMap_map, List.flatMap_map] at hmap
    exact hmap.symm
  rw [reads, List.map_flatMap, ← h.flatMap_sourcesIn, ← hslots]
  simp only [hsources]
  exact (List.reverse_perm _).flatMap_right _

theorem Of.length_accumulationCode
    (ht : t.Sound)
    (hregular : t.Regular)
    (hp : Of t p) :
    p.accumulationCode.length = t.edges.countP fun e => !t.isConstAt e.source := by
  have hperm : (p.accumulationCode.map readingOf).Perm
      ((reads t).filter fun r => !t.isConstAt r.source) := by
    rw [List.perm_ext_iff_of_nodup (hp.nodup_map_readingOf ht) ((nodup_reads t).filter _)]
    intro r
    rw [hp.mem_map_readingOf ht, List.mem_filter, Bool.not_eq_true']
  have hcount := (perm_sources_reads hregular).countP_eq fun i => !t.isConstAt i
  rw [List.countP_map, List.countP_map] at hcount
  calc p.accumulationCode.length
      = (p.accumulationCode.map readingOf).length := (List.length_map _).symm
    _ = (reads t).countP fun r => !t.isConstAt r.source := by
        rw [hperm.length_eq, List.countP_eq_length_filter]
    _ = t.edges.toList.countP fun e => !t.isConstAt e.source := hcount
    _ = t.edges.countP fun e => !t.isConstAt e.source := Array.countP_toList

/-- The value routine computes the slots that are neither variables nor constants. -/
theorem ValueCode.map_target
    {code : List (ValueInstruction κ α)}
    (ht : t.Sound)
    (h : ValueCode t code) :
    code.map (·.target) = t.slotsWhere fun op => !op.isInput && !op.isConst := by
  apply Tape.eq_slotsWhere
  · exact List.pairwise_map.2 h.sorted
  · intro i
    rw [List.mem_map]
    constructor
    · rintro ⟨k, hk, rfl⟩
      obtain ⟨s, hs, hle, hc⟩ := h.mem k hk
      have hleaf := (computeOf_eq_none_iff (t := t) (ht.slot hs).applied).not.1 (by simp [hc])
      exact ⟨s, hs, by simpa using hleaf⟩
    · rintro ⟨s, hs, hop⟩
      rw [Bool.and_eq_true, Bool.not_eq_true', Bool.not_eq_true'] at hop
      have hle : t.dimension ≤ i := by
        have hinput := (ht.slot hs).input_iff.not.1 (by simp [hop.1])
        omega
      exact h.complete i s hs hle hop.2

omit [Exponent κ] in
/-- The opening calls are those of the slots that call functions. -/
theorem PartialsCode.map_slot
    {code : List (PartialsInstruction α)}
    (h : PartialsCode t code) :
    code.map (·.slot) = t.slotsWhere Op.isCallback := by
  apply Tape.eq_slotsWhere
  · exact List.pairwise_map.2 h.sorted
  · intro i
    rw [List.mem_map]
    constructor
    · rintro ⟨k, hk, rfl⟩
      obtain ⟨s, hs, -, hcall⟩ := h.mem k hk
      exact ⟨s, hs, hcall.isCallback⟩
    · rintro ⟨s, hs, hop⟩
      exact h.complete i s hs hop

end Complete

section Routine

/-- A register that the derivative routine both writes and reads. -/
inductive Cell where
  | adjoint (slot : Nat)
  | cached (edge : Nat)
deriving DecidableEq, Repr

/-- An instruction of the derivative routine. -/
inductive DerivativeInstruction (κ α : Type) where
  | call (k : PartialsInstruction α)
  | accumulate (a : Accumulation κ)

namespace DerivativeInstruction

variable [Exponent κ] [Scalar κ α]

/-- The registers that an instruction writes. -/
def writes : DerivativeInstruction κ α → List Cell
  | call k => (List.range' k.first k.call.operands.length).map .cached
  | accumulate a => [.adjoint a.target]

/-- The registers on which hangs what an instruction writes or adds. -/
def reads : DerivativeInstruction κ α → List Cell
  | call _ => []
  | accumulate a =>
      match a.factor with
      | .cached e => [.adjoint a.consumer, .cached e]
      | _ => [.adjoint a.consumer]

/-- Runs one instruction. -/
def run (r : Registers α) : DerivativeInstruction κ α → Except (Fault κ) (Registers α)
  | call k => (k.call.run r).map fun ws => r.setPartials k.first ws
  | accumulate a => (a.amount r).map fun d => r.addDiff a.target d

end DerivativeInstruction

/-- The derivative routine in the order in which it is run. -/
def derivativeRoutine (p : Program κ α) : List (DerivativeInstruction κ α) :=
  p.partialsCode.map .call ++ p.accumulationCode.map .accumulate

theorem length_derivativeRoutine (p : Program κ α) :
    p.derivativeRoutine.length = p.derivativeLength := by
  rw [derivativeRoutine, List.length_append, List.length_map, List.length_map, derivativeLength]

/-- An instruction of the routine is one of its calls, or comes after them. -/
theorem getElem?_derivativeRoutine
    {m : Nat} {x : DerivativeInstruction κ α}
    (h : p.derivativeRoutine[m]? = some x) :
    (∃ k, x = .call k ∧ p.partialsCode[m]? = some k) ∨
      ∃ m' a, m = p.partialsCode.length + m' ∧ x = .accumulate a ∧
        p.accumulationCode[m']? = some a := by
  rw [derivativeRoutine, List.getElem?_append, List.length_map] at h
  split at h
  · rw [List.getElem?_map, Option.map_eq_some_iff] at h
    obtain ⟨k, hk, rfl⟩ := h
    exact .inl ⟨k, rfl, hk⟩
  · rw [List.getElem?_map, Option.map_eq_some_iff] at h
    obtain ⟨a, ha, rfl⟩ := h
    exact .inr ⟨m - p.partialsCode.length, a, by omega, rfl, ha⟩

theorem mem_reads_accumulate
    {a : Accumulation κ} {c : Cell} :
    c ∈ (DerivativeInstruction.accumulate a : DerivativeInstruction κ α).reads ↔
      c = .adjoint a.consumer ∨ ∃ e, c = .cached e ∧ a.factor = .cached e := by
  rw [DerivativeInstruction.reads]
  split
  · rename_i e he
    simp [he]
  · rename_i hne
    simp only [List.mem_singleton]
    constructor
    · exact .inl
    · rintro (rfl | ⟨e, -, he⟩)
      · rfl
      · exact absurd he (hne e)

end Routine

section Running

variable [Exponent κ] [Scalar κ α] {r r' : Registers α} {c : Cell}

/-- What a register holds. -/
def held (r : Registers α) : Cell → Option α
  | .adjoint s => r.diffs[s]?
  | .cached e => r.partials[e]?

/-- An instruction changes no register but those that it writes. -/
theorem held_run
    {i : DerivativeInstruction κ α}
    (h : i.run r = .ok r')
    (hc : c ∉ i.writes) :
    held r' c = held r c := by
  cases i with
  | call k =>
      obtain ⟨ws, hws, rfl⟩ := map_eq_ok_iff.1 h
      have hlength := PartialsCall.length_run hws
      cases c with
      | adjoint s => rfl
      | cached e =>
          have he : e < k.first ∨ k.first + ws.length ≤ e := by
            have hne : ¬ (k.first ≤ e ∧ e < k.first + k.call.operands.length) := by
              simpa [DerivativeInstruction.writes, List.mem_range'_1] using hc
            omega
          rcases he with he | he
          · exact Registers.partials_setPartials_lt _ he
          · exact Registers.partials_setPartials_ge _ he
  | accumulate a =>
      obtain ⟨d, -, rfl⟩ := map_eq_ok_iff.1 h
      cases c with
      | cached e => rfl
      | adjoint s =>
          have hne : a.target ≠ s := by
            rintro rfl
            exact hc (List.mem_singleton.2 rfl)
          exact Registers.diffs_addDiff_ne _ d hne

/-- Instructions run in turn. -/
def sweepRoutine (code : List (DerivativeInstruction κ α)) (r : Registers α) :
    Except (Fault κ) Unit × Registers α :=
  sweep (fun r (i : DerivativeInstruction κ α) => i.run r) (fun _ _ r' => r') code r

theorem sweepRoutine_calls (code : List (PartialsInstruction α)) (r : Registers α) :
    sweepRoutine (code.map (.call : _ → DerivativeInstruction κ α)) r = sweepPartials code r := by
  rw [sweepRoutine, sweep_map]
  exact sweep_step code r

theorem sweepRoutine_accumulations (code : List (Accumulation κ)) (r : Registers α) :
    sweepRoutine (code.map (.accumulate : _ → DerivativeInstruction κ α)) r =
      sweepAccumulations code r := by
  rw [sweepRoutine, sweep_map]
  exact sweep_step code r

/-- Running the derivative routine is running its instructions in turn. -/
theorem runDerivatives_eq_sweep (p : Program κ α) :
    p.runDerivatives =
      ((sweepRoutine p.derivativeRoutine p.registers.seed).1,
        { p with registers := (sweepRoutine p.derivativeRoutine p.registers.seed).2 }) := by
  have hcalls := sweepRoutine_calls (κ := κ) p.partialsCode p.registers.seed
  rw [derivativeRoutine]
  cases hopened : sweepPartials (κ := κ) p.partialsCode p.registers.seed with
  | mk outcome r =>
      rw [hopened] at hcalls
      cases outcome with
      | error e =>
          rw [runDerivatives_of_error hopened, sweepRoutine, sweep_append_error _ hcalls]
      | ok _ =>
          rw [runDerivatives_of_ok hopened, sweepRoutine, sweep_append _ hcalls,
            ← sweepRoutine_accumulations, sweepRoutine]

end Running

section Schedule

variable [Exponent κ]

/-- The order of the instructions that a program has for a tape. -/
structure Schedule (t : Tape κ α) (p : Program κ α) : Prop where
  /-- The value routine has one instruction for each slot that is neither a variable nor a
  constant, in slot order. -/
  values : p.valueCode.map (·.target) = t.slotsWhere fun op => !op.isInput && !op.isConst
  /-- The derivative routine starts with one call for each slot that calls a function. -/
  calls : p.partialsCode.map (·.slot) = t.slotsWhere Op.isCallback
  /-- Then it has an accumulation for each operand place whose source is not a constant, -/
  accumulations : ∀ i j k,
    (∃ a ∈ p.accumulationCode, a.target = i ∧ a.consumer = j ∧ a.position = k) ↔
      t.OperandAt i j k ∧ t.isConstAt i = false
  /-- each once, -/
  once : (p.accumulationCode.map fun a => (a.target, a.consumer, a.position)).Nodup
  /-- in the order of targets, consumers and positions. -/
  ordered : p.accumulationCode.Pairwise ComesBefore
  length : p.derivativeRoutine.length =
    t.callbackCount + t.edges.countP fun e => !t.isConstAt e.source
  /-- Every read of a register comes after all writes of it. -/
  settled : ∀ (m n : Nat) (x y : DerivativeInstruction κ α) (c : Cell),
    p.derivativeRoutine[m]? = some x → p.derivativeRoutine[n]? = some y →
      c ∈ x.writes → c ∈ y.reads → m < n
  /-- Every partial that is read has been written. -/
  written : ∀ (n : Nat) (y : DerivativeInstruction κ α) (e : Nat),
    p.derivativeRoutine[n]? = some y → .cached e ∈ y.reads →
      ∃ m < n, ∃ x, p.derivativeRoutine[m]? = some x ∧ .cached e ∈ x.writes

/-- A slot is a target only before it is a consumer. -/
theorem Of.target_before_consumer
    {m n : Nat} {a b : Accumulation κ}
    (ht : t.Sound)
    (hp : Of t p)
    (ha : p.accumulationCode[m]? = some a)
    (hb : p.accumulationCode[n]? = some b)
    (hab : a.target = b.consumer) :
    m < n := by
  have hmem : readingOf b ∈ p.accumulationCode.map readingOf :=
    List.mem_map_of_mem (List.mem_of_getElem? hb)
  have hlt : b.target < b.consumer :=
    (source_lt_of_mem_reads ht ((hp.mem_map_readingOf ht).1 hmem).1).1
  by_contra hle
  rcases Nat.lt_or_eq_of_le (Nat.le_of_not_lt hle) with hnm | rfl
  · -- Targets fall along the routine, but that of `a` is greater than that of `b`.
    have hcomes := hp.pairwise_comesBefore ht
    obtain ⟨hm, rfl⟩ := List.getElem?_eq_some_iff.1 ha
    obtain ⟨hn, rfl⟩ := List.getElem?_eq_some_iff.1 hb
    have hba := List.pairwise_iff_getElem.1 hcomes n m hn hm hnm
    rw [ComesBefore] at hba
    omega
  · obtain rfl := Option.some.inj (ha.symm.trans hb)
    omega

theorem Of.settled
    {m n : Nat} {x y : DerivativeInstruction κ α} {c : Cell}
    (ht : t.Sound)
    (hp : Of t p)
    (hx : p.derivativeRoutine[m]? = some x)
    (hy : p.derivativeRoutine[n]? = some y)
    (hwrites : c ∈ x.writes)
    (hreads : c ∈ y.reads) :
    m < n := by
  rcases getElem?_derivativeRoutine hy with ⟨k, rfl, -⟩ | ⟨n', b, rfl, rfl, hb⟩
  · cases hreads
  · rcases getElem?_derivativeRoutine hx with ⟨k, rfl, hk⟩ | ⟨m', a, rfl, rfl, ha⟩
    · have hlt := (List.getElem?_eq_some_iff.1 hk).1
      omega
    · obtain rfl := List.mem_singleton.1 hwrites
      rcases mem_reads_accumulate.1 hreads with hc | ⟨e, hc, -⟩
      · have hlt := hp.target_before_consumer ht ha hb (Cell.adjoint.inj hc)
        omega
      · cases hc

theorem Of.written
    {n e : Nat} {y : DerivativeInstruction κ α}
    (ht : t.Sound)
    (hp : Of t p)
    (hy : p.derivativeRoutine[n]? = some y)
    (hreads : .cached e ∈ y.reads) :
    ∃ m < n, ∃ x, p.derivativeRoutine[m]? = some x ∧ .cached e ∈ x.writes := by
  rcases getElem?_derivativeRoutine hy with ⟨k, rfl, -⟩ | ⟨n', b, rfl, rfl, hb⟩
  · cases hreads
  · rcases mem_reads_accumulate.1 hreads with hc | ⟨e', hc, hfactor⟩
    · cases hc
    · obtain rfl := Cell.cached.inj hc
      obtain ⟨i, hmem⟩ := hp.mem_accumulationCode ht b (List.mem_of_getElem? hb)
      obtain ⟨k, hk, hfirst, hlast⟩ := cached_of_mem_accumulations ht
        (partialsCode_of_partialsRoutine ht hp.partialsCode) hmem hfactor
      obtain ⟨m, hm⟩ := List.mem_iff_getElem?.1 hk
      have hlt := (List.getElem?_eq_some_iff.1 hm).1
      refine ⟨m, by omega, .call k, ?_, ?_⟩
      · rw [derivativeRoutine, List.getElem?_append_left (by simpa using hlt), List.getElem?_map, hm]
        rfl
      · exact List.mem_map_of_mem (List.mem_range'_1.2 ⟨hfirst, hlast⟩)

/-- A program of a sound and regular tape has its instructions in this order. -/
theorem Of.schedule
    (ht : t.Sound)
    (hregular : t.Regular)
    (hp : Of t p) :
    Schedule t p := by
  have hcalls := (partialsCode_of_partialsRoutine ht hp.partialsCode).map_slot
  constructor
  · exact (valueCode_of_valueRoutine ht hp.valueCode).map_target ht
  · exact hcalls
  · intro i j k
    have hplace : (∃ a ∈ p.accumulationCode, a.target = i ∧ a.consumer = j ∧ a.position = k) ↔
        ({ consumer := j, position := k, source := i } : Reading) ∈
          p.accumulationCode.map readingOf := by
      rw [List.mem_map]
      refine exists_congr fun a => and_congr_right fun _ => ?_
      rw [readingOf, Reading.mk.injEq]
      tauto
    rw [hplace, hp.mem_map_readingOf ht, mem_reads]
    rfl
  · have hnodup := hp.nodup_map_readingOf ht
    rw [List.nodup_iff_pairwise_ne, List.pairwise_map] at hnodup ⊢
    refine hnodup.imp ?_
    intro a b hab heq
    obtain ⟨htarget, hconsumer, hposition⟩ := by simpa using heq
    exact hab (by rw [readingOf, readingOf, htarget, hconsumer, hposition])
  · exact hp.pairwise_comesBefore ht
  · rw [length_derivativeRoutine, derivativeLength, hp.length_accumulationCode ht hregular,
      ← List.length_map, hcalls, Tape.length_slotsWhere]
    rfl
  · exact fun m n x y c => hp.settled ht
  · exact fun n y e => hp.written ht

variable [Scalar κ α]

/-- When an instruction is run, the registers that it reads hold what they hold at the end. -/
theorem Schedule.settled_run
    {before after : List (DerivativeInstruction κ α)} {i : DerivativeInstruction κ α}
    {r : Registers α} {c : Cell}
    (h : Schedule t p)
    (hroutine : p.derivativeRoutine = before ++ i :: after)
    (hbefore : sweepRoutine before p.registers.seed = (.ok (), r))
    (hc : c ∈ i.reads) :
    held p.runDerivatives.2.registers c = held r c := by
  rw [runDerivatives_eq_sweep, hroutine, sweepRoutine, sweep_append _ hbefore]
  refine sweep_preserves (P := fun r' => held r' c = held r c) rfl ?_
  intro x hx s s' hs hrun
  have hwrites : c ∉ x.writes := by
    intro hwrites
    obtain ⟨m, hm⟩ := List.mem_iff_getElem?.1 hx
    have hlt := h.settled (before.length + m) before.length x i c
      (by rw [hroutine, List.getElem?_append_right (by omega), Nat.add_sub_cancel_left, hm])
      (by rw [hroutine, List.getElem?_append_right (by omega), Nat.sub_self]; rfl) hwrites hc
    omega
  exact (held_run hrun hwrites).trans hs

/-- A well-formed tape whose functions are registered has a program with this order of
instructions, unless it calls functions and they are not allowed. -/
theorem ofTape_schedule
    (allow : Bool)
    (ht : t.isWellFormed = true)
    (hreg : t.HandlesRegistered) :
    (allow = false ∧ 0 < t.callbackCount ∧
        ofTape t allow = .error (.callbacksNotSupported t.callbackCount)) ∨
      ∃ p, ofTape t allow = .ok p ∧ Schedule t p := by
  have hsound := Tape.sound_of_isWellFormed ht
  by_cases hallow : allow = true ∨ t.callbackCount = 0
  · obtain ⟨p, hp⟩ := exists_ofTape hsound hreg hallow
    exact .inr ⟨p, hp, (of_ofTape hp).schedule hsound (Tape.regular_of_isWellFormed ht)⟩
  · rw [not_or, Bool.not_eq_true] at hallow
    obtain ⟨rfl, hcalls⟩ := hallow
    have hpos := Nat.pos_of_ne_zero hcalls
    exact .inl ⟨rfl, hpos, by rw [ofTape, if_pos (by simp [hpos])]⟩

end Schedule

section Example

/-- The tape of `p(s(x), x) + 3 + p(s(x), x)` with a square `s` and a product `p`. -/
def callingTape : Tape Nat Int where
  slots := #[
    { op := .input, value := 0, adjoint := 0, inputs := .ofNat 0 0 },
    { op := .const, value := 3, adjoint := 0, inputs := .ofNat 0 0 },
    { op := .unary 0, value := 0, adjoint := 0, inputs := .ofNat 0 1 },
    { op := .binary 0, value := 0, adjoint := 0, inputs := .ofNat 1 2 },
    { op := .sum, value := 0, adjoint := 0, inputs := .ofNat 3 3 }]
  edges := #[
    { source := 0, weight := 0 }, { source := 2, weight := 0 }, { source := 0, weight := 0 },
    { source := 3, weight := 0 }, { source := 1, weight := 0 }, { source := 3, weight := 0 }]
  dimension := 1
  callbacks := {
    unary := #[{ eval := fun x => x * x, derivative := fun x => x + x }]
    binary := #[{ eval := fun x y => x * y, partials := fun x y => (y, x) }] }

theorem handlesRegistered_callingTape : callingTape.HandlesRegistered := by
  intro s hs
  simp only [callingTape, List.mem_toArray, List.mem_cons, List.not_mem_nil, or_false] at hs
  rcases hs with rfl | rfl | rfl | rfl | rfl <;> first
    | trivial
    | exact Nat.one_pos

/-- Two calls, then an accumulation for each edge but that from the constant. -/
theorem ofTape_schedule_callingTape :
    ∃ p, ofTape callingTape true = .ok p ∧ Schedule callingTape p ∧
      p.partialsCode.map (·.slot) = [2, 3] ∧
      (p.accumulationCode.map fun a => (a.target, a.consumer, a.position)) =
        [(3, 4, 0), (3, 4, 2), (2, 3, 0), (0, 3, 1), (0, 2, 0)] := by
  rcases ofTape_schedule true (by cbv) handlesRegistered_callingTape with ⟨hallow, -⟩ | hmade
  · cases hallow
  · obtain ⟨p, hp, hschedule⟩ := hmade
    have hcode : (ofTape callingTape true).map (fun p => (p.partialsCode.map (·.slot),
        p.accumulationCode.map fun a => (a.target, a.consumer, a.position))) =
          .ok ([2, 3], [(3, 4, 0), (3, 4, 2), (2, 3, 0), (0, 3, 1), (0, 2, 0)]) := by cbv
    rw [hp] at hcode
    obtain ⟨hcalls, hplaces⟩ := Prod.mk.inj (Except.ok.inj hcode)
    exact ⟨p, hp, hschedule, hcalls, hplaces⟩

end Example
end Program
end ReverseMode

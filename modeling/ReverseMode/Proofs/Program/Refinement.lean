import ReverseMode.Proofs.Integer
import ReverseMode.Proofs.Lowering.Overlap
import ReverseMode.Proofs.Program.Gather
import ReverseMode.Proofs.Tape.Reachable

/-!
# Programs compute what their tapes do

**Argument.**  The value routine solves the equations of the values, the derivative routine those
of the adjoints, and a sweep of the tape solves both.  The equations have one solution, whatever
the registers and the storage held before.  The value routine needs its shortcuts to be exact at
this solution; the identities of scalars make them exact everywhere.

**Results.**
* `Of.evaluate_of_valuation`, `Of.differentiate_of_valuation`: what a program returns and leaves,
  for all scalars.
* `Of.evaluate_of_exact`, `Of.differentiate_of_exact`: what a program returns and leaves where the
  shortcuts are exact.
* `program_refines_tape`: from whatever states they start, a program and its tape return the
  same, and leave the same values and adjoints.
-/

namespace ReverseMode

variable {κ α : Type}

namespace Program

variable {t : Tape κ α} {r : Registers α} {v : Nat → α}

section Refinement

variable [Scalar κ α]

/-- The value that a program returns when its registers hold `v`. -/
theorem outputValue_of_values
    {p : Program κ α}
    (hpos : 0 < t.size)
    (hsize : p.registers.values.size = t.size)
    (hv : ∀ i < t.size, p.registers.values[i]? = some (v i)) :
    p.outputValue = v (t.size - 1) := by
  rw [outputValue, Array.back?_eq_getElem?, hsize, hv (t.size - 1) (by omega)]
  rfl

theorem gradient_eq_map_diffIn
    {p : Program κ α}
    (h : p.dimension ≤ p.registers.diffs.size) :
    p.gradient = (List.range p.dimension).map (diffIn p.registers) := by
  apply List.ext_getElem?
  intro i
  rw [gradient, Array.getElem?_toList, Array.getElem?_extract, List.getElem?_map]
  by_cases hi : i < p.dimension
  · rw [if_pos (by omega), Nat.zero_add, List.getElem?_range hi]
    exact getElem?_diffs (by omega)
  · rw [if_neg (by omega), List.getElem?_eq_none (by simpa using hi)]
    rfl

variable [Exponent κ]

/-- Evaluating a program returns what any solution of the equations with shortcuts has for the last
slot. -/
theorem Of.evaluate_of_valuation
    {p : Program κ α} {point : List α}
    (ht : t.Sound)
    (hpos : 0 < t.size)
    (hp : Of t p)
    (hlen : point.length = t.dimension)
    (hv : Valuation t point v) :
    (p.evaluate point).1 = .ok (v (t.size - 1)) := by
  obtain ⟨q, hq, hof, hvalues⟩ := hp.runValues_spec ht hlen hv
  rw [Program.evaluate, hq]
  exact congrArg Except.ok (outputValue_of_values hpos hof.registers.values hvalues)

/-- Differentiating a program leaves the values of any solution of the equations with shortcuts and
the adjoints gathered at them, and returns those of the last slot and of the variables. -/
theorem Of.differentiate_of_valuation
    {p : Program κ α} {point : List α}
    (ht : t.Sound)
    (hreg : t.HandlesRegistered)
    (hcalls : t.CallsApart)
    (hpos : 0 < t.size)
    (hp : Of t p)
    (hlen : point.length = t.dimension)
    (hv : Valuation t point v) :
    ∃ q, p.differentiate point t.dimension =
        (.ok (v (t.size - 1), (List.range t.dimension).map (diffIn q.registers)), q) ∧
      Ready t v q.registers ∧
      ∀ i s, t.slots[i]? = some s → s.op.isConst = false →
        Gathered t v (diffIn q.registers) i := by
  obtain ⟨p', hp', hof, hvalues⟩ := hp.runValues_spec ht hlen hv
  obtain ⟨q, hq, hdim, hready, hgather⟩ := hof.runDerivatives_spec ht hreg hcalls hvalues
  have hqdim : q.dimension = t.dimension := hdim.trans hof.dimension
  have hle := ht.dimension_le
  refine ⟨q, ?_, hready, hgather⟩
  rw [Program.differentiate, hp.dimension, if_pos rfl, hp']
  simp only [hq]
  rw [outputValue_of_values hpos hready.size hready.values,
    gradient_eq_map_diffIn (by rw [hready.diffs, hqdim]; exact hle), hqdim]

/-- Where the shortcuts are exact, evaluating a program returns what any solution of the equations
has for the last slot. -/
theorem Of.evaluate_of_exact
    {p : Program κ α} {point : List α}
    (ht : t.Sound)
    (hpos : 0 < t.size)
    (hp : Of t p)
    (hlen : point.length = t.dimension)
    (hv : t.Valuation point v)
    (hexact : t.ShortcutsExact v) :
    (p.evaluate point).1 = .ok (v (t.size - 1)) :=
  hp.evaluate_of_valuation ht hpos hlen (.of_exact hv hexact)

/-- Where the shortcuts are exact, differentiating a program leaves what any solutions of the
equations have, and returns what they have for the last slot and the variables. -/
theorem Of.differentiate_of_exact
    {p : Program κ α} {point : List α} {a : Nat → α}
    (hmul : ∀ x : α, x * 1 = x)
    (ht : t.Sound)
    (hreg : t.HandlesRegistered)
    (hcalls : t.CallsApart)
    (hpos : 0 < t.size)
    (hp : Of t p)
    (hlen : point.length = t.dimension)
    (hv : t.Valuation point v)
    (hexact : t.ShortcutsExact v)
    (ha : t.Adjoints (t.linksAt v) a) :
    ∃ q, p.differentiate point t.dimension =
        (.ok (v (t.size - 1), (List.range t.dimension).map a), q) ∧
      ∀ i s, t.slots[i]? = some s →
        q.registers.values[i]? = some (v i) ∧
          (s.op.isConst = false → q.registers.diffs[i]? = some (a i)) := by
  obtain ⟨q, hq, hready, hgather⟩ :=
    hp.differentiate_of_valuation ht hreg hcalls hpos hlen (.of_exact hv hexact)
  have hdiff : ∀ i s, t.slots[i]? = some s → s.op.isConst = false →
      a i = diffIn q.registers i := by
    intro i s hs hc
    exact eq_of_gathered hmul ht hreg ha hgather hs hc
  have hle := ht.dimension_le
  refine ⟨q, ?_, ?_⟩
  · have hgrad : (List.range t.dimension).map (diffIn q.registers) =
        (List.range t.dimension).map a := by
      apply List.map_congr_left
      intro i hi
      rw [List.mem_range] at hi
      obtain ⟨s, hs⟩ := Tape.exists_slot (t := t) (i := i) (by omega)
      exact (hdiff i s hs (Op.isConst_of_isInput ((ht.slot hs).input_iff.2 hi))).symm
    rw [hq, hgrad]
  · intro i s hs
    have hi := Tape.lt_size_of_slot hs
    refine ⟨hready.values i hi, fun hc => ?_⟩
    rw [getElem?_diffs (by rw [hready.diffs]; exact hi), hdiff i s hs hc]

/-- Under the identities, evaluating a program returns what any solution of the equations has for
the last slot. -/
theorem Of.evaluate_spec
    {p : Program κ α} {point : List α}
    (ids : Scalar.Identities κ α)
    (ht : t.Sound)
    (hpos : 0 < t.size)
    (hp : Of t p)
    (hlen : point.length = t.dimension)
    (hv : t.Valuation point v) :
    (p.evaluate point).1 = .ok (v (t.size - 1)) :=
  hp.evaluate_of_exact ht hpos hlen hv (ids.shortcutsExact t v)

/-- Under the identities, differentiating a program leaves what any solutions of the equations
have, and returns what they have for the last slot and the variables. -/
theorem Of.differentiate_spec
    {p : Program κ α} {point : List α} {a : Nat → α}
    (ids : Scalar.Identities κ α)
    (ht : t.Sound)
    (hreg : t.HandlesRegistered)
    (hcalls : t.CallsApart)
    (hpos : 0 < t.size)
    (hp : Of t p)
    (hlen : point.length = t.dimension)
    (hv : t.Valuation point v)
    (ha : t.Adjoints (t.linksAt v) a) :
    ∃ q, p.differentiate point t.dimension =
        (.ok (v (t.size - 1), (List.range t.dimension).map a), q) ∧
      ∀ i s, t.slots[i]? = some s →
        q.registers.values[i]? = some (v i) ∧
          (s.op.isConst = false → q.registers.diffs[i]? = some (a i)) :=
  hp.differentiate_of_exact ids.mul_one ht hreg hcalls hpos hlen hv (ids.shortcutsExact t v) ha

/-- A call that runs a program. -/
inductive Call (α : Type) where
  | evaluate (point : List α)
  | differentiate (point : List α) (room : Nat)

/-- The program that a call leaves, whether it fails or not. -/
def after (p : Program κ α) : Call α → Program κ α
  | .evaluate point => (p.evaluate point).2
  | .differentiate point room => (p.differentiate point room).2

/-- The program that a sequence of calls leaves. -/
def run (p : Program κ α) (calls : List (Call α)) : Program κ α :=
  calls.foldl after p

theorem Of.run
    {p : Program κ α}
    (ht : t.Sound)
    (hp : Of t p)
    (calls : List (Call α)) :
    Of t (p.run calls) := by
  induction calls generalizing p with
  | nil => exact hp
  | cons c calls ih =>
      cases c with
      | evaluate point => exact ih (hp.evaluate ht point)
      | differentiate point room => exact ih (hp.differentiate ht point room)

/-- The program of a tape is made, and whatever calls came before, it returns what the tape
returns, and leaves the values of all slots and the adjoints of all slots but constants.  The
32-bit windows of a tape of 2 ^ 32 edges or more may overlap; well-formed ones do not. -/
theorem program_refines_tape
    {t : Tape κ α} {allow : Bool}
    (ids : Scalar.Identities κ α)
    (hreach : t.Reachable)
    (hpos : 0 < t.size)
    (hreg : t.HandlesRegistered)
    (hwindows : t.edges.size < UInt32.size ∨ t.isWellFormed = true)
    (hallow : allow = true ∨ t.callbackCount = 0) :
    ∃ p, ofTape t allow = .ok p ∧
      ∀ (calls : List (Tape.Call α)) (uses : List (Call α)) (point : List α),
        point.length = t.dimension →
          (∃ x, ((t.run calls).evaluate point).1 = .ok x ∧
            ((p.run uses).evaluate point).1 = .ok x) ∧
          ∃ x gradient u q,
            (t.run calls).differentiate point t.dimension = (.ok (x, gradient), u) ∧
            (p.run uses).differentiate point t.dimension = (.ok (x, gradient), q) ∧
            ∀ (i : Nat) (s : Slot κ α), u.slots[i]? = some s →
              q.registers.values[i]? = some s.value ∧
                (s.op.isConst = false → q.registers.diffs[i]? = some s.adjoint) := by
  have ht := hreach.sound
  have htiled : t.Tiled := by
    rcases hwindows with h | h
    · exact hreach.tiled h
    · exact Tape.tiled_of_isWellFormed h
  obtain ⟨p, hp⟩ := exists_ofTape ht hreg hallow
  refine ⟨p, hp, fun calls uses point hlen => ?_⟩
  have hused := (of_ofTape hp).run ht uses
  -- The tape that was swept before has the plan of `t`, so it solves the same equations.
  have hfresh := Tape.fresh_run ht calls
  have hdim := Tape.dimension_of_fresh_eq hfresh
  have hsize := Tape.size_of_fresh_eq hfresh
  have hsound := ht.of_fresh_eq hfresh.symm
  have hregistered := hreg.of_fresh_eq hfresh.symm
  have hlen' := hlen.trans hdim.symm
  constructor
  · obtain ⟨u, hu, -, hval⟩ := Tape.evaluate_spec hsound hregistered (by omega) hlen'
    refine ⟨u.value (t.size - 1), ?_, ?_⟩
    · rw [hu, hsize]
    · exact hused.evaluate_spec ids ht hpos hlen (hval.of_fresh_eq hfresh)
  · obtain ⟨u, hu, hufresh, hval, hadj, -⟩ := Tape.differentiate_spec hsound hregistered
      (htiled.of_fresh_eq hfresh.symm) (by omega) hlen'
    have hval := hval.of_fresh_eq hfresh
    have hadj := (hadj.of_fresh_eq hfresh).of_links_eq fun j _ =>
      Tape.linksAt_of_fresh_eq hfresh u.value j
    obtain ⟨q, hq, hstate⟩ :=
      hused.differentiate_spec ids ht hreg htiled.callsApart hpos hlen hval hadj
    refine ⟨_, _, u, q, ?_, hq, ?_⟩
    · rw [← hsize, ← hdim]
      exact hu
    · intro i s hs
      obtain ⟨r, hr, hop, -⟩ := Tape.slot_of_fresh_eq (hufresh.trans hfresh) hs
      obtain ⟨hvalue, hdiff⟩ := hstate i r hr
      rw [Tape.value_of_slot hs] at hvalue
      rw [Tape.adjoint_of_slot hs, hop] at hdiff
      exact ⟨hvalue, hdiff⟩

theorem identities_int : Scalar.Identities Nat Int := by
  constructor
  · exact Int.zero_add
  · exact Int.mul_one
  · intro x k hk
    obtain rfl : k = 2 := eq_of_beq hk
    change x ^ 2 = x * x
    rw [Int.pow_succ, Int.pow_succ, Int.pow_zero, Int.one_mul]

/-- The program of `x * x + x`, after other calls on both sides. -/
theorem program_refines_sharedTape :
    sharedTape.Reachable ∧ 0 < sharedTape.size ∧ sharedTape.HandlesRegistered ∧
      ∃ p, ofTape sharedTape false = .ok p ∧ ∃ u q,
        (sharedTape.run [.forward [4], .reverse]).differentiate [3] 1 = (.ok (12, [7]), u) ∧
          (p.run [.differentiate [5] 1, .evaluate []]).differentiate [3] 1 =
            (.ok (12, [7]), q) := by
  have hreach : sharedTape.Reachable := .restored (by cbv) (by cbv) rfl
  have hreg : sharedTape.HandlesRegistered := by
    intro s hs
    simp only [sharedTape, List.mem_toArray, List.mem_cons, List.not_mem_nil, or_false] at hs
    rcases hs with rfl | rfl | rfl <;> trivial
  have hpos : 0 < sharedTape.size := by decide
  obtain ⟨p, hp, hagree⟩ : ∃ p, ofTape sharedTape false = .ok p ∧ _ :=
    program_refines_tape identities_int hreach hpos hreg (.inl (by decide)) (.inr (by cbv))
  refine ⟨hreach, hpos, hreg, p, hp, ?_⟩
  obtain ⟨-, x, gradient, u, q, hu, hq, -⟩ := hagree [.forward [4], .reverse]
    [.differentiate [5] 1, .evaluate []] [3] rfl
  have hresult : ((sharedTape.run [.forward [4], .reverse]).differentiate [3] 1).1 =
      .ok (12, [7]) := by
    cbv
  have hu : (sharedTape.run [.forward [4], .reverse]).differentiate [3] 1 =
      (.ok (x, gradient), u) := hu
  rw [hu] at hresult
  obtain ⟨rfl, rfl⟩ := Prod.mk.inj (Except.ok.inj hresult)
  exact ⟨u, q, hu, hq⟩

/-- On the tape whose windows overlap, a program has the gradient `4 * x`: it multiplies by partials
that it computes anew, not by weights that an edge holds for another slot. -/
theorem Of.differentiate_multiplesTape
    {p : Program Nat Int} {w : Nat}
    (hfits : w + 4 ≤ indexLimit)
    (hwrap : 2 * (w + 1) % UInt32.size = 0)
    (hp : Of (Tape.multiplesTape (w + 2)) p)
    (x : Int) :
    (p.differentiate [x] 1).1 = .ok (2 * (x * x), [4 * x]) := by
  have hsound := (Tape.reachable_multiplesTape (n := w + 2) (by omega)).sound
  have hcount := Tape.callbackCount_multiplesTape (w + 2)
  have hreg := Tape.handlesRegistered_of_callbackCount hcount
  have hsize := Tape.size_multiplesTape (w + 2)
  obtain ⟨u, -, -, hval⟩ := Tape.evaluate_spec hsound hreg (by rw [hsize]; omega)
    (rfl : [x].length = 1)
  obtain ⟨hx, -, hlast⟩ := hval.multiplesTape hwrap
  obtain ⟨q, hq, -, hgather⟩ := hp.differentiate_of_valuation hsound hreg
    (Tape.callsApart_of_callbackCount hcount) (by rw [hsize]; omega) rfl
    (.of_exact hval (identities_int.shortcutsExact _ _))
  have hadj : (Tape.multiplesTape (w + 2)).Adjoints ((Tape.multiplesTape (w + 2)).linksAt u.value)
      (diffIn q.registers) := by
    intro i hi
    have hconst : (Tape.multiplesSlot i).op.isConst = false := by
      cases i with
      | zero => rfl
      | succ k =>
          rw [Tape.multiplesSlot]
          split <;> rfl
    have hgathered := hgather i _ (Tape.slot_multiplesTape (hsize ▸ hi)) hconst
    rw [gathered_iff hsound hreg] at hgathered
    rw [hgathered]
    exact congrArg (List.foldl _ _) (List.flatMap_congr fun j _ =>
      passed_of_mul_one Int.mul_one (diffIn q.registers) i j)
  obtain ⟨hproduct, hsum⟩ := Tape.sourcesIn_multiplesTape hwrap
  have hzero : diffIn q.registers 0 = 4 * x := by
    refine Tape.adjoint_multiplesTape hadj (fun j l hl => Tape.lt_of_mem_linksAt hsound hl) ?_ ?_
    · rw [Tape.linksAt_of_slot (Tape.slot_multiplesTape (i := 1) (by omega)), Tape.partialsAt,
        hproduct, ← hx]
      rfl
    · rw [Tape.linksAt_of_slot (Tape.slot_multiplesTape (i := w + 3) (by omega)),
        Tape.partialsAt_multiplesSlot (Nat.succ_pos _), hsum]
      rfl
  have hq : p.differentiate [x] 1 = _ := hq
  rw [hq, hsize]
  show Except.ok (u.value (w + 3), [diffIn q.registers 0]) = _
  rw [hlast, hzero]

/-- Where windows overlap, a program and its tape have different gradients. -/
theorem program_deviates_multiplesTape :
    Scalar.Identities Nat Int ∧ (Tape.multiplesTape 2147483649).Reachable ∧
      0 < (Tape.multiplesTape 2147483649).size ∧ (Tape.multiplesTape 2147483649).HandlesRegistered ∧
      ((Tape.multiplesTape 2147483649).differentiate [3] 1).1 = .ok (18, [4]) ∧
      ∃ p, ofTape (Tape.multiplesTape 2147483649) false = .ok p ∧
        (p.differentiate [3] 1).1 = .ok (18, [12]) := by
  have hfits : 2147483647 + 4 ≤ indexLimit := by decide
  have hwrap : 2 * (2147483647 + 1) % UInt32.size = 0 := by decide
  have hreach := Tape.reachable_multiplesTape (n := 2147483647 + 2) (by decide)
  have hcount := Tape.callbackCount_multiplesTape (2147483647 + 2)
  have hreg := Tape.handlesRegistered_of_callbackCount hcount
  obtain ⟨p, hp⟩ : ∃ p, ofTape (Tape.multiplesTape 2147483649) false = .ok p :=
    exists_ofTape hreach.sound hreg (.inr hcount)
  refine ⟨identities_int, hreach, ?_, hreg, Tape.differentiate_multiplesTape hfits hwrap 3, p, hp,
    (of_ofTape hp).differentiate_multiplesTape hfits hwrap 3⟩
  rw [Tape.size_multiplesTape]
  exact Nat.succ_pos _

end Refinement
end Program
end ReverseMode

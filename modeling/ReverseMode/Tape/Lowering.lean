import ReverseMode.Tape.Basic
import ReverseMode.Term.Task

/-!
# From a term to a tape

**Input.**  A term of a graph and the list of variables that the leading slots stand for.

**Algorithm.**  The variables are given slots first; a repeated one is an error.  Then a
stack of tasks is worked off.  Entering a term that has a slot is a *hit*.  Entering a
variable that has none is an error.  Entering any other term puts its `leave` on the stack
and on top of that its operands that have no slot, the first one uppermost; each operand
that has one is a hit.  Leaving a term appends its slot, unless it was given one in the
meantime.  A term may be on the stack many times, but is given a slot once.

A term that is a lone variable is wrapped in the power 1, so that the output is always a
computed slot.

**Results.**  `Tape.ofTerm` gives the tape and the number of hits.
-/

namespace ReverseMode

/-- A term on its way to a tape. -/
structure LoweringState {κ α : Type} [Exponent κ] (g : Graph κ α) where
  tape : Tape κ α
  /-- The slot of each term that has one. -/
  slots : g.Table (Option Nat)
  hits : Nat
  stack : List (Task g.Term)

/-- A tape made from a term. -/
structure Lowered (κ α : Type) where
  tape : Tape κ α
  /-- How often the pass met a term that had a slot already. -/
  hits : Nat

namespace Graph

variable {κ α : Type} [Exponent κ] [Scalar κ α] (g : Graph κ α)

section Binding

/-- Gives slots to the variables from position `position` on. -/
def bindFrom (position : Nat) :
    List g.Variable → Tape κ α × g.Table (Option Nat) →
      Except (Error κ) (Tape κ α × g.Table (Option Nat))
  | [], s => .ok s
  | v :: vs, (tape, slots) =>
      match slots.get v.1 with
      | some first => .error (.binding (.duplicate v.1 first position))
      | none =>
          match tape.pushInput with
          | .error f => .error (.fault f)
          | .ok (slot, tape) => bindFrom (position + 1) vs (tape, g.enterAt slots v.1 (some slot))

/-- The tape whose slots are the variables, and the table of these slots. -/
def bindAll (vs : List g.Variable) :
    Except (Error κ) (Tape κ α × g.Table (Option Nat)) :=
  g.bindFrom 0 vs ({}, g.table none)

end Binding

section Emission

/-- The slots of the operands of a node. -/
def operandSlots (slots : g.Table (Option Nat)) (ts : List g.Term) :
    Except (Fault κ) (List Nat) :=
  ts.mapM fun t =>
    match slots.get t with
    | some i => .ok i
    | none => .error .unslottedOperand

/-- Appends an operation over the slots of the given operands. -/
def emitOp (slots : g.Table (Option Nat)) (ts : List g.Term) (op : Op κ)
    (tape : Tape κ α) : Except (Error κ) (Nat × Tape κ α) :=
  match g.operandSlots slots ts with
  | .error f => .error (.fault f)
  | .ok sources => (tape.pushOp op sources).mapError .fault

/-- Appends the slot of a term whose operands have theirs.  A function is registered anew
for each node that calls it. -/
def emit (t : g.Term) (slots : g.Table (Option Nat)) (tape : Tape κ α) :
    Except (Error κ) (Nat × Tape κ α) :=
  match g.node t with
  | .const c => (tape.pushConst c).mapError .fault
  | .zero => (tape.pushConst 0).mapError .fault
  | .var _ => .error (.binding (.unbound t))
  | .sum ts => g.emitOp slots ts .sum tape
  | .product a b => g.emitOp slots [a, b] .product tape
  | .constPower a k => g.emitOp slots [a] (.constPower k) tape
  | .termPower a b => g.emitOp slots [a, b] .termPower tape
  | .exp a => g.emitOp slots [a] .exp tape
  | .ln a => g.emitOp slots [a] .ln tape
  | .unary f a =>
      match tape.registerUnary f with
      | .error e => .error (.fault e)
      | .ok (h, tape) => g.emitOp slots [a] (.unary h) tape
  | .binary f a b =>
      match tape.registerBinary f with
      | .error e => .error (.fault e)
      | .ok (h, tape) => g.emitOp slots [a, b] (.binary h) tape
  | .nary f ts =>
      match tape.registerNary f with
      | .error e => .error (.fault e)
      | .ok (h, tape) => g.emitOp slots ts (.nary h) tape

end Emission

section Pass

/-- Takes the uppermost task. -/
def lowerStep : LoweringState g → Except (Error κ) (LoweringState g)
  | ⟨tape, slots, hits, []⟩ => .ok ⟨tape, slots, hits, []⟩
  | ⟨tape, slots, hits, .enter t :: rest⟩ =>
      if (slots.get t).isSome then .ok ⟨tape, slots, hits + 1, rest⟩
      else if g.isVariable t then .error (.binding (.unbound t))
      else
        let operands := g.operands t
        let known := operands.countP fun u => (slots.get u).isSome
        let fresh := operands.filter fun u => (slots.get u).isNone
        .ok ⟨tape, slots, hits + known, fresh.map Task.enter ++ .leave t :: rest⟩
  | ⟨tape, slots, hits, .leave t :: rest⟩ =>
      if (slots.get t).isSome then .ok ⟨tape, slots, hits, rest⟩
      else
        match g.emit t slots tape with
        | .error e => .error e
        | .ok (slot, tape) => .ok ⟨tape, g.enterAt slots t (some slot), hits, rest⟩

theorem load_lowerStep_lt {s r : LoweringState g} (h : g.lowerStep s = .ok r)
    (hs : s.stack ≠ []) : g.load r.stack < g.load s.stack := by
  rcases s with ⟨tape, slots, hits, _ | ⟨t | t, rest⟩⟩
  · exact absurd rfl hs
  · rw [lowerStep] at h
    split at h
    · cases h
      exact g.load_tail_lt _ _
    · split at h
      · cases h
      · cases h
        exact g.load_expand_lt _ _ _
  · rw [lowerStep] at h
    split at h
    · cases h
      exact g.load_tail_lt _ _
    · split at h
      · cases h
      · cases h
        exact g.load_tail_lt _ _

/-- Takes tasks until none is left. -/
def lowerFrom (s : LoweringState g) : Except (Error κ) (LoweringState g) :=
  if _hs : s.stack = [] then .ok s
  else
    match _h : g.lowerStep s with
    | .error e => .error e
    | .ok r => lowerFrom r
termination_by g.load s.stack
decreasing_by exact g.load_lowerStep_lt ‹_› ‹_›

/-- Gives slots to the variables and then to all terms below `root`. -/
def lower (root : g.Term) (vs : List g.Variable) : Except (Error κ) (LoweringState g) := do
  let (tape, slots) ← g.bindAll vs
  g.lowerFrom ⟨tape, slots, 0, [.enter root]⟩

end Pass
end Graph

namespace Tape

variable {κ α : Type} [Exponent κ] [Scalar κ α]

/-- The tape of a term, whose leading slots are the given variables in order and whose
last slot is the term. -/
def ofTerm (g : Graph κ α) (root : g.Term) (vs : List g.Variable) :
    Except (Error κ) (Lowered κ α) := do
  let s ← g.lower root vs
  match s.slots.get root with
  | none => .error (.fault .unslottedOperand)
  | some slot =>
      if slot < vs.length then
        match s.tape.pushOp (.constPower Exponent.one) [slot] with
        | .error f => .error (.fault f)
        | .ok (_, tape) => .ok { tape, hits := s.hits }
      else .ok { tape := s.tape, hits := s.hits }

end Tape
end ReverseMode

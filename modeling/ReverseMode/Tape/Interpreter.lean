import ReverseMode.Tape.Sweep

/-!
# Forward sweeps in place

An interpreter works on one tape.  For functions of any number of arguments it has two lists of its
own: the arguments are copied to one, the partials are written to the other.  Both keep what they
held until they are used again.

* `nodeValue` is the value of a slot, from the slots that its edges name.
* `nodeValueAndWeights` also writes the weights of its edges, each as soon as it is known: a sum
  writes them while it adds, and a function is asked for its partials before it is asked for its
  value.
* `forward` and `forwardWithWeights` load a point and write slot after slot.

An action gives a result and the interpreter that it leaves.  A fault ends it and leaves what was
written up to there.
-/

namespace ReverseMode

/-- A tape with the two lists that are lent to functions of any number of arguments. -/
structure Interpreter (κ α : Type) where
  tape : Tape κ α
  arguments : List α := []
  partials : List α := []

namespace Interpreter

/-- What an interpreter does: it changes its state and may end in a fault. -/
abbrev Action (κ α β : Type) : Type :=
  ExceptT (Fault κ) (StateM (Interpreter κ α)) β

/-- What an action gives and the interpreter that it leaves. -/
def perform {κ α β : Type} (m : Interpreter κ α) (x : Action κ α β) :
    Except (Fault κ) β × Interpreter κ α :=
  x.run.run m

variable {κ α : Type} [Exponent κ] [Scalar κ α]

section Access

/-- Reads the tape. -/
def look {β : Type} (read : Tape κ α → Except (Fault κ) β) : Action κ α β := fun m =>
  (read m.tape, m)

/-- Changes the tape. -/
def change (write : Tape κ α → Tape κ α) : Action κ α Unit := fun m =>
  (.ok (), { m with tape := write m.tape })

/-- Writes one weight. -/
def setWeight (p : Nat) (w : α) : Action κ α Unit :=
  change fun t => { t with edges := t.edges.modify p fun e => { e with weight := w } }

/-- The value that the `k`-th of some edges leads to. -/
def argument (edges : List (Edge α)) (k : Nat) : Action κ α α :=
  match edges[k]? with
  | some e => look fun t => t.valueAt e.source
  | none => look fun _ => .error .outOfBounds

/-- The second of some values, where there is one. -/
def secondArgument (edges : List (Edge α)) : Action κ α α :=
  if 1 < edges.length then argument edges 1 else pure 0

end Access

section Lending

/-- The arguments that were copied last. -/
def lentArguments : Action κ α (List α) := fun m =>
  (.ok m.arguments, m)

def setArguments (arguments : List α) : Action κ α Unit := fun m =>
  (.ok (), { m with arguments })

/-- Copies the values that edges lead to behind the arguments there are. -/
def appendArguments : List (Edge α) → Action κ α Unit
  | [] => pure ()
  | e :: edges => do
      let v ← look fun t => t.valueAt e.source
      setArguments ((← lentArguments) ++ [v])
      appendArguments edges

/-- Copies the values that edges lead to. -/
def copyArguments (edges : List (Edge α)) : Action κ α Unit := do
  setArguments []
  appendArguments edges

/-- Has a function write its partials at the arguments that were copied last.  It finds `n` places
that hold 0. -/
def writePartials (f : NaryFn α) (n : Nat) : Action κ α Unit := fun m =>
  (.ok (), { m with partials := f.write m.arguments (List.replicate n 0) })

/-- The partials that were written last. -/
def lentPartials : Action κ α (List α) := fun m =>
  (.ok m.partials, m)

/-- Copies partials to the weights of edges from place `p` on, as far as there are both. -/
def copyWeights (p : Nat) : List (Edge α × α) → Action κ α Unit
  | [] => pure ()
  | x :: rest => do
      setWeight p x.2
      copyWeights (p + 1) rest

end Lending

section Nodes

/-- Adds the values that edges lead to, one after another. -/
def addUp : List (Edge α) → α → Action κ α α
  | [], acc => pure acc
  | e :: edges, acc => do
      let v ← look fun t => t.valueAt e.source
      addUp edges (acc + v)

/-- Adds the values that edges lead to and writes the weight 1 to each, from place `p` on. -/
def addUpWeighted (p : Nat) : List (Edge α) → α → Action κ α α
  | [], acc => pure acc
  | e :: edges, acc => do
      let v ← look fun t => t.valueAt e.source
      setWeight p 1
      addUpWeighted (p + 1) edges (acc + v)

/-- The value of a slot. -/
def nodeValue (i : Nat) : Action κ α α := do
  let s ← look fun t => t.slot i
  let edges ← look fun t => t.edgesIn s.inputs
  match s.op with
  | .input | .const => pure s.value
  | .sum => addUp edges 0
  | .unary h => do
      let f ← look fun t => t.unaryFn h
      let a ← argument edges 0
      pure (f.eval a)
  | .binary h => do
      let f ← look fun t => t.binaryFn h
      let a ← argument edges 0
      let b ← argument edges 1
      pure (f.eval a b)
  | .nary h => do
      copyArguments edges
      let f ← look fun t => t.naryFn h
      let args ← lentArguments
      pure (f.eval args)
  | op => do
      let b ← secondArgument edges
      let a ← argument edges 0
      look fun _ => Rule.value op a b

/-- The value of a slot, once the weights of its edges are written. -/
def nodeValueAndWeights (i : Nat) : Action κ α α := do
  let s ← look fun t => t.slot i
  let edges ← look fun t => t.edgesIn s.inputs
  let start := s.inputs.start
  match s.op with
  | .input | .const => pure s.value
  | .sum => addUpWeighted start edges 0
  | .unary h => do
      let f ← look fun t => t.unaryFn h
      let a ← argument edges 0
      setWeight start (f.derivative a)
      pure (f.eval a)
  | .binary h => do
      let f ← look fun t => t.binaryFn h
      let a ← argument edges 0
      let b ← argument edges 1
      let d := f.partials a b
      setWeight start d.1
      setWeight (start + 1) d.2
      pure (f.eval a b)
  | .nary h => do
      let f ← look fun t => t.naryFn h
      copyArguments edges
      writePartials f edges.length
      copyWeights start (edges.zip (← lentPartials))
      let args ← lentArguments
      pure (f.eval args)
  | op => do
      let a ← argument edges 0
      let b ← secondArgument edges
      let r ← look fun _ => Rule.value op a b
      let d ← look fun _ => Rule.partials op a b r
      setWeight start d.1
      if 1 < edges.length then setWeight (start + 1) d.2
      pure r

end Nodes

section Sweeps

/-- Writes the values of slots, one after another. -/
def writeSlots (node : Nat → Action κ α α) : List Nat → Action κ α Unit
  | [] => pure ()
  | i :: rest => do
      let v ← node i
      change fun t => t.setValue i v
      writeSlots node rest

/-- Loads a point and writes the values of the slots past the variables. -/
def forwardBy (node : Nat → Action κ α α) (point : List α) : Action κ α Unit := do
  look fun t => if point.length = t.dimension then .ok () else .error .pointLength
  change fun t => t.setPoint point
  writeSlots node (← look fun t => .ok t.computed)

/-- Loads a point and writes all values; the edges are left alone. -/
def forward (point : List α) : Action κ α Unit :=
  forwardBy nodeValue point

/-- Loads a point and writes all values and all weights. -/
def forwardWithWeights (point : List α) : Action κ α Unit :=
  forwardBy nodeValueAndWeights point

end Sweeps
end Interpreter
end ReverseMode

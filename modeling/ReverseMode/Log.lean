import ReverseMode.Compiled.Basic

/-!
# Records of a compilation

What a compilation reports about itself, as data.  The records are functions of what was
compiled: nothing is written while the work is done, and nothing is computed for a reader
who does not ask.

* Lowering a term to a tape reports the sizes of the tape and the number of hits.
* Making a program reports each value, partials and accumulation instruction, and at last
  their numbers.  Leaf slots past the variables are reported among the values although
  they need no instruction.  If no program can be made, the values up to the slot at fault
  are reported.
* A finished compilation reports its engine.
-/

namespace ReverseMode

/-- One report. -/
inductive LogRecord (κ : Type) where
  | lowered (dimension nodes edges hits : Nat)
  | value (slot : Nat) (op : Op κ) (sources : List Nat)
  | partials (slot : Nat) (op : Op κ)
  | accumulation (target consumer : Nat) (op : Op κ) (position : Nat)
  | generated (values derivatives nodes : Nat)
  | compiled (dimension : Nat) (engine : Engine)

namespace LogRecord

variable {κ : Type}

/-- Whether a report is about a whole, not about one instruction. -/
def isSummary : LogRecord κ → Bool
  | lowered .. | generated .. | compiled .. => true
  | value .. | partials .. | accumulation .. => false

/-- A list in brackets. -/
def listText (ns : List Nat) : String :=
  "[" ++ String.intercalate ", " (ns.map toString) ++ "]"

/-- The wording of a report. -/
def text [Text.Numeral κ] : LogRecord κ → String
  | lowered dimension nodes edges hits =>
      "compiled term: " ++ toString dimension ++ " variables, " ++ toString nodes ++
        " nodes, " ++ toString edges ++ " edges, " ++ toString hits ++ " cache hits"
  | value slot op sources =>
      "value[" ++ toString slot ++ "] <- " ++ op.listing ++ " " ++ listText sources
  | partials slot op => "partials[" ++ toString slot ++ "] <- " ++ op.listing
  | accumulation target consumer op position =>
      "diff[" ++ toString target ++ "] += diff[" ++ toString consumer ++ "] * d" ++
        op.listing ++ "/d" ++ toString position
  | generated values derivatives nodes =>
      "generated " ++ toString values ++ " value and " ++ toString derivatives ++
        " derivative instructions for " ++ toString nodes ++ " nodes"
  | compiled dimension engine =>
      "compiled term over " ++ toString dimension ++ " variables for " ++ engine.name ++
        " engine"

end LogRecord

section Reports

variable {κ α : Type} [Exponent κ] [Scalar κ α]

/-- What lowering a term reports. -/
def Lowered.report (l : Lowered κ α) : LogRecord κ :=
  .lowered l.tape.dimension l.tape.size l.tape.edges.size l.hits

/-- The report on the value of a slot. -/
def Tape.valueReport? (t : Tape κ α) (i : Nat) : Option (LogRecord κ) :=
  match t.slot i, Program.sources t i with
  | .ok s, .ok as => some (.value i s.op as)
  | _, _ => none

/-- The reports on the values of slots, up to the first one without an instruction. -/
def Tape.valueReports (t : Tape κ α) : List Nat → List (LogRecord κ)
  | [] => []
  | i :: rest =>
      let reported := (t.valueReport? i).toList
      match Program.valueInstruction? t i with
      | .ok _ => reported ++ valueReports t rest
      | .error _ => reported

/-- The operation in a slot, for a report. -/
def Tape.reportedOp (t : Tape κ α) (i : Nat) : Op κ :=
  (t.slots[i]?.map (·.op)).getD .const

/-- What making a program reports. -/
def Program.reports (t : Tape κ α) (allowCallbacks : Bool) : List (LogRecord κ) :=
  let values := t.valueReports (List.range' t.dimension (t.size - t.dimension))
  match Program.ofTape t allowCallbacks with
  | .ok p =>
      values ++
        (p.partialsCode.map fun i => .partials i.slot (t.reportedOp i.slot)) ++
        (p.accumulationCode.map fun a =>
          .accumulation a.target a.consumer (t.reportedOp a.consumer) a.position) ++
        [.generated p.valueLength p.derivativeLength t.size]
  | .error (.callbacksNotSupported _) => []
  | .error _ => values

/-- What giving a tape its engine reports. -/
def CompiledTerm.assemblyReports (tape : Tape κ α) (vs : List Nat) (options : Options) :
    List (LogRecord κ) :=
  let made :=
    match options.engine with
    | .interpreted => []
    | .generated => Program.reports tape options.allowCallbacks
  match CompiledTerm.assemble tape vs options with
  | .ok _ => made ++ [.compiled vs.length options.engine]
  | .error _ => made

/-- What compiling a term reports. -/
def CompiledTerm.compileReports (g : Graph κ α) (root : g.Term) (vs : List g.Variable)
    (options : Options) : List (LogRecord κ) :=
  match Tape.ofTerm g root vs with
  | .ok l => l.report :: assemblyReports l.tape (vs.map fun v => v.1.val) options
  | .error _ => []

/-- What making a compiled term from a tape reports. -/
def CompiledTerm.tapeReports (tape : Tape κ α) (vs : List Nat) (options : Options) :
    List (LogRecord κ) :=
  match CompiledTerm.ofTape tape vs options with
  | .error (.argument _) => []
  | _ => assemblyReports tape vs options

end Reports
end ReverseMode

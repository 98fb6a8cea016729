/-!
# Functions with supplied derivatives

A function that the term algebra cannot express enters a term together with its
derivatives.  Nothing relates the two: a value comes from one field, a partial from
another, and a wrong derivative is taken at its word.

* `UnaryFn`, `BinaryFn`: one argument, two arguments.
* `NaryFn`: any number of arguments.  Its gradient is a routine that writes into a buffer
  of the arguments' length; `NaryFn.gradient` hands it a buffer of zeros.

Terms and tapes hand an n-ary function one argument at least.  A caller of its own may hand
it none, and then `NaryFn.call?` refuses the functions that need one.
-/

namespace ReverseMode

/-- A function of one argument with its derivative. -/
structure UnaryFn (α : Type) where
  eval : α → α
  derivative : α → α
  label : Option String := none

/-- A function of two arguments with its two partials. -/
structure BinaryFn (α : Type) where
  eval : α → α → α
  partials : α → α → α × α
  label : Option String := none

/-- A function of a list of arguments with a routine that writes its partials. -/
structure NaryFn (α : Type) where
  eval : List α → α
  /-- `write args buffer` is the buffer after the partials at `args` are written to it. -/
  write : List α → List α → List α
  label : Option String := none
  /-- Whether the function is undefined without arguments. -/
  needsArgument : Bool := false
  length_write : ∀ {args buffer : List α},
    buffer.length = args.length → (write args buffer).length = args.length

namespace NaryFn

variable {α : Type} [Zero α]

/-- The gradient at `args`: what `write` leaves in a buffer of zeros.  A place that `write`
passes over is therefore 0. -/
def gradient (f : NaryFn α) (args : List α) : List α :=
  f.write args (List.replicate args.length 0)

@[simp] theorem length_gradient (f : NaryFn α) (args : List α) :
    (f.gradient args).length = args.length :=
  f.length_write (by simp)

/-- The value and the gradient at `args`.  A function that needs an argument has neither at
none. -/
def call? (f : NaryFn α) (args : List α) : Option (α × List α) :=
  if f.needsArgument && args.isEmpty then none else some (f.eval args, f.gradient args)

end NaryFn

end ReverseMode

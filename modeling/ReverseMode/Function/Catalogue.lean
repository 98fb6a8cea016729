import ReverseMode.Function

/-!
# A catalogue of binary64 functions

Named functions of each arity.  Some have parameters, and each parameter has a default.
Arithmetic is done in the order written, sums from 0 and products from 1, arguments from
left to right.

Not every entry is honest: `wrong` has a derivative that does not belong to it, and the
gradients of `first` and `count` leave places unwritten.  They show that an engine takes
partials from the function alone.
-/

namespace ReverseMode
namespace Catalogue

section Unary

/-- Functions of one argument. -/
def unary? (name : String) (params : List Float) : Option (UnaryFn Float) :=
  match name with
  | "square" => some { eval := fun a => a * a, derivative := fun a => 2.0 * a }
  | "cube" => some { eval := fun a => (a * a) * a, derivative := fun a => (3.0 * a) * a }
  | "sin" => some { eval := Float.sin, derivative := Float.cos }
  | "wrong" => some { eval := fun a => a + 1.0, derivative := fun _ => 42.0 }
  | "relu" => some
      { eval := fun a => if a > 0.0 then a else 0.0
        derivative := fun a => if a > 0.0 then 1.0 else 0.0 }
  | "recip" => some
      { eval := fun a => 1.0 / a
        derivative := fun a => -1.0 / (a * a) }
  | "affine" =>
      let slope := params.getD 0 1.0
      let offset := params.getD 1 0.0
      some { eval := fun a => slope * a + offset, derivative := fun _ => slope }
  | "softplus" => some
      { eval := fun a => Float.log (1.0 + Float.exp a)
        derivative := fun a => 1.0 / (1.0 + Float.exp (-a)) }
  | _ => none

end Unary

section Binary

/-- Functions of two arguments. -/
def binary? (name : String) (params : List Float) : Option (BinaryFn Float) :=
  match name with
  | "mul" => some { eval := fun a b => a * b, partials := fun a b => (b, a) }
  | "sub" => some { eval := fun a b => a - b, partials := fun _ _ => (1.0, -1.0) }
  | "max" => some
      { eval := fun a b => if a >= b then a else b
        partials := fun a b => if a >= b then (1.0, 0.0) else (0.0, 1.0) }
  | "wrong" => some { eval := fun a _ => a, partials := fun a b => (b, a + b) }
  | "weighted" =>
      let p := params.getD 0 1.0
      let q := params.getD 1 1.0
      some { eval := fun a b => p * a + q * b, partials := fun _ _ => (p, q) }
  | "div" => some
      { eval := fun a b => a / b
        partials := fun a b => (1.0 / b, (-a) / (b * b)) }
  | _ => none

end Binary

section Nary

/-- Products of all arguments but one, at each place. -/
def productsOfOthers (args : List Float) : List Float :=
  (List.range args.length).map fun k => (args.eraseIdx k).foldl (· * ·) 1.0

/-- The greatest argument by `>` from minus infinity, which passes over NaN. -/
def greatest (args : List Float) : Float :=
  args.foldl (fun m a => if a > m then a else m) (-1.0 / 0.0)

/-- `m + ln (Σ exp (a - m))` for the greatest argument `m`. -/
def logSumExp (args : List Float) : Float :=
  let m := greatest args
  m + Float.log (args.foldl (fun s a => s + Float.exp (a - m)) 0.0)

/-- The weights `ps` repeated along the arguments. -/
def cycledWeights (ps : List Float) (args : List Float) : List Float :=
  (List.range args.length).map fun k => ps.getD (k % ps.length) 0.0

/-- Functions of any number of arguments. -/
def nary? (name : String) (params : List Float) : Option (NaryFn Float) :=
  match name with
  | "sumsq" => some
      { eval := fun args => args.foldl (fun s a => s + a * a) 0.0
        write := fun args _ => args.map (2.0 * ·)
        length_write := by simp }
  | "first" => some
      { eval := fun args => args.getD 0 0.0
        write := fun _ buffer => buffer.set 0 1.0
        needsArgument := true
        length_write := by simp }
  | "accum" => some
      { eval := fun args => args.foldl (fun s a => s + (0.5 * a) * a) 0.0
        write := fun args buffer => List.zipWith (· + ·) buffer args
        length_write := by simp_all }
  | "count" => some
      { eval := fun args => Float.ofNat args.length
        write := fun _ buffer => buffer
        length_write := by simp }
  | "prod" => some
      { eval := fun args => args.foldl (· * ·) 1.0
        write := fun args _ => productsOfOthers args
        length_write := by simp [productsOfOthers] }
  | "weighted" =>
      let ps := if params.isEmpty then [1.0] else params
      some
        { eval := fun args =>
            (List.zipWith (· * ·) (cycledWeights ps args) args).foldl (· + ·) 0.0
          write := fun args _ => cycledWeights ps args
          length_write := by simp [cycledWeights] }
  | "lse" => some
      { eval := logSumExp
        write := fun args _ =>
          let v := logSumExp args
          args.map fun a => Float.exp (a - v)
        length_write := by simp }
  | _ => none

end Nary

end Catalogue
end ReverseMode

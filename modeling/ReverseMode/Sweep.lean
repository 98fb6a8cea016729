/-!
# Sweeps

A sweep passes over a list of places and updates a state at each.  At a place it first
*reads*, which may fail, and then *writes*, which may not.  A failed read ends the sweep
and leaves what the earlier places have written.
-/

namespace ReverseMode

/-- Reads and writes at each place in turn, up to the first failed read. -/
def sweep {σ ι β ε : Type} (read : σ → ι → Except ε β) (write : σ → ι → β → σ) :
    List ι → σ → Except ε Unit × σ
  | [], s => (.ok (), s)
  | i :: rest, s =>
      match read s i with
      | .error e => (.error e, s)
      | .ok b => sweep read write rest (write s i b)

end ReverseMode

import ReverseMode.Proofs.Integer
import ReverseMode.Proofs.Lowering.Output
import ReverseMode.Proofs.Tape.Partials
import ReverseMode.Proofs.Tape.Transpose

/-!
# A tape whose windows overlap

**Input.**  The terms `x`, `x * x`, and then `n` times the sum of the last one and the product.

**Argument.**  Every slot but that of `x` has two edges, so the window of slot `k + 1` starts at
edge `2 * k`, cut to 32 bits.  From 2 ^ 31 on, a window starts over and shows edges that belong to
the first slots.  A differentiating sweep writes the weights of an edge once for each slot that
shows it, and the last one stays.

**Results.**
* `ofTerm_multiples`, `ofTerm_multiples_eq_tapeTooLong`: the tape of these terms, slot by slot and
  edge by edge, and that there is none where some slot has no index.
* `Tape.evaluate_multiplesTape`: the value that such a tape has once its windows start over.
* `Tape.edge_of_holds`, `Tape.adjoint_multiplesTape`: the weights that it stores then, and the
  adjoint of `x`.
* `Tape.differentiate_multiplesTape`: what it returns for value and gradient.
-/

namespace ReverseMode
namespace Graph

section Terms

/-- The nodes `x` and `x * x`, `n` sums of the node before and the product, and a variable that none
of them reads. -/
def multiplesNode (n : Nat) : Nat → Node Nat Int Nat
  | 0 => .var none
  | 1 => .product 0 0
  | k + 2 => if k < n then .sum [k + 1, 1] else .var none

/-- The terms `x`, `x * x`, `x * x + x * x` and so on, where all sums use one product. -/
def multiples (n : Nat) : Graph Nat Int where
  nodes := Array.ofFn fun i : Fin (n + 3) => multiplesNode n i
  node_ok := by
    intro i hi
    rw [Array.getElem_ofFn]
    match i with
    | 0 => exact ⟨rfl, nofun⟩
    | 1 => exact ⟨rfl, by simp [multiplesNode, Node.operands]⟩
    | k + 2 =>
        rw [multiplesNode]
        split
        · exact ⟨rfl, by simp [Node.operands]⟩
        · exact ⟨rfl, nofun⟩

variable {n k : Nat}

theorem size_multiples (n : Nat) : (multiples n).size = n + 3 :=
  Array.size_ofFn

theorem getElem_multiples
    (h : k < (multiples n).nodes.size) :
    (multiples n).nodes[k] = multiplesNode n k := by
  simp [multiples]

/-- A node whose table entry is known. -/
theorem node_eq_mapOperands
    {κ α : Type} [Exponent κ] {g : Graph κ α} {t : g.Term} {m : Node κ α Nat}
    (h : g.nodes[t] = m) :
    g.node t = m.mapOperands fun j hj =>
      ⟨j, Nat.lt_trans ((g.node_ok t t.isLt).2 j (by rw [← h] at hj; exact hj)) t.isLt⟩ := by
  subst h
  rfl

/-- The `k`-th sum; the product is the sum 0. -/
def multiples.term (n k : Nat) (h : k ≤ n) : (multiples n).Term :=
  ⟨k + 1, by rw [size_multiples]; omega⟩

def multiples.xTerm (n : Nat) : (multiples n).Term :=
  ⟨0, by rw [size_multiples]; omega⟩

theorem node_xTerm (n : Nat) : (multiples n).node (multiples.xTerm n) = .var none :=
  (node_eq_mapOperands (m := .var none) (getElem_multiples (multiples.xTerm n).isLt)).trans rfl

theorem node_product (n : Nat) :
    (multiples n).node (multiples.term n 0 (Nat.zero_le n)) =
      .product (multiples.xTerm n) (multiples.xTerm n) :=
  (node_eq_mapOperands (m := .product 0 0)
    (getElem_multiples (multiples.term n 0 (Nat.zero_le n)).isLt)).trans rfl

theorem node_sum
    (h : k + 1 ≤ n) :
    (multiples n).node (multiples.term n (k + 1) h) =
      .sum [multiples.term n k (by omega), multiples.term n 0 (by omega)] := by
  have hentry : (multiples n).nodes[multiples.term n (k + 1) h] = .sum [k + 1, 1] := by
    refine (getElem_multiples (multiples.term n (k + 1) h).isLt).trans ?_
    exact if_pos (Nat.lt_of_succ_le h)
  exact (node_eq_mapOperands hentry).trans rfl

def multiples.x (n : Nat) : (multiples n).Variable :=
  ⟨multiples.xTerm n, by rw [isVariable, node_xTerm]; rfl⟩

/-- The variable that no other term reads. -/
def multiples.y (n : Nat) : (multiples n).Variable :=
  ⟨⟨n + 2, by rw [size_multiples]; omega⟩, by
    have hlt : n + 2 < (multiples n).nodes.size := by
      rw [← size, size_multiples]
      omega
    have hentry : (multiples n).nodes[n + 2] = .var none :=
      (getElem_multiples hlt).trans (if_neg (Nat.lt_irrefl n))
    rw [isVariable, node_eq_mapOperands (m := .var none) hentry]
    rfl⟩

theorem nodup_multiples (n : Nat) : [multiples.x n, multiples.y n].Nodup := by
  refine List.nodup_cons.2 ⟨fun h => ?_, List.nodup_singleton _⟩
  have hval : 0 = n + 2 :=
    congrArg (fun v : (multiples n).Variable => v.1.val) (List.mem_singleton.1 h)
  omega

/-- The last sum. -/
def multiples.root (n : Nat) : (multiples n).Term :=
  multiples.term n n (Nat.le_refl n)

theorem isVariable_term
    (h : k ≤ n) :
    (multiples n).isVariable (multiples.term n k h) = false := by
  cases k with
  | zero => rw [isVariable, node_product]; rfl
  | succ k => rw [isVariable, node_sum]; rfl

/-- Every term is `x`, a sum or the last variable. -/
theorem multiples_cases (t : (multiples n).Term) :
    t = multiples.xTerm n ∨ (∃ k, ∃ h : k ≤ n, t = multiples.term n k h) ∨ t.val = n + 2 := by
  obtain ⟨i, hi⟩ := t
  have hlt : i < n + 3 := size_multiples n ▸ hi
  match i with
  | 0 => exact .inl rfl
  | k + 1 =>
      by_cases hk : k ≤ n
      · exact .inr (.inl ⟨k, hk, rfl⟩)
      · exact .inr (.inr (by show k + 1 = n + 2; omega))

/-- The root reaches all sums. -/
theorem reaches_term
    (h : k ≤ n) :
    (multiples n).Reaches (multiples.root n) (multiples.term n k h) := by
  induction hd : n - k generalizing k with
  | zero =>
      obtain rfl : k = n := by omega
      exact .refl
  | succ d ih =>
      have hk : k + 1 ≤ n := by omega
      refine (ih hk (by omega)).tail ?_
      rw [operands, node_sum hk]
      exact List.mem_cons_self

theorem eq_x_of_reaches
    {v : (multiples n).Variable}
    (h : (multiples n).Reaches (multiples.root n) v.1) :
    v = multiples.x n := by
  have hle : v.1.val ≤ n + 1 := h.le
  rcases multiples_cases v.1 with hx | ⟨k, hk, hterm⟩ | hlast
  · exact Subtype.ext hx
  · have hvar := v.2
    rw [hterm, isVariable_term] at hvar
    cases hvar
  · omega

/-- The term reads `x` alone. -/
theorem covers_multiples
    {vs : List (multiples n).Variable}
    (hnodup : vs.Nodup)
    (hx : multiples.x n ∈ vs) :
    Covers vs (multiples.root n) :=
  ⟨hnodup, fun _ hv => eq_x_of_reaches (mem_vars.1 hv) ▸ hx⟩

theorem card_computedBelow_multiples (n : Nat) :
    ((multiples n).computedBelow (multiples.root n)).card = n + 1 := by
  have heq : (multiples n).computedBelow (multiples.root n) =
      Finset.univ.map ⟨fun k : Fin (n + 1) => multiples.term n k.1 (Nat.le_of_lt_succ k.2),
        fun _ _ h => Fin.ext (Nat.succ.inj (congrArg Fin.val h))⟩ := by
    ext t
    rw [mem_computedBelow, Finset.mem_map]
    constructor
    · rintro ⟨hreach, hvar⟩
      rcases multiples_cases t with rfl | ⟨k, hk, rfl⟩ | hlast
      · rw [isVariable, node_xTerm] at hvar
        cases hvar
      · exact ⟨⟨k, Nat.lt_succ_of_le hk⟩, Finset.mem_univ _, rfl⟩
      · have hle : t.val ≤ n + 1 := hreach.le
        omega
    · rintro ⟨k, -, rfl⟩
      exact ⟨reaches_term (Nat.le_of_lt_succ k.2), isVariable_term (Nat.le_of_lt_succ k.2)⟩
  rw [heq, Finset.card_map, Finset.card_univ, Fintype.card_fin]

theorem wrappers_multiples (n : Nat) : (multiples n).wrappers (multiples.root n) = 0 := by
  rw [wrappers, multiples.root, isVariable_term]
  rfl

end Terms
end Graph

namespace Tape

section Tapes

/-- What the tape has at a place: the variable, or a slot of two edges. -/
def multiplesSlot : Nat → Slot Nat Int
  | 0 => { op := .input, value := 0, adjoint := 0, inputs := Window.ofNat 0 0 }
  | k + 1 =>
      { op := if k = 0 then .product else .sum
        value := 0
        adjoint := 0
        inputs := Window.ofNat (2 * k) 2 }

/-- What edges name: the product reads the variable, and a sum reads the slot before it and the
product. -/
def multiplesSource (p : Nat) : Nat :=
  if p < 2 then 0 else if p % 2 = 0 then p / 2 else 1

/-- The tape of the terms up to a sum. -/
def multiplesTape (k : Nat) : Tape Nat Int where
  slots := Array.ofFn fun i : Fin (k + 2) => multiplesSlot i
  edges := Array.ofFn fun p : Fin (2 * k + 2) => { source := multiplesSource p, weight := 0 }
  dimension := 1

variable {n k : Nat}

theorem size_multiplesTape (k : Nat) : (multiplesTape k).size = k + 2 :=
  Array.size_ofFn

theorem slot_multiplesTape
    {i : Nat}
    (h : i < k + 2) :
    (multiplesTape k).slots[i]? = some (multiplesSlot i) := by
  simp [multiplesTape, h]

theorem edge_multiplesTape
    {p : Nat}
    (h : p < 2 * k + 2) :
    (multiplesTape k).edges[p]? = some { source := multiplesSource p, weight := 0 } := by
  simp [multiplesTape, h]

/-- The next sum over the slot before it and the product. -/
theorem withSlot_multiplesTape (k : Nat) :
    (multiplesTape k).withSlot .sum 0 [k + 1, 1] = multiplesTape (k + 1) := by
  have hsize : (multiplesTape k).edges.size = 2 * (k + 1) := Array.size_ofFn
  have hslots : ((multiplesTape k).withSlot .sum 0 [k + 1, 1]).slots =
      (multiplesTape (k + 1)).slots := by
    rw [slots_withSlot, hsize]
    exact (Array.ofFn_succ (n := k + 2) (f := fun i => multiplesSlot i)).symm
  have hedges : ((multiplesTape k).withSlot .sum 0 [k + 1, 1]).edges =
      (multiplesTape (k + 1)).edges := by
    have hfirst : multiplesSource (2 * k + 2) = k + 1 := by
      rw [multiplesSource, if_neg (by omega), if_pos (by omega)]
      omega
    have hsecond : multiplesSource (2 * k + 3) = 1 := by
      rw [multiplesSource, if_neg (by omega), if_neg (by omega)]
    let edge : Nat → Edge Int := fun p => { source := multiplesSource p, weight := 0 }
    calc
      ((multiplesTape k).withSlot .sum 0 [k + 1, 1]).edges =
          ((multiplesTape k).edges.push ⟨k + 1, 0⟩).push ⟨1, 0⟩ := rfl
      _ = ((multiplesTape k).edges.push (edge (2 * k + 2))).push (edge (2 * k + 3)) := by
        simp only [edge, hfirst, hsecond]
      _ = (Array.ofFn fun p : Fin (2 * k + 3) => edge p).push (edge (2 * k + 3)) :=
        congrArg (Array.push · _) (Array.ofFn_succ (n := 2 * k + 2) (f := fun p => edge p)).symm
      _ = (multiplesTape (k + 1)).edges :=
        (Array.ofFn_succ (n := 2 * k + 3) (f := fun p => edge p)).symm
  exact congr (congrArg (fun slots edges => ({ slots, edges, dimension := 1 } : Tape Nat Int))
    hslots) hedges

end Tapes
end Tape

namespace Graph

open Tape

section Run

variable {n k : Nat}

/-- A table in which the first terms have the slots of their own number, and the others none. -/
def Numbers (slots : (multiples n).Table (Option Nat)) (m : Nat) : Prop :=
  ∀ t, slots.get t = if t.val ≤ m then some t.val else none

theorem Numbers.isSome
    {slots : (multiples n).Table (Option Nat)} {m : Nat} {t : (multiples n).Term}
    (h : Numbers slots m)
    (ht : t.val ≤ m) :
    (slots.get t).isSome = true := by
  rw [h t, if_pos ht]
  rfl

theorem Numbers.isSome_eq_false
    {slots : (multiples n).Table (Option Nat)} {m : Nat} {t : (multiples n).Term}
    (h : Numbers slots m)
    (ht : m < t.val) :
    (slots.get t).isSome = false := by
  rw [h t, if_neg (by omega)]
  rfl

theorem Numbers.enterAt
    {slots : (multiples n).Table (Option Nat)} {m : Nat} {t : (multiples n).Term}
    (h : Numbers slots m)
    (ht : t.val = m + 1) :
    Numbers ((multiples n).enterAt slots t (some t.val)) (m + 1) := by
  intro u
  rw [get_enterAt]
  split
  · rename_i htu
    rw [← htu, if_pos (by omega)]
  · rename_i htu
    have hne : u.val ≠ t.val := fun h => htu (Fin.ext h.symm)
    rw [h u]
    split
    · rw [if_pos (by omega)]
    · rw [if_neg (by omega)]

theorem Numbers.operandSlots_eq_ok
    {slots : (multiples n).Table (Option Nat)} {m : Nat} {t u : (multiples n).Term}
    (h : Numbers slots m)
    (ht : t.val ≤ m)
    (hu : u.val ≤ m) :
    (multiples n).operandSlots slots [t, u] = .ok [t.val, u.val] := by
  simp only [operandSlots, List.mapM_cons, List.mapM_nil, h t, h u, if_pos ht, if_pos hu]
  rfl

/-- Entering the `k`-th sum first of all ends with its tape. -/
theorem lowerFrom_multiples
    (hfits : n + 2 ≤ indexLimit)
    (h : k ≤ n)
    {tape : Tape Nat Int} {slots : (multiples n).Table (Option Nat)}
    (hits : Nat) (rest : List (Task (multiples n).Term))
    (htape : tape.withSlot .product 0 [0, 0] = multiplesTape 0)
    (hsize : tape.size = 1)
    (hslots : Numbers slots 0) :
    ∃ slots' hits', Numbers slots' (k + 1) ∧
      (multiples n).lowerFrom ⟨tape, slots, hits, .enter (multiples.term n k h) :: rest⟩ =
        (multiples n).lowerFrom ⟨multiplesTape k, slots', hits', rest⟩ := by
  induction k generalizing rest with
  | zero =>
      have hx : (multiples.xTerm n).val ≤ 0 := Nat.le_refl 0
      have hnone := hslots.isSome_eq_false (t := multiples.term n 0 h) Nat.zero_lt_one
      have henter : (multiples n).lowerStep
          ⟨tape, slots, hits, .enter (multiples.term n 0 h) :: rest⟩ =
            .ok ⟨tape, slots, hits + 2, .leave (multiples.term n 0 h) :: rest⟩ := by
        have hsome := hslots.isSome hx
        rw [lowerStep, hnone, isVariable_term, operands, node_product]
        simp [Node.operands, hsome, ← Option.not_isSome]
      have hpush : tape.pushOp .product [0, 0] = .ok (1, multiplesTape 0) := by
        rw [Tape.pushOp_of_pushable rfl (by simp [hsize]),
          Tape.pushSlot_of_lt (by rw [hsize]; decide), htape, hsize]
      have hleave : (multiples n).lowerStep
          ⟨tape, slots, hits + 2, .leave (multiples.term n 0 h) :: rest⟩ =
            .ok ⟨multiplesTape 0, (multiples n).enterAt slots (multiples.term n 0 h) (some 1),
              hits + 2, rest⟩ := by
        have hoperands := hslots.operandSlots_eq_ok hx hx
        rw [lowerStep, hnone, emit, node_product]
        simp only [emitOp, hoperands]
        rw [show (multiples.xTerm n).val = 0 from rfl, hpush]
        rfl
      exact ⟨_, _, hslots.enterAt rfl, (lowerFrom_step (by simp) henter).trans
        (lowerFrom_step (by simp) hleave)⟩
  | succ k ih =>
      have hk : k ≤ n := Nat.le_of_succ_le h
      have hzero : 0 ≤ n := Nat.zero_le n
      have hnone := hslots.isSome_eq_false (t := multiples.term n (k + 1) h) (Nat.succ_pos _)
      have hlast := hslots.isSome_eq_false (t := multiples.term n k hk) (Nat.succ_pos _)
      have hproduct := hslots.isSome_eq_false (t := multiples.term n 0 hzero) Nat.zero_lt_one
      have henter : (multiples n).lowerStep
          ⟨tape, slots, hits, .enter (multiples.term n (k + 1) h) :: rest⟩ =
            .ok ⟨tape, slots, hits, .enter (multiples.term n k hk) ::
              .enter (multiples.term n 0 hzero) ::
                .leave (multiples.term n (k + 1) h) :: rest⟩ := by
        rw [lowerStep, hnone, isVariable_term, operands, node_sum]
        simp [Node.operands, hlast, hproduct, ← Option.not_isSome]
      obtain ⟨slots', hits', hslots', hrun⟩ := ih hk (.enter (multiples.term n 0 hzero) ::
        .leave (multiples.term n (k + 1) h) :: rest)
      have hagain : (multiples n).lowerStep ⟨multiplesTape k, slots', hits',
          .enter (multiples.term n 0 hzero) :: .leave (multiples.term n (k + 1) h) :: rest⟩ =
            .ok ⟨multiplesTape k, slots', hits' + 1,
              .leave (multiples.term n (k + 1) h) :: rest⟩ := by
        rw [lowerStep, hslots'.isSome (Nat.succ_le_succ (Nat.zero_le k))]
        rfl
      have hpush : (multiplesTape k).pushOp .sum [k + 1, 1] =
          .ok (k + 2, multiplesTape (k + 1)) := by
        rw [Tape.pushOp_of_pushable rfl (by simp [size_multiplesTape]),
          Tape.pushSlot_of_lt (by rw [size_multiplesTape]; omega), withSlot_multiplesTape,
          size_multiplesTape]
      have hleave : (multiples n).lowerStep ⟨multiplesTape k, slots', hits' + 1,
          .leave (multiples.term n (k + 1) h) :: rest⟩ =
            .ok ⟨multiplesTape (k + 1),
              (multiples n).enterAt slots' (multiples.term n (k + 1) h) (some (k + 2)),
              hits' + 1, rest⟩ := by
        have hlater := hslots'.isSome_eq_false (t := multiples.term n (k + 1) h)
          (Nat.lt_succ_self (k + 1))
        have hoperands := hslots'.operandSlots_eq_ok (t := multiples.term n k hk)
          (u := multiples.term n 0 hzero) (Nat.le_refl _) (Nat.succ_le_succ (Nat.zero_le k))
        rw [lowerStep, hlater, emit, node_sum]
        simp only [emitOp, hoperands]
        rw [show (multiples.term n k hk).val = k + 1 from rfl,
          show (multiples.term n 0 hzero).val = 1 from rfl, hpush]
        rfl
      exact ⟨_, _, hslots'.enterAt rfl, (lowerFrom_step (by simp) henter).trans
        (hrun.trans ((lowerFrom_step (by simp) hagain).trans (lowerFrom_step (by simp) hleave)))⟩

/-- The tape of the last sum, where there is an index for each slot. -/
theorem ofTerm_multiples
    (hfits : n + 2 ≤ indexLimit) :
    ∃ hits, Tape.ofTerm (multiples n) (multiples.root n) [multiples.x n] =
      .ok ⟨multiplesTape n, hits⟩ := by
  let bare : Tape Nat Int := { ({} : Tape Nat Int).withSlot .input 0 [] with dimension := 1 }
  have hbind : (multiples n).bindAll [multiples.x n] =
      .ok (bare,
        (multiples n).enterAt ((multiples n).table none) (multiples.xTerm n) (some 0)) := by
    rw [bindAll, bindFrom, get_table]
    rfl
  have hslots : Numbers
      ((multiples n).enterAt ((multiples n).table none) (multiples.xTerm n) (some 0)) 0 := by
    intro t
    rw [get_enterAt, get_table]
    have hzero : multiples.xTerm n = t ↔ t.val ≤ 0 := by
      rw [Fin.ext_iff, Nat.le_zero]
      exact eq_comm
    simp only [hzero]
    split
    · rw [show t.val = 0 by omega]
    · rfl
  have hbare : bare.withSlot .product 0 [0, 0] = multiplesTape 0 := rfl
  obtain ⟨slots, hits, hnumbers, hrun⟩ :=
    lowerFrom_multiples hfits (Nat.le_refl n) 0 [] hbare rfl hslots
  have hroot : slots.get (multiples.root n) = some (n + 1) :=
    (hnumbers _).trans (if_pos (Nat.le_refl _))
  refine ⟨hits, ?_⟩
  have hlower : (multiples n).lower (multiples.root n) [multiples.x n] =
      .ok ⟨multiplesTape n, slots, hits, []⟩ := by
    rw [lower, hbind]
    exact hrun.trans (lowerFrom_nil rfl)
  rw [Tape.ofTerm, hlower, ok_bind]
  simp only [hroot]
  exact if_neg (by simp)

/-- Where there is no index for some slot, the term has no tape. -/
theorem ofTerm_multiples_eq_tapeTooLong
    {vs : List (multiples n).Variable}
    (hnodup : vs.Nodup)
    (hx : multiples.x n ∈ vs)
    (hlong : indexLimit < vs.length + (n + 1)) :
    Tape.ofTerm (multiples n) (multiples.root n) vs = .error (.fault .tapeTooLong) := by
  apply ofTerm_eq_tapeTooLong (covers_multiples hnodup hx)
  rw [card_computedBelow_multiples, wrappers_multiples]
  exact hlong

end Run
end Graph

namespace Tape

open ReverseMode.Graph

theorem commutativeRing_int : Scalar.CommutativeRing Int where
  add_assoc := Int.add_assoc
  add_comm := Int.add_comm
  zero_add := Int.zero_add
  sub_add_cancel := Int.sub_add_cancel
  mul_assoc := Int.mul_assoc
  mul_comm := Int.mul_comm
  one_mul := Int.one_mul
  mul_add := Int.mul_add

section Windows

variable {n k w : Nat} {u : Tape Nat Int} {x : Int} {v : Nat → Int}

theorem reachable_multiplesTape
    (hfits : n + 2 ≤ indexLimit) :
    (multiplesTape n).Reachable := by
  obtain ⟨hits, h⟩ := ofTerm_multiples hfits
  exact .ofTerm h

theorem callbackCount_multiplesTape (n : Nat) : (multiplesTape n).callbackCount = 0 := by
  rw [callbackCount, Array.countP_eq_zero]
  intro s hs
  obtain ⟨i, hi⟩ := Array.mem_iff_getElem?.1 hs
  rw [slot_multiplesTape (size_multiplesTape n ▸ lt_size_of_slot hi)] at hi
  obtain rfl := Option.some.inj hi
  cases i with
  | zero => decide
  | succ k =>
      rw [multiplesSlot]
      split <;> simp [Op.isCallback]

theorem mem_computed_multiplesTape
    {i : Nat} :
    i ∈ (multiplesTape n).computed ↔ 1 ≤ i ∧ i < n + 2 := by
  have hdimension : (multiplesTape n).dimension = 1 := rfl
  rw [mem_computed, size_multiplesTape, hdimension]
  omega

/-- A window of two edges. -/
theorem edgeList_pair
    {κ α : Type} {t : Tape κ α} {i : Nat} {a b : Edge α} {r : Window}
    (hstart : r.start = i)
    (hstop : r.stop = i + 2)
    (ha : t.edges[i]? = some a)
    (hb : t.edges[i + 1]? = some b) :
    t.edgeList r = [a, b] := by
  apply List.ext_getElem?
  intro j
  rw [getElem?_edgeList, hstart, hstop]
  match j with
  | 0 => exact (if_pos (by omega)).trans ha
  | 1 => exact (if_pos (by omega)).trans hb
  | j + 2 => exact if_neg (by omega)

/-- Where `2 * (w + 1)` is cut to 0, the window of the slot `w + 2` shows the edges of the product,
and the next window, that of the last slot, those of the first sum. -/
theorem start_wrapped
    (hwrap : 2 * (w + 1) % UInt32.size = 0) :
    (multiplesSlot (w + 2)).inputs = Window.ofNat 0 2 ∧
      (multiplesSlot (w + 3)).inputs = Window.ofNat 2 2 := by
  have hmod : ∀ a b : Nat, a % UInt32.size = b → Window.ofNat a 2 = Window.ofNat b 2 := by
    rintro a _ rfl
    exact congrArg (Window.mk · _) UInt32.ofNat_mod_size.symm
  constructor
  · exact hmod _ _ hwrap
  · refine hmod _ _ ?_
    rw [show 2 * (w + 2) = 2 * (w + 1) + 2 by omega, Nat.add_mod, hwrap]
    rfl

/-- What the slots at both ends of the tape read. -/
theorem sourcesIn_multiplesTape
    (hwrap : 2 * (w + 1) % UInt32.size = 0) :
    (multiplesTape (w + 2)).sourcesIn (multiplesSlot 1).inputs = [0, 0] ∧
      (multiplesTape (w + 2)).sourcesIn (multiplesSlot (w + 3)).inputs = [1, 1] := by
  have hedge : ∀ p < 4, (multiplesTape (w + 2)).edges[p]? =
      some { source := multiplesSource p, weight := 0 } :=
    fun p hp => edge_multiplesTape (by omega)
  constructor
  · rw [sourcesIn, edgeList_pair (i := 0) rfl rfl (hedge 0 (by omega)) (hedge 1 (by omega))]
    rfl
  · rw [(start_wrapped hwrap).2, sourcesIn,
      edgeList_pair (i := 2) rfl rfl (hedge 2 (by omega)) (hedge 3 (by omega))]
    rfl

/-- The slots of the product and of the last sum compute the square and its double. -/
theorem Valuation.multiplesTape
    (hwrap : 2 * (w + 1) % UInt32.size = 0)
    (hv : (multiplesTape (w + 2)).Valuation [x] v) :
    v 0 = x ∧ v 1 = x * x ∧ v (w + 3) = 2 * (x * x) := by
  obtain ⟨hproduct, hlast⟩ := sourcesIn_multiplesTape hwrap
  have hx : v 0 = x := (Option.some.inj (hv.loaded 0 Nat.zero_lt_one)).symm
  have hsquare : v 1 = x * x := by
    rw [hv.computed (slot_multiplesTape (i := 1) (by omega)) (Nat.le_refl 1), hproduct, ← hx]
    rfl
  refine ⟨hx, hsquare, ?_⟩
  rw [hv.computed (slot_multiplesTape (i := w + 3) (by omega)) (by show 1 ≤ w + 3; omega), hlast,
    two_mul, ← hsquare]
  exact congrArg (· + v 1) (zero_add (v 1))

/-- The slots after the variable that show the first four edges last are sums. -/
theorem lastToShow_multiplesTape
    (hwrap : 2 * (w + 1) % UInt32.size = 0)
    {p : Nat}
    (hp : p < 4) :
    (multiplesTape (w + 2)).LastToShow (multiplesTape (w + 2)).computed
      (if p < 2 then w + 2 else w + 3) p := by
  obtain ⟨hfirst, hsecond⟩ := start_wrapped hwrap
  split
  · refine ⟨mem_computed_multiplesTape.2 (by omega), ⟨_, slot_multiplesTape (by omega), ?_⟩, ?_⟩
    · rw [hfirst]
      exact ⟨Nat.zero_le p, by assumption⟩
    · rintro j hj hwj ⟨s, hs, hstart, -⟩
      obtain rfl : j = w + 3 := by
        have := mem_computed_multiplesTape.1 hj
        omega
      rw [slot_multiplesTape (by omega)] at hs
      obtain rfl := Option.some.inj hs
      rw [hsecond] at hstart
      have : 2 ≤ p := hstart
      omega
  · refine ⟨mem_computed_multiplesTape.2 (by omega), ⟨_, slot_multiplesTape (by omega), ?_⟩, ?_⟩
    · rw [hsecond]
      exact ⟨by show 2 ≤ p; omega, hp⟩
    · intro j hj hwj
      have := mem_computed_multiplesTape.1 hj
      omega

/-- A slot after the product passes its adjoint on as it is. -/
theorem partialsAt_multiplesSlot
    (hk : 0 < k)
    {i : Nat} :
    (multiplesTape n).partialsAt v i (multiplesSlot (k + 1)) =
      ((multiplesTape n).sourcesIn (multiplesSlot (k + 1)).inputs).map fun _ => 1 := by
  have hop : (multiplesSlot (k + 1)).op = .sum := if_neg (Nat.ne_of_gt hk)
  rw [partialsAt, hop]
  exact List.map_map

/-- After a differentiating sweep, the first four edges hold the partials of sums, also those of the
product. -/
theorem edge_of_holds
    (hwrap : 2 * (w + 1) % UInt32.size = 0)
    (hfresh : u.fresh = (multiplesTape (w + 2)).fresh)
    (hholds : ∀ k p, (multiplesTape (w + 2)).LastToShow (multiplesTape (w + 2)).computed k p →
      (multiplesTape (w + 2)).HoldsPartial u k p)
    {p : Nat}
    (hp : p < 4) :
    u.edges[p]? = some { source := multiplesSource p, weight := 1 } := by
  obtain ⟨s, ⟨source, weight⟩, hs, he, hweight⟩ :=
    hholds _ p (lastToShow_multiplesTape hwrap hp)
  have hone : weight = 1 := by
    have hslot : ∃ k, 0 < k ∧ s = multiplesSlot (k + 1) := by
      split at hs
      · rw [slot_multiplesTape (by omega)] at hs
        exact ⟨w + 1, Nat.succ_pos w, (Option.some.inj hs).symm⟩
      · rw [slot_multiplesTape (by omega)] at hs
        exact ⟨w + 2, Nat.succ_pos _, (Option.some.inj hs).symm⟩
    obtain ⟨k, hk, rfl⟩ := hslot
    rw [partialsAt_multiplesSlot hk, List.getElem?_map, Option.map_eq_some_iff] at hweight
    obtain ⟨-, -, hone⟩ := hweight
    exact hone.symm
  have hsource : source = multiplesSource p := by
    have hsources := congrArg (·[p]?) (map_source_of_fresh_eq hfresh)
    simp only [Array.getElem?_map, he, edge_multiplesTape (k := w + 2) (p := p) (by omega)]
      at hsources
    exact Option.some.inj hsources
  rw [he, hone, hsource]

/-- Where the edges of the product have the weight `b` and those of the last sum the weight 1, the
adjoint of the variable is `4 * b`. -/
theorem adjoint_multiplesTape
    {ls : Nat → List (Nat × Int)} {a : Nat → Int} {b : Int}
    (ha : (multiplesTape (w + 2)).Adjoints ls a)
    (hls : ∀ j, ∀ l ∈ ls j, l.1 < j)
    (hproduct : ls 1 = [(0, b), (0, b)])
    (hlast : ls (w + 3) = [(1, 1), (1, 1)]) :
    a 0 = 4 * b := by
  have hleaf : ls 0 = [] :=
    List.eq_nil_iff_forall_not_mem.2 fun l hl => absurd (hls 0 l hl) (by omega)
  obtain ⟨τ, hτ⟩ := exists_tangents hls fun j => if j = 0 then 1 else 0
  have hsize := size_multiplesTape (w + 2)
  have hout := ha.eq_output commutativeRing_int (by rw [hsize]; exact Nat.succ_pos _) hls
    (fun j hj => (Nat.lt_one_iff.1 hj) ▸ hleaf) (k := 0) (by rw [hsize]; omega) fun j _ => hτ j
  have hx : τ 0 = 1 := by
    rw [hτ 0, hleaf]
    rfl
  have hsquare : τ 1 = 2 * b := by
    rw [hτ 1, hproduct]
    simp [hx]
    omega
  rw [hout, hsize, show w + 2 + 2 - 1 = w + 3 by omega, hτ (w + 3), hlast]
  simp [hsquare]
  omega

/-- The value of the tape is the double of the square, whatever the number of sums. -/
theorem evaluate_multiplesTape
    (hfits : w + 4 ≤ indexLimit)
    (hwrap : 2 * (w + 1) % UInt32.size = 0)
    (x : Int) :
    ((multiplesTape (w + 2)).evaluate [x]).1 = .ok (2 * (x * x)) := by
  have hreach := reachable_multiplesTape (n := w + 2) (by omega)
  obtain ⟨u, hu, -, hval⟩ := evaluate_spec hreach.sound
    (handlesRegistered_of_callbackCount (callbackCount_multiplesTape _))
    (by rw [size_multiplesTape]; omega) (rfl : [x].length = 1)
  obtain ⟨-, -, hlast⟩ := hval.multiplesTape hwrap
  rw [hu, size_multiplesTape]
  exact congrArg Except.ok hlast

/-- The gradient is 4 at every point, since the edges of the product hold weights of sums. -/
theorem differentiate_multiplesTape
    (hfits : w + 4 ≤ indexLimit)
    (hwrap : 2 * (w + 1) % UInt32.size = 0)
    (x : Int) :
    ((multiplesTape (w + 2)).differentiate [x] 1).1 = .ok (2 * (x * x), [4]) := by
  have hsound := (reachable_multiplesTape (n := w + 2) (by omega)).sound
  obtain ⟨u, hu, hfresh, hval, hholds, hadj⟩ := differentiate_holds hsound
    (handlesRegistered_of_callbackCount (callbackCount_multiplesTape _))
    (by rw [size_multiplesTape]; omega) (rfl : [x].length = 1)
  obtain ⟨-, -, hlast⟩ := hval.multiplesTape hwrap
  have hedge : ∀ p < 4, u.edges[p]? = some { source := multiplesSource p, weight := 1 } :=
    fun p hp => edge_of_holds hwrap hfresh hholds hp
  have hlinks : ∀ i < w + 4, ∀ p < 3, ∀ r : Window, (multiplesSlot i).inputs = r →
      r.start = p → r.stop = p + 2 →
        u.links i = [(multiplesSource p, 1), (multiplesSource (p + 1), 1)] := by
    intro i hi p hp r hinputs hstart hstop
    obtain ⟨s, hs, -, hin, -⟩ := slot_of_fresh_eq hfresh.symm (slot_multiplesTape hi)
    rw [links_of_slot hs, hin, hinputs,
      edgeList_pair hstart hstop (hedge p (by omega)) (hedge (p + 1) (by omega))]
    rfl
  have hzero : u.adjoint 0 = 4 * 1 :=
    adjoint_multiplesTape hadj (fun j l hl => lt_of_mem_links (hsound.of_fresh_eq hfresh.symm) hl)
      (hlinks 1 (by omega) 0 (by omega) _ rfl rfl rfl)
      (hlinks (w + 3) (by omega) 2 (by omega) _ (start_wrapped hwrap).2 rfl rfl)
  have hu : (multiplesTape (w + 2)).differentiate [x] 1 = _ := hu
  rw [hu, size_multiplesTape]
  show Except.ok (u.value (w + 3), [u.adjoint 0]) = _
  rw [hlast, hzero]
  rfl

end Windows
end Tape
end ReverseMode

import ReverseMode.Proofs.Lowering.Values
import ReverseMode.Proofs.Tape.Paths
import ReverseMode.Proofs.Term.Tangent

/-!
# Gradients of lowered terms

**Argument.**  The links of a slot lead to the slots of the operands, with the local partials of
the node as weights.  So the tangents of the terms flow along the links, and the adjoint of a
variable, which in a commutative ring is the tangent of the output along it, is the tangent of
the root.

**Results.**
* `Represents.slotTangent_eq`: tangents flow along the links of the tape of a term.
* `differentiate_ofTerm`: the gradient consists of the tangents of the term, and every adjoint is
  a sum over paths.
-/

namespace ReverseMode

variable {κ α : Type} [Exponent κ] [Scalar κ α]

/-- The operation of a slot that stands for a node has the partials of the node. -/
theorem Stands.partials_eq
    {t : Tape κ α} {ι : Type} {n : Node κ α ι} {op : Op κ} {stored : α}
    (h : Stands t.callbacks n op stored)
    (f : ι → α) (x : α) :
    t.partials op (n.operands.map f) ((n.mapOperands fun i _ => f i).value x) =
      (n.mapOperands fun i _ => f i).partials := by
  cases h with
  | unary a v hf =>
      simp only [Tape.partials, Tape.opWeights, Tape.unaryFn, hf]
      rfl
  | binary a b v hf =>
      simp only [Tape.partials, Tape.opWeights, Tape.binaryFn, hf]
      rfl
  | nary ts v hf =>
      simp only [Tape.partials, Tape.opWeights, Tape.naryFn, hf, Node.mapOperands, Node.operands,
        List.attach_map_val]
      rfl
  | sum ts v =>
      simp only [Node.mapOperands, Node.operands, List.attach_map_val]
      rfl
  | _ => rfl

omit [Exponent κ] in
/-- A sum over links is a sum over their weights and ends. -/
theorem map_zip_eq_zipWith
    (sources : List Nat) (weights : List α) (τ : Nat → α) :
    ((sources.zip weights).map fun l => l.2 * τ l.1) =
      List.zipWith (· * ·) weights (sources.map τ) := by
  induction sources generalizing weights with
  | nil => simp
  | cons j sources ih =>
      cases weights with
      | nil => rfl
      | cons w weights => rw [List.zip_cons_cons, List.map_cons, ih]; rfl

namespace Graph

variable {g : Graph κ α} {root : g.Term} {vs : List g.Variable} {tape : Tape κ α}
  {done : List g.Term} {point : List α} {v : Nat → α}

/-- The tangents of the slots of a tape that represents a term: those of the terms that they
stand for, and that of the root for a wrapper. -/
def slotTangent (g : Graph κ α) (x : g.Term → α) (y : g.Variable) (root : g.Term)
    (terms : List g.Term) (i : Nat) : α :=
  (terms[i]?.map (g.tangent x y)).getD (g.tangent x y root)

theorem slotTangent_eq_slotwise
    (x : g.Term → α) (y : g.Variable) (root : g.Term) (terms : List g.Term) :
    g.slotTangent x y root terms = slotwise (g.tangent x y) root terms := by
  rfl

theorem slotTangent_of_term
    {x : g.Term → α} {y : g.Variable} {terms : List g.Term} {i : Nat} {t : g.Term}
    (hi : terms[i]? = some t) :
    g.slotTangent x y root terms i = g.tangent x y t := by
  rw [slotTangent_eq_slotwise, slotwise_of_term hi]

theorem slotTangent_of_le
    {x : g.Term → α} {y : g.Variable} {terms : List g.Term} {i : Nat}
    (hi : terms.length ≤ i) :
    g.slotTangent x y root terms i = g.tangent x y root := by
  rw [slotTangent_eq_slotwise, slotwise_of_le hi]

theorem Represents.slotTangent_output
    (h : Represents root vs tape done)
    (x : g.Term → α) (y : g.Variable) :
    g.slotTangent x y root (slotTerms vs done) (tape.size - 1) = g.tangent x y root := by
  rw [slotTangent_eq_slotwise, h.slotwise_output]

/-- The slots that a computed slot reads have the values of its operands, and its partials are
those of the term. -/
theorem Represents.linksAt_eq
    (h : Represents root vs tape done)
    (hnodup : vs.Nodup)
    (hv : tape.Valuation point v)
    {k : Nat} {t : g.Term}
    (hk : done[k]? = some t) :
    ∃ sources : List Nat,
      sources.map (fun j => (slotTerms vs done)[j]?) = (g.operands t).map some ∧
      tape.linksAt v (vs.length + k) = sources.zip (g.partialsAt (g.assign vs point) t) := by
  obtain ⟨s, hs, hstands, hoperands⟩ := h.layout.stands k t hk
  refine ⟨_, hoperands, ?_⟩
  have hargs : (tape.sourcesIn s.inputs).map v =
      (g.operands t).map (g.value (g.assign vs point)) := by
    apply map_eq_of_getElem? hoperands
    intro j _ u hu
    exact h.value_eq hnodup hv hu
  rw [Tape.linksAt_of_slot hs, Tape.partialsAt, hargs, h.value_eq hnodup hv (slotTerms_add hk),
    Graph.value_eq]
  congr 1
  exact hstands.partials_eq (g.value (g.assign vs point)) _

/-- Tangents along a variable flow along the links of the tape, from its slot to the output. -/
theorem Represents.slotTangent_eq
    (hr : Scalar.CommutativeRing α)
    (h : Represents root vs tape done)
    (hnodup : vs.Nodup)
    (hv : tape.Valuation point v)
    {k : Nat} {y : g.Variable}
    (hk : vs[k]? = some y)
    {i : Nat}
    (hi : i < tape.size) :
    g.slotTangent (g.assign vs point) y root (slotTerms vs done) i =
      (if i = k then 1 else 0) + ((tape.linksAt v i).map fun l =>
        l.2 * g.slotTangent (g.assign vs point) y root (slotTerms vs done) l.1).sum := by
  have hklt := (List.getElem?_eq_some_iff.1 hk).1
  rcases h.slot_cases hi with ⟨t, ht⟩ | ⟨hlast, hsize⟩
  · rw [slotTangent_of_term ht, tangent_eq]
    rcases slotTerms_cases ht with ⟨z, hz, rfl⟩ | ⟨j, rfl, hj⟩
    · have hlt : i < tape.dimension := by
        rw [h.layout.dimension]
        exact (List.getElem?_eq_some_iff.1 hz).1
      rw [if_pos z.2, Tape.linksAt_eq_nil h.sound hlt]
      have hsame : z.1 = y.1 ↔ i = k := by
        constructor
        · intro hzy
          rw [← position_of_getElem? hnodup hz, ← position_of_getElem? hnodup hk, hzy]
        · rintro rfl
          rw [Option.some.inj (hz.symm.trans hk)]
      simp only [hsame]
      exact (hr.add_zero _).symm
    · obtain ⟨sources, hsources, hlinks⟩ := h.linksAt_eq hnodup hv hj
      obtain ⟨s, -, hstands, -⟩ := h.layout.stands j t hj
      have hvar : g.isVariable t = false := hstands.isVariable_eq_false
      have hargs : sources.map (g.slotTangent (g.assign vs point) y root (slotTerms vs done)) =
          (g.operands t).map (g.tangent (g.assign vs point) y) := by
        apply map_eq_of_getElem? hsources
        intro l _ u hu
        exact slotTangent_of_term hu
      rw [hlinks, map_zip_eq_zipWith, hargs, if_neg (by simp [hvar]), if_neg (by omega),
        hr.zero_add]
  · rcases h.output with ⟨hsize', -⟩ | @⟨j, s, -, hs, hop, hsource, hroot⟩
    · omega
    · -- The power 1 has the partial 1 in its base.
      have hpartials : ∀ b r : α, tape.partials s.op [b] r = [1] := by
        intro b r
        rw [hop]
        exact congrArg (fun w => [w]) (if_pos Exponent.isOne_one)
      have hlinks : tape.linksAt v i = [(j, 1)] := by
        rw [hlast, Tape.linksAt_of_slot hs, Tape.partialsAt, hsource, List.map_singleton,
          hpartials]
        rfl
      have hlength := length_slotTerms vs done
      rw [hlinks, List.map_singleton, List.sum_cons, List.sum_nil, slotTangent_of_term hroot,
        slotTangent_of_le (by omega), if_neg (by omega), hr.zero_add, hr.one_mul, hr.add_zero]

/-- The adjoint of a variable is the tangent of the root along it. -/
theorem Represents.adjoint_eq_tangent
    (hr : Scalar.CommutativeRing α)
    (h : Represents root vs tape done)
    (hnodup : vs.Nodup)
    (hv : tape.Valuation point v)
    {a : Nat → α}
    (ha : tape.Adjoints (tape.linksAt v) a)
    {k : Nat} {y : g.Variable}
    (hk : vs[k]? = some y) :
    a k = g.tangent (g.assign vs point) y root := by
  have hle := h.sound.dimension_le
  have hdim := h.layout.dimension
  have hklt := (List.getElem?_eq_some_iff.1 hk).1
  rw [← h.slotTangent_output (g.assign vs point) y]
  refine ha.eq_output hr hle ?_ ?_ (by omega) fun i hi => h.slotTangent_eq hr hnodup hv hk hi
  · intro j l hl
    exact Tape.lt_of_mem_linksAt h.sound hl
  · intro j hj
    exact Tape.linksAt_eq_nil h.sound hj

/-- The tangents of the terms of `multiples`. -/
theorem tangent_multiples
    {n k : Nat}
    (h : k ≤ n)
    (x : (multiples n).Term → Int) :
    (multiples n).tangent x (multiples.x n) (multiples.term n k h) =
      (k + 1) * (2 * x (multiples.xTerm n)) := by
  have hzero : 0 ≤ n := Nat.zero_le n
  have hvar : (multiples n).isVariable (multiples.xTerm n) = true := (multiples.x n).2
  have hone : (multiples n).tangent x (multiples.x n) (multiples.xTerm n) = 1 := by
    rw [tangent_eq, if_pos hvar]
    exact if_pos rfl
  have hproduct : (multiples n).tangent x (multiples.x n) (multiples.term n 0 hzero) =
      2 * x (multiples.xTerm n) := by
    rw [tangent_eq, isVariable_term, if_neg Bool.false_ne_true, Graph.partialsAt, operands,
      node_product]
    show (List.sum [(multiples n).value x (multiples.xTerm n) *
      (multiples n).tangent x (multiples.x n) (multiples.xTerm n),
        (multiples n).value x (multiples.xTerm n) *
          (multiples n).tangent x (multiples.x n) (multiples.xTerm n)]) = _
    rw [value_xTerm, hone]
    simp
    ring
  induction k with
  | zero =>
      rw [hproduct]
      simp
  | succ k ih =>
      have hk : k ≤ n := Nat.le_of_succ_le h
      rw [tangent_eq, isVariable_term, if_neg Bool.false_ne_true, Graph.partialsAt, operands,
        node_sum]
      show (List.sum [1 * (multiples n).tangent x (multiples.x n) (multiples.term n k hk),
        1 * (multiples n).tangent x (multiples.x n) (multiples.term n 0 hzero)]) = _
      rw [ih hk, hproduct]
      simp
      ring

end Graph

namespace Tape

open ReverseMode.Graph

/-- In a commutative ring, differentiating the tape of a term gives the tangents of the term
along the variables, and every slot the sum over all paths from the output to it of the products
of their weights. -/
theorem differentiate_ofTerm
    (hr : Scalar.CommutativeRing α)
    {g : Graph κ α} {root : g.Term} {vs : List g.Variable}
    (hl : g.Lowerable root vs) :
    ∃ l, ofTerm g root vs = .ok l ∧ ∀ point : List α, point.length = vs.length →
      ∃ u, l.tape.differentiate point vs.length =
          (.ok (g.value (g.assign vs point) root,
            vs.map fun y => g.tangent (g.assign vs point) y root), u) ∧
        ∀ i < u.size, ∃ ps : List (List Nat), ps.Nodup ∧
          (∀ p, p ∈ ps ↔ follow u.links (u.size - 1) p = some i) ∧
          u.adjoint i = (ps.map (pathWeight u.links (u.size - 1))).sum := by
  obtain ⟨l, done, hofTerm, h⟩ := ofTerm_spec hl
  refine ⟨l, hofTerm, ?_⟩
  intro point hp
  have hdim := h.layout.dimension
  have hle := h.sound.dimension_le
  obtain ⟨u, hu, hfresh, hval, hadj, hlinks⟩ := differentiate_spec h.sound h.handlesRegistered
    h.tiled h.size_pos (hp.trans hdim.symm)
  refine ⟨u, ?_, ?_⟩
  · rw [hdim] at hu
    rw [hu, h.value_output hl.nodup hval]
    have hgradient : (List.range vs.length).map u.adjoint =
        vs.map fun y => g.tangent (g.assign vs point) y root := by
      apply List.ext_getElem
      · simp
      · intro k hk _
        have hklt : k < vs.length := by simpa using hk
        rw [List.getElem_map, List.getElem_map, List.getElem_range]
        exact h.adjoint_eq_tangent hr hl.nodup hval hadj (List.getElem?_eq_getElem hklt)
    rw [hgradient]
  · have husound := h.sound.of_fresh_eq hfresh.symm
    have hudim := dimension_of_fresh_eq hfresh
    have husize := size_of_fresh_eq hfresh
    rw [husize]
    intro i hi
    refine (hadj.of_links_eq fun j hj => (hlinks j hj).symm).eq_sum_paths hr hle ?_ ?_ hi
    · intro j l hl
      exact lt_of_mem_links husound hl
    · intro j hj
      exact links_eq_nil husound (by omega)

/-- `x * x + x * x` at 3, whose shared product passes its adjoint 2 back along two links. -/
theorem differentiate_ofTerm_doubled :
    Scalar.CommutativeRing Int ∧ doubled.Lowerable doubled.root [doubled.x] ∧
      ∃ l u, ofTerm doubled doubled.root [doubled.x] = .ok l ∧
        l.tape.differentiate [3] 1 = (.ok (18, [12]), u) ∧
        ∃ ps : List (List Nat), ps.Nodup ∧
          (∀ p, p ∈ ps ↔ follow u.links (u.size - 1) p = some 0) ∧
          u.adjoint 0 = (ps.map (pathWeight u.links (u.size - 1))).sum := by
  refine ⟨commutativeRing_int, lowerable_doubled, ?_⟩
  obtain ⟨l, hofTerm, hl⟩ := differentiate_ofTerm commutativeRing_int lowerable_doubled
  obtain ⟨u, hu, hpaths⟩ := hl [3] rfl
  have heighteen : doubled.value (doubled.assign [doubled.x] [3]) doubled.root = 18 := by cbv
  have htwelve : doubled.tangent (doubled.assign [doubled.x] [3]) doubled.x doubled.root = 12 := by
    cbv
  have hsize : ((ofTerm doubled doubled.root [doubled.x]).toOption.map fun l =>
      (l.tape.differentiate [3] 1).2.size) = some 3 := by cbv
  simp only [heighteen, htwelve, List.map_cons, List.map_nil, List.length_singleton] at hu
  rw [hofTerm] at hsize
  have husize : (l.tape.differentiate [3] 1).2.size = 3 := Option.some.inj hsize
  rw [hu] at husize
  exact ⟨l, u, hofTerm, hu, hpaths 0 (by rw [husize]; omega)⟩

/-- Nor need it give the gradient: that of 2 ^ 31 + 2 times `x * x` has the gradient 4
everywhere. -/
theorem differentiate_ofTerm_multiples :
    Scalar.CommutativeRing Int ∧
      Covers [multiples.x 2147483649] (multiples.root 2147483649) ∧
      ∃ l, ofTerm (multiples 2147483649) (multiples.root 2147483649)
          [multiples.x 2147483649] = .ok l ∧
        (l.tape.differentiate [3] 1).1 = .ok (18, [4]) ∧
        (multiples 2147483649).tangent ((multiples 2147483649).assign [multiples.x 2147483649] [3])
          (multiples.x 2147483649) (multiples.root 2147483649) = 12884901900 := by
  refine ⟨commutativeRing_int,
    covers_multiples (List.nodup_singleton _) (List.mem_singleton.2 rfl), ?_⟩
  obtain ⟨hits, hofTerm⟩ := ofTerm_multiples (n := 2147483647 + 2) (by decide)
  refine ⟨_, hofTerm, differentiate_multiplesTape (by decide) (by decide) 3, ?_⟩
  rw [multiples.root, tangent_multiples, assign_multiples]
  rfl

end Tape
end ReverseMode

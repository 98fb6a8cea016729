import ReverseMode.Proofs.Integer
import ReverseMode.Proofs.Lowering.Overlap
import ReverseMode.Proofs.Tape.Adjoints
import ReverseMode.Proofs.Term.Expression

/-!
# Values of lowered terms

**Argument.**  The values of the tape of a term solve one equation per slot.  The recursive
values of the terms that the slots stand for solve the same equations, slot by slot in order.

**Results.**
* `slotwise`: a function of terms as a function of slots.
* `Represents.value_eq`: every slot has the value of its term.
* `evaluate_ofTerm`: the tape of a term gives the value of the term.  Since this value hangs on
  the expression alone, terms that share differently agree.
-/

namespace ReverseMode

variable {κ α : Type} [Exponent κ]

section Operations

variable [Scalar κ α]

/-- The operation of a slot that stands for a node computes what the node does. -/
theorem Stands.result_eq
    {t : Tape κ α} {ι : Type} {n : Node κ α ι} {op : Op κ} {stored : α}
    (h : Stands t.callbacks n op stored)
    (f : ι → α) (x : α) :
    t.result op stored (n.operands.map f) = (n.mapOperands fun i _ => f i).value x := by
  cases h with
  | unary a v hf =>
      simp only [Tape.result, Tape.opValue, Tape.unaryFn, hf]
      rfl
  | binary a b v hf =>
      simp only [Tape.result, Tape.opValue, Tape.binaryFn, hf]
      rfl
  | nary ts v hf =>
      simp only [Tape.result, Tape.opValue, Tape.naryFn, hf, Node.mapOperands, Node.operands,
        List.attach_map_val]
      rfl
  | sum ts v =>
      simp only [Node.mapOperands, Node.operands, List.attach_map_val]
      rfl
  | _ => rfl

/-- A slot that computes has the value that its storage gives, fresh or not. -/
theorem Stands.result_fresh
    {t : Tape κ α} {c : Callbacks α} {ι : Type} {n : Node κ α ι} {s : Slot κ α}
    (h : Stands c n s.op s.value)
    (args : List α) :
    t.result s.op s.fresh.value args = t.result s.op s.value args := by
  apply Tape.result_stored _ _ h.isInput_eq_false
  intro hc
  simp [Slot.fresh, hc]

end Operations

namespace Graph

variable {g : Graph κ α} {root : g.Term} {vs : List g.Variable} {tape : Tape κ α}
  {done : List g.Term} {point : List α} {v : Nat → α}

/-- What holds of the slots of some terms holds of the terms, entry by entry. -/
theorem map_eq_of_getElem?
    {β : Type} {terms us : List g.Term} {sources : List Nat} {w : Nat → β} {f : g.Term → β}
    (hsources : sources.map (fun j => terms[j]?) = us.map some)
    (h : ∀ j ∈ sources, ∀ u, terms[j]? = some u → w j = f u) :
    sources.map w = us.map f := by
  induction sources generalizing us with
  | nil =>
      obtain rfl : us = [] := by simpa using hsources.symm
      rfl
  | cons j sources ih =>
      cases us with
      | nil => cases hsources
      | cons u us =>
          rw [List.map_cons, List.map_cons, List.cons.injEq] at hsources
          rw [List.map_cons, List.map_cons, h j (by simp) u hsources.1]
          rw [ih hsources.2 fun k hk => h k (List.mem_cons_of_mem j hk)]

/-- A function of terms as one of the slots that stand for them; a wrapper gets what the root
has. -/
def slotwise (f : g.Term → α) (root : g.Term) (terms : List g.Term) (i : Nat) : α :=
  (terms[i]?.map f).getD (f root)

theorem slotwise_of_term
    {f : g.Term → α} {terms : List g.Term} {i : Nat} {t : g.Term}
    (hi : terms[i]? = some t) :
    slotwise f root terms i = f t := by
  rw [slotwise, hi]
  rfl

theorem slotwise_of_le
    {f : g.Term → α} {terms : List g.Term} {i : Nat}
    (hi : terms.length ≤ i) :
    slotwise f root terms i = f root := by
  rw [slotwise, List.getElem?_eq_none hi]
  rfl

variable [Scalar κ α]

theorem Represents.slotwise_output
    (h : Represents root vs tape done)
    (f : g.Term → α) :
    slotwise f root (slotTerms vs done) (tape.size - 1) = f root := by
  rcases h.output with ⟨-, hroot⟩ | ⟨hsize, -, -, -, -⟩
  · exact slotwise_of_term hroot
  · exact slotwise_of_le (by omega)

omit [Scalar κ α] in
theorem position_eq_idxOf (vs : List g.Variable) (y : g.Variable) :
    g.position vs y.1 = vs.idxOf y := by
  induction vs with
  | nil => rfl
  | cons z vs ih =>
      rw [position, List.map_cons, List.idxOf_cons, List.idxOf_cons, ← ih, position]
      simp

omit [Scalar κ α] in
/-- The position of a variable in a list without repetitions. -/
theorem position_of_getElem?
    (hnodup : vs.Nodup)
    {i : Nat} {x : g.Variable}
    (hx : vs[i]? = some x) :
    g.position vs x.1 = i := by
  obtain ⟨hi, rfl⟩ := List.getElem?_eq_some_iff.1 hx
  rw [position_eq_idxOf]
  exact hnodup.idxOf_getElem i hi

theorem value_eq (x : g.Term → α) (t : g.Term) :
    g.value x t = ((g.node t).mapOperands fun u _ => g.value x u).value (x t) := by
  exact g.fold_eq _ t

/-- Every slot has the value of the term that it stands for. -/
theorem Represents.value_eq
    (h : Represents root vs tape done)
    (hnodup : vs.Nodup)
    (hv : tape.Valuation point v)
    {i : Nat} {t : g.Term}
    (hi : (slotTerms vs done)[i]? = some t) :
    v i = g.value (g.assign vs point) t := by
  induction i using Nat.strongRecOn generalizing t with
  | ind i ih =>
      rw [Graph.value_eq]
      rcases slotTerms_cases hi with ⟨x, hx, rfl⟩ | ⟨k, rfl, hk⟩
      · have hlt : i < tape.dimension := by
          rw [h.layout.dimension]
          exact (List.getElem?_eq_some_iff.1 hx).1
        have hvar : ((g.node x.1).mapOperands fun u _ =>
            g.value (g.assign vs point) u).isVariable = true :=
          (Node.isVariable_mapOperands _ _).trans x.2
        rw [Node.value_of_isVariable hvar, assign, position_of_getElem? hnodup hx,
          hv.loaded i hlt]
        rfl
      · obtain ⟨s, hs, hstands, hoperands⟩ := h.layout.stands k t hk
        have hargs : (tape.sourcesIn s.inputs).map v =
            (g.operands t).map (g.value (g.assign vs point)) := by
          apply map_eq_of_getElem? hoperands
          intro j hj u hu
          exact ih j ((h.sound.slot hs).earlier j hj) hu
        rw [hv.computed hs (by rw [h.layout.dimension]; omega), hstands.result_fresh, hargs]
        exact hstands.result_eq (g.value (g.assign vs point)) _

/-- The last slot has the value of the root. -/
theorem Represents.value_output
    (h : Represents root vs tape done)
    (hnodup : vs.Nodup)
    (hv : tape.Valuation point v) :
    v (tape.size - 1) = g.value (g.assign vs point) root := by
  rcases h.output with ⟨-, hroot⟩ | ⟨hsize, hs, hop, hsource, hroot⟩
  · exact h.value_eq hnodup hv hroot
  · have hle : tape.dimension ≤ tape.size - 1 := by
      rw [h.layout.dimension, hsize, length_slotTerms]
      omega
    rw [hv.computed hs hle, hop, hsource, ← h.value_eq hnodup hv hroot]
    exact if_pos Exponent.isOne_one

theorem lowerable_doubled : doubled.Lowerable doubled.root [doubled.x] := by
  apply lowerable_of_graph_fits
  · simp
  · rintro ⟨t, ht⟩
    have hvars : ∀ t : doubled.Term, doubled.isVariable t = true → t = doubled.x.1 := by decide
    simp [hvars t ht]
  · decide
  · decide

theorem lowerable_doubledApart :
    doubledApart.Lowerable doubledApart.root [doubledApart.x] := by
  apply lowerable_of_graph_fits
  · simp
  · rintro ⟨t, ht⟩
    have hvars : ∀ t : doubledApart.Term, doubledApart.isVariable t = true →
        t = doubledApart.x.1 := by decide
    simp [hvars t ht]
  · decide
  · decide

theorem value_xTerm
    {n : Nat}
    (x : (multiples n).Term → Int) :
    (multiples n).value x (multiples.xTerm n) = x (multiples.xTerm n) := by
  rw [Graph.value_eq, node_xTerm]
  rfl

/-- The terms of `multiples` are multiples of the square of their variable. -/
theorem value_multiples
    {n k : Nat}
    (h : k ≤ n)
    (x : (multiples n).Term → Int) :
    (multiples n).value x (multiples.term n k h) =
      (k + 1) * (x (multiples.xTerm n) * x (multiples.xTerm n)) := by
  have hproduct : (multiples n).value x (multiples.term n 0 (Nat.zero_le n)) =
      x (multiples.xTerm n) * x (multiples.xTerm n) := by
    rw [Graph.value_eq, node_product, ← value_xTerm x]
    rfl
  induction k with
  | zero =>
      rw [hproduct]
      simp
  | succ k ih =>
      rw [Graph.value_eq, node_sum]
      have hk : k ≤ n := Nat.le_of_succ_le h
      show 0 + (multiples n).value x (multiples.term n k hk) +
        (multiples n).value x (multiples.term n 0 (Nat.zero_le n)) = _
      rw [ih hk, hproduct]
      push_cast
      ring

theorem assign_multiples (n : Nat) (x : Int) :
    (multiples n).assign [multiples.x n] [x] (multiples.xTerm n) = x := by
  have hposition : (multiples n).position [multiples.x n] (multiples.xTerm n) = 0 :=
    position_of_getElem? (x := multiples.x n) (List.nodup_singleton _) rfl
  rw [assign, hposition]
  rfl

end Graph

namespace Tape

open ReverseMode.Graph

variable [Scalar κ α]

/-- The tape of a term that fits gives the value of the term. -/
theorem exists_evaluate_eq_value
    {g : Graph κ α} {root : g.Term} {vs : List g.Variable}
    (hl : g.Lowerable root vs) :
    ∃ l, ofTerm g root vs = .ok l ∧ ∀ point : List α, point.length = vs.length →
      (l.tape.evaluate point).1 = .ok (g.value (g.assign vs point) root) := by
  obtain ⟨l, done, hofTerm, h⟩ := ofTerm_spec hl
  refine ⟨l, hofTerm, ?_⟩
  intro point hp
  obtain ⟨u, hu, -, hval⟩ := evaluate_spec h.sound h.handlesRegistered h.size_pos
    (hp.trans h.layout.dimension.symm)
  rw [hu, h.value_output hl.nodup hval]

/-- Lowering a term and evaluating its tape gives the value of the term, by the operations of
the term in the order of the term.  Whatever term unfolds to the same expression gives the same
value. -/
theorem evaluate_ofTerm
    {g : Graph κ α} {root : g.Term} {vs : List g.Variable}
    (hl : g.Lowerable root vs) :
    ∃ l, ofTerm g root vs = .ok l ∧ ∀ point : List α, point.length = vs.length →
      (l.tape.evaluate point).1 = .ok (g.value (g.assign vs point) root) ∧
      ∀ {g' : Graph κ α} {root' : g'.Term} {vs' : List g'.Variable} {l' : Lowered κ α},
        g'.Lowerable root' vs' → vs'.length = vs.length →
        g'.unfold vs' root' = g.unfold vs root → ofTerm g' root' vs' = .ok l' →
          (l'.tape.evaluate point).1 = (l.tape.evaluate point).1 := by
  obtain ⟨l, hofTerm, hvalue⟩ := exists_evaluate_eq_value hl
  refine ⟨l, hofTerm, fun point hp => ⟨hvalue point hp, ?_⟩⟩
  intro g' root' vs' l' hl' hlen hunfold hofTerm'
  obtain ⟨r, hr, hvalue'⟩ := exists_evaluate_eq_value hl'
  obtain rfl : r = l' := Except.ok.inj (hr.symm.trans hofTerm')
  rw [hvalue point hp, hvalue' point (hp.trans hlen.symm), ← value_unfold, ← value_unfold,
    hunfold]

/-- `x * x + x * x` at 3, with and without the shared product. -/
theorem evaluate_ofTerm_doubled :
    doubled.Lowerable doubled.root [doubled.x] ∧
      doubledApart.Lowerable doubledApart.root [doubledApart.x] ∧
      ∃ l l', ofTerm doubled doubled.root [doubled.x] = .ok l ∧
        ofTerm doubledApart doubledApart.root [doubledApart.x] = .ok l' ∧
        (l.tape.evaluate [3]).1 = .ok 18 ∧
        (l'.tape.evaluate [3]).1 = (l.tape.evaluate [3]).1 := by
  obtain ⟨l, hofTerm, hl⟩ := evaluate_ofTerm lowerable_doubled
  obtain ⟨l', hofTerm', -⟩ := evaluate_ofTerm lowerable_doubledApart
  obtain ⟨hvalue, hsame⟩ := hl [3] rfl
  have hunfold : doubledApart.unfold [doubledApart.x] doubledApart.root =
      doubled.unfold [doubled.x] doubled.root := by cbv
  have heighteen : doubled.value (doubled.assign [doubled.x] [3]) doubled.root = 18 := by cbv
  rw [heighteen] at hvalue
  exact ⟨lowerable_doubled, lowerable_doubledApart, l, l', hofTerm, hofTerm', hvalue,
    hsame lowerable_doubledApart rfl hunfold hofTerm'⟩

/-- The tape of a term with 2 ^ 32 edges or more need not give its value: that of 2 ^ 31 + 2 times
`x * x` gives `2 * (x * x)`. -/
theorem evaluate_ofTerm_multiples :
    Covers [multiples.x 2147483649] (multiples.root 2147483649) ∧
      ∃ l, ofTerm (multiples 2147483649) (multiples.root 2147483649)
          [multiples.x 2147483649] = .ok l ∧
        (l.tape.evaluate [3]).1 = .ok 18 ∧
        (multiples 2147483649).value ((multiples 2147483649).assign [multiples.x 2147483649] [3])
          (multiples.root 2147483649) = 19327352850 := by
  refine ⟨covers_multiples (List.nodup_singleton _) (List.mem_singleton.2 rfl), ?_⟩
  obtain ⟨hits, hofTerm⟩ := ofTerm_multiples (n := 2147483647 + 2) (by decide)
  refine ⟨_, hofTerm, evaluate_multiplesTape (by decide) (by decide) 3, ?_⟩
  rw [multiples.root, value_multiples, assign_multiples]
  rfl

end Tape
end ReverseMode

import ReverseMode.Proofs.Compiled.Agreement
import ReverseMode.Proofs.Compiled.Safety
import ReverseMode.Proofs.Lowering.Renumber
import ReverseMode.Proofs.Program.Reorder

/-!
# Results hang on the term alone

A term can be compiled against many lists of variables: in any order, with variables that the term
does not read.  Each list numbers the slots of the tape in its own way.

**Input.**  A term, lists that have its variables, and points that give these the same values.

**Argument.**  The tape of a term over its own variables, in the order in which a walk meets them,
is renumbered into its tape over any list that has them (`renumbered_ofTerm`).  The engines run
renumbered tapes alike, also those that have outgrown 32 bits, and a variable that no slot reads
gets the adjoint 0.  So whatever the list, an engine returns what it returns over the variables of
the term alone.  No law of arithmetic is used.

**Results.**
* `Of.results_of_renumbered`: what runs two renumbered tapes on one engine returns the same.
* `results_over_vars`: what is compiled over any list returns the results of the term.
* `results_of_values`, `results_of_perm`: so two lists give one value and the same partials.
* `results_forget_list`: with any two lists over which the term is compiled, whatever their points
  give the other variables.
-/

namespace ReverseMode

variable {κ α : Type}

namespace Graph

variable [Exponent κ] {g : Graph κ α} {root : g.Term} {vs : List g.Variable}

/-- The variables of a term are a list that has them. -/
theorem covers_vars (root : g.Term) : Covers (g.vars root) root :=
  ⟨nodup_vars root, fun _ hx => hx⟩

variable [Scalar κ α]

/-- A term that has a tape over some list has one over its own variables. -/
theorem exists_ofTerm_vars
    {l : Lowered κ α}
    (hcovers : Covers vs root)
    (hl : Tape.ofTerm g root vs = .ok l) :
    ∃ l', Tape.ofTerm g root (g.vars root) = .ok l' := by
  have hsize := size_of_ofTerm hl
  have hlimit := Tape.size_le_of_built (Tape.built_ofTerm hl)
  have hle : (g.vars root).length ≤ vs.length :=
    ((nodup_vars root).subperm hcovers.2).length_le
  exact exists_ofTerm (covers_vars root) (by omega)

end Graph

namespace CompiledTerm

open ReverseMode.Graph

section Results

variable [Exponent κ] [Scalar κ α] {n m : Nat} {σ : Renumbering n m} {t u : Tape κ α}
  {c c' : CompiledTerm κ α} {point point' : List α}

/-- At points that are renumbered alike, whatever runs the plans of renumbered tapes on one engine
returns one value, and gradients that are renumbered alike. -/
theorem Of.results_of_renumbered
    (ht : t.Accepted)
    (hu : u.Sound)
    (h : Tape.Renumbered σ t u)
    (hlt : n < t.size)
    (hc : Of t c)
    (hc' : Of u c')
    (hengine : c'.engine = c.engine)
    (hpoint : σ.Moves point point') :
    ∃ value gradient gradient', σ.Pads 0 gradient gradient' ∧
      (c.evaluate point).1 = .ok value ∧ (c'.evaluate point').1 = .ok value ∧
      (c.gradient point).1 = .ok (value, gradient) ∧
      (c'.gradient point').1 = .ok (value, gradient') := by
  have hsound := ht.reachable.sound
  have hlen : point.length = t.dimension := hpoint.length.trans h.dimension.symm
  have hlen' : point'.length = u.dimension := hpoint.length'.trans h.dimension'.symm
  cases hkind : c.engine with
  | interpreted =>
      obtain ⟨hevaluate, hgradient⟩ := hc.results_of_interpreted hsound hlen hkind
      obtain ⟨hevaluate', hgradient'⟩ :=
        hc'.results_of_interpreted hu hlen' (hengine.trans hkind)
      obtain ⟨value, gradient, hvalue, -⟩ := ht.safe.differentiate point hlen
      rw [h.dimension] at hvalue hgradient
      rw [h.dimension'] at hgradient'
      obtain ⟨gradient', hvalue', hmoves⟩ := h.differentiate hsound hlt hpoint hvalue
      have hx := Tape.evaluate_of_differentiate hsound hvalue
      rw [hevaluate, hevaluate', hgradient, hgradient', h.evaluate hsound hlt hpoint, hx, hvalue,
        hvalue']
      exact ⟨value, gradient, gradient', hmoves, rfl, rfl, rfl, rfl⟩
  | generated =>
      obtain ⟨p, hp, hevaluate, hgradient⟩ := hc.results_of_generated hlen hkind
      obtain ⟨q, hq, hevaluate', hgradient'⟩ :=
        hc'.results_of_generated hlen' (hengine.trans hkind)
      obtain ⟨value, gradient, gradient', hvalue, hvalue', hmoves⟩ :=
        hp.differentiate_of_renumbered hsound hu h hlt hq hpoint
      have hx := Program.evaluate_of_differentiate hvalue
      rw [h.dimension] at hgradient
      rw [h.dimension'] at hgradient'
      rw [hevaluate, hevaluate', hgradient, hgradient',
        hp.evaluate_of_renumbered hsound hu h hlt hq hpoint, hx, hvalue, hvalue']
      exact ⟨value, gradient, gradient', hmoves, rfl, rfl, rfl, rfl⟩

variable {g : Graph κ α} {root : g.Term} {vs ws : List g.Variable} {options options' : Options}
  {c₀ c₀' : CompiledTerm κ α} {x : g.Variable → α}

/-- What is compiled over any list of variables returns what an engine returns over the variables of
the term alone, where the point gives these the same values. -/
theorem results_over_vars
    (hc₀ : compile g root (g.vars root) options = .ok c₀)
    (hc₀' : compile g root vs options' = .ok c₀')
    (hc' : Used c₀' c')
    (hengine : c'.engine = c₀.engine)
    (hlen : point.length = vs.length)
    (hpoint : ∀ y : g.Variable, g.Reaches root y.1 → point[vs.idxOf y]? = some (x y)) :
    ∃ (value : α) (partials : g.Variable → α),
      (∀ y, ¬ g.Reaches root y.1 → partials y = 0) ∧
      (c₀.gradient ((g.vars root).map x)).1 = .ok (value, (g.vars root).map partials) ∧
      (c'.evaluate point).1 = .ok value ∧
      (c'.gradient point).1 = .ok (value, vs.map partials) := by
  obtain ⟨l, hl, hof₀, -⟩ := of_compile hc₀
  obtain ⟨l', hl', hof₀', -⟩ := of_compile hc₀'
  have ht : l.tape.Accepted := .ofTerm hl
  have hu : l'.tape.Sound := (Tape.Reachable.ofTerm hl').sound
  have hcovers := (compile_cases_of_ofTerm hl' options).1
  obtain ⟨σ, hσ, h⟩ := renumbered_ofTerm (covers_vars root) hcovers.2 hl hl'
  obtain ⟨value, gradient, gradient', hpads, -, hevaluate, hgradient, hgradient'⟩ :=
    hof₀.results_of_renumbered ht hu h (length_lt_size_of_ofTerm hl) (hc'.of hu hof₀') hengine
      (hσ.values hcovers.1 hlen fun y hy => hpoint y (mem_vars.1 hy))
  obtain ⟨partials, hzero, rfl, rfl⟩ := hpads.exists_map hσ (nodup_vars root) hcovers.1
  refine ⟨value, partials, fun y hy => hzero y ?_, hgradient, hevaluate, hgradient'⟩
  rwa [mem_vars]

/-- A term that is compiled over some list is compiled over its own variables for any engine, if
functions may be called. -/
theorem exists_compile_vars
    (hc₀ : compile g root vs options = .ok c₀)
    (engine : Engine) :
    ∃ c, compile g root (g.vars root) { engine := engine } = .ok c ∧ c.engine = engine := by
  obtain ⟨l, hl, -, -⟩ := of_compile hc₀
  obtain ⟨l', hl'⟩ := exists_ofTerm_vars (compile_cases_of_ofTerm hl options).1 hl
  obtain ⟨-, ⟨⟨-, hforbidden, -⟩, -⟩ | ⟨-, c, hc, -⟩⟩ :=
    compile_cases_of_ofTerm hl' { engine := engine }
  · cases hforbidden
  · obtain ⟨-, -, -, hengine⟩ := of_compile hc
    exact ⟨c, hc, hengine⟩

/-- Where two points give the variables of a term the same values, all that is compiled from the
term with one engine returns one value, and one partial for each variable. -/
theorem results_of_values
    {point' : List α}
    (hc₀ : compile g root vs options = .ok c₀)
    (hc : Used c₀ c)
    (hc₀' : compile g root ws options' = .ok c₀')
    (hc' : Used c₀' c')
    (hengine : c'.engine = c.engine)
    (hlen : point.length = vs.length)
    (hlen' : point'.length = ws.length)
    (hpoint : ∀ y : g.Variable, g.Reaches root y.1 → point[vs.idxOf y]? = some (x y))
    (hpoint' : ∀ y : g.Variable, g.Reaches root y.1 → point'[ws.idxOf y]? = some (x y)) :
    ∃ (value : α) (partials : g.Variable → α),
      (∀ y, ¬ g.Reaches root y.1 → partials y = 0) ∧
      (c.evaluate point).1 = .ok value ∧ (c'.evaluate point').1 = .ok value ∧
      (c.gradient point).1 = .ok (value, vs.map partials) ∧
      (c'.gradient point').1 = .ok (value, ws.map partials) := by
  obtain ⟨b, hb, hkind⟩ := exists_compile_vars hc₀ c.engine
  obtain ⟨value, partials, hzero, hbase, hevaluate, hgradient⟩ :=
    results_over_vars hb hc₀ hc hkind.symm hlen hpoint
  obtain ⟨value', partials', hzero', hbase', hevaluate', hgradient'⟩ :=
    results_over_vars hb hc₀' hc' (hengine.trans hkind.symm) hlen' hpoint'
  obtain ⟨rfl, hmap⟩ := Prod.mk.inj (Except.ok.inj (hbase.symm.trans hbase'))
  obtain rfl : partials = partials' := by
    funext y
    by_cases hy : g.Reaches root y.1
    · exact List.map_inj_left.1 hmap y (mem_vars.2 hy)
    · rw [hzero y hy, hzero' y hy]
  exact ⟨value, partials, hzero, hevaluate, hevaluate', hgradient, hgradient'⟩

/-- A term that is compiled over a list of variables is compiled over every reordering of it. -/
theorem exists_compile_of_perm
    (hperm : ws.Perm vs)
    (h : compile g root vs options = .ok c) :
    ∃ c', compile g root ws options = .ok c' := by
  obtain ⟨l, hl, -, -⟩ := of_compile h
  obtain ⟨hcovers, ⟨-, hrefused⟩ | ⟨hallowed, -⟩⟩ := compile_cases_of_ofTerm hl options
  · cases h.symm.trans hrefused
  · have hsize := size_of_ofTerm hl
    have hlimit := Tape.size_le_of_built (Tape.built_ofTerm hl)
    have hcovers' : Covers ws root :=
      ⟨hperm.nodup_iff.2 hcovers.1, fun y hy => hperm.mem_iff.2 (hcovers.2 y hy)⟩
    obtain ⟨l', hl'⟩ := exists_ofTerm hcovers' (by rw [hperm.length_eq]; omega)
    obtain ⟨-, ⟨hrefuses, -⟩ | ⟨-, c', hc', -⟩⟩ := compile_cases_of_ofTerm hl' options
    · exact absurd hrefuses hallowed
    · exact ⟨c', hc'⟩

/-- What is compiled over a list of variables and over a reordering of it returns one value, and one
partial for each variable, at points that give each variable the same value. -/
theorem results_of_perm
    (hperm : ws.Perm vs)
    (hc₀ : compile g root vs options = .ok c₀)
    (hc : Used c₀ c)
    (hc₀' : compile g root ws options = .ok c₀')
    (hc' : Used c₀' c')
    (hengine : c'.engine = c.engine)
    (x : g.Variable → α) :
    ∃ (value : α) (partials : g.Variable → α),
      (c.evaluate (vs.map x)).1 = .ok value ∧ (c'.evaluate (ws.map x)).1 = .ok value ∧
      (c.gradient (vs.map x)).1 = .ok (value, vs.map partials) ∧
      (c'.gradient (ws.map x)).1 = .ok (value, ws.map partials) := by
  obtain ⟨l, hl, -, -⟩ := of_compile hc₀
  have hcovers := (compile_cases_of_ofTerm hl options).1
  have hvalue : ∀ us : List g.Variable, (∀ y ∈ g.vars root, y ∈ us) → ∀ y : g.Variable,
      g.Reaches root y.1 → (us.map x)[us.idxOf y]? = some (x y) := by
    intro us hus y hy
    rw [List.getElem?_map, List.getElem?_idxOf (hus y (mem_vars.2 hy)), Option.map_some]
  obtain ⟨value, partials, -, hresults⟩ :=
    results_of_values hc₀ hc hc₀' hc' hengine (List.length_map x) (List.length_map x)
      (hvalue vs hcovers.2) (hvalue ws fun y hy => hperm.mem_iff.2 (hcovers.2 y hy))
  exact ⟨value, partials, hresults⟩

/-- Two lists over which a term is compiled, in any order and with any further variables, and two
points that give each variable of the term the same value: all that is compiled from the term with
one engine, whatever was done with it before, returns one value, and for each variable one partial,
at the place of the variable in its list.  The partial of a variable that the term does not read is
0. -/
theorem results_forget_list
    {point' : List α}
    (hcompile : compile g root vs options = .ok c₀)
    (hused : Used c₀ c)
    (hcompile' : compile g root ws options' = .ok c₀')
    (hused' : Used c₀' c')
    (hengine : c'.engine = c.engine)
    (hlen : point.length = vs.length)
    (hlen' : point'.length = ws.length)
    (hsame : ∀ y : g.Variable, g.Reaches root y.1 → point[vs.idxOf y]? = point'[ws.idxOf y]?) :
    ∃ (value : α) (partials : g.Variable → α),
      (∀ y, ¬ g.Reaches root y.1 → partials y = 0) ∧
      (c.evaluate point).1 = .ok value ∧ (c'.evaluate point').1 = .ok value ∧
      (c.gradient point).1 = .ok (value, vs.map partials) ∧
      (c'.gradient point').1 = .ok (value, ws.map partials) := by
  obtain ⟨l, hl, -, -⟩ := of_compile hcompile
  have hcovers := (compile_cases_of_ofTerm hl options).1
  have hvalue : ∀ y : g.Variable, g.Reaches root y.1 →
      point[vs.idxOf y]? = some (point[vs.idxOf y]?.getD 0) := by
    intro y hy
    have hplace := List.idxOf_lt_length_of_mem (hcovers.2 y (mem_vars.2 hy))
    rw [List.getElem?_eq_getElem (by omega), Option.getD_some]
  exact results_of_values hcompile hused hcompile' hused' hengine hlen hlen' hvalue
    fun y hy => (hsame y hy).symm.trans (hvalue y hy)

end Results

section PartlyRead

/-- `x * y + x`, beside a variable `z` that it does not read. -/
def partlyRead : Graph Float Float where
  nodes := #[.var none, .var none, .var none, .product 0 1, .sum [3, 0]]
  node_ok := by decide

def partlyRead.x : partlyRead.Variable := ⟨⟨0, by decide⟩, by cbv⟩

def partlyRead.y : partlyRead.Variable := ⟨⟨1, by decide⟩, by cbv⟩

def partlyRead.z : partlyRead.Variable := ⟨⟨2, by decide⟩, by cbv⟩

def partlyRead.root : partlyRead.Term := ⟨4, by decide⟩

theorem partlyRead.ne_z_of_reaches
    {t : partlyRead.Term}
    (h : partlyRead.Reaches partlyRead.root t) :
    t ≠ partlyRead.z.1 := by
  have hclosed : ∀ t : partlyRead.Term, t ≠ partlyRead.z.1 →
      ∀ u ∈ partlyRead.operands t, u ≠ partlyRead.z.1 := by
    decide
  induction h with
  | refl => decide
  | tail _ hu ih => exact hclosed _ ih _ hu

theorem partlyRead.variable_cases
    {v : partlyRead.Variable}
    (h : partlyRead.Reaches partlyRead.root v.1) :
    v = partlyRead.x ∨ v = partlyRead.y := by
  have hvars : ∀ t : partlyRead.Term, partlyRead.isVariable t = true → t ≠ partlyRead.z.1 →
      t = partlyRead.x.1 ∨ t = partlyRead.y.1 := by
    decide
  exact (hvars v.1 v.2 (ne_z_of_reaches h)).imp Subtype.ext Subtype.ext

theorem lowerable_partlyRead
    {vs : List partlyRead.Variable}
    (hnodup : vs.Nodup)
    (hvars : partlyRead.x ∈ vs ∧ partlyRead.y ∈ vs)
    (hlen : vs.length ≤ 3) :
    partlyRead.Lowerable partlyRead.root vs := by
  refine lowerable_of_bound hnodup ?_ ?_ (by decide)
  · intro v hv
    rcases partlyRead.variable_cases hv with rfl | rfl
    · exact hvars.1
    · exact hvars.2
  · have hsize : 3 + partlyRead.size < indexLimit := by decide
    omega

/-- An infinite `x` times a `y` of 0 is no number, but the generated program has the same results
with and without `z`, whose partial is 0 though its own value is no number. -/
theorem results_forget_list_partlyRead :
    ∃ c c' value a b,
      compile partlyRead partlyRead.root [partlyRead.x, partlyRead.y] { engine := .generated } =
        .ok c ∧
      compile partlyRead partlyRead.root [partlyRead.z, partlyRead.y, partlyRead.x]
        { engine := .generated } = .ok c' ∧
      (c.gradient [1.0 / 0.0, 0.0]).1 = .ok (value, [a, b]) ∧
      (c'.gradient [0.0 / 0.0, 0.0, 1.0 / 0.0]).1 = .ok (value, [0.0, b, a]) := by
  have hxy : partlyRead.Lowerable partlyRead.root [partlyRead.x, partlyRead.y] :=
    lowerable_partlyRead (by decide) (by simp) (by decide)
  have hzyx : partlyRead.Lowerable partlyRead.root [partlyRead.z, partlyRead.y, partlyRead.x] :=
    lowerable_partlyRead (by decide) (by simp) (by decide)
  have hallowed : ({ engine := .generated } : Options).allowCallbacks = true := rfl
  obtain ⟨c, hc⟩ := exists_compile hxy hallowed
  obtain ⟨c', hc'⟩ := exists_compile hzyx hallowed
  obtain ⟨-, -, -, hengine⟩ := of_compile hc
  obtain ⟨-, -, -, hengine'⟩ := of_compile hc'
  obtain ⟨value, partials, hzero, -, -, hgradient, hgradient'⟩ :=
    results_forget_list hc .new hc' .new (hengine'.trans hengine.symm)
      (rfl : [(1.0 / 0.0 : Float), 0.0].length = 2)
      (rfl : [(0.0 / 0.0 : Float), 0.0, 1.0 / 0.0].length = 3)
      (fun y hy => by rcases partlyRead.variable_cases hy with rfl | rfl <;> rfl)
  have hz : partials partlyRead.z = 0.0 := hzero _ fun h => partlyRead.ne_z_of_reaches h rfl
  rw [List.map_cons, hz] at hgradient'
  exact ⟨c, c', value, _, _, hc, hc', hgradient, hgradient'⟩

/-- Whether there are results hangs on the list, too.  A sum that has an index for each slot over
the variable that it reads has a value there, but too few indices over a list with one more
variable. -/
theorem list_matters_multiples :
    Covers [multiples.x 4294967293] (multiples.root 4294967293) ∧
      Covers [multiples.x 4294967293, multiples.y 4294967293] (multiples.root 4294967293) ∧
      (∃ c value, compile (multiples 4294967293) (multiples.root 4294967293)
        [multiples.x 4294967293] {} = .ok c ∧ (c.evaluate [3]).1 = .ok value) ∧
      compile (multiples 4294967293) (multiples.root 4294967293)
        [multiples.x 4294967293, multiples.y 4294967293] {} = .error (.fault .tapeTooLong) := by
  have hcovers : Covers [multiples.x 4294967293] (multiples.root 4294967293) :=
    covers_multiples (List.nodup_singleton _) List.mem_cons_self
  have hcovers' : Covers [multiples.x 4294967293, multiples.y 4294967293]
      (multiples.root 4294967293) :=
    covers_multiples (nodup_multiples _) List.mem_cons_self
  have hslots := card_computedBelow_multiples 4294967293
  have hwrappers := wrappers_multiples 4294967293
  have hlimit : indexLimit = 4294967295 := rfl
  refine ⟨hcovers, hcovers', ?_, ?_⟩
  · obtain ⟨l, hl⟩ := exists_ofTerm hcovers (by
      rw [hslots, hwrappers, hlimit, List.length_singleton])
    obtain ⟨-, ⟨⟨-, hforbidden, -⟩, -⟩ | ⟨-, c, hc, hdim⟩⟩ := compile_cases_of_ofTerm hl {}
    · cases hforbidden
    · have hlen : ([3] : List Int).length = c.dimension := hdim.symm
      obtain ⟨l', hl', hof, -⟩ := of_compile hc
      obtain ⟨value, hvalue⟩ := hof.exists_evaluate (.ofTerm hl') hlen
      exact ⟨c, value, hc, hvalue⟩
  · apply compile_eq_tapeTooLong hcovers'
    rw [hslots, hwrappers, hlimit]
    decide

end PartlyRead
end CompiledTerm
end ReverseMode

import ReverseMode.Compiled.Basic
import ReverseMode.Proofs.Integer
import ReverseMode.Proofs.Lowering.Overlap
import ReverseMode.Proofs.Program.Forward

/-!
# When compiling succeeds

**Input.**  Any term, list of variables and options.

**Argument.**  Lowering ends with a tape or with an error that has its cause (`ofTerm_outcome`).
The tape of a term is sound, its functions are registered, and it has one slot for each distinct
node that calls a function; so the engine can refuse it for these calls only.

**Results.**
* `compile_cases`: how compiling ends, cause by cause.
* `compile_outcome`: each error is given exactly when its cause is there and none that comes
  before it.
-/

namespace ReverseMode

variable {κ α : Type} [Exponent κ]

namespace Graph

variable {g : Graph κ α} {root : g.Term} {vs : List g.Variable} {s : LoweringState g}
  {done : List g.Term}

section Endings

open Classical in
/-- The terms that a term reaches and that call functions. -/
noncomputable def callbacksBelow (g : Graph κ α) (root : g.Term) : Finset g.Term :=
  Finset.univ.filter fun t => g.Reaches root t ∧ (g.node t).callsFunction = true

theorem mem_callbacksBelow
    {t : g.Term} :
    t ∈ g.callbacksBelow root ↔ g.Reaches root t ∧ (g.node t).callsFunction = true := by
  simp [callbacksBelow]

theorem isVariable_eq_false_of_callsFunction
    {t : g.Term}
    (h : (g.node t).callsFunction = true) :
    g.isVariable t = false := by
  rw [isVariable]
  generalize g.node t = n at h
  cases n with
  | var name => cases h
  | _ => rfl

variable [Scalar κ α]

/-- A term that has a tape reads variables of the list only. -/
theorem Finished.bound
    (h : Finished root vs s done)
    {v : g.Variable}
    (hv : g.Reaches root v.1) :
    v ∈ vs := by
  rcases List.mem_append.1 (h.mem_slotTerms hv) with hmem | hmem
  · obtain ⟨w, hw, hwv⟩ := List.mem_map.1 hmem
    exact Subtype.ext hwv ▸ hw
  · have hfalse := (Graph.mem_computedBelow.1 (h.progress.below _ hmem)).2
    exact absurd (v.2.symm.trans hfalse) (by decide)

/-- The slots that call functions are as many as the distinct terms that do. -/
theorem Finished.callbackCount
    (h : Finished root vs s done) :
    s.tape.callbackCount = (g.callbacksBelow root).card := by
  have hset : (done.filter fun t => (g.node t).callsFunction).toFinset = g.callbacksBelow root := by
    ext t
    rw [List.mem_toFinset, List.mem_filter, mem_callbacksBelow]
    constructor
    · rintro ⟨hdone, hcalls⟩
      exact ⟨(Graph.mem_computedBelow.1 (h.progress.below t hdone)).1, hcalls⟩
    · rintro ⟨hreach, hcalls⟩
      refine ⟨?_, hcalls⟩
      rcases List.mem_append.1 (h.mem_slotTerms hreach) with hmem | hmem
      · obtain ⟨v, -, rfl⟩ := List.mem_map.1 hmem
        have hfalse := isVariable_eq_false_of_callsFunction hcalls
        exact absurd (v.2.symm.trans hfalse) (by decide)
      · exact hmem
  rw [h.progress.callbackCount, List.countP_eq_length_filter, ← hset,
    List.toFinset_card_of_nodup (h.progress.nodup.filter _)]

end Endings
end Graph

namespace CompiledTerm

open ReverseMode.Graph

variable {g : Graph κ α} {root : g.Term} {vs : List g.Variable} {options : Options}

section Outcome

variable [Scalar κ α]

/-- Whether the options refuse a term for the functions that it calls. -/
def RefusesCallbacks (root : g.Term) (options : Options) : Prop :=
  options.engine = .generated ∧ options.allowCallbacks = false ∧
    0 < (g.callbacksBelow root).card

/-- A tape that an engine can run gets it, unless the engine refuses the functions. -/
theorem assemble_cases
    {tape : Tape κ α} (names : List Nat)
    (ht : tape.Sound)
    (hreg : tape.HandlesRegistered)
    (hcount : tape.callbackCount = (g.callbacksBelow root).card) :
    (RefusesCallbacks root options ∧ assemble tape names options =
        .error (.callbacksNotSupported (g.callbacksBelow root).card)) ∨
      (¬ RefusesCallbacks root options ∧
        ∃ c, assemble tape names options = .ok c ∧ c.dimension = tape.dimension) := by
  obtain ⟨engine, allow⟩ := options
  cases engine with
  | interpreted =>
      right
      refine ⟨?_, _, rfl, rfl⟩
      rintro ⟨hengine, -⟩
      cases hengine
  | generated =>
      by_cases hrefuse : allow = false ∧ 0 < tape.callbackCount
      · left
        refine ⟨⟨rfl, hrefuse.1, hcount ▸ hrefuse.2⟩, ?_⟩
        rw [assemble, Program.ofTape, if_pos (by simp [hrefuse.1, hrefuse.2]), hcount]
        rfl
      · right
        have hallow : allow = true ∨ tape.callbackCount = 0 := by
          cases allow with
          | true => exact .inl rfl
          | false => exact .inr (Nat.eq_zero_of_not_pos fun h => hrefuse ⟨rfl, h⟩)
        obtain ⟨p, hp⟩ := Program.exists_ofTape ht hreg hallow
        refine ⟨fun h => hrefuse ⟨h.2.1, hcount ▸ h.2.2⟩,
          { tape, vars := names, executor := .generated p }, ?_, rfl⟩
        rw [assemble, hp]
        rfl

/-- How compiling ends where the term has a tape: refused by the engine, or with a compiled term. -/
theorem compile_cases_of_ofTerm
    {l : Lowered κ α}
    (h : Tape.ofTerm g root vs = .ok l)
    (options : Options) :
    Covers vs root ∧
      ((RefusesCallbacks root options ∧ compile g root vs options =
          .error (.callbacksNotSupported (g.callbacksBelow root).card)) ∨
        (¬ RefusesCallbacks root options ∧
          ∃ c, compile g root vs options = .ok c ∧ c.dimension = vs.length)) := by
  rcases ofTerm_outcome root vs with ⟨l', hofTerm, s, done, hfinished, hends⟩ | ⟨e, he, -⟩
  · obtain ⟨hdimension, hcount, hreg⟩ := hends.same
    refine ⟨⟨hfinished.nodup, fun v hv => hfinished.bound (mem_vars.1 hv)⟩, ?_⟩
    rw [compile, hofTerm, ok_bind, ← hfinished.progress.dimension, ← hdimension]
    exact assemble_cases _ (Tape.Reachable.ofTerm hofTerm).sound
      (hreg hfinished.progress.registered) (hcount.trans hfinished.callbackCount)
  · cases h.symm.trans he

/-- How compiling ends: refused by the lowering, refused by the engine, or with a compiled
term. -/
theorem compile_cases (root : g.Term) (vs : List g.Variable) (options : Options) :
    (∃ e, compile g root vs options = .error e ∧ Refusal root vs e) ∨
      Covers vs root ∧
        ((RefusesCallbacks root options ∧ compile g root vs options =
            .error (.callbacksNotSupported (g.callbacksBelow root).card)) ∨
          (¬ RefusesCallbacks root options ∧
            ∃ c, compile g root vs options = .ok c ∧ c.dimension = vs.length)) := by
  rcases ofTerm_outcome root vs with ⟨l, hofTerm, -⟩ | ⟨e, hofTerm, hrefused⟩
  · exact .inr (compile_cases_of_ofTerm hofTerm options)
  · exact .inl ⟨e, by rw [compile, hofTerm, error_bind], hrefused⟩

/-- A term that fits is compiled for any engine that may call functions. -/
theorem exists_compile
    (hl : g.Lowerable root vs)
    (hallow : options.allowCallbacks = true) :
    ∃ c, compile g root vs options = .ok c := by
  rcases compile_cases root vs options with
    ⟨e, -, hrefused⟩ | ⟨-, ⟨⟨-, hforbid, -⟩, -⟩ | ⟨-, c, hc, -⟩⟩
  · exact absurd hrefused hl.not_refusal
  · exact absurd (hallow.symm.trans hforbid) (by decide)
  · exact ⟨c, hc⟩

/-- Which result is given exactly when.  A cause counts only where none of the causes before it
is there; variables are the same where they are the same term of the graph. -/
structure Outcome (root : g.Term) (vs : List g.Variable) (options : Options)
    (result : Except (Error κ) (CompiledTerm κ α)) : Prop where
  duplicate : ∀ v first second, result = .error (.binding (.duplicate v first second)) ↔
    ∃ x : g.Variable, x.1.val = v ∧ FirstRepeat vs x first second
  unbound : ∀ v, result = .error (.binding (.unbound v)) ↔
    vs.Nodup ∧ ∃ x : g.Variable, x.1.val = v ∧ FirstMissing vs root x
  callbacks : ∀ count, result = .error (.callbacksNotSupported count) ↔
    Covers vs root ∧ RefusesCallbacks root options ∧ (g.callbacksBelow root).card = count
  ok : (∃ c, result = .ok c) ↔ Covers vs root ∧ ¬ RefusesCallbacks root options
  dimension : ∀ c, result = .ok c → c.dimension = vs.length
  /-- There are no other errors. -/
  errors : ∀ e, result = .error e → (∃ v first second, e = .binding (.duplicate v first second)) ∨
    (∃ v, e = .binding (.unbound v)) ∨ ∃ count, e = .callbacksNotSupported count

omit [Scalar κ α] in
theorem Outcome.of_duplicate
    {x : g.Variable} {first second : Nat}
    (h : FirstRepeat vs x first second) :
    Outcome root vs options (.error (.binding (.duplicate x.1 first second))) := by
  have hnodup := h.not_nodup
  have hcovers : ¬ Covers vs root := fun hc => hnodup hc.1
  constructor
  · intro v first' second'
    constructor
    · rintro ⟨⟩
      exact ⟨x, rfl, h⟩
    · rintro ⟨y, rfl, hy⟩
      obtain ⟨rfl, rfl, rfl⟩ := h.unique hy
      rfl
  · simp [hnodup]
  · simp [hcovers]
  · simp [hcovers]
  · simp
  · rintro _ ⟨⟩
    exact .inl ⟨_, _, _, rfl⟩

omit [Scalar κ α] in
theorem Outcome.of_unbound
    {x : g.Variable}
    (hnodup : vs.Nodup)
    (h : FirstMissing vs root x) :
    Outcome root vs options (.error (.binding (.unbound x.1))) := by
  have hcovers := h.not_covers
  have hrepeat : ∀ y first second, ¬ FirstRepeat vs y first second :=
    fun _ _ _ hy => hy.not_nodup hnodup
  constructor
  · simp [hrepeat]
  · intro v
    constructor
    · rintro ⟨⟩
      exact ⟨hnodup, x, rfl, h⟩
    · rintro ⟨-, y, rfl, hy⟩
      obtain rfl : x = y := Option.some.inj (h.symm.trans hy)
      rfl
  · simp [hcovers]
  · simp [hcovers]
  · simp
  · rintro _ ⟨⟩
    exact .inr (.inl ⟨_, rfl⟩)

omit [Scalar κ α] in
theorem Outcome.of_covers
    {result : Except (Error κ) (CompiledTerm κ α)}
    (hcovers : Covers vs root)
    (h : (RefusesCallbacks root options ∧
        result = .error (.callbacksNotSupported (g.callbacksBelow root).card)) ∨
      (¬ RefusesCallbacks root options ∧ ∃ c, result = .ok c ∧ c.dimension = vs.length)) :
    Outcome root vs options result := by
  have hrepeat : ∀ y first second, ¬ FirstRepeat vs y first second :=
    fun _ _ _ hy => hy.not_nodup hcovers.1
  have hmissing : ∀ y, ¬ FirstMissing vs root y := fun y hy => hy.not_covers hcovers
  rcases h with ⟨hrefuses, rfl⟩ | ⟨hrefuses, c, rfl, hdimension⟩
  · constructor
    · simp [hrepeat]
    · simp [hmissing]
    · simp [hcovers, hrefuses]
    · simp [hrefuses]
    · simp
    · rintro _ ⟨⟩
      exact .inr (.inr ⟨_, rfl⟩)
  · constructor
    · simp [hrepeat]
    · simp [hmissing]
    · simp [hrefuses]
    · simp [hcovers, hrefuses]
    · rintro _ ⟨⟩
      exact hdimension
    · rintro _ ⟨⟩

/-- A list that has the variables of a term cannot help it to more slots than there are indices. -/
theorem compile_eq_tapeTooLong
    (hcovers : Covers vs root)
    (hlong : indexLimit < vs.length + (g.computedBelow root).card + g.wrappers root)
    (options : Options) :
    compile g root vs options = .error (.fault .tapeTooLong) := by
  rw [compile, ofTerm_eq_tapeTooLong hcovers hlong]
  rfl

/-- Compiling fails exactly where it has a cause to, with the error of the first cause, unless the
term has more nodes than a tape has indices.  Over a list that has its variables, such a term always
gets too long a tape. -/
theorem compile_outcome (root : g.Term) (vs : List g.Variable) (options : Options) :
    ((indexLimit < vs.length + (g.computedBelow root).card + g.wrappers root ∧
        compile g root vs options = .error (.fault .tapeTooLong)) ∨
      Outcome root vs options (compile g root vs options)) ∧
    (Covers vs root → indexLimit < vs.length + (g.computedBelow root).card + g.wrappers root →
      compile g root vs options = .error (.fault .tapeTooLong)) := by
  refine ⟨?_, fun hcovers hlong => compile_eq_tapeTooLong hcovers hlong options⟩
  rcases compile_cases root vs options with ⟨e, he, hrefused⟩ | ⟨hcovers, hcases⟩
  · rw [he]
    cases hrefused with
    | tooLong hlong => exact .inl ⟨hlong, rfl⟩
    | duplicate hrepeat => exact .inr (.of_duplicate hrepeat)
    | unbound hnodup hmissing => exact .inr (.of_unbound hnodup hmissing)
  · exact .inr (.of_covers hcovers hcases)

/-- A term whose variables are distinct and listed, and that calls no function, is not compiled
where there is no index for each of its nodes. -/
theorem compile_multiples :
    Covers [multiples.x 4294967293, multiples.y 4294967293] (multiples.root 4294967293) ∧
      compile (multiples 4294967293) (multiples.root 4294967293)
        [multiples.x 4294967293, multiples.y 4294967293] {} = .error (.fault .tapeTooLong) ∧
      ¬ Outcome (multiples.root 4294967293) [multiples.x 4294967293, multiples.y 4294967293] {}
        (compile (multiples 4294967293) (multiples.root 4294967293)
          [multiples.x 4294967293, multiples.y 4294967293] {}) := by
  have hcovers : Covers [multiples.x 4294967293, multiples.y 4294967293]
      (multiples.root 4294967293) :=
    covers_multiples (nodup_multiples _) List.mem_cons_self
  have hcompile : compile (multiples 4294967293) (multiples.root 4294967293)
      [multiples.x 4294967293, multiples.y 4294967293] {} = .error (.fault .tapeTooLong) := by
    apply compile_eq_tapeTooLong hcovers
    rw [card_computedBelow_multiples]
    exact Nat.lt_add_right _ (by decide)
  refine ⟨hcovers, hcompile, fun h => ?_⟩
  rcases h.errors _ hcompile with ⟨v, first, second, he⟩ | ⟨v, he⟩ | ⟨count, he⟩
  · cases he
  · cases he
  · cases he

/-- The product of two variables that have one name. -/
def namesakes : Graph Nat Int where
  nodes := #[.var (some "x"), .var (some "x"), .product 0 1]
  node_ok := by decide

def namesakes.left : namesakes.Variable := ⟨⟨0, by decide⟩, by cbv⟩

def namesakes.right : namesakes.Variable := ⟨⟨1, by decide⟩, by cbv⟩

/-- A variable does not stand in for another of the same name. -/
example : compile namesakes ⟨2, by decide⟩ [namesakes.left] {} = .error (.binding (.unbound 1)) := by
  cbv

/-- Nor does it repeat the other. -/
example : (compile namesakes ⟨2, by decide⟩ [namesakes.left, namesakes.right] {}).isOk = true := by
  cbv

end Outcome
end CompiledTerm
end ReverseMode

import Mathlib.Logic.Relation
import ReverseMode.Proofs.Outcome
import ReverseMode.Tape.Lowering

/-!
# The loop that lowers a term

The loop takes tasks until none is left.  What one step keeps, the loop keeps
(`lowerFrom_preserves`).  Where every step keeps an invariant or ends with one of certain errors,
so does the loop (`lowerFrom_outcome`).

Seen from the tape, lowering is a sequence of accepted building steps (`built_ofTerm`), so
what every building step keeps holds of every tape made from a term.  A building step appends a
slot or registers a function, and nothing else (`BuildStep.cases`).
-/

namespace ReverseMode

namespace Tape

variable {κ α : Type}

section Registering

variable {t : Tape κ α} {r : Nat × Tape κ α}

theorem registerUnary_eq_ok
    {f : UnaryFn α}
    (h : t.registerUnary f = .ok r) :
    r = (t.callbacks.unary.size,
      { t with callbacks := { t.callbacks with unary := t.callbacks.unary.push f } }) := by
  rw [registerUnary] at h
  split at h
  · exact (Except.ok.inj h).symm
  · cases h

theorem registerBinary_eq_ok
    {f : BinaryFn α}
    (h : t.registerBinary f = .ok r) :
    r = (t.callbacks.binary.size,
      { t with callbacks := { t.callbacks with binary := t.callbacks.binary.push f } }) := by
  rw [registerBinary] at h
  split at h
  · exact (Except.ok.inj h).symm
  · cases h

theorem registerNary_eq_ok
    {f : NaryFn α}
    (h : t.registerNary f = .ok r) :
    r = (t.callbacks.nary.size,
      { t with callbacks := { t.callbacks with nary := t.callbacks.nary.push f } }) := by
  rw [registerNary] at h
  split at h
  · exact (Except.ok.inj h).symm
  · cases h

end Registering

variable [Zero α]

/-- One accepted call that grows a tape. -/
inductive BuildStep : Tape κ α → Tape κ α → Prop
  | pushInput {t : Tape κ α} {r : Nat × Tape κ α} :
      t.pushInput = .ok r → BuildStep t r.2
  | pushConst {t : Tape κ α} {r : Nat × Tape κ α} (c : α) :
      t.pushConst c = .ok r → BuildStep t r.2
  | pushOp {t : Tape κ α} {r : Nat × Tape κ α} (op : Op κ) (sources : List Nat) :
      t.pushOp op sources = .ok r → BuildStep t r.2
  | registerUnary {t : Tape κ α} {r : Nat × Tape κ α} (f : UnaryFn α) :
      t.registerUnary f = .ok r → BuildStep t r.2
  | registerBinary {t : Tape κ α} {r : Nat × Tape κ α} (f : BinaryFn α) :
      t.registerBinary f = .ok r → BuildStep t r.2
  | registerNary {t : Tape κ α} {r : Nat × Tape κ α} (f : NaryFn α) :
      t.registerNary f = .ok r → BuildStep t r.2

/-- A tape that grows out of another by accepted calls. -/
abbrev Built : Tape κ α → Tape κ α → Prop :=
  Relation.ReflTransGen BuildStep

section Calls

/-- The tape with one more slot, whose edges are new. -/
def withSlot (t : Tape κ α) (op : Op κ) (v : α) (sources : List Nat) : Tape κ α :=
  { t with
    slots := t.slots.push
      { op, value := v, adjoint := 0, inputs := Window.ofNat t.edges.size sources.length }
    edges := t.edges ++ sources.map fun source => ({ source, weight := 0 } : Edge α) }

variable {t u : Tape κ α} {r : Nat × Tape κ α}

theorem pushSlot_eq_ok
    {op : Op κ} {v : α} {sources : List Nat}
    (h : t.pushSlot op v sources = .ok r) :
    t.size < indexLimit ∧ r = (t.size, t.withSlot op v sources) := by
  rw [pushSlot] at h
  split at h
  · exact ⟨‹_›, (Except.ok.inj h).symm⟩
  · cases h

theorem pushInput_eq_ok
    (h : t.pushInput = .ok r) :
    t.size = t.dimension ∧ t.size < indexLimit ∧
      r = (t.size, { t with dimension := t.dimension + 1 }.withSlot .input 0 []) := by
  rw [pushInput] at h
  split at h
  · obtain ⟨hlt, rfl⟩ := pushSlot_eq_ok h
    exact ⟨‹_›, hlt, rfl⟩
  · cases h

theorem pushOp_eq_ok
    {op : Op κ} {sources : List Nat}
    (h : t.pushOp op sources = .ok r) :
    pushable op sources.length = true ∧ (∀ j ∈ sources, j < t.size) ∧
      t.size < indexLimit ∧ r = (t.size, t.withSlot op 0 sources) := by
  rw [pushOp] at h
  split at h
  · cases h
  · split at h
    · cases h
    · rename_i hp ha
      obtain ⟨hlt, rfl⟩ := pushSlot_eq_ok h
      refine ⟨by simpa using hp, ?_, hlt, rfl⟩
      simpa [List.all_eq_true] using ha

/-- What an accepted call has checked of the slot that it appends, and of the dimension after
that. -/
structure Appendable (t : Tape κ α) (d : Nat) (op : Op κ) (v : α) (sources : List Nat) :
    Prop where
  size_lt : t.size < indexLimit
  first : op.isInput = true → t.size = t.dimension
  dimension : d = if op.isInput then t.dimension + 1 else t.dimension
  earlier : ∀ j ∈ sources, j < t.size
  accepts : op.accepts sources.length = true
  stored : (if op.isConst then v else 0) = v

/-- An accepted call appends a slot or registers a function. -/
theorem BuildStep.cases
    (h : BuildStep t u) :
    (∃ d op v sources, t.Appendable d op v sources ∧
      u = { t with dimension := d }.withSlot op v sources) ∨
      ∃ c, u = { t with callbacks := c } := by
  cases h with
  | pushInput h =>
      obtain ⟨hfirst, hlt, rfl⟩ := pushInput_eq_ok h
      exact .inl ⟨_, _, _, _, ⟨hlt, fun _ => hfirst, rfl, by simp, rfl, rfl⟩, rfl⟩
  | pushConst c h =>
      obtain ⟨hlt, rfl⟩ := pushSlot_eq_ok h
      exact .inl ⟨t.dimension, .const, c, [], ⟨hlt, nofun, rfl, by simp, rfl, rfl⟩, rfl⟩
  | pushOp op sources h =>
      obtain ⟨hop, hearlier, hlt, rfl⟩ := pushOp_eq_ok h
      simp only [pushable, Bool.and_eq_true, Bool.not_eq_true'] at hop
      obtain ⟨⟨hinput, -⟩, haccepts⟩ := hop
      refine .inl ⟨t.dimension, op, 0, sources, ⟨hlt, ?_, ?_, hearlier, haccepts, ite_self 0⟩, rfl⟩
      · exact fun h => absurd (hinput.symm.trans h) Bool.false_ne_true
      · rw [hinput]
        rfl
  | registerUnary f h =>
      obtain rfl := registerUnary_eq_ok h
      exact .inr ⟨_, rfl⟩
  | registerBinary f h =>
      obtain rfl := registerBinary_eq_ok h
      exact .inr ⟨_, rfl⟩
  | registerNary f h =>
      obtain rfl := registerNary_eq_ok h
      exact .inr ⟨_, rfl⟩

end Calls

end Tape

namespace Graph

open Tape

variable {κ α : Type} [Exponent κ] [Scalar κ α] {g : Graph κ α}

section Loop

theorem lowerFrom_nil
    {s : LoweringState g}
    (h : s.stack = []) :
    g.lowerFrom s = .ok s := by
  rw [lowerFrom, dif_pos h]

theorem lowerFrom_step
    {s r : LoweringState g}
    (hs : s.stack ≠ [])
    (hr : g.lowerStep s = .ok r) :
    g.lowerFrom s = g.lowerFrom r := by
  rw [lowerFrom, dif_neg hs]
  split
  · rename_i e he
    rw [hr] at he
    cases he
  · rename_i r' hr'
    rw [hr] at hr'
    cases hr'
    rfl

theorem lowerFrom_error
    {s : LoweringState g} {e : Error κ}
    (hs : s.stack ≠ [])
    (he : g.lowerStep s = .error e) :
    g.lowerFrom s = .error e := by
  rw [lowerFrom, dif_neg hs]
  split
  · rename_i e' he'
    rw [he] at he'
    exact congrArg Except.error (Except.error.inj he').symm
  · rename_i r hr
    rw [he] at hr
    cases hr

/-- What every step keeps holds where the loop ends, and there no task is left. -/
theorem lowerFrom_preserves
    {P : LoweringState g → Prop}
    (hstep : ∀ s r, P s → g.lowerStep s = .ok r → P r)
    (s : LoweringState g) {r : LoweringState g}
    (hs : P s)
    (h : g.lowerFrom s = .ok r) :
    P r ∧ r.stack = [] := by
  by_cases hn : s.stack = []
  · rw [lowerFrom_nil hn] at h
    cases h
    exact ⟨hs, hn⟩
  · cases hr : g.lowerStep s with
    | error e =>
        rw [lowerFrom_error hn hr] at h
        cases h
    | ok s' =>
        rw [lowerFrom_step hn hr] at h
        exact lowerFrom_preserves hstep s' (hstep s s' hs hr) h
termination_by g.load s.stack
decreasing_by exact g.load_lowerStep_lt hr hn

/-- Where every step keeps an invariant or fails with one of certain errors, the loop ends with
the invariant and no task left, or fails with one of these errors. -/
theorem lowerFrom_outcome
    {P : LoweringState g → Prop} {Q : Error κ → Prop}
    (hstep : ∀ s, P s → s.stack ≠ [] →
      (∃ r, g.lowerStep s = .ok r ∧ P r) ∨ ∃ e, g.lowerStep s = .error e ∧ Q e)
    (s : LoweringState g)
    (hs : P s) :
    (∃ r, g.lowerFrom s = .ok r ∧ P r ∧ r.stack = []) ∨ ∃ e, g.lowerFrom s = .error e ∧ Q e := by
  by_cases hn : s.stack = []
  · exact .inl ⟨s, lowerFrom_nil hn, hs, hn⟩
  · rcases hstep s hs hn with ⟨r, hr, hP⟩ | ⟨e, he, hQ⟩
    · rw [lowerFrom_step hn hr]
      exact lowerFrom_outcome hstep r hP
    · exact .inr ⟨e, lowerFrom_error hn he, hQ⟩
termination_by g.load s.stack
decreasing_by exact g.load_lowerStep_lt hr hn

end Loop

section Built

theorem built_bindFrom
    {vs : List g.Variable} {position : Nat} {s r : Tape κ α × g.Table (Option Nat)}
    (h : g.bindFrom position vs s = .ok r) :
    Built s.1 r.1 := by
  induction vs generalizing position s with
  | nil =>
      cases h
      exact .refl
  | cons v vs ih =>
      obtain ⟨tape, slots⟩ := s
      rw [bindFrom] at h
      split at h
      · cases h
      · split at h
        · cases h
        · rename_i slot tape' hpush
          exact .head (.pushInput hpush) (ih h)

theorem built_emitOp
    {slots : g.Table (Option Nat)} {ts : List g.Term} {op : Op κ} {tape : Tape κ α}
    {r : Nat × Tape κ α}
    (h : g.emitOp slots ts op tape = .ok r) :
    Built tape r.2 := by
  rw [emitOp] at h
  split at h
  · cases h
  · rename_i sources hsrc
    exact .single (.pushOp op sources (mapError_eq_ok_iff.1 h))

theorem built_emit
    {t : g.Term} {slots : g.Table (Option Nat)} {tape : Tape κ α} {r : Nat × Tape κ α}
    (h : g.emit t slots tape = .ok r) :
    Built tape r.2 := by
  rw [emit] at h
  split at h
  case h_1 c hn =>
    exact .single (.pushConst c (mapError_eq_ok_iff.1 h))
  case h_2 hn =>
    exact .single (.pushConst 0 (mapError_eq_ok_iff.1 h))
  case h_3 => cases h
  case h_10 f a hn =>
    split at h
    · cases h
    · rename_i handle tape' hreg
      exact .head (.registerUnary f hreg) (built_emitOp h)
  case h_11 f a b hn =>
    split at h
    · cases h
    · rename_i handle tape' hreg
      exact .head (.registerBinary f hreg) (built_emitOp h)
  case h_12 f ts hn =>
    split at h
    · cases h
    · rename_i handle tape' hreg
      exact .head (.registerNary f hreg) (built_emitOp h)
  all_goals exact built_emitOp h

theorem built_lowerStep
    {s r : LoweringState g}
    (h : g.lowerStep s = .ok r) :
    Built s.tape r.tape := by
  rcases s with ⟨tape, slots, hits, _ | ⟨t | t, rest⟩⟩
  · cases h
    exact .refl
  · rw [lowerStep] at h
    split at h
    · cases h
      exact .refl
    · split at h
      · cases h
      · cases h
        exact .refl
  · rw [lowerStep] at h
    split at h
    · cases h
      exact .refl
    · split at h
      · cases h
      · rename_i slot tape' hemit
        cases h
        exact built_emit hemit

theorem built_lower
    {root : g.Term} {vs : List g.Variable} {r : LoweringState g}
    (h : g.lower root vs = .ok r) :
    Built {} r.tape := by
  rw [lower] at h
  obtain ⟨⟨tape, slots⟩, hbind, h⟩ := bind_eq_ok_iff.1 h
  refine (lowerFrom_preserves (P := fun s => Built {} s.tape) ?_ _ ?_ h).1
  · intro s r hs hr
    exact hs.trans (built_lowerStep hr)
  · exact built_bindFrom hbind

end Built
end Graph

namespace Tape

variable {κ α : Type} [Exponent κ] [Scalar κ α]

/-- The tape of a term is built by accepted calls. -/
theorem built_ofTerm
    {g : Graph κ α} {root : g.Term} {vs : List g.Variable} {l : Lowered κ α}
    (h : ofTerm g root vs = .ok l) :
    Built {} l.tape := by
  rw [ofTerm] at h
  obtain ⟨s, hs, h⟩ := bind_eq_ok_iff.1 h
  have hbuilt := Graph.built_lower hs
  split at h
  · cases h
  · rename_i slot hslot
    split at h
    · split at h
      · cases h
      · rename_i wrapper tape hpush
        cases h
        exact hbuilt.tail (.pushOp _ _ hpush)
    · cases h
      exact hbuilt

end Tape
end ReverseMode

import ReverseMode.Proofs.Lowering.Values
import ReverseMode.Proofs.Text.Decimal
import ReverseMode.Proofs.Text.Phrase

/-!
# Texts of terms

**Input.**  Two terms over the same variables that print alike.

**Argument.**  A term prints as a phrase, whose leaves are its numbers and its variables, and the
phrase has the value of the term.  Numbers are known by their texts, variables by their names, and
the phrase by its text if powers stand in powers on one side only.

**Results.**
* `Graph.toList_text`, `Graph.value_phrase`: the text and the value of a term are those of its
  phrase.
* `evaluate_eq_of_text_eq`: terms that print alike evaluate alike.
* `evaluate_ne_of_text_eq`: powers on both sides print alike and evaluate apart.
-/

namespace ReverseMode

open Text

section Meaning

variable {κ α ℓ : Type} [Scalar κ α]

/-- What parentheses make of the values of their parts. -/
def Text.Bracket.combine : Bracket α → List α → α
  | .sum, vs => vs.foldl (· + ·) 0
  | .product, [a, b] => a * b
  | .exp, [a] => Scalar.exp a
  | .ln, [a] => Scalar.ln a
  | .call _ f, vs => f vs
  | _, _ => Scalar.undefined

/-- The value of a phrase from the values of its leaves. -/
def Text.Phrase.value (x : ℓ → α) : Phrase α ℓ → α
  | leaf l => x l
  | group b ps => b.combine (ps.attach.map fun p => value x p.1)
  | power b e => Scalar.pow (value x b) (value x e)
termination_by p => sizeOf p
decreasing_by
  · have := List.sizeOf_lt_of_mem p.2
    simp only [group.sizeOf_spec]
    omega
  · simp only [power.sizeOf_spec]
    omega
  · simp only [power.sizeOf_spec]
    omega

theorem Text.Phrase.value_group (x : ℓ → α) (b : Bracket α) (ps : List (Phrase α ℓ)) :
    (group b ps).value x = b.combine (ps.map (value x)) := by
  rw [value, List.attach_map_val]

end Meaning

section Words

variable {c : Float} {s : String}

/-- A name as the characters that it has. -/
theorem cons_of_isName (h : isName s = true) :
    ∃ c cs, s.toList = c :: cs ∧ c.isDigit = false ∧ ∀ d ∈ c :: cs, isNameChar d = true := by
  rw [isName] at h
  split at h
  · cases h
  · rename_i c cs hs
    rw [Bool.and_eq_true, Bool.not_eq_true', List.all_eq_true] at h
    exact ⟨c, cs, hs, h.1, h.2⟩

theorem isWord_of_isName (h : isName s = true) : IsWord s.toList := by
  obtain ⟨c, cs, hs, -, hchars⟩ := cons_of_isName h
  rw [hs]
  refine ⟨List.cons_ne_nil c cs, ?_⟩
  intro d hd
  rw [isWordChar, hchars d hd]
  rfl

theorem isWord_plain (h : c.isFinite = true) : IsWord (Numeral.plain c).toList := by
  refine ⟨plain_ne_nil h, ?_⟩
  intro d hd
  rcases mem_plain h hd with hdigit | rfl | rfl
  · simp [isWordChar, isNameChar, Char.isAlphanum, hdigit]
  · rfl
  · rfl

/-- A number does not begin as a name does. -/
theorem plain_ne_name
    (hc : c.isFinite = true)
    (hs : isName s = true) :
    (Numeral.plain c).toList ≠ s.toList := by
  obtain ⟨d, ds, hs, hdigit, hchars⟩ := cons_of_isName hs
  intro h
  have hd : d ∈ (Numeral.plain c).toList := by
    rw [h, hs]
    exact List.mem_cons_self
  have hname := hchars d List.mem_cons_self
  rcases mem_plain hc hd with hd | rfl | rfl
  · rw [hd] at hdigit
    cases hdigit
  · exact absurd hname (by decide)
  · exact absurd hname (by decide)

end Words

/-- The leaves of a printed term: numbers and variables. -/
abbrev Leaf (τ : Type) : Type :=
  Float ⊕ τ

namespace Node

variable {τ ι : Type}

/-- Whether a node prints as a power. -/
def isPower {κ α : Type} : Node κ α ι → Bool
  | constPower _ _ | termPower _ _ => true
  | _ => false

/-- The phrase of a node from the phrases of its operands, where `t` stands for a variable. -/
def phrase (t : τ) : Node Float Float (Phrase Float (Leaf τ)) → Phrase Float (Leaf τ)
  | const c => .leaf (.inl c)
  | zero => .leaf (.inl 0)
  | var _ => .leaf (.inr t)
  | sum ps => .group .sum ps
  | product a b => .group .product [a, b]
  | constPower b k => .power b (.leaf (.inl k))
  | termPower b e => .power b e
  | exp a => .group .exp [a]
  | ln a => .group .ln [a]
  | unary f a => .group (.call (f.label.getD "unary").toList fun vs => f.eval (vs[0]?.getD 0)) [a]
  | binary f a b =>
      .group (.call (f.label.getD "binary").toList fun vs =>
        f.eval (vs[0]?.getD 0) (vs[1]?.getD 0)) [a, b]
  | nary f ps => .group (.call (f.label.getD "nary").toList f.eval) ps

theorem plain_zero : Numeral.plain (0 : Float) = "0" := by decide

variable {n : Node Float Float ι} {t : τ} {P : ι → Phrase Float (Leaf τ)}

theorem isPower_phrase (p : Node Float Float (Phrase Float (Leaf τ))) :
    (p.phrase t).isPower = p.isPower := by
  cases p <;> rfl

/-- A node whose operands print as their phrases prints as its phrase. -/
theorem toList_text
    {anonymous : String} {spell : Leaf τ → List Char} {T : ι → String}
    (hnumber : ∀ c, spell (.inl c) = (Numeral.plain c).toList)
    (hvariable : ∀ name, n = var name → spell (.inr t) = (name.getD anonymous).toList)
    (h : ∀ i ∈ n.operands, (T i).toList = (P i).chars spell) :
    ((n.mapOperands fun i _ => T i).text anonymous).toList =
      ((n.mapOperands fun i _ => P i).phrase t).chars spell := by
  cases n with
  | const c => simp [mapOperands, text, phrase, Phrase.chars, hnumber]
  | zero => simp [mapOperands, text, phrase, Phrase.chars, hnumber, plain_zero]
  | var name => simp [mapOperands, text, phrase, Phrase.chars, hvariable name rfl]
  | sum ts =>
      have h : ts.map (fun i => (T i).toList) = ts.map fun i => (P i).chars spell :=
        List.map_congr_left h
      simp [mapOperands, text, phrase, Phrase.chars_group, Bracket.head, Bracket.separator,
        Function.comp_def, h]
  | product a b =>
      simp [mapOperands, text, phrase, Phrase.chars_group, Bracket.head, Bracket.separator,
        h a (by simp [operands]), h b (by simp [operands])]
  | constPower b k =>
      simp [mapOperands, text, phrase, Phrase.chars, hnumber, h b (by simp [operands])]
  | termPower b e =>
      simp [mapOperands, text, phrase, Phrase.chars, h b (by simp [operands]),
        h e (by simp [operands])]
  | exp a | ln a | unary f a =>
      simp [mapOperands, text, phrase, Phrase.chars_group, Bracket.head, Bracket.separator,
        h a (by simp [operands])]
  | binary f a b =>
      simp [mapOperands, text, phrase, Phrase.chars_group, Bracket.head, Bracket.separator,
        h a (by simp [operands]), h b (by simp [operands])]
  | nary f ts =>
      have h : ts.map (fun i => (T i).toList) = ts.map fun i => (P i).chars spell :=
        List.map_congr_left h
      simp [mapOperands, text, phrase, Phrase.chars_group, Bracket.head, Bracket.separator,
        Function.comp_def, h]

/-- A node whose operands have the values of their phrases has the value of its phrase, if its
exponent, where it has a constant one, is raised to as any other scalar is. -/
theorem value_phrase
    {x : Float} {leaf : Leaf τ → Float} {V : ι → Float}
    (hnumber : ∀ c, leaf (.inl c) = c)
    (hvariable : leaf (.inr t) = x)
    (hpower : ∀ b k, n = constPower b k → ∀ v : Float, Scalar.constPower v k = Scalar.pow v k)
    (h : ∀ i ∈ n.operands, V i = (P i).value leaf) :
    (n.mapOperands fun i _ => V i).value x =
      ((n.mapOperands fun i _ => P i).phrase t).value leaf := by
  cases n with
  | const c => simp [mapOperands, value, phrase, Phrase.value, hnumber]
  | zero => simp [mapOperands, value, phrase, Phrase.value, hnumber]
  | var name => simp [mapOperands, value, phrase, Phrase.value, hvariable]
  | sum ts =>
      have h : ts.map V = ts.map fun i => (P i).value leaf := List.map_congr_left h
      simp [mapOperands, value, phrase, Phrase.value_group, Bracket.combine, Function.comp_def, h]
  | product a b =>
      simp [mapOperands, value, phrase, Phrase.value_group, Bracket.combine,
        h a (by simp [operands]), h b (by simp [operands])]
  | constPower b k =>
      simp [mapOperands, value, phrase, Phrase.value, hnumber, hpower b k rfl,
        h b (by simp [operands])]
  | termPower b e =>
      simp [mapOperands, value, phrase, Phrase.value, h b (by simp [operands]),
        h e (by simp [operands])]
  | exp a | ln a | unary f a =>
      simp [mapOperands, value, phrase, Phrase.value_group, Bracket.combine,
        h a (by simp [operands])]
  | binary f a b =>
      simp [mapOperands, value, phrase, Phrase.value_group, Bracket.combine,
        h a (by simp [operands]), h b (by simp [operands])]
  | nary f ts =>
      have h : ts.map V = ts.map fun i => (P i).value leaf := List.map_congr_left h
      simp [mapOperands, value, phrase, Phrase.value_group, Bracket.combine, Function.comp_def, h]

/-- Nodes that can be read back, by which of their operands are powers: finite numbers, variables
with a name, and operations of terms, where powers stand in powers on one side only. -/
def Readable (side : Side) : Node Float Float Bool → Prop
  | const c => c.isFinite = true
  | var name => ∃ s, name = some s ∧ isName s = true
  | constPower b _ => side.admits b false
  | termPower b e => side.admits b e
  | zero | sum _ | product _ _ | exp _ | ln _ => True
  | unary _ _ | binary _ _ _ | nary _ _ => False

/-- A node that can be read back and whose operands have legible phrases has one. -/
theorem legible_phrase
    {side : Side} {known : Leaf τ → Prop} {powers : ι → Bool}
    (hn : (n.mapOperands fun i _ => powers i).Readable side)
    (hrefusal : n.refusal? = none)
    (hnumber : ∀ c : Float, c.isFinite = true → known (.inl c))
    (hvariable : ∀ s, n = var (some s) → isName s = true → known (.inr t))
    (h : ∀ i ∈ n.operands, (P i).Legible side known ∧ (P i).isPower = powers i) :
    ((n.mapOperands fun i _ => P i).phrase t).Legible side known := by
  cases n with
  | const c => exact .leaf (hnumber c hn)
  | zero => exact .leaf (hnumber 0 (by decide))
  | var name =>
      obtain ⟨s, rfl, hs⟩ := hn
      exact .leaf (hvariable s rfl hs)
  | sum ts =>
      have hlength : 2 ≤ ts.length := by
        by_contra hlt
        rw [refusal?, if_neg hlt] at hrefusal
        cases hrefusal
      rw [mapOperands, List.attach_map_val]
      refine .group (by rw [List.length_map]; exact hlength) ?_
      intro p hp
      obtain ⟨i, hi, rfl⟩ := List.mem_map.1 hp
      exact (h i hi).1
  | product a b =>
      refine .group rfl ?_
      intro p hp
      rcases List.mem_pair.1 hp with rfl | rfl
      · exact (h a (by simp [operands])).1
      · exact (h b (by simp [operands])).1
  | constPower b k =>
      obtain ⟨hb, hpower⟩ := h b (by simp [operands])
      have hk : k.isFinite = true := by
        by_contra hinfinite
        have hvalid : Exponent.valid k = false := by
          change (k.isFinite && !(k == 0.0)) = false
          rw [Bool.not_eq_true] at hinfinite
          rw [hinfinite, Bool.false_and]
        rw [refusal?, hvalid] at hrefusal
        cases hrefusal
      refine .power ?_ hb (.leaf (hnumber k hk))
      rw [hpower]
      exact hn
  | termPower b e =>
      obtain ⟨hb, hbase⟩ := h b (by simp [operands])
      obtain ⟨he, hexponent⟩ := h e (by simp [operands])
      refine .power ?_ hb he
      rw [hbase, hexponent]
      exact hn
  | exp a | ln a =>
      refine .group rfl ?_
      intro p hp
      rw [List.mem_singleton.1 hp]
      exact (h a (by simp [operands])).1
  | unary | binary | nary => exact hn.elim

end Node

namespace Graph

variable {g : Graph Float Float} {anonymous : Nat → String} {side : Side} {vars : g.Term → Prop}
  {root t : g.Term}

section Phrases

/-- Whether a term prints as a power. -/
def isPower (g : Graph Float Float) (t : g.Term) : Bool :=
  (g.node t).isPower

/-- The phrase that a term prints as. -/
def phrase (g : Graph Float Float) : g.Term → Phrase Float (Leaf g.Term) :=
  g.fold fun t n => n.phrase t

/-- The text of a number, and the name of a variable. -/
def spell (g : Graph Float Float) (anonymous : Nat → String) : Leaf g.Term → List Char
  | .inl c => (Numeral.plain c).toList
  | .inr t =>
      match g.node t with
      | .var name => (name.getD (anonymous t)).toList
      | _ => []

theorem text_eq (anonymous : Nat → String) (t : g.Term) :
    g.text anonymous t =
      ((g.node t).mapOperands fun u _ => g.text anonymous u).text (anonymous t) := by
  exact g.fold_eq _ t

theorem phrase_eq (t : g.Term) :
    g.phrase t = ((g.node t).mapOperands fun u _ => g.phrase u).phrase t := by
  exact g.fold_eq _ t

theorem toList_text (anonymous : Nat → String) (t : g.Term) :
    (g.text anonymous t).toList = (g.phrase t).chars (g.spell anonymous) := by
  induction t using operands_induction with
  | h t ih =>
      rw [text_eq, phrase_eq]
      apply Node.toList_text (fun c => rfl) _ ih
      intro name hname
      simp only [spell, hname]

/-- The value of a leaf where those of the variables are known. -/
def leafValue (x : g.Term → Float) : Leaf g.Term → Float
  | .inl c => c
  | .inr t => x t

/-- The value of a term is that of its phrase. -/
theorem value_phrase
    (x : g.Term → Float)
    (hpower : ∀ t b k, g.Reaches root t → g.node t = .constPower b k →
      ∀ v : Float, Scalar.constPower v k = Scalar.pow v k) :
    g.value x root = (g.phrase root).value (leafValue x) := by
  induction root using operands_induction with
  | h t ih =>
      rw [value_eq, phrase_eq]
      refine Node.value_phrase (fun c => rfl) (rfl : leafValue x (.inr t) = x t)
        (fun b k hk => hpower t b k .refl hk) ?_
      intro u hu
      exact ih u hu fun s b k hs => hpower s b k (.head hu hs)

theorem isPower_phrase (t : g.Term) : (g.phrase t).isPower = g.isPower t := by
  rw [phrase_eq, Node.isPower_phrase, isPower]
  generalize g.node t = n
  cases n <;> rfl

end Phrases

section Legibility

/-- A term whose text can be read back: every node under it can be. -/
def Readable (g : Graph Float Float) (side : Side) (root : g.Term) : Prop :=
  ∀ t, g.Reaches root t → ((g.node t).mapOperands fun u _ => g.isPower u).Readable side

/-- The leaves that texts tell apart: finite numbers, and named variables among some terms. -/
def Known (g : Graph Float Float) (vars : g.Term → Prop) : Leaf g.Term → Prop
  | .inl c => c.isFinite = true
  | .inr t => vars t ∧ ∃ s, g.node t = .var (some s) ∧ isName s = true

theorem legible_phrase
    (hroot : g.Readable side root)
    (hvars : ∀ t, g.Reaches root t → vars t) :
    (g.phrase root).Legible side (g.Known vars) := by
  induction root using operands_induction with
  | h t ih =>
      rw [phrase_eq]
      refine Node.legible_phrase (hroot t .refl) (refusal?_node t) (fun c hc => hc)
        (fun s hs hname => ⟨hvars t .refl, s, hs, hname⟩) ?_
      intro u hu
      exact ⟨ih u hu (fun s hs => hroot s (.head hu hs)) fun s hs => hvars s (.head hu hs),
        isPower_phrase u⟩

/-- The spelling of finite numbers and of variables with names of their own. -/
theorem spells_known
    (hnames : ∀ t u s, vars t → vars u → g.node t = .var (some s) → g.node u = .var (some s) →
      t = u) :
    Phrase.Spells (g.Known vars) (g.spell anonymous) := by
  constructor
  · rintro (c | t) h
    · exact isWord_plain h
    · obtain ⟨-, s, hs, hname⟩ := h
      simp only [spell, hs]
      exact isWord_of_isName hname
  · rintro (c | t) (d | u) ht hu h
    · rw [plain_injective ht hu (String.toList_inj.1 h)]
    · obtain ⟨-, s, hs, hname⟩ := hu
      simp only [spell, hs] at h
      exact absurd h (plain_ne_name ht hname)
    · obtain ⟨-, s, hs, hname⟩ := ht
      simp only [spell, hs] at h
      exact absurd h.symm (plain_ne_name hu hname)
    · obtain ⟨htv, s, hs, hname⟩ := ht
      obtain ⟨huv, s', hs', hname'⟩ := hu
      simp only [spell, hs, hs'] at h
      obtain rfl : s = s' := String.toList_inj.1 h
      rw [hnames t u s htv huv hs hs']

/-- Terms that print alike have the same value wherever the variables have the same values. -/
theorem value_eq_of_text_eq
    {a b : g.Term}
    (ha : g.Readable side a)
    (hb : g.Readable side b)
    (hnames : ∀ t u s, g.Reaches a t ∨ g.Reaches b t → g.Reaches a u ∨ g.Reaches b u →
      g.node t = .var (some s) → g.node u = .var (some s) → t = u)
    (hone : ∀ t c k, g.Reaches a t ∨ g.Reaches b t → g.node t = .constPower c k →
      Exponent.isOne k = true → ∀ v : Float, Scalar.pow v k = v)
    (htext : g.text anonymous a = g.text anonymous b)
    (x : g.Term → Float) :
    g.value x a = g.value x b := by
  have hspells : Phrase.Spells (g.Known fun t => g.Reaches a t ∨ g.Reaches b t)
      (g.spell anonymous) := spells_known hnames
  have hphrase : g.phrase a = g.phrase b := by
    apply (legible_phrase ha fun t => .inl).chars_inj hspells (legible_phrase hb fun t => .inr)
    rw [← toList_text, ← toList_text, htext]
  have hpower : ∀ t c k, g.Reaches a t ∨ g.Reaches b t → g.node t = .constPower c k →
      ∀ v : Float, Scalar.constPower v k = Scalar.pow v k := by
    intro t c k ht hk v
    rw [Scalar.constPower]
    split
    · exact (hone t c k ht hk ‹_› v).symm
    · rfl
  rw [value_phrase x fun t c k ht => hpower t c k (.inl ht),
    value_phrase x fun t c k ht => hpower t c k (.inr ht), hphrase]

end Legibility

/-- The terms `x ^ 2 + exp(x)` over the scalar 2 and over the constant exponent 2. -/
def squares : Graph Float Float where
  nodes := #[.var (some "x"), .const 2.0, .termPower 0 1, .constPower 0 2.0, .exp 0, .sum [2, 4],
    .sum [3, 4]]
  node_ok := by decide

def squares.x : squares.Variable := ⟨⟨0, by decide⟩, by cbv⟩

def squares.scalarSum : squares.Term := ⟨5, by decide⟩

def squares.constSum : squares.Term := ⟨6, by decide⟩

theorem eq_x_of_isVariable_squares :
    ∀ t : squares.Term, squares.isVariable t = true → t = squares.x.1 := by
  decide

theorem eq_x_of_node_squares
    {t : squares.Term} {name : Option String}
    (h : squares.node t = .var name) :
    t = squares.x.1 := by
  apply eq_x_of_isVariable_squares
  rw [isVariable, h]
  rfl

theorem not_isOne_of_node_squares
    {t b : squares.Term} {k : Float}
    (h : squares.node t = .constPower b k) :
    Exponent.isOne k = false := by
  have hnode : ∀ t : squares.Term,
      (match squares.node t with
        | .constPower _ k => Exponent.isOne k
        | _ => false) = false := by decide
  have hnode := hnode t
  rw [h] at hnode
  exact hnode

theorem lowerable_squares (root : squares.Term) : squares.Lowerable root [squares.x] := by
  apply lowerable_of_graph_fits
  · simp
  · rintro ⟨t, ht⟩
    simp [eq_x_of_isVariable_squares t ht]
  · decide
  · decide

theorem readable_squares (root : squares.Term) : squares.Readable .base root := by
  rintro ⟨_ | _ | _ | _ | _ | _ | _ | t, ht⟩ -
  · exact ⟨"x", rfl, by decide⟩
  · exact (by decide : Float.isFinite 2.0 = true)
  · exact (rfl : squares.isPower ⟨1, by decide⟩ = false)
  · exact (rfl : false = false)
  · trivial
  · trivial
  · trivial
  · have hsize : squares.size = 7 := rfl
    omega

theorem text_squares (anonymous : Nat → String) :
    squares.text anonymous squares.scalarSum = squares.text anonymous squares.constSum := by
  have hscalar : squares.text anonymous ⟨1, by decide⟩ = Numeral.plain (2.0 : Float) :=
    text_eq _ _
  have hpower : squares.text anonymous ⟨2, by decide⟩ = squares.text anonymous ⟨3, by decide⟩ := by
    calc
      squares.text anonymous ⟨2, by decide⟩ = squares.text anonymous squares.x.1 ++ "^" ++
          squares.text anonymous ⟨1, by decide⟩ := text_eq _ _
      _ = squares.text anonymous squares.x.1 ++ "^" ++ Numeral.plain (2.0 : Float) := by
        rw [hscalar]
      _ = squares.text anonymous ⟨3, by decide⟩ :=
        (text_eq (g := squares) anonymous ⟨3, by decide⟩).symm
  calc
    squares.text anonymous squares.scalarSum = "(" ++ String.intercalate " + "
        [squares.text anonymous ⟨2, by decide⟩, squares.text anonymous ⟨4, by decide⟩] ++ ")" :=
      text_eq _ _
    _ = "(" ++ String.intercalate " + "
        [squares.text anonymous ⟨3, by decide⟩, squares.text anonymous ⟨4, by decide⟩] ++ ")" := by
      rw [hpower]
    _ = squares.text anonymous squares.constSum := (text_eq anonymous squares.constSum).symm

/-- Binary64 with a power that multiplies, for exponents that are whole numbers. -/
abbrev wholePowers : Scalar Float Float where
  recip a := 1.0 / a
  pow a b := (List.replicate b.toUInt64.toNat a).foldl (· * ·) 1.0
  powConst a k := (List.replicate k.toUInt64.toNat a).foldl (· * ·) 1.0
  ofExponent k := k
  exp := Float.exp
  ln := Float.log
  undefined := 0.0 / 0.0

/-- The terms `(x ^ 2) ^ 3` and `x ^ (2 ^ 3)`. -/
def nestedPowers : Graph Float Float where
  nodes := #[.var (some "x"), .constPower 0 2.0, .constPower 1 3.0, .const 2.0, .constPower 3 3.0,
    .termPower 0 4]
  node_ok := by decide

def nestedPowers.x : nestedPowers.Variable := ⟨⟨0, by decide⟩, by cbv⟩

theorem lowerable_nestedPowers (root : nestedPowers.Term) :
    nestedPowers.Lowerable root [nestedPowers.x] := by
  have hvars : ∀ t : nestedPowers.Term, nestedPowers.isVariable t = true →
      t = nestedPowers.x.1 := by decide
  apply lowerable_of_graph_fits
  · simp
  · rintro ⟨t, ht⟩
    exact List.mem_singleton.2 (Subtype.ext (hvars t ht))
  · decide
  · decide

end Graph

namespace Tape

open ReverseMode.Graph

/-- Terms that print alike evaluate alike, where powers stand in powers on one side only and the
power 1 of a number is the number. -/
theorem evaluate_eq_of_text_eq
    {g : Graph Float Float} {a b : g.Term} {vs : List g.Variable} {anonymous : Nat → String}
    {side : Side}
    (hla : g.Lowerable a vs)
    (hlb : g.Lowerable b vs)
    (ha : g.Readable side a)
    (hb : g.Readable side b)
    (hnames : ∀ t u s, g.Reaches a t ∨ g.Reaches b t → g.Reaches a u ∨ g.Reaches b u →
      g.node t = .var (some s) → g.node u = .var (some s) → t = u)
    (hone : ∀ t c k, g.Reaches a t ∨ g.Reaches b t → g.node t = .constPower c k →
      Exponent.isOne k = true → ∀ v : Float, Scalar.pow v k = v)
    (htext : g.text anonymous a = g.text anonymous b) :
    ∃ l l', ofTerm g a vs = .ok l ∧ ofTerm g b vs = .ok l' ∧
      ∀ point : List Float, point.length = vs.length →
        (l.tape.evaluate point).1 = .ok (g.value (g.assign vs point) a) ∧
        (l'.tape.evaluate point).1 = (l.tape.evaluate point).1 := by
  obtain ⟨l, hofTerm, hvalue⟩ := exists_evaluate_eq_value hla
  obtain ⟨l', hofTerm', hvalue'⟩ := exists_evaluate_eq_value hlb
  refine ⟨l, l', hofTerm, hofTerm', ?_⟩
  intro point hp
  refine ⟨hvalue point hp, ?_⟩
  rw [hvalue point hp, hvalue' point hp, value_eq_of_text_eq ha hb hnames hone htext]

/-- `x^2 + exp(x)` at 3, with either kind of exponent. -/
theorem evaluate_eq_of_text_eq_squares :
    squares.Lowerable squares.scalarSum [squares.x] ∧
      squares.Lowerable squares.constSum [squares.x] ∧
      squares.Readable .base squares.scalarSum ∧ squares.Readable .base squares.constSum ∧
      squares.text (fun _ => "v") squares.scalarSum = squares.text (fun _ => "v") squares.constSum ∧
      ∃ l l', ofTerm squares squares.scalarSum [squares.x] = .ok l ∧
        ofTerm squares squares.constSum [squares.x] = .ok l' ∧
        (l.tape.evaluate [3.0]).1 =
          .ok (squares.value (squares.assign [squares.x] [3.0]) squares.scalarSum) ∧
        (l'.tape.evaluate [3.0]).1 = (l.tape.evaluate [3.0]).1 := by
  have hnames : ∀ t u s, squares.Reaches squares.scalarSum t ∨ squares.Reaches squares.constSum t →
      squares.Reaches squares.scalarSum u ∨ squares.Reaches squares.constSum u →
      squares.node t = .var (some s) → squares.node u = .var (some s) → t = u := by
    intro t u s _ _ ht hu
    rw [eq_x_of_node_squares ht, eq_x_of_node_squares hu]
  have hone : ∀ t c k, squares.Reaches squares.scalarSum t ∨ squares.Reaches squares.constSum t →
      squares.node t = .constPower c k → Exponent.isOne k = true →
      ∀ v : Float, Scalar.pow v k = v := by
    intro t c k _ hk hone
    rw [not_isOne_of_node_squares hk] at hone
    cases hone
  obtain ⟨l, l', hl, hl', h⟩ := evaluate_eq_of_text_eq (lowerable_squares _)
    (lowerable_squares _) (readable_squares _) (readable_squares _) hnames hone
    (text_squares fun _ => "v")
  exact ⟨lowerable_squares _, lowerable_squares _, readable_squares _, readable_squares _,
    text_squares fun _ => "v", l, l', hl, hl', h [3.0] rfl⟩

/-- The terms `(x ^ 2) ^ 3` and `x ^ (2 ^ 3)` print alike, and at 2 they are 64 and 256. -/
theorem evaluate_ne_of_text_eq :
    nestedPowers.text (fun _ => "v") ⟨2, by decide⟩ = "x^2^3" ∧
      nestedPowers.text (fun _ => "v") ⟨5, by decide⟩ = "x^2^3" ∧
      ∃ l l', @ofTerm _ _ _ wholePowers nestedPowers ⟨2, by decide⟩ [nestedPowers.x] = .ok l ∧
        @ofTerm _ _ _ wholePowers nestedPowers ⟨5, by decide⟩ [nestedPowers.x] = .ok l' ∧
        (@evaluate _ _ _ wholePowers [2.0] l.tape).1 = .ok 64.0 ∧
        (@evaluate _ _ _ wholePowers [2.0] l'.tape).1 = .ok 256.0 := by
  obtain ⟨l, hl, hvalue⟩ :=
    @exists_evaluate_eq_value _ _ _ wholePowers _ _ _ (lowerable_nestedPowers ⟨2, by decide⟩)
  obtain ⟨l', hl', hvalue'⟩ :=
    @exists_evaluate_eq_value _ _ _ wholePowers _ _ _ (lowerable_nestedPowers ⟨5, by decide⟩)
  have hleft : @Graph.value _ _ _ wholePowers nestedPowers
      (@Graph.assign _ _ _ wholePowers nestedPowers [nestedPowers.x] [2.0]) ⟨2, by decide⟩ =
        64.0 := by
    decide +kernel
  have hright : @Graph.value _ _ _ wholePowers nestedPowers
      (@Graph.assign _ _ _ wholePowers nestedPowers [nestedPowers.x] [2.0]) ⟨5, by decide⟩ =
        256.0 := by
    decide +kernel
  refine ⟨by decide +kernel, by decide +kernel, l, l', hl, hl', ?_, ?_⟩
  · rw [hvalue [2.0] rfl, hleft]
  · rw [hvalue' [2.0] rfl, hright]

end Tape
end ReverseMode

import Mathlib

/-!
# Reading printed expressions back

**Input.**  A phrase: leaves that are spelled as words, groups in parentheses, and powers, which
have none.

**Argument.**  A phrase is its *spine*, the leaves and groups that its powers join, written with a
caret between each two.  A leaf or a group can be split off a text from the left: a word ends
before the first character that no word has, and a parenthesis after it starts a group.  So a text
determines the spine, by induction on the phrase.  The spine determines the phrase once it is
known on which side powers may stand in powers.

**Results.**
* `Legible.spine_inj`: a phrase whose powers nest on one side only is known by its spine.
* `Legible.reads`: two such phrases with the same text are the same phrase, whatever text comes
  after them that begins with a blank or a closing parenthesis.
-/

namespace ReverseMode
namespace Text

section Characters

/-- The characters of names: letters, digits and the underscore, and whatever is not ASCII. -/
def isNameChar (c : Char) : Bool :=
  c.isAlphanum || c == '_' || 0x80 ≤ c.toNat

/-- A name has a character, does not begin with a digit, and holds characters of names only. -/
def isName (s : String) : Bool :=
  match s.toList with
  | [] => false
  | c :: cs => !c.isDigit && (c :: cs).all isNameChar

/-- The characters of names and of numbers. -/
def isWordChar (c : Char) : Bool :=
  isNameChar c || c == '.' || c == '-'

/-- One or more characters of names and numbers. -/
def IsWord (cs : List Char) : Prop :=
  cs ≠ [] ∧ ∀ c ∈ cs, isWordChar c = true

/-- A text is over, or goes on with one of some characters. -/
def GoesOn (marks : List Char) (r : List Char) : Prop :=
  ∀ c ∈ r.head?, c ∈ marks

variable {marks r s : List Char}

theorem GoesOn.mono
    {more : List Char}
    (h : GoesOn marks r)
    (hsub : marks ⊆ more) :
    GoesOn more r :=
  fun c hc => hsub (h c hc)

theorem goesOn_cons {c : Char} (h : c ∈ marks) (r : List Char) : GoesOn marks (c :: r) := by
  intro d hd
  obtain rfl : c = d := by simpa using hd
  exact h

/-- What stands between words. -/
def marksOfWord : List Char := ['^', ' ', ')', '(']

theorem isWordChar_of_mark {c : Char} (h : c ∈ marksOfWord) : isWordChar c = false := by
  simp only [marksOfWord, List.mem_cons, List.not_mem_nil, or_false] at h
  rcases h with rfl | rfl | rfl | rfl <;> rfl

theorem takeWhile_of_goesOn
    (h : GoesOn marksOfWord r) :
    r.takeWhile isWordChar = [] := by
  cases r with
  | nil => rfl
  | cons c r =>
      rw [List.takeWhile_cons_of_neg]
      rw [isWordChar_of_mark (h c rfl)]
      exact Bool.false_ne_true

/-- A word ends before the first character that no word has. -/
theorem word_append_inj
    {cs ds : List Char}
    (hcs : ∀ c ∈ cs, isWordChar c = true)
    (hds : ∀ c ∈ ds, isWordChar c = true)
    (hr : GoesOn marksOfWord r)
    (hs : GoesOn marksOfWord s)
    (h : cs ++ r = ds ++ s) :
    cs = ds ∧ r = s := by
  have htake := congrArg (List.takeWhile isWordChar) h
  rw [List.takeWhile_append_of_pos hcs, List.takeWhile_append_of_pos hds,
    takeWhile_of_goesOn hr, takeWhile_of_goesOn hs, List.append_nil, List.append_nil] at htake
  refine ⟨htake, ?_⟩
  rw [htake] at h
  exact List.append_cancel_left h

end Characters

section Separated

variable {β : Type} {f : β → List Char} {c : Char} {sep : List Char} {marks r s : List Char}
  {x y : β} {xs ys : List β}

/-- Texts with a separator between each two, taken apart after the first. -/
theorem intercalate_cons (sep : List Char) (f : β → List Char) (x : β) (xs : List β) :
    sep.intercalate ((x :: xs).map f) = f x ++ xs.flatMap fun y => sep ++ f y := by
  induction xs generalizing x with
  | nil => simp
  | cons y ys ih =>
      rw [List.map_cons, List.map_cons, List.intercalate_cons_cons, ← List.map_cons, ih y,
        List.flatMap_cons, List.append_assoc, List.append_assoc]

/-- Each of some texts can be split off before a separator or an end. -/
def SplitOff (f : β → List Char) (marks : List Char) (xs ys : List β) : Prop :=
  ∀ x ∈ xs, ∀ y ∈ ys, ∀ r s, GoesOn marks r → GoesOn marks s →
    f x ++ r = f y ++ s → x = y ∧ r = s

theorem SplitOff.tail (h : SplitOff f marks (x :: xs) (y :: ys)) : SplitOff f marks xs ys :=
  fun a ha b hb => h a (List.mem_cons_of_mem x ha) b (List.mem_cons_of_mem y hb)

theorem goesOn_flatMap_append
    (hr : GoesOn marks r) :
    GoesOn (c :: marks) ((xs.flatMap fun x => c :: sep ++ f x) ++ r) := by
  cases xs with
  | nil => exact hr.mono (List.subset_cons_self c marks)
  | cons x xs => exact goesOn_cons List.mem_cons_self _

/-- Texts that a separator introduces can be split off if each of them can. -/
theorem SplitOff.flatMap_append_inj
    (hsplit : SplitOff f (c :: marks) xs ys)
    (hc : c ∉ marks)
    (hr : GoesOn marks r)
    (hs : GoesOn marks s)
    (h : (xs.flatMap fun x => c :: sep ++ f x) ++ r = (ys.flatMap fun y => c :: sep ++ f y) ++ s) :
    xs = ys ∧ r = s := by
  induction xs generalizing ys with
  | nil =>
      cases ys with
      | nil => exact ⟨rfl, h⟩
      | cons y ys =>
          rw [List.flatMap_nil, List.nil_append] at h
          exact absurd (hr c (by rw [h]; rfl)) hc
  | cons x xs ih =>
      cases ys with
      | nil =>
          rw [List.flatMap_nil, List.nil_append] at h
          exact absurd (hs c (by rw [← h]; rfl)) hc
      | cons y ys =>
          rw [List.flatMap_cons, List.flatMap_cons, List.append_assoc, List.append_assoc,
            List.append_assoc, List.append_assoc] at h
          obtain ⟨rfl, hrest⟩ := hsplit x List.mem_cons_self y List.mem_cons_self _ _
            (goesOn_flatMap_append hr) (goesOn_flatMap_append hs) (List.append_cancel_left h)
          obtain ⟨rfl, rfl⟩ := ih hsplit.tail hrest
          exact ⟨rfl, rfl⟩

/-- Texts with a separator between each two can be split off if each of them can. -/
theorem SplitOff.intercalate_append_inj
    (hsplit : SplitOff f (c :: marks) xs ys)
    (hc : c ∉ marks)
    (hr : GoesOn marks r)
    (hs : GoesOn marks s)
    (hxs : xs ≠ [])
    (hys : ys ≠ [])
    (h : (c :: sep).intercalate (xs.map f) ++ r = (c :: sep).intercalate (ys.map f) ++ s) :
    xs = ys ∧ r = s := by
  obtain ⟨x, xs, rfl⟩ := List.exists_cons_of_ne_nil hxs
  obtain ⟨y, ys, rfl⟩ := List.exists_cons_of_ne_nil hys
  rw [intercalate_cons, intercalate_cons, List.append_assoc, List.append_assoc] at h
  obtain ⟨rfl, hrest⟩ := hsplit x List.mem_cons_self y List.mem_cons_self _ _
    (goesOn_flatMap_append hr) (goesOn_flatMap_append hs) h
  obtain ⟨rfl, rfl⟩ := hsplit.tail.flatMap_append_inj hc hr hs hrest
  exact ⟨rfl, rfl⟩

/-- Two or more texts show what stands between them. -/
theorem SplitOff.separator_eq
    {d d' : Char} {sep' : List Char}
    (hsplit : SplitOff f (c :: marks) xs ys)
    (hxs : 2 ≤ xs.length)
    (hys : 2 ≤ ys.length)
    (h : (c :: d :: sep).intercalate (xs.map f) ++ r =
      (c :: d' :: sep').intercalate (ys.map f) ++ s) :
    d = d' := by
  obtain ⟨x, x', xs, rfl⟩ : ∃ x x' zs, xs = x :: x' :: zs := by
    match xs, hxs with
    | x :: x' :: zs, _ => exact ⟨x, x', zs, rfl⟩
  obtain ⟨y, y', ys, rfl⟩ : ∃ y y' zs, ys = y :: y' :: zs := by
    match ys, hys with
    | y :: y' :: zs, _ => exact ⟨y, y', zs, rfl⟩
  rw [intercalate_cons, intercalate_cons, List.append_assoc, List.append_assoc] at h
  obtain ⟨-, hrest⟩ := hsplit x List.mem_cons_self y List.mem_cons_self _ _
    (goesOn_cons List.mem_cons_self _) (goesOn_cons List.mem_cons_self _) h
  injection hrest with _ hrest
  injection hrest

/-- One text has nothing beside it. -/
theorem SplitOff.singleton_append_inj
    (hsplit : SplitOff f marks xs ys)
    (hr : GoesOn marks r)
    (hs : GoesOn marks s)
    (hxs : xs.length = 1)
    (hys : ys.length = 1)
    (h : sep.intercalate (xs.map f) ++ r = sep.intercalate (ys.map f) ++ s) :
    xs = ys ∧ r = s := by
  obtain ⟨x, rfl⟩ := List.length_eq_one_iff.1 hxs
  obtain ⟨y, rfl⟩ := List.length_eq_one_iff.1 hys
  rw [List.map_singleton, List.map_singleton, List.intercalate_singleton,
    List.intercalate_singleton] at h
  obtain ⟨rfl, rfl⟩ := hsplit x (by simp) y (by simp) r s hr hs h
  exact ⟨rfl, rfl⟩

theorem intercalate_append
    {xs ys : List (List Char)}
    (sep : List Char)
    (hxs : xs ≠ [])
    (hys : ys ≠ []) :
    sep.intercalate (xs ++ ys) = sep.intercalate xs ++ (sep ++ sep.intercalate ys) := by
  induction xs with
  | nil => exact absurd rfl hxs
  | cons x xs ih =>
      cases xs with
      | nil =>
          rw [List.cons_append, List.nil_append, List.intercalate_cons_of_ne_nil hys,
            List.intercalate_singleton, List.append_assoc]
      | cons x' xs =>
          rw [List.cons_append, List.intercalate_cons_of_ne_nil (by simp),
            ih (List.cons_ne_nil _ _), List.intercalate_cons_cons, ← List.append_assoc]

end Separated

/-- What a pair of parentheses stands for. -/
inductive Bracket (α : Type) where
  | sum
  | product
  | exp
  | ln
  /-- A function that is not one of the operations of terms. -/
  | call (label : List Char) (f : List α → α)

namespace Bracket

variable {α : Type}

/-- The word before the parentheses. -/
def head : Bracket α → List Char
  | sum | product => []
  | exp => ['e', 'x', 'p']
  | ln => ['l', 'n']
  | call label _ => label

/-- What stands between two parts. -/
def separator : Bracket α → List Char
  | sum => [' ', '+', ' ']
  | product => [' ', '*', ' ']
  | exp | ln | call _ _ => [',', ' ']

/-- The numbers of parts that the operations of terms have.  Calls are not among them. -/
def admits : Bracket α → Nat → Prop
  | sum, n => 2 ≤ n
  | product, n => n = 2
  | exp, n | ln, n => n = 1
  | call _ _, _ => False

end Bracket

/-- A printed expression, with leaves in `ℓ`. -/
inductive Phrase (α ℓ : Type) where
  | leaf (x : ℓ)
  | group (b : Bracket α) (parts : List (Phrase α ℓ))
  | power (base exponent : Phrase α ℓ)

/-- The side of a power on which another power may stand. -/
inductive Side where
  | base
  | exponent
deriving DecidableEq

/-- Whether a power may have the operands that it has, by which of them are powers. -/
def Side.admits : Side → Bool → Bool → Prop
  | .base, _, exponentIsPower => exponentIsPower = false
  | .exponent, baseIsPower, _ => baseIsPower = false

namespace Phrase

variable {α ℓ : Type}

def isPower : Phrase α ℓ → Bool
  | power _ _ => true
  | _ => false

/-- The text of a phrase whose leaves are spelled in a given way. -/
def chars (spell : ℓ → List Char) : Phrase α ℓ → List Char
  | leaf x => spell x
  | group b ps =>
      b.head ++ '(' :: b.separator.intercalate (ps.attach.map fun p => chars spell p.1) ++ [')']
  | power b e => chars spell b ++ '^' :: chars spell e
termination_by p => sizeOf p
decreasing_by
  · have := List.sizeOf_lt_of_mem p.2
    simp only [group.sizeOf_spec]
    omega
  · simp only [power.sizeOf_spec]
    omega
  · simp only [power.sizeOf_spec]
    omega

/-- The leaves and groups that powers join, from left to right. -/
def spine : Phrase α ℓ → List (Phrase α ℓ)
  | power b e => spine b ++ spine e
  | leaf x => [leaf x]
  | group b ps => [group b ps]

/-- The phrases that texts can tell apart: their leaves are among those that their spelling tells
apart, their groups are operations of terms, and their powers nest on one side. -/
inductive Legible (side : Side) (known : ℓ → Prop) : Phrase α ℓ → Prop where
  | leaf {x : ℓ}
      (hx : known x) :
      Legible side known (leaf x)
  | group {b : Bracket α} {parts : List (Phrase α ℓ)}
      (hb : b.admits parts.length)
      (hparts : ∀ p ∈ parts, Legible side known p) :
      Legible side known (group b parts)
  | power {b e : Phrase α ℓ}
      (hside : side.admits b.isPower e.isPower)
      (hb : Legible side known b)
      (he : Legible side known e) :
      Legible side known (power b e)

section Spines

variable {side : Side} {known : ℓ → Prop} {p q : Phrase α ℓ}

theorem spine_ne_nil (p : Phrase α ℓ) : p.spine ≠ [] := by
  cases p with
  | leaf x => simp [spine]
  | group b ps => simp [spine]
  | power b e =>
      rw [spine]
      exact List.append_ne_nil_of_left_ne_nil (spine_ne_nil b) _

theorem spine_of_isPower_eq_false
    (h : p.isPower = false) :
    p.spine = [p] := by
  cases p with
  | power b e => cases h
  | _ => rfl

theorem length_spine_of_isPower
    (h : p.isPower = true) :
    2 ≤ p.spine.length := by
  cases p with
  | power b e =>
      have hb := List.length_pos_of_ne_nil (spine_ne_nil b)
      have he := List.length_pos_of_ne_nil (spine_ne_nil e)
      rw [spine, List.length_append]
      omega
  | _ => cases h

/-- What a spine joins is legible if the phrase is, and is no power. -/
theorem Legible.of_mem_spine
    (h : Legible side known p)
    (hq : q ∈ p.spine) :
    Legible side known q ∧ q.isPower = false := by
  induction h with
  | leaf hx =>
      obtain rfl := List.mem_singleton.1 hq
      exact ⟨.leaf hx, rfl⟩
  | group hb hparts =>
      obtain rfl := List.mem_singleton.1 hq
      exact ⟨.group hb hparts, rfl⟩
  | power hside hb he ihb ihe =>
      rcases List.mem_append.1 hq with hq | hq
      · exact ihb hq
      · exact ihe hq

/-- A phrase is a power exactly if its spine joins something. -/
theorem isPower_eq_of_spine_eq (h : p.spine = q.spine) : p.isPower = q.isPower := by
  have hp : p.isPower = true ↔ 2 ≤ p.spine.length := by
    cases hpower : p.isPower
    · simp [spine_of_isPower_eq_false hpower]
    · simp [length_spine_of_isPower hpower]
  have hq : q.isPower = true ↔ 2 ≤ q.spine.length := by
    cases hpower : q.isPower
    · simp [spine_of_isPower_eq_false hpower]
    · simp [length_spine_of_isPower hpower]
  rw [Bool.eq_iff_iff, hp, hq, h]

/-- A phrase whose powers nest on one side only is known by its spine. -/
theorem Legible.spine_inj
    (hp : Legible side known p)
    (hq : Legible side known q)
    (h : p.spine = q.spine) :
    p = q := by
  have hpower := isPower_eq_of_spine_eq h
  induction hp generalizing q with
  | leaf hx =>
      rw [spine_of_isPower_eq_false hpower.symm] at h
      exact List.singleton_inj.1 h
  | group hb hparts =>
      rw [spine_of_isPower_eq_false hpower.symm] at h
      exact List.singleton_inj.1 h
  | @power b e hside hb he ihb ihe =>
      cases hq with
      | leaf hx => cases hpower
      | group hb hparts => cases hpower
      | @power b' e' hside' hb' he' =>
          rw [spine, spine] at h
          cases side with
          | base =>
              rw [spine_of_isPower_eq_false hside, spine_of_isPower_eq_false hside'] at h
              obtain ⟨hbase, hexponent⟩ := List.append_inj' h rfl
              rw [ihb hb' hbase (isPower_eq_of_spine_eq hbase), List.singleton_inj.1 hexponent]
          | exponent =>
              rw [spine_of_isPower_eq_false hside, spine_of_isPower_eq_false hside'] at h
              obtain ⟨hbase, hexponent⟩ := List.append_inj h rfl
              rw [ihe he' hexponent (isPower_eq_of_spine_eq hexponent),
                List.singleton_inj.1 hbase]

end Spines

section Reading

variable {side : Side} {known : ℓ → Prop} {spell : ℓ → List Char} {p q : Phrase α ℓ}
  {r s : List Char}

/-- What a phrase is followed by inside a text. -/
def marksOfPhrase : List Char := [' ', ')']

theorem chars_group (b : Bracket α) (ps : List (Phrase α ℓ)) :
    (group b ps).chars spell =
      b.head ++ '(' :: b.separator.intercalate (ps.map (chars spell)) ++ [')'] := by
  rw [chars, List.attach_map_val]

/-- The text of a phrase is its spine, with a caret between each two. -/
theorem chars_eq_intercalate_spine (p : Phrase α ℓ) :
    p.chars spell = ['^'].intercalate (p.spine.map (chars spell)) := by
  cases p with
  | leaf x => simp [spine]
  | group b ps => simp [spine]
  | power b e =>
      have hb : b.spine.map (chars spell) ≠ [] := List.map_eq_nil_iff.not.2 (spine_ne_nil b)
      have he : e.spine.map (chars spell) ≠ [] := List.map_eq_nil_iff.not.2 (spine_ne_nil e)
      rw [chars, spine, List.map_append, intercalate_append _ hb he,
        ← chars_eq_intercalate_spine b, ← chars_eq_intercalate_spine e]
      rfl

/-- Leaves are spelled as words, and no two alike. -/
structure Spells (known : ℓ → Prop) (spell : ℓ → List Char) : Prop where
  word : ∀ x, known x → IsWord (spell x)
  inj : ∀ x y, known x → known y → spell x = spell y → x = y

/-- A text tells a phrase, and where it ends. -/
def Reads (side : Side) (known : ℓ → Prop) (spell : ℓ → List Char) (p : Phrase α ℓ) : Prop :=
  ∀ q r s, Legible side known q → GoesOn marksOfPhrase r → GoesOn marksOfPhrase s →
    p.chars spell ++ r = q.chars spell ++ s → p = q ∧ r = s

theorem isWordChar_of_mem_head
    {b : Bracket α} {n : Nat}
    (h : b.admits n) :
    ∀ c ∈ b.head, isWordChar c = true := by
  cases b with
  | sum | product => simp [Bracket.head]
  | exp | ln => simp [Bracket.head, isWordChar, isNameChar]
  | call label f => exact absurd h id

/-- Between the parentheses, the parts and what stands between them tell the operation. -/
theorem group_inj
    {b b' : Bracket α} {ps qs : List (Phrase α ℓ)}
    (hsplit : SplitOff (chars spell) marksOfPhrase ps qs)
    (hb : b.admits ps.length)
    (hb' : b'.admits qs.length)
    (hhead : b.head = b'.head)
    (h : b.separator.intercalate (ps.map (chars spell)) ++ ')' :: r =
      b'.separator.intercalate (qs.map (chars spell)) ++ ')' :: s) :
    group b ps = group b' qs ∧ r = s := by
  have hends : ∀ t, GoesOn [')'] (')' :: t) := goesOn_cons (by simp)
  have hinside : ∀ t, GoesOn marksOfPhrase (')' :: t) := goesOn_cons (by simp [marksOfPhrase])
  have hsame : ∀ {c : Char}, [' ', c, ' '].intercalate (ps.map (chars spell)) ++ ')' :: r =
      [' ', c, ' '].intercalate (qs.map (chars spell)) ++ ')' :: s →
      2 ≤ ps.length → 2 ≤ qs.length → ps = qs ∧ r = s := by
    intro c h hps hqs
    obtain ⟨rfl, hrest⟩ := SplitOff.intercalate_append_inj hsplit (by simp) (hends r) (hends s)
      (List.ne_nil_of_length_pos (by omega)) (List.ne_nil_of_length_pos (by omega)) h
    exact ⟨rfl, List.tail_eq_of_cons_eq hrest⟩
  have hsingle : ∀ {sep : List Char}, sep.intercalate (ps.map (chars spell)) ++ ')' :: r =
      sep.intercalate (qs.map (chars spell)) ++ ')' :: s →
      ps.length = 1 → qs.length = 1 → ps = qs ∧ r = s := by
    intro sep h hps hqs
    obtain ⟨rfl, hrest⟩ := hsplit.singleton_append_inj (hinside r) (hinside s) hps hqs h
    exact ⟨rfl, List.tail_eq_of_cons_eq hrest⟩
  cases b with
  | sum =>
      cases b' with
      | sum =>
          obtain ⟨rfl, rfl⟩ := hsame h hb hb'
          exact ⟨rfl, rfl⟩
      | product => exact absurd (SplitOff.separator_eq hsplit hb hb'.ge h) (by decide)
      | exp | ln => cases hhead
      | call => exact hb'.elim
  | product =>
      cases b' with
      | sum => exact absurd (SplitOff.separator_eq hsplit hb.ge hb' h) (by decide)
      | product =>
          obtain ⟨rfl, rfl⟩ := hsame h hb.ge hb'.ge
          exact ⟨rfl, rfl⟩
      | exp | ln => cases hhead
      | call => exact hb'.elim
  | exp =>
      cases b' with
      | exp =>
          obtain ⟨rfl, rfl⟩ := hsingle h hb hb'
          exact ⟨rfl, rfl⟩
      | sum | product | ln => cases hhead
      | call => exact hb'.elim
  | ln =>
      cases b' with
      | ln =>
          obtain ⟨rfl, rfl⟩ := hsingle h hb hb'
          exact ⟨rfl, rfl⟩
      | sum | product | exp => cases hhead
      | call => exact hb'.elim
  | call => exact hb.elim

theorem chars_group_append (b : Bracket α) (ps : List (Phrase α ℓ)) (r : List Char) :
    (group b ps).chars spell ++ r =
      b.head ++ '(' :: (b.separator.intercalate (ps.map (chars spell)) ++ ')' :: r) := by
  rw [chars_group, List.append_assoc, List.append_assoc]
  rfl

/-- No word is followed by what follows the head of a group. -/
theorem leaf_append_ne
    {x : ℓ} {b : Bracket α} {ps : List (Phrase α ℓ)}
    (hspells : Spells known spell)
    (hx : known x)
    (hb : b.admits ps.length)
    (hr : GoesOn ('^' :: marksOfPhrase) r) :
    (leaf x : Phrase α ℓ).chars spell ++ r ≠ (group b ps).chars spell ++ s := by
  intro h
  rw [chars, chars_group_append] at h
  obtain ⟨-, hrest⟩ := word_append_inj (hspells.word x hx).2 (isWordChar_of_mem_head hb)
    (hr.mono (by simp [marksOfPhrase, marksOfWord])) (goesOn_cons (by simp [marksOfWord]) _) h
  have := hr '(' (by rw [hrest]; rfl)
  simp [marksOfPhrase] at this

/-- A leaf or a group can be split off if the parts of a group can. -/
theorem atom_inj
    (hspells : Spells known spell)
    (hp : Legible side known p)
    (hq : Legible side known q)
    (hpp : p.isPower = false)
    (hqp : q.isPower = false)
    (hparts : ∀ b ps, p = group b ps → ∀ x ∈ ps, Reads side known spell x)
    (hr : GoesOn ('^' :: marksOfPhrase) r)
    (hs : GoesOn ('^' :: marksOfPhrase) s)
    (h : p.chars spell ++ r = q.chars spell ++ s) :
    p = q ∧ r = s := by
  have hsub : '^' :: marksOfPhrase ⊆ marksOfWord := by simp [marksOfPhrase, marksOfWord]
  cases hp with
  | power => cases hpp
  | @leaf x hx =>
      cases hq with
      | power => cases hqp
      | @leaf y hy =>
          rw [chars, chars] at h
          obtain ⟨hword, hrest⟩ := word_append_inj (hspells.word x hx).2 (hspells.word y hy).2
            (hr.mono hsub) (hs.mono hsub) h
          rw [hspells.inj x y hx hy hword]
          exact ⟨rfl, hrest⟩
      | group hb _ => exact absurd h (leaf_append_ne hspells hx hb hr)
  | @group b ps hb hps =>
      cases hq with
      | power => cases hqp
      | @leaf y hy => exact absurd h.symm (leaf_append_ne hspells hy hb hs)
      | @group b' qs hb' hqs =>
          rw [chars_group_append, chars_group_append] at h
          obtain ⟨hhead, hrest⟩ := word_append_inj (isWordChar_of_mem_head hb)
            (isWordChar_of_mem_head hb') (goesOn_cons (by simp [marksOfWord]) _)
            (goesOn_cons (by simp [marksOfWord]) _) h
          apply group_inj _ hb hb' hhead (List.tail_eq_of_cons_eq hrest)
          intro x hx y hy r s hr hs h
          exact hparts b ps rfl x hx y r s (hqs y hy) hr hs h

/-- A phrase can be read if the parts of the groups in its spine can. -/
theorem Legible.reads_of_groups
    (hspells : Spells known spell)
    (hp : Legible side known p)
    (hgroups : ∀ b ps, Phrase.group b ps ∈ p.spine → ∀ x ∈ ps, Reads side known spell x) :
    Reads side known spell p := by
  intro q r s hq hr hs h
  rw [chars_eq_intercalate_spine, chars_eq_intercalate_spine] at h
  have hsplit : SplitOff (chars spell) ('^' :: marksOfPhrase) p.spine q.spine := by
    intro x hx y hy r s hr hs h
    obtain ⟨hlx, hpx⟩ := hp.of_mem_spine hx
    obtain ⟨hly, hpy⟩ := hq.of_mem_spine hy
    exact atom_inj hspells hlx hly hpx hpy (fun b ps heq => hgroups b ps (heq ▸ hx)) hr hs h
  obtain ⟨hspine, hrest⟩ := SplitOff.intercalate_append_inj hsplit (by simp [marksOfPhrase]) hr hs
    (spine_ne_nil p) (spine_ne_nil q) h
  exact ⟨hp.spine_inj hq hspine, hrest⟩

/-- The parts of groups can be read. -/
theorem Legible.groups_read
    (hspells : Spells known spell)
    (hp : Legible side known p) :
    ∀ b ps, Phrase.group b ps ∈ p.spine → ∀ x ∈ ps, Reads side known spell x := by
  induction hp with
  | leaf hx =>
      intro b ps hmem
      cases List.mem_singleton.1 hmem
  | @group b' qs hb hqs ih =>
      intro b ps hmem x hx
      obtain ⟨rfl, rfl⟩ := Phrase.group.inj (List.mem_singleton.1 hmem)
      exact (hqs x hx).reads_of_groups hspells (ih x hx)
  | power hside hb he ihb ihe =>
      intro b ps hmem
      rcases List.mem_append.1 hmem with hmem | hmem
      · exact ihb b ps hmem
      · exact ihe b ps hmem

/-- Phrases whose powers nest on one side are read back from their texts, with what comes after
them. -/
theorem Legible.reads
    (hspells : Spells known spell)
    (hp : Legible side known p) :
    Reads side known spell p :=
  hp.reads_of_groups hspells (hp.groups_read hspells)

/-- Two such phrases with the same text are the same phrase. -/
theorem Legible.chars_inj
    (hspells : Spells known spell)
    (hp : Legible side known p)
    (hq : Legible side known q)
    (h : p.chars spell = q.chars spell) :
    p = q := by
  have hend : GoesOn marksOfPhrase [] := by
    intro c hc
    cases hc
  have h : p.chars spell ++ [] = q.chars spell ++ [] := by rw [h]
  exact (hp.reads hspells q [] [] hq hend hend h).1

end Reading
end Phrase
end Text
end ReverseMode

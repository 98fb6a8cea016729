import Mathlib.Data.List.Induction
import Mathlib.Data.Set.Card
import ReverseMode.Proofs.Integer
import ReverseMode.Proofs.Term.Order

/-!
# Walks and unfolded trees

**Input.**  A term, and the tree that it unfolds to, in which a shared term occurs once for every
path to it.

**Argument.**  What is known is always a list without its repetitions, and a list that comes with
the operands of its terms.  A term that is skipped for being known then has its whole tree in that
list, so skipping it and reading its tree again come to the same (`visit_eraseDups`).

**Results.**
* `filterMap_eraseDups`: first occurrences before and after a partial map.
* `visit_eraseDups`: a visit appends the postorder of a tree and then drops repetitions.
* `collect_eraseDups`: so does a collector with the variables of one term after another.
* `walk_unfolding`: walks, node counts and lists of variables, read off the tree.
-/

namespace ReverseMode

section Repetitions

variable {β γ : Type} [BEq β] [LawfulBEq β] [BEq γ] [LawfulBEq γ]

/-- Only a new entry is kept at the end. -/
theorem eraseDups_concat (l : List β) (b : β) :
    (l ++ [b]).eraseDups = if b ∈ l then l.eraseDups else l.eraseDups ++ [b] := by
  rw [List.eraseDups_append]
  split
  · simp_all [List.removeAll]
  · simp_all [List.removeAll, List.eraseDups_cons]

/-- Entries that are all there leave no trace. -/
theorem eraseDups_append_of_subset
    {l m : List β}
    (h : ∀ b ∈ m, b ∈ l) :
    (l ++ m).eraseDups = l.eraseDups := by
  have hnone : m.removeAll l = [] := by
    simpa [List.removeAll] using h
  rw [List.eraseDups_append, hnone, List.eraseDups_nil, List.append_nil]

/-- First occurrences are found before or after a map that tells apart what it maps. -/
theorem filterMap_eraseDups
    {f : β → Option γ}
    (hf : ∀ a b c, f a = some c → f b = some c → a = b)
    (l : List β) :
    l.eraseDups.filterMap f = (l.filterMap f).eraseDups := by
  induction l using List.reverseRecOn with
  | nil => rfl
  | append_singleton l b ih =>
      rw [eraseDups_concat, List.filterMap_append]
      cases hb : f b with
      | none =>
          split <;> simp [hb, ih]
      | some c =>
          have hmem : c ∈ l.filterMap f ↔ b ∈ l := by
            rw [List.mem_filterMap]
            constructor
            · rintro ⟨a, ha, hac⟩
              rwa [← hf a b c hac hb]
            · exact fun hbl => ⟨b, hbl, hb⟩
          rw [List.filterMap_cons_some hb, List.filterMap_nil, eraseDups_concat]
          by_cases hbl : b ∈ l
          · rw [if_pos hbl, if_pos (hmem.2 hbl), ih]
          · rw [if_neg hbl, if_neg (hmem.not.2 hbl), List.filterMap_append, ih,
              List.filterMap_cons_some hb, List.filterMap_nil]

end Repetitions

/-- A tree with the term that stands at each node. -/
inductive Unfolding (τ : Type) where
  | node (root : τ) (operands : List (Unfolding τ))

namespace Unfolding

variable {τ : Type}

mutual

/-- The nodes from left to right, operands before the node that has them. -/
def postorder : Unfolding τ → List τ
  | node t us => postorderAll us ++ [t]

def postorderAll : List (Unfolding τ) → List τ
  | [] => []
  | u :: us => u.postorder ++ postorderAll us

end

mutual

/-- The nodes without operands, from left to right. -/
def leaves : Unfolding τ → List τ
  | node t [] => [t]
  | node _ (u :: us) => u.leaves ++ leavesAll us

def leavesAll : List (Unfolding τ) → List τ
  | [] => []
  | u :: us => u.leaves ++ leavesAll us

end

theorem postorder_node (t : τ) (us : List (Unfolding τ)) :
    (node t us).postorder = us.flatMap postorder ++ [t] := by
  have hall : postorderAll us = us.flatMap postorder := by
    induction us with
    | nil => rfl
    | cons u us ih => rw [postorderAll, ih, List.flatMap_cons]
  rw [postorder, hall]

theorem leaves_node_nil (t : τ) :
    (node t []).leaves = [t] := by
  rw [leaves]

theorem leaves_node_of_ne_nil
    {us : List (Unfolding τ)}
    (h : us ≠ [])
    (t : τ) :
    (node t us).leaves = us.flatMap leaves := by
  have hall : ∀ us : List (Unfolding τ), leavesAll us = us.flatMap leaves := by
    intro us
    induction us with
    | nil => rfl
    | cons u us ih => rw [leavesAll, ih, List.flatMap_cons]
  cases us with
  | nil => exact absurd rfl h
  | cons u us => rw [leaves, hall, List.flatMap_cons]

end Unfolding

namespace Graph

variable {κ α : Type} [Exponent κ] {g : Graph κ α}

/-- The tree that a term unfolds to. -/
def unfolding (g : Graph κ α) : g.Term → Unfolding g.Term :=
  g.fold fun t n => .node t n.operands

section Trees

variable {t u : g.Term}

theorem unfolding_eq (t : g.Term) :
    g.unfolding t = .node t ((g.operands t).map g.unfolding) := by
  rw [unfolding, fold_eq, Node.operands_mapOperands_const]
  rfl

theorem postorder_unfolding (t : g.Term) :
    (g.unfolding t).postorder =
      ((g.operands t).flatMap fun u => (g.unfolding u).postorder) ++ [t] := by
  rw [unfolding_eq, Unfolding.postorder_node, List.flatMap_map]

/-- The nodes of the tree are the terms that the root reaches. -/
theorem mem_postorder :
    u ∈ (g.unfolding t).postorder ↔ g.Reaches t u := by
  constructor
  · intro h
    induction t using operands_induction with
    | h t ih =>
        rw [postorder_unfolding, List.mem_append, List.mem_flatMap, List.mem_singleton] at h
        rcases h with ⟨w, hw, hu⟩ | rfl
        · exact .head hw (ih w hw hu)
        · exact .refl
  · intro h
    induction h using Relation.ReflTransGen.head_induction_on with
    | refl =>
        rw [postorder_unfolding]
        exact List.mem_append_right _ (List.mem_singleton.2 rfl)
    | head hw _ ih =>
        rw [postorder_unfolding]
        exact List.mem_append_left _ (List.mem_flatMap.2 ⟨_, hw, ih⟩)

/-- The variables among the nodes of a tree are leaves. -/
theorem filterMap_postorder (t : g.Term) :
    (g.unfolding t).postorder.filterMap g.asVariable? =
      (g.unfolding t).leaves.filterMap g.asVariable? := by
  induction t using operands_induction with
  | h t ih =>
      have hroot : g.operands t ≠ [] → g.asVariable? t = none := by
        intro hne
        rw [Option.eq_none_iff_forall_ne_some]
        intro v hv
        rw [← asVariable?_eq_some_iff.1 hv] at hne
        exact hne (operands_of_isVariable v.2)
      rw [postorder_unfolding, unfolding_eq, List.filterMap_append]
      by_cases hne : g.operands t = []
      · rw [hne, List.map_nil, Unfolding.leaves_node_nil]
        rfl
      · rw [Unfolding.leaves_node_of_ne_nil (by simpa using hne),
          List.filterMap_cons_none (hroot hne), List.filterMap_nil, List.append_nil,
          List.flatMap_map, List.filterMap_flatMap, List.filterMap_flatMap]
        exact List.flatMap_congr ih

end Trees

section Walks

variable {known : List g.Term} {t : g.Term}

/-- A list that comes with the operands of its terms still does after the postorder of a tree. -/
theorem closed_append
    (hclosed : ∀ t ∈ known, ∀ u ∈ g.operands t, u ∈ known)
    (root : g.Term) :
    ∀ t ∈ known ++ (g.unfolding root).postorder, ∀ u ∈ g.operands t,
      u ∈ known ++ (g.unfolding root).postorder := by
  intro t ht u hu
  rw [List.mem_append, mem_postorder] at ht ⊢
  rcases ht with ht | ht
  · exact .inl (hclosed t ht u hu)
  · exact .inr (ht.tail hu)

/-- A visit appends the postorder of its tree and drops what repeats an earlier term, if known terms
come with their operands. -/
theorem visit_eraseDups
    (hclosed : ∀ t ∈ known, ∀ u ∈ g.operands t, u ∈ known)
    (t : g.Term) :
    g.visit known.eraseDups t = (known ++ (g.unfolding t).postorder).eraseDups := by
  induction t using operands_induction generalizing known with
  | h t ih =>
      by_cases ht : t ∈ known
      · have hall : ∀ u ∈ (g.unfolding t).postorder, u ∈ known := by
          intro u hu
          have hreach := mem_postorder.1 hu
          induction hreach with
          | refl => exact ht
          | tail hw hu' ih' => exact hclosed _ (ih' (mem_postorder.2 hw)) _ hu'
        rw [visit_of_mem (List.mem_eraseDups.2 ht), eraseDups_append_of_subset hall]
      · have hall : ∀ (ts known : List g.Term), (∀ u ∈ ts, u ∈ g.operands t) →
            (∀ t ∈ known, ∀ u ∈ g.operands t, u ∈ known) → g.visitAll known.eraseDups ts =
              (known ++ ts.flatMap fun u => (g.unfolding u).postorder).eraseDups := by
          intro ts
          induction ts with
          | nil => simp
          | cons u ts ihs =>
              intro known hts hclosed
              rw [visitAll_cons, ih u (hts u (by simp)) hclosed, List.flatMap_cons,
                ← List.append_assoc]
              exact ihs _ (fun w hw => hts w (List.mem_cons_of_mem u hw)) (closed_append hclosed u)
        have hnew : t ∉ known ++ (g.operands t).flatMap fun u => (g.unfolding u).postorder := by
          rw [List.mem_append, List.mem_flatMap]
          rintro (hmem | ⟨u, hu, hmem⟩)
          · exact ht hmem
          · have hle := (mem_postorder.1 hmem).le
            have hlt := g.lt_of_mem_operands hu
            omega
        rw [visit_of_not_mem (mt List.mem_eraseDups.1 ht), hall _ known (fun u hu => hu) hclosed,
          postorder_unfolding, ← List.append_assoc, eraseDups_concat, if_neg hnew]

theorem walk_eq_eraseDups (root : g.Term) :
    g.walk root = (g.unfolding root).postorder.eraseDups := by
  have hvisit := visit_eraseDups (g := g) (List.forall_mem_nil _) root
  rw [List.nil_append] at hvisit
  rw [walk_eq_visit]
  exact hvisit

/-- In a walk operands come before their users. -/
theorem idxOf_walk_lt
    {root t u : g.Term}
    (ht : t ∈ g.walk root)
    (hu : u ∈ g.operands t) :
    (g.walk root).idxOf u < (g.walk root).idxOf t := by
  rw [walk_eq_visit] at ht ⊢
  refine visit_induction (P := fun K => ∀ t ∈ K, ∀ u ∈ g.operands t, K.idxOf u < K.idxOf t)
    ?_ (by simp) t ht u hu
  intro K w hK _ hw hoperands t ht u hu
  rcases List.mem_append.1 ht with ht | ht
  · have hlt := hK t ht u hu
    have hmem : u ∈ K := List.idxOf_lt_length_iff.1 (hlt.trans (List.idxOf_lt_length_of_mem ht))
    rwa [List.idxOf_append_of_mem hmem, List.idxOf_append_of_mem ht]
  · obtain rfl := List.mem_singleton.1 ht
    have hmem := hoperands u hu
    rw [List.idxOf_append_of_mem hmem, List.idxOf_append_of_notMem hw]
    exact Nat.lt_add_right _ (List.idxOf_lt_length_of_mem hmem)

/-- A walk has as many entries as its root reaches terms. -/
theorem nodeCount_eq_ncard (root : g.Term) :
    g.nodeCount root = Set.ncard {t | g.Reaches root t} := by
  have hset : {t | g.Reaches root t} = ((g.walk root).toFinset : Set g.Term) := by
    ext t
    simp [mem_walk]
  rw [hset, Set.ncard_coe_finset, List.toFinset_card_of_nodup (nodup_walk root), nodeCount]

end Walks

section Collectors

/-- A collector that has met the variables `l` appends those of the visits and drops what repeats
an earlier one. -/
theorem collectFrom_eraseDups (l : List g.Variable) (visits : List g.Term) :
    g.collectFrom l.eraseDups visits = (l ++ visits.filterMap g.asVariable?).eraseDups := by
  induction visits generalizing l with
  | nil =>
      rw [List.filterMap_nil, List.append_nil]
      rfl
  | cons t visits ih =>
      rw [collectFrom, List.foldl_cons]
      cases ht : g.asVariable? t with
      | none =>
          rw [List.filterMap_cons_none ht]
          exact ih l
      | some v =>
          rw [List.filterMap_cons_some ht, List.append_cons, ← ih, eraseDups_concat]
          simp only [List.mem_eraseDups]
          rfl

/-- The variables of a term are those of its leaves. -/
theorem vars_eq_eraseDups (root : g.Term) :
    g.vars root = ((g.unfolding root).leaves.filterMap g.asVariable?).eraseDups := by
  rw [vars_eq_filterMap, walk_eq_eraseDups, filterMap_eraseDups, filterMap_postorder]
  intro a b v ha hb
  rw [← asVariable?_eq_some_iff.1 ha, asVariable?_eq_some_iff.1 hb]

/-- A collector appends the variables of one term after another and drops repetitions. -/
theorem collect_eraseDups (l : List g.Variable) (ts : List g.Term) :
    ts.foldl g.collect l.eraseDups = (l ++ ts.flatMap g.vars).eraseDups := by
  induction ts generalizing l with
  | nil =>
      rw [List.flatMap_nil, List.append_nil]
      rfl
  | cons t ts ih =>
      rw [List.foldl_cons, collect, collectFrom_eraseDups, ← vars_eq_filterMap, ih,
        List.flatMap_cons, List.append_assoc]

/-- A walk visits the postorder of the tree that its root unfolds to, each term where it occurs
first: so it visits what the root reaches, each term once and after its operands.  The node count is
the number of these terms, the variables are those of the leaves of the tree from left to right,
each where it occurs first, and a collector that is walked over one term after another holds the
variables of the terms, each where it occurs first. -/
theorem walk_unfolding (root : g.Term) (ts : List g.Term) :
    g.walk root = (g.unfolding root).postorder.eraseDups ∧
    ((g.walk root).Nodup ∧ (∀ t, t ∈ g.walk root ↔ g.Reaches root t) ∧
      ∀ t ∈ g.walk root, ∀ u ∈ g.operands t, (g.walk root).idxOf u < (g.walk root).idxOf t) ∧
    g.nodeCount root = Set.ncard {t | g.Reaches root t} ∧
    g.vars root = ((g.unfolding root).leaves.filterMap g.asVariable?).eraseDups ∧
    ts.foldl g.collect [] = (ts.flatMap g.vars).eraseDups :=
  ⟨walk_eq_eraseDups root,
    ⟨nodup_walk root, fun _ => mem_walk, fun _ ht _ hu => idxOf_walk_lt ht hu⟩,
    nodeCount_eq_ncard root, vars_eq_eraseDups root, collect_eraseDups [] ts⟩

/-- The tree of `x * x + x * x` has seven nodes, and the term three: the product is visited between
its operand and its user.  A collector that meets the product and then the sum holds `x` once. -/
theorem walk_unfolding_doubled :
    (doubled.unfolding doubled.root).postorder.map Fin.val = [0, 0, 1, 0, 0, 1, 2] ∧
      (doubled.walk doubled.root).map Fin.val = [0, 1, 2] ∧
      (doubled.walk doubled.root).idxOf ⟨1, by decide⟩ <
        (doubled.walk doubled.root).idxOf doubled.root ∧
      doubled.vars doubled.root = [doubled.x] ∧
      [⟨1, by decide⟩, doubled.root].foldl doubled.collect [] = [doubled.x] := by
  obtain ⟨hwalk, ⟨-, hmem, horder⟩, -, hvars, hcollect⟩ :=
    walk_unfolding doubled.root [⟨1, by decide⟩, doubled.root]
  have htree : (doubled.unfolding doubled.root).postorder.map Fin.val = [0, 0, 1, 0, 0, 1, 2] := by
    cbv
  refine ⟨htree, ?_, ?_, ?_, ?_⟩
  · rw [hwalk]
    cbv
  · exact horder _ ((hmem _).2 .refl) _ (by decide)
  · rw [hvars]
    cbv
  · rw [hcollect]
    cbv

end Collectors
end Graph
end ReverseMode

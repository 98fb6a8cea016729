import Mathlib.Data.List.Nodup
import Mathlib.Data.List.Sigma
import ReverseMode.Proofs.Tape.Transpose

/-!
# Paths down a tape

A path starts at a slot and takes, at each slot that it comes to, one of the links of the slot.
It is given by the places of these links, so parallel links make different paths.

**Results.**
* `mem_pathsFrom`, `nodup_pathsFrom`: all paths up to a length between two slots, each once.
* `Tape.Adjoints.eq_sum_paths`: the adjoint of a slot is the sum, over the paths that lead to it
  from the output, of the products of their weights.
-/

namespace ReverseMode

section Defs

variable {R : Type} (ls : Nat → List (Nat × R))

/-- The slot that a path leads to, if it takes no link that there is not. -/
def follow : Nat → List Nat → Option Nat
  | i, [] => some i
  | i, e :: p => (ls i)[e]?.bind fun l => follow l.1 p

/-- The product of the weights of the links of a path. -/
def pathWeight [One R] [Mul R] : Nat → List Nat → R
  | _, [] => 1
  | i, e :: p => ((ls i)[e]?.map fun l => l.2 * pathWeight l.1 p).getD 1

/-- The paths of at most `n` links from slot `i` to slot `k`. -/
def pathsFrom : Nat → Nat → Nat → List (List Nat)
  | 0, i, k => if i = k then [[]] else []
  | n + 1, i, k =>
      (if i = k then [[]] else []) ++
        (ls i).zipIdx.flatMap fun l => (pathsFrom n l.1.1 k).map (l.2 :: ·)

end Defs

section Enumeration

variable {R : Type} {ls : Nat → List (Nat × R)} {n i k : Nat} {p : List Nat}

theorem mem_pathsFrom :
    p ∈ pathsFrom ls n i k ↔ follow ls i p = some k ∧ p.length ≤ n := by
  induction n generalizing i p with
  | zero =>
      cases p with
      | nil => by_cases h : i = k <;> simp [pathsFrom, follow, h]
      | cons e p => by_cases h : i = k <;> simp [pathsFrom, h]
  | succ n ih =>
      rw [pathsFrom, List.mem_append, List.mem_flatMap]
      cases p with
      | nil => by_cases h : i = k <;> simp [follow, h]
      | cons e p =>
          have hleft : e :: p ∉ (if i = k then [[]] else [] : List (List Nat)) := by
            split <;> simp
          simp only [hleft, false_or, List.mem_map, List.mem_zipIdx_iff_getElem?, follow,
            Option.bind_eq_some_iff, List.length_cons, Nat.add_le_add_iff_right]
          constructor
          · rintro ⟨⟨l, e'⟩, hl, q, hq, heq⟩
            obtain ⟨rfl, rfl⟩ := List.cons.inj heq
            obtain ⟨hfollow, hlen⟩ := ih.1 hq
            exact ⟨⟨l, hl, hfollow⟩, hlen⟩
          · rintro ⟨⟨l, hl, hfollow⟩, hlen⟩
            exact ⟨(l, e), hl, p, ih.2 ⟨hfollow, hlen⟩, rfl⟩

/-- No path is listed twice: those through different links differ in their first place. -/
theorem nodup_pathsFrom : (pathsFrom ls n i k).Nodup := by
  induction n generalizing i with
  | zero =>
      rw [pathsFrom]
      split <;> simp
  | succ n ih =>
      rw [pathsFrom, List.nodup_append]
      refine ⟨by split <;> simp, ?_, ?_⟩
      · rw [List.nodup_flatMap]
        constructor
        · intro l _
          exact ih.map fun p q h => (List.cons.inj h).2
        · have hplaces := List.nodup_zipIdx_map_snd (ls i)
          rw [List.Nodup, List.pairwise_map] at hplaces
          apply hplaces.imp
          intro l l' hne
          rw [Function.onFun, List.disjoint_left]
          rintro _ hp hq
          obtain ⟨p, -, rfl⟩ := List.mem_map.1 hp
          obtain ⟨q, -, heq⟩ := List.mem_map.1 hq
          exact hne (List.cons.inj heq).1.symm
      · intro p hp q hq
        rw [List.mem_flatMap] at hq
        obtain ⟨l, -, hq⟩ := hq
        obtain ⟨q', -, rfl⟩ := List.mem_map.1 hq
        split at hp
        · rw [List.mem_singleton] at hp
          rw [hp]
          simp
        · cases hp

/-- A path down a tape is not longer than the index of the slot that it starts at. -/
theorem length_le_of_follow
    (hls : ∀ j, ∀ l ∈ ls j, l.1 < j)
    (h : follow ls i p = some k) :
    p.length ≤ i := by
  induction p generalizing i with
  | nil => exact Nat.zero_le i
  | cons e p ih =>
      rw [follow, Option.bind_eq_some_iff] at h
      obtain ⟨l, hl, h⟩ := h
      have hlt := hls i l (List.mem_of_getElem? hl)
      have hle := ih h
      rw [List.length_cons]
      omega

/-- Longer bounds than the index of the first slot list the same paths. -/
theorem pathsFrom_perm
    {m : Nat}
    (hls : ∀ j, ∀ l ∈ ls j, l.1 < j)
    (hn : i ≤ n)
    (hm : i ≤ m) :
    (pathsFrom ls n i k).Perm (pathsFrom ls m i k) := by
  rw [List.perm_ext_iff_of_nodup nodup_pathsFrom nodup_pathsFrom]
  intro p
  rw [mem_pathsFrom, mem_pathsFrom]
  constructor
  · rintro ⟨h, -⟩
    exact ⟨h, (length_le_of_follow hls h).trans hm⟩
  · rintro ⟨h, -⟩
    exact ⟨h, (length_le_of_follow hls h).trans hn⟩

end Enumeration

section Sums

variable {R : Type} [CommRing R] {ls : Nat → List (Nat × R)} {n i k : Nat}

/-- The paths from a slot are the empty one and those that start with one of its links. -/
theorem sum_pathsFrom_succ (ls : Nat → List (Nat × R)) (n i k : Nat) :
    ((pathsFrom ls (n + 1) i k).map (pathWeight ls i)).sum =
      (if i = k then 1 else 0) +
        ((ls i).map fun l => l.2 * ((pathsFrom ls n l.1 k).map (pathWeight ls l.1)).sum).sum := by
  rw [pathsFrom, List.map_append, List.sum_append, List.map_flatMap, sum_flatMap]
  congr 1
  · split <;> simp [pathWeight]
  · have hlinks : (ls i).map (fun l =>
        l.2 * ((pathsFrom ls n l.1 k).map (pathWeight ls l.1)).sum) =
          (ls i).zipIdx.map fun l =>
            l.1.2 * ((pathsFrom ls n l.1.1 k).map (pathWeight ls l.1.1)).sum := by
      conv_lhs => rw [← List.zipIdx_map_fst 0 (ls i), List.map_map]
      rfl
    rw [hlinks]
    congr 1
    apply List.map_congr_left
    intro l hl
    rw [List.mem_zipIdx_iff_getElem?] at hl
    rw [List.map_map, ← List.sum_map_mul_left]
    congr 1
    apply List.map_congr_left
    intro p _
    rw [Function.comp, pathWeight, hl]
    rfl

end Sums

namespace Tape

variable {κ α : Type} [Scalar κ α] {t : Tape κ α} {ls : Nat → List (Nat × α)} {a : Nat → α}

/-- The adjoint of a slot is the sum over the paths that lead to it from the output. -/
theorem Adjoints.eq_sum_paths
    (hr : Scalar.CommutativeRing α)
    (ha : t.Adjoints ls a)
    (hdim : t.dimension ≤ t.size)
    (hls : ∀ j, ∀ l ∈ ls j, l.1 < j)
    (hleaf : ∀ j < t.dimension, ls j = [])
    {k : Nat}
    (hk : k < t.size) :
    ∃ ps : List (List Nat), ps.Nodup ∧
      (∀ p, p ∈ ps ↔ follow ls (t.size - 1) p = some k) ∧
      a k = (ps.map (pathWeight ls (t.size - 1))).sum := by
  let ring := hr.toCommRing
  have hτ : ∀ j < t.size, ((pathsFrom ls t.size j k).map (pathWeight ls j)).sum =
      (if j = k then 1 else 0) +
        ((ls j).map fun l =>
          l.2 * ((pathsFrom ls t.size l.1 k).map (pathWeight ls l.1)).sum).sum := by
    intro j hj
    rw [← sum_pathsFrom_succ]
    exact ((pathsFrom_perm hls (by omega) (by omega)).map _).sum_eq
  refine ⟨pathsFrom ls t.size (t.size - 1) k, nodup_pathsFrom, ?_, ?_⟩
  · intro p
    rw [mem_pathsFrom, and_iff_left_iff_imp]
    intro h
    have := length_le_of_follow hls h
    omega
  · exact ha.eq_output hr hdim hls hleaf hk hτ

end Tape
end ReverseMode

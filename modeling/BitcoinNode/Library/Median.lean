import Mathlib.Data.List.Sort
import Mathlib.Tactic

/-!
# Medians

An element of a sorted list is at least `m` when few enough elements are below `m`. From this,
the upper median of a window does not fall when the window moves on to an element above it.
The median of an odd number of elements does not depend on their order.
-/

namespace BitcoinNode.Median

variable {α : Type} [LinearOrder α] {s times : List α} {k n : Nat} {m t : α}

theorem le_getElem_iff (hs : s.Pairwise (· ≤ ·)) (hk : k < s.length) :
    m ≤ s[k] ↔ s.countP (· < m) ≤ k := by
  induction s generalizing k with
  | nil => simp at hk
  | cons x s ih =>
    obtain ⟨hx, hs⟩ := List.pairwise_cons.1 hs
    cases k with
    | zero =>
      rw [List.getElem_cons_zero, Nat.le_zero, List.countP_eq_zero]
      refine ⟨fun hm y hy => ?_, fun h => by simpa using h x (List.mem_cons_self ..)⟩
      rcases List.mem_cons.1 hy with rfl | hy
      · simpa using hm
      · simpa using hm.trans (hx y hy)
    | succ k =>
      rw [List.getElem_cons_succ, ih hs (by simpa using hk), List.countP_cons]
      split_ifs with hlt
      · omega
      · have hnone : s.countP (· < m) = 0 := by
          rw [List.countP_eq_zero]
          intro y hy
          simp only [decide_eq_true_eq, not_lt] at hlt ⊢
          exact hlt.trans (hx y hy)
        omega

/-- The element at a place of the sorted list. -/
theorem le_getElem_insertionSort_iff (hk : k < (times.insertionSort (· ≤ ·)).length) :
    m ≤ (times.insertionSort (· ≤ ·))[k] ↔ times.countP (· < m) ≤ k := by
  rw [le_getElem_iff (List.pairwise_insertionSort _ _) hk,
    (List.perm_insertionSort _ _).countP_eq]

/-- A window that moves on to an element that is not below `m` has no more elements below. -/
theorem countP_window_le (ht : m ≤ t) :
    (t :: times.take n).countP (· < m) ≤ times.countP (· < m) := by
  rw [List.countP_cons_of_neg (by simpa using ht)]
  exact (List.take_sublist n times).countP_le

/-! ## The median of a list in any order -/

/-- At most half of the elements are below, and at most half are above. -/
structure IsMedian (s : List α) (m : α) : Prop where
  mem : m ∈ s
  below : s.countP (· < m) ≤ s.length / 2
  above : s.countP (m < ·) ≤ s.length / 2

theorem IsMedian.perm (h : IsMedian s m) (hperm : s.Perm times) : IsMedian times m where
  mem := hperm.mem_iff.1 h.mem
  below := by
    rw [← hperm.countP_eq, ← hperm.length_eq]
    exact h.below
  above := by
    rw [← hperm.countP_eq, ← hperm.length_eq]
    exact h.above

/-- More than half of an odd number of elements are not above a median. -/
theorem IsMedian.le (h : IsMedian s m) (h' : IsMedian s t) (hodd : s.length % 2 = 1) : t ≤ m := by
  by_contra hlt
  have hrest : s.length = s.countP (m < ·) + s.countP (· ≤ m) := by
    simpa using s.length_eq_countP_add_countP (m < ·)
  have hle : s.countP (· ≤ m) ≤ s.countP (· < t) := by
    refine List.countP_mono_left fun x _ hx => ?_
    simp only [decide_eq_true_eq] at hx ⊢
    exact hx.trans_lt (not_le.1 hlt)
  have habove := h.above
  have hbelow := h'.below
  omega

theorem IsMedian.unique (h : IsMedian s m) (h' : IsMedian s t) (hodd : s.length % 2 = 1) :
    m = t :=
  le_antisymm (h'.le h hodd) (h.le h' hodd)

/-- The middle of a sorted list. -/
theorem isMedian_getElem (hs : s.Pairwise (· ≤ ·)) (hk : s.length / 2 < s.length)
    (hodd : s.length % 2 = 1) : IsMedian s s[s.length / 2] where
  mem := List.getElem_mem hk
  below := (le_getElem_iff hs hk).1 le_rfl
  above := by
    have hsplit := s.take_append_drop (s.length / 2 + 1)
    have htake : (s.take (s.length / 2 + 1)).countP (s[s.length / 2] < ·) = 0 := by
      rw [List.countP_eq_zero]
      intro x hx
      obtain ⟨i, hi, rfl⟩ := List.mem_take_iff_getElem.1 hx
      simpa using hs.rel_get_of_le (a := ⟨i, by omega⟩) (b := ⟨s.length / 2, hk⟩)
        (Fin.mk_le_mk.2 (by omega))
    have hdrop := (s.drop (s.length / 2 + 1)).countP_le_length (p := (s[s.length / 2] < ·))
    have hsum : s.countP (s[s.length / 2] < ·) = (s.take (s.length / 2 + 1)).countP
        (s[s.length / 2] < ·) + (s.drop (s.length / 2 + 1)).countP (s[s.length / 2] < ·) := by
      rw [← List.countP_append, hsplit]
    rw [htake] at hsum
    rw [List.length_drop] at hdrop
    omega

end BitcoinNode.Median

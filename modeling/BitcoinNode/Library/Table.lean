import BitcoinNode.Library.FiniteMap
import Mathlib.Data.Finset.Sort

/-!
# Tables in key order

A table is a list of rows with strictly increasing keys. The lemmas say which rows
insertion and removal leave, and which row a scan from the end for a greatest value picks.
The rows of a finite map are a table, and reading them back gives the map.
-/

namespace BitcoinNode

namespace Table

variable {K V : Type} [LinearOrder K]

/-- The keys of a table increase. -/
abbrev Sorted (t : List (K × V)) : Prop := t.Pairwise fun r s => r.1 < s.1

/-- Put a row at the place of its key, over the row that has it. -/
def insert (t : List (K × V)) (k : K) (v : V) : List (K × V) :=
  t.takeWhile (fun r => decide (r.1 < k)) ++ (k, v) :: t.filter (fun r => decide (k < r.1))

variable {t : List (K × V)} {k : K} {v : V}

/-- In a table the rows below a key are a prefix. -/
theorem Sorted.mem_takeWhile (h : Sorted t) {r : K × V} :
    r ∈ t.takeWhile (fun r => decide (r.1 < k)) ↔ r ∈ t ∧ r.1 < k := by
  induction t with
  | nil => simp
  | cons s t ih =>
    obtain ⟨hs, ht⟩ := List.pairwise_cons.1 h
    by_cases hlt : s.1 < k
    · rw [List.takeWhile_cons_of_pos (by simpa using hlt), List.mem_cons, List.mem_cons, ih ht]
      constructor
      · rintro (rfl | ⟨hr, hrk⟩)
        · exact ⟨.inl rfl, hlt⟩
        · exact ⟨.inr hr, hrk⟩
      · rintro ⟨rfl | hr, hrk⟩
        · exact .inl rfl
        · exact .inr ⟨hr, hrk⟩
    · rw [List.takeWhile_cons_of_neg (by simpa using hlt)]
      constructor
      · intro hr
        cases hr
      · rintro ⟨hr, hrk⟩
        rcases List.mem_cons.1 hr with rfl | hr
        · exact absurd hrk hlt
        · exact absurd ((hs r hr).trans hrk) hlt

theorem Sorted.mem_insert (h : Sorted t) {r : K × V} :
    r ∈ insert t k v ↔ r = (k, v) ∨ r ∈ t ∧ r.1 ≠ k := by
  simp only [insert, List.mem_append, List.mem_cons, h.mem_takeWhile, List.mem_filter,
    decide_eq_true_eq]
  grind

theorem Sorted.insert (h : Sorted t) (k : K) (v : V) : Sorted (insert t k v) := by
  refine List.pairwise_append.2 ⟨?_, ?_, ?_⟩
  · exact h.sublist (List.takeWhile_sublist _)
  · refine List.pairwise_cons.2 ⟨fun r hr => ?_, h.filter _⟩
    simpa using (List.mem_filter.1 hr).2
  · intro r hr s hs
    have hrk := (h.mem_takeWhile.1 hr).2
    rcases List.mem_cons.1 hs with rfl | hs
    · exact hrk
    · have hks : k < s.1 := by simpa using (List.mem_filter.1 hs).2
      exact hrk.trans hks

/-- The greatest value of a table that is scanned from its end, where a later value wins
unless it is smaller. -/
def scanBest (f : V → Nat) (t : List (K × V)) : Option V :=
  t.reverse.foldl (fun best next =>
    match best with
    | none => some next.2
    | some best => if f next.2 < f best then some best else some next.2) none

omit [LinearOrder K] in
theorem exists_scanBest (f : V → Nat) (h : t ≠ []) : ∃ v, scanBest f t = some v := by
  obtain ⟨s, t, rfl⟩ := List.exists_cons_of_ne_nil h
  rw [scanBest, List.reverse_cons, List.foldl_append, List.foldl_cons, List.foldl_nil]
  split
  · exact ⟨_, rfl⟩
  · split
    · exact ⟨_, rfl⟩
    · exact ⟨_, rfl⟩

omit [LinearOrder K] in
/-- The scan picks the first row among those with the greatest value. -/
theorem scanBest_eq_some {f : V → Nat} (h : scanBest f t = some v) :
    ∃ before k after, t = before ++ (k, v) :: after ∧ (∀ r ∈ before, f r.2 < f v)
      ∧ ∀ r ∈ after, f r.2 ≤ f v := by
  induction t generalizing v with
  | nil => cases h
  | cons s t ih =>
    rw [scanBest, List.reverse_cons, List.foldl_append] at h
    cases hbest : scanBest f t with
    | none =>
      obtain rfl : t = [] := by
        by_contra hne
        obtain ⟨best, hsome⟩ := exists_scanBest f hne
        cases hbest.symm.trans hsome
      cases h
      exact ⟨[], s.1, [], rfl, by simp, by simp⟩
    | some best =>
      obtain ⟨before, k, after, rfl, hbefore, hafter⟩ := ih hbest
      rw [scanBest] at hbest
      rw [hbest, List.foldl_cons, List.foldl_nil] at h
      dsimp only at h
      split at h
      · rename_i hlt
        cases h
        exact ⟨s :: before, k, after, rfl, List.forall_mem_cons.2 ⟨hlt, hbefore⟩, hafter⟩
      · rename_i hle
        cases h
        refine ⟨[], s.1, before ++ (k, best) :: after, rfl, by simp, fun r hr => ?_⟩
        have hbest : f best ≤ f s.2 := Nat.le_of_not_lt hle
        rcases List.mem_append.1 hr with hr | hr
        · exact (hbefore r hr).le.trans hbest
        · rcases List.mem_cons.1 hr with rfl | hr
          · exact hbest
          · exact (hafter r hr).trans hbest

end Table

/-! ## Rows of a map -/

namespace FMap

variable {K V : Type} [LinearOrder K]

/-- The rows of a map in the order of their keys. -/
def rows (m : FMap K V) : List (K × V) :=
  (m.keys.sort (· ≤ ·)).filterMap fun k => (m.lookup k).map (k, ·)

theorem mem_rows {m : FMap K V} {r : K × V} : r ∈ m.rows ↔ m.lookup r.1 = some r.2 := by
  simp only [rows, List.mem_filterMap, Finset.mem_sort, Option.map_eq_some_iff]
  constructor
  · rintro ⟨k, -, v, hv, rfl⟩
    exact hv
  · intro h
    exact ⟨r.1, Finmap.mem_keys.2 (Finmap.mem_of_lookup_eq_some h), r.2, h, rfl⟩

/-- Inserting rows of a map one after another gives the map back. -/
theorem foldl_insert_rows {m : FMap K V} {key : K × V → K} (hkey : ∀ r ∈ m.rows, key r = r.1) :
    m.rows.foldl (fun acc r => acc.insert (key r) r.2) (∅ : FMap K V) = m := by
  have hlookup : ∀ (rs : List (K × V)) (acc : FMap K V) (x : K), (∀ r ∈ rs, r ∈ m.rows) →
      (rs.foldl (fun acc r => acc.insert (key r) r.2) acc).lookup x
        = if x ∈ rs.map Prod.fst then m.lookup x else acc.lookup x := by
    intro rs
    induction rs with
    | nil => simp
    | cons r rs ih =>
      intro acc x hmem
      obtain ⟨hr, hrs⟩ := List.forall_mem_cons.1 hmem
      rw [List.foldl_cons, ih _ x hrs, hkey r hr]
      rcases eq_or_ne x r.1 with rfl | hne
      · simp [mem_rows.1 hr]
      · rw [Finmap.lookup_insert_of_ne _ hne]
        exact if_congr (by simp [hne]) rfl rfl
  apply Finmap.ext_lookup
  intro x
  rw [hlookup _ _ _ fun r hr => hr]
  split_ifs with hx
  · rfl
  · cases h : m.lookup x with
    | none => simp
    | some v => exact absurd (List.mem_map.2 ⟨(x, v), mem_rows.2 h, rfl⟩) hx

end FMap

end BitcoinNode

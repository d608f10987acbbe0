import Mathlib.Logic.Relation
import Mathlib.Tactic

/-!
# Rooted trees stored by key

Nodes are stored under keys, and a node names its parent by key. When every stored node
but the root has a stored parent of rank one less, the ancestors of a stored node are
found by climbing, one for each smaller rank, and adding nodes never changes them.
-/

namespace BitcoinNode.Forest

variable {K E : Type*} (up : E → K) (rank : E → Nat)

/-- The ancestor met after a number of steps to the parent. -/
def climb (find : K → Option E) : Nat → E → Option E
  | 0, e => some e
  | n + 1, e => (find (up e)).bind (climb find n)

/-- The second node is the first one or an ancestor of it. -/
def Ancestor (find : K → Option E) : E → E → Prop :=
  Relation.ReflTransGen fun e p => find (up e) = some p

/-- Every stored node but the root has a stored parent of rank one less. -/
structure Rooted (find : K → Option E) (root : E) : Prop where
  rank_root : rank root = 0
  up_root : find (up root) = none
  exists_parent {k : K} {e : E} : find k = some e → e ≠ root → ∃ p, find (up e) = some p
  rank_parent {k : K} {e p : E} : find k = some e → find (up e) = some p → rank e = rank p + 1

variable {up rank} {find find' : K → Option E} {root : E}

@[simp] theorem climb_zero (e : E) : climb up find 0 e = some e := rfl

theorem climb_succ (n : Nat) (e : E) :
    climb up find (n + 1) e = (find (up e)).bind (climb up find n) := rfl

theorem climb_add (m n : Nat) (e : E) :
    climb up find (m + n) e = (climb up find m e).bind (climb up find n) := by
  induction m generalizing e with
  | zero => simp
  | succ m ih =>
    rw [Nat.succ_add, climb_succ, climb_succ]
    cases find (up e) with
    | none => rfl
    | some p => exact ih p

/-- Climbing meets stored nodes only. -/
theorem climb_stored {n : Nat} {k : K} {e a : E} (he : find k = some e)
    (h : climb up find n e = some a) : ∃ k, find k = some a := by
  induction n generalizing k e with
  | zero => exact ⟨k, by simpa [he] using h⟩
  | succ n ih =>
    obtain ⟨p, hp, h⟩ := Option.bind_eq_some_iff.1 h
    exact ih hp h

theorem climb_mono (hmono : ∀ k e, find k = some e → find' k = some e) {n : Nat} {e a : E}
    (h : climb up find n e = some a) : climb up find' n e = some a := by
  induction n generalizing e with
  | zero => exact h
  | succ n ih =>
    obtain ⟨p, hp, h⟩ := Option.bind_eq_some_iff.1 h
    rw [climb_succ, hmono _ _ hp]
    exact ih h

theorem ancestor_of_climb {n : Nat} {e a : E} (h : climb up find n e = some a) :
    Ancestor up find e a := by
  induction n generalizing e with
  | zero => exact Option.some.inj h ▸ .refl
  | succ n ih =>
    obtain ⟨p, hp, h⟩ := Option.bind_eq_some_iff.1 h
    exact .head hp (ih h)

theorem Ancestor.exists_climb {e a : E} (h : Ancestor up find e a) :
    ∃ n, climb up find n e = some a := by
  induction h using Relation.ReflTransGen.head_induction_on with
  | refl => exact ⟨0, rfl⟩
  | head hp _ ih =>
    obtain ⟨n, hn⟩ := ih
    exact ⟨n + 1, by rw [climb_succ, hp]; exact hn⟩

theorem Ancestor.mono (hmono : ∀ k e, find k = some e → find' k = some e) {e a : E}
    (h : Ancestor up find e a) : Ancestor up find' e a :=
  Relation.ReflTransGen.mono (fun _ _ hp => hmono _ _ hp) _ _ h

namespace Rooted

variable (tree : Rooted up rank find root)

include tree

/-- The rank of an ancestor counts the steps to it. -/
theorem rank_climb {n : Nat} {k : K} {e a : E} (he : find k = some e)
    (h : climb up find n e = some a) : rank e = rank a + n := by
  induction n generalizing k e with
  | zero => rw [Option.some.inj h]; rfl
  | succ n ih =>
    obtain ⟨p, hp, h⟩ := Option.bind_eq_some_iff.1 h
    have := tree.rank_parent he hp
    have := ih hp h
    omega

theorem exists_climb {n : Nat} {k : K} {e : E} (he : find k = some e) (hn : n ≤ rank e) :
    ∃ a, climb up find n e = some a := by
  induction n generalizing k e with
  | zero => exact ⟨e, rfl⟩
  | succ n ih =>
    have hroot : e ≠ root := by
      rintro rfl
      have := tree.rank_root
      omega
    obtain ⟨p, hp⟩ := tree.exists_parent he hroot
    have := tree.rank_parent he hp
    obtain ⟨a, ha⟩ := ih hp (by omega)
    exact ⟨a, by rw [climb_succ, hp]; exact ha⟩

theorem eq_root_of_rank {k : K} {e : E} (he : find k = some e) (h : rank e = 0) : e = root := by
  by_contra hne
  obtain ⟨p, hp⟩ := tree.exists_parent he hne
  have := tree.rank_parent he hp
  omega

/-- An ancestor is found by the difference of the ranks. -/
theorem climb_of_ancestor {k : K} {e a : E} (he : find k = some e) (h : Ancestor up find e a) :
    climb up find (rank e - rank a) e = some a := by
  obtain ⟨n, hn⟩ := h.exists_climb
  have := tree.rank_climb he hn
  rwa [show rank e - rank a = n by omega]

theorem rank_le_of_ancestor {k : K} {e a : E} (he : find k = some e)
    (h : Ancestor up find e a) : rank a ≤ rank e := by
  obtain ⟨n, hn⟩ := h.exists_climb
  have := tree.rank_climb he hn
  omega

/-- Ancestors of one node of the same rank are the same. -/
theorem ancestor_unique {k : K} {e a b : E} (he : find k = some e) (ha : Ancestor up find e a)
    (hb : Ancestor up find e b) (h : rank a = rank b) : a = b := by
  have ha := tree.climb_of_ancestor he ha
  have hb := tree.climb_of_ancestor he hb
  rw [h, hb] at ha
  exact (Option.some.inj ha).symm

/-- Of two ancestors of a node the lower one is an ancestor of the other. -/
theorem ancestor_of_rank_le {k : K} {e a b : E} (he : find k = some e) (ha : Ancestor up find e a)
    (hb : Ancestor up find e b) (h : rank b ≤ rank a) : Ancestor up find a b := by
  have hle := tree.rank_le_of_ancestor he ha
  have hclimb := tree.climb_of_ancestor he hb
  rw [show rank e - rank b = (rank e - rank a) + (rank a - rank b) by omega, climb_add,
    tree.climb_of_ancestor he ha] at hclimb
  exact ancestor_of_climb hclimb

/-- There are at least as many keys as ranks up to that of a stored node. -/
theorem rank_lt_card {s : Finset K} (hs : ∀ k e, find k = some e → k ∈ s) {k : K} {e : E}
    (he : find k = some e) : rank e < s.card := by
  have hrank : ∀ n ∈ Finset.range (rank e + 1), ∃ k a, find k = some a ∧ rank a = n := by
    intro n hn
    have hle := Finset.mem_range_succ_iff.1 hn
    obtain ⟨a, ha⟩ := tree.exists_climb he (Nat.sub_le (rank e) n)
    obtain ⟨k, hk⟩ := climb_stored he ha
    have := tree.rank_climb he ha
    exact ⟨k, a, hk, by omega⟩
  have : Nonempty K := ⟨k⟩
  have : Nonempty E := ⟨e⟩
  choose! key node hkey using hrank
  have hcard := Finset.card_le_card_of_injOn key (fun n hn => hs _ _ (hkey n hn).1) (by
    intro m hm n hn heq
    have hm' := hkey m hm
    have hn' := hkey n hn
    rw [heq, hn'.1] at hm'
    rw [← hm'.2, ← Option.some.inj hm'.1, hn'.2])
  simpa using hcard

/-- Induction from the root along parents. -/
theorem induction {P : E → Prop} (hroot : P root)
    (hparent : ∀ k e p, find k = some e → find (up e) = some p → P p → P e)
    {k : K} {e : E} (he : find k = some e) : P e := by
  generalize hn : rank e = n
  induction n generalizing k e with
  | zero => exact tree.eq_root_of_rank he hn ▸ hroot
  | succ n ih =>
    have hne : e ≠ root := by
      rintro rfl
      have := tree.rank_root
      omega
    obtain ⟨p, hp⟩ := tree.exists_parent he hne
    have := tree.rank_parent he hp
    exact hparent k e p he hp (ih hp (by omega))

/-- When a key determines the parent, and a node is determined by its key, its parent and the
ancestors of that, then two trees have the same node under a key they share, with the same
ancestors. -/
theorem agree (tree' : Rooted up rank find' root)
    (hroot : ∀ k e, find k = some root → find' k = some e → e = root)
    (hup : ∀ k e e', find k = some e → find' k = some e' → up e' = up e)
    (hnode : ∀ k e e' p, find k = some e → find' k = some e' → find (up e) = some p →
      find' (up e) = some p → (∀ a, Ancestor up find p a → Ancestor up find' p a) → e' = e)
    {k : K} {e : E} (he : find k = some e) : ∀ k e', find k = some e → find' k = some e' →
      e' = e ∧ ∀ a, Ancestor up find e a → Ancestor up find' e a := by
  refine tree.induction (P := fun e => ∀ k e', find k = some e → find' k = some e' →
    e' = e ∧ ∀ a, Ancestor up find e a → Ancestor up find' e a) ?_ ?_ he
  · intro k e' hk hk'
    refine ⟨hroot k e' hk hk', fun a ha => ?_⟩
    rcases ha.cases_head with rfl | ⟨p, hp, -⟩
    · exact .refl
    · rw [tree.up_root] at hp
      cases hp
  · intro _ e p _ hp ih k e' hk hk'
    have hparent := hup k e e' hk hk'
    have hne : e' ≠ root := by
      rintro rfl
      rw [← hparent, tree.up_root] at hp
      cases hp
    obtain ⟨p', hp'⟩ := tree'.exists_parent hk' hne
    rw [hparent] at hp'
    obtain ⟨rfl, hanc⟩ := ih (up e) p' hp hp'
    refine ⟨hnode k e e' p' hk hk' hp hp' hanc, fun a ha => ?_⟩
    rcases ha.cases_head with rfl | ⟨q, hq, ha⟩
    · exact .refl
    · obtain rfl := Option.some.inj (hp.symm.trans hq)
      exact .head hp' (hanc a ha)

/-- Adding a child of a stored node under a fresh key keeps the tree. -/
theorem insert {k : K} {e p : E} (hmono : ∀ k e, find k = some e → find' k = some e)
    (hnew : ∀ x y, find' x = some y → find x = some y ∨ x = k ∧ y = e)
    (hroot : up root ≠ k) (hp : find (up e) = some p) (hrank : rank e = rank p + 1) :
    Rooted up rank find' root := by
  have hup : find' (up root) = none := by
    cases h : find' (up root) with
    | none => rfl
    | some y =>
      rcases hnew _ _ h with h | ⟨h, -⟩
      · rw [tree.up_root] at h
        cases h
      · exact absurd h hroot
  refine ⟨tree.rank_root, hup, ?_, ?_⟩
  · intro x y hy hne
    rcases hnew _ _ hy with h | ⟨-, rfl⟩
    · obtain ⟨q, hq⟩ := tree.exists_parent h hne
      exact ⟨q, hmono _ _ hq⟩
    · exact ⟨p, hmono _ _ hp⟩
  · intro x y q hy hq
    rcases hnew _ _ hy with h | ⟨-, rfl⟩
    · have hne : y ≠ root := by
        rintro rfl
        rw [hup] at hq
        cases hq
      obtain ⟨q', hq'⟩ := tree.exists_parent h hne
      rw [hmono _ _ hq'] at hq
      exact Option.some.inj hq ▸ tree.rank_parent h hq'
    · rw [hmono _ _ hp] at hq
      exact Option.some.inj hq ▸ hrank

end Rooted

end BitcoinNode.Forest

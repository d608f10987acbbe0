import BitcoinNode.Library.FiniteMap

/-!
# Shares

Keys that are held by owners, and a register of all of them: a map from keys to owners, or
the set of keys that some live owner holds. Each change of one side with its change of the
other keeps the two in step; a change of one side only breaks them exactly when it changes
something.
-/

namespace BitcoinNode

open Function

variable {K O : Type} [DecidableEq K] [DecidableEq O] {own : O → Finset K} {k : K} {o : O}

/-- The map names the owner of every key that is held. -/
def Leased (owner : FMap K O) (own : O → Finset K) : Prop :=
  ∀ k o, owner.lookup k = some o ↔ k ∈ own o

namespace Leased

variable {owner : FMap K O}

omit [DecidableEq O] in
theorem mem_of_mem (h : Leased owner own) (hk : k ∈ own o) : k ∈ owner :=
  Finmap.mem_of_lookup_eq_some ((h k o).2 hk)

theorem insert (h : Leased owner own) (hk : k ∉ owner) :
    Leased (owner.insert k o) (update own o (insert k (own o))) := by
  intro x p
  have hfree : k ∉ own p := fun hmem => hk (h.mem_of_mem hmem)
  rw [update_apply]
  by_cases hx : x = k
  · subst hx
    rw [Finmap.lookup_insert]
    split
    · rename_i hp
      simp [hp]
    · rename_i hp
      simp [hfree, Ne.symm hp]
  · rw [Finmap.lookup_insert_of_ne _ hx, h]
    split
    · rename_i hp
      simp [hp, hx]
    · rfl

theorem erase (h : Leased owner own) (hk : k ∈ own o) :
    Leased (owner.erase k) (update own o ((own o).erase k)) := by
  intro x p
  rw [update_apply, FMap.lookup_erase_eq_some, h]
  split
  · rename_i hp
    rw [Finset.mem_erase, hp]
  · rename_i hp
    refine and_iff_right_of_imp fun hx heq => ?_
    have := ((h x p).2 hx).symm.trans (heq ▸ (h k o).2 hk)
    exact hp (Option.some.inj this)

/-- An owner gives everything back. -/
theorem eraseKeys {W : Type} {keys : FMap K W} (h : Leased owner own) (hkeys : keys.keys = own o) :
    Leased (FMap.eraseKeys owner keys) (update own o ∅) := by
  intro x p
  rw [FMap.lookup_eraseKeys_eq_some, update_apply, h, ← Finmap.mem_keys, hkeys]
  split
  · rename_i hp
    subst hp
    simp
  · rename_i hp
    refine and_iff_right_of_imp fun hx hmem => hp ?_
    exact Option.some.inj (((h x p).2 hx).symm.trans ((h x o).2 hmem))

end Leased

/-- The set is the disjoint union of what the live owners hold. -/
structure Shared (all : Finset K) (own : O → Finset K) (live : Finset O) : Prop where
  mem_iff {k : K} : k ∈ all ↔ ∃ o ∈ live, k ∈ own o
  unique {k : K} {o p : O} : o ∈ live → p ∈ live → k ∈ own o → k ∈ own p → o = p

namespace Shared

variable {all : Finset K} {live : Finset O}

omit [DecidableEq K] [DecidableEq O] in
theorem empty (own : O → Finset K) : Shared ∅ own ∅ := ⟨by simp, by simp⟩

omit [DecidableEq K] [DecidableEq O] in
theorem mem (h : Shared all own live) (ho : o ∈ live) (hk : k ∈ own o) : k ∈ all :=
  h.mem_iff.2 ⟨o, ho, hk⟩

/-- A live owner takes a key that nobody holds. -/
theorem take (h : Shared all own live) (ho : o ∈ live) (hk : k ∉ all) :
    Shared (insert k all) (update own o (insert k (own o))) live := by
  have hfree : ∀ p ∈ live, k ∉ own p := fun p hp hmem => hk (h.mem hp hmem)
  have hown : ∀ p x, p ∈ live →
      (x ∈ update own o (insert k (own o)) p ↔ x ∈ own p ∨ p = o ∧ x = k) := by
    intro p x _
    rw [update_apply]
    split
    · rename_i hp
      rw [Finset.mem_insert, hp]
      tauto
    · rename_i hp
      simp [hp]
  refine ⟨fun {x} => ?_, fun {x p q} hp hq hxp hxq => ?_⟩
  · rw [Finset.mem_insert, h.mem_iff]
    constructor
    · rintro (rfl | ⟨p, hp, hx⟩)
      · exact ⟨o, ho, (hown _ _ ho).2 (.inr ⟨rfl, rfl⟩)⟩
      · exact ⟨p, hp, (hown _ _ hp).2 (.inl hx)⟩
    · rintro ⟨p, hp, hx⟩
      rcases (hown _ _ hp).1 hx with hx | ⟨-, rfl⟩
      · exact .inr ⟨p, hp, hx⟩
      · exact .inl rfl
  · rcases (hown _ _ hp).1 hxp with hxp | ⟨hpo, hxk⟩ <;>
      rcases (hown _ _ hq).1 hxq with hxq | ⟨hqo, hxk'⟩
    · exact h.unique hp hq hxp hxq
    · exact absurd (hxk' ▸ hxp) (hfree p hp)
    · exact absurd (hxk ▸ hxq) (hfree q hq)
    · exact hpo.trans hqo.symm

/-- A live owner takes keys that nobody holds. -/
theorem takeAll {ks : Finset K} (h : Shared all own live) (ho : o ∈ live) (hks : Disjoint ks all) :
    Shared (all ∪ ks) (update own o (own o ∪ ks)) live := by
  induction ks using Finset.induction_on with
  | empty => simpa using h
  | @insert k ks hk ih =>
    rw [Finset.disjoint_insert_left] at hks
    have htaken := (ih hks.2).take ho (k := k) (by simp [hk, hks.1])
    rwa [update_self, update_idem, ← Finset.union_insert, ← Finset.union_insert] at htaken

/-- A key that an owner gives back is free. -/
theorem release (h : Shared all own live) (ho : o ∈ live) (hk : k ∈ own o) :
    Shared (all.erase k) (update own o ((own o).erase k)) live := by
  have hown : ∀ p ∈ live, ∀ x,
      x ∈ update own o ((own o).erase k) p ↔ x ∈ own p ∧ x ≠ k := by
    intro p hp x
    rw [update_apply]
    split
    · rename_i heq
      rw [Finset.mem_erase, heq, and_comm]
    · rename_i hne
      refine (and_iff_left_of_imp fun hx heq => hne ?_).symm
      exact h.unique hp ho (heq ▸ hx) hk
  refine ⟨fun {x} => ?_, fun {x p q} hp hq hxp hxq => ?_⟩
  · rw [Finset.mem_erase, h.mem_iff]
    constructor
    · rintro ⟨hne, p, hp, hx⟩
      exact ⟨p, hp, (hown p hp x).2 ⟨hx, hne⟩⟩
    · rintro ⟨p, hp, hx⟩
      obtain ⟨hx, hne⟩ := (hown p hp x).1 hx
      exact ⟨hne, p, hp, hx⟩
  · exact h.unique hp hq ((hown p hp x).1 hxp).1 ((hown q hq x).1 hxq).1

/-- An owner that leaves gives everything back. -/
theorem leave (h : Shared all own live) (ho : o ∈ live) :
    Shared (all \ own o) own (live.erase o) := by
  refine ⟨fun {x} => ?_, fun {x p q} hp hq => ?_⟩
  · rw [Finset.mem_sdiff, h.mem_iff]
    constructor
    · rintro ⟨⟨p, hp, hx⟩, hnot⟩
      exact ⟨p, Finset.mem_erase.2 ⟨fun heq => hnot (heq ▸ hx), hp⟩, hx⟩
    · rintro ⟨p, hp, hx⟩
      obtain ⟨hne, hp⟩ := Finset.mem_erase.1 hp
      exact ⟨⟨p, hp, hx⟩, fun hmem => hne (h.unique hp ho hx hmem)⟩
  · exact h.unique (Finset.mem_of_mem_erase hp) (Finset.mem_of_mem_erase hq)

omit [DecidableEq K] in
/-- An owner that holds nothing may come and go. -/
theorem join_iff (ho : own o = ∅) :
    Shared all own (Insert.insert o live) ↔ Shared all own live := by
  have hmem : ∀ {x p}, x ∈ own p → (p ∈ Insert.insert o live ↔ p ∈ live) := by
    intro x p hx
    have hne : p ≠ o := by
      rintro rfl
      simp [ho] at hx
    simp [hne]
  have hall : ∀ x, (∃ p ∈ Insert.insert o live, x ∈ own p) ↔ ∃ p ∈ live, x ∈ own p :=
    fun x => exists_congr fun p => and_congr_left hmem
  constructor <;> refine fun h => ⟨fun {x} => ?_, fun {x p q} hp hq hxp hxq => ?_⟩
  · rw [h.mem_iff, hall]
  · exact h.unique ((hmem hxp).2 hp) ((hmem hxq).2 hq) hxp hxq
  · rw [h.mem_iff, hall]
  · exact h.unique ((hmem hxp).1 hp) ((hmem hxq).1 hq) hxp hxq

omit [DecidableEq K] [DecidableEq O] in
/-- What owners that are not live hold does not matter. -/
theorem congr {own' : O → Finset K} (h : Shared all own live)
    (heq : ∀ o ∈ live, own' o = own o) : Shared all own' live := by
  refine ⟨fun {x} => ?_, fun {x p q} hp hq hxp hxq => ?_⟩
  · rw [h.mem_iff]
    exact exists_congr fun p => and_congr_right fun hp => by rw [heq p hp]
  · exact h.unique hp hq (heq p hp ▸ hxp) (heq q hq ▸ hxq)

omit [DecidableEq K] [DecidableEq O] in
/-- What the live owners hold determines the set. -/
theorem all_eq {all' : Finset K} {own' : O → Finset K} (h : Shared all own live)
    (h' : Shared all' own' live) (heq : ∀ o ∈ live, own' o = own o) : all' = all := by
  ext x
  rw [h'.mem_iff, h.mem_iff]
  exact exists_congr fun p => and_congr_right fun hp => by rw [heq p hp]

/-- An owner that leaves without giving back must hold nothing. -/
theorem leave_iff (h : Shared all own live) (ho : o ∈ live) :
    Shared all own (live.erase o) ↔ own o = ∅ := by
  constructor
  · intro h'
    rw [Finset.eq_empty_iff_forall_notMem]
    intro x hx
    obtain ⟨p, hp, hxp⟩ := h'.mem_iff.1 (h.mem ho hx)
    obtain ⟨hne, hp⟩ := Finset.mem_erase.1 hp
    exact hne (h.unique hp ho hxp hx)
  · intro hempty
    have := h.leave ho
    rwa [hempty, Finset.sdiff_empty] at this

omit [DecidableEq K] [DecidableEq O] in
/-- When the owners that leave give everything back, the rest agree. -/
theorem leaveAll {gone : O → Prop} [DecidablePred gone] (h : Shared all own live) {all' : Finset K}
    (hall : ∀ k, k ∈ all' ↔ k ∈ all ∧ ∀ o ∈ live, gone o → k ∉ own o) :
    Shared all' own (live.filter (¬ gone ·)) := by
  refine ⟨fun {x} => ?_, fun {x p q} hp hq => ?_⟩
  · rw [hall, h.mem_iff]
    constructor
    · rintro ⟨⟨p, hp, hx⟩, hnot⟩
      exact ⟨p, Finset.mem_filter.2 ⟨hp, fun hgone => hnot p hp hgone hx⟩, hx⟩
    · rintro ⟨p, hp, hx⟩
      obtain ⟨hp, hstays⟩ := Finset.mem_filter.1 hp
      exact ⟨⟨p, hp, hx⟩, fun q hq hgone hxq => hstays (h.unique hp hq hx hxq ▸ hgone)⟩
  · exact h.unique (Finset.mem_of_mem_filter _ hp) (Finset.mem_of_mem_filter _ hq)

omit [DecidableEq K] [DecidableEq O] in
/-- Owners that leave without giving back must hold nothing. -/
theorem leaveAll_iff {gone : O → Prop} [DecidablePred gone] (h : Shared all own live) :
    Shared all own (live.filter (¬ gone ·)) ↔ ∀ o ∈ live, gone o → own o = ∅ := by
  constructor
  · intro h' o ho hgone
    rw [Finset.eq_empty_iff_forall_notMem]
    intro x hx
    obtain ⟨p, hp, hxp⟩ := h'.mem_iff.1 (h.mem ho hx)
    obtain ⟨hp, hstays⟩ := Finset.mem_filter.1 hp
    exact hstays (h.unique hp ho hxp hx ▸ hgone)
  · intro hempty
    refine h.leaveAll fun k => (and_iff_left fun o ho hgone => ?_).symm
    rw [hempty o ho hgone]
    exact Finset.notMem_empty k

/-- A key that an owner drops without telling must not be held. -/
theorem forget_iff (h : Shared all own live) (ho : o ∈ live) :
    Shared all (update own o ((own o).erase k)) live ↔ k ∉ own o := by
  constructor
  · intro h' hk
    obtain ⟨p, hp, hkp⟩ := h'.mem_iff.1 (h.mem ho hk)
    rw [update_apply] at hkp
    split at hkp
    · simp at hkp
    · rename_i hne
      exact hne (h.unique hp ho hkp hk)
  · intro hk
    rwa [Finset.erase_eq_of_notMem hk, update_eq_self]

end Shared

end BitcoinNode

import BitcoinNode.Blockchain.Locator

/-!
# The common ancestor

`common_ancestor` levels its two entries and then takes both to their parents until they meet.
Where they meet is the highest entry that both descend from.
-/

namespace BitcoinNode

namespace ChainDB

variable {env : Env} {db : ChainDB} {a b e e' : ChainEntry}

/-- The entry is an ancestor of both, and no higher one is. -/
structure Meets (db : ChainDB) (a b e : ChainEntry) : Prop where
  left : db.Ancestor a e
  right : db.Ancestor b e
  highest {e' : ChainEntry} : db.Ancestor a e' → db.Ancestor b e' → e'.height ≤ e.height

theorem Meets.unique (tree : db.Tree env) (ha : db.getEntryByHash a.hash = some a)
    (h : db.Meets a b e) (h' : db.Meets a b e') : e = e' :=
  tree.rooted.ancestor_unique ha h.left h'.left
    (Nat.le_antisymm (h'.highest h.left h.right) (h.highest h'.left h'.right))

theorem Meets.symm (h : db.Meets a b e) : db.Meets b a e :=
  ⟨h.right, h.left, fun hb ha => h.highest ha hb⟩

theorem meets_self (tree : db.Tree env) (ha : db.getEntryByHash a.hash = some a) :
    db.Meets a a a :=
  ⟨.refl, .refl, fun h _ => tree.rooted.rank_le_of_ancestor ha h⟩

/-- An entry above the other may be taken down to its height. -/
theorem Meets.of_level (tree : db.Tree env) (ha : db.getEntryByHash a.hash = some a)
    (hb : db.getEntryByHash b.hash = some b) {a' : ChainEntry} (hanc : db.Ancestor a a')
    (hle : b.height ≤ a'.height) (h : db.Meets a' b e) : db.Meets a b e where
  left := hanc.trans h.left
  right := h.right
  highest {e'} hae hbe := by
    have := tree.rooted.rank_le_of_ancestor hb hbe
    exact h.highest (tree.rooted.ancestor_of_rank_le ha hanc hae (this.trans hle)) hbe

/-- Different entries of one height meet where their parents do. -/
theorem Meets.of_parents (tree : db.Tree env) (ha : db.getEntryByHash a.hash = some a)
    (hb : db.getEntryByHash b.hash = some b) (hheight : a.height = b.height) (hne : a ≠ b)
    {p q : ChainEntry} (hp : db.getEntryByHash a.prevBlock = some p)
    (hq : db.getEntryByHash b.prevBlock = some q) (h : db.Meets p q e) : db.Meets a b e where
  left := .head hp h.left
  right := .head hq h.right
  highest {e'} hae hbe := by
    have hdiffer : e'.height < a.height := by
      refine lt_of_le_of_ne (tree.rooted.rank_le_of_ancestor ha hae) fun heq => hne ?_
      rw [tree.rooted.ancestor_unique ha .refl hae heq.symm]
      exact tree.rooted.ancestor_unique hb hbe .refl (heq.trans hheight)
    have hpa := tree.height_eq ha hp
    have hqb := tree.height_eq hb hq
    exact h.highest
      (tree.rooted.ancestor_of_rank_le ha (.single hp) hae (show e'.height ≤ p.height by omega))
      (tree.rooted.ancestor_of_rank_le hb (.single hq) hbe (show e'.height ≤ q.height by omega))

end ChainDB

namespace Chain

variable {env : Env} {c : Chain} {a b : ChainEntry}

/-- The loop meets the two sides before they reach genesis, or there. -/
theorem exists_commonLoop (tree : c.db.Tree env) {fuel : Nat}
    (ha : c.db.getEntryByHash a.hash = some a) (hb : c.db.getEntryByHash b.hash = some b)
    (hheight : a.height = b.height) (hfuel : a.height ≤ fuel) :
    ∃ e, c.commonLoop fuel (some a) (some b) = .ok (some e) ∧ c.db.Meets a b e := by
  induction fuel generalizing a b with
  | zero =>
    obtain rfl := tree.rooted.eq_root_of_rank ha (Nat.le_zero.1 hfuel)
    obtain rfl := tree.rooted.eq_root_of_rank hb (hheight ▸ Nat.le_zero.1 hfuel)
    exact ⟨_, by rw [commonLoop, if_pos rfl], ChainDB.meets_self tree ha⟩
  | succ fuel ih =>
    rw [commonLoop]
    by_cases heq : a.hash = b.hash
    · obtain rfl : a = b := by
        rw [heq, hb] at ha
        exact (Option.some.inj ha).symm
      exact ⟨a, by rw [if_pos rfl], ChainDB.meets_self tree ha⟩
    · have hne : a ≠ b := fun h => heq (congrArg ChainEntry.hash h)
      have hpos : 0 < a.height := by
        by_contra hzero
        refine hne ((tree.rooted.eq_root_of_rank ha (by omega)).trans ?_)
        exact (tree.rooted.eq_root_of_rank hb (by omega)).symm
      obtain ⟨p, hp⟩ := tree.exists_parent ha (by simp [ChainEntry.isGenesis]; omega)
      obtain ⟨q, hq⟩ := tree.exists_parent hb (by simp [ChainEntry.isGenesis]; omega)
      have hpa := tree.height_eq ha hp
      have hqb := tree.height_eq hb hq
      obtain ⟨e, he, hmeets⟩ := ih (tree.self hp) (tree.self hq) (by omega) (by omega)
      rw [if_neg heq, hp, hq]
      exact ⟨e, he, hmeets.of_parents tree ha hb hheight hne hp hq⟩

theorem commonAncestor_meets (tree : c.db.Tree env) {tip : ChainEntry} (main : c.db.Main tip)
    (skips : c.db.Skips) (ha : c.db.getEntryByHash a.hash = some a)
    (hb : c.db.getEntryByHash b.hash = some b) :
    ∃ e, c.commonAncestor a b = .ok (some e) ∧ c.db.Meets a b e := by
  unfold commonAncestor
  rcases Nat.lt_trichotomy a.height b.height with hlt | heq | hgt
  · obtain ⟨b', hb', hanc, hheight⟩ := ChainDB.getAncestor_eq tree main skips hb hlt.le
    obtain ⟨e, he, hmeets⟩ := exists_commonLoop tree ha (hanc.stored tree hb) hheight.symm
      (show a.height ≤ min a.height b.height + 1 by omega)
    rw [if_neg (by omega), pure_bind]
    dsimp only
    rw [if_pos hlt, hb', bind_of_ok rfl]
    exact ⟨e, he, (hmeets.symm.of_level tree hb ha hanc hheight.ge).symm⟩
  · obtain ⟨e, he, hmeets⟩ := exists_commonLoop tree ha hb heq
      (show a.height ≤ min a.height b.height + 1 by omega)
    rw [if_neg (by omega), pure_bind]
    dsimp only
    rw [if_neg (by omega), pure_bind]
    exact ⟨e, he, hmeets⟩
  · obtain ⟨a', ha', hanc, hheight⟩ := ChainDB.getAncestor_eq tree main skips ha hgt.le
    obtain ⟨e, he, hmeets⟩ := exists_commonLoop tree (hanc.stored tree ha) hb hheight
      (show a'.height ≤ min a.height b.height + 1 by omega)
    rw [if_pos hgt, ha', bind_of_ok rfl]
    dsimp only
    rw [if_neg (by omega), pure_bind]
    exact ⟨e, he, hmeets.of_level tree ha hb hanc hheight.ge⟩

/-- The common ancestor of two stored entries is found, and it is the highest one. -/
theorem commonAncestor_highest (law : env.Lawful) (h : Visited env c)
    (ha : c.db.getEntryByHash a.hash = some a) (hb : c.db.getEntryByHash b.hash = some b) :
    ∃ e, c.commonAncestor a b = .ok (some e) ∧ c.db.Ancestor a e ∧ c.db.Ancestor b e
      ∧ ∀ e', c.db.Ancestor a e' → c.db.Ancestor b e' → e'.height ≤ e.height := by
  have inv := h.inv law
  obtain ⟨e, he, hmeets⟩ := commonAncestor_meets inv.tree inv.main (h.skips law) ha hb
  exact ⟨e, he, hmeets.left, hmeets.right, fun _ => hmeets.highest⟩

/-- The tip after one block and the genesis entry. -/
theorem commonAncestor_highest_first : ∃ c e, Reachable Small.env c ∧ c.tip.height = 1
    ∧ c.commonAncestor c.tip Small.env.genesisEntry = .ok (some e)
    ∧ c.db.Ancestor c.tip e ∧ c.db.Ancestor Small.env.genesisEntry e := by
  obtain ⟨c, hc, hP⟩ := exists_reachable Small.env [.add 100 Small.first]
    (fun c => c.tip.height == 1) (by decide) (by decide +kernel)
  have hvisited := hc.visited Small.lawful
  have inv := hvisited.inv Small.lawful
  obtain ⟨e, he, hleft, hright, -⟩ :=
    commonAncestor_highest Small.lawful hvisited inv.tip_stored inv.tree.genesis
  exact ⟨c, e, hc, eq_of_beq hP, he, hleft, hright⟩

end Chain

end BitcoinNode

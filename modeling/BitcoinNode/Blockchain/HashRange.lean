import BitcoinNode.Blockchain.Restart

/-!
# Hash ranges

`height_to_hash_range` of `blockchain/chain.rs`, which serves the requests for filters: the
hashes of a branch between two heights. It asserts that the range is more than its last block,
and it fetches a parent once more than it needs, which the genesis block has not.
-/

namespace BitcoinNode

namespace ChainDB

/-- The loop of `height_to_hash_range`; the deque is filled from the front. -/
def hashesDown (db : ChainDB) :
    Nat → ChainEntry → List BlockHash → Except Panic (List BlockHash)
  | 0, _, hashes => .ok hashes
  | n + 1, entry, hashes =>
    match db.getEntryByHash entry.prevBlock with
    | none => .error .rangeEntry
    | some prev => hashesDown db n prev (entry.hash :: hashes)

variable {env : Env} {db : ChainDB} {e : ChainEntry} {hash : BlockHash} {n : Nat}
  {hashes : List BlockHash}

/-- While there are parents the loop lists the branch, lowest block first. -/
theorem hashesDown_eq (tree : db.Tree env) (he : db.getEntryByHash hash = some e)
    (hn : n ≤ e.height) : ∃ branch, db.hashesDown n e hashes = .ok (branch ++ hashes)
      ∧ branch.length = n
      ∧ ∀ i < n, ∃ a, db.Ancestor e a ∧ a.height + n = e.height + 1 + i
        ∧ branch[i]? = some a.hash := by
  induction n generalizing e hash hashes with
  | zero => exact ⟨[], rfl, rfl, fun i hi => absurd hi (Nat.not_lt_zero i)⟩
  | succ n ih =>
    obtain ⟨prev, hprev⟩ := tree.exists_parent he (by simp [ChainEntry.isGenesis]; omega)
    have hheight := tree.height_eq he hprev
    obtain ⟨branch, hrun, hlength, hbranch⟩ := @ih prev _ (e.hash :: hashes) hprev (by omega)
    refine ⟨branch ++ [e.hash], ?_, by simp [hlength], fun i hi => ?_⟩
    · rw [hashesDown, hprev, List.append_assoc]
      exact hrun
    · by_cases hlast : i = n
      · refine ⟨e, .refl, by omega, ?_⟩
        rw [hlast, ← hlength]
        exact List.getElem?_concat_length
      · obtain ⟨a, hanc, haheight, hget⟩ := hbranch i (by omega)
        refine ⟨a, .head hprev hanc, by omega, ?_⟩
        rw [List.getElem?_append_left (by omega)]
        exact hget

/-- Below the genesis block the loop finds no parent. -/
theorem hashesDown_panics (tree : db.Tree env)
    (he : db.getEntryByHash hash = some e) (hn : e.height < n) :
    db.hashesDown n e hashes = .error .rangeEntry := by
  induction n generalizing e hash hashes with
  | zero => exact absurd hn (Nat.not_lt_zero _)
  | succ n ih =>
    rw [hashesDown]
    cases hprev : db.getEntryByHash e.prevBlock with
    | none => rfl
    | some prev =>
      have hheight := tree.height_eq he hprev
      exact ih hprev (by omega)

end ChainDB

namespace Chain

def heightToHashRange (c : Chain) (startHeight : Nat) (endHash : BlockHash) (maxResults : Nat) :
    Except Panic (List BlockHash) :=
  match c.db.getEntryByHash endHash with
  | none => .error .rangeEntry
  | some last =>
    if ¬ startHeight < last.height then .error .rangeStart
    else
      let resultsLen := last.height - startHeight + 1
      if ¬ resultsLen ≤ maxResults then .error .rangeLength
      else c.db.hashesDown resultsLen last []

variable {env : Env} {c : Chain} {e : ChainEntry} {endHash : BlockHash}
  {startHeight maxResults : Nat}

/-- The hashes are those of the branch of an entry from a height on. -/
def ListsBranch (c : Chain) (startHeight : Nat) (e : ChainEntry) (hashes : List BlockHash) : Prop :=
  hashes.length = e.height - startHeight + 1
    ∧ ∀ i < hashes.length, ∃ a, c.db.Ancestor e a ∧ a.height = startHeight + i
      ∧ hashes[i]? = some a.hash

/-- On every chain a node reaches, a range within a branch is listed exactly when it begins above
the genesis block and has more than one block. -/
theorem heightToHashRange_iff (law : env.Lawful) (h : Visited env c)
    (he : c.db.getEntryByHash endHash = some e) (hstart : startHeight ≤ e.height)
    (hmax : e.height - startHeight + 1 ≤ maxResults) :
    (∃ hashes, c.heightToHashRange startHeight endHash maxResults = .ok hashes
        ∧ c.ListsBranch startHeight e hashes) ↔
      0 < startHeight ∧ startHeight < e.height := by
  have tree := (h.inv law).tree
  by_cases hlt : startHeight < e.height
  · have hrange : c.heightToHashRange startHeight endHash maxResults
        = c.db.hashesDown (e.height - startHeight + 1) e [] := by
      rw [heightToHashRange, he]
      dsimp only
      rw [if_neg (not_not.2 hlt), if_neg (not_not.2 hmax)]
    rw [hrange]
    by_cases hzero : startHeight = 0
    · rw [ChainDB.hashesDown_panics tree he (by omega)]
      exact iff_of_false (fun ⟨_, hok, _⟩ => nomatch hok) (by omega)
    · obtain ⟨branch, hrun, hlength, hbranch⟩ :=
        @ChainDB.hashesDown_eq env c.db e endHash (e.height - startHeight + 1) [] tree he (by omega)
      refine iff_of_true ⟨branch, ?_, hlength, fun i hi => ?_⟩ ⟨Nat.pos_of_ne_zero hzero, hlt⟩
      · rwa [List.append_nil] at hrun
      · obtain ⟨a, hanc, hheight, hget⟩ := hbranch i (by omega)
        exact ⟨a, hanc, by omega, hget⟩
  · refine iff_of_false ?_ (by omega)
    rintro ⟨hashes, hok, -⟩
    rw [heightToHashRange, he] at hok
    dsimp only at hok
    rw [if_pos hlt] at hok
    cases hok

/-- The two blocks above the genesis block. -/
theorem heightToHashRange_iff_two : ∃ c e, Visited Small.env c
    ∧ c.db.getEntryByHash e.hash = some e ∧ e.height = 2
    ∧ ∃ hashes, c.heightToHashRange 1 e.hash 2 = .ok hashes ∧ c.ListsBranch 1 e hashes := by
  obtain ⟨c, hc, hP⟩ := exists_reachable Small.env
    [.addHeader 100 Small.first.header, .addHeader 100 Small.overpaid.header]
    (fun c => match c.db.mostWork with
      | none => false
      | some e => decide (c.db.getEntryByHash e.hash = some e ∧ e.height = 2))
    (by decide) (by decide +kernel)
  split at hP
  · cases hP
  rename_i e hwork
  obtain ⟨he, hheight⟩ := of_decide_eq_true hP
  have hvisited := hc.visited Small.lawful
  exact ⟨c, e, hvisited, he, hheight,
    (heightToHashRange_iff Small.lawful hvisited he (by omega) (by omega)).2 ⟨by omega, by omega⟩⟩

/-- The range from the genesis block on and the range of the last block panic. -/
theorem range_ends_panic : ∃ c e, Visited Small.env c
    ∧ c.db.getEntryByHash e.hash = some e ∧ e.height = 2
    ∧ c.heightToHashRange 0 e.hash 3 = .error .rangeEntry
    ∧ c.heightToHashRange 2 e.hash 1 = .error .rangeStart := by
  obtain ⟨c, hc, hP⟩ := exists_reachable Small.env
    [.addHeader 100 Small.first.header, .addHeader 100 Small.overpaid.header]
    (fun c => match c.db.mostWork with
      | none => false
      | some e => decide (c.db.getEntryByHash e.hash = some e ∧ e.height = 2
          ∧ c.heightToHashRange 0 e.hash 3 = .error .rangeEntry
          ∧ c.heightToHashRange 2 e.hash 1 = .error .rangeStart))
    (by decide) (by decide +kernel)
  split at hP
  · cases hP
  rename_i e hwork
  obtain ⟨he, hheight, hfirst, hlast⟩ := of_decide_eq_true hP
  exact ⟨c, e, hc.visited Small.lawful, he, hheight, hfirst, hlast⟩

end Chain

end BitcoinNode

import BitcoinNode.Blockchain.Runs

/-!
# Invalid blocks

No invalid block is on the main chain, and neither is a descendant of one. The mark is on
the hash, which does not bind the body: one bad body is enough to lose the good one.
-/

namespace BitcoinNode.Chain

variable {env : Env} {c c' : Chain} {block : Block} {entry prev : ChainEntry}

/-- An invalid hash is not on the main chain, and no stored entry above it is. -/
theorem invalid_not_main (law : env.Lawful) (h : Reachable env c) {hash : BlockHash}
    (hinvalid : hash ∈ c.db.invalid) :
    c.db.isMainHash hash = false ∧ ∀ a d, c.db.getEntryByHash hash = some a →
      c.db.getEntryByHash d.hash = some d → c.db.Ancestor d a → c.db.isMainChain d = false := by
  have inv := h.inv law
  have hself : ∀ {a}, c.db.getEntryByHash hash = some a → c.db.isMainChain a = false := by
    intro a ha
    rw [← Bool.not_eq_true]
    intro hmain
    have hready := inv.ready_of_main hmain
    rw [inv.tree.hash_eq ha] at hready
    exact (isBlockReady_iff.1 hready).1 hinvalid
  refine ⟨?_, fun a d ha hd hanc => ?_⟩
  · unfold ChainDB.isMainHash
    split
    · rfl
    · rename_i a ha
      exact hself ha
  · rw [← Bool.not_eq_true]
    intro hmain
    have := inv.main.isMainChain_of_ancestor inv.tree hd hanc hmain
    rw [hself ha] at this
    cases this

/-- The rule at a chain that was given an invalid block after the header above it. -/
theorem invalid_not_main_overpaid : ∃ c, Reachable Small.env c
    ∧ Small.blockHash Small.overpaid.header ∈ c.db.invalid
    ∧ c.db.isMainHash (Small.blockHash Small.overpaid.header) = false := by
  obtain ⟨c, hc, hP⟩ := exists_reachable Small.env
    [.add 100 Small.first, .addHeader 100 Small.overpaid.header,
      .addHeader 100 Small.above.header, .add 100 Small.overpaid]
    (fun c => decide (Small.blockHash Small.overpaid.header ∈ c.db.invalid)) (by decide)
    (by decide +kernel)
  have hmem := of_decide_eq_true hP
  exact ⟨c, hc, hmem, (invalid_not_main Small.lawful hc hmem).1⟩

/-! ## One bad body -/

/-- An invalid mark keeps fork choice from starting at the block. -/
theorem connectBest_of_invalid {r : Except BlockVerificationError Unit} {block : Option Block}
    (hinvalid : entry.hash ∈ c.db.invalid)
    (h : c.connectBest env entry prev block = .ok (c', r)) : c' = c := by
  unfold connectBest at h
  split at h
  · cases h
  have hready : c.isBlockReady entry.hash = false := by
    rw [← Bool.not_eq_true, isBlockReady_iff]
    exact fun hr => hr.1 hinvalid
  simp only [buildQueue, hready, Bool.not_false, if_true, bind_eq_ok] at h
  obtain ⟨queue, hqueue, h⟩ := h
  obtain rfl := Except.ok.inj hqueue
  cases h
  rfl

/-- A refused body leaves the hash marked invalid with the tip as it was, or it is in the
block store itself. -/
theorem addWith_eq_error (inv : c.Inv env) {hash : BlockHash} {e : BlockVerificationError}
    (hentry : c.db.getEntryByHash entry.hash = some entry)
    (hhash : env.blockHash block.header = entry.hash) (hprev : c.db.getEntryByHash hash = some prev)
    (h : c.addWith env block entry prev = .ok (c', .error e)) :
    c'.db.getEntryByHash = c.db.getEntryByHash
      ∧ (entry.hash ∈ c'.db.invalid ∧ c'.tip = c.tip ∨ c'.db.hasBlock entry.hash = true) := by
  obtain ⟨hnew, cache, ⟨e', -, rfl⟩ | ⟨db, r', hparent, hbody, hwrite, hconnect, hget, -⟩⟩ :=
    addWith_eq_ok inv hhash hprev h
  · exact ⟨rfl, .inl ⟨Finset.mem_insert_self _ _, rfl⟩⟩
  have inv' := inv.withCache cache
  have hdb := (getBlock_writeBlock inv' hnew hwrite).2.1
  have hentries : db.getEntryByHash = c.db.getEntryByHash := by
    rw [hdb]
    rfl
  obtain ⟨hstored, -, hdown, -⟩ := connectBest_store
    (inv'.writeBlock hentry hhash hnew hbody hwrite) ((congrFun hentries _).trans hentry)
    ((congrFun hentries _).trans hparent) (by rintro b ⟨⟩; exact hget) hconnect
  refine ⟨hstored.trans hentries, .inr ?_⟩
  rw [ChainDB.hasBlock, hdown, hdb]
  simp

/-- A body of a known header that was refused once is never connected by `add` again. -/
theorem tip_ne_of_refused (inv : c.Inv env) {later : Nat} {entry' : ChainEntry}
    (hentry : c.db.getEntryByHash entry.hash = some entry)
    (hhash : env.blockHash block.header = entry.hash)
    (hrefused : entry.hash ∈ c.db.invalid ∨ c.db.hasBlock entry.hash = true)
    (h : c.add env later block = .ok (c', .ok entry')) : c'.tip.hash ≠ entry.hash := by
  rcases add_eq_ok h with ⟨_, -, -, -, hr⟩ |
    ⟨c₁, known, prev, hadd, ⟨rfl, hknown, hprev⟩ | ⟨hnone, -⟩⟩
  · cases hr
  · obtain rfl : known = entry := by
      rw [hhash, hentry] at hknown
      exact (Option.some.inj hknown).symm
    obtain ⟨hnew, cache, ⟨_, hr, -⟩ | ⟨db, r', -, -, hwrite, hconnect, -⟩⟩ :=
      addWith_eq_ok inv hhash hprev hadd
    · cases hr
    · have hinvalid := hrefused.resolve_right (by simp [hnew])
      have hdb := (getBlock_writeBlock (inv.withCache cache) hnew hwrite).2.1
      obtain rfl := connectBest_of_invalid (by rw [hdb]; exact hinvalid) hconnect
      -- the tip did not move, and the tip of a chain is downloaded
      intro htip
      have hready := (isBlockReady_iff.1 (inv.ready_of_main inv.isMainChain_tip)).2
      rw [show c₁.tip.hash = known.hash from htip] at hready
      simp [ChainDB.hasBlock, hready] at hnew
  · rw [hhash, hentry] at hnone
    cases hnone

/-- Once a body of a header has been refused, `add` no longer makes a block of this header
the tip: a body that would have been accepted before panics, fails or is stored aside. -/
theorem add_after_refused (law : env.Lawful) (h : Reachable env c) {now later : Nat}
    {block block' : Block} {c₁ c' : Chain} {entry : ChainEntry} {e : BlockVerificationError}
    (hheader : block'.header = block.header) (hgood : c.add env now block = .ok (c₁, .ok entry))
    (hbad : c.add env now block' = .ok (c', .error e)) :
    ¬ ∃ c₂ entry', c'.add env later block = .ok (c₂, .ok entry')
      ∧ c₂.tip.hash = env.blockHash block.header := by
  rintro ⟨c₂, entry', hagain, htip⟩
  have inv := h.inv law
  have inv' : c'.Inv env := ReflTransGen.invariant (fun _ _ hst hs => hs.move law hst)
    (add_moves law inv hbad) inv
  have hrefused : ∃ entry, c'.db.getEntryByHash entry.hash = some entry
      ∧ env.blockHash block.header = entry.hash
      ∧ (entry.hash ∈ c'.db.invalid ∨ c'.db.hasBlock entry.hash = true) := by
    rcases add_eq_ok hbad with ⟨e', hnone, hheader', -, -⟩ |
      ⟨c₃, entry, prev, hadd, ⟨rfl, hentry, hprev⟩ | ⟨-, hheader'⟩⟩
    · rw [hheader] at hnone hheader'
      rcases add_eq_ok hgood with ⟨_, -, -, -, hr⟩ | ⟨_, _, _, -, ⟨-, hsome, -⟩ | ⟨-, hok⟩⟩
      · cases hr
      · rw [hnone] at hsome
        cases hsome
      · rw [hheader'] at hok
        cases hok
    · have hself := inv.tree.self hentry
      have hhash := (inv.tree.hash_eq hentry).symm
      obtain ⟨hstored, hcases⟩ := addWith_eq_error inv hself hhash hprev hadd
      exact ⟨entry, (congrFun hstored _).trans hself, hheader ▸ hhash, hcases.imp_left And.left⟩
    · obtain ⟨hself, hhash, -, hprev⟩ := addHeader_stored inv hheader'
      obtain ⟨hstored, hcases⟩ := addWith_eq_error (inv.addHeader law hheader') hself
        hhash hprev hadd
      exact ⟨entry, (congrFun hstored _).trans hself, hheader ▸ hhash, hcases.imp_left And.left⟩
  obtain ⟨refused, hstored, hhash, hcases⟩ := hrefused
  exact tip_ne_of_refused inv' hstored hhash hcases hagain (htip.trans hhash)

/-- Whether the first block would become the tip, its mutation is refused, and the first
block does not become the tip after that. -/
def losesFirst (c : Chain) : Bool :=
  match c.add Small.env 100 Small.first, c.add Small.env 100 Small.mutated with
  | .ok (c₁, .ok _), .ok (c', .error _) =>
    match c'.add Small.env 100 Small.first with
    | .ok (c₂, .ok _) => c₁.tip.hash == Small.blockHash Small.first.header
        && c₂.tip.hash != Small.blockHash Small.first.header
    | _ => false
  | _, _ => false

theorem exists_losesFirst : ∃ c, Reachable Small.env c ∧ losesFirst c = true :=
  exists_reachable Small.env [] losesFirst (by decide) (by decide +kernel)

/-- A chain at genesis refuses the mutation of the first block, and then the block itself. -/
theorem add_after_refused_mutated : ∃ c c₁ c' entry e, Reachable Small.env c
    ∧ Small.mutated.header = Small.first.header
    ∧ c.add Small.env 100 Small.first = .ok (c₁, .ok entry)
    ∧ c.add Small.env 100 Small.mutated = .ok (c', .error e)
    ∧ ¬ ∃ c₂ entry', c'.add Small.env 100 Small.first = .ok (c₂, .ok entry')
      ∧ c₂.tip.hash = Small.blockHash Small.first.header := by
  obtain ⟨c, hc, hP⟩ := exists_losesFirst
  unfold losesFirst at hP
  split at hP
  · rename_i c₁ entry c' e hgood hbad
    have hheader : Small.mutated.header = Small.first.header := rfl
    exact ⟨c, c₁, c', entry, e, hc, hheader, hgood, hbad,
      add_after_refused Small.lawful hc hheader hgood hbad⟩
  · cases hP

/-- The first block becomes the tip when it comes first, and not after its mutation. -/
theorem first_not_tip_after_mutated : ∃ c c₁ c' entry e, Reachable Small.env c
    ∧ Small.mutated.header = Small.first.header
    ∧ c.add Small.env 100 Small.first = .ok (c₁, .ok entry)
    ∧ c₁.tip.hash = Small.blockHash Small.first.header
    ∧ c.add Small.env 100 Small.mutated = .ok (c', .error e)
    ∧ ∃ c₂ entry', c'.add Small.env 100 Small.first = .ok (c₂, .ok entry')
      ∧ c₂.tip.hash ≠ Small.blockHash Small.first.header := by
  obtain ⟨c, hc, hP⟩ := exists_losesFirst
  unfold losesFirst at hP
  split at hP
  · rename_i c₁ entry c' e hgood hbad
    split at hP
    · rename_i c₂ entry' hagain
      obtain ⟨htip, hne⟩ := Bool.and_eq_true_iff.1 hP
      exact ⟨c, c₁, c', entry, e, hc, rfl, hgood, beq_iff_eq.1 htip, hbad, c₂, entry', hagain,
        by simpa using hne⟩
    · cases hP
  · cases hP

end BitcoinNode.Chain

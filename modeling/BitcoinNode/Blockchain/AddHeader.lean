import BitcoinNode.Blockchain.Panics

/-!
# When `add_header` panics

The assertions of `add_header` are its only panics: on a reachable chain the searches and
the checks behind them always return.
-/

namespace BitcoinNode

/-- The computation does not panic. -/
abbrev Total {α : Type} (x : Except Panic α) : Prop := Throws x fun _ => False

theorem Total.exists_ok {α : Type} {x : Except Panic α} (h : Total x) : ∃ a, x = .ok a := by
  cases x with
  | ok a => exact ⟨a, rfl⟩
  | error p => exact (h p rfl).elim

namespace ChainDB

variable {env : Env} {db : ChainDB} {tip entry prev : ChainEntry}

section Headers

variable (tree : db.Tree env) (main : db.Main tip) (skips : db.Skips)

include tree

theorem lastRealBits_total {fuel : Nat} (he : db.getEntryByHash entry.hash = some entry)
    (hfuel : entry.height ≤ fuel) : Total (lastRealBits env db fuel entry) := by
  induction fuel generalizing entry with
  | zero =>
    rw [lastRealBits, if_neg (fun h => h.1 (by omega))]
    exact throws_ok
  | succ fuel ih =>
    unfold lastRealBits
    split
    · rename_i hwalk
      have hgen : entry.isGenesis = false := by
        simpa only [ChainEntry.isGenesis, beq_eq_false_iff_ne] using hwalk.1
      obtain ⟨p, hp⟩ := tree.exists_parent he hgen
      have hheight := tree.height_eq he hp
      rw [hp]
      exact ih (tree.self hp) (by omega)
    · exact throws_ok

include main skips

/-- The assertion of `get_target` holds: a retarget height is at least one interval up. -/
theorem getTarget_total {time : Nat} (he : db.getEntryByHash entry.hash = some entry) :
    Total (getTarget env db time (some entry)) := by
  simp only [getTarget]
  split_ifs with hinterval _ _ hlow
  · exact throws_ok
  · exact lastRealBits_total tree he le_rfl
  · exact throws_ok
  · have hdvd : (entry.height + 1) % DIFFCHANGE_INTERVAL = 0 := not_not.1 hinterval
    unfold DIFFCHANGE_INTERVAL at hdvd hlow
    omega
  · obtain ⟨a, ha, -⟩ := getAncestor_eq tree main skips he (Nat.sub_le entry.height _)
    rw [ha, bind_of_ok rfl]
    exact throws_pure

/-- A child of a stored entry is saved: the skip search succeeds. -/
theorem saveEntry_total (hidle : db.Idle) (hnew : db.getEntryByHash entry.hash = none)
    (hprev : db.getEntryByHash entry.prevBlock = some prev)
    (hheight : entry.height = prev.height + 1) (hskip : db.SkipsFrom entry) {p : ChainEntry} :
    Total (db.saveEntry entry p) := by
  have hcommit : ∀ {db : ChainDB} {batch : Batch} {state : ChainState},
      db.pending = some state → Total (db.commit batch) := by
    intro db batch state hpending
    rw [commit, hpending]
    exact throws_ok
  rw [saveEntry, start_eq hidle, bind_of_ok rfl]
  have hlt := getSkipHeight_lt (show 0 < entry.height by omega)
  dsimp only
  split
  · exact throws_pure.bind fun _ _ => (hcommit rfl).bind fun _ _ => throws_pure
  · refine Throws.bind (throws_of_exists ?_) fun _ _ => throws_pure.bind fun _ _ =>
      (hcommit rfl).bind fun _ _ => throws_pure
    have hstaged := @getAncestor_new env { db with
        pending := some db.state
        entryCache := db.entryCache.insertHashBatch entry } tip entry (tree.congr rfl)
      ⟨main.top, main.above, main.stored, main.prev⟩ (skips.congr rfl) prev _ hnew hskip
      hprev hheight hlt
    exact hstaged.imp fun _ h => h.1

end Headers

end ChainDB

namespace Chain

variable {env : Env} {c : Chain}

theorem contextualCheckBlockHeader_total (inv : c.Inv env) (skips : c.db.Skips) {now : Nat}
    {header : BlockHeader} {prev : ChainEntry}
    (he : c.db.getEntryByHash header.prevBlockhash = some prev) :
    Throws (c.contextualCheckBlockHeader env now header prev) fun s => ∀ p, s ≠ .panic p := by
  have hprev : header.prevBlockhash = prev.hash := (inv.tree.hash_eq he).symm
  obtain ⟨bits, hbits⟩ := (ChainDB.getTarget_total inv.tree inv.main skips (inv.tree.self he)
    : Total (ChainDB.getTarget env c.db header.time (some prev))).exists_ok
  refine contextualCheckBlockHeader_throws (fun hne => absurd hprev hne) (fun p hp => ?_)
    fun _ _ => nofun
  cases hbits.symm.trans hp

/-- The panics of `add_header` are its three assertions. -/
theorem addHeader_panics_iff (law : env.Lawful) (h : Visited env c) {now : Nat}
    {header : BlockHeader} :
    (∃ p, c.addHeader env now header = .error p) ↔ env.validatePow header = true
      ∧ (c.hasInvalid (env.blockHash header) header.prevBlockhash = true
        ∨ c.db.hasHeader (env.blockHash header) = true
        ∨ c.db.getEntryByHash header.prevBlockhash = none) := by
  have inv := h.inv law
  have skips := h.skips law
  unfold addHeader
  by_cases hpow : env.validatePow header = true
  · rw [if_neg (by simp [hpow])]
    dsimp only
    split
    · simp_all
    split
    · simp_all
    rename_i hinvalid hknown
    cases hprev : c.db.getEntryByHash header.prevBlockhash with
    | none => simp_all
    | some prev =>
      dsimp only
      have hself := inv.tree.self hprev
      obtain ⟨skip, hskip, hanc, hheight⟩ := ChainDB.getAncestor_eq inv.tree inv.main skips hself
        (show getSkipHeight (prev.height + 1) ≤ prev.height from
          Nat.le_of_lt_succ (getSkipHeight_lt (Nat.succ_pos _)))
      constructor
      · rintro ⟨p, hp⟩
        rw [show c.db.getAncestor prev (getSkipHeight (ChainEntry.fromBlockHeader env header
          (some prev)).height) = .ok skip from hskip, bind_of_ok rfl] at hp
        exfalso
        split at hp
        · rename_i q hcheck
          exact contextualCheckBlockHeader_total inv skips hprev _ hcheck q rfl
        · cases hp
        · refine (ChainDB.saveEntry_total inv.tree inv.main skips inv.idle ?_ hprev rfl
            (.inr ⟨skip, hanc.stored inv.tree hself, .head hprev hanc, hheight⟩)).bind
            (fun _ _ => throws_pure) p hp
          change c.db.getEntryByHash (env.blockHash header) = none
          simpa [ChainDB.hasHeader] using hknown
      · simp_all
  · simp [hpow]

/-- Only stored headers are marked invalid. -/
theorem Visited.invalid_stored (law : env.Lawful) (h : Visited env c) {hash : BlockHash}
    (hinvalid : hash ∈ c.db.invalid) : ∃ e, c.db.getEntryByHash hash = some e := by
  obtain ⟨c₀, hnew, hrun⟩ := h
  refine ReflTransGen.invariant_with (Q := Inv env)
    (P := fun c => ∀ hash ∈ c.db.invalid, ∃ e, c.db.getEntryByHash hash = some e)
    (fun _ _ hst hs => hs.move law hst) ?_ hrun (Inv.new law hnew) ?_ hash hinvalid
  · intro c c' hst inv ih hash hmem
    cases hst with
    | cache cache => exact ih hash hmem
    | @header _ now header result hadd =>
      obtain ⟨-, hget⟩ := @getEntryByHash_addHeader env c _ inv now header result.1 result.2 hadd
      have hold : hash ∈ c.db.invalid := by
        rcases addHeader_eq_ok hadd with ⟨_, hr, -⟩ |
          ⟨_, _, _, _, -, -, -, -, -, -, -, -, hsave, rfl⟩
        · cases hr
        · obtain ⟨mostWork, rfl⟩ := ChainDB.saveEntry_eq_ok inv.idle hsave
          exact hmem
      obtain ⟨e, he⟩ := ih hash hold
      rw [hget]
      split_ifs
      · exact ⟨_, rfl⟩
      · exact ⟨e, he⟩
    | invalid hstored _ =>
      rcases Finset.mem_insert.1 hmem with rfl | hold
      · exact ⟨_, hstored⟩
      · exact ih hash hold
    | block _ _ _ _ hwrite =>
      obtain ⟨blocks, -, rfl⟩ := ChainDB.writeBlock_eq_ok hwrite
      exact ih hash hmem
    | connect hentry _ hblock hprev hconnect =>
      obtain ⟨hsame, -⟩ := connect_sameStore inv hentry hblock hprev hconnect
      rw [hsame.entries]
      exact ih hash (hsame.invalid ▸ hmem)
    | disconnect hdisc =>
      obtain ⟨hsame, -⟩ := disconnect_sameStore inv hdisc
      rw [hsame.entries]
      exact ih hash (hsame.invalid ▸ hmem)
  · obtain ⟨mostWork, rfl⟩ := new_eq_ok law hnew
    intro hash hmem
    exact absurd hmem (Finset.notMem_empty hash)

end Chain

end BitcoinNode

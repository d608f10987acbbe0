import BitcoinNode.Blockchain.Panics
import BitcoinNode.Blockchain.Undo

/-!
# The loops of fork choice end

The searches of fork choice always return, the disconnect loop ends at the fork unless an
undo record is missing, and no call diverges.
-/

namespace BitcoinNode.Chain

open Relation

variable {env : Env} {c c' : Chain} {entry prev : ChainEntry}

/-! ## The searches -/

theorem keepBest_exists {path : ChainEntry → Except Panic (List ChainEntry)}
    {entries : List ChainEntry} (h : ∀ e ∈ entries, ∃ p, path e = .ok p) (work : Nat)
    (best : List ChainEntry) : ∃ result, keepBest path entries work best = .ok result := by
  induction entries generalizing work best with
  | nil => exact ⟨best, rfl⟩
  | cons e entries ih =>
    obtain ⟨⟨p, hp⟩, hentries⟩ := List.forall_mem_cons.1 h
    rw [keepBest, hp, bind_of_ok rfl]
    split
    · exact ih hentries _ _
    · split_ifs
      · exact ih hentries _ _
      · exact ih hentries _ _

/-- Heights are smaller than the number of stored entries. -/
theorem Inv.height_lt_card (inv : c.Inv env) {hash : BlockHash} {e : ChainEntry}
    (he : c.db.getEntryByHash hash = some e) : e.height < c.db.entryCache.hash.keys.card :=
  inv.tree.rooted.rank_lt_card
    (fun _ _ hk => Finmap.mem_keys.2 (Finmap.mem_of_lookup_eq_some hk)) he

theorem getNextEntries_exists (inv : c.Inv env) (hash : BlockHash) :
    ∃ entries, c.db.getNextEntries hash = .ok entries := by
  refine exists_mapM_eq_ok fun child hchild => ?_
  obtain ⟨e, he, -⟩ := inv.children.1 hchild
  exact ⟨e, by rw [he]⟩

/-- The recursion ends: every call goes one entry higher. -/
theorem bestPath_exists (inv : c.Inv env) {fuel : Nat} {hash : BlockHash}
    (he : c.db.getEntryByHash hash = some entry)
    (hfuel : c.db.entryCache.hash.keys.card ≤ entry.height + fuel) :
    ∃ path, c.bestPath fuel entry = .ok path := by
  induction fuel generalizing entry hash with
  | zero =>
    have := inv.height_lt_card he
    omega
  | succ fuel ih =>
    rw [bestPath]
    split_ifs
    · exact ⟨[], rfl⟩
    obtain ⟨entries, hentries⟩ := getNextEntries_exists inv entry.hash
    obtain ⟨rest, hrest⟩ : ∃ rest, keepBest (c.bestPath fuel) entries 0 [] = .ok rest := by
      refine keepBest_exists (fun e hmem => ?_) 0 []
      obtain ⟨hstored, hprev⟩ := (mem_getNextEntries inv hentries).1 hmem
      have := inv.tree.height_eq hstored (by rw [hprev]; exact inv.tree.self he)
      exact ih hstored (by omega)
    exact ⟨entry :: rest, by rw [hentries, bind_of_ok rfl, hrest, bind_of_ok rfl]; rfl⟩

theorem getNextBest_exists (inv : c.Inv env)
    (he : c.db.getEntryByHash entry.hash = some entry) :
    ∃ path, c.getNextBest entry = .ok path := by
  obtain ⟨path, hpath⟩ := bestPath_exists inv he
    (show _ ≤ entry.height + (c.db.entryCache.hash.keys.card + 1) by omega)
  exact ⟨path.tail, by rw [getNextBest, hpath, bind_of_ok rfl]; rfl⟩

theorem isMainChain_genesis (inv : c.Inv env) {hash : BlockHash}
    (he : c.db.getEntryByHash hash = some entry) (hheight : entry.height = 0) :
    c.db.isMainChain entry = true := by
  obtain ⟨hash', hlookup⟩ := inv.main.exists_lookup (Nat.zero_le c.tip.height)
  obtain ⟨e, he', hheight'⟩ := inv.main.stored hlookup
  have h := inv.tree.rooted.eq_root_of_rank he hheight
  have h' := inv.tree.rooted.eq_root_of_rank he' hheight'
  rw [ChainDB.isMainChain_iff, hheight, hlookup, ← inv.tree.hash_eq he', h, h']

theorem queueAncestors_exists (inv : c.Inv env) {fuel : Nat} {headPrev : ChainEntry}
    {queue : List Queued} (he : c.db.getEntryByHash headPrev.hash = some headPrev)
    (hfuel : headPrev.height ≤ fuel) :
    ∃ result, c.queueAncestors fuel headPrev queue = .ok result := by
  induction fuel generalizing headPrev queue with
  | zero =>
    rw [queueAncestors, if_pos (isMainChain_genesis inv he (by omega))]
    exact ⟨_, rfl⟩
  | succ fuel ih =>
    rw [queueAncestors]
    split_ifs with hmain
    · exact ⟨_, rfl⟩
    · exact ⟨_, rfl⟩
    have hgen : headPrev.isGenesis = false := by
      simp only [ChainEntry.isGenesis, beq_eq_false_iff_ne]
      exact fun h => hmain (isMainChain_genesis inv he h)
    obtain ⟨p, hp⟩ := inv.tree.exists_parent he hgen
    have := inv.tree.height_eq he hp
    rw [hp]
    exact ih (inv.tree.self hp) (by omega)

theorem buildQueue_exists (inv : c.Inv env) {block : Option Block}
    (hentry : c.db.getEntryByHash entry.hash = some entry)
    (hprev : c.db.getEntryByHash prev.hash = some prev) :
    ∃ queue, c.buildQueue entry prev block = .ok queue := by
  rw [buildQueue]
  split_ifs
  · exact ⟨[], rfl⟩
  obtain ⟨result, hresult⟩ : ∃ result,
      c.queueAncestors prev.height prev [⟨entry, prev, block⟩] = .ok result :=
    queueAncestors_exists inv hprev le_rfl
  obtain ⟨nexts, hnexts⟩ := getNextBest_exists inv hentry
  rw [hresult, bind_of_ok rfl]
  cases result with
  | none => exact ⟨[], rfl⟩
  | some queue => exact ⟨_, by rw [hnexts]; rfl⟩

/-! ## The disconnect loop -/

/-- Only the undo record of the tip can be missing. -/
theorem disconnect_throws (inv : c.Inv env) (undo : c.UndoInv) (hgen : c.tip.isGenesis = false) :
    Throws (c.disconnect env c.tip) (· = .undoMissing) := by
  obtain ⟨block, hblock⟩ := inv.tip_block
  obtain ⟨p, hp⟩ := inv.tree.exists_parent inv.tip_stored hgen
  cases hrecord : c.db.blocks.undos.lookup c.tip.hash with
  | none =>
    rw [disconnect, hblock]
    dsimp only
    rw [hp]
    dsimp only
    rw [ChainDB.disconnect_eq inv.idle, BlockStore.readUndo, hrecord]
    exact Throws.bind (throws_error.2 rfl) fun _ _ => throws_pure
  | some record =>
    obtain ⟨b, hb, hlen, -⟩ := undo.record hrecord
    cases hblock.symm.trans hb
    obtain ⟨view, hdisc, -⟩ :=
      disconnect_effect inv (inv.tip_wellFormed hgen hblock) hblock hrecord hlen hp
    exact throws_of_exists ⟨_, hdisc⟩

/-- The loop goes back to the ancestor of the tip it is given, or an undo record is
missing. -/
theorem disconnectTo_throws (law : env.Lawful) (h : Visited env c) {fork : ChainEntry} {fuel : Nat}
    (hfork : c.db.Ancestor c.tip fork) (hfuel : c.tip.height ≤ fork.height + fuel) :
    Throws (disconnectTo env fork.hash fuel c) (· = .undoMissing) := by
  induction fuel generalizing c with
  | zero =>
    have inv := h.inv law
    have hclimb := inv.tree.rooted.climb_of_ancestor inv.tip_stored hfork
    have htip : c.tip = fork := by
      rw [show c.tip.height - fork.height = 0 by omega] at hclimb
      exact Option.some.inj hclimb
    rw [disconnectTo, if_pos (congrArg _ htip)]
    exact throws_ok
  | succ fuel ih =>
    have inv := h.inv law
    rw [disconnectTo]
    split_ifs with htip
    · exact throws_ok
    obtain ⟨p, hp, hanc⟩ : ∃ p, c.db.getEntryByHash c.tip.prevBlock = some p
        ∧ c.db.Ancestor p fork := by
      rcases ReflTransGen.cases_head hfork with rfl | h
      · exact absurd rfl htip
      · exact h
    have hgen := inv.tree.isGenesis_eq_false inv.tip_stored hp
    refine (disconnect_throws inv (h.undoInv law) hgen).bind fun c₁ hdisc => ?_
    obtain ⟨hsame, hprev⟩ := disconnect_sameStore inv hdisc
    cases hp.symm.trans hprev
    obtain ⟨c₀, hnew, hrun⟩ := h
    have hheight := inv.tree.height_eq inv.tip_stored hp
    refine ih ⟨c₀, hnew, hrun.tail (.disconnect hdisc)⟩ ?_ (by omega)
    rw [ChainDB.Ancestor, hsame.entries]
    exact hanc

/-! ## Whole calls -/

theorem connectQueue_safe (law : env.Lawful) (h : Visited env c) {queue : List Queued}
    (hqueue : c.LinkedQueue c.tip queue) : Safe (connectQueue env queue c) := by
  induction queue generalizing c with
  | nil => exact throws_ok
  | cons q queue ih =>
    have inv := h.inv law
    obtain ⟨⟨hstored, hprev, hready⟩, hqprev, hqblock, hqueue⟩ := hqueue
    rw [connectQueue]
    split
    · simp [Panic.excluded]
    rename_i block hor
    have hblock : c.db.getBlock q.entry.hash = some block := by
      cases hb : q.block with
      | none => simpa [hb] using hor
      | some b =>
        obtain rfl : b = block := by simpa [hb] using hor
        exact hqblock b hb
    rw [hqprev]
    refine (connect_safe inv (h.skips law) hstored hblock hprev).bind fun result hconnect => ?_
    obtain ⟨c₁, connected⟩ := result
    dsimp only
    split
    · exact throws_pure
    · obtain ⟨-, -, -, ⟨_, he, -⟩ | ⟨_, _, _, hr, -⟩⟩ := connect_eq_ok hconnect
      · cases he
      cases hr
      obtain ⟨hsame, htip⟩ := connect_sameStore inv hstored hblock hprev hconnect
      obtain ⟨c₀, hnew, hrun⟩ := h
      exact ih ⟨c₀, hnew, hrun.tail (.connect hstored hready hblock hprev hconnect)⟩
        (htip ▸ hsame.linkedQueue hqueue)

theorem connectBest_safe (law : env.Lawful) (h : Visited env c) {block : Option Block}
    (hentry : c.db.getEntryByHash entry.hash = some entry)
    (hprev : c.db.getEntryByHash entry.prevBlock = some prev)
    (hblock : ∀ b ∈ block, c.db.getBlock entry.hash = some b) :
    Safe (c.connectBest env entry prev block) := by
  have inv := h.inv law
  rw [connectBest, if_neg (not_not.2 (inv.tree.hash_eq hprev).symm)]
  refine (throws_of_exists (buildQueue_exists inv hentry (inv.tree.self hprev))).bind
    fun queue hqueue => ?_
  rcases buildQueue_eq_ok inv hentry hprev hblock hqueue with ⟨rfl, -⟩ | ⟨rfl, -⟩ |
    ⟨fork, hfork, hmain, -, hne, hlinked, -⟩
  · exact throws_pure
  · exact throws_pure
  obtain ⟨first, rest, rfl⟩ := List.exists_cons_of_ne_nil hne
  have hanc := (inv.main.isMainChain_iff_ancestor inv.tree inv.tip_stored hfork).1 hmain
  dsimp only
  rw [hlinked.1.prev]
  refine ((disconnectTo_throws law h hanc (by omega)).mono ?_).bind fun c₁ hdisc => ?_
  · rintro p rfl
    simp [Panic.excluded]
  · obtain ⟨hrun, htip⟩ := disconnectTo_eq_ok hdisc
    obtain ⟨hmoves, hsame, inv₁, -⟩ := hrun.spec inv
    have hforkTip : c₁.tip = fork := by
      have := inv₁.tip_stored
      rw [hsame.entries, htip, hfork] at this
      exact (Option.some.inj this).symm
    obtain ⟨c₀, hnew, hrun₀⟩ := h
    exact connectQueue_safe law ⟨c₀, hnew, hrun₀.trans hmoves⟩
      (hforkTip ▸ hsame.linkedQueue hlinked)

end BitcoinNode.Chain

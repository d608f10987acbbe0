import BitcoinNode.Blockchain.ForkChoice

/-!
# Calls are sequences of moves

What `add`, `attach` and `add_header` did when they returned, and the refinement of the
runs of calls by runs of moves.
-/

namespace BitcoinNode.Chain

open Relation

variable {env : Env} {c c' : Chain} {block : Block} {entry prev : ChainEntry}

/-- A block that is not stored is not on the main chain. -/
theorem Inv.isMainHash_of_not_hasBlock (inv : c.Inv env) {hash : BlockHash}
    (h : c.db.hasBlock hash = false) : c.db.isMainHash hash = false := by
  rw [← Bool.not_eq_true]
  intro hmain
  cases he : c.db.getEntryByHash hash with
  | none => simp [ChainDB.isMainHash, he] at hmain
  | some e =>
    have hready := inv.main_ready ((inv.isMainHash_iff he).1 hmain)
    have := (isBlockReady_iff.1 hready).2
    simp [ChainDB.hasBlock, this] at h

theorem addBlock_eq_ok {r : Except BlockVerificationError Unit}
    (h : c.addBlock env block entry prev = .ok (c', r)) :
    c.db.hasBlock (env.blockHash block.header) = false
      ∧ block.header.prevBlockhash = prev.hash ∧ ∃ cache,
      ((∃ e, r = .error e ∧ c' = (c.withCache cache).setInvalid entry.hash)
        ∨ ∃ db, r = .ok () ∧ block.checkBody env = .ok ()
          ∧ (c.withCache cache).db.writeBlock env entry.hash block = .ok db
          ∧ c' = { c.withCache cache with db := db }) := by
  unfold addBlock at h
  split at h
  · cases h
  rename_i hnew
  simp only [bind_eq_ok] at h
  obtain ⟨⟨c₁, verified⟩, hverify, h⟩ := h
  obtain ⟨⟨cache, rfl⟩, hprev, hbody⟩ := verify_eq_ok hverify
  refine ⟨by simpa using hnew, hprev, cache, ?_⟩
  dsimp only at h
  split at h
  · cases h
    exact .inl ⟨_, rfl, rfl⟩
  · simp only [bind_eq_ok] at h
    obtain ⟨db, hdb, h⟩ := h
    cases h
    exact .inr ⟨db, rfl, hbody rfl, hdb, rfl⟩

/-- A written block is found, and nothing else changes in the store. -/
theorem getBlock_writeBlock (inv : c.Inv env) {hash : BlockHash} {db : ChainDB}
    (hnew : c.db.hasBlock hash = false) (h : c.db.writeBlock env hash block = .ok db) :
    (∀ x, db.getBlock x = if x = hash then some block else c.db.getBlock x)
      ∧ db = { c.db with blocks := db.blocks, downloaded := insert hash c.db.downloaded }
      ∧ db.blocks.undos = c.db.blocks.undos := by
  obtain ⟨blocks, hblocks, rfl⟩ := ChainDB.writeBlock_eq_ok h
  have hnot : hash ∉ c.db.blocks.blocks := by
    rw [← inv.downloaded_iff]
    simpa [ChainDB.hasBlock] using hnew
  unfold BlockStore.writeBlock at hblocks
  rw [if_neg hnot] at hblocks
  split_ifs at hblocks
  obtain rfl := Except.ok.inj hblocks
  refine ⟨?_, rfl, rfl⟩
  intro x
  unfold ChainDB.getBlock BlockStore.readBlock
  split_ifs with hx
  · rw [hx, Finmap.lookup_insert]
  · rw [Finmap.lookup_insert_of_ne _ hx]

/-- What `add` did with the block once its entry was known: it failed verification and was
marked, or it was written and fork choice went on from it. -/
theorem addWith_eq_ok (inv : c.Inv env) {r : Except BlockVerificationError ChainEntry}
    {hash : BlockHash} (hhash : env.blockHash block.header = entry.hash)
    (hprev : c.db.getEntryByHash hash = some prev)
    (h : c.addWith env block entry prev = .ok (c', r)) :
    c.db.hasBlock entry.hash = false ∧ ∃ cache,
      ((∃ e, r = .error e ∧ c' = (c.withCache cache).setInvalid entry.hash)
        ∨ ∃ db r', c.db.getEntryByHash entry.prevBlock = some prev
          ∧ block.checkBody env = .ok ()
          ∧ (c.withCache cache).db.writeBlock env entry.hash block = .ok db
          ∧ ({ c.withCache cache with db := db } : Chain).connectBest env entry prev (some block)
              = .ok (c', r')
          ∧ db.getBlock entry.hash = some block
          ∧ r = r'.map fun _ => entry) := by
  simp only [addWith, bind_eq_ok] at h
  obtain ⟨⟨c₁, added⟩, hadd, h⟩ := h
  obtain ⟨hnew, -, cache, ⟨e, rfl, rfl⟩ | ⟨db, rfl, hbody, hdb, rfl⟩⟩ := addBlock_eq_ok hadd
  · cases h
    exact ⟨hhash ▸ hnew, cache, .inl ⟨_, rfl, rfl⟩⟩
  rw [hhash] at hnew
  refine ⟨hnew, cache, .inr ?_⟩
  simp only [bind_eq_ok] at h
  obtain ⟨⟨c₂, connected⟩, hconnect, h⟩ := h
  have hparent : entry.prevBlock = prev.hash := by
    unfold connectBest at hconnect
    split at hconnect
    · cases hconnect
    · rename_i heq
      exact not_not.1 heq
  have inv' := inv.withCache cache
  refine ⟨db, connected, ?_, hbody, hdb, ?_, ?_, ?_⟩
  · rw [hparent]
    exact inv.tree.self hprev
  · cases connected <;> cases h <;> exact hconnect
  · rw [(getBlock_writeBlock inv' hnew hdb).1, if_pos rfl]
  · cases connected <;> cases h <;> rfl

/-! ## Refinement by moves -/

theorem withCache_moves (cache : VersionBitsCache) :
    ReflTransGen (Move env) c (c.withCache cache) :=
  .single (.cache cache)

/-- A block that fails is a child of the tip reached before it. -/
theorem Fails.spec (inv : c.Inv env) {queue : List Queued} {q : Queued} {c₁ : Chain}
    {e : BlockVerificationError} {cache : VersionBitsCache} (hqueue : c.LinkedQueue c.tip queue)
    (h : Fails env c queue q c₁ e cache) :
    ReflTransGen (Move env) c c₁ ∧ SameStore c c₁ ∧ c₁.Inv env ∧ c₁.Extends c₁.tip q.entry := by
  obtain ⟨before, after, rfl, hbefore⟩ := h.split
  obtain ⟨hlinked, hq, -⟩ := linkedQueue_append.1 hqueue
  obtain ⟨hmoves, hsame, inv₁, htip⟩ := hbefore.spec inv hlinked
  refine ⟨hmoves, hsame, inv₁, ?_, ?_, ?_⟩
  · rw [hsame.entries]
    exact hq.stored
  · rw [htip]
    exact hq.prev
  · rw [hsame.isBlockReady]
    exact hq.ready

theorem connectBest_moves (inv : c.Inv env) {block : Option Block}
    {r : Except BlockVerificationError Unit}
    (hentry : c.db.getEntryByHash entry.hash = some entry)
    (hprev : c.db.getEntryByHash entry.prevBlock = some prev)
    (hblock : ∀ b ∈ block, c.db.getBlock entry.hash = some b)
    (h : c.connectBest env entry prev block = .ok (c', r)) : ReflTransGen (Move env) c c' := by
  obtain ⟨queue, -,
    ⟨-, rfl, -⟩ | ⟨c₁, -, hlinked, hdisc, -, ⟨-, hconn⟩ | ⟨q, c₂, e, cache, hfails, -,
    rfl⟩⟩⟩ := connectBest_eq_ok inv hentry hprev hblock h
  · exact .refl
  · obtain ⟨hmoves, hsame, inv₁, -⟩ := hdisc.spec inv
    exact hmoves.trans (hconn.spec inv₁ (hsame.linkedQueue hlinked)).1
  · obtain ⟨hmoves, hsame, inv₁, -⟩ := hdisc.spec inv
    obtain ⟨hmoves', -, inv₂, hext⟩ := hfails.spec inv₁ (hsame.linkedQueue hlinked)
    exact ((hmoves.trans hmoves').tail (.cache cache)).tail
      (.invalid hext.stored (inv₂.isMainHash_child hext.stored hext.prev))

/-- Fork choice changes no stored header or block and forgets no invalid mark. -/
theorem connectBest_store (inv : c.Inv env) {block : Option Block}
    {r : Except BlockVerificationError Unit}
    (hentry : c.db.getEntryByHash entry.hash = some entry)
    (hprev : c.db.getEntryByHash entry.prevBlock = some prev)
    (hblock : ∀ b ∈ block, c.db.getBlock entry.hash = some b)
    (h : c.connectBest env entry prev block = .ok (c', r)) :
    c'.db.getEntryByHash = c.db.getEntryByHash ∧ c'.db.getBlock = c.db.getBlock
      ∧ c'.db.downloaded = c.db.downloaded ∧ c.db.invalid ⊆ c'.db.invalid := by
  obtain ⟨queue, -,
    ⟨-, rfl, -⟩ | ⟨c₁, -, hlinked, hdisc, -, ⟨-, hconn⟩ | ⟨q, c₂, e, cache, hfails, -,
    rfl⟩⟩⟩ := connectBest_eq_ok inv hentry hprev hblock h
  · exact ⟨rfl, rfl, rfl, subset_rfl⟩
  · obtain ⟨-, hsame, inv₁, -⟩ := hdisc.spec inv
    obtain ⟨-, hsame', -⟩ := hconn.spec inv₁ (hsame.linkedQueue hlinked)
    have := hsame.trans hsame'
    exact ⟨this.entries, this.blocks, this.downloaded, this.invalid.ge⟩
  · obtain ⟨-, hsame, inv₁, -⟩ := hdisc.spec inv
    obtain ⟨-, hsame', -⟩ := hfails.spec inv₁ (hsame.linkedQueue hlinked)
    have := hsame.trans hsame'
    exact ⟨this.entries, this.blocks, this.downloaded,
      this.invalid.ge.trans (Finset.subset_insert _ _)⟩

theorem addWith_moves (inv : c.Inv env) {r : Except BlockVerificationError ChainEntry}
    {hash : BlockHash} (hentry : c.db.getEntryByHash entry.hash = some entry)
    (hhash : env.blockHash block.header = entry.hash) (hprev : c.db.getEntryByHash hash = some prev)
    (h : c.addWith env block entry prev = .ok (c', r)) : ReflTransGen (Move env) c c' := by
  obtain ⟨hnew, cache, ⟨e, -, rfl⟩ | ⟨db, r', hparent, hbody, hwrite, hconnect, hget, -⟩⟩ :=
    addWith_eq_ok inv hhash hprev h
  · exact .tail (.single (.cache cache))
      (.invalid hentry (inv.isMainHash_of_not_hasBlock hnew))
  · have inv' := inv.withCache cache
    have hdb := (getBlock_writeBlock inv' hnew hwrite).2.1
    have hentries : db.getEntryByHash = c.db.getEntryByHash := by
      rw [hdb]
      rfl
    refine .head (.cache cache) (.head (.block hentry hhash hnew hbody hwrite)
      (connectBest_moves (inv'.writeBlock hentry hhash hnew hbody hwrite) ?_ ?_ ?_ hconnect))
    · exact (congrFun hentries _).trans hentry
    · exact (congrFun hentries _).trans hparent
    · rintro b ⟨⟩
      exact hget

theorem addHeader_moves {now : Nat} {header : BlockHeader}
    {r : Except BlockHeaderVerificationError (ChainEntry × ChainEntry)}
    (h : c.addHeader env now header = .ok (c', r)) : ReflTransGen (Move env) c c' := by
  cases r with
  | ok result => exact .single (.header h)
  | error e =>
    rcases addHeader_eq_ok h with ⟨_, -, rfl⟩ | ⟨_, _, _, _, hr, -⟩
    · exact .refl
    · cases hr

/-- What `add` did: its header was refused, or its entry was known or just saved and the
block went on from there. -/
theorem add_eq_ok {now : Nat} {r : Except BlockVerificationError ChainEntry}
    (h : c.add env now block = .ok (c', r)) :
    (∃ e, c.db.getEntryByHash (env.blockHash block.header) = none
        ∧ c.addHeader env now block.header = .ok (c, .error e) ∧ c' = c ∧ r = .error (.badHeader e))
      ∨ ∃ c₁ entry prev, c₁.addWith env block entry prev = .ok (c', r)
        ∧ (c₁ = c ∧ c.db.getEntryByHash (env.blockHash block.header) = some entry
            ∧ c.db.getEntryByHash block.header.prevBlockhash = some prev
          ∨ c.db.getEntryByHash (env.blockHash block.header) = none
            ∧ c.addHeader env now block.header = .ok (c₁, .ok (entry, prev))) := by
  unfold add at h
  split at h
  · rename_i entry hentry
    split at h
    · cases h
    · rename_i prev hprev
      exact .inr ⟨c, entry, prev, h, .inl ⟨rfl, hentry, hprev⟩⟩
  · rename_i hnone
    simp only [bind_eq_ok] at h
    obtain ⟨⟨c₁, header⟩, hheader, h⟩ := h
    dsimp only at h
    split at h
    · rename_i e
      cases h
      rcases addHeader_eq_ok hheader with ⟨_, -, rfl⟩ | ⟨_, _, _, _, hr, -⟩
      · exact .inl ⟨e, hnone, hheader, rfl, rfl⟩
      · cases hr
    · exact .inr ⟨c₁, _, _, h, .inr ⟨hnone, hheader⟩⟩

/-- A saved header is stored, next to its parent. -/
theorem addHeader_stored (inv : c.Inv env) {now : Nat} {header : BlockHeader}
    (h : c.addHeader env now header = .ok (c', .ok (entry, prev))) :
    c'.db.getEntryByHash entry.hash = some entry ∧ env.blockHash header = entry.hash
      ∧ entry.prevBlock = header.prevBlockhash
      ∧ c'.db.getEntryByHash header.prevBlockhash = some prev := by
  rcases addHeader_eq_ok h with ⟨_, hr, -⟩ | ⟨entry', prev', skip, db, hr, -, -, hnew, hprev, -,
    hentry, -, hsave, rfl⟩
  · cases hr
  cases hr
  obtain ⟨mostWork, rfl⟩ := ChainDB.saveEntry_eq_ok inv.idle hsave
  have hhash : entry.hash = env.blockHash header := by rw [hentry]; rfl
  refine ⟨?_, hhash.symm, by rw [hentry]; rfl, ?_⟩
  · rw [ChainDB.getEntryByHash_headerSaved, if_pos rfl]
  · rw [ChainDB.getEntryByHash_headerSaved, if_neg, hprev]
    intro heq
    rw [← hhash, ← heq, hprev] at hnew
    cases hnew

theorem add_moves (law : env.Lawful) (inv : c.Inv env) {now : Nat}
    {r : Except BlockVerificationError ChainEntry}
    (h : c.add env now block = .ok (c', r)) : ReflTransGen (Move env) c c' := by
  rcases add_eq_ok h with ⟨_, -, -, rfl, -⟩ | ⟨c₁, entry, prev, hadd, ⟨rfl, hentry, hprev⟩ |
    ⟨-, hheader⟩⟩
  · exact .refl
  · exact addWith_moves inv (inv.tree.self hentry) (inv.tree.hash_eq hentry).symm hprev hadd
  · obtain ⟨hentry, hhash, -, hprev⟩ := addHeader_stored inv hheader
    exact (addHeader_moves hheader).trans
      (addWith_moves (inv.addHeader law hheader) hentry hhash hprev hadd)

theorem attach_moves (inv : c.Inv env) {r : Except BlockVerificationError Unit}
    (hentry : c.db.getEntryByHash entry.hash = some entry)
    (h : c.attach env entry = .ok (c', r)) : ReflTransGen (Move env) c c' := by
  unfold attach at h
  split at h
  · cases h
    exact .refl
  split at h
  · cases h
  · rename_i prev hprev
    exact connectBest_moves inv hentry hprev (by simp) h

theorem discard_eq_ok {ε α : Type} {result : Except Panic (Returned ε α)}
    {f : ε → BlockVerificationError} {r : Except BlockVerificationError Unit}
    (h : discard result f = .ok (c', r)) :
    ∃ r', result = .ok (c', r')
      ∧ ((∃ a, r' = .ok a ∧ r = .ok ()) ∨ ∃ e, r' = .error e ∧ r = .error (f e)) := by
  unfold discard at h
  split at h <;> cases h
  · exact ⟨_, rfl, .inl ⟨_, rfl, rfl⟩⟩
  · exact ⟨_, rfl, .inr ⟨_, rfl, rfl⟩⟩

/-- A call that returned made a sequence of moves. -/
theorem step_moves (law : env.Lawful) (inv : c.Inv env) {call : Call}
    {r : Except BlockVerificationError Unit} (hcall : c.Permitted env call)
    (h : c.step env call = .ok (c', r)) : ReflTransGen (Move env) c c' := by
  cases call with
  | addHeader now header =>
    obtain ⟨r', h, -⟩ := discard_eq_ok h
    exact addHeader_moves h
  | add now block =>
    obtain ⟨r', h, -⟩ := discard_eq_ok h
    exact add_moves law inv h
  | attach entry => exact attach_moves inv hcall h
  | status prev deployment =>
    simp only [step, bind_eq_ok] at h
    obtain ⟨⟨cache, _⟩, -, h⟩ := h
    cases h
    exact withCache_moves cache

/-! ## Where a call reaches fork choice -/

/-- The header of a delivered block is known, or it was saved just now. -/
def HeaderOf (env : Env) (c : Chain) (now : Nat) (block : Block) (c₁ : Chain)
    (entry prev : ChainEntry) : Prop :=
  c₁ = c ∧ c.db.getEntryByHash (env.blockHash block.header) = some entry
      ∧ c.db.getEntryByHash block.header.prevBlockhash = some prev
    ∨ c.db.getEntryByHash (env.blockHash block.header) = none
      ∧ c.addHeader env now block.header = .ok (c₁, .ok (entry, prev))

theorem HeaderOf.unique {now : Nat} {c₁ c₂ : Chain} {entry' prev' : ChainEntry}
    (h : HeaderOf env c now block c₁ entry prev) (h' : HeaderOf env c now block c₂ entry' prev') :
    c₁ = c₂ ∧ entry = entry' ∧ prev = prev' := by
  rcases h with ⟨rfl, hentry, hprev⟩ | ⟨hnone, hheader⟩ <;>
    rcases h' with ⟨rfl, hentry', hprev'⟩ | ⟨hnone', hheader'⟩
  · exact ⟨rfl, Option.some.inj (hentry.symm.trans hentry'),
      Option.some.inj (hprev.symm.trans hprev')⟩
  · rw [hentry] at hnone'
    cases hnone'
  · rw [hentry'] at hnone
    cases hnone
  · cases hheader.symm.trans hheader'
    exact ⟨rfl, rfl, rfl⟩

/-- The call gets as far as `connect_best`, with the chain `c₁` and these arguments. -/
inductive Chooses (env : Env) (c : Chain) : Call → Chain → ChainEntry → ChainEntry →
    Option Block → Prop where
  | add {now : Nat} {block : Block} {c₁ c₂ : Chain} {entry prev : ChainEntry} :
      HeaderOf env c now block c₁ entry prev →
      c₁.addBlock env block entry prev = .ok (c₂, .ok ()) →
      Chooses env c (.add now block) c₂ entry prev (some block)
  | attach {entry prev : ChainEntry} : c.db.isMainChain entry = false →
      c.db.getEntryByHash entry.prevBlock = some prev →
      Chooses env c (.attach entry) c entry prev none

theorem addHeader_tip {now : Nat} {header : BlockHeader}
    {r : Except BlockHeaderVerificationError (ChainEntry × ChainEntry)}
    (h : c.addHeader env now header = .ok (c', r)) : c'.tip = c.tip := by
  rcases addHeader_eq_ok h with ⟨_, -, rfl⟩ | ⟨_, _, _, _, -, -, -, -, -, -, -, -, -, rfl⟩ <;> rfl

/-! ## Reachable states -/

/-- The states between calls are among the states passed through. -/
theorem Reachable.visited (law : env.Lawful) (h : Reachable env c) : Visited env c := by
  induction h with
  | new hnew => exact ⟨_, hnew, .refl⟩
  | step _ hcall hstep ih =>
    obtain ⟨c₀, hnew, hrun⟩ := ih
    exact ⟨c₀, hnew, hrun.trans (step_moves law (Visited.inv law ⟨c₀, hnew, hrun⟩) hcall hstep)⟩

theorem Reachable.inv (law : env.Lawful) (h : Reachable env c) : c.Inv env :=
  (h.visited law).inv law

end BitcoinNode.Chain

import BitcoinNode.Blockchain.Straight

/-!
# The work of the tip

A call leaves the tip with at least as much work as before, unless a reorganization fails
half-way: `connect_best` does not go back to the branch it disconnected.
-/

namespace BitcoinNode.Chain

open Relation

variable {env : Env} {c c' : Chain} {block : Block} {entry prev : ChainEntry}
  {queue : List Queued}

/-! ## Failing queues -/

/-- A block of the queue fails verification on top of the blocks before it, which end in less
work than the tip that was disconnected for them. -/
def FailsBelow (env : Env) (c : Chain) (queue : List Queued) : Prop :=
  ∃ before q after c₁ c₂ block cache e, queue = before ++ q :: after
    ∧ disconnectTo env ((before ++ [q]).head (by simp)).entry.prevBlock
      (c.tip.height + 1) c = .ok c₁
    ∧ connectQueue env before c₁ = .ok (c₂, .ok ())
    ∧ q.block.or (c₂.db.getBlock q.entry.hash) = some block
    ∧ c₂.verifyContext env block q.prev = .ok (c₂.withCache cache, .error e)
    ∧ c₂.tip.chainwork < c.tip.chainwork

theorem connectQueue_append {before after : List Queued} {c₁ : Chain}
    (h : connectQueue env before c = .ok (c₁, .ok ())) :
    connectQueue env (before ++ after) c = connectQueue env after c₁ := by
  induction before generalizing c with
  | nil =>
    cases h
    rfl
  | cons q before ih =>
    rw [List.cons_append, connectQueue]
    rw [connectQueue] at h
    split at h
    · cases h
    simp only [bind_eq_ok] at h
    obtain ⟨⟨c₂, connected⟩, hconnect, h⟩ := h
    rw [hconnect]
    cases connected with
    | error e => cases h
    | ok _ => exact ih h

/-- A queue that fails was connected up to the block that fails verification. -/
theorem connectQueue_eq_error {e : BlockVerificationError}
    (h : connectQueue env queue c = .ok (c', .error e)) :
    ∃ before q after c₂ block cache, queue = before ++ q :: after
      ∧ connectQueue env before c = .ok (c₂, .ok ())
      ∧ q.block.or (c₂.db.getBlock q.entry.hash) = some block
      ∧ c₂.verifyContext env block q.prev = .ok (c₂.withCache cache, .error e)
      ∧ c' = (c₂.withCache cache).setInvalid q.entry.hash := by
  induction queue generalizing c with
  | nil => cases h
  | cons q queue ih =>
    rw [connectQueue] at h
    split at h
    · cases h
    rename_i block hblock
    simp only [bind_eq_ok] at h
    obtain ⟨⟨c₁, connected⟩, hconnect, h⟩ := h
    obtain ⟨-, -, cache, ⟨e', rfl, rfl, hverify⟩ | ⟨view, state, db, rfl, -⟩⟩ :=
      connect_eq_ok hconnect
    · cases h
      exact ⟨[], q, queue, c, block, cache, rfl, rfl, hblock, hverify, rfl⟩
    · obtain ⟨before, q', after, c₂, block', cache', rfl, hbefore, hrest⟩ := ih h
      refine ⟨q :: before, q', after, c₂, block', cache', rfl, ?_, hrest⟩
      rw [connectQueue, hblock]
      dsimp only
      rw [hconnect]
      exact hbefore

/-- Fork choice lowers the work of the tip exactly when its queue fails too early. -/
theorem connectBest_chainwork_le_iff (inv : c.Inv env) {b : Option Block}
    {r : Except BlockVerificationError Unit}
    (hentry : c.db.getEntryByHash entry.hash = some entry)
    (hprev : c.db.getEntryByHash entry.prevBlock = some prev)
    (hblock : ∀ block ∈ b, c.db.getBlock entry.hash = some block)
    (hqueue : c.buildQueue entry prev b = .ok queue)
    (h : c.connectBest env entry prev b = .ok (c', r)) :
    c.tip.chainwork ≤ c'.tip.chainwork ↔ ¬ c.FailsBelow env queue := by
  have hcases := connectBest_eq_ok inv hentry hprev hblock h
  unfold connectBest at h
  split at h
  · cases h
  rw [hqueue] at h hcases
  constructor
  · rintro hle ⟨before, q, after, c₁, c₂, block, cache, e, rfl, hdisc, hbefore, hb, hverify, hlt⟩
    obtain ⟨first, rest, hfirst⟩ := List.exists_cons_of_ne_nil
      (show before ++ q :: after ≠ [] by simp)
    have hhead : (before ++ [q]).head (by simp) = first := by
      cases before with
      | nil => exact (List.cons.inj hfirst).1
      | cons q' before => exact (List.cons.inj hfirst).1
    rw [hhead] at hdisc
    have hrun : connectQueue env (before ++ q :: after) c₁ = .ok (c', r) := by
      rw [hfirst, bind_of_ok rfl] at h
      dsimp only at h
      rw [hdisc, bind_of_ok rfl] at h
      rw [hfirst, h]
    rw [connectQueue_append hbefore, connectQueue, hb] at hrun
    simp only [bind_eq_ok] at hrun
    obtain ⟨⟨c₃, connected⟩, hconnect, hrun⟩ := hrun
    obtain ⟨-, -, cache', ⟨e', rfl, rfl, -⟩ | ⟨view, state, db, -, hverify', -⟩⟩ :=
      connect_eq_ok hconnect
    · cases hrun
      exact absurd hle (Nat.not_le.2 hlt)
    · rw [hverify] at hverify'
      cases hverify'
  · intro hfails
    obtain ⟨_, hok, ⟨-, rfl, -⟩ | ⟨c₁, -, hlinked, hdisc, hwork, ⟨-, hconn⟩ |
      ⟨q, c₂, e, cache, -, rfl, -⟩⟩⟩ := hcases
    · exact le_rfl
    · obtain rfl := Except.ok.inj hok
      obtain ⟨-, hsame, inv₁, -⟩ := hdisc.spec inv
      obtain ⟨-, -, -, htip⟩ := hconn.spec inv₁ (hsame.linkedQueue hlinked)
      rw [htip]
      exact hwork.le
    · by_contra hlt
      cases queue with
      | nil => cases h
      | cons first rest =>
        rw [bind_of_ok rfl] at h
        simp only [bind_eq_ok] at h
        obtain ⟨c₁, hto, h⟩ := h
        obtain ⟨before, q, after, c₂, block, cache, hsplit, hbefore, hb, hverify, rfl⟩ :=
          connectQueue_eq_error h
        refine hfails ⟨before, q, after, c₁, c₂, block, cache, e, hsplit, ?_, hbefore, hb, hverify,
          Nat.not_le.1 hlt⟩
        cases before with
        | nil => exact (List.cons.inj hsplit).1 ▸ hto
        | cons q' before => exact (List.cons.inj hsplit).1 ▸ hto

/-! ## Calls -/

/-- The call starts a reorganization that fails below the work of the tip. -/
def FailsReorg (env : Env) (c : Chain) (call : Call) : Prop :=
  ∃ c₁ entry prev block queue, c.Chooses env call c₁ entry prev block
    ∧ c₁.buildQueue entry prev block = .ok queue ∧ c₁.FailsBelow env queue

/-- A call that does not start a failing reorganization. -/
def SoundStep (env : Env) (c c' : Chain) : Prop :=
  ∃ call r, c.Permitted env call ∧ c.step env call = .ok (c', r) ∧ ¬ c.FailsReorg env call

/-- `add` lowers the work of the tip exactly when the queue of its block fails too early. -/
theorem addWith_chainwork_le_iff (inv : c.Inv env) {hash : BlockHash}
    {r : Except BlockVerificationError ChainEntry}
    (hentry : c.db.getEntryByHash entry.hash = some entry)
    (hhash : env.blockHash block.header = entry.hash) (hprev : c.db.getEntryByHash hash = some prev)
    (h : c.addWith env block entry prev = .ok (c', r)) :
    c.tip.chainwork ≤ c'.tip.chainwork ↔ ¬ ∃ c₂ queue,
      c.addBlock env block entry prev = .ok (c₂, .ok ())
        ∧ c₂.buildQueue entry prev (some block) = .ok queue ∧ c₂.FailsBelow env queue := by
  obtain ⟨-, -, hcases⟩ := addWith_eq_ok inv hhash hprev h
  simp only [addWith, bind_eq_ok] at h
  obtain ⟨⟨c₂, added⟩, hadd, h⟩ := h
  obtain ⟨hnew, -, cache, ⟨e, rfl, rfl⟩ | ⟨db, rfl, hbody, hwrite, rfl⟩⟩ := addBlock_eq_ok hadd
  · cases h
    exact iff_of_true le_rfl (by rintro ⟨_, _, hok, -⟩; simp [hadd] at hok)
  simp only [bind_eq_ok] at h
  obtain ⟨⟨c₃, connected⟩, hconnect, h⟩ := h
  rw [hhash] at hnew
  have inv' := inv.withCache cache
  obtain ⟨hget, hdb, -⟩ := getBlock_writeBlock inv' hnew hwrite
  have hentries : db.getEntryByHash = c.db.getEntryByHash := by
    rw [hdb]
    rfl
  have hparent : db.getEntryByHash entry.prevBlock = some prev := by
    unfold connectBest at hconnect
    split at hconnect
    · cases hconnect
    · rename_i heq
      rw [hentries, not_not.1 heq, inv.tree.self hprev]
  have hc' : c' = c₃ := by cases connected <;> cases h <;> rfl
  obtain ⟨queue, hqueue, -⟩ := connectBest_eq_ok (inv'.writeBlock hentry hhash hnew hbody hwrite)
    ((congrFun hentries _).trans hentry) hparent (by rintro b ⟨⟩; simp [hget]) hconnect
  have hiff := connectBest_chainwork_le_iff (inv'.writeBlock hentry hhash hnew hbody hwrite)
    ((congrFun hentries _).trans hentry) hparent (by rintro b ⟨⟩; simp [hget]) hqueue hconnect
  rw [hc']
  refine hiff.trans (not_congr ⟨fun hfails => ⟨_, queue, hadd, hqueue, hfails⟩, ?_⟩)
  rintro ⟨c₄, queue', hadd', hqueue', hfails⟩
  rw [hadd] at hadd'
  cases hadd'
  rw [hqueue] at hqueue'
  cases hqueue'
  exact hfails

theorem step_chainwork_le_iff (law : env.Lawful) (inv : c.Inv env) {call : Call}
    {r : Except BlockVerificationError Unit} (hcall : c.Permitted env call)
    (h : c.step env call = .ok (c', r)) :
    c.tip.chainwork ≤ c'.tip.chainwork ↔ ¬ c.FailsReorg env call := by
  cases call with
  | addHeader now header =>
    obtain ⟨r', h, -⟩ := discard_eq_ok h
    exact iff_of_true (addHeader_tip h ▸ le_rfl) (by rintro ⟨_, _, _, _, _, ⟨⟩, -⟩)
  | status prev deployment =>
    simp only [step, bind_eq_ok] at h
    obtain ⟨⟨cache, _⟩, -, h⟩ := h
    cases h
    exact iff_of_true le_rfl (by rintro ⟨_, _, _, _, _, ⟨⟩, -⟩)
  | attach entry =>
    simp only [step, attach] at h
    split at h
    · rename_i hmain
      cases h
      refine iff_of_true le_rfl ?_
      rintro ⟨_, _, _, _, _, _ | ⟨hoff, -⟩, -⟩
      rw [hmain] at hoff
      cases hoff
    rename_i hmain
    split at h
    · cases h
    rename_i prev hprev
    obtain ⟨queue, hqueue, -⟩ := connectBest_eq_ok inv hcall hprev (by simp) h
    refine (connectBest_chainwork_le_iff inv hcall hprev (by simp) hqueue h).trans
      (not_congr ⟨fun hfails => ⟨c, entry, prev, none, queue,
        .attach (by simpa using hmain) hprev, hqueue, hfails⟩, ?_⟩)
    rintro ⟨_, _, _, _, _, _ | ⟨-, hprev'⟩, hqueue', hfails⟩
    cases hprev.symm.trans hprev'
    cases hqueue.symm.trans hqueue'
    exact hfails
  | add now block =>
    obtain ⟨r', h, -⟩ := discard_eq_ok h
    rcases add_eq_ok h with ⟨e, hnone, hheader, rfl, -⟩ | ⟨c₁, entry, prev, hadd, hcases⟩
    · refine iff_of_true le_rfl ?_
      rintro ⟨_, _, _, _, _, ⟨⟨-, hsome, -⟩ | ⟨-, hok⟩, -⟩ | _, -⟩
      · rw [hnone] at hsome
        cases hsome
      · rw [hheader] at hok
        cases hok
    · have hof : HeaderOf env c now block c₁ entry prev := hcases
      have hiff : c₁.tip = c.tip ∧ (c₁.tip.chainwork ≤ c'.tip.chainwork ↔ ¬ ∃ c₂ queue,
          c₁.addBlock env block entry prev = .ok (c₂, .ok ())
            ∧ c₂.buildQueue entry prev (some block) = .ok queue ∧ c₂.FailsBelow env queue) := by
        rcases hcases with ⟨rfl, hentry, hprev⟩ | ⟨-, hheader⟩
        · exact ⟨rfl, addWith_chainwork_le_iff inv (inv.tree.self hentry)
            (inv.tree.hash_eq hentry).symm hprev hadd⟩
        · obtain ⟨hentry, hhash, -, hprev⟩ := addHeader_stored inv hheader
          exact ⟨addHeader_tip hheader,
            addWith_chainwork_le_iff (inv.addHeader law hheader) hentry hhash hprev hadd⟩
      rw [hiff.1] at hiff
      refine hiff.2.trans (not_congr ⟨?_, ?_⟩)
      · rintro ⟨c₂, queue, hadd, hqueue, hfails⟩
        exact ⟨c₂, entry, prev, some block, queue, .add hof hadd, hqueue, hfails⟩
      · rintro ⟨_, _, _, _, _, ⟨hof', hadd'⟩ | _, hqueue', hfails⟩
        obtain ⟨rfl, rfl, rfl⟩ := hof.unique hof'
        exact ⟨_, _, hadd', hqueue', hfails⟩

/-- The work of the tip goes down exactly in the calls that start a failing reorganization,
and so never in a run without such calls. -/
theorem tip_chainwork_le (law : env.Lawful) (h : Reachable env c) :
    (∀ call c' r, c.Permitted env call → c.step env call = .ok (c', r) →
      (c.tip.chainwork ≤ c'.tip.chainwork ↔ ¬ c.FailsReorg env call))
      ∧ ∀ c', ReflTransGen (SoundStep env) c c' → c.tip.chainwork ≤ c'.tip.chainwork := by
  refine ⟨fun call c' r hcall hstep => step_chainwork_le_iff law (h.inv law) hcall hstep, ?_⟩
  intro c' hrun
  suffices Reachable env c' ∧ c.tip.chainwork ≤ c'.tip.chainwork from this.2
  induction hrun with
  | refl => exact ⟨h, le_rfl⟩
  | tail _ hstep ih =>
    obtain ⟨call, r, hcall, hstep, hsound⟩ := hstep
    obtain ⟨hreach, hle⟩ := ih
    exact ⟨hreach.step hcall hstep,
      hle.trans ((step_chainwork_le_iff law (hreach.inv law) hcall hstep).2 hsound)⟩

/-- The rule at a fresh chain that is given its first block. -/
theorem tip_chainwork_le_first : ∃ c c' r, Reachable Small.env c
    ∧ c.step Small.env (.add 100 Small.first) = .ok (c', r)
    ∧ (c.tip.chainwork ≤ c'.tip.chainwork ↔ ¬ c.FailsReorg Small.env (.add 100 Small.first)) := by
  obtain ⟨c, hc, hP⟩ := exists_reachable Small.env []
    (fun c => match c.step Small.env (.add 100 Small.first) with
      | .ok _ => true
      | .error _ => false) (by decide) (by decide +kernel)
  split at hP
  · rename_i result hstep
    exact ⟨c, result.1, result.2, hc, hstep,
      (tip_chainwork_le Small.lawful hc).1 (.add 100 Small.first) _ _ trivial hstep⟩
  · cases hP

end BitcoinNode.Chain

namespace BitcoinNode.Small

/-! ## A reorganization that fails

A hundred blocks, so that the first coinbase can be spent; a block on top that spends it,
which is what makes it possible to disconnect it; and a heavier branch of two blocks beside
it, the first of which claims too much. -/

/-- The small network with headers numbered by their nonce, for longer runs. -/
def numbered : Env := { env with blockHash := fun header => header.nonce + 1 }

theorem numbered_lawful : numbered.Lawful where
  blockHash_ne_zero _ := Nat.succ_ne_zero _
  work_pos _ _ := Nat.two_pos
  genesis_prev := rfl

theorem numbered_plain : Plain numbered where
  law := numbered_lawful
  blockHash _ := rfl
  txid _ _ := id
  genesis := rfl
  pow _ := rfl
  merkle _ := rfl
  witness _ := rfl
  weight _ := rfl
  size _ := rfl
  instructions _ := rfl
  unspendable _ := rfl
  minDifficulty := rfl
  halving := rfl
  deployments := rfl

def hundred : List Block :=
  (List.range 100).map fun n => block (n + 1) (20 + n) (n + 1) [coinbase (n + 1) 5000000000]

/-- What blocks behind the hundred lead to. -/
theorem run_hundred {env : Env} (h : Plain env)
    (hnew : Chain.new env = .ok ((rewards h 19 id).chain 0))
    (hheight : 100 < env.network.bip34Height) (blocks : List Block) :
    Chain.run env ((hundred ++ blocks).map (.add 1000))
      = Chain.runFrom env ((rewards h 19 id).chain 100) (blocks.map (.add 1000)) := by
  have hextends : ∀ k < 100, (rewards h 19 id).Extends 1000 k := fun k hk =>
    rewards_extends h (by decide) (by decide) hheight (by decide)
      (fun i hi => Nat.lt_of_le_of_lt hi (by decide)) (fun i j _ hij _ => hij.ne) hk
  have hblocks : hundred = (List.range 100).map fun k => (rewards h 19 id).block (k + 1) :=
    List.map_congr_left fun k _ =>
      congrArg (block (k + 1) · (k + 1) [coinbase (k + 1) 5000000000]) (by omega)
  rw [List.map_append, hblocks, List.map_map]
  exact Straight.run_eq hnew hextends _

/-- Spends the first coinbase. -/
def spending : Block :=
  block 101 120 101 [coinbase 101 5000000000, {
    version := 1
    lockTime := 0
    input := [⟨⟨txid (coinbase 1 5000000000), 0⟩, [], 0, []⟩]
    output := [⟨4000000000, []⟩] }]

def overpaidSibling : Block := block 101 120 201 [coinbase 101 9000000000]

def overtaking : Block := block 202 121 202 [coinbase 102 5000000000]

/-- Whether the call leaves the tip with less work. -/
def losesWork (c : Chain) : Bool :=
  match c.step numbered (.add 1000 overtaking) with
  | .ok (c', _) => decide (c'.tip.chainwork < c.tip.chainwork)
  | .error _ => false

set_option maxRecDepth 20000 in
/-- After the heavier branch fails, the node stays at the fork, below the block it had. -/
theorem overtaking_loses_work : ∃ c c' r, Chain.Reachable numbered c
    ∧ c.step numbered (.add 1000 overtaking) = .ok (c', r)
    ∧ c'.tip.chainwork < c.tip.chainwork := by
  obtain ⟨c, hc, hP⟩ := Chain.exists_reachable numbered
    ((hundred ++ [spending, overpaidSibling]).map (.add 1000)) losesWork (by decide) (by
      rw [run_hundred numbered_plain rfl (by decide)]
      decide +kernel)
  unfold losesWork at hP
  split at hP
  · rename_i c' r hstep
    exact ⟨c, c', r, hc, hstep, of_decide_eq_true hP⟩
  · cases hP

end BitcoinNode.Small

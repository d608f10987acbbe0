import BitcoinNode.Blockchain.Deployments
import BitcoinNode.Blockchain.Restart

/-!
# Histories of deployment queries

Runs in which headers are stored and deployments are asked about, in any order, with restarts that
empty the version-bits cache. As long as no query has two boundaries to compute, the answer is that
of the machine but for one window, whatever was asked before.
-/

namespace BitcoinNode

/-- A call of `get_deployment_status` -/
structure Query where
  prev : ChainEntry
  deployment : Deployment

namespace Chain

open ChainDB Relation

variable {env : Env} {c c' : Chain} {asked : List Query} {q : Query} {d : Deployment}
  {e b p : ChainEntry} {start : Nat}

/-- A query of the deployment was about the boundary. -/
def Asked (env : Env) (db : ChainDB) (asked : List Query) (d : Deployment) (b : ChainEntry) :
    Prop :=
  ∃ q ∈ asked, q.deployment = d ∧ LastEnd env db q.prev b

/-- Of the boundary that a query is about and the one before it, one was asked about before, or
there is no time for anything to have happened at the lower one. -/
def Due (env : Env) (c : Chain) (asked : List Query) (q : Query) : Prop :=
  ∀ start, q.deployment.startTime = .startTime start →
    DueIn env c.db (Asked env c.db asked q.deployment) start q.prev

/-- What has been asked since the node started, and the chain it has. Any move of the chain may
come between two queries; a restart keeps the stored headers and empties the cache. -/
inductive History (env : Env) (C : Chain → List Query → Query → Prop) : List Query → Chain → Prop
  | new {c : Chain} : Chain.new env = .ok c → History env C [] c
  | move {c c' : Chain} {asked : List Query} : History env C asked c → Move env c c' →
      c'.db.versionBitsCache.bits = c.db.versionBitsCache.bits → History env C asked c'
  | restart {c : Chain} {asked : List Query} : History env C asked c →
      History env C [] (c.withCache (.new env.network))
  | query {c : Chain} {asked : List Query} {q : Query} {cache : VersionBitsCache}
      {state : ThresholdState} : History env C asked c →
      c.db.getEntryByHash q.prev.hash = some q.prev → q.deployment ∈ env.network.deployments →
      C c asked q →
      c.db.getDeploymentStatus env (some q.prev) q.deployment = .ok (cache, state) →
      History env C (asked ++ [q]) (c.withCache cache)

theorem History.visited {C : Chain → List Query → Query → Prop} (h : History env C asked c) :
    Visited env c := by
  induction h with
  | new h => exact ⟨_, h, .refl⟩
  | move _ hmove _ ih =>
    obtain ⟨c₀, hnew, hrun⟩ := ih
    exact ⟨c₀, hnew, hrun.tail hmove⟩
  | restart _ ih | query _ _ _ _ _ ih =>
    obtain ⟨c₀, hnew, hrun⟩ := ih
    exact ⟨c₀, hnew, hrun.tail (.cache _)⟩

theorem History.mono {C C' : Chain → List Query → Query → Prop} (h : History env C asked c)
    (hC : ∀ c asked q, C c asked q → C' c asked q) : History env C' asked c := by
  induction h with
  | new h => exact .new h
  | move _ hmove hcache ih => exact ih.move hmove hcache
  | restart _ ih => exact ih.restart
  | query _ he hd hdue hquery ih => exact ih.query he hd (hC _ _ _ hdue) hquery

/-! ## What is remembered -/

/-- The cache tells the truth, and holds what was asked. -/
structure Remembered (env : Env) (c : Chain) (asked : List Query) : Prop where
  sound : Sound env c.db c.db.versionBitsCache
  stored {q : Query} : q ∈ asked → c.db.getEntryByHash q.prev.hash = some q.prev
  cached {q : Query} {start : Nat} {b : ChainEntry} : q ∈ asked →
    q.deployment.startTime = .startTime start → LastEnd env c.db q.prev b →
    Cached c.db.versionBitsCache q.deployment b

theorem get_congr {cache cache' : VersionBitsCache} (h : cache'.bits = cache.bits) :
    cache'.get = cache.get := by
  funext bit hash
  rw [VersionBitsCache.get, VersionBitsCache.get, h]

theorem Remembered.new
    (hcache : c.db.versionBitsCache.bits = (VersionBitsCache.new env.network).bits) :
    Remembered env c [] := by
  have hget := get_congr hcache
  refine ⟨⟨fun hd hash => ⟨none, ?_⟩, fun hd _ h => ?_⟩, fun h => absurd h List.not_mem_nil,
    fun h => absurd h List.not_mem_nil⟩
  · rw [hget, VersionBitsCache.get_new hd]
  · rw [hget, VersionBitsCache.get_new hd] at h
    cases h

/-- Entries stored later do not change what a stored entry's branch is. -/
theorem lastEnd_mono {db db' : ChainDB} (tree : db.Tree env) (tree' : db'.Tree env)
    (hmono : ∀ hash e, db.getEntryByHash hash = some e → db'.getEntryByHash hash = some e)
    (he : db.getEntryByHash e.hash = some e) : LastEnd env db' e b ↔ LastEnd env db e b := by
  refine ⟨fun h => ?_, fun h => ⟨Forest.Ancestor.mono hmono h.1, h.2⟩⟩
  have hle := tree'.rooted.rank_le_of_ancestor (hmono _ _ he) h.1
  obtain ⟨b₀, hb₀⟩ := tree.rooted.exists_climb he (Nat.sub_le e.height b.height)
  have hanc := Forest.ancestor_of_climb hb₀
  have hrank := tree.rooted.rank_climb he hb₀
  obtain rfl := tree'.rooted.ancestor_unique (hmono _ _ he) h.1 (Forest.Ancestor.mono hmono hanc)
    (by omega)
  exact ⟨hanc, h.2⟩

theorem sound_mono {db db' : ChainDB} {cache cache' : VersionBitsCache} (law : env.Lawful)
    (tree : db.Tree env) (tree' : db'.Tree env)
    (hmono : ∀ hash e, db.getEntryByHash hash = some e → db'.getEntryByHash hash = some e)
    (hget : cache'.get = cache.get) (h : Sound env db cache) : Sound env db' cache' := by
  refine ⟨fun hd hash => ?_, fun hd hstart hstate => ?_⟩
  · rw [hget]
    exact h.known hd hash
  · rw [hget] at hstate
    obtain ⟨b, hb, rfl⟩ := h.state hd hstart hstate
    exact ⟨b, hmono _ _ hb, (stateAfter_mono law tree tree' hmono (tree.self hb)).symm⟩

theorem Remembered.move (law : env.Lawful) (inv : c.Inv env) (h : Remembered env c asked)
    (hmove : Move env c c')
    (hcache : c'.db.versionBitsCache.bits = c.db.versionBitsCache.bits) :
    Remembered env c' asked := by
  have inv' := inv.move law hmove
  have hmono := hmove.entries_mono inv
  have hget := get_congr hcache
  refine ⟨sound_mono law inv.tree inv'.tree hmono hget h.sound, fun hq => hmono _ _ (h.stored hq),
    fun hq hstart hend => ?_⟩
  rw [lastEnd_mono inv.tree inv'.tree hmono (h.stored hq)] at hend
  rw [Cached, hget]
  exact h.cached hq hstart hend

/-- The answer to a query that is due. -/
theorem Remembered.query (law : env.Lawful) (hc : Visited env c) (h : Remembered env c asked)
    (he : c.db.getEntryByHash q.prev.hash = some q.prev)
    (hd : q.deployment ∈ env.network.deployments) (hdue : Due env c asked q)
    (hstart : q.deployment.startTime = .startTime start) :
    ∃ cache, c.db.getDeploymentStatus env (some q.prev) q.deployment
        = .ok (cache, stateAfter env c.db q.deployment start q.prev)
      ∧ Remembered env (c.withCache cache) (asked ++ [q]) := by
  have inv := hc.inv law
  obtain ⟨cache, hquery, hsound, hkeeps, hcached⟩ := h.sound.getDeploymentStatus inv.tree hd hstart
    inv.main (hc.skips law) (hc.timely law) he fun b b' hend hanc hheight => by
      rcases hdue start hstart b b' hend hanc hheight with hasked | hasked | hearly
      · obtain ⟨q', hq', hsame, hend'⟩ := hasked
        exact .inl (hsame ▸ h.cached hq' (hsame ▸ hstart) hend')
      · obtain ⟨q', hq', hsame, hend'⟩ := hasked
        exact .inr (.inl (hsame ▸ h.cached hq' (hsame ▸ hstart) hend'))
      · exact .inr (.inr hearly)
  refine ⟨cache, hquery,
    sound_mono law inv.tree (inv.withCache cache).tree (fun _ _ => id) rfl hsound,
    fun hq => ?_, fun hq hstart' hend => ?_⟩
  · rcases List.mem_append.1 hq with hq | hq
    · exact h.stored hq
    · exact List.mem_singleton.1 hq ▸ he
  · rcases List.mem_append.1 hq with hq | hq
    · exact hkeeps _ _ (h.cached hq hstart' hend)
    · obtain rfl := List.mem_singleton.1 hq
      exact hcached _ hend

/-! ## Queries in order -/

theorem due_again (h : ⟨e, d⟩ ∈ asked) : Due env c asked ⟨e, d⟩ :=
  fun _ _ _ _ hend _ _ => .inl ⟨_, h, rfl, hend⟩

/-- Nothing has to be computed below the first entry. -/
theorem due_first (tree : c.db.Tree env) : Due env c asked ⟨env.genesisEntry, d⟩ := by
  intro start _ b b' hend _ hheight
  have hle := tree.rooted.rank_le_of_ancestor tree.genesis hend.1
  have hzero : env.genesisEntry.height = 0 := tree.rooted.rank_root
  have := env.network.minerConfirmationWindow_pos
  omega

/-- A query about an entry is due once its parent was asked about. -/
theorem due_child (tree : c.db.Tree env) (he : c.db.getEntryByHash e.hash = some e)
    (hp : c.db.getEntryByHash e.prevBlock = some p) (h : ⟨p, d⟩ ∈ asked) :
    Due env c asked ⟨e, d⟩ := by
  rintro start - b b' hend hanc hheight
  have hheights := tree.height_eq he hp
  have hparent : c.db.Ancestor e p := .single hp
  have hpos := env.network.minerConfirmationWindow_pos
  have hle := tree.rooted.rank_le_of_ancestor he hend.1
  have hbelow {a : ChainEntry} (ha : c.db.Ancestor e a) (hlt : a.height < e.height) :
      c.db.Ancestor p a := tree.rooted.ancestor_of_rank_le he hparent ha (by omega)
  have hend' : b.height + 1 = windows env e * env.network.minerConfirmationWindow := hend.2
  by_cases heq : b.height = e.height
  · -- the entry ends a window, and its parent lies in it
    obtain ⟨n, hn⟩ : ∃ n, windows env e = n + 1 :=
      Nat.exists_eq_succ_of_ne_zero fun hzero => by rw [hzero, Nat.zero_mul] at hend'; omega
    rw [hn, Nat.succ_mul] at hend'
    have hwindows : windows env p = n :=
      Nat.div_eq_of_lt_le (by omega) (by rw [Nat.succ_mul]; omega)
    refine .inr (.inl ⟨_, h, rfl, hbelow (hend.1.trans hanc) (by omega), ?_⟩)
    rw [hwindows]
    omega
  · have hmod := Nat.div_add_mod' (e.height + 1) env.network.minerConfirmationWindow
    have hrest := Nat.mod_lt (e.height + 1) hpos
    change windows env e * _ + _ = _ at hmod
    have hwindows : windows env p = windows env e :=
      Nat.div_eq_of_lt_le (by omega) (by rw [Nat.succ_mul]; omega)
    refine .inl ⟨_, h, rfl, hbelow hend.1 (by omega), ?_⟩
    rw [hwindows]
    exact hend'

theorem getDeploymentStatus_alwaysActive (h : d.startTime = .alwaysActive) :
    c.db.getDeploymentStatus env (some e) d = .ok (c.db.versionBitsCache, .active) := by
  simp only [ChainDB.getDeploymentStatus, h]

theorem History.remembered (law : env.Lawful) (h : History env (Due env) asked c) :
    Remembered env c asked := by
  induction h with
  | new h =>
    obtain ⟨mostWork, rfl⟩ := new_eq_ok law h
    exact .new rfl
  | move hhistory hmove hcache ih => exact ih.move law (hhistory.visited.inv law) hmove hcache
  | restart _ _ => exact .new rfl
  | @query c asked q cache state hhistory he hd hdue hquery ih =>
    cases hstart : q.deployment.startTime with
    | alwaysActive =>
      rw [getDeploymentStatus_alwaysActive hstart] at hquery
      obtain ⟨rfl, -⟩ := Prod.mk.inj (Except.ok.inj hquery)
      refine ⟨ih.sound, fun hq => ?_, fun {q' start b} hq hstart' hend => ?_⟩
      · rcases List.mem_append.1 hq with hq | hq
        · exact ih.stored hq
        · exact List.mem_singleton.1 hq ▸ he
      · rcases List.mem_append.1 hq with hq | hq
        · exact ih.cached hq hstart' hend
        · rw [List.mem_singleton.1 hq, hstart] at hstart'
          cases hstart'
    | startTime start =>
      obtain ⟨cache', hquery', hremembered⟩ := ih.query law hhistory.visited he hd hdue hstart
      rw [hquery] at hquery'
      obtain ⟨rfl, -⟩ := Prod.mk.inj (Except.ok.inj hquery')
      exact hremembered

/-! ## Connections ask too -/

/-- A query repeated at once gives the same answer, from the cache. -/
theorem Remembered.query_again (law : env.Lawful) (hc : Visited env c)
    (h : Remembered env c asked) (he : c.db.getEntryByHash q.prev.hash = some q.prev)
    (hd : q.deployment ∈ env.network.deployments) (hdue : Due env c asked q)
    {cache : VersionBitsCache} {state : ThresholdState}
    (hquery : c.db.getDeploymentStatus env (some q.prev) q.deployment = .ok (cache, state)) :
    (c.withCache cache).db.getDeploymentStatus env (some q.prev) q.deployment
      = .ok (cache, state) := by
  cases hstart : q.deployment.startTime with
  | alwaysActive =>
    rw [getDeploymentStatus_alwaysActive hstart] at hquery ⊢
    obtain ⟨rfl, rfl⟩ := Prod.mk.inj (Except.ok.inj hquery)
    rfl
  | startTime start =>
    obtain ⟨cache', hquery', hremembered⟩ := h.query law hc he hd hdue hstart
    rw [hquery] at hquery'
    obtain ⟨rfl, rfl⟩ := Prod.mk.inj (Except.ok.inj hquery')
    have hc' : Visited env (c.withCache cache) := by
      obtain ⟨c₀, hnew, hrun⟩ := hc
      exact ⟨c₀, hnew, hrun.tail (.cache cache)⟩
    have inv' := hc'.inv law
    have hmem : q ∈ asked ++ [q] := List.mem_append_right _ List.mem_cons_self
    obtain ⟨cache', hquery', -⟩ := hremembered.query law hc' he hd (due_again hmem) hstart
    obtain ⟨state', hcached⟩ := getDeploymentStatus_cached inv'.tree hstart inv'.main
      (hc'.skips law) he fun b hend => hremembered.cached hmem hstart hend
    rw [hcached] at hquery' ⊢
    obtain ⟨-, rfl⟩ := Prod.mk.inj (Except.ok.inj hquery')
    rw [stateAfter_mono law (hc.inv law).tree inv'.tree (fun _ _ => id) he]
    rfl

variable {block : Block} {prev entry : ChainEntry} {state : DeploymentState}

theorem verify_settled {r : Except BlockVerificationError Unit}
    (hsettled : c.db.getDeployments env block.header.time prev = .ok (c.db.versionBitsCache, state))
    (h : c.verify env block prev = .ok (c', r)) : c' = c := by
  obtain ⟨-, ⟨rfl, -⟩ | ⟨cache, state, -, hflags, rfl⟩⟩ := verify_cases h
  · rfl
  · obtain ⟨rfl, -⟩ := Prod.mk.inj (Except.ok.inj (hsettled.symm.trans hflags))
    rfl

theorem verifyContext_settled
    {r : Except BlockVerificationError (CoinView × DeploymentState)}
    (hsettled : c.db.getDeployments env block.header.time prev = .ok (c.db.versionBitsCache, state))
    (h : c.verifyContext env block prev = .ok (c', r)) : c' = c := by
  rw [verifyContext, hsettled, bind_of_ok rfl] at h
  simp only [bind_eq_ok] at h
  obtain ⟨⟨c₁, verified⟩, hverify, h⟩ := h
  obtain rfl : c₁ = c := verify_settled hsettled hverify
  dsimp only at h
  repeat' split at h
  all_goals first | cases h; done | exact (Prod.mk.inj (Except.ok.inj h)).1.symm

/-- The flags of a block come from one query. -/
theorem getDeployments_eq {taproot : Deployment}
    (htaproot : env.network.deployments.find? (·.name == .taproot) = some taproot)
    (db : ChainDB) (time : Nat) (prev : ChainEntry) : db.getDeployments env time prev = (do
      let (cache, status) ← db.getDeploymentStatus env (some prev) taproot
      let state := heightDeployments env.network time (prev.height + 1)
      return (cache, if status == .active then
        { state with scriptFlags := state.scriptFlags ||| ScriptFlags.VERIFY_TAPROOT } else state))
      := by
  simp only [getDeployments, htaproot, isDeploymentActive]
  cases db.getDeploymentStatus env (some prev) taproot <;> rfl

/-- The flags come with a query, and are the same wherever it has the same answer. -/
theorem getDeployments_eq_ok {taproot : Deployment} {db : ChainDB} {time : Nat}
    {cache : VersionBitsCache}
    (htaproot : env.network.deployments.find? (·.name == .taproot) = some taproot)
    (h : db.getDeployments env time prev = .ok (cache, state)) : ∃ status,
      db.getDeploymentStatus env (some prev) taproot = .ok (cache, status)
        ∧ ∀ db' : ChainDB, db'.getDeploymentStatus env (some prev) taproot = .ok (cache, status) →
          db'.getDeployments env time prev = .ok (cache, state) := by
  rw [getDeployments_eq htaproot] at h
  simp only [bind_eq_ok, pure_eq_ok] at h
  obtain ⟨⟨cache, status⟩, hquery, h⟩ := h
  obtain ⟨rfl, rfl⟩ := Prod.mk.inj h
  refine ⟨status, hquery, fun db' hquery' => ?_⟩
  rw [getDeployments_eq htaproot, hquery']
  rfl

/-- A connection asks for the flags of its block. -/
theorem getDeployments_of_connect (h : c.connect env block entry prev = .ok (c', .ok entry)) :
    ∃ cache state, c.db.getDeployments env block.header.time prev = .ok (cache, state) := by
  obtain ⟨-, -, _, ⟨_, hr, -⟩ | ⟨_, _, _, -, hverify, -⟩⟩ := connect_eq_ok h
  · cases hr
  · simp only [verifyContext, bind_eq_ok] at hverify
    obtain ⟨⟨cache, state⟩, hflags, -⟩ := hverify
    exact ⟨cache, state, hflags⟩

theorem connect_settled (inv : c.Inv env)
    (hsettled : c.db.getDeployments env block.header.time c.tip
      = .ok (c.db.versionBitsCache, state))
    (hentry : c.db.getEntryByHash entry.hash = some entry)
    (hblock : c.db.getBlock entry.hash = some block) (hprev : entry.prevBlock = c.tip.hash)
    (h : c.connect env block entry c.tip = .ok (c', .ok entry)) :
    c'.db.versionBitsCache.bits = c.db.versionBitsCache.bits := by
  obtain ⟨-, -, cache, ⟨_, hr, -⟩ | ⟨view, flags, db, -, hverify, -, -, hdb, rfl⟩⟩ :=
    Chain.connect_eq_ok h
  · cases hr
  have hcache : c.withCache cache = c := verifyContext_settled hsettled hverify
  rw [hcache] at hdb
  obtain ⟨_, _, -, -, rfl⟩ := ChainDB.connect_eq_ok inv.idle
    (inv.tree.isGenesis_eq_false hentry (hprev ▸ inv.tip_stored)) (inv.block_hash hblock) hdb
  rfl

/-- A connection is a query about its tip, and then a move that finds the answer remembered. -/
theorem History.connect (law : env.Lawful) (h : History env (Due env) asked c)
    {taproot : Deployment}
    (htaproot : env.network.deployments.find? (·.name == .taproot) = some taproot)
    (hdue : Due env c asked ⟨c.tip, taproot⟩)
    (hentry : c.db.getEntryByHash entry.hash = some entry)
    (hready : c.isBlockReady entry.hash = true) (hblock : c.db.getBlock entry.hash = some block)
    (hprev : entry.prevBlock = c.tip.hash)
    (hconnect : c.connect env block entry c.tip = .ok (c', .ok entry)) :
    History env (Due env) (asked ++ [⟨c.tip, taproot⟩]) c' := by
  have inv := h.visited.inv law
  have hd := List.mem_of_find?_eq_some htaproot
  obtain ⟨cache, state, hflags⟩ := getDeployments_of_connect hconnect
  obtain ⟨status, hquery, hflags'⟩ := getDeployments_eq_ok htaproot hflags
  have hagain := (h.remembered law).query_again (q := ⟨c.tip, taproot⟩) law h.visited
    inv.tip_stored hd hdue hquery
  have h₁ := h.query (q := ⟨c.tip, taproot⟩) inv.tip_stored hd hdue hquery
  -- the same block is connected to the chain that has been asked
  have hsettled : (c.withCache cache).db.getDeployments env block.header.time c.tip
      = .ok (cache, state) := hflags' _ hagain
  have hconnect₁ : (c.withCache cache).connect env block entry (c.withCache cache).tip
      = .ok (c', .ok entry) := by
    rw [← hconnect]
    have hcontext : (c.withCache cache).verifyContext env block c.tip
        = c.verifyContext env block c.tip := by
      rw [verifyContext, verifyContext, hflags, hsettled]
      rfl
    have htip : (c.withCache cache).tip = c.tip := rfl
    rw [Chain.connect, Chain.connect, htip, hcontext]
  refine h₁.move (.connect hentry hready hblock hprev hconnect₁) ?_
  exact connect_settled (h₁.visited.inv law) hsettled hentry hblock hprev hconnect₁

/-! ## The answers -/

/-- Two nodes with the same headers give the same answer, whatever they were asked before, if no
query had two boundaries to compute. -/
theorem deploymentStatus_independent (law : env.Lawful) {c₁ c₂ : Chain} {asked₁ asked₂ : List Query}
    (h₁ : History env (Due env) asked₁ c₁) (h₂ : History env (Due env) asked₂ c₂)
    (hsame : c₁.db.getEntryByHash = c₂.db.getEntryByHash)
    (he : c₁.db.getEntryByHash q.prev.hash = some q.prev)
    (hd : q.deployment ∈ env.network.deployments) (hdue₁ : Due env c₁ asked₁ q)
    (hdue₂ : Due env c₂ asked₂ q) : ∃ cache₁ cache₂ state,
      c₁.db.getDeploymentStatus env (some q.prev) q.deployment = .ok (cache₁, state)
        ∧ c₂.db.getDeploymentStatus env (some q.prev) q.deployment = .ok (cache₂, state) := by
  cases hstart : q.deployment.startTime with
  | alwaysActive =>
    exact ⟨_, _, _, getDeploymentStatus_alwaysActive hstart,
      getDeploymentStatus_alwaysActive hstart⟩
  | startTime start =>
    have he₂ : c₂.db.getEntryByHash q.prev.hash = some q.prev := hsame ▸ he
    obtain ⟨cache₁, hquery₁, -⟩ := (h₁.remembered law).query law h₁.visited he hd hdue₁ hstart
    obtain ⟨cache₂, hquery₂, -⟩ := (h₂.remembered law).query law h₂.visited he₂ hd hdue₂ hstart
    have hstate : stateAfter env c₂.db q.deployment start q.prev =
        stateAfter env c₁.db q.deployment start q.prev :=
      stateAfter_mono law (h₁.visited.inv law).tree (h₂.visited.inv law).tree
        (fun _ _ h => hsame ▸ h) he
    rw [hstate] at hquery₂
    exact ⟨cache₁, cache₂, _, hquery₁, hquery₂⟩

/-- The state of a deployment for the block after an entry. -/
def deploymentState (env : Env) (c : Chain) (d : Deployment) (start : Nat) (e : ChainEntry) :
    ThresholdState :=
  (d.rollout env start).run (periods env c.db d.bit e) (windows env e)

/-- The answer is the state of the machine, but in a window that begins at the minimum activation
height when the window before it was locked in. -/
theorem deploymentStatus_machine_iff (law : env.Lawful) (h : History env (Due env) asked c)
    (he : c.db.getEntryByHash q.prev.hash = some q.prev)
    (hd : q.deployment ∈ env.network.deployments) (hdue : Due env c asked q)
    (hstart : q.deployment.startTime = .startTime start) :
    (∃ cache, c.db.getDeploymentStatus env (some q.prev) q.deployment =
        .ok (cache, deploymentState env c q.deployment start q.prev)) ↔
      ¬ (q.deployment.rollout env start).Behind (periods env c.db q.deployment.bit q.prev)
        (windows env q.prev) := by
  have tree := (h.visited.inv law).tree
  obtain ⟨cache, hquery, -⟩ := (h.remembered law).query law h.visited he hd hdue hstart
  have hmachine := @Rollout.run_later_eq_iff (q.deployment.rollout env start)
    (periods env c.db q.deployment.bit q.prev) (windows env q.prev)
    fun i hi => next_periods_lt tree he hi
  rw [← hmachine, hquery]
  constructor
  · rintro ⟨cache', heq⟩
    exact (Prod.mk.inj (Except.ok.inj heq)).2
  · intro heq
    exact ⟨cache, congrArg (fun state => Except.ok (cache, state)) heq⟩

/-! ## A chain that grows -/

/-- Store headers, each on the one before, and ask about every one of them. -/
def grow (env : Env) (d : Deployment) (now : Nat) :
    Chain → ChainEntry → List BlockHeader → Except Panic (Chain × ChainEntry)
  | c, e, [] => .ok (c, e)
  | c, e, header :: headers => do
    let (c, saved) ← c.addHeader env now header
    match saved with
    | .error _ => return (c, e)
    | .ok (entry, prev) =>
      if prev ≠ e then return (c, e)
      else do
        let (cache, _) ← c.db.getDeploymentStatus env (some entry) d
        grow env d now (c.withCache cache) entry headers

theorem Remembered.header {now : Nat} {header : BlockHeader} {prev : ChainEntry}
    (inv : c.Inv env) (h : c.addHeader env now header = .ok (c', .ok (e, prev))) :
    c'.db.versionBitsCache.bits = c.db.versionBitsCache.bits
      ∧ c'.db.getEntryByHash e.hash = some e ∧ c'.db.getEntryByHash e.prevBlock = some prev := by
  have hget := getEntryByHash_addHeader inv h
  have hmono := (Move.header h).entries_mono inv
  rcases addHeader_eq_ok h with ⟨_, hr, -⟩ |
    ⟨_, _, skip, db, hr, -, -, -, hprev, -, hentry, -, hsave, rfl⟩
  · cases hr
  cases hr
  refine ⟨?_, by rw [hget.2, if_pos rfl], ?_⟩
  · obtain ⟨mostWork, rfl⟩ := ChainDB.saveEntry_eq_ok inv.idle hsave
    rfl
  · rw [hentry]
    exact hmono _ _ hprev

/-- Asking about every header as it comes is in order. -/
theorem History.grow (law : env.Lawful) (hd : d ∈ env.network.deployments) {now : Nat}
    {headers : List BlockHeader} (h : History env (Due env) asked c) (hasked : ⟨e, d⟩ ∈ asked)
    {e' : ChainEntry} (hrun : grow env d now c e headers = .ok (c', e')) :
    ∃ asked', History env (Due env) asked' c' ∧ ⟨e', d⟩ ∈ asked' := by
  induction headers generalizing c e asked with
  | nil =>
    obtain ⟨rfl, rfl⟩ := Prod.mk.inj (Except.ok.inj hrun)
    exact ⟨asked, h, hasked⟩
  | cons header headers ih =>
    simp only [Chain.grow, bind_eq_ok] at hrun
    obtain ⟨⟨c₁, saved⟩, hadd, hrun⟩ := hrun
    have inv := h.visited.inv law
    match saved with
    | .error _ =>
      obtain ⟨rfl, rfl⟩ := Prod.mk.inj (Except.ok.inj hrun)
      rcases addHeader_eq_ok hadd with ⟨_, -, rfl⟩ | ⟨_, _, _, _, hr, -⟩
      · exact ⟨asked, h, hasked⟩
      · cases hr
    | .ok (entry, prev) =>
      obtain ⟨hcache, hentry, hprev⟩ := Remembered.header inv hadd
      have h₁ := h.move (.header hadd) hcache
      dsimp only at hrun
      by_cases hchild : prev ≠ e
      · rw [if_pos hchild] at hrun
        obtain ⟨rfl, rfl⟩ := Prod.mk.inj (Except.ok.inj hrun)
        exact ⟨asked, h₁, hasked⟩
      · rw [if_neg hchild] at hrun
        simp only [bind_eq_ok] at hrun
        obtain ⟨⟨cache, state⟩, hquery, hrun⟩ := hrun
        rw [not_not.1 hchild] at hprev
        have hdue := due_child (h₁.visited.inv law).tree hentry hprev hasked
        exact ih (h₁.query (q := ⟨entry, d⟩) hentry hd hdue hquery)
          (List.mem_append_right _ List.mem_cons_self) hrun

/-- A run that ends in a state with a decided property reaches such a state. -/
theorem exists_history (law : env.Lawful) (hd : d ∈ env.network.deployments) (now : Nat)
    (headers : List BlockHeader) (P : Chain → ChainEntry → Bool) (h : (match (do
        let c ← Chain.new env
        let (cache, _) ← c.db.getDeploymentStatus env (some env.genesisEntry) d
        grow env d now (c.withCache cache) env.genesisEntry headers) with
      | .ok (c, e) => P c e
      | .error _ => false) = true) :
    ∃ c e asked, History env (Due env) asked c ∧ ⟨e, d⟩ ∈ asked
      ∧ c.db.getEntryByHash e.hash = some e ∧ P c e = true := by
  split at h
  · rename_i c e hrun
    simp only [bind_eq_ok] at hrun
    obtain ⟨c₀, hnew, ⟨cache, state⟩, hquery, hrun⟩ := hrun
    have h₀ := History.new (C := Due env) hnew
    have tree := (h₀.visited.inv law).tree
    obtain ⟨asked, hhistory, hasked⟩ := (h₀.query (q := ⟨env.genesisEntry, d⟩) tree.genesis hd
      (due_first tree) hquery).grow law hd List.mem_cons_self hrun
    exact ⟨c, e, asked, hhistory, hasked, (hhistory.remembered law).stored hasked, h⟩
  · cases h

end Chain

/-! ## A deployment of two-block windows -/

namespace Small

def rollout : Deployment := ⟨2, .startTime 0, .noTimeout, .taproot, 6⟩

def rolling : Env := { shortEnv with
  network := { network with
    deployments := [rollout]
    ruleChangeActivationThreshold := 2
    minerConfirmationWindow := 2
    minerConfirmationWindow_pos := by decide
    bits_nodup := by decide } }

theorem rolling_lawful : rolling.Lawful where
  blockHash_ne_zero _ := Nat.succ_ne_zero _
  work_pos _ _ := Nat.two_pos
  genesis_prev := rfl

theorem rollout_mem : rollout ∈ rolling.network.deployments := List.mem_cons_self

/-- The header at a height, on the one before it; those at heights 2 and 3 signal. -/
def signalling (height : Nat) : BlockHeader :=
  ⟨if height = 2 ∨ height = 3 then 0x20000004 else 4, height, 0, 20 + height, 0, height⟩

end Small

namespace Chain

open ChainDB

theorem deploymentStatus_independent_first : ∃ (c₁ c₂ : Chain) (cache₁ cache₂ : VersionBitsCache)
    (state : ThresholdState),
    c₂ = c₁.withCache (.new Small.rolling.network)
      ∧ c₁.db.getDeploymentStatus Small.rolling (some Small.rolling.genesisEntry) Small.rollout
        = .ok (cache₁, state)
      ∧ c₂.db.getDeploymentStatus Small.rolling (some Small.rolling.genesisEntry) Small.rollout
        = .ok (cache₂, state) := by
  obtain ⟨c, e, asked, h, -⟩ := exists_history Small.rolling_lawful Small.rollout_mem 100
    ([1, 2, 3].map Small.signalling) (fun _ _ => true) (by decide +kernel)
  have inv := h.visited.inv Small.rolling_lawful
  obtain ⟨cache₁, cache₂, state, hquery₁, hquery₂⟩ := deploymentStatus_independent
    (q := ⟨Small.rolling.genesisEntry, Small.rollout⟩) Small.rolling_lawful h h.restart rfl
    inv.tree.genesis Small.rollout_mem (due_first inv.tree) (due_first (inv.withCache _).tree)
  exact ⟨c, _, cache₁, cache₂, state, rfl, hquery₁, hquery₂⟩

/-- After a restart two windows are to be computed, and the one at the first entries counts
signals below them. -/
theorem restarted_query_panics : ∃ c asked e, History Small.rolling (fun _ _ _ => True) asked c
    ∧ c.db.getEntryByHash e.hash = some e
    ∧ History Small.rolling (fun _ _ _ => True) [] (c.withCache (.new Small.rolling.network))
    ∧ Small.rollout ∈ Small.rolling.network.deployments
    ∧ (∃ cache, c.db.getDeploymentStatus Small.rolling (some e) Small.rollout
      = .ok (cache, .lockedIn))
    ∧ (c.withCache (.new Small.rolling.network)).db.getDeploymentStatus Small.rolling (some e)
      Small.rollout = .error .earlierBlock := by
  obtain ⟨c, e, asked, h, -, he, hP⟩ := exists_history Small.rolling_lawful Small.rollout_mem 100
    ([1, 2, 3].map Small.signalling)
    (fun c e =>
      (match c.db.getDeploymentStatus Small.rolling (some e) Small.rollout with
        | .ok (_, state) => state == .lockedIn
        | .error _ => false)
      && (match (c.withCache (.new Small.rolling.network)).db.getDeploymentStatus Small.rolling
          (some e) Small.rollout with
        | .ok _ => false
        | .error p => p == .earlierBlock)) (by decide +kernel)
  obtain ⟨hasked, hrestarted⟩ := Bool.and_eq_true_iff.1 hP
  have hany := h.mono fun _ _ _ _ => trivial
  refine ⟨c, asked, e, hany, he, hany.restart, Small.rollout_mem, ?_, ?_⟩
  · split at hasked
    · rename_i cache state hquery
      exact ⟨cache, eq_of_beq hasked ▸ hquery⟩
    · cases hasked
  · split at hrestarted
    · cases hrestarted
    · rename_i p hquery
      exact eq_of_beq hrestarted ▸ hquery

theorem deploymentStatus_machine_iff_fifth :
    ∃ (c : Chain) (e : ChainEntry), c.db.getEntryByHash e.hash = some e
    ∧ ((∃ cache, c.db.getDeploymentStatus Small.rolling (some e) Small.rollout =
        .ok (cache, deploymentState Small.rolling c Small.rollout 0 e)) ↔
      ¬ (Small.rollout.rollout Small.rolling 0).Behind (periods Small.rolling c.db 2 e)
        (windows Small.rolling e)) := by
  obtain ⟨c, e, asked, h, hasked, he, -⟩ := exists_history Small.rolling_lawful
    Small.rollout_mem 100
    ([1, 2, 3, 4, 5].map Small.signalling) (fun _ _ => true) (by decide +kernel)
  exact ⟨c, e, he, deploymentStatus_machine_iff (q := ⟨e, Small.rollout⟩) Small.rolling_lawful h he
    Small.rollout_mem (due_again hasked) rfl⟩

/-- A deployment locked in for blocks 4 and 5, with 6 as its minimum activation height, is not
active at block 6. -/
theorem minActivationHeight_missed : ∃ c asked e, History Small.rolling (Due Small.rolling) asked c
    ∧ Due Small.rolling c asked ⟨e, Small.rollout⟩
    ∧ c.db.getEntryByHash e.hash = some e ∧ e.height = 5
    ∧ deploymentState Small.rolling c Small.rollout 0 e = .active
    ∧ ∃ cache, c.db.getDeploymentStatus Small.rolling (some e) Small.rollout
      = .ok (cache, .lockedIn) := by
  obtain ⟨c, e, asked, h, hasked, he, hP⟩ := exists_history Small.rolling_lawful
    Small.rollout_mem 100
    ([1, 2, 3, 4, 5].map Small.signalling)
    (fun c e => e.height == 5 && deploymentState Small.rolling c Small.rollout 0 e == .active
      && match c.db.getDeploymentStatus Small.rolling (some e) Small.rollout with
        | .ok (_, state) => state == .lockedIn
        | .error _ => false) (by decide +kernel)
  simp only [Bool.and_eq_true] at hP
  obtain ⟨⟨hheight, hactive⟩, hlocked⟩ := hP
  refine ⟨c, asked, e, h, due_again hasked, he, eq_of_beq hheight, eq_of_beq hactive, ?_⟩
  split at hlocked
  · rename_i cache state hquery
    exact ⟨cache, eq_of_beq hlocked ▸ hquery⟩
  · cases hlocked

end Chain

end BitcoinNode

import BitcoinNode.Blockchain.Answers
import BitcoinNode.Blockchain.Work

/-!
# The rules in force at the tip

The functions of the chain that its calls run, one after the other, and what each of them does to
the tip, its two copies and the rules in force. Listeners are called at the end of two of them.
-/

namespace BitcoinNode

open Relation

/-- Steps taken one after the other are a run. -/
theorem ReflTransGen.exists_trace {σ α : Type*} {step : σ → α → σ → Prop} {s t : σ}
    (h : ReflTransGen (fun s t => ∃ a, step s a t) s t) :
    ∃ trace, Trace step s trace ∧ (t = s ∨ ∃ a, (a, t) ∈ trace) := by
  induction h using ReflTransGen.head_induction_on with
  | refl => exact ⟨[], .nil, .inl rfl⟩
  | head hstep _ ih =>
    obtain ⟨a, hstep⟩ := hstep
    obtain ⟨trace, htrace, hmem⟩ := ih
    refine ⟨_, .cons hstep htrace, .inr ?_⟩
    rcases hmem with rfl | ⟨b, hb⟩
    · exact ⟨a, List.mem_cons_self⟩
    · exact ⟨b, List.mem_cons_of_mem _ hb⟩

/-- A function of the chain, as a call on it runs it. -/
inductive Act where
  | status (prev : Option ChainEntry) (deployment : Deployment)
  | addHeader (now : Nat) (header : BlockHeader)
  | addBlock (block : Block) (entry prev : ChainEntry)
  | connect (block : Block) (entry : ChainEntry)
  | disconnect

/-- The chain that a listener is shown. -/
def Notification.chain : Notification → Snapshot
  | .connect chain _ _ _ => chain
  | .disconnect chain _ _ _ => chain

namespace Chain

variable {env : Env} {c c' c₁ : Chain} {block : Block} {entry prev : ChainEntry} {act : Act}

/-- What a function leaves behind. The last thing that a successful `connect` or `disconnect` does
is to call the listeners. -/
inductive Does (env : Env) (c : Chain) : Act → Chain → Prop where
  | status {prev : Option ChainEntry} {deployment : Deployment} {cache : VersionBitsCache}
      {state : ThresholdState} :
      (∀ entry ∈ prev, c.db.getEntryByHash entry.hash = some entry) →
      deployment ∈ env.network.deployments →
      c.db.getDeploymentStatus env prev deployment = .ok (cache, state) →
      Does env c (.status prev deployment) (c.withCache cache)
  | addHeader {now : Nat} {header : BlockHeader} {c' : Chain}
      {r : Except BlockHeaderVerificationError (ChainEntry × ChainEntry)} :
      c.addHeader env now header = .ok (c', r) → Does env c (.addHeader now header) c'
  | addBlock {block : Block} {entry prev : ChainEntry} {c' : Chain}
      {r : Except BlockVerificationError Unit} :
      c.db.getEntryByHash entry.hash = some entry → env.blockHash block.header = entry.hash →
      c.db.getEntryByHash prev.hash = some prev → c.addBlock env block entry prev = .ok (c', r) →
      Does env c (.addBlock block entry prev) c'
  | connect {block : Block} {entry : ChainEntry} {c' : Chain}
      {r : Except BlockVerificationError ChainEntry} :
      c.Extends c.tip entry → c.db.getBlock entry.hash = some block →
      c.connect env block entry c.tip = .ok (c', r) → Does env c (.connect block entry) c'
  | disconnect {c' : Chain} : c.disconnect env c.tip = .ok c' → Does env c .disconnect c'

/-- The chain runs some of its functions. -/
abbrev Runs (env : Env) : Chain → Chain → Prop := ReflTransGen fun c c' => ∃ act, Does env c act c'

/-! ## Calls run functions of the chain -/

theorem addBlock_moves (inv : c.Inv env) {r : Except BlockVerificationError Unit}
    (hentry : c.db.getEntryByHash entry.hash = some entry)
    (hhash : env.blockHash block.header = entry.hash)
    (h : c.addBlock env block entry prev = .ok (c', r)) : ReflTransGen (Move env) c c' := by
  obtain ⟨hnew, -, cache, ⟨e, -, rfl⟩ | ⟨db, -, hbody, hdb, rfl⟩⟩ := addBlock_eq_ok h
  · rw [hhash] at hnew
    exact .tail (.single (.cache cache)) (.invalid hentry (inv.isMainHash_of_not_hasBlock hnew))
  · rw [hhash] at hnew
    exact .tail (.single (.cache cache)) (.block hentry hhash hnew hbody hdb)

theorem connect_moves (inv : c.Inv env) {r : Except BlockVerificationError ChainEntry}
    (hext : c.Extends c.tip entry) (hblock : c.db.getBlock entry.hash = some block)
    (h : c.connect env block entry c.tip = .ok (c', r)) : ReflTransGen (Move env) c c' := by
  obtain ⟨-, -, cache, ⟨e, -, rfl, -⟩ | ⟨_, _, _, rfl, -⟩⟩ := connect_eq_ok h
  · exact .tail (.single (.cache cache))
      (.invalid hext.stored (inv.isMainHash_child hext.stored hext.prev))
  · exact .single (.connect hext.stored hext.ready hblock hext.prev h)

theorem Does.moves (inv : c.Inv env) (h : Does env c act c') : ReflTransGen (Move env) c c' := by
  cases h with
  | status => exact withCache_moves _
  | addHeader h => exact addHeader_moves h
  | addBlock hentry hhash _ h => exact addBlock_moves inv hentry hhash h
  | connect hext hblock h => exact connect_moves inv hext hblock h
  | disconnect h => exact .single (.disconnect h)

theorem Visited.does (law : env.Lawful) (hc : Visited env c) (h : Does env c act c') :
    Visited env c' := by
  have hmoves := h.moves (hc.inv law)
  obtain ⟨c₀, hnew, hrun⟩ := hc
  exact ⟨c₀, hnew, hrun.trans hmoves⟩

theorem Disconnects.runs (h : Disconnects env c c') : Runs env c c' :=
  ReflTransGen.mono (fun _ _ h => ⟨.disconnect, .disconnect h⟩) _ _ h

theorem Connects.runs (inv : c.Inv env) {queue : List Queued} (hqueue : c.LinkedQueue c.tip queue)
    (h : Connects env c queue c') : Runs env c c' := by
  induction h with
  | nil => exact .refl
  | @cons c c₁ c' q queue block hblock hconnect _ ih =>
    obtain ⟨hext, -, -, hqueue⟩ := hqueue
    obtain ⟨hsame, htip⟩ := connect_sameStore inv hext.stored hblock hext.prev hconnect
    have inv' := inv.connect hext.stored hext.ready hblock hext.prev hconnect
    exact .head ⟨_, .connect hext hblock hconnect⟩ (ih inv' (htip ▸ hsame.linkedQueue hqueue))

/-- The block at which a queue fails is one that `connect` refuses. -/
theorem Fails.runs (inv : c.Inv env) {queue : List Queued} {q : Queued}
    {e : BlockVerificationError} {cache : VersionBitsCache} (hqueue : c.LinkedQueue c.tip queue)
    (h : Fails env c queue q c₁ e cache) :
    Runs env c ((c₁.withCache cache).setInvalid q.entry.hash) := by
  obtain ⟨-, -, -, hext⟩ := h.spec inv hqueue
  obtain ⟨before, after, rfl, hbefore⟩ := h.split
  obtain ⟨block, hblock, hverify⟩ := h.verify
  have hprev := (verifyContext_eq_ok hverify).2.1
  refine (hbefore.runs inv (linkedQueue_append.1 hqueue).1).tail
    ⟨.connect block q.entry, .connect hext hblock (r := .error e) ?_⟩
  rw [connect, if_neg (not_not.2 hprev), if_neg (not_not.2 rfl), hverify]
  rfl

theorem connectBest_runs (inv : c.Inv env) {block : Option Block}
    {r : Except BlockVerificationError Unit}
    (hentry : c.db.getEntryByHash entry.hash = some entry)
    (hprev : c.db.getEntryByHash entry.prevBlock = some prev)
    (hblock : ∀ b ∈ block, c.db.getBlock entry.hash = some b)
    (h : c.connectBest env entry prev block = .ok (c', r)) : Runs env c c' := by
  obtain ⟨queue, -, ⟨-, rfl, -⟩ | ⟨c₁, -, hlinked, hdisc, -, hrest⟩⟩ :=
    connectBest_eq_ok inv hentry hprev hblock h
  · exact .refl
  obtain ⟨-, hsame, inv₁, -⟩ := hdisc.spec inv
  have hqueue := hsame.linkedQueue hlinked
  obtain ⟨-, hconn⟩ | ⟨q, c₂, e, cache, hfails, -, rfl⟩ := hrest
  · exact hdisc.runs.trans (hconn.runs inv₁ hqueue)
  · exact hdisc.runs.trans (hfails.runs inv₁ hqueue)

theorem addWith_runs (inv : c.Inv env) {r : Except BlockVerificationError ChainEntry}
    (hentry : c.db.getEntryByHash entry.hash = some entry)
    (hhash : env.blockHash block.header = entry.hash)
    (hprev : c.db.getEntryByHash block.header.prevBlockhash = some prev)
    (h : c.addWith env block entry prev = .ok (c', r)) : Runs env c c' := by
  simp only [addWith, bind_eq_ok] at h
  obtain ⟨⟨c₁, added⟩, hadd, h⟩ := h
  have hdoes : Does env c (.addBlock block entry prev) c₁ :=
    .addBlock hentry hhash (inv.tree.self hprev) hadd
  obtain ⟨hnew, -, cache, ⟨_, rfl, rfl⟩ | ⟨db, rfl, hbody, hwrite, rfl⟩⟩ := addBlock_eq_ok hadd
  · cases h
    exact .single ⟨_, hdoes⟩
  rw [hhash] at hnew
  have inv₁ := (inv.withCache cache).writeBlock hentry hhash hnew hbody hwrite
  obtain ⟨hget, hdb, -⟩ := getBlock_writeBlock (inv.withCache cache) hnew hwrite
  have hentries : db.getEntryByHash = c.db.getEntryByHash := by
    rw [hdb]
    rfl
  simp only [bind_eq_ok] at h
  obtain ⟨⟨c₂, connected⟩, hconnect, h⟩ := h
  obtain rfl : c₂ = c' := by cases connected <;> cases h <;> rfl
  have hparent : entry.prevBlock = prev.hash := by
    unfold connectBest at hconnect
    split at hconnect
    · cases hconnect
    · rename_i heq
      exact not_not.1 heq
  refine .head ⟨_, hdoes⟩
    (connectBest_runs inv₁ ((congrFun hentries _).trans hentry) ?_ ?_ hconnect)
  · rw [hparent]
    exact (congrFun hentries _).trans (inv.tree.self hprev)
  · rintro b ⟨⟩
    exact (hget entry.hash).trans (if_pos rfl)

theorem add_runs (law : env.Lawful) (inv : c.Inv env) {now : Nat}
    {r : Except BlockVerificationError ChainEntry}
    (h : c.add env now block = .ok (c', r)) : Runs env c c' := by
  rcases add_eq_ok h with ⟨_, -, -, rfl, -⟩ | ⟨c₁, entry, prev, hadd, ⟨rfl, hentry, hprev⟩ |
    ⟨-, hheader⟩⟩
  · exact .refl
  · exact addWith_runs inv (inv.tree.self hentry) (inv.tree.hash_eq hentry).symm hprev hadd
  · obtain ⟨hentry, hhash, -, hprev⟩ := addHeader_stored inv hheader
    exact .head ⟨_, .addHeader hheader⟩
      (addWith_runs (inv.addHeader law hheader) hentry hhash hprev hadd)

theorem attach_runs (inv : c.Inv env) {r : Except BlockVerificationError Unit}
    (hentry : c.db.getEntryByHash entry.hash = some entry)
    (h : c.attach env entry = .ok (c', r)) : Runs env c c' := by
  unfold attach at h
  split at h
  · cases h
    exact .refl
  split at h
  · cases h
  · rename_i prev hprev
    exact connectBest_runs inv hentry hprev (by simp) h

/-- A call that returned ran functions of the chain, one after the other. -/
theorem step_runs (law : env.Lawful) (inv : c.Inv env) {call : Call}
    {r : Except BlockVerificationError Unit} (hcall : c.Permitted env call)
    (h : c.step env call = .ok (c', r)) : Runs env c c' := by
  cases call with
  | addHeader now header =>
    obtain ⟨r', h, -⟩ := discard_eq_ok h
    exact .single ⟨_, .addHeader h⟩
  | add now block =>
    obtain ⟨r', h, -⟩ := discard_eq_ok h
    exact add_runs law inv h
  | attach entry => exact attach_runs inv hcall h
  | status prev deployment =>
    obtain ⟨⟨cache, _⟩, hstatus, h⟩ := bind_eq_ok.1 h
    cases h
    exact .single ⟨_, .status hcall.1 hcall.2 hstatus⟩

theorem Reachable.runs (law : env.Lawful) (h : Reachable env c) :
    ∃ c₀, Chain.new env = .ok c₀ ∧ Runs env c₀ c := by
  induction h with
  | new hnew => exact ⟨_, hnew, .refl⟩
  | step hreach hcall hstep ih =>
    obtain ⟨c₀, hnew, hrun⟩ := ih
    exact ⟨c₀, hnew, hrun.trans (step_runs law (hreach.inv law) hcall hstep)⟩

/-! ## The rules in force -/

/-- The flags of a block, from the state of the taproot deployment at it. -/
def flagsWith (network : NetworkParams) (time height : Nat) (status : ThresholdState) :
    DeploymentState :=
  let state := ChainDB.heightDeployments network time height
  if status == .active then
    { state with scriptFlags := state.scriptFlags ||| ScriptFlags.VERIFY_TAPROOT }
  else state

/-- The deployment that `get_deployments` asks about. -/
def IsTaproot (env : Env) (d : Deployment) : Prop :=
  env.network.deployments.find? (·.name == .taproot) = some d

variable {d : Deployment} {status : ThresholdState}

theorem getDeployments_answered (hd : IsTaproot env d) (inv : c.Inv env) (skips : c.db.Skips)
    (hprev : c.db.getEntryByHash prev.hash = some prev)
    (h : ChainDB.Answered env c.db c.db.versionBitsCache d prev status) (time : Nat) :
    c.db.getDeployments env time prev
      = .ok (c.db.versionBitsCache, flagsWith env.network time (prev.height + 1) status) := by
  rw [getDeployments_eq hd, h.query inv.tree inv.main skips hprev]
  rfl

/-- The flags of the stored blocks are in the cache. -/
def Recalls (env : Env) (c : Chain) : Prop :=
  ∀ ⦃d hash e parent⦄, IsTaproot env d → hash ∈ c.db.downloaded →
    c.db.getEntryByHash hash = some e → c.db.getEntryByHash e.prevBlock = some parent →
    ∃ status, ChainDB.Answered env c.db c.db.versionBitsCache d parent status

/-- Headers are added, remembered answers are kept, and no block is stored. -/
theorem Recalls.mono (inv : c.Inv env) (inv' : c'.Inv env)
    (hmono : ∀ hash e, c.db.getEntryByHash hash = some e → c'.db.getEntryByHash hash = some e)
    (hgrows : c.db.versionBitsCache.Grows c'.db.versionBitsCache)
    (hold : ∀ hash ∈ c'.db.downloaded, hash ∈ c.db.downloaded ∨ ∀ ⦃d e parent⦄, IsTaproot env d →
      c'.db.getEntryByHash hash = some e → c'.db.getEntryByHash e.prevBlock = some parent →
      ∃ status, ChainDB.Answered env c'.db c'.db.versionBitsCache d parent status)
    (h : Recalls env c) : Recalls env c' := by
  intro d hash e parent hd hhash he hparent
  rcases hold hash hhash with hhash | hnew
  · obtain ⟨e', he'⟩ := inv.block_entry hhash
    obtain rfl := Option.some.inj ((hmono _ _ he').symm.trans he)
    obtain ⟨p, hp⟩ := inv.tree.exists_parent he' (inv'.tree.isGenesis_eq_false he hparent)
    obtain rfl := Option.some.inj ((hmono _ _ hp).symm.trans hparent)
    obtain ⟨status, hstatus⟩ := h hd hhash he' hp
    exact ⟨status, hstatus.mono inv.tree inv'.tree hmono (inv.tree.self hp) hgrows⟩
  · exact hnew hd he hparent

/-- A query of the flags keeps what is remembered and adds its own answer. -/
theorem getDeployments_grows (inv : c.Inv env) (skips : c.db.Skips) {time : Nat}
    {cache : VersionBitsCache} {state : DeploymentState}
    (hprev : c.db.getEntryByHash prev.hash = some prev)
    (h : c.db.getDeployments env time prev = .ok (cache, state)) :
    c.db.versionBitsCache.Grows cache ∧ ∀ d, IsTaproot env d →
      ∃ status, ChainDB.Answered env c.db cache d prev status := by
  cases hd : env.network.deployments.find? (·.name == .taproot) with
  | none =>
    rw [ChainDB.getDeployments, hd] at h
    cases h
  | some d =>
    obtain ⟨status, hquery, -⟩ := getDeployments_eq_ok hd h
    obtain ⟨hgrows, hanswered⟩ := ChainDB.exists_answered inv.tree inv.main skips hprev hquery
    exact ⟨hgrows, fun d' hd' => Option.some.inj (hd.symm.trans hd') ▸ hanswered⟩

theorem verify_answered (inv : c.Inv env) (skips : c.db.Skips)
    (hprev : c.db.getEntryByHash prev.hash = some prev) {r : Except BlockVerificationError Unit}
    (h : c.verify env block prev = .ok (c', r)) :
    c.db.versionBitsCache.Grows c'.db.versionBitsCache ∧ (r = .ok () → ∀ d, IsTaproot env d →
      ∃ status, ChainDB.Answered env c.db c'.db.versionBitsCache d prev status) := by
  obtain ⟨-, ⟨rfl, e, rfl⟩ | ⟨cache, state, -, hflags, rfl⟩⟩ := verify_cases h
  · exact ⟨.refl _, nofun⟩
  · obtain ⟨hgrows, hanswered⟩ := getDeployments_grows inv skips hprev hflags
    exact ⟨hgrows, fun _ => hanswered⟩

/-- The flags that a block is connected with are those of the first query. -/
theorem verifyContext_state {view : CoinView} {state state' : DeploymentState}
    {cache : VersionBitsCache}
    (hflags : c.db.getDeployments env block.header.time prev = .ok (cache, state))
    (h : c.verifyContext env block prev = .ok (c', .ok (view, state'))) : state' = state := by
  rw [verifyContext, hflags, bind_of_ok rfl] at h
  obtain ⟨⟨c₁, verified⟩, -, h⟩ := bind_eq_ok.1 h
  dsimp only at h
  repeat' split at h
  all_goals first | cases h; done | (cases h; rfl)

theorem exists_taproot_of_getDeployments {time : Nat} {r : VersionBitsCache × DeploymentState}
    (h : c.db.getDeployments env time prev = .ok r) : ∃ d, IsTaproot env d := by
  cases hd : env.network.deployments.find? (·.name == .taproot) with
  | none =>
    rw [ChainDB.getDeployments, hd] at h
    cases h
  | some d => exact ⟨d, hd⟩

/-- The flags of a stored block: what `get_deployments` makes of its time and its parent. -/
def FlagsOf (env : Env) (c : Chain) (e : ChainEntry) (state : DeploymentState) : Prop :=
  ∃ parent cache, c.db.getEntryByHash e.prevBlock = some parent
    ∧ c.db.getDeployments env e.time parent = .ok (cache, state)

theorem FlagsOf.unique {e : ChainEntry} {state state' : DeploymentState}
    (h : c.FlagsOf env e state) (h' : c.FlagsOf env e state') : state = state' := by
  obtain ⟨parent, cache, hparent, hflags⟩ := h
  obtain ⟨parent', cache', hparent', hflags'⟩ := h'
  obtain rfl := Option.some.inj (hparent.symm.trans hparent')
  exact (Prod.mk.inj (Except.ok.inj (hflags.symm.trans hflags'))).2

/-- A block that is connected finds its flags in the cache. -/
theorem Recalls.settled (law : env.Lawful) (hc : Visited env c) (h : Recalls env c)
    (hext : c.Extends c.tip entry) (hd : IsTaproot env d) : ∃ status,
      ChainDB.Answered env c.db c.db.versionBitsCache d c.tip status
      ∧ ∀ time, c.db.getDeployments env time c.tip
        = .ok (c.db.versionBitsCache, flagsWith env.network time (c.tip.height + 1) status) := by
  have inv := hc.inv law
  have hparent : c.db.getEntryByHash entry.prevBlock = some c.tip := by
    rw [hext.prev, inv.tip_stored]
  obtain ⟨status, hstatus⟩ := h hd (isBlockReady_iff.1 hext.ready).2 hext.stored hparent
  exact ⟨status, hstatus, getDeployments_answered hd inv (hc.skips law) inv.tip_stored hstatus⟩

/-! ## What a function keeps -/

/-- Stored headers and remembered answers are kept; the flags of a block that is stored now are
remembered. -/
structure Keeps (env : Env) (c c' : Chain) : Prop where
  entries (hash : BlockHash) (e : ChainEntry) :
    c.db.getEntryByHash hash = some e → c'.db.getEntryByHash hash = some e
  answers : c.db.versionBitsCache.Grows c'.db.versionBitsCache
  blocks (hash : BlockHash) : hash ∈ c'.db.downloaded → hash ∈ c.db.downloaded
    ∨ ∀ ⦃d e parent⦄, IsTaproot env d → c'.db.getEntryByHash hash = some e →
      c'.db.getEntryByHash e.prevBlock = some parent →
      ∃ status, ChainDB.Answered env c'.db c'.db.versionBitsCache d parent status

theorem Keeps.refl (c : Chain) : Keeps env c c := ⟨fun _ _ => id, .refl _, fun _ => .inl⟩

theorem SameStore.keeps (h : SameStore c c')
    (hbits : c'.db.versionBitsCache.bits = c.db.versionBitsCache.bits) : Keeps env c c' :=
  ⟨fun _ _ he => (congrFun h.entries _).trans he, .of_bits hbits,
    fun _ hhash => .inl (h.downloaded ▸ hhash)⟩

theorem Keeps.recalls (inv : c.Inv env) (inv' : c'.Inv env) (keeps : Keeps env c c')
    (h : Recalls env c) : Recalls env c' :=
  h.mono inv inv' keeps.entries keeps.answers keeps.blocks

/-- The flags of a block stay what they were. -/
theorem Keeps.flagsOf (law : env.Lawful) (hc : Visited env c) (hc' : Visited env c')
    (keeps : Keeps env c c') (recalls : Recalls env c) {e : ChainEntry} {state : DeploymentState}
    (he : c.db.getEntryByHash e.hash = some e) (hblock : e.hash ∈ c.db.downloaded)
    (h : c.FlagsOf env e state) : c'.FlagsOf env e state := by
  have inv := hc.inv law
  have inv' := hc'.inv law
  obtain ⟨parent, cache, hparent, hflags⟩ := h
  obtain ⟨d, hd⟩ := exists_taproot_of_getDeployments hflags
  obtain ⟨status, hstatus⟩ := recalls hd hblock he hparent
  have hself := inv.tree.self hparent
  rw [getDeployments_answered hd inv (hc.skips law) hself hstatus] at hflags
  obtain ⟨-, rfl⟩ := Prod.mk.inj (Except.ok.inj hflags)
  exact ⟨parent, _, keeps.entries _ _ hparent, getDeployments_answered hd inv' (hc'.skips law)
    (keeps.entries _ _ hself) (hstatus.mono inv.tree inv'.tree keeps.entries hself keeps.answers) _⟩

theorem addBlock_verified {r : Except BlockVerificationError Unit}
    (h : c.addBlock env block entry prev = .ok (c', r)) : ∃ c₁,
      (∃ e, c.verify env block prev = .ok (c₁, .error e) ∧ c' = c₁.setInvalid entry.hash)
        ∨ c.verify env block prev = .ok (c₁, .ok ()) ∧ ∃ db,
          c₁.db.writeBlock env entry.hash block = .ok db ∧ c' = { c₁ with db := db } := by
  unfold addBlock at h
  split at h
  · cases h
  obtain ⟨⟨c₁, verified⟩, hverify, h⟩ := bind_eq_ok.1 h
  refine ⟨c₁, ?_⟩
  cases verified with
  | error e =>
    cases h
    exact .inl ⟨e, hverify, rfl⟩
  | ok _ =>
    obtain ⟨db, hdb, h⟩ := bind_eq_ok.1 h
    cases h
    exact .inr ⟨hverify, db, hdb, rfl⟩

theorem addBlock_keeps (hinj : Function.Injective env.blockHash) (inv : c.Inv env)
    (skips : c.db.Skips) {r : Except BlockVerificationError Unit}
    (hentry : c.db.getEntryByHash entry.hash = some entry)
    (hhash : env.blockHash block.header = entry.hash)
    (hprev : c.db.getEntryByHash prev.hash = some prev)
    (h : c.addBlock env block entry prev = .ok (c', r)) :
    Keeps env c c' ∧ c'.tip = c.tip ∧ c'.state = c.state := by
  obtain ⟨c₁, ⟨e, hverify, rfl⟩ | ⟨hverify, db, hdb, rfl⟩⟩ := addBlock_verified h
  · obtain ⟨hgrows, -⟩ := verify_answered inv skips hprev hverify
    obtain ⟨⟨cache, rfl⟩, -⟩ := verify_eq_ok hverify
    exact ⟨⟨fun _ _ => id, hgrows, fun _ => .inl⟩, rfl, rfl⟩
  · obtain ⟨hgrows, hanswered⟩ := verify_answered inv skips hprev hverify
    obtain ⟨⟨cache, rfl⟩, hheader, -⟩ := verify_eq_ok hverify
    obtain ⟨blocks, -, rfl⟩ := ChainDB.writeBlock_eq_ok hdb
    refine ⟨⟨fun _ _ => id, hgrows, fun hash hmem => ?_⟩, rfl, rfl⟩
    rcases Finset.mem_insert.1 hmem with rfl | hmem
    · refine .inr fun d e parent hd he hparent => ?_
      -- the entry is that of the header, so its parent is the block that was asked about
      obtain rfl := Option.some.inj (hentry.symm.trans he)
      have hsame := hinj ((inv.tree.header_hash hentry).trans hhash.symm)
      have hprevious : entry.prevBlock = prev.hash :=
        hheader ▸ congrArg BlockHeader.prevBlockhash hsame
      obtain rfl := Option.some.inj (hprev.symm.trans (hprevious ▸ hparent))
      obtain ⟨status, hstatus⟩ := hanswered rfl d hd
      exact ⟨status, hstatus.mono inv.tree (inv.tree.congr rfl) (fun _ _ => id) hprev (.refl _)⟩
    · exact .inl hmem

theorem addHeader_keeps (inv : c.Inv env) {now : Nat} {header : BlockHeader}
    {r : Except BlockHeaderVerificationError (ChainEntry × ChainEntry)}
    (h : c.addHeader env now header = .ok (c', r)) :
    Keeps env c c' ∧ c'.tip = c.tip ∧ c'.state = c.state := by
  rcases addHeader_eq_ok h with ⟨_, -, rfl⟩ | ⟨_, _, _, _, rfl, -, -, -, -, -, -, -, hsave, rfl⟩
  · exact ⟨.refl _, rfl, rfl⟩
  · have hmono := (Move.header h).entries_mono inv
    obtain ⟨mostWork, rfl⟩ := ChainDB.saveEntry_eq_ok inv.idle hsave
    exact ⟨⟨hmono, .of_bits rfl, fun _ => .inl⟩, rfl, rfl⟩

/-- A block is refused, or it is the tip now and its flags are in force. -/
theorem connect_keeps (law : env.Lawful) (hinj : Function.Injective env.blockHash)
    (hc : Visited env c) (hc' : Visited env c') (recalls : Recalls env c)
    {r : Except BlockVerificationError ChainEntry} (hext : c.Extends c.tip entry)
    (hblock : c.db.getBlock entry.hash = some block)
    (h : c.connect env block entry c.tip = .ok (c', r)) :
    Keeps env c c' ∧ (c'.tip = c.tip ∧ c'.state = c.state
      ∨ entry = c'.tip ∧ c'.FlagsOf env entry c'.state) := by
  have inv := hc.inv law
  have inv' := hc'.inv law
  obtain ⟨-, -, cache, hcases⟩ := connect_eq_ok h
  obtain ⟨r', hverify⟩ : ∃ r', c.verifyContext env block c.tip = .ok (c.withCache cache, r') := by
    obtain ⟨e, -, -, hverify⟩ | ⟨_, _, _, -, hverify, -⟩ := hcases
    · exact ⟨_, hverify⟩
    · exact ⟨_, hverify⟩
  obtain ⟨_, hasked, -⟩ := bind_eq_ok.1 (verifyContext.eq_def env c block c.tip ▸ hverify)
  obtain ⟨d, hd⟩ := exists_taproot_of_getDeployments hasked
  obtain ⟨status, hstatus, hsettled⟩ := recalls.settled law hc hext hd
  have hcache : c.withCache cache = c := verifyContext_settled (hsettled _) hverify
  rw [hcache] at hcases
  obtain ⟨e, rfl, rfl, -⟩ | ⟨view, state, db, rfl, hverify, -, -, hdb, rfl⟩ := hcases
  · exact ⟨⟨fun _ _ => id, .refl _, fun _ => .inl⟩, .inl ⟨rfl, rfl⟩⟩
  obtain ⟨hsame, -⟩ := connect_sameStore inv hext.stored hblock hext.prev h
  have hbits := connect_settled inv (hsettled _) hext.stored hblock hext.prev h
  have keeps : Keeps env c (c.connected db block entry view state) := hsame.keeps hbits
  have hparent : (c.connected db block entry view state).db.getEntryByHash entry.prevBlock
      = some c.tip := by rw [hsame.entries, hext.prev, inv.tip_stored]
  have htime : block.header.time = entry.time := congrArg BlockHeader.time
    (hinj ((inv.block_hash hblock).trans (inv.tree.header_hash hext.stored).symm))
  have hflags := getDeployments_answered hd inv' (hc'.skips law)
    (keeps.entries _ _ inv.tip_stored)
    (hstatus.mono inv.tree inv'.tree keeps.entries inv.tip_stored keeps.answers) entry.time
  rw [← htime, ← verifyContext_state (hsettled _) hverify] at hflags
  exact ⟨keeps, .inr ⟨rfl, c.tip, _, hparent, htime ▸ hflags⟩⟩

theorem disconnect_keeps (inv : c.Inv env) (h : c.disconnect env c.tip = .ok c') :
    Keeps env c c' ∧ SameStore c c' ∧ c.db.getEntryByHash c.tip.prevBlock = some c'.tip
      ∧ c'.state = c.state := by
  obtain ⟨hsame, hparent⟩ := disconnect_sameStore inv h
  obtain ⟨block, prev, db, view, -, -, hdb, rfl⟩ := disconnect_eq_ok h
  obtain ⟨undo, record, -, -, rfl⟩ := ChainDB.disconnect_eq_ok inv.idle hdb
  exact ⟨hsame.keeps rfl, hsame, hparent, rfl⟩

theorem status_keeps (inv : c.Inv env) (skips : c.db.Skips) {prev : Option ChainEntry}
    {cache : VersionBitsCache} {state : ThresholdState}
    (hprev : ∀ entry ∈ prev, c.db.getEntryByHash entry.hash = some entry)
    (h : c.db.getDeploymentStatus env prev d = .ok (cache, state)) :
    Keeps env c (c.withCache cache) := by
  refine ⟨fun _ _ => id, ?_, fun _ => .inl⟩
  cases prev with
  | none =>
    cases h
    exact .refl _
  | some prev => exact (ChainDB.exists_answered inv.tree inv.main skips (hprev prev rfl) h).1

theorem Does.keeps (law : env.Lawful) (hinj : Function.Injective env.blockHash)
    (hc : Visited env c) (recalls : Recalls env c) (h : Does env c act c') : Keeps env c c' := by
  have inv := hc.inv law
  have hc' := hc.does law h
  cases h with
  | status hprev _ h => exact status_keeps inv (hc.skips law) hprev h
  | addHeader h => exact (addHeader_keeps inv h).1
  | addBlock hentry hhash hprev h =>
    exact (addBlock_keeps hinj inv (hc.skips law) hentry hhash hprev h).1
  | connect hext hblock h => exact (connect_keeps law hinj hc hc' recalls hext hblock h).1
  | disconnect h => exact (disconnect_keeps inv h).1

theorem Does.recalls (law : env.Lawful) (hinj : Function.Injective env.blockHash)
    (hc : Visited env c) (recalls : Recalls env c) (h : Does env c act c') : Recalls env c' :=
  (h.keeps law hinj hc recalls).recalls (hc.inv law) ((hc.does law h).inv law) recalls

theorem Recalls.new (law : env.Lawful) (h : Chain.new env = .ok c) : Recalls env c := by
  obtain ⟨mostWork, rfl⟩ := new_eq_ok law h
  intro d hash e parent _ _ he hparent
  obtain ⟨-, rfl⟩ := getEntryByHash_fresh.1 he
  exact absurd ((tree_fresh law).height_eq he hparent).symm (Nat.succ_ne_zero _)

/-! ## The tip and its copies -/

/-- The copies of the tip agree, and the rules in force are those of the tip. -/
structure Tracks (env : Env) (c : Chain) : Prop where
  height : c.height = c.tip.height
  tip : c.tip.hash = c.db.state.tip
  flags : 0 < c.tip.height → c.FlagsOf env c.tip c.state

/-- The block before the tip is the genesis block, or it has the flags of the tip. -/
def Level (env : Env) (c : Chain) : Prop :=
  ∀ parent, c.db.getEntryByHash c.tip.prevBlock = some parent → 0 < parent.height →
    ∃ state, c.FlagsOf env c.tip state ∧ c.FlagsOf env parent state

/-- No function but `disconnect` has a condition. -/
def Quiet (env : Env) (c : Chain) (act : Act) : Prop := act = .disconnect → Level env c

theorem tracks_iff (law : env.Lawful) (hc : Visited env c) :
    c.Tracks env ↔ (0 < c.tip.height → c.FlagsOf env c.tip c.state) := by
  have inv := hc.inv law
  exact ⟨Tracks.flags, fun h => ⟨inv.height_eq, inv.state_tip.symm, h⟩⟩

/-- The flags of the tip are known when those of any block are. -/
theorem Recalls.exists_flagsOf (law : env.Lawful) (hc : Visited env c) (recalls : Recalls env c)
    {e : ChainEntry} (hd : IsTaproot env d) (he : c.db.getEntryByHash e.hash = some e)
    (hblock : e.hash ∈ c.db.downloaded) (hheight : 0 < e.height) :
    ∃ state, c.FlagsOf env e state := by
  have inv := hc.inv law
  obtain ⟨parent, hparent⟩ := inv.tree.exists_parent he (by simp [ChainEntry.isGenesis]; omega)
  obtain ⟨status, hstatus⟩ := recalls hd hblock he hparent
  exact ⟨_, parent, _, hparent, getDeployments_answered hd inv (hc.skips law)
    (inv.tree.self hparent) hstatus _⟩

/-- Disconnecting a block keeps the rules in force, which are to be those of the block before. -/
theorem disconnect_tracks_iff (law : env.Lawful) (hc : Visited env c) (hc' : Visited env c')
    (recalls : Recalls env c) (tracks : c.Tracks env) (h : c.disconnect env c.tip = .ok c') :
    c'.Tracks env ↔ Level env c := by
  have inv := hc.inv law
  have inv' := hc'.inv law
  obtain ⟨keeps, hsame, hparent, hstate⟩ := disconnect_keeps inv h
  have hstored : c.db.getEntryByHash c'.tip.hash = some c'.tip := inv.tree.self hparent
  have hblock : c'.tip.hash ∈ c.db.downloaded := by
    have hready := inv'.main_ready inv'.main.top
    rw [← hsame.downloaded]
    exact (isBlockReady_iff.1 hready).2
  have hheight := inv.tree.height_eq inv.tip_stored hparent
  have htip := tracks.flags (by omega)
  rw [tracks_iff law hc', hstate]
  constructor
  · intro hflags parent hparent' hpos
    obtain rfl := Option.some.inj (hparent.symm.trans hparent')
    obtain ⟨_, _, -, hasked⟩ := id htip
    obtain ⟨d, hd⟩ := exists_taproot_of_getDeployments hasked
    obtain ⟨state, hbefore⟩ := recalls.exists_flagsOf law hc hd hstored hblock hpos
    have hafter := keeps.flagsOf law hc hc' recalls hstored hblock hbefore
    obtain rfl := hafter.unique (hflags hpos)
    exact ⟨_, htip, hbefore⟩
  · intro hlevel hpos
    obtain ⟨state, htip', hbefore⟩ := hlevel _ hparent hpos
    obtain rfl := htip.unique htip'
    exact keeps.flagsOf law hc hc' recalls hstored hblock hbefore

theorem does_tracks_iff (law : env.Lawful) (hinj : Function.Injective env.blockHash)
    (hc : Visited env c) (recalls : Recalls env c) (h : Does env c act c')
    (tracks : c.Tracks env) : c'.Tracks env ↔ Quiet env c act := by
  have inv := hc.inv law
  have hc' := hc.does law h
  have keeps := h.keeps law hinj hc recalls
  -- where the tip and the flags stay, the flags of the tip do so too
  have hstays (htip : c'.tip = c.tip) (hstate : c'.state = c.state) : c'.Tracks env := by
    rw [tracks_iff law hc', htip, hstate]
    intro hpos
    exact keeps.flagsOf law hc hc' recalls inv.tip_stored
      (isBlockReady_iff.1 (inv.main_ready inv.main.top)).2 (tracks.flags hpos)
  cases h with
  | status hprev _ h => exact iff_of_true (hstays rfl rfl) nofun
  | addHeader h =>
    obtain ⟨-, htip, hstate⟩ := addHeader_keeps inv h
    exact iff_of_true (hstays htip hstate) nofun
  | addBlock hentry hhash hprev h =>
    obtain ⟨-, htip, hstate⟩ := addBlock_keeps hinj inv (hc.skips law) hentry hhash hprev h
    exact iff_of_true (hstays htip hstate) nofun
  | connect hext hblock h =>
    refine iff_of_true ?_ nofun
    obtain ⟨-, ⟨htip, hstate⟩ | ⟨rfl, hflags⟩⟩ := connect_keeps law hinj hc hc' recalls
      hext hblock h
    · exact hstays htip hstate
    · exact (tracks_iff law hc').2 fun _ => hflags
  | disconnect h =>
    rw [disconnect_tracks_iff law hc hc' recalls tracks h]
    exact ⟨fun hlevel _ => hlevel, fun hquiet => hquiet rfl⟩

theorem Tracks.new (law : env.Lawful) (h : Chain.new env = .ok c) : c.Tracks env := by
  rw [tracks_iff law ⟨c, h, .refl⟩]
  obtain ⟨mostWork, rfl⟩ := new_eq_ok law h
  exact fun hpos => absurd hpos (Nat.lt_irrefl 0)

/-! ## Runs -/

/-- A listener is shown the chain that the function leaves behind. -/
theorem Does.notified (h : Does env c act c') : c'.notified = c.notified
    ∨ ∃ n : Notification, c'.notified = c.notified ++ [n] ∧ n.chain = c'.snapshot := by
  cases h with
  | status => exact .inl rfl
  | addHeader h =>
    rcases addHeader_eq_ok h with ⟨_, -, rfl⟩ | ⟨_, _, _, _, -, -, -, -, -, -, -, -, -, rfl⟩
    · exact .inl rfl
    · exact .inl rfl
  | addBlock _ _ _ h =>
    obtain ⟨-, -, cache, ⟨_, -, rfl⟩ | ⟨_, -, -, -, rfl⟩⟩ := addBlock_eq_ok h
    · exact .inl rfl
    · exact .inl rfl
  | connect _ _ h =>
    obtain ⟨-, -, cache, ⟨_, -, rfl, -⟩ | ⟨_, _, _, -, -, -, -, -, rfl⟩⟩ := connect_eq_ok h
    · exact .inl rfl
    · exact .inr ⟨_, rfl, rfl⟩
  | disconnect h =>
    obtain ⟨_, _, _, _, -, -, -, rfl⟩ := disconnect_eq_ok h
    exact .inr ⟨_, rfl, rfl⟩

theorem notified_of_trace {trace : List (Act × Chain)} (h : Trace (Does env) c trace) :
    ∀ e ∈ trace, ∀ n ∈ e.2.notified,
      n ∈ c.notified ∨ ∃ e' ∈ trace, n.chain = e'.2.snapshot := by
  induction h with
  | nil => exact fun e he => absurd he List.not_mem_nil
  | @cons c c' act rest hdoes _ ih =>
    have hfirst (n : Notification) (hn : n ∈ c'.notified) :
        n ∈ c.notified ∨ ∃ e' ∈ (act, c') :: rest, n.chain = e'.2.snapshot := by
      obtain hsame | ⟨n', hnew, hchain⟩ := hdoes.notified
      · exact .inl (hsame ▸ hn)
      rw [hnew] at hn
      rcases List.mem_append.1 hn with hn | hn
      · exact .inl hn
      · exact .inr ⟨_, List.mem_cons_self, List.mem_singleton.1 hn ▸ hchain⟩
    refine List.forall_mem_cons.2 ⟨hfirst, fun e he n hn => ?_⟩
    rcases ih e he n hn with hn | ⟨e', he', hchain⟩
    · exact hfirst n hn
    · exact .inr ⟨e', List.mem_cons_of_mem _ he', hchain⟩

/-- Every state between two calls, and every chain that a listener is shown, is one that a run of
the chain's functions passes through. In all states of a run the copies of the tip agree and the
rules in force are those of the tip exactly when every block that is disconnected has the flags of
the block before it, or is the first one. -/
theorem flags_track_tip_iff (law : env.Lawful) (hinj : Function.Injective env.blockHash) :
    (∀ c, Reachable env c → ∃ c₀ trace, Chain.new env = .ok c₀ ∧ Trace (Does env) c₀ trace
        ∧ (c = c₀ ∨ ∃ act, (act, c) ∈ trace))
      ∧ ∀ c₀ trace, Chain.new env = .ok c₀ → Trace (Does env) c₀ trace →
        (∀ e ∈ trace, ∀ n ∈ e.2.notified, ∃ e' ∈ trace, n.chain = e'.2.snapshot)
          ∧ ((∀ e ∈ trace, e.2.Tracks env) ↔ Meets (Quiet env) c₀ trace) := by
  refine ⟨fun c hc => ?_, fun c₀ trace hnew htrace => ⟨fun e he n hn => ?_, ?_⟩⟩
  · obtain ⟨c₀, hnew, hrun⟩ := hc.runs law
    obtain ⟨trace, htrace, hmem⟩ := ReflTransGen.exists_trace hrun
    exact ⟨c₀, trace, hnew, htrace, hmem⟩
  · refine (notified_of_trace htrace e he n hn).resolve_left fun hbefore => ?_
    obtain ⟨mostWork, rfl⟩ := new_eq_ok law hnew
    exact absurd hbefore List.not_mem_nil
  · refine Trace.forall_iff (I := fun c => Visited env c ∧ Recalls env c)
      (fun c act c' hdoes hc _ _ => ?_) (fun c act c' hdoes hc tracks => ?_) htrace ?_ ?_
    · exact ⟨hc.1.does law hdoes, hdoes.recalls law hinj hc.1 hc.2⟩
    · exact does_tracks_iff law hinj hc.1 hc.2 hdoes tracks
    · exact ⟨⟨c₀, hnew, .refl⟩, .new law hnew⟩
    · exact .new law hnew

end Chain

/-! ## A reorganization that fails midway -/

namespace Small

/-- Relative lock times are in force from height 101 on. -/
def relative : Env := { numbered with network := { network with csvHeight := 101 } }

theorem relative_lawful : relative.Lawful where
  blockHash_ne_zero _ := Nat.succ_ne_zero _
  work_pos _ _ := Nat.two_pos
  genesis_prev := rfl

theorem relative_plain : Plain relative := { numbered_plain with law := relative_lawful }

/-- Whether other rules are in force than those of the tip. -/
def flagsDiffer (env : Env) (c : Chain) : Bool :=
  match c.db.getEntryByHash c.tip.prevBlock with
  | none => false
  | some parent =>
    match c.db.getDeployments env c.tip.time parent with
    | .error _ => false
    | .ok (_, state) => decide (state ≠ c.state)

/-- Whether the tip is block 100, under other rules than its own. -/
def leftBehind (c : Chain) : Bool := c.tip.height == 100 && flagsDiffer relative c

theorem not_tracks_of_flagsDiffer {env : Env} {c : Chain} (h : flagsDiffer env c = true)
    (hpos : 0 < c.tip.height) : ¬ c.Tracks env := by
  intro tracks
  obtain ⟨parent, cache, hparent, hflags⟩ := tracks.flags hpos
  simp [flagsDiffer, hparent, hflags] at h

end Small

namespace Chain

theorem flags_track_tip_iff_first : ∃ c₀ trace, Chain.new Small.env = .ok c₀
    ∧ Trace (Does Small.env) c₀ trace ∧ (∃ e ∈ trace, e.2.tip.height = 1)
    ∧ ((∀ e ∈ trace, e.2.Tracks Small.env) ↔ Meets (Quiet Small.env) c₀ trace) := by
  obtain ⟨c, hc, hheight⟩ := exists_reachable Small.env [.add 100 Small.first]
    (fun c => c.tip.height == 1) rfl (by decide +kernel)
  obtain ⟨hreachable, hruns⟩ := flags_track_tip_iff Small.lawful Small.blockHash_injective
  obtain ⟨c₀, trace, hnew, htrace, hmem⟩ := hreachable c hc
  refine ⟨c₀, trace, hnew, htrace, ?_, (hruns c₀ trace hnew htrace).2⟩
  rcases hmem with rfl | ⟨act, hmem⟩
  · obtain ⟨mostWork, rfl⟩ := new_eq_ok Small.lawful hnew
    cases hheight
  · exact ⟨_, hmem, eq_of_beq hheight⟩

set_option maxRecDepth 20000 in
/-- Block 101 is disconnected for a branch whose first block claims too much. Block 100 is the tip
then, under the rules of block 101. -/
theorem flags_stay_after_failed_reorg : ∃ c, Reachable Small.relative c ∧ c.tip.height = 100
    ∧ ¬ c.Tracks Small.relative := by
  obtain ⟨c, hc, hP⟩ := exists_reachable Small.relative
    ((Small.hundred ++ [Small.spending, Small.overpaidSibling, Small.overtaking]).map (.add 1000))
    Small.leftBehind (by decide) (by
      rw [Small.run_hundred Small.relative_plain rfl (by decide)]
      decide +kernel)
  obtain ⟨hheight, hdiffer⟩ := Bool.and_eq_true_iff.1 hP
  have hheight := eq_of_beq hheight
  exact ⟨c, hc, hheight, Small.not_tracks_of_flagsDiffer hdiffer (by omega)⟩

end Chain

end BitcoinNode

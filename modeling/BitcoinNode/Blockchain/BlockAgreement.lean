import BitcoinNode.Blockchain.Convergence
import BitcoinNode.Blockchain.Flags

/-!
# Two nodes agree on blocks

What a node finds out about a block on its tip depends on the block, the tip, the coins and the
rules in force. Two nodes with one tip give one verdict on every block, whatever else they store
and whatever they connected and disconnected on the way.
-/

namespace BitcoinNode

namespace Chain

open ChainDB

variable {env : Env} {c c' : Chain} {prev : ChainEntry} {block : Block}
  {state state' : DeploymentState} {cache cache' : VersionBitsCache}

/-! ## What verification asks the chain -/

/-- Two chains give the same answers to the verification of a block on an entry. -/
structure Alike (c c' : Chain) (prev : ChainEntry) : Prop where
  coin : c'.db.db.coin = c.db.db.coin
  height : c'.height = c.height
  ancestor (height : Nat) : c'.db.getAncestor prev height = c.db.getAncestor prev height
  median : c'.db.getMedianTime prev = c.db.getMedianTime prev
  medianBelow {height : Nat} {a : ChainEntry} : c.db.getAncestor prev height = .ok a →
    c'.db.getMedianTime a = c.db.getMedianTime a

theorem bind_congr_of_ok {ε α β : Type} {x : Except ε α} {f g : α → Except ε β}
    (h : ∀ a, x = .ok a → f a = g a) : (x >>= f) = (x >>= g) := by
  cases x with
  | error e => rfl
  | ok a => exact h a rfl

section Congr

variable {db db' : ChainDB} (hcache : db'.entryCache = db.entryCache)

include hcache

theorem getEntryByHash_congr : db'.getEntryByHash = db.getEntryByHash := by
  unfold ChainDB.getEntryByHash
  rw [hcache]

theorem walkAncestor_congr {height fuel : Nat} {e : ChainEntry} :
    db'.walkAncestor height fuel e = db.walkAncestor height fuel e := by
  induction fuel generalizing e with
  | zero => rfl
  | succ fuel ih => simp only [walkAncestor, ih, getEntryByHash_congr hcache]

theorem getAncestor_congr (e : ChainEntry) (height : Nat) :
    db'.getAncestor e height = db.getAncestor e height := by
  simp only [getAncestor, isMainChain, getEntryByHeight, hcache, walkAncestor_congr hcache]
  rfl

theorem lastTimes_congr {n : Nat} {e : ChainEntry} : db'.lastTimes n e = db.lastTimes n e := by
  induction n generalizing e with
  | zero => rfl
  | succ n ih => simp only [lastTimes, ih, getEntryByHash_congr hcache]

theorem getMedianTime_congr (e : ChainEntry) : db'.getMedianTime e = db.getMedianTime e := by
  rw [getMedianTime, getMedianTime, lastTimes_congr hcache]

end Congr

@[simp] theorem getAncestor_withCache (e : ChainEntry) (height : Nat) :
    (c.withCache cache).db.getAncestor e height = c.db.getAncestor e height :=
  @getAncestor_congr c.db (c.withCache cache).db rfl e height

@[simp] theorem getMedianTime_withCache (e : ChainEntry) :
    (c.withCache cache).db.getMedianTime e = c.db.getMedianTime e :=
  @getMedianTime_congr c.db (c.withCache cache).db rfl e

namespace Alike

variable (alike : Alike c c' prev)

include alike

theorem withCache : Alike (c.withCache cache) (c'.withCache cache') prev :=
  ⟨alike.coin, alike.height, by simpa using alike.ancestor, by simpa using alike.median,
    fun h => by simpa using alike.medianBelow (by simpa using h)⟩

theorem inputLocks_eq {view : CoinView} {inputs : List TxIn} {minHeight minTime : Option Nat} :
    c'.inputLocks prev view inputs minHeight minTime
      = c.inputLocks prev view inputs minHeight minTime := by
  induction inputs generalizing minHeight minTime with
  | nil => rfl
  | cons input inputs ih =>
    simp only [inputLocks, alike.height, alike.ancestor, ih]
    -- a lock by time asks for the median time of an ancestor
    have htime {height lock : Nat} : (do
        let entry ← c.db.getAncestor prev height
        c.inputLocks prev view inputs minHeight
          (some (max (minTime.getD 0) (Word.add 32 (c'.db.getMedianTime entry) lock)))) = (do
        let entry ← c.db.getAncestor prev height
        c.inputLocks prev view inputs minHeight
          (some (max (minTime.getD 0) (Word.add 32 (c.db.getMedianTime entry) lock)))) :=
      bind_congr_of_ok fun entry hentry => by rw [alike.medianBelow hentry]
    rw [htime]

theorem verifyLocks_eq {tx : Transaction} {view : CoinView} {flags : LockFlags} :
    c'.verifyLocks prev tx view flags = c.verifyLocks prev tx view flags := by
  rw [verifyLocks, verifyLocks, getLocks, getLocks, alike.inputLocks_eq, alike.median]

theorem verifySpends_eq {tx : Transaction} {view : CoinView} {reward : Nat} :
    c'.verifySpends prev state tx view reward = c.verifySpends prev state tx view reward := by
  simp only [verifySpends, alike.coin, alike.verifyLocks_eq]

theorem verifyTransactions_eq {txs : List Transaction} {view : CoinView} {sigops reward : Nat} :
    c'.verifyTransactions env prev state txs view sigops reward
      = c.verifyTransactions env prev state txs view sigops reward := by
  induction txs generalizing view sigops reward with
  | nil => rfl
  | cons tx txs ih => simp only [verifyTransactions, alike.verifySpends_eq, ih]

theorem verifyInputs_eq :
    c'.verifyInputs env block prev state = c.verifyInputs env block prev state := by
  simp only [verifyInputs, alike.verifyTransactions_eq]

theorem verifyDuplicates_eq :
    c'.verifyDuplicates env block prev = c.verifyDuplicates env block prev := by
  simp only [verifyDuplicates, hasCoins, alike.coin]
  rfl

end Alike

/-- The rules for finality and heights come from the height of the block alone. -/
theorem getDeployments_height {db : ChainDB} {time : Nat}
    (h : db.getDeployments env time prev = .ok (cache, state)) :
    state.lockFlags = (heightDeployments env.network time (prev.height + 1)).lockFlags
      ∧ state.bip34 = (heightDeployments env.network time (prev.height + 1)).bip34 := by
  unfold getDeployments at h
  split at h
  · cases h
  simp only [bind_eq_ok, pure_eq_ok, Prod.mk.injEq] at h
  obtain ⟨⟨_, active⟩, -, -, rfl⟩ := h
  dsimp only
  split_ifs <;> exact ⟨rfl, rfl⟩

theorem Alike.verify_eq (alike : Alike c c' prev)
    (hflags : c.db.getDeployments env block.header.time prev = .ok (cache, state))
    (hflags' : c'.db.getDeployments env block.header.time prev = .ok (cache', state')) :
    (c'.verify env block prev).map Prod.snd = (c.verify env block prev).map Prod.snd := by
  obtain ⟨hlocks, hbip⟩ := getDeployments_height hflags
  obtain ⟨hlocks', hbip'⟩ := getDeployments_height hflags'
  have hmtp : state'.hasMtp = state.hasMtp := by
    rw [DeploymentState.hasMtp, DeploymentState.hasMtp, hlocks, hlocks']
  have hbip34 : state'.hasBip34 = state.hasBip34 := hbip'.trans hbip.symm
  unfold verify
  by_cases hheader : block.header.prevBlockhash ≠ prev.hash
  · rw [if_pos hheader, if_pos hheader]
  rw [if_neg hheader, if_neg hheader]
  cases block.checkBody env with
  | error e => rfl
  | ok _ =>
    dsimp only
    rw [hflags, hflags', bind_of_ok rfl, bind_of_ok rfl]
    dsimp only
    rw [hmtp, hbip34, getMedianTime_withCache, getMedianTime_withCache, alike.median]
    generalize (block.txdata.all fun _ => _) = isFinal
    by_cases hweight : env.getWeight block > MAX_BLOCK_WEIGHT
    on_goal 1 => rw [if_pos hweight, if_pos hweight]
    on_goal 2 => rw [if_neg hweight, if_neg hweight]
    all_goals cases isFinal <;> cases state.hasBip34
      <;> cases block.checkCoinbaseHeight env (prev.height + 1)
      <;> cases env.checkWitnessCommitment block <;> rfl

theorem map_snd_cases {σ ε α : Type} {x x' : Except ε (σ × α)}
    (h : x'.map Prod.snd = x.map Prod.snd) :
    (∃ e, x = .error e ∧ x' = .error e) ∨ ∃ s s' a, x = .ok (s, a) ∧ x' = .ok (s', a) := by
  cases x with
  | error e =>
    cases x' with
    | error e' => exact .inl ⟨e, rfl, congrArg Except.error (Except.error.inj h)⟩
    | ok r' => cases h
  | ok r =>
    cases x' with
    | error e' => cases h
    | ok r' =>
      exact .inr ⟨r.1, r'.1, r.2, rfl,
        congrArg (fun a => Except.ok (r'.1, a)) (Except.ok.inj h)⟩

/-- A second query of the flags is answered too. -/
theorem getDeployments_again (inv : c.Inv env) (skips : c.db.Skips) {time : Nat}
    (hprev : c.db.getEntryByHash prev.hash = some prev)
    (h : c.db.getDeployments env time prev = .ok (cache, state)) :
    ∃ r, (c.withCache cache).db.getDeployments env time prev = .ok r := by
  obtain ⟨d, hd⟩ := exists_taproot_of_getDeployments h
  obtain ⟨status, hstatus⟩ := (getDeployments_grows inv skips hprev h).2 d hd
  have inv' := inv.withCache cache
  exact ⟨_, getDeployments_answered hd inv' skips hprev
    (hstatus.mono inv.tree inv'.tree (fun _ _ he => he) hprev (.refl _)) time⟩

/-- The rules in force for a block with a time on the tip. -/
def flagsAt (env : Env) (c : Chain) (time : Nat) : Except Panic DeploymentState :=
  (c.db.getDeployments env time c.tip).map Prod.snd

/-- Taproot is in force from the start, as on regtest and signet. -/
def TaprootActive (env : Env) : Prop := ∃ d, IsTaproot env d ∧ d.startTime = .alwaysActive

/-- Then the rules for a block depend on its time and height only. -/
theorem flagsAt_of_active (h : TaprootActive env) (time : Nat) :
    c.flagsAt env time = .ok (flagsWith env.network time (c.tip.height + 1) .active) := by
  obtain ⟨d, hd, hactive⟩ := h
  rw [flagsAt, getDeployments_eq hd, getDeploymentStatus_alwaysActive hactive]
  rfl

/-- What `verify_context` finds out about a block on the tip. -/
def verdict (env : Env) (c : Chain) (block : Block) :
    Except Panic (Except BlockVerificationError (CoinView × DeploymentState)) :=
  (c.verifyContext env block c.tip).map Prod.snd

theorem Alike.verdict_eq (alike : Alike c c' c.tip) (htip : c'.tip = c.tip) (inv : c.Inv env)
    (inv' : c'.Inv env) (skips : c.db.Skips) (skips' : c'.db.Skips)
    (hflags : c'.flagsAt env block.header.time = c.flagsAt env block.header.time) :
    c'.verdict env block = c.verdict env block := by
  have hstored' := inv'.tip_stored
  rw [htip] at hstored'
  rw [flagsAt, flagsAt, htip] at hflags
  rw [verdict, verdict, verifyContext, verifyContext, htip]
  obtain ⟨p, hquery, hquery'⟩ | ⟨cache, cache', state, hquery, hquery'⟩ := map_snd_cases hflags
  · rw [hquery, hquery']
    rfl
  obtain ⟨⟨_, _⟩, hagain⟩ := getDeployments_again inv skips inv.tip_stored hquery
  obtain ⟨⟨_, _⟩, hagain'⟩ := getDeployments_again inv' skips' hstored' hquery'
  rw [hquery, hquery', bind_of_ok rfl, bind_of_ok rfl]
  dsimp only
  obtain ⟨p, hverify, hverify'⟩ | ⟨c₁, c₁', verified, hverify, hverify'⟩ :=
    map_snd_cases (alike.withCache.verify_eq hagain hagain')
  · rw [hverify, hverify']
  obtain ⟨⟨cache₁, rfl⟩, -⟩ := verify_eq_ok hverify
  obtain ⟨⟨cache₁', rfl⟩, -⟩ := verify_eq_ok hverify'
  have halike : Alike ((c.withCache cache).withCache cache₁)
      ((c'.withCache cache').withCache cache₁') c.tip := alike.withCache.withCache
  rw [hverify, hverify', bind_of_ok rfl, bind_of_ok rfl]
  cases verified with
  | error e => rfl
  | ok _ =>
    dsimp only
    rw [halike.verifyDuplicates_eq, halike.verifyInputs_eq]
    generalize verifyDuplicates env _ block c.tip = duplicates
    generalize verifyInputs env _ block c.tip state = inputs
    cases duplicates <;> rcases inputs with (p | e) | view <;> split_ifs <;> rfl

/-! ## One tip, one verdict -/

theorem Visited.alike (law : env.Lawful) (hinj : Function.Injective env.blockHash)
    (h : Visited env c) (h' : Visited env c') (htip : c'.tip = c.tip)
    (hcoin : c'.db.db.coin = c.db.db.coin) : Alike c c' c.tip := by
  have inv := h.inv law
  have inv' := h'.inv law
  have agrees := h.agrees law hinj h'
  have hstored := inv.tip_stored
  have hstored' := inv'.tip_stored
  rw [htip] at hstored'
  refine ⟨hcoin, ?_, fun height => ?_, agrees.getMedianTime_eq hstored hstored', fun ha => ?_⟩
  · rw [inv.height_eq, inv'.height_eq, htip]
  · exact agrees.getAncestor_eq hstored hstored' inv.tree inv.main (h.skips law) inv'.tree inv'.main
      (h'.skips law)
  · obtain ⟨-, hanc, -⟩ := ChainDB.getAncestor_eq_ok inv.tree inv.main (h.skips law) hstored ha
    exact agrees.getMedianTime_eq (hanc.stored inv.tree hstored)
      ((agrees.ancestor hstored hstored' hanc).stored inv'.tree hstored')

end Chain

end BitcoinNode

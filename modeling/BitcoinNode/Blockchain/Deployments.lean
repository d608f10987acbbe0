import BitcoinNode.Blockchain.Windows

/-!
# Deployment queries

`get_deployment_status` remembers the states of window boundaries, and computes those it does not
remember with the newest first. A query that has at most one boundary to compute returns the state
of the machine, and leaves true states behind.
-/

namespace BitcoinNode

namespace VersionBitsCache

variable {cache : VersionBitsCache} {bit : Nat} {hash : BlockHash}

theorem exists_set (state : ThresholdState) (h : ∃ r, cache.get bit hash = .ok r) :
    ∃ cache', cache.set bit hash state = .ok cache' ∧ ∀ bit' hash', cache'.get bit' hash' =
      if bit' = bit ∧ hash' = hash then .ok (some state) else cache.get bit' hash' := by
  obtain ⟨r, hr⟩ := h
  unfold get at hr
  cases hstates : cache.bits.lookup bit with
  | none => rw [hstates] at hr; cases hr
  | some states =>
    unfold set
    rw [hstates]
    dsimp only
    by_cases hsame : states.lookup hash = some state
    · refine ⟨cache, if_pos hsame, fun bit' hash' => ?_⟩
      split_ifs with heq
      · obtain ⟨rfl, rfl⟩ := heq
        rw [get, hstates, ← hsame]
      · rfl
    · refine ⟨_, if_neg hsame, fun bit' hash' => ?_⟩
      unfold get
      by_cases hbit : bit' = bit
      · subst hbit
        rw [Finmap.lookup_insert, hstates]
        by_cases hhash : hash' = hash
        · subst hhash
          simp [Finmap.lookup_insert]
        · simp [hhash, Finmap.lookup_insert_of_ne _ hhash]
      · simp [hbit, Finmap.lookup_insert_of_ne _ hbit]

theorem get_new {network : NetworkParams} {deployment : Deployment}
    (h : deployment ∈ network.deployments) (hash : BlockHash) :
    (new network).get deployment.bit hash = .ok none := by
  have hbits (deployments : List Deployment) (bits : FMap Nat (FMap BlockHash ThresholdState))
      (hstates : bits.lookup deployment.bit = some ∅ ∨ deployment ∈ deployments) :
      (deployments.foldl (fun bits d => bits.insert d.bit ∅) bits).lookup deployment.bit
        = some ∅ := by
    induction deployments generalizing bits with
    | nil => exact hstates.resolve_right List.not_mem_nil
    | cons d deployments ih =>
      refine ih _ ?_
      by_cases hbit : deployment.bit = d.bit
      · exact .inl (by rw [hbit, Finmap.lookup_insert])
      · rw [Finmap.lookup_insert_of_ne _ hbit]
        exact hstates.imp_right fun hmem =>
          (List.mem_cons.1 hmem).resolve_left fun heq => hbit (heq ▸ rfl)
  rw [get, new, hbits _ _ (.inr h)]
  rfl

end VersionBitsCache

namespace ChainDB

variable {env : Env} {db db' : ChainDB} {cache cache' : VersionBitsCache} {d : Deployment}
  {start fuel n : Nat} {tip prev b b' : ChainEntry}

/-- What is remembered is true. -/
structure Sound (env : Env) (db : ChainDB) (cache : VersionBitsCache) : Prop where
  known {d : Deployment} : d ∈ env.network.deployments → ∀ hash, ∃ r, cache.get d.bit hash = .ok r
  state {d : Deployment} {start : Nat} {hash : BlockHash} {state : ThresholdState} :
    d ∈ env.network.deployments → d.startTime = .startTime start →
    cache.get d.bit hash = .ok (some state) →
    ∃ b, db.getEntryByHash hash = some b ∧ state = stateAfter env db d start b

/-- The state of a deployment after an entry is remembered. -/
def Cached (cache : VersionBitsCache) (d : Deployment) (b : ChainEntry) : Prop :=
  ∃ state, cache.get d.bit b.hash = .ok (some state)

/-- What the first cache remembers, the second one does. -/
def Keeps (cache cache' : VersionBitsCache) : Prop :=
  ∀ d b, Cached cache d b → Cached cache' d b

theorem Keeps.refl (cache : VersionBitsCache) : Keeps cache cache := fun _ _ => id

theorem Keeps.trans {cache'' : VersionBitsCache} (h : Keeps cache cache')
    (h' : Keeps cache' cache'') : Keeps cache cache'' := fun d b hb => h' d b (h d b hb)

section Query

variable (tree : db.Tree env) (hd : d ∈ env.network.deployments)
  (hstart : d.startTime = .startTime start)

/-- A deployment is told by its bit. -/
theorem eq_of_bit {d' : Deployment} (hd : d ∈ env.network.deployments)
    (hd' : d' ∈ env.network.deployments) (h : d'.bit = d.bit) : d' = d :=
  List.inj_on_of_nodup_map env.network.bits_nodup hd' hd h

include hd hstart

theorem Sound.exists_set (sound : Sound env db cache) (hb : db.getEntryByHash b.hash = some b) :
    ∃ cache', cache.set d.bit b.hash (stateAfter env db d start b) = .ok cache'
      ∧ Sound env db cache' ∧ Keeps cache cache' ∧ Cached cache' d b := by
  obtain ⟨cache', hset, hget⟩ := VersionBitsCache.exists_set (stateAfter env db d start b)
    (sound.known hd b.hash)
  refine ⟨cache', hset, ⟨fun hd' hash => ?_, fun {d' start' hash state} hd' hstart' h => ?_⟩,
    fun d' b' ⟨state, h⟩ => ?_, _, by rw [hget, if_pos ⟨rfl, rfl⟩]⟩
  · rw [hget]
    split_ifs
    · exact ⟨_, rfl⟩
    · exact sound.known hd' hash
  · rw [hget] at h
    split_ifs at h with heq
    · obtain ⟨hbit, rfl⟩ := heq
      obtain rfl := eq_of_bit hd hd' hbit
      obtain rfl := StartTime.startTime.inj (hstart.symm.trans hstart')
      exact ⟨b, hb, (Option.some.inj (Except.ok.inj h)).symm⟩
    · exact sound.state hd' hstart' h
  · rw [Cached, hget]
    split_ifs
    · exact ⟨_, rfl⟩
    · exact ⟨state, h⟩

theorem Sound.get_eq (sound : Sound env db cache) (hb : db.getEntryByHash b.hash = some b) :
    cache.get d.bit b.hash = .ok none
      ∨ cache.get d.bit b.hash = .ok (some (stateAfter env db d start b)) := by
  obtain ⟨r, hr⟩ := sound.known hd b.hash
  cases r with
  | none => exact .inl hr
  | some state =>
    obtain ⟨b', hb', rfl⟩ := sound.state hd hstart hr
    obtain rfl := Option.some.inj (hb'.symm.trans hb)
    exact .inr hr

include tree

/-- The forward pass over one boundary. -/
theorem Sound.computeStates (sound : Sound env db cache) (hb : db.getEntryByHash b.hash = some b)
    (hboundary : b.height + 1 = (n + 1) * env.network.minerConfirmationWindow)
    (htime : start ≤ db.getMedianTime b) :
    ∃ cache', ChainDB.computeStates env db d start [b] cache
        ((d.rollout env start).later.run (periods env db d.bit b) n)
        = .ok (cache', stateAfter env db d start b)
      ∧ Sound env db cache' ∧ Keeps cache cache' ∧ Cached cache' d b := by
  obtain ⟨cache', hset, hcache'⟩ := sound.exists_set hd hstart hb
  refine ⟨cache', ?_, hcache'⟩
  have hwindow (hstarted : (d.rollout env start).later.run (periods env db d.bit b) n = .started) :
      env.network.minerConfirmationWindow ≤ b.height := by
    cases n with
    | zero => cases hstarted
    | succ n =>
      have := Nat.mul_le_mul_right env.network.minerConfirmationWindow (show 2 ≤ n + 1 + 1 by omega)
      have := env.network.minerConfirmationWindow_pos
      omega
  rw [ChainDB.computeStates, transition_eq tree hb htime hwindow, bind_of_ok rfl,
    ← stateAfter_boundary tree hb hboundary, hset]
  rfl

variable (main : db.Main tip) (skips : db.Skips) (timely : db.Timely)

include main skips timely

/-- The backward walk and the forward pass from a boundary, when one of it and the boundary before
it need not be computed. -/
theorem Sound.walkWindows (sound : Sound env db cache) (hb : db.getEntryByHash b.hash = some b)
    (hboundary : b.height + 1 = (n + 1) * env.network.minerConfirmationWindow)
    (hfuel : b.height < fuel)
    (hdue : ∀ b', db.Ancestor b b' → b.height = b'.height + env.network.minerConfirmationWindow →
      Cached cache d b ∨ Cached cache d b' ∨ db.getMedianTime b' < start) :
    ∃ cache', (do
        let (cache, state, compute) ← ChainDB.walkWindows env db d start fuel b cache []
        ChainDB.computeStates env db d start compute cache state)
        = .ok (cache', stateAfter env db d start b)
      ∧ Sound env db cache' ∧ Keeps cache cache' ∧ Cached cache' d b := by
  obtain ⟨fuel, rfl⟩ := Nat.exists_eq_succ_of_ne_zero (Nat.ne_of_gt (Nat.zero_lt_of_lt hfuel))
  rw [ChainDB.walkWindows]
  rcases sound.get_eq hd hstart hb with hnone | hsome
  swap
  · rw [hsome]
    exact ⟨cache, rfl, sound, Keeps.refl cache, _, hsome⟩
  rw [hnone, bind_of_ok rfl]
  dsimp only
  by_cases hearly : db.getMedianTime b < start
  · obtain ⟨cache', hset, hcache'⟩ := sound.exists_set hd hstart hb
    rw [stateAfter_early tree timely hb hearly] at hset ⊢
    rw [if_pos hearly, hset]
    exact ⟨cache', rfl, hcache'⟩
  rw [if_neg hearly]
  have htime := Nat.not_lt.1 hearly
  by_cases hfirst : b.height < env.network.minerConfirmationWindow
  · -- no boundary below: the walk leaves the state before the first window
    obtain rfl : n = 0 := by
      by_contra hn
      have := Nat.mul_le_mul_right env.network.minerConfirmationWindow (show 2 ≤ n + 1 by omega)
      omega
    rw [if_pos hfirst]
    exact sound.computeStates tree hd hstart hb hboundary htime
  rw [if_neg hfirst]
  obtain ⟨b', hget, hanc, hheight⟩ := getAncestor_eq tree main skips hb
    (Nat.sub_le b.height env.network.minerConfirmationWindow)
  have hb' := hanc.stored tree hb
  have hprevious : b'.height + 1 = n * env.network.minerConfirmationWindow := by
    rw [Nat.succ_mul] at hboundary
    omega
  have hstate : stateAfter env db d start b' = _ := stateAfter_previous tree hb hanc hprevious
  have hnotCached : ¬ Cached cache d b := fun ⟨state, h⟩ => by rw [hnone] at h; cases h
  obtain ⟨fuel, rfl⟩ : ∃ k, fuel = k + 1 :=
    Nat.exists_eq_succ_of_ne_zero (by have := env.network.minerConfirmationWindow_pos; omega)
  rw [hget, bind_of_ok rfl, ChainDB.walkWindows]
  rcases (hdue b' hanc (by omega)).resolve_left hnotCached with ⟨state, hcached⟩ | hearly'
  · have hsome := (sound.get_eq hd hstart hb').resolve_left (by rw [hcached]; exact nofun)
    rw [hsome, hstate]
    exact sound.computeStates tree hd hstart hb hboundary htime
  · have hdefined : stateAfter env db d start b' = .defined :=
      stateAfter_early tree timely hb' hearly'
    rcases sound.get_eq hd hstart hb' with hnone' | hsome'
    · obtain ⟨cache₁, hset, sound₁, hkeeps₁, -⟩ := sound.exists_set hd hstart hb'
      obtain ⟨cache', hcompute, sound', hkeeps', hcached'⟩ :=
        sound₁.computeStates tree hd hstart hb hboundary htime
      rw [hdefined] at hset
      rw [hnone', bind_of_ok rfl]
      dsimp only
      rw [if_pos hearly', hset]
      rw [← hstate, hdefined] at hcompute
      exact ⟨cache', hcompute, sound', hkeeps₁.trans hkeeps', hcached'⟩
    · rw [hsome', hstate]
      exact sound.computeStates tree hd hstart hb hboundary htime

/-! ## Queries -/

/-- The second entry ends the last window that has ended on the branch of the first one. -/
def LastEnd (env : Env) (db : ChainDB) (e b : ChainEntry) : Prop :=
  db.Ancestor e b ∧ b.height + 1 = windows env e * env.network.minerConfirmationWindow

omit hd hstart timely in
theorem windowBoundary_eq (he : db.getEntryByHash prev.hash = some prev) :
    (windows env prev = 0 ∧ windowBoundary env db prev = .ok none)
      ∨ ∃ b, windowBoundary env db prev = .ok (some b) ∧ LastEnd env db prev b := by
  have hdiv := Nat.div_add_mod' (prev.height + 1) env.network.minerConfirmationWindow
  change windows env prev * _ + _ = _ at hdiv
  have hpos := env.network.minerConfirmationWindow_pos
  have hmod := Nat.mod_lt (prev.height + 1) hpos
  unfold windowBoundary
  dsimp only
  by_cases hzero : (prev.height + 1) % env.network.minerConfirmationWindow = 0
  · exact .inr ⟨prev, if_pos hzero, .refl, by omega⟩
  rw [if_neg hzero]
  by_cases hlow : prev.height < (prev.height + 1) % env.network.minerConfirmationWindow
  · rw [if_pos hlow]
    have : windows env prev * env.network.minerConfirmationWindow = 0 := by omega
    exact .inl ⟨(Nat.mul_eq_zero.1 this).resolve_right hpos.ne', rfl⟩
  rw [if_neg hlow]
  obtain ⟨b, hget, hanc, hheight⟩ := getAncestor_eq tree main skips he
    (Nat.sub_le prev.height ((prev.height + 1) % env.network.minerConfirmationWindow))
  have hend : b.height + 1 = windows env prev * env.network.minerConfirmationWindow := by omega
  rw [hget, bind_of_ok rfl, if_neg (by rw [hend, Nat.mul_mod_left, hheight]; simp)]
  exact .inr ⟨b, rfl, hanc, hend⟩

omit hd hstart main skips timely in
theorem LastEnd.unique (he : db.getEntryByHash prev.hash = some prev) (h : LastEnd env db prev b)
    (h' : LastEnd env db prev b') : b = b' := by
  refine tree.rooted.ancestor_unique he h.1 h'.1 ?_
  have := h.2
  have := h'.2
  omega

/-- A query is about a boundary and the one before it; one of them need not be computed. -/
def DueIn (env : Env) (db : ChainDB) (known : ChainEntry → Prop) (start : Nat)
    (prev : ChainEntry) : Prop :=
  ∀ b b', LastEnd env db prev b → db.Ancestor b b' →
    b.height = b'.height + env.network.minerConfirmationWindow →
    known b ∨ known b' ∨ db.getMedianTime b' < start

theorem Sound.getDeploymentStatus (sound : Sound env db db.versionBitsCache)
    (he : db.getEntryByHash prev.hash = some prev)
    (hdue : DueIn env db (Cached db.versionBitsCache d) start prev) :
    ∃ cache, ChainDB.getDeploymentStatus env db (some prev) d
        = .ok (cache, stateAfter env db d start prev)
      ∧ Sound env db cache ∧ Keeps db.versionBitsCache cache
      ∧ ∀ b, LastEnd env db prev b → Cached cache d b := by
  unfold ChainDB.getDeploymentStatus
  rw [hstart]
  dsimp only
  rcases windowBoundary_eq tree main skips he with ⟨hzero, hnone⟩ | ⟨b, hsome, hend⟩
  · rw [hnone, bind_of_ok rfl, stateAfter, hzero]
    refine ⟨_, rfl, sound, Keeps.refl _, fun b hb => ?_⟩
    have := hb.2
    rw [hzero, Nat.zero_mul] at this
    omega
  obtain ⟨n, hn⟩ : ∃ n, windows env prev = n + 1 := by
    refine Nat.exists_eq_succ_of_ne_zero fun hzero => ?_
    have := hend.2
    rw [hzero, Nat.zero_mul] at this
    omega
  have hb := hend.1.stored tree he
  have hboundary : b.height + 1 = (n + 1) * env.network.minerConfirmationWindow := hn ▸ hend.2
  obtain ⟨cache, hquery, hsound, hkeeps, hcached⟩ := sound.walkWindows tree hd hstart main skips
    timely hb hboundary (Nat.lt_succ_self _) fun b' => hdue b b' hend
  have hwindows : windows env b = windows env prev := by
    rw [windows, hboundary, hn, Nat.mul_div_cancel _ env.network.minerConfirmationWindow_pos]
  rw [hsome, bind_of_ok rfl, ← stateAfter_ancestor tree he hend.1 hwindows]
  refine ⟨cache, hquery, hsound, hkeeps, fun b₁ hend₁ => ?_⟩
  obtain rfl := hend.unique tree he hend₁
  exact hcached

omit hd timely in
/-- A boundary that is remembered leaves the cache as it is. -/
theorem getDeploymentStatus_cached (he : db.getEntryByHash prev.hash = some prev)
    (hcached : ∀ b, LastEnd env db prev b → Cached db.versionBitsCache d b) :
    ∃ state, ChainDB.getDeploymentStatus env db (some prev) d
      = .ok (db.versionBitsCache, state) := by
  unfold ChainDB.getDeploymentStatus
  rw [hstart]
  dsimp only
  rcases windowBoundary_eq tree main skips he with ⟨-, hnone⟩ | ⟨b, hsome, hend⟩
  · exact ⟨.defined, by rw [hnone]; rfl⟩
  · obtain ⟨state, hstate⟩ := hcached b hend
    exact ⟨state, by rw [hsome, bind_of_ok rfl]; simp only [ChainDB.walkWindows, hstate]; rfl⟩

end Query

end ChainDB

end BitcoinNode

import BitcoinNode.Blockchain.QueryHistory

/-!
# Answers that do not change

Whatever was asked before, a query of a deployment leaves its window boundary remembered, and what
is remembered is not written again. A second query is answered from the cache, with the same state
for the life of the process.
-/

namespace BitcoinNode

namespace VersionBitsCache

variable {cache cache' cache'' : VersionBitsCache} {bit : Nat} {hash : BlockHash}
  {state : ThresholdState}

/-- What the first cache remembers, the second one does with the same state. -/
def Grows (cache cache' : VersionBitsCache) : Prop :=
  ∀ ⦃bit hash state⦄, cache.get bit hash = .ok (some state) → cache'.get bit hash = .ok (some state)

@[refl] theorem Grows.refl (cache : VersionBitsCache) : Grows cache cache := fun _ _ _ => id

theorem Grows.trans (h : Grows cache cache') (h' : Grows cache' cache'') : Grows cache cache'' :=
  fun _ _ _ hstate => h' (h hstate)

theorem Grows.of_bits (h : cache'.bits = cache.bits) : Grows cache cache' := by
  intro bit hash state hstate
  rwa [get, h]

/-- What is written is remembered; all else stays as it was. -/
theorem get_of_set (h : cache.set bit hash state = .ok cache') (bit' : Nat) (hash' : BlockHash) :
    cache'.get bit' hash' =
      if bit' = bit ∧ hash' = hash then .ok (some state) else cache.get bit' hash' := by
  have hknown : ∃ r, cache.get bit hash = .ok r := by
    unfold get
    unfold set at h
    cases hstates : cache.bits.lookup bit with
    | none => rw [hstates] at h; cases h
    | some states => exact ⟨_, rfl⟩
  obtain ⟨cache₁, hset, hget⟩ := exists_set state hknown
  obtain rfl := Except.ok.inj (hset.symm.trans h)
  exact hget bit' hash'

theorem Grows.set (h : cache.set bit hash state = .ok cache')
    (hnone : cache.get bit hash = .ok none) :
    Grows cache cache' := by
  intro bit' hash' state' hstate
  rw [get_of_set h, if_neg, hstate]
  rintro ⟨rfl, rfl⟩
  rw [hnone] at hstate
  cases hstate

end VersionBitsCache

namespace ChainDB

open VersionBitsCache

variable {env : Env} {db db' : ChainDB} {cache cache' : VersionBitsCache} {d : Deployment}
  {start fuel : Nat} {tip prev b : ChainEntry} {state state' : ThresholdState}
  {acc compute : List ChainEntry}

/-- Boundaries that are not remembered, no two of them the same. -/
structure Unknown (cache : VersionBitsCache) (d : Deployment) (compute : List ChainEntry) :
    Prop where
  none {b : ChainEntry} : b ∈ compute → cache.get d.bit b.hash = .ok none
  distinct : compute.Pairwise (·.hash ≠ ·.hash)

theorem Unknown.nil : Unknown cache d [] where
  none h := absurd h List.not_mem_nil
  distinct := .nil

/-- The forward pass remembers every boundary it is given. -/
theorem computeStates_grows
    (h : computeStates env db d start compute cache state = .ok (cache', state'))
    (hunknown : Unknown cache d compute) :
    Grows cache cache' ∧ ∀ b ∈ compute, Cached cache' d b := by
  induction compute generalizing cache state with
  | nil =>
    obtain ⟨rfl, -⟩ := Prod.mk.inj (Except.ok.inj h)
    exact ⟨.refl _, nofun⟩
  | cons b compute ih =>
    simp only [computeStates, bind_eq_ok] at h
    obtain ⟨state₁, -, cache₁, hset, h⟩ := h
    obtain ⟨hne, hdistinct⟩ := List.pairwise_cons.1 hunknown.distinct
    have hget := get_of_set hset
    have hgrows := Grows.set hset (hunknown.none List.mem_cons_self)
    obtain ⟨hgrows', hcached⟩ := ih h ⟨fun {b'} hb' => by
      rw [hget, if_neg (fun heq => hne b' hb' heq.2.symm)]
      exact hunknown.none (List.mem_cons_of_mem _ hb'), hdistinct⟩
    refine ⟨hgrows.trans hgrows', List.forall_mem_cons.2 ⟨⟨state₁, ?_⟩, hcached⟩⟩
    exact hgrows' (by rw [hget, if_pos ⟨rfl, rfl⟩])

/-- The cache holds the answer to a query. -/
inductive Answered (env : Env) (db : ChainDB) (cache : VersionBitsCache) (d : Deployment)
    (prev : ChainEntry) : ThresholdState → Prop where
  | always : d.startTime = .alwaysActive → Answered env db cache d prev .active
  | early {start : Nat} : d.startTime = .startTime start → windows env prev = 0 →
      Answered env db cache d prev .defined
  | known {start : Nat} {b : ChainEntry} {state : ThresholdState} :
      d.startTime = .startTime start → LastEnd env db prev b →
      cache.get d.bit b.hash = .ok (some state) → Answered env db cache d prev state

/-- An answer is not changed by what is stored or asked later. -/
theorem Answered.mono (tree : db.Tree env) (tree' : db'.Tree env)
    (hmono : ∀ hash e, db.getEntryByHash hash = some e → db'.getEntryByHash hash = some e)
    (he : db.getEntryByHash prev.hash = some prev) (hgrows : Grows cache cache')
    (h : Answered env db cache d prev state) : Answered env db' cache' d prev state := by
  cases h with
  | always hstart => exact .always hstart
  | early hstart hzero => exact .early hstart hzero
  | known hstart hend hstate =>
    exact .known hstart ((Chain.lastEnd_mono tree tree' hmono he).2 hend) (hgrows hstate)

section Query

variable (tree : db.Tree env) (main : db.Main tip) (skips : db.Skips)

include tree main skips

/-- What the backward walk from a boundary adds to the list: nothing when the boundary is
remembered by then, and otherwise boundaries that are not, the first of them the one it started
from. -/
theorem walkWindows_grows (hb : db.getEntryByHash b.hash = some b)
    (h : walkWindows env db d start fuel b cache acc = .ok (cache', state, compute)) :
    Grows cache cache' ∧ (∀ e, db.getEntryByHash e.hash = some e → b.height < e.height →
        cache'.get d.bit e.hash = cache.get d.bit e.hash)
      ∧ ∃ met, compute = acc ++ met ∧ Unknown cache' d met ∧ (Cached cache' d b ∨ b ∈ met)
        ∧ ∀ e ∈ met, db.getEntryByHash e.hash = some e ∧ e.height ≤ b.height := by
  induction fuel generalizing b cache acc with
  | zero => cases h
  | succ fuel ih =>
    rw [walkWindows] at h
    obtain ⟨r, hr, h⟩ := bind_eq_ok.1 h
    cases r with
    | some cached =>
      cases h
      exact ⟨.refl _, fun _ _ _ => rfl, [], (List.append_nil _).symm, .nil,
        .inl ⟨_, hr⟩, List.forall_mem_nil _⟩
    | none =>
      dsimp only at h
      by_cases hearly : db.getMedianTime b < start
      · rw [if_pos hearly] at h
        obtain ⟨cache₁, hset, h⟩ := bind_eq_ok.1 h
        cases h
        have hget := get_of_set hset
        refine ⟨.set hset hr, fun e he hlt => ?_, [], (List.append_nil _).symm, .nil,
          .inl ⟨_, by rw [hget, if_pos ⟨rfl, rfl⟩]⟩, List.forall_mem_nil _⟩
        rw [hget, if_neg]
        rintro ⟨-, heq⟩
        rw [heq, hb] at he
        obtain rfl := Option.some.inj he
        omega
      rw [if_neg hearly] at h
      by_cases hfirst : b.height < env.network.minerConfirmationWindow
      · rw [if_pos hfirst] at h
        cases h
        refine ⟨.refl _, fun _ _ _ => rfl, [b], rfl, ⟨fun hmem => ?_, List.pairwise_singleton _ _⟩,
          .inr List.mem_cons_self, fun e he => ?_⟩
        · rw [List.mem_singleton.1 hmem, hr]
        · rw [List.mem_singleton.1 he]
          exact ⟨hb, le_rfl⟩
      rw [if_neg hfirst] at h
      obtain ⟨b', hget, hanc, hheight⟩ := getAncestor_eq tree main skips hb
        (Nat.sub_le b.height env.network.minerConfirmationWindow)
      have hpos := env.network.minerConfirmationWindow_pos
      rw [hget, bind_of_ok rfl] at h
      obtain ⟨hgrows, habove, met, rfl, hunknown, -, hmet⟩ := ih (hanc.stored tree hb) h
      have hnone : cache'.get d.bit b.hash = .ok none := by rw [habove b hb (by omega), hr]
      refine ⟨hgrows, fun e he hlt => habove e he (by omega), b :: met, List.append_assoc _ _ _,
        ⟨fun {e} he => ?_, List.pairwise_cons.2 ⟨fun e he heq => ?_, hunknown.distinct⟩⟩,
        .inr List.mem_cons_self, List.forall_mem_cons.2 ⟨⟨hb, le_rfl⟩, fun e he => ?_⟩⟩
      · rcases List.mem_cons.1 he with rfl | he
        · exact hnone
        · exact hunknown.none he
      · -- the boundaries met later are lower
        obtain ⟨hstored, hle⟩ := hmet e he
        rw [← heq, hb] at hstored
        obtain rfl := Option.some.inj hstored
        omega
      · exact ⟨(hmet e he).1, (hmet e he).2.trans (by omega)⟩

/-- A query that is answered from the cache leaves it as it is. -/
theorem Answered.query (he : db.getEntryByHash prev.hash = some prev)
    (h : Answered env db db.versionBitsCache d prev state) :
    db.getDeploymentStatus env (some prev) d = .ok (db.versionBitsCache, state) := by
  cases h with
  | always hstart => simp only [getDeploymentStatus, hstart]
  | early hstart hzero =>
    simp only [getDeploymentStatus, hstart]
    rcases windowBoundary_eq tree main skips he with ⟨-, hnone⟩ | ⟨b, -, hend⟩
    · rw [hnone]
      rfl
    · have := hend.2
      rw [hzero, Nat.zero_mul] at this
      omega
  | @known start b _ hstart hend hstate =>
    simp only [getDeploymentStatus, hstart]
    rcases windowBoundary_eq tree main skips he with ⟨hzero, -⟩ | ⟨b', hsome, hend'⟩
    · have := hend.2
      rw [hzero, Nat.zero_mul] at this
      omega
    · obtain rfl := hend.unique tree he hend'
      rw [hsome, bind_of_ok rfl]
      simp only [walkWindows, hstate]
      rfl

/-- A query leaves its answer behind. With two boundaries to compute it is not the state that was
returned. -/
theorem exists_answered (he : db.getEntryByHash prev.hash = some prev)
    (h : db.getDeploymentStatus env (some prev) d = .ok (cache, state)) :
    Grows db.versionBitsCache cache ∧ ∃ state, Answered env db cache d prev state := by
  cases hstart : d.startTime with
  | alwaysActive =>
    simp only [getDeploymentStatus, hstart] at h
    obtain ⟨rfl, -⟩ := Prod.mk.inj (Except.ok.inj h)
    exact ⟨.refl _, _, .always hstart⟩
  | startTime start =>
    simp only [getDeploymentStatus, hstart] at h
    rcases windowBoundary_eq tree main skips he with ⟨hzero, hnone⟩ | ⟨b, hsome, hend⟩
    · rw [hnone, bind_of_ok rfl] at h
      obtain ⟨rfl, -⟩ := Prod.mk.inj (Except.ok.inj h)
      exact ⟨.refl _, _, .early hstart hzero⟩
    rw [hsome, bind_of_ok rfl] at h
    obtain ⟨⟨cache₁, state₁, compute⟩, hwalk, hcompute⟩ := bind_eq_ok.1 h
    obtain ⟨hgrows, -, met, rfl, hunknown, hcached, -⟩ :=
      walkWindows_grows tree main skips (hend.1.stored tree he) hwalk
    obtain ⟨hgrows', hcached'⟩ := computeStates_grows hcompute hunknown
    refine ⟨hgrows.trans hgrows', ?_⟩
    rcases hcached with ⟨state, hstate⟩ | hmet
    · exact ⟨state, .known hstart hend (hgrows' hstate)⟩
    · obtain ⟨state, hstate⟩ := hcached' b hmet
      exact ⟨state, .known hstart hend hstate⟩

end Query

end ChainDB

end BitcoinNode

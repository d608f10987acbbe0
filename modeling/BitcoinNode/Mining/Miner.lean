import BitcoinNode.Blockchain.Agreement
import BitcoinNode.Blockchain.Runs

/-!
# The miner

A template takes its parent, version, time and target from the miner's own node. The header that is
mined from it is one that every node accepts on top of the parent, whatever else that node stores,
and it signals the deployments that ask for signals.
-/

namespace BitcoinNode

/-- What a block on top of a tip has to have. -/
structure BlockTemplate where
  height : Nat
  prevBlockhash : BlockHash
  version : Int32
  time : Nat
  target : Nat
  deriving DecidableEq

/-- Whether blocks should signal for a deployment. -/
def ThresholdState.signals (state : ThresholdState) : Bool :=
  state == .lockedIn || state == .started

namespace ChainDB

/-- The loop of `compute_block_version`. -/
def signalLoop (env : Env) (prev : ChainEntry) (db : ChainDB) :
    List Deployment → VersionBitsCache → Int32 → Except Panic (VersionBitsCache × Int32)
  | [], cache, version => .ok (cache, version)
  | deployment :: deployments, cache, version => do
    let (cache, state) ←
      getDeploymentStatus env { db with versionBitsCache := cache } (some prev) deployment
    let version :=
      if state.signals then version ||| ((1 : Int32) <<< Int32.ofNat deployment.bit) else version
    signalLoop env prev db deployments cache version

/-- The states of deployments that are asked for one after the other. -/
def statusLoop (env : Env) (prev : ChainEntry) (db : ChainDB) :
    List Deployment → VersionBitsCache →
      Except Panic (VersionBitsCache × List (Deployment × ThresholdState))
  | [], cache => .ok (cache, [])
  | deployment :: deployments, cache => do
    let (cache, state) ←
      getDeploymentStatus env { db with versionBitsCache := cache } (some prev) deployment
    let (cache, statuses) ← statusLoop env prev db deployments cache
    return (cache, (deployment, state) :: statuses)

end ChainDB

/-- The version of a block on top of an entry. Shifting it by zero changes nothing. -/
def Chain.computeBlockVersion (env : Env) (c : Chain) (prev : ChainEntry) :
    Except Panic (Chain × Int32) := do
  let (cache, version) ←
    c.db.signalLoop env prev env.network.deployments c.db.versionBitsCache 0
  return (c.withCache cache, version ||| VERSIONBITS_TOP_BITS)

namespace Miner

/-- The template of `create_block`, without the address. -/
def createBlock (env : Env) (now : Nat) (c : Chain) (tip : ChainEntry) :
    Except Panic (Chain × BlockTemplate) := do
  let (c, version) ← c.computeBlockVersion env tip
  let time := max (now % 2 ^ 32) (c.db.getMedianTime tip + 1)
  let target ← c.db.getTarget env time (some tip)
  return (c, ⟨tip.height + 1, tip.hash, version, time, target⟩)

/-- The search for a nonce. -/
def mineLoop (env : Env) : Nat → BlockHeader → Option BlockHeader
  | 0, _ => none
  | fuel + 1, header =>
    if env.validatePow header then some header
    else mineLoop env fuel { header with nonce := header.nonce + 1 }

/-- The header of `mine_block`, over the Merkle root of the transactions. -/
def mineHeader (env : Env) (template : BlockTemplate) (merkleRoot : Nat) : Option BlockHeader :=
  mineLoop env (2 ^ 32)
    ⟨template.version, template.prevBlockhash, merkleRoot, template.time, template.target, 0⟩

end Miner

/-! ## Bits of a version -/

/-- Whether a bit of a version is set. -/
def versionBit (version : Int32) (bit : Nat) : Bool := version.toBitVec.getLsbD bit

theorem toBitVec_one_shiftLeft {bit : Nat} (h : bit < 29) :
    ((1 : Int32) <<< Int32.ofNat bit).toBitVec = BitVec.twoPow 32 bit := by
  revert bit
  decide

theorem versionBit_signal {version : Int32} {bit i : Nat} (h : bit < 29) :
    versionBit (version ||| ((1 : Int32) <<< Int32.ofNat bit)) i
      = (versionBit version i || decide (bit = i)) := by
  have hlt : bit < 32 := by omega
  simp [versionBit, toBitVec_one_shiftLeft h, BitVec.getLsbD_twoPow, hlt]

theorem versionBit_top {version : Int32} {i : Nat} :
    versionBit (version ||| VERSIONBITS_TOP_BITS) i
      = (versionBit version i || decide (29 = i)) := by
  have htop : VERSIONBITS_TOP_BITS.toBitVec = BitVec.twoPow 32 29 := by decide
  simp [versionBit, htop, BitVec.getLsbD_twoPow]

/-- A version with the pattern of version bits in the three upper bits. -/
structure TopBits (version : Int32) : Prop where
  set : versionBit version 29 = true
  clear {i : Nat} : 29 < i → versionBit version i = false

theorem TopBits.four_le {version : Int32} (h : TopBits version) : 4 ≤ version := by
  have hmsb : version.toBitVec.msb = false := by
    rw [BitVec.msb_eq_getLsbD_last]
    exact h.clear (by decide)
  have hlow : 2 ^ 29 ≤ version.toBitVec.toNat := Nat.ge_two_pow_of_testBit h.set
  have hint : version.toInt = version.toBitVec.toNat := BitVec.toInt_eq_toNat_of_msb hmsb
  have hfour : (4 : Int32).toInt = 4 := by decide
  rw [Int32.le_iff_toInt_le, hint, hfour]
  omega

theorem TopBits.hasBit_eq {entry : ChainEntry} (h : TopBits entry.version) {bit : Nat}
    (hbit : bit < 29) : entry.hasBit bit = versionBit entry.version bit := by
  have htop : entry.version &&& VERSIONBITS_TOP_MASK = VERSIONBITS_TOP_BITS := by
    have hmask : ∀ i < 29, VERSIONBITS_TOP_MASK.toBitVec.getLsbD i = false := by decide
    have hbits : VERSIONBITS_TOP_BITS.toBitVec = BitVec.twoPow 32 29 := by decide
    apply Int32.toBitVec_inj.1
    apply BitVec.eq_of_getLsbD_eq
    intro i hi
    rw [Int32.toBitVec_and, BitVec.getLsbD_and, hbits, BitVec.getLsbD_twoPow]
    rcases Nat.lt_trichotomy i 29 with hlt | rfl | hgt
    · rw [hmask i hlt, Bool.and_false]
      simp [hlt.ne']
    · rw [show entry.version.toBitVec.getLsbD 29 = true from h.set]
      decide
    · rw [show entry.version.toBitVec.getLsbD i = false from h.clear hgt, Bool.false_and]
      simp [hgt.ne]
  have hand : (entry.version &&& ((1 : Int32) <<< Int32.ofNat bit)).toBitVec
      = if versionBit entry.version bit then BitVec.twoPow 32 bit else 0#32 := by
    rw [Int32.toBitVec_and, toBitVec_one_shiftLeft hbit, BitVec.and_twoPow]
    rfl
  have hpos : ∀ b < 29, BitVec.twoPow 32 b ≠ 0#32 := by decide
  rw [ChainEntry.hasBit, htop, beq_self_eq_true, Bool.true_and]
  cases hv : versionBit entry.version bit with
  | false =>
    rw [hv, if_neg Bool.false_ne_true] at hand
    have hzero : entry.version &&& ((1 : Int32) <<< Int32.ofNat bit) = 0 :=
      Int32.toBitVec_inj.1 hand
    rw [hzero]
    rfl
  | true =>
    rw [hv, if_pos rfl] at hand
    rw [bne_iff_ne]
    intro hzero
    rw [hzero] at hand
    exact hpos bit hbit hand.symm

/-! ## What the version signals -/

variable {env : Env} {c c' : Chain} {e : ChainEntry}

/-- The loop asks for every deployment and sets the bits of those that want signals. -/
theorem ChainDB.signalLoop_eq_ok {db : ChainDB} {deployments : List Deployment}
    {cache cache' : VersionBitsCache} {version version' : Int32}
    (hbits : ∀ d ∈ deployments, d.bit < 29) (hnodup : (deployments.map Deployment.bit).Nodup)
    (h : db.signalLoop env e deployments cache version = .ok (cache', version')) :
    ∃ statuses, db.statusLoop env e deployments cache = .ok (cache', statuses)
      ∧ statuses.map Prod.fst = deployments
      ∧ (∀ i, (∀ d ∈ deployments, d.bit ≠ i) → versionBit version' i = versionBit version i)
      ∧ ∀ p ∈ statuses, versionBit version' p.1.bit
        = (versionBit version p.1.bit || p.2.signals) := by
  induction deployments generalizing cache version with
  | nil =>
    cases h
    exact ⟨[], rfl, rfl, fun _ _ => rfl, fun _ hp => absurd hp List.not_mem_nil⟩
  | cons d deployments ih =>
    simp only [signalLoop, bind_eq_ok] at h
    obtain ⟨⟨cache₁, state⟩, hstatus, h⟩ := h
    rw [List.map_cons, List.nodup_cons] at hnodup
    have hbit := hbits d List.mem_cons_self
    obtain ⟨statuses, hrest, hfst, hother, hown⟩ :=
      ih (fun d' hd => hbits d' (List.mem_cons_of_mem _ hd)) hnodup.2 h
    -- one round changes the bit of its own deployment only
    have hround (i : Nat) : versionBit (if state.signals then
          version ||| ((1 : Int32) <<< Int32.ofNat d.bit) else version) i
        = (versionBit version i || state.signals && decide (d.bit = i)) := by
      cases state.signals with
      | false => simp
      | true => simp [versionBit_signal hbit]
    have hfresh : ∀ d' ∈ deployments, d'.bit ≠ d.bit := fun d' hd heq =>
      hnodup.1 (heq ▸ List.mem_map_of_mem hd)
    refine ⟨(d, state) :: statuses, ?_, by rw [List.map_cons, hfst], fun i hi => ?_, fun p hp => ?_⟩
    · rw [statusLoop, hstatus, bind_of_ok rfl]
      dsimp only
      rw [hrest]
      rfl
    · rw [hother i fun d' hd => hi d' (List.mem_cons_of_mem _ hd), hround]
      simp [hi d List.mem_cons_self]
    · rcases List.mem_cons.1 hp with rfl | hp
      · rw [hother _ hfresh, hround]
        simp
      · have hmem : p.1 ∈ deployments := hfst ▸ List.mem_map_of_mem hp
        rw [hown p hp, hround]
        simp [(hfresh p.1 hmem).symm]

theorem Chain.computeBlockVersion_eq_ok {version : Int32}
    (hbits : ∀ d ∈ env.network.deployments, d.bit < 29)
    (h : c.computeBlockVersion env e = .ok (c', version)) :
    ∃ cache statuses, c' = c.withCache cache
      ∧ c.db.statusLoop env e env.network.deployments c.db.versionBitsCache
        = .ok (cache, statuses)
      ∧ statuses.map Prod.fst = env.network.deployments ∧ TopBits version
      ∧ ∀ p ∈ statuses, versionBit version p.1.bit = p.2.signals := by
  simp only [computeBlockVersion, bind_eq_ok, pure_eq_ok, Prod.mk.injEq] at h
  obtain ⟨⟨cache, version'⟩, hloop, rfl, rfl⟩ := h
  obtain ⟨statuses, hstatuses, hfst, hother, hown⟩ :=
    ChainDB.signalLoop_eq_ok hbits env.network.bits_nodup hloop
  have hzero (i : Nat) : versionBit 0 i = false := by simp [versionBit]
  refine ⟨cache, statuses, rfl, hstatuses, hfst, ⟨?_, fun {i} hi => ?_⟩, fun p hp => ?_⟩
  · simp [versionBit_top]
  · have hne : ∀ d ∈ env.network.deployments, d.bit ≠ i := fun d hd => by
      have := hbits d hd
      omega
    rw [versionBit_top, hother i hne, hzero]
    simp [hi.ne]
  · have := hbits p.1 (hfst ▸ List.mem_map_of_mem hp)
    rw [versionBit_top, hown p hp, hzero]
    simp [show 29 ≠ p.1.bit by omega]

/-! ## Mining -/

namespace Miner

theorem mineLoop_eq_some {fuel : Nat} {header mined : BlockHeader}
    (h : mineLoop env fuel header = some mined) :
    env.validatePow mined = true ∧ mined = { header with nonce := mined.nonce } := by
  induction fuel generalizing header with
  | zero => cases h
  | succ fuel ih =>
    rw [mineLoop] at h
    split_ifs at h with hpow
    · cases h
      exact ⟨hpow, rfl⟩
    · obtain ⟨hpow', heq⟩ := ih h
      exact ⟨hpow', heq⟩

theorem createBlock_eq_ok {now : Nat} {template : BlockTemplate}
    (h : createBlock env now c e = .ok (c', template)) :
    c.computeBlockVersion env e = .ok (c', template.version)
      ∧ template.height = e.height + 1 ∧ template.prevBlockhash = e.hash
      ∧ c'.db.getMedianTime e < template.time
      ∧ c'.db.getTarget env template.time (some e) = .ok template.target := by
  simp only [createBlock, bind_eq_ok, pure_eq_ok, Prod.mk.injEq] at h
  obtain ⟨⟨c₁, version⟩, hversion, target, htarget, rfl, rfl⟩ := h
  exact ⟨hversion, rfl, rfl, Nat.lt_of_lt_of_le (Nat.lt_succ_self _) (le_max_right _ _), htarget⟩

end Miner

namespace Chain

open ChainDB

/-- A header with the target of its branch, a time above the median and the pattern of version bits
passes the checks. -/
theorem contextualCheckBlockHeader_ok {now : Nat} {header : BlockHeader}
    (hprev : header.prevBlockhash = e.hash)
    (htarget : c.db.getTarget env header.time (some e) = .ok header.bits)
    (hmedian : c.db.getMedianTime e < header.time)
    (hnow : header.time < now + MAX_FUTURE_BLOCK_TIME) (htop : TopBits header.version) :
    c.contextualCheckBlockHeader env now header e = .ok () := by
  have hfour := htop.four_le
  have hversion {v : Int32} (hv : v ≤ 4) : ¬ header.version < v :=
    Int32.not_lt.2 (Int32.le_trans hv hfour)
  rw [contextualCheckBlockHeader, if_neg (not_not.2 hprev), htarget]
  dsimp only
  rw [if_neg (not_not.2 rfl), if_neg (Nat.not_le.2 hmedian), if_neg (Nat.not_le.2 hnow), if_neg]
  · rfl
  · rintro (⟨h, -⟩ | ⟨h, -⟩ | ⟨h, -⟩)
    · exact hversion (by decide) h
    · exact hversion (by decide) h
    · exact hversion (by decide) h

/-- The header that a node mines on top of an entry is accepted by every node that has the entry,
on which neither is marked invalid, and to which it is new, unless it is ahead of that node's clock.
It signals exactly the deployments that the miner's node finds started or locked in. -/
theorem mined_accepted_iff (law : env.Lawful) (hinj : Function.Injective env.blockHash)
    (hbits : ∀ d ∈ env.network.deployments, d.bit < 29) (h : Visited env c) (h' : Visited env c')
    (he : c.db.getEntryByHash e.hash = some e) {now clock merkleRoot : Nat} {c₁ : Chain}
    {template : BlockTemplate} {header : BlockHeader}
    (hcreate : Miner.createBlock env now c e = .ok (c₁, template))
    (hmine : Miner.mineHeader env template merkleRoot = some header) :
    ((∃ c'' r, c'.addHeader env clock header = .ok (c'', .ok r)) ↔
      c'.db.hasHeader e.hash = true ∧ c'.db.hasHeader (env.blockHash header) = false
        ∧ c'.hasInvalid (env.blockHash header) e.hash = false
        ∧ header.time < clock + MAX_FUTURE_BLOCK_TIME)
    ∧ ∃ statuses, c.db.statusLoop env e env.network.deployments c.db.versionBitsCache
        = .ok (c₁.db.versionBitsCache, statuses)
      ∧ statuses.map Prod.fst = env.network.deployments
      ∧ ∀ c'' entry prev, c'.addHeader env clock header = .ok (c'', .ok (entry, prev)) →
        prev = e ∧ entry.height = template.height
          ∧ ∀ p ∈ statuses, entry.hasBit p.1.bit = p.2.signals := by
  obtain ⟨hversion, hheight, hparent, hmedian, htarget⟩ := Miner.createBlock_eq_ok hcreate
  obtain ⟨hpow, heq⟩ := Miner.mineLoop_eq_some hmine
  obtain ⟨cache, statuses, rfl, hstatuses, hfst, htop, hsignals⟩ :=
    computeBlockVersion_eq_ok hbits hversion
  have hprev : header.prevBlockhash = e.hash := by rw [heq, hparent]
  have hheader : header.version = template.version := by rw [heq]
  -- the miner's own node, with the states that the template left in the cache
  have hminer : Visited env (c.withCache cache) := by
    obtain ⟨c₀, hnew, hrun⟩ := h
    exact ⟨c₀, hnew, hrun.tail (.cache cache)⟩
  have agrees := hminer.agrees law hinj h'
  refine ⟨⟨?_, ?_⟩, statuses, hstatuses, hfst, ?_⟩
  · rintro ⟨c'', r, hadd⟩
    rcases addHeader_eq_ok hadd with ⟨_, hr, -⟩ |
      ⟨_, _, _, _, -, -, hinvalid, hnew, hstored, -, -, hcheck, -⟩
    · cases hr
    rw [hprev] at hinvalid hstored
    exact ⟨by rw [hasHeader, hstored]; rfl, by rw [hasHeader, hnew]; rfl, hinvalid,
      (contextualCheckBlockHeader_eq_ok hcheck).2.2.1⟩
  · rintro ⟨hknown, hnew, hinvalid, hnow⟩
    obtain ⟨e', he'⟩ := Option.isSome_iff_exists.1 hknown
    obtain rfl := agrees.entry he he'
    have hcheck : (c.withCache cache).contextualCheckBlockHeader env clock header e' = .ok () := by
      refine contextualCheckBlockHeader_ok hprev ?_ ?_ hnow (hheader ▸ htop)
      · rw [heq]
        exact htarget
      · rw [heq]
        exact hmedian
    have hcheck' : c'.contextualCheckBlockHeader env clock header e' = .ok () :=
      contextualCheck_agree (agrees.getTarget_eq he he' (hminer.inv law).tree (hminer.inv law).main
        (hminer.skips law) (h'.inv law).tree (h'.inv law).main (h'.skips law))
        (agrees.getMedianTime_eq he he') hnow hcheck
    rw [← hprev] at hinvalid he'
    obtain ⟨c'', skip, hadd⟩ := h'.exists_addHeader law hpow hinvalid
      (by simpa [hasHeader] using hnew) he' hcheck'
    exact ⟨c'', _, hadd⟩
  · intro c'' entry prev hadd
    rcases addHeader_eq_ok hadd with ⟨_, hr, -⟩ |
      ⟨_, _, _, _, hr, -, -, -, hstored, -, rfl, -, -⟩
    · cases hr
    cases hr
    rw [hprev] at hstored
    obtain rfl := agrees.entry he hstored
    refine ⟨rfl, hheight.symm, fun p hp => ?_⟩
    have htop' : TopBits header.version := hheader ▸ htop
    rw [TopBits.hasBit_eq htop' (hbits p.1 (hfst ▸ List.mem_map_of_mem hp))]
    exact (congrArg (versionBit · p.1.bit) hheader).trans (hsignals p hp)

end Chain

/-! ### The header on top of the first block -/

namespace Small

def minedHeader : BlockHeader := ⟨VERSIONBITS_TOP_BITS, blockHash first.header, 7, 100, 0, 0⟩

/-- The node mines the header on its tip. -/
def mines (c : Chain) : Bool :=
  c.tip.hash == blockHash first.header && match Miner.createBlock Small.env 100 c c.tip with
  | .ok (_, template) => decide (Miner.mineHeader Small.env template 7 = some minedHeader)
  | .error _ => false

/-- The node can take it. -/
def takes (c : Chain) : Bool :=
  c.db.hasHeader (blockHash first.header) && !c.db.hasHeader (blockHash minedHeader)
    && !c.hasInvalid (blockHash minedHeader) (blockHash first.header)

theorem exists_createBlock {c : Chain} (h : mines c = true) :
    c.tip.hash = blockHash first.header ∧ ∃ c₁ template,
      Miner.createBlock Small.env 100 c c.tip = .ok (c₁, template)
        ∧ Miner.mineHeader Small.env template 7 = some minedHeader := by
  rw [mines, Bool.and_eq_true, beq_iff_eq] at h
  obtain ⟨htip, h⟩ := h
  split at h
  · rename_i c₁ template hcreate
    exact ⟨htip, c₁, template, hcreate, of_decide_eq_true h⟩
  · cases h

end Small

namespace Chain

/-- One node mines on top of the first block, and another one that has only the header of that
block takes the new header. -/
theorem mined_accepted_iff_first : ∃ c c', Reachable Small.env c ∧ Reachable Small.env c'
    ∧ c'.tip.height < c.tip.height
    ∧ ∃ c'' r, c'.addHeader Small.env 100 Small.minedHeader = .ok (c'', .ok r) := by
  obtain ⟨c, hc, hP⟩ := exists_reachable Small.env [.add 100 Small.first]
    (fun c => Small.mines c && c.tip.height == 1) (by decide) (by decide +kernel)
  obtain ⟨c', hc', hP'⟩ := exists_reachable Small.env [.addHeader 100 Small.first.header]
    (fun c => Small.takes c && c.tip.height == 0) (by decide) (by decide +kernel)
  simp only [Small.takes, Bool.and_eq_true, beq_iff_eq, Bool.not_eq_true'] at hP hP'
  obtain ⟨⟨⟨hknown, hnew⟩, hinvalid⟩, hheight'⟩ := hP'
  obtain ⟨htip, c₁, template, hcreate, hmine⟩ := Small.exists_createBlock hP.1
  have hvisited := hc.visited Small.lawful
  refine ⟨c, c', hc, hc', by rw [hP.2, hheight']; decide, ?_⟩
  refine (mined_accepted_iff Small.lawful Small.blockHash_injective (by decide) hvisited
    (hc'.visited Small.lawful) (hvisited.inv Small.lawful).tip_stored hcreate hmine).1.2 ?_
  rw [htip]
  exact ⟨hknown, hnew, hinvalid, by decide⟩

end Chain

end BitcoinNode

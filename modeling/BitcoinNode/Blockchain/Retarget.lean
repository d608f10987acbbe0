import BitcoinNode.Blockchain.AddHeader
import BitcoinNode.Blockchain.RelativeLocks
import BitcoinNode.Library.Compact

/-!
# Retargets

No stored target is above the limit of the network, so the product in `retarget` does not wrap.
The difference of the times does when the first block of a period is later than the last one: the
target is then raised as far as it may be, where it ought to fall as far as it may.
-/

namespace BitcoinNode

/-- The library rounds targets down when it makes them compact, and by less than half. -/
structure Env.Truncates (env : Env) : Prop where
  le {v : Nat} : v < 2 ^ 256 → env.u256FromCompactTarget (env.compactTargetFromU256 v) ≤ v
  lt {v : Nat} : 0 < v → v < 2 ^ 256 →
    v < 2 * env.u256FromCompactTarget (env.compactTargetFromU256 v)

/-- A network whose targets move, with the limit and the genesis block of the library. -/
structure Env.Retargets (env : Env) : Prop where
  retargets : env.network.noPowRetargeting = false
  limit_lt : env.network.powLimit < 2 ^ 224
  limit_bits : env.network.powLimitBits = env.compactTargetFromU256 env.network.powLimit
  genesis_bits : env.u256FromCompactTarget env.genesisEntry.bits ≤ env.network.powLimit
  genesis_time : 4 * DIFFCHANGE_TIMESPAN ≤ env.genesisEntry.time

/-- The time a period took, between a quarter of the time it should take and four times that. -/
def clampedTimespan (t : Int) : Nat :=
  (max (DIFFCHANGE_TIMESPAN / 4 : Nat) (min (4 * DIFFCHANGE_TIMESPAN : Nat) t) : Int).toNat

/-- The target after a period, for the signed difference of its times. -/
def exactTarget (env : Env) (prev first : ChainEntry) : Nat :=
  min env.network.powLimit (env.u256FromCompactTarget prev.bits
    * clampedTimespan ((prev.time : Int) - first.time) / DIFFCHANGE_TIMESPAN)

theorem clampedTimespan_le (t : Int) : clampedTimespan t ≤ 4 * DIFFCHANGE_TIMESPAN := by
  unfold clampedTimespan DIFFCHANGE_TIMESPAN
  omega

theorem clampedTimespan_of_neg {t : Int} (h : t < 0) :
    clampedTimespan t = DIFFCHANGE_TIMESPAN / 4 := by
  unfold clampedTimespan DIFFCHANGE_TIMESPAN
  omega

theorem clampedTimespan_of_large {t : Int} (h : 4 * DIFFCHANGE_TIMESPAN ≤ t) :
    clampedTimespan t = 4 * DIFFCHANGE_TIMESPAN := by
  unfold clampedTimespan DIFFCHANGE_TIMESPAN at *
  omega

namespace ChainDB

variable {env : Env} {db : ChainDB} {prev first e : ChainEntry} {time bits : Nat}

/-! ## One retarget -/

theorem mul_timespan_lt (net : env.Retargets)
    (hle : env.u256FromCompactTarget prev.bits ≤ env.network.powLimit) {t : Nat}
    (ht : t ≤ 4 * DIFFCHANGE_TIMESPAN) : env.u256FromCompactTarget prev.bits * t < 2 ^ 256 :=
  calc env.u256FromCompactTarget prev.bits * t
      ≤ 2 ^ 224 * (4 * DIFFCHANGE_TIMESPAN) := Nat.mul_le_mul (hle.trans net.limit_lt.le) ht
    _ < 2 ^ 256 := by decide

/-- `retarget` is the compact form of the target for the wrapped difference of the times. -/
theorem retarget_eq (net : env.Retargets)
    (hle : env.u256FromCompactTarget prev.bits ≤ env.network.powLimit) :
    retarget env prev first = env.compactTargetFromU256 (min env.network.powLimit
      (env.u256FromCompactTarget prev.bits
        * clampedTimespan (Word.sub 32 prev.time first.time) / DIFFCHANGE_TIMESPAN)) := by
  have hclamp : ∀ t : Nat,
      (if (if t < DIFFCHANGE_TIMESPAN / 4 then DIFFCHANGE_TIMESPAN / 4 else t) >
          DIFFCHANGE_TIMESPAN * 4
        then DIFFCHANGE_TIMESPAN * 4
        else if t < DIFFCHANGE_TIMESPAN / 4 then DIFFCHANGE_TIMESPAN / 4 else t)
        = clampedTimespan t := by
    intro t
    unfold clampedTimespan DIFFCHANGE_TIMESPAN
    split_ifs <;> omega
  have hmul := mul_timespan_lt net hle (clampedTimespan_le (Word.sub 32 prev.time first.time))
  simp only [retarget, net.retargets, Bool.false_eq_true, if_false, hclamp]
  rw [Word.mul, Nat.mod_eq_of_lt hmul, net.limit_bits]
  split_ifs with hlimit
  · rw [min_eq_left hlimit.le]
  · rw [min_eq_right (Nat.not_lt.1 hlimit)]

/-- A period that went forward: the difference of its times is exact. -/
theorem retarget_of_le (net : env.Retargets)
    (hle : env.u256FromCompactTarget prev.bits ≤ env.network.powLimit) (hprev : prev.time < 2 ^ 32)
    (htime : first.time ≤ prev.time) :
    retarget env prev first = env.compactTargetFromU256 (exactTarget env prev first) := by
  rw [retarget_eq net hle, Word.sub_eq htime hprev, exactTarget, Nat.cast_sub htime]

/-- A period that went back: the wrapped difference is longer than any period may be. -/
theorem retarget_of_lt (net : env.Retargets)
    (hle : env.u256FromCompactTarget prev.bits ≤ env.network.powLimit)
    (hfirst : first.time < 2 ^ 32)
    (hlong : 4 * DIFFCHANGE_TIMESPAN ≤ prev.time) (htime : prev.time < first.time) :
    retarget env prev first = env.compactTargetFromU256
        (min env.network.powLimit (env.u256FromCompactTarget prev.bits * 4))
      ∧ exactTarget env prev first = env.u256FromCompactTarget prev.bits / 4 := by
  have hwrap : Word.sub 32 prev.time first.time = prev.time + 2 ^ 32 - first.time := by
    rw [Word.sub, Nat.mod_eq_of_lt hfirst, Nat.mod_eq_of_lt (by omega)]
    omega
  constructor
  · have hlarge : (4 * DIFFCHANGE_TIMESPAN : Int) ≤ Word.sub 32 prev.time first.time := by
      rw [hwrap]
      omega
    rw [retarget_eq net hle, clampedTimespan_of_large hlarge, ← mul_assoc,
      Nat.mul_div_cancel _ (by decide)]
  · rw [exactTarget, clampedTimespan_of_neg (by omega), DIFFCHANGE_TIMESPAN]
    omega

/-- The two ends of the range have different compact forms. -/
theorem compact_ne (trunc : env.Truncates) {t limit : Nat} (hlimit : limit < 2 ^ 256) (ht : 0 < t)
    (hle : t ≤ limit) :
    env.compactTargetFromU256 (min limit (t * 4)) ≠ env.compactTargetFromU256 (t / 4) := by
  intro heq
  have hlow := trunc.le (show t / 4 < 2 ^ 256 by omega)
  have hhigh := trunc.lt (show 0 < min limit (t * 4) by omega) (by omega)
  rw [heq] at hhigh
  omega

/-! ## Stored targets -/

/-- The walk over minimum-difficulty blocks ends at a stored entry. -/
theorem lastRealBits_eq_ok {fuel : Nat} {hash : BlockHash} (he : db.getEntryByHash hash = some e)
    (h : lastRealBits env db fuel e = .ok bits) :
    ∃ hash e, db.getEntryByHash hash = some e ∧ bits = e.bits := by
  induction fuel generalizing e hash with
  | zero =>
    unfold lastRealBits at h
    split at h
    · cases h
    · exact ⟨hash, e, he, (Except.ok.inj h).symm⟩
  | succ fuel ih =>
    unfold lastRealBits at h
    split at h
    · cases hp : db.getEntryByHash e.prevBlock with
      | none =>
        rw [hp] at h
        cases h
      | some p =>
        rw [hp] at h
        exact ih hp h
    · exact ⟨hash, e, he, (Except.ok.inj h).symm⟩

/-- What `get_target` asks for is within the limit, if all targets so far are. -/
theorem getTarget_le (trunc : env.Truncates) (net : env.Retargets)
    (hle : ∀ hash e, db.getEntryByHash hash = some e →
      env.u256FromCompactTarget e.bits ≤ env.network.powLimit) {hash : BlockHash}
    (he : db.getEntryByHash hash = some prev) (h : db.getTarget env time (some prev) = .ok bits) :
    env.u256FromCompactTarget bits ≤ env.network.powLimit := by
  have hlimit := net.limit_lt
  have hmin : env.u256FromCompactTarget env.network.powLimitBits ≤ env.network.powLimit := by
    rw [net.limit_bits]
    exact trunc.le (by omega)
  simp only [getTarget] at h
  split_ifs at h
  · exact Except.ok.inj h ▸ hmin
  · obtain ⟨_, e', he', rfl⟩ := lastRealBits_eq_ok he h
    exact hle _ _ he'
  · exact Except.ok.inj h ▸ hle _ _ he
  · obtain ⟨first, -, h⟩ := bind_eq_ok.1 h
    rw [← pure_eq_ok.1 h, retarget_eq net (hle _ _ he)]
    exact (trunc.le (by omega)).trans (min_le_left _ _)

end ChainDB

namespace Chain

open ChainDB

variable {env : Env} {c c' : Chain}

/-- No stored target is above the limit. -/
theorem Visited.target_le (trunc : env.Truncates) (net : env.Retargets) (law : env.Lawful)
    (h : Visited env c) : ∀ hash e, c.db.getEntryByHash hash = some e →
      env.u256FromCompactTarget e.bits ≤ env.network.powLimit := by
  obtain ⟨c₀, hnew, hrun⟩ := h
  refine ReflTransGen.invariant_with (Q := Inv env) (P := fun c => ∀ hash e,
    c.db.getEntryByHash hash = some e → env.u256FromCompactTarget e.bits ≤ env.network.powLimit)
    (fun _ _ hst hs => hs.move law hst) ?_ hrun (Inv.new law hnew) ?_
  · intro c c' hst inv ih hash e he
    rcases hst.getEntryByHash_eq inv with heq | ⟨now, header, ⟨entry, prev⟩, hadd⟩
    · exact ih hash e (heq ▸ he)
    rw [(getEntryByHash_addHeader inv hadd).2] at he
    split_ifs at he
    · obtain rfl := Option.some.inj he
      rcases addHeader_eq_ok hadd with ⟨_, hr, -⟩ |
        ⟨_, _, _, _, hr, -, -, -, hprev, -, hentry, hcheck, -⟩
      · cases hr
      cases hr
      rw [hentry]
      exact getTarget_le trunc net ih hprev (contextualCheckBlockHeader_eq_ok hcheck).1
    · exact ih hash e he
  · obtain ⟨mostWork, rfl⟩ := new_eq_ok law hnew
    intro hash e he
    rw [(getEntryByHash_fresh.1 he).2]
    exact net.genesis_bits

/-- Median time is never before the genesis block, so no stored time is. -/
theorem Visited.le_time (law : env.Lawful) (h : Visited env c) {hash : BlockHash} {e : ChainEntry}
    (he : c.db.getEntryByHash hash = some e) : env.genesisEntry.time ≤ e.time := by
  have tree := (h.inv law).tree
  have timely := h.timely law
  have hmedian : ∀ {hash e}, c.db.getEntryByHash hash = some e →
      env.genesisEntry.time ≤ c.db.getMedianTime e := by
    intro hash e he
    refine tree.rooted.induction
      (P := fun e => env.genesisEntry.time ≤ c.db.getMedianTime e) ?_ ?_ he
    · rw [getMedianTime, MEDIAN_TIMESPAN, lastTimes, show env.genesisEntry.prevBlock = 0 from
        law.genesis_prev, tree.getEntryByHash_zero law]
      exact le_median (by simp) (by simp)
    · intro hash e p he hp hle
      exact hle.trans (getMedianTime_le_child hp (timely _ _ _ he hp))
  rcases eq_or_ne e env.genesisEntry with rfl | hgen
  · exact le_rfl
  · obtain ⟨p, hp⟩ := tree.rooted.exists_parent he hgen
    exact (hmedian hp).trans (timely _ _ _ he hp).le

/-- The target after a period is read off its last and its first block. -/
theorem Visited.exists_first (law : env.Lawful) (hc : Visited env c) {prev : ChainEntry}
    (hprev : c.db.getEntryByHash prev.hash = some prev)
    (hperiod : (prev.height + 1) % DIFFCHANGE_INTERVAL = 0) :
    ∃ first, c.db.parentWalk (DIFFCHANGE_INTERVAL - 1) prev = some first
      ∧ c.db.getEntryByHash first.hash = some first
      ∧ first.height + (DIFFCHANGE_INTERVAL - 1) = prev.height
      ∧ ∀ time, c.db.getTarget env time (some prev) = .ok (retarget env prev first) := by
  have inv := hc.inv law
  have hheight : DIFFCHANGE_INTERVAL - 1 ≤ prev.height := by
    unfold DIFFCHANGE_INTERVAL at *
    omega
  obtain ⟨first, hfirst, hanc, hfheight⟩ :=
    getAncestor_eq inv.tree inv.main (hc.skips law) hprev
      (Nat.sub_le prev.height (DIFFCHANGE_INTERVAL - 1))
  have hwalk := inv.tree.rooted.climb_of_ancestor hprev hanc
  rw [hfheight, Nat.sub_sub_self hheight] at hwalk
  refine ⟨first, hwalk, hanc.stored inv.tree hprev, by omega, fun time => ?_⟩
  simp only [getTarget, hperiod, ne_eq, not_true_eq_false, if_false, Nat.not_lt.2 hheight, hfirst]
  rfl

/-- The target after a period is the exact one, and its product does not wrap, if and only if the
last block of the period is not earlier than the first one or the target is zero. -/
theorem getTarget_retarget_iff (law : env.Lawful) (trunc : env.Truncates) (net : env.Retargets)
    (hc : Visited env c) (htimes : ∀ hash e, c.db.getEntryByHash hash = some e → e.time < 2 ^ 32)
    {prev : ChainEntry} (hprev : c.db.getEntryByHash prev.hash = some prev)
    (hperiod : (prev.height + 1) % DIFFCHANGE_INTERVAL = 0) (time : Nat) :
    ∃ first, c.db.parentWalk (DIFFCHANGE_INTERVAL - 1) prev = some first
      ∧ env.u256FromCompactTarget prev.bits * (4 * DIFFCHANGE_TIMESPAN) < 2 ^ 256
      ∧ (c.db.getTarget env time (some prev) = .ok
        (env.compactTargetFromU256 (exactTarget env prev first)) ↔
        first.time ≤ prev.time ∨ env.u256FromCompactTarget prev.bits = 0) := by
  have hle := hc.target_le trunc net law _ _ hprev
  have hlimit := net.limit_lt
  obtain ⟨first, hwalk, hstored, -, htarget⟩ := hc.exists_first law hprev hperiod
  refine ⟨first, hwalk, mul_timespan_lt net hle le_rfl, ?_⟩
  rw [htarget, Except.ok.injEq]
  rcases Nat.lt_or_ge prev.time first.time with hback | hforth
  · have hlong := net.genesis_time.trans (hc.le_time law hprev)
    obtain ⟨heq, hexact⟩ := retarget_of_lt net hle (htimes _ _ hstored) hlong hback
    rw [heq, hexact, or_iff_right (Nat.not_le.2 hback)]
    refine ⟨fun hcompact => ?_, fun hzero => by rw [hzero, Nat.zero_mul, Nat.min_zero]⟩
    by_contra hpos
    exact compact_ne trunc (by omega) (Nat.pos_of_ne_zero hpos) hle hcompact
  · exact iff_of_true (retarget_of_le net hle (htimes _ _ hprev) hforth) (.inl hforth)

/-- A header that passes the contextual checks is accepted. -/
theorem Visited.exists_addHeader (law : env.Lawful) (hc : Visited env c) {now : Nat}
    {header : BlockHeader} {prev : ChainEntry} (hpow : env.validatePow header = true)
    (hinvalid : c.hasInvalid (env.blockHash header) header.prevBlockhash = false)
    (hnew : c.db.getEntryByHash (env.blockHash header) = none)
    (hprev : c.db.getEntryByHash header.prevBlockhash = some prev)
    (hcheck : c.contextualCheckBlockHeader env now header prev = .ok ()) :
    ∃ c' skip, c.addHeader env now header = .ok (c',
      .ok ({ ChainEntry.fromBlockHeader env header (some prev) with skip := skip }, prev)) := by
  have inv := hc.inv law
  have hself := inv.tree.self hprev
  obtain ⟨skip, hskip, hanc, hheight⟩ := getAncestor_eq inv.tree inv.main (hc.skips law) hself
    (Nat.le_of_lt_succ (getSkipHeight_lt prev.height.succ_pos))
  have hsave : Total (c.db.saveEntry
      { ChainEntry.fromBlockHeader env header (some prev) with skip := skip.hash } prev) :=
    saveEntry_total inv.tree inv.main (hc.skips law) inv.idle hnew hprev rfl
      (.inr ⟨skip, hanc.stored inv.tree hself, .head hprev hanc, hheight⟩)
  obtain ⟨db, hdb⟩ := hsave.exists_ok
  refine ⟨{ c with db := db }, skip.hash, ?_⟩
  simp only [addHeader, hpow, hinvalid, hasHeader, hnew, hprev, Option.isSome_none, Bool.not_true,
    Bool.false_eq_true, if_false]
  rw [show c.db.getAncestor prev (getSkipHeight (ChainEntry.fromBlockHeader env header
    (some prev)).height) = .ok skip from hskip, bind_of_ok rfl, hcheck]
  dsimp only
  rw [hdb]
  rfl

end Chain

/-! ## Two periods -/

namespace Small

/-- The first block of the second period is a day later than the blocks around it. -/
def periodTime (n : Nat) : Nat := 1231006505 + if n = 2016 then 86400 else n

/-- The target of the first period is the limit; the first period was short. -/
def periodBits (n : Nat) : Nat := if n < 2016 then 0x1d00ffff else 0x1c3fffc0

def periodHeader (n : Nat) : BlockHeader := ⟨4, n, 0, periodTime n, periodBits n, n⟩

/-- All times but that of the first block of the second period are below the later ones. -/
theorem periodTime_lt {k i : Nat} (hk : k < 4031) (hi : i ≤ k) (hne : i ≠ 2016) :
    periodTime i < periodTime (k + 1) := by
  unfold periodTime
  split_ifs <;> omega

theorem periodTime_lt_now {k : Nat} (hk : k ≤ 4031) : periodTime k < 2 ^ 31 := by
  unfold periodTime
  split_ifs <;> omega

/-- The network that headers are named by their nonces on. -/
def retargeting : Env :=
  { env with
    blockHash := fun header => header.nonce + 1
    u256FromCompactTarget := Compact.expand
    compactTargetFromU256 := Compact.compact
    genesisBlock := ⟨periodHeader 0, [coinbase 0 5000000000]⟩
    network := { network with
      noPowRetargeting := false
      powLimit := 0xffff * 2 ^ 208
      powLimitBits := 0x1d00ffff } }

theorem retargeting_lawful : retargeting.Lawful where
  blockHash_ne_zero _ := Nat.succ_ne_zero _
  work_pos _ _ := Nat.two_pos
  genesis_prev := rfl

theorem retargeting_truncates : retargeting.Truncates where
  le _ := Compact.expand_compact_le
  lt hv _ := Compact.lt_two_mul_expand_compact hv

theorem retargeting_retargets : retargeting.Retargets where
  retargets := rfl
  limit_lt := by decide
  limit_bits := by decide +kernel
  genesis_bits := by decide +kernel
  genesis_time := by decide

/-- The chain holds the headers up to the one of height `n`. -/
structure Grown (n : Nat) (c : Chain) : Prop where
  reachable : Chain.Reachable retargeting c
  invalid : c.db.invalid = ∅
  entries {k : Nat} : k ≤ n → ∃ e, c.db.getEntryByHash (k + 1) = some e
    ∧ e.header = periodHeader k ∧ e.height = k
  new {k : Nat} : n < k → c.db.getEntryByHash (k + 1) = none

namespace Grown

open ChainDB

variable {n k m : Nat} {c : Chain} {e : ChainEntry}

theorem visited (h : Grown n c) : Chain.Visited retargeting c :=
  h.reachable.visited retargeting_lawful

theorem zero : ∃ c, Grown 0 c := by
  obtain ⟨c, hc, -⟩ := Chain.exists_reachable retargeting [] (fun _ => true) rfl (by decide +kernel)
  obtain ⟨c₀, hnew, -⟩ := hc.visited retargeting_lawful
  refine ⟨c₀, .new hnew, ?_, fun hk => ?_, fun hk => ?_⟩
  all_goals obtain ⟨mostWork, rfl⟩ := Chain.new_eq_ok retargeting_lawful hnew
  · rfl
  · obtain rfl := Nat.le_zero.1 hk
    exact ⟨_, Chain.getEntryByHash_fresh.2 ⟨rfl, rfl⟩, rfl, rfl⟩
  · refine Option.eq_none_iff_forall_ne_some.2 fun e he => ?_
    have heq := Nat.succ.inj (Chain.getEntryByHash_fresh.1 he).1
    exact hk.ne' heq

theorem prevBlock (hheader : e.header = periodHeader k) : e.prevBlock = k :=
  congrArg BlockHeader.prevBlockhash hheader

theorem time (hheader : e.header = periodHeader k) : e.time = periodTime k :=
  congrArg BlockHeader.time hheader

theorem bits (hheader : e.header = periodHeader k) : e.bits = periodBits k :=
  congrArg BlockHeader.bits hheader

/-- The times before an entry. -/
theorem lastTimes_eq (h : Grown n c) (hk : k ≤ n) (he : c.db.getEntryByHash (k + 1) = some e) :
    c.db.lastTimes m e = (List.range (min m (k + 1))).map fun i => periodTime (k - i) := by
  induction m generalizing k e with
  | zero => simp [lastTimes]
  | succ m ih =>
    obtain ⟨e', he', hheader, -⟩ := h.entries hk
    obtain rfl := Option.some.inj (he'.symm.trans he)
    rw [lastTimes, prevBlock hheader, time hheader, Nat.succ_min_succ, List.range_succ_eq_map,
      List.map_cons]
    cases k with
    | zero => simp [(h.visited.inv retargeting_lawful).tree.getEntryByHash_zero retargeting_lawful]
    | succ k =>
      obtain ⟨p, hp, -⟩ := h.entries (Nat.le_of_succ_le hk)
      rw [hp]
      simp only [ih (Nat.le_of_succ_le hk) hp, List.map_map, Nat.sub_zero]
      refine congrArg _ (List.map_congr_left fun i _ => ?_)
      rw [Function.comp_apply, Nat.add_sub_add_right]

/-- At most one of the times before an entry is not below the next one. -/
theorem getMedianTime_lt_next (h : Grown n c) (hk : k ≤ n) (hlt : k < 4031)
    (he : c.db.getEntryByHash (k + 1) = some e) :
    c.db.getMedianTime e < periodTime (k + 1) := by
  rw [getMedianTime, MEDIAN_TIMESPAN, lastTimes_eq h hk he]
  by_contra hle
  have hbelow := (le_median_iff (by simp)).1 (Nat.not_lt.1 hle)
  rw [List.countP_map, List.length_map, List.length_range] at hbelow
  have hsplit := @List.length_eq_countP_add_countP _
    ((fun t => decide (t < periodTime (k + 1))) ∘ fun i => periodTime (k - i))
    (List.range (min 11 (k + 1)))
  rw [List.length_range] at hsplit
  rcases Nat.lt_or_ge k 2016 with hfirst | hsecond
  · rw [List.countP_eq_length.2, List.length_range] at hbelow
    · omega
    · intro i hi
      have hi := List.mem_range.1 hi
      exact decide_eq_true (periodTime_lt hlt (Nat.sub_le k i) (by omega))
  · have hone : (List.range (min 11 (k + 1))).countP (fun i => decide ¬ ((fun t =>
        decide (t < periodTime (k + 1))) ∘ fun i => periodTime (k - i)) i = true) ≤ 1 := by
      refine (List.countP_mono_left fun i hi habove => ?_).trans
        (List.nodup_iff_count_le_one.1 List.nodup_range (k - 2016))
      have hi := List.mem_range.1 hi
      by_contra hne
      refine of_decide_eq_true habove (decide_eq_true (periodTime_lt hlt (Nat.sub_le k i) ?_))
      rw [beq_iff_eq] at hne
      omega
    omega

/-- The headers carry the bits that are asked for. -/
theorem getTarget_eq (h : Grown n c) (hk : k ≤ n) (hlt : k < 4031)
    (he : c.db.getEntryByHash (k + 1) = some e) (hheader : e.header = periodHeader k)
    (hheight : e.height = k) {t : Nat} :
    c.db.getTarget retargeting t (some e) = .ok (periodBits (k + 1)) := by
  have inv := h.visited.inv retargeting_lawful
  rcases eq_or_ne k 2015 with rfl | hne
  · obtain ⟨first, -, hstored, hfheight, htarget⟩ := h.visited.exists_first retargeting_lawful
      (inv.tree.self he) (by rw [hheight]; decide)
    obtain rfl := inv.tree.rooted.eq_root_of_rank hstored
      (Nat.add_right_cancel (hfheight.trans (hheight.trans (Nat.zero_add _).symm)))
    rw [htarget, retarget, bits hheader, time hheader]
    decide +kernel
  · have hperiod : (e.height + 1) % DIFFCHANGE_INTERVAL ≠ 0 := by
      rw [hheight, DIFFCHANGE_INTERVAL]
      omega
    rw [getTarget, if_pos hperiod, if_neg (by decide), bits hheader, periodBits, periodBits]
    split_ifs <;> first | rfl | omega

theorem contextualCheck_next (h : Grown n c) (hlt : n < 4031)
    (he : c.db.getEntryByHash (n + 1) = some e) (hheader : e.header = periodHeader n)
    (hheight : e.height = n) :
    c.contextualCheckBlockHeader retargeting (2 ^ 31) (periodHeader (n + 1)) e = .ok () := by
  have hhash : (periodHeader (n + 1)).prevBlockhash = e.hash :=
    ((h.visited.inv retargeting_lawful).tree.hash_eq he).symm
  have hmedian : ¬ (periodHeader (n + 1)).time ≤ c.db.getMedianTime e :=
    Nat.not_le.2 (getMedianTime_lt_next h le_rfl hlt he)
  have hnow : ¬ (periodHeader (n + 1)).time ≥ 2 ^ 31 + MAX_FUTURE_BLOCK_TIME :=
    Nat.not_le.2 (Nat.lt_add_right _ (periodTime_lt_now hlt))
  have hversion : ∀ v : Int32, v ≤ 4 → ¬ (periodHeader (n + 1)).version < v := fun v hv =>
    Int32.not_lt.2 hv
  have htarget := @getTarget_eq _ _ _ _ h le_rfl hlt he hheader hheight (periodHeader (n + 1)).time
  rw [Chain.contextualCheckBlockHeader, if_neg (not_not.2 hhash), htarget]
  simp only [hmedian, hnow, hversion 2 (by decide), hversion 3 (by decide), hversion 4 (by decide),
    false_and, or_self, if_false]
  exact if_neg (not_not.2 rfl)

theorem succ (h : Grown n c) (hlt : n < 4031) : ∃ c', Grown (n + 1) c' := by
  have inv := h.visited.inv retargeting_lawful
  obtain ⟨e, he, hheader, hheight⟩ := h.entries le_rfl
  have hinvalid : c.hasInvalid (retargeting.blockHash (periodHeader (n + 1)))
      (periodHeader (n + 1)).prevBlockhash = false := by
    simp [Chain.hasInvalid, hasInvalid, h.invalid]
  obtain ⟨c', skip, hadd⟩ := h.visited.exists_addHeader retargeting_lawful rfl hinvalid
    (h.new n.lt_succ_self) he (contextualCheck_next h hlt he hheader hheight)
  have hget := (Chain.getEntryByHash_addHeader inv hadd).2
  refine ⟨c', ?_, ?_, fun {k} hk => ?_, fun {k} hk => ?_⟩
  · refine @Chain.Reachable.step _ _ _ (.addHeader (2 ^ 31) (periodHeader (n + 1))) (.ok ())
      h.reachable trivial ?_
    rw [Chain.step, hadd]
    rfl
  · rcases Chain.addHeader_eq_ok hadd with ⟨_, hr, -⟩ |
      ⟨_, _, _, _, -, -, -, -, -, -, -, -, hsave, rfl⟩
    · cases hr
    · obtain ⟨mostWork, rfl⟩ := ChainDB.saveEntry_eq_ok inv.idle hsave
      exact h.invalid
  · rw [hget]
    split_ifs with heq
    · obtain rfl : k = n + 1 := Nat.succ.inj heq
      exact ⟨_, rfl, rfl, congrArg Nat.succ hheight⟩
    · have hne : k ≠ n + 1 := fun h => heq (congrArg Nat.succ h)
      exact h.entries (by omega)
  · rw [hget, if_neg]
    · exact h.new (by omega)
    · exact fun heq => hk.ne' (Nat.succ.inj heq)

theorem header_eq (h : Grown n c) (he : c.db.getEntryByHash e.hash = some e) :
    e.header = periodHeader e.height ∧ e.height ≤ n := by
  cases hhash : e.hash with
  | zero =>
    rw [hhash, (h.visited.inv retargeting_lawful).tree.getEntryByHash_zero retargeting_lawful] at he
    cases he
  | succ k =>
    rw [hhash] at he
    rcases Nat.lt_or_ge n k with hlt | hle
    · rw [h.new hlt] at he
      cases he
    · obtain ⟨e', he', hheader, hheight⟩ := h.entries hle
      obtain rfl := Option.some.inj (he.symm.trans he')
      rw [hheader, hheight]
      exact ⟨rfl, hle⟩

theorem exists_two_periods : ∃ c, Grown 4031 c := by
  have hgrow : ∀ n ≤ 4031, ∃ c, Grown n c := by
    intro n
    induction n with
    | zero => exact fun _ => zero
    | succ n ih =>
      intro hn
      obtain ⟨c, hc⟩ := ih (Nat.le_of_succ_le hn)
      exact hc.succ hn
  exact hgrow 4031 le_rfl

end Grown

end Small

namespace Chain

open ChainDB

/-- The last block of the second period is a day earlier than the first one, and the target
rises. -/
theorem exists_wrapped_retarget : ∃ c prev first, Reachable Small.retargeting c
    ∧ c.db.getEntryByHash prev.hash = some prev ∧ (prev.height + 1) % DIFFCHANGE_INTERVAL = 0
    ∧ c.db.parentWalk (DIFFCHANGE_INTERVAL - 1) prev = some first
    ∧ c.db.getTarget Small.retargeting prev.time (some prev)
      ≠ .ok (Compact.compact (exactTarget Small.retargeting prev first)) := by
  obtain ⟨c, h⟩ := Small.Grown.exists_two_periods
  obtain ⟨prev, hprev, hheader, hheight⟩ := h.entries le_rfl
  have hself := (h.visited.inv Small.retargeting_lawful).tree.self hprev
  have hperiod : (prev.height + 1) % DIFFCHANGE_INTERVAL = 0 := by
    rw [hheight]
    decide
  obtain ⟨first, hwalk, hstored, hfheight, htarget⟩ :=
    h.visited.exists_first Small.retargeting_lawful hself hperiod
  have hfirst : first.header = Small.periodHeader 2016 := by
    rw [(h.header_eq hstored).1]
    exact congrArg _ (Nat.add_right_cancel (hfheight.trans hheight))
  refine ⟨c, prev, first, h.reachable, hself, hperiod, hwalk, ?_⟩
  rw [htarget, retarget, exactTarget, Small.Grown.bits hheader, Small.Grown.time hheader,
    Small.Grown.time hfirst]
  decide +kernel

/-- The target at the end of the first period of that chain. -/
theorem getTarget_retarget_iff_first : ∃ c prev, Visited Small.retargeting c
    ∧ (prev.height + 1) % DIFFCHANGE_INTERVAL = 0
    ∧ ∃ first, c.db.parentWalk (DIFFCHANGE_INTERVAL - 1) prev = some first
      ∧ Compact.expand prev.bits * (4 * DIFFCHANGE_TIMESPAN) < 2 ^ 256
      ∧ (c.db.getTarget Small.retargeting prev.time (some prev)
          = .ok (Compact.compact (exactTarget Small.retargeting prev first)) ↔
        first.time ≤ prev.time ∨ Compact.expand prev.bits = 0) := by
  obtain ⟨c, h⟩ := Small.Grown.exists_two_periods
  obtain ⟨prev, hprev, hheader, hheight⟩ := h.entries (show 2015 ≤ 4031 by decide)
  have tree := (h.visited.inv Small.retargeting_lawful).tree
  have hperiod : (prev.height + 1) % DIFFCHANGE_INTERVAL = 0 := by
    rw [hheight]
    decide
  refine ⟨c, prev, h.visited, hperiod, getTarget_retarget_iff Small.retargeting_lawful
    Small.retargeting_truncates Small.retargeting_retargets h.visited (fun hash e he => ?_)
    (tree.self hprev) hperiod prev.time⟩
  obtain ⟨hheader, hle⟩ := h.header_eq (tree.self he)
  rw [Small.Grown.time hheader]
  exact (Small.periodTime_lt_now hle).trans (by decide)

end Chain

end BitcoinNode

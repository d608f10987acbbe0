import BitcoinNode.Blockchain.Ancestors
import BitcoinNode.Library.Median

/-!
# Median time never falls

The time of a header is above the median time of its parent, so the median time grows along
every branch. It is read off stored entries only, and later headers do not change it.
-/

namespace BitcoinNode

namespace ChainDB

variable {env : Env} {db db' : ChainDB} {e p a : ChainEntry} {times : List Nat} {t m n : Nat}

theorem le_median_iff (h : times ≠ []) :
    m ≤ median times ↔ times.countP (· < m) ≤ times.length / 2 := by
  have hpos := List.length_pos_iff.2 h
  have hlt : times.length / 2 < (times.insertionSort (· ≤ ·)).length := by
    rw [List.length_insertionSort]
    omega
  have hget : median times = (times.insertionSort (· ≤ ·))[times.length / 2] := by
    simp only [median, List.getD, List.getElem?_eq_getElem hlt, Option.getD_some]
  rw [hget, Median.le_getElem_insertionSort_iff]

/-- The median does not fall when the window moves on to a time above it. -/
theorem median_le_window (h : times ≠ []) (ht : median times < t) (hn : times.length ≤ n + 1) :
    median times ≤ median (t :: times.take n) := by
  rw [le_median_iff (by simp)]
  have hbelow := (le_median_iff h).1 le_rfl
  have hwindow := @Median.countP_window_le _ _ times n (median times) t ht.le
  rw [List.length_cons, List.length_take]
  omega

theorem lastTimes_ne_nil : db.lastTimes (n + 1) e ≠ [] := by simp [lastTimes]

theorem length_lastTimes_le : (db.lastTimes n e).length ≤ n := by
  induction n generalizing e with
  | zero => exact le_rfl
  | succ n ih =>
    rw [lastTimes, List.length_cons]
    split
    · exact Nat.succ_le_succ ih
    · exact Nat.succ_le_succ (Nat.zero_le n)

theorem take_lastTimes : (db.lastTimes (n + 1) e).take n = db.lastTimes n e := by
  induction n generalizing e with
  | zero => rfl
  | succ n ih =>
    rw [lastTimes, List.take_succ_cons, lastTimes]
    split <;> simp [ih]

theorem lastTimes_child (hp : db.getEntryByHash e.prevBlock = some p) :
    db.lastTimes (n + 1) e = e.time :: (db.lastTimes (n + 1) p).take n := by
  rw [take_lastTimes, lastTimes, hp]

/-- A child whose time is above the median time of its parent. -/
theorem getMedianTime_le_child (hp : db.getEntryByHash e.prevBlock = some p)
    (ht : db.getMedianTime p < e.time) : db.getMedianTime p ≤ db.getMedianTime e := by
  have hwindow := @median_le_window (db.lastTimes MEDIAN_TIMESPAN p) e.time 10 lastTimes_ne_nil ht
    length_lastTimes_le
  rwa [getMedianTime, getMedianTime, MEDIAN_TIMESPAN, lastTimes_child hp]

/-- Headers are later than the median time of their parents. -/
def Timely (db : ChainDB) : Prop :=
  ∀ hash e p, db.getEntryByHash hash = some e → db.getEntryByHash e.prevBlock = some p →
    db.getMedianTime p < e.time

/-- Median time grows along a branch. -/
theorem Timely.getMedianTime_le (timely : db.Timely) {hash : BlockHash}
    (he : db.getEntryByHash hash = some e) (h : db.Ancestor e a) :
    db.getMedianTime a ≤ db.getMedianTime e := by
  induction h using Relation.ReflTransGen.head_induction_on generalizing hash with
  | refl => exact le_rfl
  | head hp _ ih => exact (ih hp).trans (getMedianTime_le_child hp (timely _ _ _ he hp))

section Mono

variable (law : env.Lawful) (tree : db.Tree env) (tree' : db'.Tree env)
  (hmono : ∀ hash e, db.getEntryByHash hash = some e → db'.getEntryByHash hash = some e)

include law tree tree' hmono

/-- A stored entry gets no other parent. -/
theorem parent_mono {hash : BlockHash} (he : db.getEntryByHash hash = some e) :
    db'.getEntryByHash e.prevBlock = db.getEntryByHash e.prevBlock := by
  cases hp : db.getEntryByHash e.prevBlock with
  | some p => exact hmono _ _ hp
  | none =>
    -- only the genesis entry has no parent, and no header hashes to what it names
    obtain rfl : e = env.genesisEntry := by
      by_contra hne
      obtain ⟨p, hp'⟩ := tree.rooted.exists_parent he hne
      rw [hp] at hp'
      cases hp'
    rw [show env.genesisEntry.prevBlock = 0 from law.genesis_prev]
    exact tree'.getEntryByHash_zero law

/-- The times before a stored entry do not depend on entries stored later. -/
theorem lastTimes_mono {hash : BlockHash} (he : db.getEntryByHash hash = some e) :
    db'.lastTimes n e = db.lastTimes n e := by
  induction n generalizing e hash with
  | zero => rfl
  | succ n ih =>
    rw [lastTimes, lastTimes, parent_mono law tree tree' hmono he]
    cases hp : db.getEntryByHash e.prevBlock with
    | none => rfl
    | some p => simp only [ih hp]

theorem getMedianTime_mono {hash : BlockHash} (he : db.getEntryByHash hash = some e) :
    db'.getMedianTime e = db.getMedianTime e := by
  rw [getMedianTime, getMedianTime, lastTimes_mono law tree tree' hmono he]

end Mono

end ChainDB

namespace Chain

open ChainDB

variable {env : Env} {c c' : Chain}

/-- What the contextual checks of a header say of it. Its version is compared at the height of
the parent. -/
theorem contextualCheckBlockHeader_eq_ok {now : Nat} {header : BlockHeader} {prev : ChainEntry}
    (h : c.contextualCheckBlockHeader env now header prev = .ok ()) :
    c.db.getTarget env header.time (some prev) = .ok header.bits
      ∧ c.db.getMedianTime prev < header.time ∧ header.time < now + MAX_FUTURE_BLOCK_TIME
      ∧ (env.network.bip34Height ≤ prev.height → 2 ≤ header.version)
      ∧ (env.network.bip66Height ≤ prev.height → 3 ≤ header.version)
      ∧ (env.network.bip65Height ≤ prev.height → 4 ≤ header.version) := by
  simp only [contextualCheckBlockHeader, throw_bind, ite_throw_eq_ok] at h
  obtain ⟨-, h⟩ := h
  split at h
  · cases h
  rename_i bits hbits
  simp only [ite_throw_eq_ok, not_not, not_or, not_and, Nat.not_le] at h
  obtain ⟨rfl, hmedian, hnow, ⟨h34, h66, h65⟩, -⟩ := h
  exact ⟨hbits, hmedian, hnow, fun h => Int32.not_lt.1 fun hlt => (h34 hlt).not_ge h,
    fun h => Int32.not_lt.1 fun hlt => (h66 hlt).not_ge h,
    fun h => Int32.not_lt.1 fun hlt => (h65 hlt).not_ge h⟩

theorem Visited.timely (law : env.Lawful) (h : Visited env c) : c.db.Timely := by
  intro hash e p he hp
  have tree := (h.inv law).tree
  have hgen : e ≠ env.genesisEntry := by
    rintro rfl
    rw [show env.genesisEntry.prevBlock = 0 from law.genesis_prev, tree.getEntryByHash_zero law]
      at hp
    cases hp
  obtain ⟨c₁, c₂, now, prev, hc₁, hadd, hmono⟩ := h.accepted law he hgen
  rcases addHeader_eq_ok hadd with ⟨_, hr, -⟩ | ⟨_, _, _, _, hr, -, -, -, hprev, -, -, hcheck, -⟩
  · cases hr
  cases hr
  obtain rfl := Option.some.inj (hp.symm.trans (hmono _ _ hprev))
  rw [getMedianTime_mono law (hc₁.inv law).tree tree hmono hprev]
  exact (contextualCheckBlockHeader_eq_ok hcheck).2.1

/-- A stored entry is later than the median time of its parent, and median time never falls along
a branch. -/
theorem medianTime_monotone (law : env.Lawful) (h : Visited env c) {e : ChainEntry}
    (he : c.db.getEntryByHash e.hash = some e) :
    (e ≠ env.genesisEntry → ∃ p, c.db.getEntryByHash e.prevBlock = some p
      ∧ c.db.getMedianTime p < e.time ∧ c.db.getMedianTime p ≤ c.db.getMedianTime e)
    ∧ ∀ a, c.db.Ancestor e a → c.db.getMedianTime a ≤ c.db.getMedianTime e := by
  have timely := h.timely law
  refine ⟨fun hgen => ?_, fun a hanc => timely.getMedianTime_le he hanc⟩
  obtain ⟨p, hp⟩ := (h.inv law).tree.rooted.exists_parent he hgen
  have ht := timely _ _ _ he hp
  exact ⟨p, hp, ht, getMedianTime_le_child hp ht⟩

/-- The tip of a chain of one block is later than the median time of the genesis entry. -/
theorem medianTime_monotone_first : ∃ c p, Visited Small.env c
    ∧ c.db.getEntryByHash c.tip.prevBlock = some p ∧ c.db.getMedianTime p < c.tip.time
    ∧ c.db.getMedianTime p ≤ c.db.getMedianTime c.tip := by
  obtain ⟨c, hc, hheight⟩ := exists_reachable Small.env [.add 100 Small.first]
    (fun c => c.tip.height == 1) (by decide) (by decide +kernel)
  have hvisited := hc.visited Small.lawful
  have hgen : c.tip ≠ Small.env.genesisEntry := by
    intro heq
    rw [heq] at hheight
    cases hheight
  obtain ⟨p, hp, hlt, hle⟩ := (medianTime_monotone Small.lawful hvisited
    (hvisited.inv Small.lawful).tip_stored).1 hgen
  exact ⟨c, p, hvisited, hp, hlt, hle⟩

end Chain

end BitcoinNode

import BitcoinNode.Blockchain.MedianTime

/-!
# Deployments as a machine over windows

A deployment that starts at a time goes through its states from one confirmation window to the
next. What a window has to say is its last block's median time, how many of its blocks signal,
and the height it ends below. The loops of `get_deployment_status` compute one step of a machine
that activates one block later than it should.
-/

namespace BitcoinNode

/-- What a confirmation window says to the one after it; `next` is the height of its first block. -/
structure Period where
  medianTime : Nat
  signals : Nat
  next : Nat

/-- A deployment that starts at a time. -/
structure Rollout where
  start : Nat
  timeout : Timeout
  threshold : Nat
  minActivationHeight : Nat

namespace Rollout

variable {r : Rollout} {periods periods' : Nat → Period} {n : Nat}

def timedOut (r : Rollout) (p : Period) : Bool :=
  match r.timeout with
  | .timeout timeout => decide (timeout ≤ p.medianTime)
  | .noTimeout => false

/-- The state of a window, from that of the window before it. -/
def step (r : Rollout) (state : ThresholdState) (p : Period) : ThresholdState :=
  match state with
  | .defined =>
    if p.medianTime < r.start then .defined else if r.timedOut p then .failed else .started
  | .started =>
    if r.timedOut p then .failed else if r.threshold ≤ p.signals then .lockedIn else .started
  | .lockedIn => if r.minActivationHeight ≤ p.next then .active else .lockedIn
  | .failed => .failed
  | .active => .active

/-- The state after some windows; before the first one ends nothing has started. -/
def run (r : Rollout) (periods : Nat → Period) : Nat → ThresholdState
  | 0 => .defined
  | n + 1 => r.step (r.run periods n) (periods n)

theorem run_congr (h : ∀ i < n, periods i = periods' i) : r.run periods n = r.run periods' n := by
  induction n with
  | zero => rfl
  | succ n ih => rw [run, run, ih fun i hi => h i (by omega), h n (Nat.lt_succ_self n)]

theorem run_early (h : ∀ i < n, (periods i).medianTime < r.start) :
    r.run periods n = .defined := by
  induction n with
  | zero => rfl
  | succ n ih => rw [run, ih fun i hi => h i (by omega), step, if_pos (h n (Nat.lt_succ_self n))]

/-- The same deployment, activated from the next height on. -/
def later (r : Rollout) : Rollout := { r with minActivationHeight := r.minActivationHeight + 1 }

theorem step_later {state : ThresholdState} {p : Period} :
    r.later.step state p = if state = .lockedIn ∧ p.next = r.minActivationHeight then .lockedIn
      else r.step state p := by
  cases state <;> grind [step, later, timedOut]

/-- The window begins at the minimum height, and the one before it was locked in. -/
def Behind (r : Rollout) (periods : Nat → Period) : Nat → Prop
  | 0 => False
  | n + 1 => r.run periods n = .lockedIn ∧ (periods n).next = r.minActivationHeight

instance : DecidablePred (r.Behind periods)
  | 0 => inferInstanceAs (Decidable False)
  | n + 1 => inferInstanceAs (Decidable (r.run periods n = .lockedIn ∧ _))

theorem Behind.active (h : r.Behind periods n) : r.run periods n = .active := by
  cases n with
  | zero => exact h.elim
  | succ n => rw [run, h.1, step, if_pos h.2.ge]

/-- A deployment that activates later is behind in one window only, since the next one begins
above the minimum height. -/
theorem run_later (hnext : ∀ i, i + 1 < n → (periods i).next < (periods (i + 1)).next) :
    r.later.run periods n = if r.Behind periods n then .lockedIn else r.run periods n := by
  induction n with
  | zero => rfl
  | succ n ih =>
    rw [run, ih fun i hi => hnext i (by omega), step_later]
    by_cases hbehind : r.Behind periods n
    · have hactive := hbehind.active
      have habove : r.minActivationHeight < (periods n).next := by
        cases n with
        | zero => exact hbehind.elim
        | succ i => exact hbehind.2 ▸ hnext i (by omega)
      rw [if_pos hbehind, if_neg fun h => habove.ne' h.2, step, if_pos habove.le,
        if_neg (by simp [Behind, hactive]), run, hactive, step]
    · rw [if_neg hbehind]
      rfl

theorem run_later_eq_iff (hnext : ∀ i, i + 1 < n → (periods i).next < (periods (i + 1)).next) :
    r.later.run periods n = r.run periods n ↔ ¬ r.Behind periods n := by
  rw [run_later hnext]
  by_cases hbehind : r.Behind periods n
  · simp [hbehind, hbehind.active]
  · simp [hbehind]

end Rollout

def Deployment.rollout (env : Env) (deployment : Deployment) (start : Nat) : Rollout where
  start := start
  timeout := deployment.timeout
  threshold := env.network.ruleChangeActivationThreshold
  minActivationHeight := deployment.minActivationHeight

namespace ChainDB

variable {env : Env} {db db' : ChainDB} {tip e a b : ChainEntry} {bit i n : Nat}

/-- An entry and its ancestors, at most `n` of them. -/
def lastEntries (db : ChainDB) : Nat → ChainEntry → List ChainEntry
  | 0, _ => []
  | n + 1, e =>
    e :: match db.getEntryByHash e.prevBlock with
      | some p => lastEntries db n p
      | none => []

/-- What the window that ends with an entry says. -/
def period (env : Env) (db : ChainDB) (bit : Nat) (b : ChainEntry) : Period where
  medianTime := db.getMedianTime b
  signals := (db.lastEntries env.network.minerConfirmationWindow b).countP (·.hasBit bit)
  next := b.height + 1

/-- The last entry of a window on the branch of an entry. -/
def windowEnd (env : Env) (db : ChainDB) (e : ChainEntry) (i : Nat) : Option ChainEntry :=
  db.parentWalk (e.height + 1 - (i + 1) * env.network.minerConfirmationWindow) e

def periods (env : Env) (db : ChainDB) (bit : Nat) (e : ChainEntry) (i : Nat) : Period :=
  ((windowEnd env db e i).map (period env db bit)).getD ⟨0, 0, 0⟩

/-- How many windows have ended on the branch of an entry. -/
def windows (env : Env) (e : ChainEntry) : Nat :=
  (e.height + 1) / env.network.minerConfirmationWindow

section Windows

variable (tree : db.Tree env) (he : db.getEntryByHash e.hash = some e)

include tree he

theorem windowEnd_eq_some_iff (hi : i < windows env e) : windowEnd env db e i = some b ↔
    db.Ancestor e b ∧ b.height + 1 = (i + 1) * env.network.minerConfirmationWindow := by
  have hle : (i + 1) * env.network.minerConfirmationWindow ≤ e.height + 1 :=
    (Nat.le_div_iff_mul_le env.network.minerConfirmationWindow_pos).1 hi
  have hpos : 0 < (i + 1) * env.network.minerConfirmationWindow :=
    Nat.mul_pos (Nat.succ_pos i) env.network.minerConfirmationWindow_pos
  unfold windowEnd
  constructor
  · intro h
    have := tree.rooted.rank_climb he h
    exact ⟨Forest.ancestor_of_climb h, by omega⟩
  · rintro ⟨hanc, hheight⟩
    rw [show e.height + 1 - (i + 1) * env.network.minerConfirmationWindow = e.height - b.height by
      omega]
    exact tree.rooted.climb_of_ancestor he hanc

theorem exists_windowEnd : ∃ b, windowEnd env db e i = some b := by
  have hpos : 0 < (i + 1) * env.network.minerConfirmationWindow :=
    Nat.mul_pos (Nat.succ_pos i) env.network.minerConfirmationWindow_pos
  exact tree.rooted.exists_climb he (by omega)

/-- The windows of an ancestor are those of the entry. -/
theorem windowEnd_ancestor (hanc : db.Ancestor e a) (hi : i < windows env a) :
    windowEnd env db a i = windowEnd env db e i := by
  have ha := hanc.stored tree he
  have hle : windows env a ≤ windows env e := Nat.div_le_div_right
    (Nat.succ_le_succ (tree.rooted.rank_le_of_ancestor he hanc))
  obtain ⟨b, hb⟩ : ∃ b, windowEnd env db a i = some b := exists_windowEnd tree ha
  obtain ⟨hab, hheight⟩ := (windowEnd_eq_some_iff tree ha hi).1 hb
  rw [hb, (windowEnd_eq_some_iff tree he (hi.trans_le hle)).2 ⟨hanc.trans hab, hheight⟩]

theorem periods_ancestor (hanc : db.Ancestor e a) (hi : i < windows env a) :
    periods env db bit a i = periods env db bit e i := by
  rw [periods, periods, windowEnd_ancestor tree he hanc hi]

theorem next_periods (hi : i < windows env e) :
    (periods env db bit e i).next = (i + 1) * env.network.minerConfirmationWindow := by
  obtain ⟨b, hb⟩ : ∃ b, windowEnd env db e i = some b := exists_windowEnd tree he
  rw [periods, hb]
  exact ((windowEnd_eq_some_iff tree he hi).1 hb).2

theorem next_periods_lt (hi : i + 1 < windows env e) :
    (periods env db bit e i).next < (periods env db bit e (i + 1)).next := by
  rw [next_periods tree he hi, next_periods tree he (by omega)]
  exact Nat.mul_lt_mul_of_pos_right (Nat.lt_succ_self _) env.network.minerConfirmationWindow_pos

/-! ## The loops -/

/-- The counting loop does not run past the first entry, if a full window ends here. -/
theorem countSignals_eq {threshold count : Nat} (hn : n ≤ e.height)
    (hcount : 0 < n ∨ count < threshold) : db.countSignals bit threshold n e count =
      .ok (decide (threshold ≤ count + (db.lastEntries n e).countP (·.hasBit bit))) := by
  induction n generalizing e count with
  | zero =>
    have := hcount.resolve_left (lt_irrefl 0)
    simp [countSignals, lastEntries, this]
  | succ n ih =>
    obtain ⟨p, hp⟩ := tree.exists_parent he (by simp [ChainEntry.isGenesis]; omega)
    have hheight := tree.height_eq he hp
    rw [countSignals, lastEntries, hp, List.countP_cons]
    dsimp only
    generalize hrest : (db.lastEntries n p).countP (·.hasBit bit) = rest
    have hsum : count + (rest + if e.hasBit bit = true then 1 else 0)
        = (if e.hasBit bit = true then count + 1 else count) + rest := by
      split <;> omega
    rw [hsum]
    generalize (if e.hasBit bit = true then count + 1 else count) = count'
    by_cases hreached : count' ≥ threshold
    · rw [if_pos hreached, decide_eq_true (by omega)]
    · rw [if_neg hreached, ih (tree.self hp) (by omega) (.inr (by omega)), hrest]

/-- A boundary is one step of the machine that activates later. -/
theorem transition_eq {deployment : Deployment} {startTime : Nat} {state : ThresholdState}
    (hstart : startTime ≤ db.getMedianTime e)
    (hwindow : state = .started → env.network.minerConfirmationWindow ≤ e.height) :
    transition env db deployment startTime state e =
      .ok ((deployment.rollout env startTime).later.step state
        (period env db deployment.bit e)) := by
  have hmedian : ¬ (period env db deployment.bit e).medianTime
      < (deployment.rollout env startTime).later.start := hstart.not_gt
  cases state with
  | defined =>
    change Except.ok (if (deployment.rollout env startTime).later.timedOut
      (period env db deployment.bit e) = true then _ else _) = _
    rw [Rollout.step, if_neg hmedian, if_pos hstart]
  | started =>
    change (if (deployment.rollout env startTime).later.timedOut
      (period env db deployment.bit e) = true then _ else _) = _
    rw [Rollout.step, countSignals_eq tree he (hwindow rfl)
      (.inl env.network.minerConfirmationWindow_pos), Nat.zero_add, bind_of_ok rfl]
    by_cases htimedOut : (deployment.rollout env startTime).later.timedOut
        (period env db deployment.bit e)
    · rw [if_pos htimedOut, if_pos htimedOut]
    · rw [if_neg htimedOut, if_neg htimedOut]
      simp only [decide_eq_true_eq]
      rfl
  | lockedIn =>
    rw [Rollout.step]
    refine congrArg Except.ok (if_congr ?_ rfl rfl)
    exact Nat.succ_le_succ_iff.symm
  | failed => rfl
  | active => rfl

end Windows

/-! ## Later headers -/

section Mono

variable (law : env.Lawful) (tree : db.Tree env) (tree' : db'.Tree env)
  (hmono : ∀ hash e, db.getEntryByHash hash = some e → db'.getEntryByHash hash = some e)

include law tree tree' hmono

theorem lastEntries_mono {hash : BlockHash} (he : db.getEntryByHash hash = some e) :
    db'.lastEntries n e = db.lastEntries n e := by
  induction n generalizing e hash with
  | zero => rfl
  | succ n ih =>
    rw [lastEntries, lastEntries, parent_mono law tree tree' hmono he]
    cases hp : db.getEntryByHash e.prevBlock with
    | none => rfl
    | some p => simp only [ih hp]

/-- What the windows below a stored entry say does not depend on entries stored later. -/
theorem periods_mono (he : db.getEntryByHash e.hash = some e) (hi : i < windows env e) :
    periods env db' bit e i = periods env db bit e i := by
  obtain ⟨b, hb⟩ : ∃ b, windowEnd env db e i = some b := exists_windowEnd tree he
  have hb' : windowEnd env db' e i = some b := Forest.climb_mono hmono hb
  have hstored := ((windowEnd_eq_some_iff tree he hi).1 hb).1.stored tree he
  rw [periods, periods, hb, hb']
  simp only [Option.map_some, Option.getD_some, period,
    getMedianTime_mono law tree tree' hmono hstored, lastEntries_mono law tree tree' hmono hstored]

end Mono

/-! ## The state after an entry -/

/-- What the code takes the state of the window after an entry to be. -/
def stateAfter (env : Env) (db : ChainDB) (deployment : Deployment) (start : Nat)
    (e : ChainEntry) : ThresholdState :=
  (deployment.rollout env start).later.run (periods env db deployment.bit e) (windows env e)

variable {deployment : Deployment} {start : Nat}

theorem stateAfter_mono (law : env.Lawful) (tree : db.Tree env) (tree' : db'.Tree env)
    (hmono : ∀ hash e, db.getEntryByHash hash = some e → db'.getEntryByHash hash = some e)
    (he : db.getEntryByHash e.hash = some e) :
    stateAfter env db' deployment start e = stateAfter env db deployment start e :=
  Rollout.run_congr fun _ hi => periods_mono law tree tree' hmono he hi

/-- The state is that after the last entry of the window before. -/
theorem stateAfter_ancestor (tree : db.Tree env) (he : db.getEntryByHash e.hash = some e)
    (hanc : db.Ancestor e b) (hwindows : windows env b = windows env e) :
    stateAfter env db deployment start b = stateAfter env db deployment start e := by
  rw [stateAfter, hwindows]
  exact Rollout.run_congr fun _ hi => periods_ancestor tree he hanc (hwindows ▸ hi)

/-- The state after a boundary further down, from the windows of the entry. -/
theorem stateAfter_previous (tree : db.Tree env) (he : db.getEntryByHash e.hash = some e)
    (hanc : db.Ancestor e b) (hheight : b.height + 1 = n * env.network.minerConfirmationWindow) :
    stateAfter env db deployment start b =
      (deployment.rollout env start).later.run (periods env db deployment.bit e) n := by
  have hwindows : windows env b = n := by
    rw [windows, hheight, Nat.mul_div_cancel _ env.network.minerConfirmationWindow_pos]
  rw [stateAfter, hwindows]
  exact Rollout.run_congr fun _ hi => periods_ancestor tree he hanc (hwindows ▸ hi)

/-- Before the start time nothing has happened, since median time does not fall. -/
theorem stateAfter_early (tree : db.Tree env) (timely : db.Timely)
    (he : db.getEntryByHash e.hash = some e) (hearly : db.getMedianTime e < start) :
    stateAfter env db deployment start e = .defined := by
  refine Rollout.run_early fun i hi => ?_
  obtain ⟨b, hb⟩ : ∃ b, windowEnd env db e i = some b := exists_windowEnd tree he
  have hle := timely.getMedianTime_le he ((windowEnd_eq_some_iff tree he hi).1 hb).1
  rw [periods, hb]
  exact hle.trans_lt hearly

/-- The state after a boundary is one step from the state after the boundary before it. -/
theorem stateAfter_boundary (tree : db.Tree env) (he : db.getEntryByHash e.hash = some e)
    (hboundary : e.height + 1 = (n + 1) * env.network.minerConfirmationWindow) :
    stateAfter env db deployment start e =
      (deployment.rollout env start).later.step
        ((deployment.rollout env start).later.run (periods env db deployment.bit e) n)
        (period env db deployment.bit e) := by
  have hwindows : windows env e = n + 1 := by
    rw [windows, hboundary, Nat.mul_div_cancel _ env.network.minerConfirmationWindow_pos]
  have hend : windowEnd env db e n = some e :=
    (windowEnd_eq_some_iff tree he (by omega)).2 ⟨.refl, hboundary⟩
  rw [stateAfter, hwindows, Rollout.run]
  simp [periods, hend]

end ChainDB

end BitcoinNode

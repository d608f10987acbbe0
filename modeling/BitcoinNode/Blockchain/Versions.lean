import BitcoinNode.Blockchain.MedianTime

/-!
# Versions of stored headers

Every stored header but that of the genesis block was accepted by `add_header` on its parent. The
header check compares the activation heights with the height of the parent, the deployments with
that of the block, so they differ for the block at an activation height.
-/

namespace BitcoinNode

namespace DeploymentState

def hasBip66 (state : DeploymentState) : Bool :=
  state.scriptFlags.contains ScriptFlags.VERIFY_DERSIG

def hasCltv (state : DeploymentState) : Bool :=
  state.scriptFlags.contains ScriptFlags.VERIFY_CHECKLOCKTIMEVERIFY

end DeploymentState

namespace Chain

open ChainDB

variable {env : Env} {c : Chain} {e p : ChainEntry} {hash : BlockHash}

/-! ## The versions accepted -/

/-- The version a header must have for the rules in force for its block. -/
def RuledBy (state : DeploymentState) (version : Int32) : Prop :=
  (state.hasBip34 = true → 2 ≤ version) ∧ (state.hasBip66 = true → 3 ≤ version)
    ∧ (state.hasCltv = true → 4 ≤ version)

/-- The same at the heights at which the rules come into force. -/
def RuledAtActivation (network : NetworkParams) (height : Nat) (version : Int32) : Prop :=
  (height = network.bip34Height → 2 ≤ version) ∧ (height = network.bip66Height → 3 ≤ version)
    ∧ (height = network.bip65Height → 4 ≤ version)

theorem contains_shiftLeft (flags : ScriptFlags) (k : Nat) :
    ScriptFlags.contains flags (1 <<< k) = flags.testBit k := by
  rw [ScriptFlags.contains, Word.and_shiftLeft, Nat.one_shiftLeft]
  cases flags.testBit k <;> simp [(Nat.two_pow_pos k).ne]

theorem contains_or_shiftLeft {flags : ScriptFlags} {j k : Nat} (h : j ≠ k) :
    ScriptFlags.contains (flags ||| 1 <<< j) (1 <<< k) = ScriptFlags.contains flags (1 <<< k) := by
  rw [contains_shiftLeft, contains_shiftLeft, Nat.testBit_or, Nat.one_shiftLeft,
    Nat.testBit_two_pow_of_ne h, Bool.or_false]

/-- The deployments report a rule from its activation height on. -/
theorem heightDeployments_flags (network : NetworkParams) (time height : Nat) :
    (heightDeployments network time height).hasBip34 = decide (network.bip34Height ≤ height)
      ∧ (heightDeployments network time height).hasBip66 = decide (network.bip66Height ≤ height)
      ∧ (heightDeployments network time height).hasCltv =
        decide (network.bip65Height ≤ height) := by
  have hbit : ∀ (c : Prop) [Decidable c] (x k : Nat),
      (if c then x else 0).testBit k = (decide c && x.testBit k) := by
    intro c _ x k
    split_ifs with h <;> simp [h]
  refine ⟨rfl, ?_, ?_⟩
  · rw [DeploymentState.hasBip66, ScriptFlags.VERIFY_DERSIG, contains_shiftLeft]
    simp only [heightDeployments, Nat.testBit_or, hbit]
    simp [ScriptFlags.VERIFY_P2SH, ScriptFlags.VERIFY_DERSIG, ScriptFlags.VERIFY_WITNESS,
      ScriptFlags.VERIFY_CHECKLOCKTIMEVERIFY, ScriptFlags.VERIFY_CHECKSEQUENCEVERIFY,
      ScriptFlags.VERIFY_NULLDUMMY, Nat.testBit_eq_decide_div_mod_eq]
  · rw [DeploymentState.hasCltv, ScriptFlags.VERIFY_CHECKLOCKTIMEVERIFY, contains_shiftLeft]
    simp only [heightDeployments, Nat.testBit_or, hbit]
    simp [ScriptFlags.VERIFY_P2SH, ScriptFlags.VERIFY_DERSIG, ScriptFlags.VERIFY_WITNESS,
      ScriptFlags.VERIFY_CHECKLOCKTIMEVERIFY, ScriptFlags.VERIFY_CHECKSEQUENCEVERIFY,
      ScriptFlags.VERIFY_NULLDUMMY, Nat.testBit_eq_decide_div_mod_eq]

theorem getDeployments_flags {db : ChainDB} {time : Nat} {cache : VersionBitsCache}
    {state : DeploymentState} (h : db.getDeployments env time p = .ok (cache, state)) :
    state.hasBip34 = decide (env.network.bip34Height ≤ p.height + 1)
      ∧ state.hasBip66 = decide (env.network.bip66Height ≤ p.height + 1)
      ∧ state.hasCltv = decide (env.network.bip65Height ≤ p.height + 1) := by
  obtain ⟨h34, h66, h65⟩ := heightDeployments_flags env.network time (p.height + 1)
  unfold getDeployments at h
  split at h
  · cases h
  simp only [bind_eq_ok, pure_eq_ok, Prod.mk.injEq] at h
  obtain ⟨⟨_, active⟩, -, -, rfl⟩ := h
  dsimp only
  split_ifs
  · -- the bit of taproot is none of the three
    exact ⟨h34, (contains_or_shiftLeft (by decide)).trans h66,
      (contains_or_shiftLeft (by decide)).trans h65⟩
  · exact ⟨h34, h66, h65⟩

/-- Every stored header has a version for the rules in force for its block, exactly if the headers
at the activation heights have one. -/
theorem versions_ruled_iff (law : env.Lawful) (h : Visited env c) :
    (∀ e p time cache state, c.db.getEntryByHash e.hash = some e →
      c.db.getEntryByHash e.prevBlock = some p →
      c.db.getDeployments env time p = .ok (cache, state) → RuledBy state e.version) ↔
    ∀ e p time cache state, c.db.getEntryByHash e.hash = some e →
      c.db.getEntryByHash e.prevBlock = some p →
      c.db.getDeployments env time p = .ok (cache, state) →
      RuledAtActivation env.network e.height e.version := by
  have tree := (h.inv law).tree
  refine forall₅_congr fun e p time cache state => forall₃_congr fun he hp hstate => ?_
  obtain ⟨h34, h66, h65⟩ := getDeployments_flags hstate
  have hheight := tree.height_eq he hp
  rw [RuledBy, RuledAtActivation, h34, h66, h65, hheight]
  simp only [decide_eq_true_eq]
  refine ⟨fun hruled => ⟨fun hat => hruled.1 hat.ge, fun hat => hruled.2.1 hat.ge,
    fun hat => hruled.2.2 hat.ge⟩, fun hat => ?_⟩
  -- above the activation height the header check has refused an older version
  have hgen : e ≠ env.genesisEntry := by
    rintro rfl
    simp at hheight
  obtain ⟨c₁, c₂, now, prev, hc₁, hadd, hmono⟩ := h.accepted law he hgen
  rcases addHeader_eq_ok hadd with ⟨_, hr, -⟩ | ⟨_, _, _, _, hr, -, -, -, hprev, -, -, hcheck, -⟩
  · cases hr
  cases hr
  obtain rfl := Option.some.inj (hp.symm.trans (hmono _ _ hprev))
  obtain ⟨-, -, -, c34, c66, c65⟩ := contextualCheckBlockHeader_eq_ok hcheck
  refine ⟨fun hle => ?_, fun hle => ?_, fun hle => ?_⟩
  · rcases Nat.lt_or_eq_of_le hle with hlt | heq
    · exact c34 (Nat.le_of_lt_succ hlt)
    · exact hat.1 heq.symm
  · rcases Nat.lt_or_eq_of_le hle with hlt | heq
    · exact c66 (Nat.le_of_lt_succ hlt)
    · exact hat.2.1 heq.symm
  · rcases Nat.lt_or_eq_of_le hle with hlt | heq
    · exact c65 (Nat.le_of_lt_succ hlt)
    · exact hat.2.2 heq.symm

end Chain

/-! ## A header of version 1 at an activation height -/

namespace Small

/-- The small network with the rule of version 2 in force from the first block on. -/
def versioned : Env := { env with network := { network with bip34Height := 1 } }

theorem versioned_lawful : versioned.Lawful where
  blockHash_ne_zero _ := Nat.succ_ne_zero _
  work_pos _ _ := Nat.two_pos
  genesis_prev := rfl

def oldHeader : BlockHeader := { first.header with version := 1 }

end Small

namespace Chain

/-- Whether a stored header has a version below what the deployments of its block ask for. -/
def ruledOut (env : Env) (c : Chain) (hash : BlockHash) : Bool :=
  match c.db.getEntryByHash hash with
  | none => false
  | some e =>
    match c.db.getEntryByHash e.prevBlock with
    | none => false
    | some p =>
      match c.db.getDeployments env e.time p with
      | .ok (_, state) => state.hasBip34 && decide (e.version < 2)
      | .error _ => false

/-- The header at the activation height is accepted with version 1. -/
theorem exists_not_ruled : ∃ c, Visited Small.versioned c ∧ ∃ e p time cache state,
    c.db.getEntryByHash e.hash = some e ∧ c.db.getEntryByHash e.prevBlock = some p
      ∧ c.db.getDeployments Small.versioned time p = .ok (cache, state)
      ∧ ¬ RuledBy state e.version := by
  obtain ⟨c, hc, hP⟩ := exists_reachable Small.versioned [.addHeader 100 Small.oldHeader]
    (fun c => c.ruledOut Small.versioned (Small.blockHash Small.oldHeader)) (by decide)
    (by decide +kernel)
  have hvisited := hc.visited Small.versioned_lawful
  refine ⟨c, hvisited, ?_⟩
  unfold ruledOut at hP
  split at hP
  · cases hP
  rename_i e he
  split at hP
  · cases hP
  rename_i p hp
  split at hP
  · rename_i cache state hstate
    obtain ⟨h34, hversion⟩ := Bool.and_eq_true_iff.1 hP
    refine ⟨e, p, e.time, cache, state,
      (hvisited.inv Small.versioned_lawful).tree.self he, hp, hstate,
      fun hruled => ?_⟩
    exact Int32.not_lt.2 (hruled.1 h34) (of_decide_eq_true hversion)
  · cases hP

/-- The characterization on that chain. -/
theorem versions_ruled_iff_old : ∃ c, Visited Small.versioned c
    ∧ ((∀ e p time cache state, c.db.getEntryByHash e.hash = some e →
      c.db.getEntryByHash e.prevBlock = some p →
      c.db.getDeployments Small.versioned time p = .ok (cache, state) → RuledBy state e.version) ↔
    ∀ e p time cache state, c.db.getEntryByHash e.hash = some e →
      c.db.getEntryByHash e.prevBlock = some p →
      c.db.getDeployments Small.versioned time p = .ok (cache, state) →
      RuledAtActivation Small.versioned.network e.height e.version) := by
  obtain ⟨c, hc, -⟩ := exists_reachable Small.versioned [.addHeader 100 Small.oldHeader]
    (fun c => c.ruledOut Small.versioned (Small.blockHash Small.oldHeader)) (by decide)
    (by decide +kernel)
  have hvisited := hc.visited Small.versioned_lawful
  exact ⟨c, hvisited, versions_ruled_iff Small.versioned_lawful hvisited⟩

end Chain

end BitcoinNode

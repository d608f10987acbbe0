import BitcoinNode.Blockchain.Runs
import BitcoinNode.Library.Bytes

/-!
# What the counts of signature operations miss

The count of a script agrees with that of the network, except where a small integer and a key
count stand apart: data pushed between an `OP_1` to `OP_16` and the multisig opcode does not
reset the last opcode, so that fewer operations are counted. A redeem script is the last data
push, also where a small integer is pushed after it.
-/

namespace BitcoinNode.Script

variable {last code m : UInt8} {n : Nat} {before : Option Instruction} {instr : Instruction}
  {instrs rest : List (Option Instruction)} {pushes : List (List UInt8)}

/-! ## Counting as the network counts -/

/-- `OP_1` to `OP_16` -/
def IsSmallInt (code : UInt8) : Prop := OP_PUSHNUM_1 ≤ code ∧ code ≤ OP_PUSHNUM_16

def IsMultisig (code : UInt8) : Prop := code = OP_CHECKMULTISIG ∨ code = OP_CHECKMULTISIGVERIFY

instance : Decidable (IsSmallInt code) := by
  unfold IsSmallInt
  infer_instance

instance : Decidable (IsMultisig code) := by
  unfold IsMultisig
  infer_instance

/-- What an instruction adds to the count, given the instruction immediately before it. -/
def consensusSigOps (accurate : Bool) (before : Option Instruction) : Instruction → Nat
  | .pushBytes _ => 0
  | .op code =>
    if code = OP_CHECKSIG ∨ code = OP_CHECKSIGVERIFY then 1
    else if IsMultisig code then
      match before with
      | some (.op k) => if accurate ∧ IsSmallInt k then k.toNat - 0x50 else 20
      | _ => 20
    else 0

/-- The fold over the instructions up to the first parse error. -/
def consensusCount (accurate : Bool) : List (Option Instruction) → Option Instruction → Nat
  | [], _ => 0
  | none :: _, _ => 0
  | some instr :: rest, before =>
    consensusSigOps accurate before instr + consensusCount accurate rest (some instr)

def consensusSigOpCount (env : Env) (script : Script) (accurate : Bool) : Nat :=
  consensusCount accurate (env.instructions script) none

/-- Before the first parse error there is a multisig opcode right behind data pushes, and
right before these a small integer. -/
inductive SmallIntHidden : List (Option Instruction) → Prop where
  | here {k m : UInt8} {pushes : List (List UInt8)} {rest : List (Option Instruction)} :
      IsSmallInt k → pushes ≠ [] → IsMultisig m →
      SmallIntHidden (some (.op k) :: (pushes.map (some ∘ .pushBytes) ++ some (.op m) :: rest))
  | later {instr : Instruction} {rest : List (Option Instruction)} :
      SmallIntHidden rest → SmallIntHidden (some instr :: rest)

theorem smallIntHidden_pushes :
    SmallIntHidden (pushes.map (some ∘ .pushBytes) ++ rest) ↔ SmallIntHidden rest := by
  induction pushes with
  | nil => rfl
  | cons bytes pushes ih =>
    rw [List.map_cons, List.cons_append, ← ih]
    refine ⟨fun h => ?_, .later⟩
    cases h with
    | later h => exact h

theorem pushes_append_inj {pushes' : List (List UInt8)} {rest' : List (Option Instruction)}
    (h : pushes.map (some ∘ .pushBytes) ++ some (.op code) :: rest
      = pushes'.map (some ∘ .pushBytes) ++ some (.op m) :: rest') :
    pushes = pushes' ∧ code = m := by
  induction pushes generalizing pushes' with
  | nil => cases pushes' <;> grind
  | cons bytes pushes ih =>
    cases pushes' with
    | nil => grind
    | cons bytes' pushes' => grind

/-- The opcode read next, after an opcode and some pushes. -/
theorem smallIntHidden_op :
    SmallIntHidden
        (some (.op last) :: (pushes.map (some ∘ .pushBytes) ++ some (.op code) :: rest)) ↔
      IsSmallInt last ∧ pushes ≠ [] ∧ IsMultisig code
        ∨ SmallIntHidden (some (.op code) :: rest) := by
  constructor
  · generalize hlist : pushes.map (some ∘ .pushBytes) ++ some (.op code) :: rest = list
    intro h
    cases h with
    | here hk hpushes hm =>
      obtain ⟨rfl, rfl⟩ := pushes_append_inj hlist
      exact .inl ⟨hk, hpushes, hm⟩
    | later h => exact .inr (smallIntHidden_pushes.1 (hlist ▸ h))
  · rintro (⟨hk, hpushes, hm⟩ | h)
    · exact .here hk hpushes hm
    · exact .later (smallIntHidden_pushes.2 h)

/-- After an opcode and some pushes nothing hides in what ends or does not parse. -/
theorem not_smallIntHidden_end (h : ∀ instr rest', rest ≠ some instr :: rest') :
    ¬ SmallIntHidden (some (.op last) :: (pushes.map (some ∘ .pushBytes) ++ rest)) := by
  have hrest : ¬ SmallIntHidden rest := by
    intro hidden
    cases hidden with
    | here => exact h _ _ rfl
    | later => exact h _ _ rfl
  generalize hlist : pushes.map (some ∘ .pushBytes) ++ rest = list
  intro hidden
  cases hidden with
  | @here k m pushes' rest' hk hne hm =>
    clear hne
    induction pushes generalizing pushes' with
    | nil =>
      cases pushes' with
      | nil => exact h _ _ hlist
      | cons bytes' pushes' => exact h _ _ hlist
    | cons bytes pushes ih =>
      cases pushes' with
      | nil => cases hlist
      | cons bytes' pushes' => exact ih (List.cons.inj hlist).2
  | later hidden => exact hrest (smallIntHidden_pushes.1 (hlist ▸ hidden))

/-! ## Both counts -/

theorem countSigOps_add {accurate : Bool} :
    countSigOps accurate instrs last n = n + countSigOps accurate instrs last 0 := by
  induction instrs generalizing last n with
  | nil => rfl
  | cons instr instrs ih =>
    match instr with
    | none => rfl
    | some (.pushBytes bytes) => exact ih
    | some (.op code) =>
      rw [countSigOps, countSigOps, ih, @ih _ (0 + _)]
      omega

theorem sigOps_eq {accurate : Bool} : sigOps accurate last code =
    if code = OP_CHECKSIG ∨ code = OP_CHECKSIGVERIFY then 1
    else if IsMultisig code then
      if accurate ∧ IsSmallInt last then last.toNat - 0x50 else MAX_PUBKEYS_PER_MULTISIG
    else 0 := by
  simp only [sigOps, IsMultisig, IsSmallInt, Bool.or_eq_true, Bool.and_eq_true, beq_iff_eq,
    decide_eq_true_eq, and_assoc]
  congr

theorem sigOps_false : sigOps false last code = consensusSigOps false before (.op code) := by
  match before with
  | none | some (.pushBytes _) | some (.op _) =>
    simp [sigOps_eq, consensusSigOps, MAX_PUBKEYS_PER_MULTISIG]

/-- Without the accurate flag the counts agree. -/
theorem countSigOps_false :
    countSigOps false instrs last n = n + consensusCount false instrs before := by
  induction instrs generalizing last n before with
  | nil => rfl
  | cons instr instrs ih =>
    match instr with
    | none => rfl
    | some (.pushBytes bytes) =>
      rw [countSigOps, consensusCount, consensusSigOps, Nat.zero_add]
      exact ih
    | some (.op code) =>
      rw [countSigOps, consensusCount, @ih _ _ (some (.op code)), Nat.add_assoc, sigOps_false]

/-- What the opcode adds right behind another one. -/
theorem sigOps_adjacent :
    sigOps true last code = consensusSigOps true (some (.op last)) (.op code) := by
  rw [sigOps_eq, consensusSigOps]
  rfl

/-- What it adds behind a push is less only if the opcode before the push is a small integer. -/
theorem sigOps_apart {bytes : List UInt8} :
    sigOps true last code ≤ consensusSigOps true (some (.pushBytes bytes)) (.op code)
      ∧ (sigOps true last code = consensusSigOps true (some (.pushBytes bytes)) (.op code) ↔
        ¬ (IsSmallInt last ∧ IsMultisig code)) := by
  rw [sigOps_eq, MAX_PUBKEYS_PER_MULTISIG]
  dsimp only [consensusSigOps]
  have hsmall : IsSmallInt last → last.toNat - 0x50 < 20 := fun h => by
    have : last.toNat ≤ 0x60 := UInt8.le_iff_toNat_le.1 h.2
    omega
  have hcheck : IsMultisig code → ¬ (code = OP_CHECKSIG ∨ code = OP_CHECKSIGVERIFY) := by
    rintro (rfl | rfl) <;> decide
  grind

/-- The counts after an opcode and some pushes. -/
theorem countSigOps_spec (hbefore : before = some (.op last) ∧ pushes = []
      ∨ pushes ≠ [] ∧ ∃ bytes, before = some (.pushBytes bytes)) :
    countSigOps true instrs last 0 ≤ consensusCount true instrs before
      ∧ (countSigOps true instrs last 0 = consensusCount true instrs before ↔
        ¬ SmallIntHidden (some (.op last) :: (pushes.map (some ∘ .pushBytes) ++ instrs))) := by
  induction instrs generalizing last pushes before with
  | nil =>
    have hend := @not_smallIntHidden_end last [] pushes nofun
    exact ⟨le_rfl, fun _ => hend, fun _ => rfl⟩
  | cons instr instrs ih =>
    match instr with
    | none =>
      have hend := @not_smallIntHidden_end last (none :: instrs) pushes nofun
      exact ⟨le_rfl, fun _ => hend, fun _ => rfl⟩
    | some (.pushBytes bytes) =>
      rw [countSigOps, consensusCount, consensusSigOps, Nat.zero_add]
      have hpush := @ih last (some (.pushBytes bytes)) (pushes ++ [bytes])
        (.inr ⟨by simp, bytes, rfl⟩)
      simpa using hpush
    | some (.op code) =>
      obtain ⟨hle, heq⟩ := @ih code (some (.op code)) [] (.inl ⟨rfl, rfl⟩)
      rw [countSigOps, consensusCount, countSigOps_add, Nat.zero_add, smallIntHidden_op, not_or]
      rcases hbefore with ⟨rfl, rfl⟩ | ⟨hne, bytes, rfl⟩
      · rw [sigOps_adjacent, Nat.add_left_cancel_iff]
        exact ⟨Nat.add_le_add_left hle _, by simpa using heq⟩
      · obtain ⟨hle', heq'⟩ := @sigOps_apart last code bytes
        refine ⟨Nat.add_le_add hle' hle, ?_⟩
        rw [List.map_nil, List.nil_append] at heq
        rw [← heq]
        grind

/-- A small integer in front starts nothing unless it is one. -/
theorem smallIntHidden_cons (h : ¬ IsSmallInt last) :
    SmallIntHidden (some (.op last) :: instrs) ↔ SmallIntHidden instrs := by
  refine ⟨fun hidden => ?_, .later⟩
  cases hidden with
  | here hk => exact absurd hk h
  | later hidden => exact hidden

theorem consensusCount_start : consensusCount true instrs none =
    consensusCount true instrs (some (.op OP_RETURN_255)) := by
  match instrs with
  | [] | none :: _ | some (.pushBytes _) :: _ => rfl
  | some (.op code) :: rest =>
    have hreturn : ¬ IsSmallInt OP_RETURN_255 := by decide
    simp only [consensusCount, consensusSigOps, hreturn, and_false, if_false]

/-- The count is that of the network, unless the accurate count meets a small integer that
stands apart from its multisig opcode. -/
theorem getSigOpCount_eq_iff (env : Env) (script : Script) (accurate : Bool) :
    getSigOpCount env script accurate = consensusSigOpCount env script accurate ↔
      accurate = false ∨ ¬ SmallIntHidden (env.instructions script) := by
  rw [getSigOpCount, consensusSigOpCount]
  cases accurate with
  | false => exact iff_of_true (countSigOps_false.trans (Nat.zero_add _)) (.inl rfl)
  | true =>
    obtain ⟨-, heq⟩ := @countSigOps_spec OP_RETURN_255 _ (env.instructions script) []
      (.inl ⟨rfl, rfl⟩)
    rw [consensusCount_start, heq, List.map_nil, List.nil_append, smallIntHidden_cons (by decide)]
    simp

end BitcoinNode.Script

/-! ## Reading scripts -/

namespace BitcoinNode.Small

/-- The instructions of a script: data pushes with their length in the opcode or behind it,
and other opcodes. A push that is cut off is an error. -/
def parse : Nat → List UInt8 → List (Option Instruction)
  | 0, _ => []
  | _, [] => []
  | fuel + 1, code :: bytes =>
    let width := if code = 0x4c then 1 else if code = 0x4d then 2 else if code = 0x4e then 4 else 0
    if 0x4e < code then some (.op code) :: parse fuel bytes
    else if bytes.length < width then [none]
    else
      let size := if width = 0 then code.toNat else Bytes.ofLe (bytes.take width)
      let rest := bytes.drop width
      if rest.length < size then [none]
      else some (.pushBytes (rest.take size)) :: parse fuel (rest.drop size)

def instructions (script : Script) : List (Option Instruction) := parse script.length script

/-- The small network with scripts that are read. -/
def scripted : Env := { env with instructions := instructions }

end BitcoinNode.Small

namespace BitcoinNode.Script

variable {instrs : List (Option Instruction)}

/-- `OP_1`, a push of one byte and `OP_CHECKMULTISIG` count 1 in place of 20. -/
theorem getSigOpCount_ne_consensus :
    getSigOpCount Small.scripted [0x51, 0x01, 0xaa, 0xae] true = 1
      ∧ consensusSigOpCount Small.scripted [0x51, 0x01, 0xaa, 0xae] true = 20 := by
  decide

/-! ## The redeem script -/

def OP_PUSHNUM_NEG1 : UInt8 := 0x4f

/-- The item an instruction leaves on top of the stack. -/
def topItem : Instruction → Option (List UInt8)
  | .pushBytes bytes => some bytes
  | .op code =>
    if code = OP_PUSHNUM_NEG1 then some [0x81]
    else if IsSmallInt code then some [code - 0x50]
    else none

/-- An instruction that is allowed in a script signature that only pushes. -/
def isPush : Option Instruction → Bool
  | none => false
  | some (.pushBytes _) => true
  | some (.op code) => decide (code ≤ OP_PUSHNUM_16)

/-- The redeem script that is executed: what the last operation pushes. -/
def redeemItem (instrs : List (Option Instruction)) : Option Script :=
  if instrs.all isPush then instrs.getLast?.join.bind topItem else none

def dataPush : Option Instruction → Option (List UInt8)
  | some (.pushBytes bytes) => some bytes
  | _ => none

/-- An opcode at the end leaves what the last data push has pushed. -/
def LastIsData (instrs : List (Option Instruction)) : Prop :=
  ∀ code, instrs.getLast? = some (some (.op code)) →
    (instrs.filterMap dataPush).getLast? = topItem (.op code)

def executedSigOps (env : Env) (scriptSig : Script) : Nat :=
  match redeemItem (env.instructions scriptSig) with
  | some redeemScript => getSigOpCount env redeemScript true
  | none => 0

def executedWitnessSigOps (env : Env) (scriptSig : Script) (witness : List (List UInt8)) : Nat :=
  match (redeemItem (env.instructions scriptSig)).bind (getWitnessProgram env) with
  | some (version, program) => witnessSigOpCount env version program witness
  | none => 0

/-- The loop keeps the last data push of a script that only pushes. -/
theorem lastPush_eq {data : Option Script} : lastPush instrs data =
    if instrs.all isPush then (instrs.filterMap dataPush).getLast?.or data else none := by
  induction instrs generalizing data with
  | nil => rfl
  | cons instr instrs ih =>
    match instr with
    | none => rfl
    | some (.pushBytes bytes) =>
      have hlast : ∀ rest : List (List UInt8),
          (bytes :: rest).getLast? = rest.getLast?.or (some bytes) := by
        intro rest
        rw [List.getLast?_cons]
        cases rest.getLast? <;> rfl
      rw [lastPush, ih, @List.filterMap_cons_some _ _ dataPush _ _ bytes rfl, hlast]
      simp [isPush]
    | some (.op code) =>
      rw [lastPush, ih, List.filterMap_cons_none rfl, List.all_cons, isPush]
      by_cases hcode : code ≤ OP_PUSHNUM_16
      · rw [if_neg (UInt8.not_lt.2 hcode), decide_eq_true hcode, Bool.true_and]
      · rw [if_pos (UInt8.not_le.1 hcode), decide_eq_false hcode]
        rfl

theorem getLast?_dataPush {bytes : List UInt8}
    (h : instrs.getLast? = some (some (.pushBytes bytes))) :
    (instrs.filterMap dataPush).getLast? = some bytes := by
  obtain ⟨before, rfl⟩ := List.getLast?_eq_some_iff.1 h
  simp [dataPush]

theorem getRedeemScript_eq_iff {env : Env} {scriptSig : Script} :
    getRedeemScript env scriptSig = redeemItem (env.instructions scriptSig) ↔
      ((env.instructions scriptSig).all isPush = true
      → LastIsData (env.instructions scriptSig)) := by
  rw [getRedeemScript, lastPush_eq, redeemItem, LastIsData]
  generalize env.instructions scriptSig = instrs
  by_cases hpush : instrs.all isPush = true
  · rw [if_pos hpush, if_pos hpush, Option.or_none]
    cases hlast : instrs.getLast? with
    | none => simp [List.getLast?_eq_none_iff.1 hlast]
    | some instr =>
      match instr with
      | none =>
        have hmem := List.all_eq_true.1 hpush _ (List.mem_of_getLast? hlast)
        cases hmem
      | some (.pushBytes bytes) => simp [getLast?_dataPush hlast, topItem]
      | some (.op code) => simp [hpush]
  · simp [hpush]

/-- The redeem script is what the last operation pushes, and the counts are those of that
script, unless an opcode at the end pushes something else than the last data push. -/
theorem redeemScript_executed_iff (env : Env) (scriptSig : Script) :
    (getRedeemScript env scriptSig = redeemItem (env.instructions scriptSig)
      ∧ ∀ script witness, env.isP2sh script = true →
        getP2shSigOpCount env script scriptSig = executedSigOps env scriptSig
          ∧ (getWitnessProgram env script = none → getWitnessSigOpCount env script scriptSig witness
            = executedWitnessSigOps env scriptSig witness)) ↔
      ((env.instructions scriptSig).all isPush = true
      → LastIsData (env.instructions scriptSig)) := by
  rw [← getRedeemScript_eq_iff]
  refine ⟨And.left, fun heq => ⟨heq, fun script witness hp2sh => ⟨?_, fun hprogram => ?_⟩⟩⟩
  · rw [getP2shSigOpCount, heq, hp2sh]
    rfl
  · rw [getWitnessSigOpCount, hprogram, heq]
    simp only [hp2sh, if_true]
    rfl

/-- `OP_1` after a push of other bytes: the number is not what is taken as redeem script. -/
theorem redeemScript_not_executed : getRedeemScript Small.scripted [0x01, 0xac, 0x51] = some [0xac]
    ∧ redeemItem (Small.scripted.instructions [0x01, 0xac, 0x51]) = some [0x01] := by
  decide

end BitcoinNode.Script

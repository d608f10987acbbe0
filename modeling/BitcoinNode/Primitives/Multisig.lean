import BitcoinNode.Primitives.SigOps

/-!
# Bare multisig scripts

`is_multisig` of `primitives/script.rs` reads the first byte and the last two of a script,
and the instructions after the first. It does not check that the keys end where the last two
bytes begin.
-/

namespace BitcoinNode

namespace Script

/-- The number of `OP_1` to `OP_16` -/
def readSmallInt (byte : UInt8) : Option UInt8 :=
  if OP_PUSHNUM_1 ≤ byte ∧ byte ≤ OP_PUSHNUM_16 then some (byte - 0x50) else none

/-- The loop of `is_multisig`: the keys counted, unless an instruction is something else. -/
def countKeys : List (Option Instruction) → Nat → Option Nat
  | [], keys => some keys
  | some (.pushBytes bytes) :: instrs, keys =>
    if bytes.length = 33 ∨ bytes.length = 65 then countKeys instrs (keys + 1) else none
  | _, _ => none

def isMultisig (env : Env) (script : Script) : Bool :=
  if script.length < 3 ∨ script[script.length - 1]? ≠ some OP_CHECKMULTISIG then false
  else
    match script[0]?.bind readSmallInt with
    | none => false
    | some m =>
      match script[script.length - 2]?.bind readSmallInt with
      | none => false
      | some n =>
        if m > n then false
        else countKeys (((env.instructions script).drop 1).take n.toNat) 0 == some n.toNat

/-! ## The grammar -/

/-- The bytes that push data: its length in one byte, or behind one of the opcodes that say
how many bytes the length takes. -/
inductive DataPush (data : List UInt8) : List UInt8 → Prop where
  | direct : data.length < 0x4c → DataPush data (UInt8.ofNat data.length :: data)
  | pushData1 : data.length < 256 → DataPush data (0x4c :: (Bytes.le 1 data.length ++ data))
  | pushData2 : data.length < 256 ^ 2 → DataPush data (0x4d :: (Bytes.le 2 data.length ++ data))
  | pushData4 : data.length < 256 ^ 4 → DataPush data (0x4e :: (Bytes.le 4 data.length ++ data))

/-- The opcode of a number from 1 to 16 -/
def opNum (n : Nat) : UInt8 := UInt8.ofNat (0x50 + n)

/-- Bytes that push keys one after the other. -/
inductive KeyPushes : List (List UInt8) → List UInt8 → Prop where
  | nil : KeyPushes [] []
  | cons {key encoding bytes : List UInt8} {keys : List (List UInt8)} :
      key.length = 33 ∨ key.length = 65 → DataPush key encoding → KeyPushes keys bytes →
      KeyPushes (key :: keys) (encoding ++ bytes)

/-- `OP_m`, `n` keys, `OP_n` and `OP_CHECKMULTISIG`, and nothing else -/
def BareMultisig (script : Script) : Prop :=
  ∃ m keys body, 1 ≤ m ∧ m ≤ keys.length ∧ keys.length ≤ 16 ∧ KeyPushes keys body
    ∧ script = opNum m :: (body ++ [opNum keys.length, OP_CHECKMULTISIG])

/-- A script that begins and ends like one, and begins with the keys. -/
structure Looks (script : Script) (m : Nat) (keys : List (List UInt8)) (body rest : List UInt8) :
    Prop where
  pos : 1 ≤ m
  le : m ≤ keys.length
  bound : keys.length ≤ 16
  pushes : KeyPushes keys body
  eq : script = opNum m :: (body ++ rest)
  length : 3 ≤ script.length
  count : script[script.length - 2]? = some (opNum keys.length)
  last : script[script.length - 1]? = some OP_CHECKMULTISIG

/-- The keys of a script that looks like one end where its last two bytes begin. -/
def KeysEnd (script : Script) : Prop :=
  ∀ m keys body rest, Looks script m keys body rest → rest.length = 2

end Script

/-- How the library reads scripts: opcodes above those of data pushes stand for themselves,
and each of the others pushes the bytes behind it. -/
structure Env.Parses (env : Env) : Prop where
  nil_iff {bytes : Script} : env.instructions bytes = [] ↔ bytes = []
  op_iff {bytes : Script} {code : UInt8} {instrs : List (Option Instruction)} :
    env.instructions bytes = some (.op code) :: instrs ↔
      0x4e < code ∧ ∃ rest, bytes = code :: rest ∧ env.instructions rest = instrs
  push_iff {bytes : Script} {data : List UInt8} {instrs : List (Option Instruction)} :
    env.instructions bytes = some (.pushBytes data) :: instrs ↔
      ∃ encoding rest, Script.DataPush data encoding ∧ bytes = encoding ++ rest
        ∧ env.instructions rest = instrs

namespace Script

variable {env : Env} {script bytes body rest : Script} {keys : List (List UInt8)}
  {instrs : List (Option Instruction)} {byte code : UInt8} {m n : Nat}

/-! ## What is read -/

theorem toNat_opNum (h : n ≤ 16) : (opNum n).toNat = 0x50 + n := by
  rw [opNum, UInt8.toNat_ofNat']
  omega

theorem opNum_inj (hm : m ≤ 16) (hn : n ≤ 16) (h : opNum m = opNum n) : m = n := by
  have htoNat := congrArg UInt8.toNat h
  rw [toNat_opNum hm, toNat_opNum hn] at htoNat
  omega

theorem lt_opNum (h : 1 ≤ n) (h' : n ≤ 16) : 0x4e < opNum n := by
  rw [UInt8.lt_iff_toNat_lt, toNat_opNum h']
  change 78 < _
  omega

theorem readSmallInt_eq_some :
    readSmallInt byte = some code ↔ 1 ≤ code.toNat ∧ code.toNat ≤ 16 ∧ byte = opNum code.toNat := by
  unfold readSmallInt OP_PUSHNUM_1 OP_PUSHNUM_16
  rw [Option.ite_none_right_eq_some, Option.some.injEq, UInt8.le_iff_toNat_le,
    UInt8.le_iff_toNat_le]
  change (81 ≤ byte.toNat ∧ byte.toNat ≤ 96) ∧ byte - 80 = code ↔ _
  constructor
  · rintro ⟨hrange, rfl⟩
    have hsub : (byte - 80).toNat = byte.toNat - 80 :=
      UInt8.toNat_sub_of_le _ _ (UInt8.le_iff_toNat_le.2 (by change 80 ≤ _; omega))
    refine ⟨by omega, by omega, UInt8.toNat_inj.1 ?_⟩
    rw [toNat_opNum (by omega)]
    omega
  · rintro ⟨hpos, hle, rfl⟩
    rw [toNat_opNum hle]
    refine ⟨by omega, UInt8.toNat_inj.1 ?_⟩
    rw [UInt8.toNat_sub_of_le _ _ (UInt8.le_iff_toNat_le.2 (by
      rw [toNat_opNum hle]; change 80 ≤ _; omega)), toNat_opNum hle]
    change 80 + _ - 80 = _
    omega

theorem countKeys_eq_some : countKeys instrs n = some m ↔ ∃ keys : List (List UInt8),
    instrs = keys.map (some ∘ .pushBytes)
      ∧ (∀ key ∈ keys, key.length = 33 ∨ key.length = 65) ∧ m = n + keys.length := by
  induction instrs generalizing n with
  | nil =>
    rw [countKeys, Option.some.injEq]
    constructor
    · rintro rfl
      exact ⟨[], rfl, by simp, rfl⟩
    · rintro ⟨keys, hkeys, -, rfl⟩
      rw [List.map_eq_nil_iff.1 hkeys.symm]
      rfl
  | cons instr instrs ih =>
    match instr with
    | none =>
      refine iff_of_false nofun ?_
      rintro ⟨_ | ⟨key, keys⟩, hkeys, -⟩ <;> cases hkeys
    | some (.op code) =>
      refine iff_of_false nofun ?_
      rintro ⟨_ | ⟨key, keys⟩, hkeys, -⟩ <;> cases hkeys
    | some (.pushBytes bytes) =>
      rw [countKeys]
      constructor
      · intro h
        split at h
        · obtain ⟨keys, rfl, hsizes, rfl⟩ := ih.1 h
          refine ⟨bytes :: keys, rfl, List.forall_mem_cons.2 ⟨‹_›, hsizes⟩, ?_⟩
          rw [List.length_cons]
          omega
        · cases h
      · rintro ⟨_ | ⟨key, keys⟩, hkeys, hsizes, rfl⟩
        · cases hkeys
        · obtain ⟨hkey, hrest⟩ := List.cons.inj hkeys
          cases hkey
          rw [List.forall_mem_cons] at hsizes
          rw [if_pos hsizes.1, ih]
          refine ⟨keys, hrest, hsizes.2, ?_⟩
          rw [List.length_cons]
          omega

theorem KeyPushes.sizes (h : KeyPushes keys body) :
    ∀ key ∈ keys, key.length = 33 ∨ key.length = 65 := by
  induction h with
  | nil => simp
  | cons hkey _ _ ih => exact List.forall_mem_cons.2 ⟨hkey, ih⟩

/-- The pushes of keys are read as the keys. -/
theorem instructions_append (law : env.Parses) (h : KeyPushes keys body) (rest : Script) :
    env.instructions (body ++ rest)
      = keys.map (some ∘ .pushBytes) ++ env.instructions rest := by
  induction h with
  | nil => rfl
  | cons _ hpush _ ih =>
    rw [List.append_assoc, List.map_cons, List.cons_append, ← ih]
    exact law.push_iff.2 ⟨_, _, hpush, rfl, rfl⟩

/-- What is read as keys pushes them. -/
theorem exists_keyPushes (law : env.Parses)
    (hsizes : ∀ key ∈ keys, key.length = 33 ∨ key.length = 65)
    (h : env.instructions bytes = keys.map (some ∘ .pushBytes) ++ instrs) :
    ∃ body rest, KeyPushes keys body ∧ bytes = body ++ rest ∧ env.instructions rest = instrs := by
  induction keys generalizing bytes with
  | nil => exact ⟨[], bytes, .nil, rfl, h⟩
  | cons key keys ih =>
    rw [List.forall_mem_cons] at hsizes
    obtain ⟨encoding, tail, hpush, rfl, htail⟩ := law.push_iff.1 h
    obtain ⟨body, rest, hpushes, rfl, hrest⟩ := ih hsizes.2 htail
    exact ⟨encoding ++ body, rest, .cons hsizes.1 hpush hpushes, by rw [List.append_assoc], hrest⟩

theorem toNat_ofNat_le (hn : n ≤ 16) : (UInt8.ofNat n).toNat = n := by
  rw [UInt8.toNat_ofNat']
  omega

theorem readSmallInt_opNum (hpos : 1 ≤ n) (hn : n ≤ 16) :
    readSmallInt (opNum n) = some (UInt8.ofNat n) := by
  rw [readSmallInt_eq_some, toNat_ofNat_le hn]
  exact ⟨hpos, hn, rfl⟩

/-- A script that is recognised looks like one. -/
theorem exists_looks (law : env.Parses) (h : isMultisig env script = true) :
    ∃ m keys body rest, Looks script m keys body rest := by
  unfold isMultisig at h
  split at h
  · cases h
  rename_i hends
  obtain ⟨hlength, hlast⟩ := not_or.1 hends
  split at h
  · cases h
  rename_i m hm
  split at h
  · cases h
  rename_i n hn
  split at h
  · cases h
  rename_i hmn
  obtain ⟨first, hfirst, hm⟩ := Option.bind_eq_some_iff.1 hm
  obtain ⟨second, hsecond, hn⟩ := Option.bind_eq_some_iff.1 hn
  obtain ⟨hpos, hm16, rfl⟩ := readSmallInt_eq_some.1 hm
  obtain ⟨-, hn16, rfl⟩ := readSmallInt_eq_some.1 hn
  obtain ⟨tail, rfl⟩ : ∃ tail, script = opNum m.toNat :: tail := by
    cases script with
    | nil => cases hfirst
    | cons byte tail => exact ⟨tail, by rw [Option.some.inj hfirst]⟩
  have hinstrs := law.op_iff.2 ⟨lt_opNum hpos hm16, tail, rfl, rfl⟩
  rw [hinstrs, List.drop_succ_cons, List.drop_zero, beq_iff_eq, countKeys_eq_some] at h
  obtain ⟨keys, htake, hsizes, hcount⟩ := h
  rw [Nat.zero_add] at hcount
  have hsplit := List.take_append_drop n.toNat (env.instructions tail)
  rw [htake] at hsplit
  obtain ⟨body, rest, hpushes, rfl, -⟩ := exists_keyPushes law hsizes hsplit.symm
  refine ⟨m.toNat, keys, body, rest, hpos, ?_, by omega, hpushes, rfl, by omega, ?_, ?_⟩
  · rw [← hcount]
    exact UInt8.le_iff_toNat_le.1 (UInt8.not_lt.1 hmn)
  · rw [hsecond, hcount]
  · exact not_not.1 hlast

/-- A script that looks like one is recognised. -/
theorem Looks.isMultisig (law : env.Parses) (h : Looks script m keys body rest) :
    isMultisig env script = true := by
  have hn : 1 ≤ keys.length := h.pos.trans h.le
  have hm : m ≤ 16 := h.le.trans h.bound
  have hfirst : script[0]? = some (opNum m) := by
    rw [h.eq]
    rfl
  have hinstrs : env.instructions script
      = some (.op (opNum m)) :: (keys.map (some ∘ .pushBytes) ++ env.instructions rest) :=
    law.op_iff.2 ⟨lt_opNum h.pos hm, _, h.eq, instructions_append law h.pushes rest⟩
  have htake : (keys.map (some ∘ Instruction.pushBytes) ++ env.instructions rest).take keys.length
      = keys.map (some ∘ .pushBytes) := List.take_left' (List.length_map _)
  have hcount : countKeys (keys.map (some ∘ .pushBytes)) 0 = some keys.length :=
    countKeys_eq_some.2 ⟨keys, rfl, h.pushes.sizes, (Nat.zero_add _).symm⟩
  unfold Script.isMultisig
  rw [if_neg (not_or.2 ⟨Nat.not_lt.2 h.length, not_not.2 h.last⟩), hfirst, h.count,
    Option.bind_some, Option.bind_some, readSmallInt_opNum h.pos hm,
    readSmallInt_opNum hn h.bound]
  dsimp only
  rw [if_neg, hinstrs, List.drop_succ_cons, List.drop_zero, toNat_ofNat_le h.bound, htake, hcount]
  · exact beq_self_eq_true _
  · rw [gt_iff_lt, UInt8.lt_iff_toNat_lt, toNat_ofNat_le hm, toNat_ofNat_le h.bound]
    exact Nat.not_lt.2 h.le

/-- A multisig script looks like one, with two bytes behind the keys. -/
theorem BareMultisig.looks (h : BareMultisig script) :
    ∃ m keys body, Looks script m keys body [opNum keys.length, OP_CHECKMULTISIG] := by
  obtain ⟨m, keys, body, hpos, hle, hbound, hpushes, rfl⟩ := h
  refine ⟨m, keys, body, hpos, hle, hbound, hpushes, rfl, by simp, ?_, ?_⟩
  · simp
  · simp

/-- With two bytes behind the keys a script that looks like one is one. -/
theorem Looks.bareMultisig (h : Looks script m keys body rest) (hrest : rest.length = 2) :
    BareMultisig script := by
  obtain ⟨a, b, rfl⟩ := List.length_eq_two.1 hrest
  have hcount := h.count
  have hlast := h.last
  rw [h.eq] at hcount hlast
  simp at hcount hlast
  exact ⟨m, keys, body, h.pos, h.le, h.bound, h.pushes, by rw [h.eq, hcount, hlast]⟩

/-- The keys of a multisig script that is read in two ways end in one place. -/
theorem Looks.length_eq_two (law : env.Parses) (h : Looks script m keys body rest)
    {m' : Nat} {keys' : List (List UInt8)} {body' : Script}
    (h' : Looks script m' keys' body' [opNum keys'.length, OP_CHECKMULTISIG]) :
    rest.length = 2 := by
  have hlength : keys.length = keys'.length :=
    opNum_inj h.bound h'.bound (Option.some.inj (h.count.symm.trans h'.count))
  have hbytes := List.cons.inj (h.eq.symm.trans h'.eq)
  have hinstrs := congrArg env.instructions hbytes.2
  rw [instructions_append law h.pushes, instructions_append law h'.pushes] at hinstrs
  have hrest := (List.append_inj hinstrs (by simp [hlength])).2
  have hend : env.instructions [opNum keys'.length, OP_CHECKMULTISIG]
      = [some (.op (opNum keys'.length)), some (.op OP_CHECKMULTISIG)] := by
    refine law.op_iff.2 ⟨lt_opNum (h'.pos.trans h'.le) h'.bound, _, rfl, ?_⟩
    exact law.op_iff.2 ⟨by decide, _, rfl, law.nil_iff.2 rfl⟩
  obtain ⟨-, tail, rfl, htail⟩ := law.op_iff.1 (hrest.trans hend)
  obtain ⟨-, tail', rfl, htail'⟩ := law.op_iff.1 htail
  rw [law.nil_iff.1 htail']
  rfl

/-- The script is recognised exactly if it is a bare multisig script, unless it looks like one
with keys that end elsewhere than two bytes before its end. -/
theorem isMultisig_grammar_iff (law : env.Parses) (script : Script) :
    (isMultisig env script = true ↔ BareMultisig script) ↔ KeysEnd script := by
  constructor
  · intro hgrammar m keys body rest hlooks
    obtain ⟨m', keys', body', hlooks'⟩ := (hgrammar.1 (hlooks.isMultisig law)).looks
    exact hlooks.length_eq_two law hlooks'
  · intro hends
    constructor
    · intro hmultisig
      obtain ⟨m, keys, body, rest, hlooks⟩ := exists_looks law hmultisig
      exact hlooks.bareMultisig (hends m keys body rest hlooks)
    · intro hbare
      obtain ⟨m, keys, body, hlooks⟩ := hbare.looks
      exact hlooks.isMultisig law

end Script

/-! ## The parser of the small network -/

namespace Small

open Script

variable {bytes : Script} {fuel fuel' : Nat}

/-- Enough fuel reads the whole script. -/
theorem parse_fuel (h : bytes.length ≤ fuel) (h' : bytes.length ≤ fuel') :
    parse fuel bytes = parse fuel' bytes := by
  induction fuel generalizing fuel' bytes with
  | zero =>
    obtain rfl := List.length_eq_zero_iff.1 (Nat.le_zero.1 h)
    cases fuel' <;> rfl
  | succ fuel ih =>
    cases bytes with
    | nil => cases fuel' <;> rfl
    | cons code bytes =>
      cases fuel' with
      | zero => simp at h'
      | succ fuel' =>
        rw [List.length_cons] at h h'
        have hdrop (n : Nat) : parse fuel (bytes.drop n) = parse fuel' (bytes.drop n) :=
          ih (by rw [List.length_drop]; omega) (by rw [List.length_drop]; omega)
        have hzero := hdrop 0
        rw [List.drop_zero] at hzero
        simp only [parse, hzero, List.drop_drop, hdrop]

/-- The number of bytes that the length of a push takes. -/
def pushWidth (code : UInt8) : Nat :=
  if code = 0x4c then 1 else if code = 0x4d then 2 else if code = 0x4e then 4 else 0

def pushSize (code : UInt8) (bytes : Script) : Nat :=
  if pushWidth code = 0 then code.toNat else Bytes.ofLe (bytes.take (pushWidth code))

theorem instructions_op {code : UInt8} (h : 0x4e < code) :
    instructions (code :: bytes) = some (.op code) :: instructions bytes := by
  simp [instructions, parse, h]

theorem instructions_push {code : UInt8} (h : ¬ 0x4e < code) :
    instructions (code :: bytes) =
      if bytes.length < pushWidth code + pushSize code bytes then [none]
      else some (.pushBytes ((bytes.drop (pushWidth code)).take (pushSize code bytes)))
        :: instructions (bytes.drop (pushWidth code + pushSize code bytes)) := by
  have hparse : instructions (code :: bytes) = if bytes.length < pushWidth code then [none]
      else if (bytes.drop (pushWidth code)).length < pushSize code bytes then [none]
      else some (.pushBytes ((bytes.drop (pushWidth code)).take (pushSize code bytes)))
        :: parse bytes.length ((bytes.drop (pushWidth code)).drop (pushSize code bytes)) := by
    rw [instructions, List.length_cons, parse]
    exact if_neg h
  rw [hparse, List.length_drop, List.drop_drop]
  by_cases hwidth : bytes.length < pushWidth code
  · rw [if_pos hwidth, if_pos (by omega)]
  by_cases hsize : bytes.length - pushWidth code < pushSize code bytes
  · rw [if_neg hwidth, if_pos hsize, if_pos (by omega)]
  · rw [if_neg hwidth, if_neg hsize, if_neg (by omega), instructions]
    rw [@parse_fuel _ bytes.length _ (by rw [List.length_drop]; omega) le_rfl]

/-- The opcode of a push, the bytes of its length, the data, and what follows. -/
theorem instructions_header {code : UInt8} (header : Script) {data rest : Script}
    (h : ¬ 0x4e < code)
    (hwidth : header.length = pushWidth code)
    (hsize : pushSize code (header ++ data ++ rest) = data.length) :
    instructions (code :: (header ++ data ++ rest)) =
      some (.pushBytes data) :: instructions rest := by
  have hdrop : (header ++ data ++ rest).drop (pushWidth code) = data ++ rest := by
    rw [List.append_assoc, List.drop_left' hwidth]
  rw [instructions_push h, hsize, if_neg, hdrop, List.take_left, ← List.drop_drop, hdrop,
    List.drop_left]
  rw [List.length_append, List.length_append, hwidth]
  omega

theorem pushSize_le {code : UInt8} {data rest : Script} (hpos : 0 < pushWidth code)
    (hlt : data.length < 256 ^ pushWidth code) :
    pushSize code (Bytes.le (pushWidth code) data.length ++ data ++ rest) = data.length := by
  rw [pushSize, if_neg hpos.ne', List.append_assoc, List.take_left' (Bytes.length_le _ _),
    Bytes.ofLe_le hlt]

/-- What pushes data is read as the data. -/
theorem instructions_dataPush {data encoding : Script} (h : DataPush data encoding)
    (rest : Script) :
    instructions (encoding ++ rest) = some (.pushBytes data) :: instructions rest := by
  cases h with
  | direct hlt =>
    have htoNat : (UInt8.ofNat data.length).toNat = data.length := by
      rw [UInt8.toNat_ofNat']
      omega
    have hcode (k : UInt8) (hk : 0x4c ≤ k.toNat) : UInt8.ofNat data.length ≠ k := by
      rintro rfl
      omega
    have hwidth : pushWidth (UInt8.ofNat data.length) = 0 := by
      rw [pushWidth, if_neg (hcode _ (by decide)), if_neg (hcode _ (by decide)),
        if_neg (hcode _ (by decide))]
    refine instructions_header [] ?_ hwidth.symm ?_
    · rw [UInt8.lt_iff_toNat_lt, htoNat]
      change ¬ 78 < _
      omega
    · rw [pushSize, if_pos hwidth, htoNat]
  | pushData1 hlt =>
    exact instructions_header _ (by decide) (Bytes.length_le _ _) (pushSize_le (by decide) hlt)
  | pushData2 hlt =>
    exact instructions_header _ (by decide) (Bytes.length_le _ _) (pushSize_le (by decide) hlt)
  | pushData4 hlt =>
    exact instructions_header _ (by decide) (Bytes.length_le _ _) (pushSize_le (by decide) hlt)

/-- The bytes of a push that is not cut off. -/
theorem dataPush_take {code : UInt8} (h : ¬ 0x4e < code)
    (hlong : pushWidth code + pushSize code bytes ≤ bytes.length) :
    DataPush ((bytes.drop (pushWidth code)).take (pushSize code bytes))
      (code :: bytes.take (pushWidth code + pushSize code bytes)) := by
  rw [List.take_add]
  generalize hdata : (bytes.drop (pushWidth code)).take (pushSize code bytes) = data
  have hlength : data.length = pushSize code bytes := by
    rw [← hdata, List.length_take, List.length_drop]
    omega
  have hheader (hpos : 0 < pushWidth code) : data.length < 256 ^ pushWidth code
      ∧ bytes.take (pushWidth code) = Bytes.le (pushWidth code) data.length := by
    have htake : (bytes.take (pushWidth code)).length = pushWidth code := by
      rw [List.length_take]
      omega
    have hlt := Bytes.ofLe_lt (bytes.take (pushWidth code))
    have hle := Bytes.le_ofLe (bytes.take (pushWidth code))
    rw [htake] at hlt hle
    rw [hlength, pushSize, if_neg hpos.ne']
    exact ⟨hlt, hle.symm⟩
  by_cases hone : code = 0x4c
  · subst hone
    obtain ⟨hlt, htake⟩ := hheader (by decide)
    rw [htake]
    exact .pushData1 hlt
  by_cases htwo : code = 0x4d
  · subst htwo
    obtain ⟨hlt, htake⟩ := hheader (by decide)
    rw [htake]
    exact .pushData2 hlt
  by_cases hfour : code = 0x4e
  · subst hfour
    obtain ⟨hlt, htake⟩ := hheader (by decide)
    rw [htake]
    exact .pushData4 hlt
  have hwidth : pushWidth code = 0 := by
    rw [pushWidth, if_neg hone, if_neg htwo, if_neg hfour]
  rw [pushSize, if_pos hwidth] at hlength
  have hcode : code.toNat < 0x4c := by
    rw [UInt8.lt_iff_toNat_lt] at h
    rw [← UInt8.toNat_inj] at hone htwo hfour
    change ¬ 78 < _ at h
    change ¬ _ = 76 at hone
    change ¬ _ = 77 at htwo
    change ¬ _ = 78 at hfour
    omega
  have hfirst : code = UInt8.ofNat data.length := by
    rw [hlength, UInt8.ofNat_toNat]
  rw [hwidth, List.take_zero, List.nil_append, hfirst]
  exact .direct (by omega)

/-- The small network reads scripts as the library does. -/
theorem scripted_parses : scripted.Parses where
  nil_iff {bytes} := by
    cases bytes with
    | nil => exact iff_of_true rfl rfl
    | cons code bytes =>
      refine iff_of_false (fun h => ?_) nofun
      change instructions _ = [] at h
      by_cases hcode : 0x4e < code
      · rw [instructions_op hcode] at h
        cases h
      · rw [instructions_push hcode] at h
        split at h <;> cases h
  op_iff {bytes code instrs} := by
    change instructions _ = _ ↔ _ ∧ ∃ rest, _ ∧ instructions rest = _
    constructor
    · intro h
      cases bytes with
      | nil => cases h
      | cons code' bytes =>
        by_cases hcode : 0x4e < code'
        · rw [instructions_op hcode] at h
          cases h
          exact ⟨hcode, bytes, rfl, rfl⟩
        · rw [instructions_push hcode] at h
          split at h <;> cases h
    · rintro ⟨hcode, rest, rfl, rfl⟩
      exact instructions_op hcode
  push_iff {bytes data instrs} := by
    change instructions _ = _ ↔ ∃ encoding rest, _ ∧ _ ∧ instructions rest = _
    constructor
    · intro h
      cases bytes with
      | nil => cases h
      | cons code bytes =>
        by_cases hcode : 0x4e < code
        · rw [instructions_op hcode] at h
          cases h
        · rw [instructions_push hcode] at h
          split at h
          · cases h
          · rename_i hlong
            cases h
            refine ⟨_, _, dataPush_take hcode (Nat.not_lt.1 hlong), ?_, rfl⟩
            rw [List.cons_append, List.take_append_drop]
    · rintro ⟨encoding, rest, hpush, rfl, rfl⟩
      exact instructions_dataPush hpush rest

/-- A key of 33 zeros -/
def key : List UInt8 := List.replicate 33 0

/-- `OP_1`, a key, `OP_1` and `OP_CHECKMULTISIG`, with the opcode `OP_NOP` behind the key. -/
def paddedMultisig : Script := 0x51 :: 0x21 :: key ++ [0x61, 0x51, 0xae]

end Small

namespace Script

theorem isMultisig_grammar_iff_key :
    (isMultisig Small.scripted (0x51 :: 0x21 :: Small.key ++ [0x51, 0xae]) = true
        ↔ BareMultisig (0x51 :: 0x21 :: Small.key ++ [0x51, 0xae]))
      ↔ KeysEnd (0x51 :: 0x21 :: Small.key ++ [0x51, 0xae]) :=
  isMultisig_grammar_iff Small.scripted_parses _

/-- The script is recognised, and has an instruction too many. -/
theorem paddedMultisig_recognised : isMultisig Small.scripted Small.paddedMultisig = true
    ∧ ¬ BareMultisig Small.paddedMultisig := by
  refine ⟨by decide, fun h => ?_⟩
  obtain ⟨m, keys, body, hlooks⟩ := h.looks
  have hone : keys.length = 1 := opNum_inj hlooks.bound (by decide)
    (Option.some.inj (hlooks.count.symm.trans (by decide)))
  have hinstrs : Small.scripted.instructions Small.paddedMultisig = some (.op (opNum m))
      :: (keys.map (some ∘ .pushBytes)
        ++ Small.scripted.instructions [opNum keys.length, OP_CHECKMULTISIG]) :=
    Small.scripted_parses.op_iff.2 ⟨lt_opNum hlooks.pos (hlooks.le.trans hlooks.bound), _,
      hlooks.eq, instructions_append Small.scripted_parses hlooks.pushes _⟩
  rw [hone] at hinstrs
  have hlength := congrArg List.length hinstrs
  rw [List.length_cons, List.length_append, List.length_map, hone] at hlength
  revert hlength
  decide

end Script

end BitcoinNode

import BitcoinNode.Blockstore.FileBlockStore
import BitcoinNode.Library.BitArray
import BitcoinNode.Library.Result
import BitcoinNode.Primitives.Multisig

/-!
# Bloom filters

`net/bloom_filter.rs`: the keys of a light client as bits at their hashes, against which
transactions are tested. Outputs that match are inserted, so that their spends match too.
-/

namespace BitcoinNode

inductive BloomFlags where
  | none | all | pubkeyOnly
  deriving DecidableEq, Repr

/-- The functions that bloom filters use of the libraries. -/
structure Bip37 where
  /-- The hash of some bytes with a seed, both of 32 bits. -/
  murmur3 : List UInt8 → Nat → Nat
  isP2pk : Script → Bool
  /-- `(bits_per_element as f64 * LN_2) as u32` -/
  optimalHashFuncs : Nat → Nat

def OutPoint.consensusEncode (outpoint : OutPoint) : List UInt8 :=
  hashBytes outpoint.txid ++ Bytes.le 4 outpoint.vout

/-- The message that loads a filter. -/
structure FilterLoad where
  filter : List UInt8
  hashFuncs : Nat
  tweak : Nat
  flags : BloomFlags
  deriving DecidableEq, Repr

structure BloomFilter where
  data : List UInt8
  isFull : Bool
  isEmpty : Bool
  hashFuncs : Nat
  tweak : Nat
  flags : BloomFlags
  deriving DecidableEq, Repr

namespace BloomFilter

def MAX_BLOOM_FILTER_SIZE : Nat := 36000
def MAX_HASH_FUNCS : Nat := 50

def ofFilterLoad (fl : FilterLoad) : BloomFilter where
  data := fl.filter
  isFull := false
  isEmpty := false
  hashFuncs := fl.hashFuncs
  tweak := fl.tweak
  flags := fl.flags

/-- An empty filter for a number of elements; `bits` is what the rate of false positives asks
for, as `usize`. -/
def new (lib : Bip37) (elements bits tweak : Nat) (flags : BloomFlags) :
    Except Panic BloomFilter :=
  let data := List.replicate (min bits (MAX_BLOOM_FILTER_SIZE * 8) / 8) 0
  if elements = 0 then .error .bloomElements
  else .ok {
    data := data
    isFull := false
    isEmpty := true
    hashFuncs := min (lib.optimalHashFuncs (data.length * 8 / elements)) MAX_HASH_FUNCS
    tweak := tweak
    flags := flags }

def isWithinSizeConstraints (f : BloomFilter) : Bool :=
  f.data.length ≤ MAX_BLOOM_FILTER_SIZE && f.hashFuncs ≤ MAX_HASH_FUNCS

/-- The seed of a hash function -/
def seed (f : BloomFilter) (hashNum : Nat) : Nat :=
  Word.add 32 (Word.mul 32 hashNum 0xFBA4C795) f.tweak

def hash (lib : Bip37) (f : BloomFilter) (hashNum : Nat) (key : List UInt8) : Except Panic Nat :=
  if f.data.length * 8 = 0 then .error .bloomHash
  else .ok (lib.murmur3 key (f.seed hashNum) % (f.data.length * 8))

def clear (f : BloomFilter) : BloomFilter := { f with data := [], isFull := false, isEmpty := true }

def reset (f : BloomFilter) (tweak : Nat) : BloomFilter := { f.clear with tweak := tweak }

/-- The loop of `contains` over the numbers of the hash functions. -/
def containsLoop (lib : Bip37) (f : BloomFilter) (key : List UInt8) :
    List Nat → Except Panic Bool
  | [] => .ok true
  | i :: hashNums => do
    let index ← f.hash lib i key
    match f.data[index >>> 3]? with
    | none => .error .bloomIndex
    | some byte =>
      if byte &&& BitArray.mask index = 0 then .ok false else containsLoop lib f key hashNums

def contains (lib : Bip37) (f : BloomFilter) (key : List UInt8) : Except Panic Bool :=
  if f.isFull then .ok true
  else if f.isEmpty then .ok false
  else f.containsLoop lib key (List.range f.hashFuncs)

def containsOutpoint (lib : Bip37) (f : BloomFilter) (outpoint : OutPoint) : Except Panic Bool :=
  f.contains lib outpoint.consensusEncode

/-- The loop of `insert` over the numbers of the hash functions. -/
def insertLoop (lib : Bip37) (key : List UInt8) : List Nat → BloomFilter → Except Panic BloomFilter
  | [], f => .ok f
  | i :: hashNums, f => do
    let index ← f.hash lib i key
    match f.data[index >>> 3]? with
    | none => .error .bloomIndex
    | some _ => insertLoop lib key hashNums { f with data := BitArray.set f.data index }

def insert (lib : Bip37) (f : BloomFilter) (key : List UInt8) : Except Panic BloomFilter :=
  if f.isFull then .ok f
  else do
    let f ← insertLoop lib key (List.range f.hashFuncs) f
    return { f with isEmpty := false }

def insertOutpoint (lib : Bip37) (f : BloomFilter) (outpoint : OutPoint) :
    Except Panic BloomFilter :=
  f.insert lib outpoint.consensusEncode

/-! ## Testing a transaction -/

/-- A transaction halfway through its test; `inserted` are the keys put in by the test. -/
structure Scan where
  filter : BloomFilter
  found : Bool
  inserted : List (List UInt8)

variable (lib : Bip37) (env : Env)

/-- The flags ask for the spends of outputs with the script. -/
def watches (f : BloomFilter) (script : Script) : Bool :=
  match f.flags with
  | .all => true
  | .pubkeyOnly => lib.isP2pk script || Script.isMultisig env script
  | .none => false

/-- An output pushes a key of the filter. -/
def scanMatch (outpoint : OutPoint) (script : Script) (s : Scan) : Except Panic Scan :=
  if s.filter.watches lib env script then do
    let filter ← s.filter.insertOutpoint lib outpoint
    return ⟨filter, true, outpoint.consensusEncode :: s.inserted⟩
  else .ok { s with found := true }

/-- The loop over the instructions of an output's script. -/
def scanInstructions (outpoint : OutPoint) (script : Script) :
    List (Option Instruction) → Scan → Except Panic Scan
  | [], s => .ok s
  | some (.pushBytes data) :: instrs, s =>
    if data = [] then scanInstructions outpoint script instrs s
    else do
      let hit ← s.filter.contains lib data
      let s ← if hit then scanMatch lib env outpoint script s else .ok s
      scanInstructions outpoint script instrs s
  | _ :: instrs, s => scanInstructions outpoint script instrs s

/-- The loop over the outputs, with their indexes as `u32`. -/
def scanOutputs (txid : Txid) : List (TxOut × Nat) → Scan → Except Panic Scan
  | [], s => .ok s
  | (output, index) :: outputs, s => do
    let outpoint := ⟨txid, index % 2 ^ 32⟩
    let s ← scanInstructions lib env outpoint output.scriptPubkey
      (env.instructions output.scriptPubkey) s
    scanOutputs txid outputs s

/-- The loop over the instructions of an input's script. -/
def containsPush (f : BloomFilter) : List (Option Instruction) → Except Panic Bool
  | [] => .ok false
  | some (.pushBytes data) :: instrs =>
    if data = [] then containsPush f instrs
    else do
      let hit ← f.contains lib data
      if hit then return true else containsPush f instrs
  | _ :: instrs => containsPush f instrs

/-- The loop over the inputs -/
def containsInput (f : BloomFilter) : List TxIn → Except Panic Bool
  | [] => .ok false
  | input :: inputs => do
    let spends ← f.containsOutpoint lib input.previousOutput
    if spends then return true
    else do
      let pushes ← f.containsPush lib (env.instructions input.scriptSig)
      if pushes then return true else containsInput f inputs

def scan (f : BloomFilter) (tx : Transaction) : Except Panic Scan :=
  if f.isFull then .ok ⟨f, true, []⟩
  else if f.isEmpty then .ok ⟨f, false, []⟩
  else do
    let txid := env.txid tx
    let found ← f.contains lib (hashBytes txid)
    let s ← scanOutputs lib env txid tx.output.zipIdx ⟨f, found, []⟩
    if s.found then return s
    else do
      let found ← s.filter.containsInput lib env tx.input
      return { s with found := found }

def isRelevantAndUpdate (f : BloomFilter) (tx : Transaction) : Except Panic (BloomFilter × Bool) :=
  (fun s => (s.filter, s.found)) <$> f.scan lib env tx

end BloomFilter

/-! ## A peer's filter -/

def MAX_SCRIPT_PUSH : Nat := 520

/-- What a peer has said about the transactions it wants. -/
structure SpvState where
  spvFilter : Option BloomFilter
  relay : Bool

namespace SpvState

def handleFilterLoad (state : SpvState) (filter : BloomFilter) : Except String SpvState :=
  if !filter.isWithinSizeConstraints then .error "filter not within constraints"
  else .ok { state with spvFilter := some filter, relay := true }

def handleFilterAdd (lib : Bip37) (state : SpvState) (data : List UInt8) :
    Except (Stop String) SpvState :=
  if data.length > MAX_SCRIPT_PUSH then .error (.error "filter too big")
  else
    match state.spvFilter with
    | none => .ok { state with relay := true }
    | some filter =>
      match filter.insert lib data with
      | .ok filter => .ok ⟨some filter, true⟩
      | .error p => .error (.panic p)

end SpvState

namespace BloomFilter

variable {lib : Bip37} {env : Env} {f g : BloomFilter} {key data : List UInt8}
  {hashNums : List Nat} {i : Nat}

/-! ## The bits of a key -/

/-- The remainder by the number of bits is one by a positive number, if it is taken at all. -/
def Sized (f : BloomFilter) : Prop := f.data ≠ [] ∨ f.hashFuncs = 0

def position (lib : Bip37) (f : BloomFilter) (key : List UInt8) (hashNum : Nat) : Nat :=
  lib.murmur3 key (f.seed hashNum) % (f.data.length * 8)

def positions (lib : Bip37) (f : BloomFilter) (key : List UInt8) : List Nat :=
  (List.range f.hashFuncs).map (f.position lib key)

/-- The filter answers that it has the key. -/
def Holds (lib : Bip37) (f : BloomFilter) (key : List UInt8) : Prop :=
  f.isFull = true ∨ f.isEmpty = false ∧ ∀ p ∈ f.positions lib key, BitArray.get f.data p = true

instance : Decidable (f.Holds lib key) := inferInstanceAs (Decidable (_ ∨ _))

/-- The filter with the key put in. -/
def inserted (lib : Bip37) (f : BloomFilter) (key : List UInt8) : BloomFilter :=
  if f.isFull then f
  else { f with data := BitArray.setAll f.data (f.positions lib key), isEmpty := false }

theorem bits_pos (h : f.data ≠ []) : 0 < f.data.length * 8 :=
  Nat.mul_pos (List.length_pos_iff.2 h) (by decide)

theorem hash_eq (h : f.data ≠ []) : f.hash lib i key = .ok (f.position lib key i) := by
  rw [hash, if_neg (bits_pos h).ne', position]

theorem position_lt (h : f.data ≠ []) : f.position lib key i < f.data.length * 8 :=
  Nat.mod_lt _ (bits_pos h)

theorem position_congr (hlength : g.data.length = f.data.length) (htweak : g.tweak = f.tweak) :
    g.position lib key = f.position lib key := by
  funext i
  rw [position, position, seed, seed, hlength, htweak]

theorem containsLoop_eq (h : f.data ≠ []) : f.containsLoop lib key hashNums =
    .ok ((hashNums.map (f.position lib key)).all (BitArray.get f.data)) := by
  induction hashNums with
  | nil => rfl
  | cons i hashNums ih =>
    have hlt : f.position lib key i >>> 3 < f.data.length := by
      have := @position_lt lib f key i h
      grind [Nat.shiftRight_eq_div_pow]
    rw [containsLoop, bind_of_ok (hash_eq h), List.map_cons, List.all_cons, BitArray.get,
      List.getElem?_eq_getElem hlt]
    by_cases hbit : f.data[f.position lib key i >>> 3] &&& BitArray.mask (f.position lib key i) = 0
    · simp [hbit]
    · simp [hbit, ih]

theorem insertLoop_eq (h : f.data ≠ []) : insertLoop lib key hashNums f =
    .ok { f with data := BitArray.setAll f.data (hashNums.map (f.position lib key)) } := by
  induction hashNums generalizing f with
  | nil => rfl
  | cons i hashNums ih =>
    have hlt : f.position lib key i >>> 3 < f.data.length := by
      have := @position_lt lib f key i h
      grind [Nat.shiftRight_eq_div_pow]
    have hsize := @BitArray.length_set f.data (f.position lib key i)
    have hne : BitArray.set f.data (f.position lib key i) ≠ [] := by grind
    have hsame : position lib { f with data := BitArray.set f.data (f.position lib key i) } key
        = f.position lib key := position_congr hsize rfl
    rw [insertLoop, bind_of_ok (hash_eq h), List.getElem?_eq_getElem hlt]
    dsimp only
    rw [ih hne, hsame]
    rfl

/-- A lookup goes through exactly in a filter that can be tested, or that answers at once. -/
theorem contains_eq (h : f.Sized) : f.contains lib key = .ok (decide (f.Holds lib key)) := by
  unfold contains Holds
  by_cases hfull : f.isFull
  · simp [hfull]
  by_cases hempty : f.isEmpty
  · simp [hfull, hempty]
  rcases h with h | h
  · rw [containsLoop_eq h]
    simp [hfull, hempty, positions, List.all_eq]
  · simp [hfull, hempty, positions, h, containsLoop]

theorem insert_eq (h : f.Sized) : f.insert lib key = .ok (f.inserted lib key) := by
  unfold insert inserted
  by_cases hfull : f.isFull
  · simp [hfull]
  rcases h with h | h
  · rw [insertLoop_eq h]
    simp [hfull, positions]
  · simp [hfull, positions, h, insertLoop, BitArray.setAll]

end BloomFilter

/-! ## A filter of three keys -/

namespace Small

def rotate (word n : UInt32) : UInt32 := word <<< n ||| word >>> (32 - n)

def scramble (word : UInt32) : UInt32 := rotate (word * 0xcc9e2d51) 15 * 0x1b873593

/-- The words of four bytes are mixed into the hash, and what is left over at the end. -/
def mixWords : List UInt8 → UInt32 → UInt32
  | [], h => h
  | a :: b :: c :: d :: rest, h =>
    let word := UInt32.ofNat (Bytes.ofLe [a, b, c, d])
    mixWords rest (rotate (h ^^^ scramble word) 13 * 5 + 0xe6546b64)
  | rest, h => h ^^^ scramble (UInt32.ofNat (Bytes.ofLe rest))

def murmur3 (key : List UInt8) (seed : Nat) : Nat :=
  let h := mixWords key (UInt32.ofNat seed) ^^^ UInt32.ofNat key.length
  let h := (h ^^^ h >>> 16) * 0x85ebca6b
  let h := (h ^^^ h >>> 13) * 0xc2b2ae35
  (h ^^^ h >>> 16).toNat

/-- A key of 33 or 65 bytes and `OP_CHECKSIG` -/
def isP2pk (script : Script) : Bool :=
  (script.length == 35 && script.head? == some 0x21 && script.getLast? == some Script.OP_CHECKSIG)
    || (script.length == 67 && script.head? == some 0x41
      && script.getLast? == some Script.OP_CHECKSIG)

def bip37 : Bip37 where
  murmur3 := murmur3
  isP2pk := isP2pk
  optimalHashFuncs bitsPerElement := bitsPerElement * 693147 / 1000000

def bloomKeys : List (List UInt8) := [
  [0x99, 0x10, 0x8a, 0xd8, 0xed, 0x9b, 0xb6, 0x27, 0x4d, 0x39,
    0x80, 0xba, 0xb5, 0xa8, 0x5c, 0x04, 0x8f, 0x09, 0x50, 0xc8],
  [0xb5, 0xa2, 0xc7, 0x86, 0xd9, 0xef, 0x46, 0x58, 0x28, 0x7c,
    0xed, 0x59, 0x14, 0xb3, 0x7a, 0x1b, 0x4a, 0xa3, 0x2e, 0xee],
  [0xb9, 0x30, 0x06, 0x70, 0xb4, 0xc5, 0x36, 0x6e, 0x95, 0xb2,
    0x69, 0x9e, 0x8b, 0x18, 0xbc, 0x75, 0xe5, 0xf7, 0x29, 0xc5]]

example : (do
    let f ← BloomFilter.new bip37 3 28 0 .all
    bloomKeys.foldlM (BloomFilter.insert bip37) f) =
    .ok ⟨[0x61, 0x4e, 0x9b], false, false, 5, 0, .all⟩ := by
  decide +kernel

/-- The three keys -/
def loaded : FilterLoad := ⟨[0x61, 0x4e, 0x9b], 5, 0, .all⟩

/-- An output to the hash of the first key. -/
def paid : Transaction where
  version := 1
  lockTime := 0
  input := []
  output := [⟨1, [0x76, 0xa9, 0x14] ++ bloomKeys.headI ++ [0x88, 0xac]⟩]

def spends : Transaction where
  version := 1
  lockTime := 0
  input := [⟨⟨scripted.txid paid, 0⟩, [], 0, []⟩]
  output := []

end Small

end BitcoinNode

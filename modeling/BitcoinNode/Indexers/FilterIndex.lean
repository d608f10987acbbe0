import BitcoinNode.Blockchain.Notified
import BitcoinNode.Indexers.DiskDatabase

/-!
# The filter index

`indexers/filterindex.rs`: the filter of a block, its hash and its filter header are stored by
height, and the height of a block by its hash. A block that is connected overwrites what its
height held; a block that is disconnected changes nothing.
-/

namespace BitcoinNode

abbrev FilterHash := Nat
abbrev FilterHeader := Nat

/-- The functions of `bitcoin::util::bip158` and the hashes of BIP157. -/
structure Bip158 where
  /-- `BlockFilter::new_script_filter`: the content of the filter, or none for an error. -/
  newScriptFilter : Block → (OutPoint → Option Script) → Option (List UInt8)
  filterHash : List UInt8 → FilterHash
  /-- The header that commits to a filter hash and the previous header. -/
  filterHeader : FilterHash → FilterHeader → FilterHeader

/-- `new_script_filter` fails for nothing but a script that it asks for and does not get. -/
def Bip158.Builds (bip : Bip158) : Prop :=
  ∀ block scripts, (∀ tx ∈ block.txdata.tail, ∀ input ∈ tx.input,
    (scripts input.previousOutput).isSome) → (bip.newScriptFilter block scripts).isSome

structure BlockFilter where
  content : List UInt8
  deriving DecidableEq, Repr

/-- `BlockFilter::filter_header` -/
def BlockFilter.filterHeader (bip : Bip158) (filter : BlockFilter) (previous : FilterHeader) :
    FilterHeader :=
  bip.filterHeader (bip.filterHash filter.content) previous

namespace FilterIndexer

def COL_FILTER : String := "F"
def COL_FILTER_HASH : String := "H"
def COL_FILTER_HEADER : String := "h"
def COL_HEIGHT : String := "H"

inductive Key where
  | filter (height : Nat)
  | filterHash (height : Nat)
  | filterHeader (height : Nat)
  | height (hash : BlockHash)
  deriving DecidableEq, Repr

def Key.col : Key → String
  | .filter _ => COL_FILTER
  | .filterHash _ => COL_FILTER_HASH
  | .filterHeader _ => COL_FILTER_HEADER
  | .height _ => COL_HEIGHT

def Key.encode : Key → List UInt8
  | .filter n | .filterHash n | .filterHeader n => Bytes.le 4 n
  | .height hash => hashBytes hash

instance : DBKey Key := ⟨Key.col, Key.encode⟩

/-- A stored value, of the kind it was written as. -/
inductive Value where
  | filter (content : List UInt8)
  | filterHash (hash : FilterHash)
  | filterHeader (header : FilterHeader)
  | height (height : Nat)
  deriving DecidableEq, Repr

def Value.asFilter : Value → Option (List UInt8)
  | .filter content => some content
  | _ => none

def Value.asFilterHash : Value → Option FilterHash
  | .filterHash hash => some hash
  | _ => none

def Value.asFilterHeader : Value → Option FilterHeader
  | .filterHeader header => some header
  | _ => none

def Value.asHeight : Value → Option Nat
  | .height n => some n
  | _ => none

end FilterIndexer

structure FilterIndexer where
  db : DiskDatabase FilterIndexer.Value

namespace FilterIndexer

/-- `self.db.get(key).unwrap()`; a value of another kind does not decode. -/
def read {α : Type} (filters : FilterIndexer) (kind : Value → Option α) (key : Key) :
    Except Panic (Option α) :=
  match filters.db.get key with
  | none => .ok none
  | some value =>
    match kind value with
    | some a => .ok (some a)
    | none => .error .indexValue

def filterHeaderByHeight (filters : FilterIndexer) (height : Nat) :
    Except Panic (Option FilterHeader) :=
  filters.read Value.asFilterHeader (.filterHeader height)

def filterByHeight (filters : FilterIndexer) (height : Nat) :
    Except Panic (Option BlockFilter) := do
  let content ← filters.read Value.asFilter (.filter height)
  return content.map BlockFilter.mk

def filterHashByHeight (filters : FilterIndexer) (height : Nat) :
    Except Panic (Option FilterHash) :=
  filters.read Value.asFilterHash (.filterHash height)

/-- Look a block up by its hash: first its height, then what is stored under the height. -/
def byHash {α : Type} (filters : FilterIndexer) (byHeight : Nat → Except Panic (Option α))
    (hash : BlockHash) : Except Panic (Option α) := do
  match ← filters.read Value.asHeight (.height hash) with
  | none => return none
  | some height => byHeight height

def filterHeaderByHash (filters : FilterIndexer) (hash : BlockHash) :
    Except Panic (Option FilterHeader) :=
  filters.byHash filters.filterHeaderByHeight hash

def filterByHash (filters : FilterIndexer) (hash : BlockHash) :
    Except Panic (Option BlockFilter) :=
  filters.byHash filters.filterByHeight hash

def filterHashByBlockHash (filters : FilterIndexer) (hash : BlockHash) :
    Except Panic (Option FilterHash) :=
  filters.byHash filters.filterHashByHeight hash

/-- The script a view holds for an outpoint. -/
def scriptForCoin (view : CoinView) (outpoint : OutPoint) : Option Script :=
  (view.map.lookup outpoint).map fun coin => coin.output.scriptPubkey

def blockConnected (bip : Bip158) (filters : FilterIndexer) (entry : ChainEntry) (block : Block)
    (view : CoinView) : Except Panic FilterIndexer := do
  match bip.newScriptFilter block (scriptForCoin view) with
  | none => throw .scriptFilter
  | some content =>
    let filter : BlockFilter := ⟨content⟩
    let filterHash := bip.filterHash filter.content
    let prevFilterHeader ←
      if entry.prevBlock = 0 then pure 0
      else match ← filters.filterHeaderByHash entry.prevBlock with
        | some header => pure header
        | none => throw .previousFilterHeader
    let filterHeader := filter.filterHeader bip prevFilterHeader
    return ⟨filters.db.writeBatch [
      .insert (Key.height entry.hash) (.height entry.height),
      .insert (Key.filterHeader entry.height) (.filterHeader filterHeader),
      .insert (Key.filterHash entry.height) (.filterHash filterHash),
      .insert (Key.filter entry.height) (.filter filter.content)]⟩

/-- Open the index, adding the genesis block if it is not there. -/
def new (bip : Bip158) (env : Env) (db : DiskDatabase Value) : Except Panic FilterIndexer :=
  let filters : FilterIndexer := ⟨db⟩
  if filters.db.has (Key.filter 0) then .ok filters
  else filters.blockConnected bip env.genesisEntry env.genesisBlock CoinView.empty

/-- The listener: a disconnected block is ignored. -/
def handle (bip : Bip158) (filters : FilterIndexer) :
    Notification → Except Panic FilterIndexer
  | .connect _ entry block view => filters.blockConnected bip entry block view
  | .disconnect _ _ _ _ => .ok filters

/-- The index on a fresh database after what its listener was told. -/
def run (bip : Bip158) (env : Env) (log : List Notification) : Except Panic FilterIndexer := do
  log.foldlM (handle bip) (← new bip env ∅)

/-! ## Keys -/

/-- The heights and hashes of keys fit their types. -/
def Key.Fits : Key → Prop
  | .filter n | .filterHash n | .filterHeader n => n < 2 ^ 32
  | .height hash => hash < 2 ^ 256

/-- Keys of different kinds never meet, the two kinds of one column included. -/
theorem rawKey_inj {key key' : Key} (h : key.Fits) (h' : key'.Fits) :
    DiskDatabase.rawKey key = DiskDatabase.rawKey key' ↔ key = key' := by
  refine ⟨fun heq => ?_, congrArg _⟩
  obtain ⟨hcol, hbytes⟩ := Prod.mk.inj heq
  have hmixed : ∀ n hash, Bytes.le 4 n ≠ hashBytes hash := fun n hash heq => by
    simpa using congrArg List.length heq
  cases key <;> cases key' <;>
    simp_all [DBKey.col, DBKey.encode, Key.col, Key.encode, Key.Fits, COL_FILTER, COL_FILTER_HASH,
      COL_FILTER_HEADER, COL_HEIGHT, Bytes.le_inj, hashBytes_inj, Ne.symm (hmixed _ _)]

end FilterIndexer

end BitcoinNode

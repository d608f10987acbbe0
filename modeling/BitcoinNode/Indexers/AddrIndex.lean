import BitcoinNode.Blockchain.Notified
import BitcoinNode.Indexers.DiskDatabase
import BitcoinNode.Library.KeyOrder
import BitcoinNode.Library.VarInt

/-!
# The address index

`indexers/addrindex.rs`: in one column a key for each address, height and position of a
transaction that touches the address, and the transaction id for each height and position. An
address is queried by a scan of the keys that start with it.
-/

namespace BitcoinNode

/-! ## Addresses -/

/-- The hash of a public key or a script. -/
abbrev Hash160 := { bytes : List UInt8 // bytes.length = 20 }

/-- What an address pays to. The network of an address is not part of any key. -/
inductive Payload where
  | pubkeyHash (hash : Hash160)
  | scriptHash (hash : Hash160)
  | witnessProgram (version : Nat) (program : List UInt8)
  deriving DecidableEq

inductive AddressType where
  | p2pkh | p2sh | p2wpkh | p2wsh
  deriving DecidableEq, Repr

/-- `Address::address_type` -/
def Payload.addressType : Payload → Option AddressType
  | .pubkeyHash _ => some .p2pkh
  | .scriptHash _ => some .p2sh
  | .witnessProgram version program =>
    if version = 0 then
      if program.length = 20 then some .p2wpkh
      else if program.length = 32 then some .p2wsh
      else none
    else none

/-- An address for which `is_standard` holds, with its type. -/
structure StandardAddress where
  payload : Payload
  type : AddressType
  standard : payload.addressType = some type
  deriving DecidableEq

/-- An address that passes `is_standard`. -/
def Payload.standard? (payload : Payload) : Option StandardAddress :=
  match h : payload.addressType with
  | some type => some ⟨payload, type, h⟩
  | none => none

namespace AddrIndexer

def COL_ADDR : String := "A"

inductive Key where
  | addrMap (address : StandardAddress) (height index : Nat)
  | address (address : StandardAddress)
  | txidByHeightAndIndex (height index : Nat)
  deriving DecidableEq

def typeByte : AddressType → UInt8
  | .p2pkh => 0
  | .p2sh => 1
  | .p2wpkh => 2
  | .p2wsh => 3

/-- The bytes of a payload: only a witness program has its length before it. -/
def payloadBytes : Payload → List UInt8
  | .pubkeyHash hash => hash.val
  | .scriptHash hash => hash.val
  | .witnessProgram _ program => VarInt.encode program.length ++ program

/-- What the keys of an address start with. -/
def addressBytes (a : StandardAddress) : List UInt8 := typeByte a.type :: payloadBytes a.payload

def Key.encode : Key → List UInt8
  | .txidByHeightAndIndex height index => Bytes.le 4 height ++ Bytes.le 4 index
  | .addrMap a height index => addressBytes a ++ Bytes.be 4 height ++ Bytes.be 4 index
  | .address a => addressBytes a

instance : DBKey Key := ⟨fun _ => COL_ADDR, Key.encode⟩

/-- A stored value: the empty byte string, or a transaction id. -/
inductive Value where
  | dummy
  | txid (txid : Txid)
  deriving DecidableEq, Repr

/-- Whether the stored bytes decode as a byte string: they start with a length that leaves
room for it. -/
def Value.isVec : Value → Bool
  | .dummy => true
  | .txid t =>
    match VarInt.decode (hashBytes t) with
    | none => false
    | some (length, used) => decide (used + length ≤ 32)

end AddrIndexer

/-- The index, with `Address::from_script` for its network. -/
structure AddrIndexer where
  db : DiskDatabase AddrIndexer.Value
  fromScript : Script → Option Payload

namespace AddrIndexer

def new (fromScript : Script → Option Payload) : AddrIndexer := ⟨∅, fromScript⟩

/-! ## Indexing -/

/-- The standard address a script pays. -/
def standardAddress (fromScript : Script → Option Payload) (script : Script) :
    Option StandardAddress :=
  (fromScript script).bind Payload.standard?

/-- The scripts of what a transaction spends; a coinbase is not looked at. -/
def spentScripts (view : CoinView) (tx : Transaction) : Except Panic (List Script) :=
  if tx.isCoinBase then .ok []
  else tx.input.mapM fun input =>
    match view.map.lookup input.previousOutput with
    | none => .error .addressCoin
    | some coin => .ok coin.output.scriptPubkey

def outputScripts (tx : Transaction) : List Script := tx.output.map TxOut.scriptPubkey

/-- What a transaction adds to the batch; the index is cut to 32 bits. -/
def indexTx (env : Env) (fromScript : Script → Option Payload) (height : Nat) (view : CoinView)
    (tx : Transaction × Nat) : Except Panic (List (DiskOperation Key Value)) := do
  let index := tx.2 % 2 ^ 32
  let spent ← spentScripts view tx.1
  let addresses := (spent ++ outputScripts tx.1).filterMap (standardAddress fromScript)
  let hasAddress := !addresses.isEmpty
  return addresses.map (fun a => .insert (.addrMap a height index) .dummy)
    ++ if hasAddress then
        [.insert (.txidByHeightAndIndex height index) (.txid (env.txid tx.1))]
      else []

def indexBlock (env : Env) (indexer : AddrIndexer) (entry : ChainEntry) (block : Block)
    (view : CoinView) : Except Panic AddrIndexer := do
  let batch ← block.txdata.zipIdx.mapM (indexTx env indexer.fromScript entry.height view)
  return { indexer with db := indexer.db.writeBatch batch.flatten }

/-- What a transaction takes away. Here an address that is not standard counts for
`has_address` when it is spent. -/
def unindexTx (fromScript : Script → Option Payload) (height : Nat) (view : CoinView)
    (tx : Transaction × Nat) : Except Panic (List (DiskOperation Key Value)) := do
  let index := tx.2 % 2 ^ 32
  let spent ← spentScripts view tx.1
  let addresses := (spent ++ outputScripts tx.1).filterMap (standardAddress fromScript)
  let hasAddress := spent.any (fun script => (fromScript script).isSome)
    || (outputScripts tx.1).any fun script => (standardAddress fromScript script).isSome
  return addresses.map (fun a => .remove (.addrMap a height index))
    ++ if hasAddress then [.remove (.txidByHeightAndIndex height index)] else []

def unindexBlock (indexer : AddrIndexer) (entry : ChainEntry) (block : Block)
    (view : CoinView) : Except Panic AddrIndexer := do
  let batch ← block.txdata.zipIdx.mapM (unindexTx indexer.fromScript entry.height view)
  return { indexer with db := indexer.db.writeBatch batch.flatten }

def handle (env : Env) (indexer : AddrIndexer) : Notification → Except Panic AddrIndexer
  | .connect _ entry block view => indexer.indexBlock env entry block view
  | .disconnect _ entry block view => indexer.unindexBlock entry block view

/-! ## Queries -/

/-- Where the height stands in a key, by the length that is read behind the first byte. -/
def heightPosition (key : List UInt8) : Except Panic Nat :=
  match VarInt.decode (key.drop 1) with
  | none => .error .addressKey
  | some (hashLength, used) => .ok (Word.add 64 (1 + used) hashLength)

/-- `u32::from_be_bytes(key[pos..pos + 4])` -/
def readHeight (key : List UInt8) (pos : Nat) : Except Panic Nat :=
  if pos + 4 ≤ key.length then .ok (Bytes.ofBe (Bytes.slice key pos 4)) else .error .addressKey

/-- The height and the index read back from a key. -/
def readKey (key : List UInt8) : Except Panic (Nat × Nat) := do
  let pos ← heightPosition key
  let height ← readHeight key pos
  let index ← readHeight key (pos + 4)
  return (height, index)

/-- The loop of `txids_for_address` over the entries from the address on. -/
def scan (db : DiskDatabase Value) (max : List UInt8) :
    List (List UInt8 × Value) → Finset Txid → Except Panic (Finset Txid)
  | [], txids => .ok txids
  | (key, value) :: entries, txids =>
    -- the iterator ends at a value that does not decode
    if value.isVec = false then .ok txids
    else if Bytes.lexLe key max = false then .ok txids
    else do
      let (height, index) ← readKey key
      match db.get (Key.txidByHeightAndIndex height index) with
      | none => scan db max entries txids
      | some (.txid txid) => scan db max entries (insert txid txids)
      | some .dummy => throw .indexValue

/-- The entries of the column from a key on, in the order of their bytes. -/
def entriesFrom (db : DiskDatabase Value) (bound : List UInt8) : List (List UInt8 × Value) :=
  (Bytes.sortedFrom ((db.keys.filter fun key => key.1 = COL_ADDR).image Prod.snd) bound).filterMap
    fun key => (db.lookup (COL_ADDR, key)).map fun value => (key, value)

/-- The transactions that touch an address. -/
def txidsForAddress (indexer : AddrIndexer) (address : Payload) : Except Panic (Finset Txid) :=
  match address.standard? with
  | none => .error .addressType
  | some a =>
    scan indexer.db (Key.addrMap a (2 ^ 32 - 1) (2 ^ 32 - 1)).encode
      (entriesFrom indexer.db (Key.address a).encode) ∅

end AddrIndexer

end BitcoinNode

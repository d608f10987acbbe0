import BitcoinNode.Protocol

/-!
# Chain entries

`blockchain/chain_entry.rs`: a block header with its place in the header tree.
-/

namespace BitcoinNode

/-- An entry in the blockchain: a block header with its height and cumulative work. -/
structure ChainEntry where
  hash : BlockHash
  version : Int32
  prevBlock : BlockHash
  merkleRoot : Nat
  time : Nat
  bits : Nat
  nonce : Nat
  height : Nat
  chainwork : Nat
  skip : BlockHash
  deriving DecidableEq, Repr

namespace ChainEntry

/-- `ChainEntry::default()` -/
def default : ChainEntry := ⟨0, 0, 0, 0, 0, 0, 0, 0, 0, 0⟩

/-- Create a chain entry from a block header and previous chain entry (unless genesis). -/
def fromBlockHeader (env : Env) (header : BlockHeader) (prev : Option ChainEntry) : ChainEntry where
  hash := env.blockHash header
  version := header.version
  prevBlock := header.prevBlockhash
  merkleRoot := header.merkleRoot
  time := header.time
  bits := header.bits
  nonce := header.nonce
  height := match prev with
    | some prev => prev.height + 1
    | none => 0
  chainwork := match prev with
    | some prev => prev.chainwork + env.work header
    | none => env.work header
  skip := 0

/-- Whether the entry is for the genesis block. -/
def isGenesis (entry : ChainEntry) : Bool := entry.height == 0

/-- Does this entry signal for a certain version bit. -/
def hasBit (entry : ChainEntry) (bit : Nat) : Bool :=
  entry.version &&& VERSIONBITS_TOP_MASK == VERSIONBITS_TOP_BITS
    && entry.version &&& ((1 : Int32) <<< Int32.ofNat bit) != 0

/-- The header an entry was made from. -/
def header (entry : ChainEntry) : BlockHeader where
  version := entry.version
  prevBlockhash := entry.prevBlock
  merkleRoot := entry.merkleRoot
  time := entry.time
  bits := entry.bits
  nonce := entry.nonce

@[simp] theorem header_fromBlockHeader (env : Env) (header : BlockHeader)
    (prev : Option ChainEntry) : (fromBlockHeader env header prev).header = header := rfl

end ChainEntry

/-- The entry that `save_genesis` stores. -/
def Env.genesisEntry (env : Env) : ChainEntry :=
  ChainEntry.fromBlockHeader env env.genesisBlock.header none

@[simp] theorem Env.genesisEntry_height (env : Env) : env.genesisEntry.height = 0 := rfl

@[simp] theorem Env.genesisEntry_header (env : Env) :
    env.genesisEntry.header = env.genesisBlock.header := rfl

end BitcoinNode

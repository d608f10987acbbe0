import BitcoinNode.Net.BloomFilter
import BitcoinNode.Net.PeerRequests

/-!
# Serving blocks and transactions

`handle_get_data` of `net/peer_manager.rs`: what a node sends of its blocks and of its pool, and
what it says it does not have. Sending does not fail here.
-/

namespace BitcoinNode

/-- What is sent in answer to a request. A merkle block is made of a block and the transactions in
it that match. -/
inductive Served where
  | tx (tx : Transaction)
  | block (block : Block)
  | cmpctBlock (compact : HeaderAndShortIds)
  | merkleBlock (block : Block) (matched : List Txid)
  | notFound (items : List Inventory)

namespace RequestManager

/-- The transactions of a block that match a filter. -/
def matching (env : Env) (lib : Bip37) (filter : BloomFilter) :
    List Transaction → Except Panic (List Transaction)
  | [] => .ok []
  | tx :: txs => do
    let found ← filter.contains lib (hashBytes (env.txid tx))
    let rest ← matching env lib filter txs
    return if found then tx :: rest else rest

/-- The answer to one item, `none` for what goes on the list of items not found. A compact block
is sent for the last ten heights below the tip and the tip. -/
def serveItem (env : Env) (lib : Bip37) (bip152 : Bip152) (m : RequestManager)
    (spvFilter : Option BloomFilter) (nonce : Nat) :
    Inventory → Except Panic (Option (List Served))
  | .witnessTransaction txid =>
    match m.mempool.bind fun mempool => mempool.transactions.lookup txid with
    | none => .ok none
    | some entry => .ok (if entry.tx.isCoinBase then none else some [.tx entry.tx])
  | .witnessBlock hash => .ok ((m.chain.db.getBlock hash).map fun block => [.block block])
  | .compactBlock hash =>
    match m.chain.db.getEntryByHash hash with
    | none => .ok none
    | some entry =>
      .ok ((m.chain.db.getBlock hash).map fun block =>
        if entry.height < m.chain.tip.height - 10 then [.block block]
        else [.cmpctBlock (.fromBlock bip152 block nonce)])
  | .witnessFilteredBlock hash =>
    match spvFilter with
    | none => .ok none
    | some filter =>
      match m.chain.db.getBlock hash with
      | none => .ok none
      | some block => do
        let matched ← matching env lib filter block.txdata
        return some (.merkleBlock block (matched.map env.txid) :: matched.map .tx)
  | .error | .unknown _ _ | .transaction _ | .filteredBlock _ | .block _ | .wTx _ => .ok (some [])

/-- The loop of `handle_get_data`, with what was sent and not found so far; the random nonces are
numbered by the items left. -/
def serveLoop (env : Env) (lib : Bip37) (bip152 : Bip152) (m : RequestManager)
    (spvFilter : Option BloomFilter) (nonces : Nat → Nat) :
    List Inventory → List Served → List Inventory → Except Panic (List Served × List Inventory)
  | [], sent, notFound => .ok (sent, notFound)
  | item :: items, sent, notFound => do
    match ← m.serveItem env lib bip152 spvFilter (nonces items.length) item with
    | none => serveLoop env lib bip152 m spvFilter nonces items sent (notFound ++ [item])
    | some served => serveLoop env lib bip152 m spvFilter nonces items (sent ++ served) notFound

def handleGetData (env : Env) (lib : Bip37) (bip152 : Bip152) (m : RequestManager)
    (spvFilter : Option BloomFilter) (nonces : Nat → Nat) (items : List Inventory) :
    Except (Stop String) (List Served) :=
  if items.length > 50000 then .error (.error "inv too big")
  else
    match m.serveLoop env lib bip152 spvFilter nonces items [] [] with
    | .error p => .error (.panic p)
    | .ok (sent, notFound) =>
      .ok (if notFound.isEmpty then sent else sent ++ [.notFound notFound])

end RequestManager

end BitcoinNode

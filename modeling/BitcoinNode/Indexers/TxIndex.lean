import BitcoinNode.Blockchain.Notified
import BitcoinNode.Blockchain.Runs
import BitcoinNode.Blockstore.Rewrite
import BitcoinNode.Library.VarInt

/-!
# The transaction index

`indexers/txindex.rs`, with `read_transaction` of the block store: a transaction is found by
the height of its block and its place in the raw block. The places are added up from sizes,
apart from the code that writes the block.
-/

namespace BitcoinNode

/-- The consensus encoding of the `bitcoin` library. -/
structure Encoding where
  encodeHeader : BlockHeader → List UInt8
  encodeTx : Transaction → List UInt8
  decodeTx : List UInt8 → Option Transaction
  /-- `Transaction::get_size` -/
  txSize : Transaction → Nat

/-- A block is its header, the number of its transactions and the transactions. -/
def Encoding.encodeBlock (enc : Encoding) (block : Block) : List UInt8 :=
  enc.encodeHeader block.header ++ VarInt.encode block.txdata.length
    ++ block.txdata.flatMap enc.encodeTx

theorem length_encode_eq_varIntLen (n : Nat) : (VarInt.encode n).length = varIntLen n := by
  rw [VarInt.length_encode, varIntLen]

/-! ## Reading a transaction -/

/-- `read_transaction`: the bytes of a stored block from an offset on, decoded. -/
def BlockStore.readTransaction (enc : Encoding) (store : BlockStore) (hash : BlockHash)
    (offset length : Nat) : Except Panic (Option Transaction) :=
  match store.blocks.lookup hash with
  | none => .ok none
  | some block =>
    let data := enc.encodeBlock block
    if offset + length > data.length then .error .outOfBoundsRead
    else match enc.decodeTx (Bytes.slice data offset length) with
      | none => .error .readTransaction
      | some tx => .ok (some tx)

/-- `read_transaction` on the data files; the caller unwraps what it returns. -/
def FileBlockStore.readTransaction (enc : Encoding) (store : FileBlockStore) (hash : BlockHash)
    (offset length : Nat) : Except (Stop DBError) (Option Transaction) := do
  match ← store.read .block hash offset (some length) with
  | none => return none
  | some bytes =>
    match enc.decodeTx bytes with
    | none => throw (.error .io)
    | some tx => return some tx

/-- A part of a record that reads back as a whole is the part of its data. -/
theorem FileBlockStore.read_slice {store : FileBlockStore} {recordType : RecordType}
    {hash : BlockHash} {data : List UInt8} {offset length : Nat}
    (hfiles : ∀ path bytes, store.files.lookup path = some bytes → bytes.length < 2 ^ 32)
    (h : store.read recordType hash 0 none = .ok (some data))
    (hle : offset + length ≤ data.length) :
    store.read recordType hash offset (some length)
      = .ok (some (Bytes.slice data offset length)) := by
  obtain ⟨r, bytes, hr, hbytes, hroom, rfl⟩ := read_eq_some.1 h
  have hlt := hfiles _ _ hbytes
  have hlen : (Bytes.slice bytes (r.position % 2 ^ 32) r.length).length
      = min r.length (bytes.length - r.position % 2 ^ 32) := by
    simp [Bytes.slice]
  have hend : Word.add 32 offset length ≤ offset + length := Nat.mod_le _ _
  rw [Bytes.slice_slice (by omega), read_of_lookup hr hbytes, if_neg (by omega)]
  by_cases hzero : length = 0
  · rw [if_neg (by omega), hzero]
    simp [Bytes.slice]
  · have hpos : Word.add 32 r.position offset = r.position % 2 ^ 32 + offset := by
      rw [Word.add]
      omega
    rw [hpos, if_neg (by omega)]

/-- What the block store finds in a block, the data files find in its raw bytes. -/
theorem FileBlockStore.readTransaction_eq {enc : Encoding} {store : FileBlockStore}
    {blocks : BlockStore}
    (hfiles : ∀ path bytes, store.files.lookup path = some bytes → bytes.length < 2 ^ 32)
    (h : ∀ hash block, blocks.blocks.lookup hash = some block →
      store.read .block hash 0 none = .ok (some (enc.encodeBlock block)))
    {hash : BlockHash} {offset length : Nat} {tx : Transaction}
    (hread : blocks.readTransaction enc hash offset length = .ok (some tx)) :
    store.readTransaction enc hash offset length = .ok (some tx) := by
  unfold BlockStore.readTransaction at hread
  split at hread
  · cases hread
  rename_i block hblock
  dsimp only at hread
  split_ifs at hread with hlong
  split at hread
  · cases hread
  rename_i found hfound
  cases hread
  rw [FileBlockStore.readTransaction, read_slice hfiles (h _ _ hblock) (by omega), bind_of_ok rfl]
  dsimp only
  rw [hfound]
  rfl

/-! ## The indexer -/

structure TxMap where
  height : Nat
  offset : Nat
  length : Nat
  deriving DecidableEq, Repr

structure TxIndexer where
  db : FMap Txid TxMap

namespace TxIndexer

def new : TxIndexer := ⟨∅⟩

/-- The batch of `index_block` from an offset on; offset and length are cut to 32 bits. -/
def places (env : Env) (enc : Encoding) (height : Nat) :
    List Transaction → Nat → List (Txid × TxMap)
  | [], _ => []
  | tx :: txs, offset =>
    let length := enc.txSize tx
    (env.txid tx, ⟨height, offset % 2 ^ 32, length % 2 ^ 32⟩) ::
      places env enc height txs (offset + length)

/-- Where the transactions of a block start. -/
def firstOffset (block : Block) : Nat := 80 + varIntLen block.txdata.length

def indexBlock (env : Env) (enc : Encoding) (indexer : TxIndexer) (entry : ChainEntry)
    (block : Block) : TxIndexer :=
  ⟨Ledger.create indexer.db (places env enc entry.height block.txdata (firstOffset block))⟩

def unindexBlock (env : Env) (indexer : TxIndexer) (block : Block) : TxIndexer :=
  ⟨Ledger.drop indexer.db (block.txdata.map env.txid)⟩

def tx (enc : Encoding) (indexer : TxIndexer) (chain : Chain) (txid : Txid) :
    Except Panic (Option Transaction) :=
  match indexer.db.lookup txid with
  | none => .ok none
  | some place => do
    match ← chain.db.getEntryByHeight place.height with
    | none => return none
    | some entry => chain.db.blocks.readTransaction enc entry.hash place.offset place.length

def handle (env : Env) (enc : Encoding) (indexer : TxIndexer) : Notification → TxIndexer
  | .connect _ entry block _ => indexer.indexBlock env enc entry block
  | .disconnect _ _ block _ => indexer.unindexBlock env block

/-- The index on a fresh database after what its listener was told. -/
def run (env : Env) (enc : Encoding) (log : List Notification) : TxIndexer :=
  log.foldl (handle env enc) new

/-! ## Places -/

variable {env : Env} {enc : Encoding} {height offset : Nat} {txs : List Transaction}

theorem map_fst_places : (places env enc height txs offset).map Prod.fst = txs.map env.txid := by
  induction txs generalizing offset with
  | nil => rfl
  | cons tx txs ih => simp [places, ih]

/-- A place is that of a transaction behind the sizes of those before it. -/
theorem mem_places {txid : Txid} {place : TxMap} :
    (txid, place) ∈ places env enc height txs offset ↔
    ∃ before tx after, txs = before ++ tx :: after ∧ txid = env.txid tx
      ∧ place = ⟨height, (offset + (before.map enc.txSize).sum) % 2 ^ 32,
        enc.txSize tx % 2 ^ 32⟩ := by
  induction txs generalizing offset with
  | nil => simp [places]
  | cons first txs ih =>
    rw [places, List.mem_cons, ih]
    constructor
    · rintro (h | ⟨before, tx, after, rfl, rfl, rfl⟩)
      · obtain ⟨rfl, rfl⟩ := Prod.mk.inj h
        exact ⟨[], first, txs, rfl, rfl, rfl⟩
      · exact ⟨first :: before, tx, after, rfl, rfl, by simp [Nat.add_assoc]⟩
    · rintro ⟨before, tx, after, hsplit, rfl, rfl⟩
      cases before with
      | nil =>
        obtain ⟨rfl, rfl⟩ := List.cons.inj hsplit
        exact .inl rfl
      | cons x before =>
        obtain ⟨rfl, rfl⟩ := List.cons.inj hsplit
        exact .inr ⟨before, tx, after, rfl, rfl, by simp [Nat.add_assoc]⟩

/-- The bytes at the place of a transaction are its encoding. -/
theorem slice_encodeBlock (hheader : ∀ header, (enc.encodeHeader header).length = 80)
    (hsize : ∀ tx, enc.txSize tx = (enc.encodeTx tx).length) {block : Block}
    {before after : List Transaction} {tx : Transaction}
    (hsplit : block.txdata = before ++ tx :: after) :
    firstOffset block + (before.map enc.txSize).sum + enc.txSize tx
        ≤ (enc.encodeBlock block).length
      ∧ Bytes.slice (enc.encodeBlock block) (firstOffset block + (before.map enc.txSize).sum)
        (enc.txSize tx) = enc.encodeTx tx := by
  have hfront : (enc.encodeHeader block.header ++ VarInt.encode block.txdata.length
      ++ before.flatMap enc.encodeTx).length = firstOffset block + (before.map enc.txSize).sum := by
    have hsizes : enc.txSize = fun tx => (enc.encodeTx tx).length := funext hsize
    simp [hheader, length_encode_eq_varIntLen, firstOffset, hsizes, List.length_flatMap]
    omega
  have hdata : enc.encodeBlock block = enc.encodeHeader block.header
      ++ VarInt.encode block.txdata.length ++ before.flatMap enc.encodeTx ++ enc.encodeTx tx
        ++ after.flatMap enc.encodeTx := by
    simp [Encoding.encodeBlock, hsplit]
  refine ⟨?_, ?_⟩
  · rw [hdata, List.length_append, List.length_append, hfront, hsize]
    omega
  · rw [hdata, ← hfront, hsize]
    exact Bytes.slice_middle

/-! ## The index is that of the main chain -/

open Chain

/-- The transactions of some blocks. -/
def txsOf (links : List Link) : List Transaction := links.flatMap fun link => link.block.txdata

/-- No two transactions of the main chain had one id, at any time. -/
def UniqueTxids (env : Env) (log : List Notification) : Prop :=
  ∀ before, before <+: log → ((txsOf (linksOf before)).map env.txid).Nodup

theorem UniqueTxids.of_append {log log' : List Notification} (h : UniqueTxids env (log ++ log')) :
    UniqueTxids env log :=
  fun before hbefore => h before (hbefore.trans (List.prefix_append _ _))

/-- The index holds the places of the transactions of the blocks, and nothing else. -/
def Indexes (env : Env) (enc : Encoding) (indexer : TxIndexer) (links : List Link) : Prop :=
  ∀ txid place, indexer.db.lookup txid = some place ↔ ∃ link ∈ links,
    (txid, place) ∈ places env enc link.entry.height link.block.txdata (firstOffset link.block)

variable {indexer : TxIndexer} {links : List Link} {link : Link}

theorem txid_mem_of_place {txid : Txid} {place : TxMap}
    (h : (txid, place) ∈ places env enc height txs offset) : txid ∈ txs.map env.txid := by
  rw [← @map_fst_places _ enc height offset]
  exact List.mem_map_of_mem (f := Prod.fst) h

theorem Indexes.indexBlock (h : indexer.Indexes env enc links)
    (hunique : ((txsOf (links ++ [link])).map env.txid).Nodup) :
    (indexer.indexBlock env enc link.entry link.block).Indexes env enc (links ++ [link]) := by
  rw [txsOf, List.flatMap_append, List.map_append, List.nodup_append] at hunique
  obtain ⟨-, hnew, hapart⟩ := hunique
  intro txid place
  rw [TxIndexer.indexBlock, Ledger.lookup_create_eq_some (by simpa [map_fst_places] using hnew),
    map_fst_places, h txid place]
  constructor
  · rintro (hplace | ⟨-, old, hold, hplace⟩)
    · exact ⟨link, by simp, hplace⟩
    · exact ⟨old, by simp [hold], hplace⟩
  · rintro ⟨found, hfound, hplace⟩
    rcases List.mem_append.1 hfound with hfound | hfound
    · refine .inr ⟨fun hmem => ?_, found, hfound, hplace⟩
      refine hapart txid ?_ txid (by simpa using hmem) rfl
      obtain ⟨tx, htx, htxid⟩ := List.mem_map.1 (txid_mem_of_place hplace)
      exact List.mem_map.2 ⟨tx, List.mem_flatMap.2 ⟨found, hfound, htx⟩, htxid⟩
    · obtain rfl := List.mem_singleton.1 hfound
      exact .inl hplace

theorem Indexes.unindexBlock (h : indexer.Indexes env enc (links ++ [link]))
    (hunique : ((txsOf (links ++ [link])).map env.txid).Nodup) :
    (indexer.unindexBlock env link.block).Indexes env enc links := by
  rw [txsOf, List.flatMap_append, List.map_append, List.nodup_append] at hunique
  obtain ⟨-, -, hapart⟩ := hunique
  intro txid place
  rw [TxIndexer.unindexBlock, Ledger.lookup_drop]
  split_ifs with hmem
  · simp only [false_iff, not_exists, not_and]
    intro found hfound hplace
    refine hapart txid ?_ txid (by simpa using hmem) rfl
    obtain ⟨tx, htx, htxid⟩ := List.mem_map.1 (txid_mem_of_place hplace)
    exact List.mem_map.2 ⟨tx, List.mem_flatMap.2 ⟨found, hfound, htx⟩, htxid⟩
  · rw [h txid place]
    constructor
    · rintro ⟨found, hfound, hplace⟩
      rcases List.mem_append.1 hfound with hfound | hfound
      · exact ⟨found, hfound, hplace⟩
      · obtain rfl := List.mem_singleton.1 hfound
        exact absurd (txid_mem_of_place hplace) hmem
    · rintro ⟨found, hfound, hplace⟩
      exact ⟨found, by simp [hfound], hplace⟩

/-- Reorganizations leave no trace in the index. -/
theorem run_indexes {db : ChainDB} {tip : ChainEntry} {log : List Notification}
    (tree : db.Tree env) (h : ChainDB.Told db env.genesisEntry log tip)
    (hunique : UniqueTxids env log) : (run env enc log).Indexes env enc (linksOf log) := by
  induction h with
  | start => simp [Indexes, run, new]
  | @connect log s e tip b v _ _ _ _ ih =>
    have hnow := hunique _ (List.prefix_refl _)
    rw [linksOf_connect] at hnow ⊢
    rw [run, List.foldl_concat]
    exact (ih hunique.of_append).indexBlock hnow
  | @disconnect log s e p b v htold hne hb _ ih =>
    obtain ⟨rest, b', v', _, hlinks, hb', -⟩ :=
      (htold.branch tree.genesis).exists_last tree.genesis hne
    cases hb.symm.trans hb'
    have hbefore := hunique.of_append _ (List.prefix_refl _)
    have hindexes := ih hunique.of_append
    rw [hlinks] at hbefore hindexes
    rw [linksOf_disconnect, hlinks, List.dropLast_concat, run, List.foldl_concat]
    exact hindexes.unindexBlock hbefore

/-! ## Looking up transactions -/

/-- The transaction is in a block of the main chain above the genesis block. -/
def Confirmed (c : Chain) (tx : Transaction) : Prop :=
  ∃ height entry block, 1 ≤ height ∧ c.db.getEntryByHeight height = .ok (some entry)
    ∧ c.db.getBlock entry.hash = some block ∧ tx ∈ block.txdata

variable {c : Chain}

theorem confirmed_iff (law : env.Lawful) (h : Visited env c) {tx : Transaction} :
    Confirmed c tx ↔ ∃ link ∈ linksOf c.notified, tx ∈ link.block.txdata := by
  constructor
  · rintro ⟨height, entry, block, hpos, hentry, hblock, htx⟩
    obtain ⟨n, rfl⟩ := Nat.exists_eq_add_of_le' hpos
    have inv := h.inv law
    have hle : n + 1 ≤ c.tip.height := by
      by_contra hlt
      rw [ChainDB.getEntryByHeight, inv.main.above (by omega)] at hentry
      cases hentry
    rw [(h.told law).height_eq inv.tree] at hle
    have hlink : (linksOf c.notified)[n]? = some (linksOf c.notified)[n] :=
      List.getElem?_eq_getElem hle
    obtain ⟨-, hentry', hblock', -⟩ := h.getElem_linksOf law hlink
    cases hentry.symm.trans hentry'
    cases hblock.symm.trans hblock'
    exact ⟨_, List.getElem_mem hle, htx⟩
  · rintro ⟨link, hlink, htx⟩
    obtain ⟨i, hi⟩ := List.getElem?_of_mem hlink
    obtain ⟨-, hentry, hblock, -⟩ := h.getElem_linksOf law hi
    exact ⟨i + 1, _, _, by omega, hentry, hblock, htx⟩

/-- A place in the index leads to the transaction it was written for. -/
theorem tx_of_place (law : env.Lawful) (h : Visited env c)
    (hheader : ∀ header, (enc.encodeHeader header).length = 80)
    (hsize : ∀ tx, enc.txSize tx = (enc.encodeTx tx).length)
    (hblock : ∀ block, env.getSize block = (enc.encodeBlock block).length) {link : Link}
    (hlink : link ∈ linksOf c.notified) {before after : List Transaction} {tx : Transaction}
    (hsplit : link.block.txdata = before ++ tx :: after)
    (hdecode : enc.decodeTx (enc.encodeTx tx) = some tx) {txid : Txid}
    (hplace : indexer.db.lookup txid = some ⟨link.entry.height,
      (firstOffset link.block + (before.map enc.txSize).sum) % 2 ^ 32, enc.txSize tx % 2 ^ 32⟩) :
    indexer.tx enc c txid = .ok (some tx) := by
  obtain ⟨i, hi⟩ := List.getElem?_of_mem hlink
  obtain ⟨hheight, hentry, hstored, hgen⟩ := h.getElem_linksOf law hi
  obtain ⟨hle, hslice⟩ := slice_encodeBlock hheader hsize hsplit
  have hbound := h.getSize_le law hstored hgen
  rw [hblock] at hbound
  have hmax : BlockStore.MAX_FILE_LENGTH < 2 ^ 32 := by decide
  rw [TxIndexer.tx, hplace]
  dsimp only
  have hlookup : c.db.blocks.blocks.lookup link.entry.hash = some link.block := hstored
  rw [hheight, hentry, bind_of_ok rfl]
  dsimp only
  rw [Nat.mod_eq_of_lt (by omega), Nat.mod_eq_of_lt (by omega), BlockStore.readTransaction, hlookup]
  dsimp only
  rw [if_neg (by omega), hslice, hdecode]

/-- The index returns exactly the transactions of the main chain, each under its id, and never
panics. -/
theorem tx_eq_some_iff (law : env.Lawful) (h : Visited env c)
    (hunique : UniqueTxids env c.notified)
    (hheader : ∀ header, (enc.encodeHeader header).length = 80)
    (hsize : ∀ tx, enc.txSize tx = (enc.encodeTx tx).length)
    (hblock : ∀ block, env.getSize block = (enc.encodeBlock block).length)
    (hdecode : ∀ tx, Confirmed c tx → enc.decodeTx (enc.encodeTx tx) = some tx) (txid : Txid) :
    (∀ tx, (run env enc c.notified).tx enc c txid = .ok (some tx) ↔
        Confirmed c tx ∧ env.txid tx = txid)
      ∧ ((run env enc c.notified).tx enc c txid = .ok none ↔
        ∀ tx, Confirmed c tx → env.txid tx ≠ txid) := by
  have hindexes := @run_indexes _ enc _ _ _ (h.inv law).tree (h.told law) hunique
  have hnow : ((txsOf (linksOf c.notified)).map env.txid).Nodup := hunique _ (List.prefix_refl _)
  have hconfirmed : ∀ tx, Confirmed c tx ↔ tx ∈ txsOf (linksOf c.notified) := fun tx => by
    rw [confirmed_iff law h, txsOf, List.mem_flatMap]
  have hinj : ∀ tx tx', Confirmed c tx → Confirmed c tx' → env.txid tx = env.txid tx' → tx = tx' :=
    fun tx tx' htx htx' => List.inj_on_of_nodup_map hnow ((hconfirmed tx).1 htx)
      ((hconfirmed tx').1 htx')
  cases hlookup : (run env enc c.notified).db.lookup txid with
  | none =>
    have hnone : (run env enc c.notified).tx enc c txid = .ok none := by rw [TxIndexer.tx, hlookup]
    have hmissing : ∀ tx, Confirmed c tx → env.txid tx ≠ txid := by
      rintro tx htx rfl
      obtain ⟨link, hlink, hmem⟩ := (confirmed_iff law h).1 htx
      obtain ⟨before, after, hsplit⟩ := List.append_of_mem hmem
      have hplace := (hindexes (env.txid tx) _).2
        ⟨link, hlink, mem_places.2 ⟨before, tx, after, hsplit, rfl, rfl⟩⟩
      rw [hlookup] at hplace
      cases hplace
    rw [hnone]
    refine ⟨fun tx => ⟨?_, fun htx => absurd htx.2 (hmissing tx htx.1)⟩, fun _ => hmissing,
      fun _ => rfl⟩
    rintro ⟨⟩
  | some place =>
    obtain ⟨link, hlink, hplace⟩ := (hindexes txid place).1 hlookup
    obtain ⟨before, found, after, hsplit, rfl, rfl⟩ := mem_places.1 hplace
    have hfound : Confirmed c found := (confirmed_iff law h).2 ⟨link, hlink, by simp [hsplit]⟩
    rw [tx_of_place law h hheader hsize hblock hlink hsplit (hdecode found hfound) hlookup]
    refine ⟨fun tx => ⟨?_, ?_⟩, ?_, fun h => absurd rfl (h found hfound)⟩
    · rintro ⟨⟩
      exact ⟨hfound, rfl⟩
    · rintro ⟨htx, htxid⟩
      rw [hinj tx found htx hfound htxid]
    · rintro ⟨⟩

end TxIndexer

/-! ## A chain of one block -/

namespace Small

open Chain

def encodeInput (input : TxIn) : List UInt8 :=
  hashBytes input.previousOutput.txid ++ Bytes.le 4 input.previousOutput.vout
    ++ VarInt.encode input.scriptSig.length ++ input.scriptSig ++ Bytes.le 4 input.sequence

def encodeOutput (output : TxOut) : List UInt8 :=
  Bytes.le 8 output.value ++ VarInt.encode output.scriptPubkey.length ++ output.scriptPubkey

def encodeWitness (input : TxIn) : List UInt8 :=
  VarInt.encode input.witness.length
    ++ input.witness.flatMap fun item => VarInt.encode item.length ++ item

/-- The encoding of a transaction, with a mark and the witnesses if there are any. -/
def encodeTransaction (tx : Transaction) : List UInt8 :=
  Bytes.le 4 tx.version.toBitVec.toNat ++ (if tx.hasWitness then [0, 1] else [])
    ++ VarInt.encode tx.input.length ++ tx.input.flatMap encodeInput
    ++ VarInt.encode tx.output.length ++ tx.output.flatMap encodeOutput
    ++ (if tx.hasWitness then tx.input.flatMap encodeWitness else []) ++ Bytes.le 4 tx.lockTime

/-- The encoding of the network; it reads back the transaction of the block `first`. -/
def encoding : Encoding where
  encodeHeader header :=
    Bytes.le 4 header.version.toBitVec.toNat ++ hashBytes header.prevBlockhash
      ++ hashBytes header.merkleRoot ++ Bytes.le 4 header.time ++ Bytes.le 4 header.bits
      ++ Bytes.le 4 header.nonce
  encodeTx := encodeTransaction
  decodeTx bytes := first.txdata.find? fun tx => encodeTransaction tx == bytes
  txSize tx := (encodeTransaction tx).length

/-- The small network with the sizes of its encoding. -/
def sized : Env := { env with getSize := fun block => (encoding.encodeBlock block).length }

theorem sized_lawful : sized.Lawful where
  blockHash_ne_zero _ := Nat.succ_ne_zero _
  work_pos _ _ := Nat.two_pos
  genesis_prev := rfl

/-- The block of a notification of a connected block. -/
def connectedBlock : Notification → Option Block
  | .connect _ _ b _ => some b
  | .disconnect _ _ _ _ => none

theorem exists_first : ∃ c, Visited sized c ∧ c.notified.map connectedBlock = [some first] := by
  obtain ⟨c, hc, hP⟩ := exists_reachable sized [.add 1000 first]
    (fun c => decide (c.notified.map connectedBlock = [some first])) (by decide) (by decide +kernel)
  exact ⟨c, hc.visited sized_lawful, of_decide_eq_true hP⟩

end Small

namespace TxIndexer

open Chain

/-- Looking up the transaction of the only block. -/
theorem tx_eq_some_iff_first : ∃ c, c.notified.map Small.connectedBlock = [some Small.first] ∧
    ∀ txid, (∀ tx, (run Small.sized Small.encoding c.notified).tx Small.encoding c txid
          = .ok (some tx) ↔ Confirmed c tx ∧ Small.sized.txid tx = txid)
      ∧ ((run Small.sized Small.encoding c.notified).tx Small.encoding c txid = .ok none ↔
        ∀ tx, Confirmed c tx → Small.sized.txid tx ≠ txid) := by
  obtain ⟨c, hc, hblocks⟩ := Small.exists_first
  obtain ⟨n, hlog, hn⟩ := List.map_eq_singleton_iff.1 hblocks
  cases n with
  | disconnect => cases hn
  | connect s e b v =>
  obtain rfl := Option.some.inj hn
  have hlinks : linksOf c.notified = [⟨e, Small.first, v⟩] := by rw [hlog]; rfl
  refine ⟨c, hblocks, fun txid => tx_eq_some_iff Small.sized_lawful hc ?_ (fun _ => ?_)
    (fun _ => rfl) (fun _ => rfl) ?_ txid⟩
  · intro before hbefore
    rw [hlog] at hbefore
    rcases (@List.prefix_concat_iff _ _ [] _).1 hbefore with rfl | hnil
    · exact List.nodup_singleton _
    · obtain rfl := List.prefix_nil.1 hnil
      exact List.nodup_nil
  · simp [Small.encoding]
  · intro tx htx
    obtain ⟨link, hlink, hmem⟩ := (confirmed_iff Small.sized_lawful hc).1 htx
    rw [hlinks] at hlink
    obtain rfl := List.mem_singleton.1 hlink
    obtain rfl := List.mem_singleton.1 hmem
    decide +kernel

end TxIndexer

end BitcoinNode

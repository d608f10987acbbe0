import BitcoinNode.Library.FiniteMap
import BitcoinNode.Library.Result
import BitcoinNode.Library.Slots
import BitcoinNode.Library.Word
import BitcoinNode.Protocol

/-!
# Compact blocks

`net/compact_block.rs`: a block of which the transactions are found by short id among those
of the pool, and the rest is asked for by index.
-/

namespace BitcoinNode

abbrev Wtxid := Nat
abbrev ShortId := Nat

/-- The functions that compact blocks use of the library. -/
structure Bip152 where
  blockHash : BlockHeader → BlockHash
  wtxid : Transaction → Wtxid
  calculateSiphashKeys : BlockHeader → Nat → Nat × Nat
  withSiphashKeys : Wtxid → Nat × Nat → ShortId

namespace Bip152

/-- The short id of a transaction in a block with the header. -/
def shortId (lib : Bip152) (header : BlockHeader) (nonce : Nat) (tx : Transaction) : ShortId :=
  lib.withSiphashKeys (lib.wtxid tx) (lib.calculateSiphashKeys header nonce)

end Bip152

/-- A transaction sent with the block; `index` counts from the one before. -/
structure PrefilledTransaction where
  index : Nat
  tx : Transaction

structure HeaderAndShortIds where
  header : BlockHeader
  nonce : Nat
  prefilledTxs : List PrefilledTransaction
  shortIds : List ShortId

/-- `from_block(block, nonce, 2, &[])`, as `send_compact_block` calls it: the coinbase is
sent, and a short id for every other transaction. -/
def HeaderAndShortIds.fromBlock (lib : Bip152) (block : Block) (nonce : Nat) :
    HeaderAndShortIds where
  header := block.header
  nonce := nonce
  prefilledTxs := (block.txdata.take 1).map fun tx => ⟨0, tx⟩
  shortIds := (block.txdata.drop 1).map (lib.shortId block.header nonce)

structure BlockTransactionsRequest where
  blockHash : BlockHash
  indexes : List Nat

/-- The answer to a request, if all indexes are those of transactions. -/
def BlockTransactions.fromRequest (request : BlockTransactionsRequest) (block : Block) :
    Option (List Transaction) :=
  request.indexes.mapM (block.txdata[·]?)

structure CompactBlock where
  available : List (Option Transaction)
  header : BlockHeader
  sipKey : Nat × Nat
  totalTx : Nat
  count : Nat
  idMap : FMap ShortId Nat

namespace CompactBlock

/-- The loop over the prefilled transactions; `ids` is the number of short ids. -/
def prefill (ids : Nat) : List PrefilledTransaction → Int → List (Option Transaction) → Nat →
    Except Panic (List (Option Transaction) × Nat)
  | [], _, available, count => .ok (available, count)
  | ⟨index, tx⟩ :: prefilled, last, available, count =>
    let last := last + index + 1
    if ¬ last < 0xffff then .error .prefilledIndex
    else if ¬ last ≤ ids + 1 then .error .prefilledGap
    else if available.length ≤ last.toNat then .error .availableIndex
    else prefill ids prefilled last (available.set last.toNat (some tx)) (count + 1)

/-- Move the offset past filled slots; `none` when the slots run out. -/
def skipFilled : List (Option Transaction) → Nat → Option Nat
  | [], _ => none
  | none :: _, offset => some offset
  | some _ :: slots, offset => skipFilled slots (offset + 1)

/-- The loop over the short ids; `none` when two are equal. -/
def mapIds (available : List (Option Transaction)) :
    List ShortId → Nat → Nat → FMap ShortId Nat → Except Panic (Option (FMap ShortId Nat))
  | [], _, _, idMap => .ok (some idMap)
  | id :: ids, i, offset, idMap =>
    match skipFilled (available.drop (i + offset)) offset with
    | none => .error .availableIndex
    | some offset =>
      if id ∈ idMap then .ok none
      else mapIds available ids (i + 1) offset (idMap.insert id (i + offset))

def new (lib : Bip152) (headerAndShortIds : HeaderAndShortIds) :
    Except Panic (Option CompactBlock) := do
  let ⟨header, nonce, prefilledTxs, shortIds⟩ := headerAndShortIds
  let totalTx := prefilledTxs.length + shortIds.length
  let (available, count) ← prefill shortIds.length prefilledTxs (-1) (List.replicate totalTx none) 0
  let idMap ← mapIds available shortIds 0 0 ∅
  return idMap.map fun idMap =>
    { available, header, sipKey := lib.calculateSiphashKeys header nonce, totalTx, count, idMap }

def shortId (lib : Bip152) (c : CompactBlock) (txid : Wtxid) : ShortId :=
  lib.withSiphashKeys txid c.sipKey

/-- The loop of `fill_mempool`; `set` are the slots it has filled. -/
def fillLoop (lib : Bip152) : List Transaction → CompactBlock → Finset Nat → CompactBlock × Bool
  | [], c, _ => (c, false)
  | tx :: mempool, c, set =>
    match c.idMap.lookup (c.shortId lib (lib.wtxid tx)) with
    | none => fillLoop lib mempool c set
    | some index =>
      if index ∈ set then
        -- Siphash collision, just request it.
        fillLoop lib mempool
          { c with available := c.available.set index none, count := Word.sub 64 c.count 1 } set
      else
        let c := { c with available := c.available.set index (some tx), count := c.count + 1 }
        if c.count = c.totalTx then (c, true) else fillLoop lib mempool c (insert index set)

def fillMempool (lib : Bip152) (c : CompactBlock) (mempool : List Transaction) :
    CompactBlock × Bool :=
  if c.count = c.totalTx then (c, true) else fillLoop lib mempool c ∅

def fillMissing (c : CompactBlock) (transactions : List Transaction) : CompactBlock × Bool :=
  let (available, full) := Slots.replaceMissing c.available transactions
  ({ c with available := available }, full)

def intoBlockTransactionsRequest (lib : Bip152) (c : CompactBlock) : BlockTransactionsRequest where
  blockHash := lib.blockHash c.header
  indexes := Slots.missing c.available 0

/-- `From<CompactBlock> for Block` -/
def toBlock (c : CompactBlock) : Except Panic Block := do
  let txdata ← c.available.mapM fun tx =>
    match tx with
    | some tx => .ok tx
    | none => .error .compactIncomplete
  return ⟨c.header, txdata⟩

variable {lib : Bip152} {block : Block} {nonce : Nat} {c : CompactBlock} {set : Finset Nat}
  {mempool : List Transaction}

/-! ## Opening -/

/-- The loop over the short ids when only the first slot is filled. -/
theorem mapIds_eq {coinbase : Transaction} {n : Nat} {ids : List ShortId} {i : Nat}
    {idMap : FMap ShortId Nat} (hnodup : ids.Nodup) (hnew : ∀ id ∈ ids, id ∉ idMap)
    (hi : i + ids.length ≤ n) :
    ∃ idMap', mapIds (some coinbase :: List.replicate n none) ids i 1 idMap = .ok (some idMap')
      ∧ ∀ id j, idMap'.lookup id = some j ↔
        idMap.lookup id = some j ∨ ∃ k, ids[k]? = some id ∧ j = i + k + 1 := by
  induction ids generalizing i idMap with
  | nil => exact ⟨idMap, rfl, by simp⟩
  | cons id ids ih =>
    obtain ⟨hid, hnodup⟩ := List.nodup_cons.1 hnodup
    obtain ⟨hidnew, hnew⟩ := List.forall_mem_cons.1 hnew
    rw [List.length_cons] at hi
    have hskip : skipFilled ((some coinbase :: List.replicate n none).drop (i + 1)) 1 = some 1 := by
      rw [List.drop_succ_cons, List.drop_replicate, show n - i = (n - i - 1) + 1 by omega,
        List.replicate_succ]
      rfl
    obtain ⟨idMap', hmap, hlookup⟩ := @ih (i + 1) (idMap.insert id (i + 1)) hnodup
      (fun id' hmem => by
        rw [Finmap.mem_insert, not_or]
        exact ⟨fun heq => hid (heq ▸ hmem), hnew id' hmem⟩) (by omega)
    refine ⟨idMap', by rw [mapIds, hskip]; simp only [if_neg hidnew, hmap], fun id' j => ?_⟩
    rw [hlookup]
    constructor
    · rintro (hold | ⟨k, hk, rfl⟩)
      · by_cases heq : id' = id
        · subst heq
          rw [Finmap.lookup_insert] at hold
          exact .inr ⟨0, rfl, (Option.some.inj hold).symm⟩
        · exact .inl (by rwa [Finmap.lookup_insert_of_ne _ heq] at hold)
      · exact .inr ⟨k + 1, hk, by omega⟩
    · rintro (hold | ⟨k, hk, rfl⟩)
      · have hne : id' ≠ id := by
          rintro rfl
          exact hidnew (Finmap.mem_of_lookup_eq_some hold)
        exact .inl (by rwa [Finmap.lookup_insert_of_ne _ hne])
      · cases k with
        | zero =>
          obtain rfl := Option.some.inj hk
          exact .inl (Finmap.lookup_insert _)
        | succ k => exact .inr ⟨k, hk, by omega⟩

/-- The state of a compact block while the slots of `set` have been filled from the pool. -/
structure Filling (lib : Bip152) (block : Block) (nonce : Nat) (c : CompactBlock)
    (set : Finset Nat) : Prop where
  agrees : Slots.Agrees c.available block.txdata
  header : c.header = block.header
  sipKey : c.sipKey = lib.calculateSiphashKeys block.header nonce
  totalTx : c.totalTx = block.txdata.length
  count : c.count = c.available.countP Option.isSome
  idMap {id : ShortId} {j : Nat} : c.idMap.lookup id = some j ↔
    0 < j ∧ ∃ tx, block.txdata[j]? = some tx ∧ lib.shortId block.header nonce tx = id
  empty {j : Nat} : 0 < j → j < block.txdata.length → j ∉ set → c.available[j]? = some none

theorem exists_new (hcoinbase : block.txdata ≠ [])
    (hdistinct : (block.txdata.map (lib.shortId block.header nonce)).Nodup) :
    ∃ c, new lib (.fromBlock lib block nonce) = .ok (some c) ∧ c.Filling lib block nonce ∅ := by
  obtain ⟨header, txdata⟩ := block
  obtain ⟨coinbase, rest, rfl⟩ := List.exists_cons_of_ne_nil hcoinbase
  dsimp only at *
  obtain ⟨-, hnodup⟩ := List.nodup_cons.1 (List.map_cons ▸ hdistinct)
  have hprefill : prefill (rest.map (lib.shortId header nonce)).length [⟨0, coinbase⟩] (-1)
      (List.replicate (1 + (rest.map (lib.shortId header nonce)).length) none) 0
      = .ok (some coinbase :: List.replicate rest.length none, 1) := by
    rw [List.length_map, Nat.add_comm 1, List.replicate_succ]
    simp [prefill]
    omega
  obtain ⟨idMap, hmap, hlookup⟩ := @mapIds_eq coinbase rest.length
    (rest.map (lib.shortId header nonce)) 0 ∅ hnodup
    (fun _ _ => Finmap.notMem_empty) (by simp)
  -- the first short id skips the slot of the coinbase
  have hfirst : mapIds (some coinbase :: List.replicate rest.length none)
      (rest.map (lib.shortId header nonce)) 0 0 ∅ = .ok (some idMap) := by
    rw [← hmap]
    cases rest with
    | nil => rfl
    | cons tx rest => rfl
  refine ⟨⟨some coinbase :: List.replicate rest.length none, header,
    lib.calculateSiphashKeys header nonce, 1 + (rest.map (lib.shortId header nonce)).length, 1,
    idMap⟩, ?_, ?_⟩
  · unfold new HeaderAndShortIds.fromBlock
    dsimp only
    simp only [List.take_succ_cons, List.take_zero, List.map_cons, List.map_nil,
      List.drop_succ_cons, List.drop_zero, List.length_singleton]
    rw [hprefill, bind_of_ok rfl]
    dsimp only
    rw [hfirst, bind_of_ok rfl]
    rfl
  · refine ⟨.cons (by simp) Slots.agrees_replicate, rfl, rfl, by simp [Nat.add_comm], ?_, ?_, ?_⟩
    · simp [List.countP_replicate]
    · intro id j
      rw [hlookup]
      simp only [Finmap.lookup_empty, reduceCtorEq, false_or, Nat.zero_add, List.getElem?_map,
        Option.map_eq_some_iff]
      constructor
      · rintro ⟨k, ⟨tx, htx, rfl⟩, rfl⟩
        exact ⟨by omega, tx, by simpa using htx, rfl⟩
      · rintro ⟨hj, tx, htx, rfl⟩
        obtain ⟨k, rfl⟩ := Nat.exists_eq_succ_of_ne_zero hj.ne'
        exact ⟨k, ⟨tx, by simpa using htx, rfl⟩, rfl⟩
    · intro j hj hlt _
      obtain ⟨k, rfl⟩ := Nat.exists_eq_succ_of_ne_zero hj.ne'
      simp only [List.length_cons] at hlt
      simp [List.getElem?_replicate]
      omega

/-! ## Filling -/

/-- A transaction of the pool whose short id is that of a slot is the one of that slot. -/
theorem Filling.getElem?_eq (h : c.Filling lib block nonce set)
    (hdistinct : (block.txdata.map (lib.shortId block.header nonce)).Nodup) {tx : Transaction}
    (hforeign : tx ∉ block.txdata → ∀ tx' ∈ block.txdata,
      lib.shortId block.header nonce tx ≠ lib.shortId block.header nonce tx') {index : Nat}
    (hindex : c.idMap.lookup (c.shortId lib (lib.wtxid tx)) = some index) :
    0 < index ∧ block.txdata[index]? = some tx := by
  have hkey : c.shortId lib (lib.wtxid tx) = lib.shortId block.header nonce tx := by
    rw [shortId, Bip152.shortId, h.sipKey]
  rw [hkey] at hindex
  obtain ⟨hpos, tx', htx', hid⟩ := h.idMap.1 hindex
  refine ⟨hpos, ?_⟩
  have hmem : tx ∈ block.txdata := by
    by_contra hnot
    exact hforeign hnot tx' (List.mem_of_getElem? htx') hid.symm
  rw [htx', List.inj_on_of_nodup_map hdistinct (List.mem_of_getElem? htx') hmem hid]

theorem Filling.fill (h : c.Filling lib block nonce set) {tx : Transaction} {index : Nat}
    (hpos : 0 < index) (htx : block.txdata[index]? = some tx) (hindex : index ∉ set) :
    Filling lib block nonce { c with
      available := c.available.set index (some tx), count := c.count + 1 } (insert index set) := by
  have hlt := (List.getElem?_eq_some_iff.1 htx).1
  refine ⟨h.agrees.set htx, h.header, h.sipKey, h.totalTx, ?_, h.idMap, ?_⟩
  · rw [h.count, Slots.countP_set (h.empty hpos hlt hindex)]
  · intro j hj hlt' hmem
    rw [Finset.mem_insert, not_or] at hmem
    rw [List.getElem?_set_ne (Ne.symm hmem.1)]
    exact h.empty hj hlt' hmem.2

/-- The loop keeps the slots right, and reports full slots only when all are. -/
theorem fillLoop_spec (hdistinct : (block.txdata.map (lib.shortId block.header nonce)).Nodup)
    (h : c.Filling lib block nonce set)
    (honce : (mempool.filter (· ∈ block.txdata)).Nodup)
    (hforeign : ∀ tx ∈ mempool, tx ∉ block.txdata → ∀ tx' ∈ block.txdata,
      lib.shortId block.header nonce tx ≠ lib.shortId block.header nonce tx')
    (hset : ∀ index ∈ set, ∀ tx ∈ block.txdata[index]?, tx ∉ mempool) :
    ∃ set', (fillLoop lib mempool c set).1.Filling lib block nonce set'
      ∧ ((fillLoop lib mempool c set).2 = true →
        (fillLoop lib mempool c set).1.count = block.txdata.length) := by
  induction mempool generalizing c set with
  | nil => exact ⟨set, h, by simp [fillLoop]⟩
  | cons tx mempool ih =>
    obtain ⟨htx, hforeign⟩ := List.forall_mem_cons.1 hforeign
    have honce' : (mempool.filter (· ∈ block.txdata)).Nodup :=
      honce.sublist ((List.sublist_cons_self tx mempool).filter _)
    have hset' : ∀ index ∈ set, ∀ tx ∈ block.txdata[index]?, tx ∉ mempool :=
      fun index hmem tx htx hin => hset index hmem tx htx (List.mem_cons_of_mem _ hin)
    rw [fillLoop]
    cases hindex : c.idMap.lookup (c.shortId lib (lib.wtxid tx)) with
    | none => exact ih h honce' hforeign hset'
    | some index =>
      obtain ⟨hpos, hget⟩ := h.getElem?_eq hdistinct htx hindex
      have hnew : index ∉ set := fun hmem => hset index hmem tx hget List.mem_cons_self
      have hfill := h.fill hpos hget hnew
      dsimp only
      rw [if_neg hnew]
      split
      · rename_i hfull
        exact ⟨_, hfill, fun _ => hfull.trans h.totalTx⟩
      · refine ih hfill honce' hforeign fun i hi tx' htx' hin => ?_
        rcases Finset.mem_insert.1 hi with rfl | hi
        · -- the pool holds a transaction of the block once
          obtain rfl := Option.some.inj (hget.symm.trans htx')
          rw [List.filter_cons_of_pos (by simpa using List.mem_of_getElem? hget)] at honce
          exact (List.nodup_cons.1 honce).1 (by simpa using ⟨hin, List.mem_of_getElem? hget⟩)
        · exact hset' i hi tx' htx' hin

theorem fillMempool_spec (hdistinct : (block.txdata.map (lib.shortId block.header nonce)).Nodup)
    (h : c.Filling lib block nonce ∅) (honce : (mempool.filter (· ∈ block.txdata)).Nodup)
    (hforeign : ∀ tx ∈ mempool, tx ∉ block.txdata → ∀ tx' ∈ block.txdata,
      lib.shortId block.header nonce tx ≠ lib.shortId block.header nonce tx') :
    ∃ set, (c.fillMempool lib mempool).1.Filling lib block nonce set
      ∧ ((c.fillMempool lib mempool).2 = true →
        (c.fillMempool lib mempool).1.count = block.txdata.length) := by
  unfold fillMempool
  split
  · rename_i hfull
    exact ⟨∅, h, fun _ => hfull.trans h.totalTx⟩
  · exact fillLoop_spec hdistinct h honce hforeign (by simp)

theorem toBlock_eq (havailable : c.available = block.txdata.map some)
    (hheader : c.header = block.header) : c.toBlock = .ok block := by
  have hmap : ∀ txs : List Transaction, (txs.map some).mapM (fun tx : Option Transaction =>
      match tx with
      | some tx => (.ok tx : Except Panic Transaction)
      | none => .error .compactIncomplete) = .ok txs := by
    intro txs
    induction txs with
    | nil => rfl
    | cons tx txs ih => rw [List.map_cons, List.mapM_cons, ih]; rfl
  rw [toBlock, havailable, hmap, hheader]
  rfl

/-- A block without empty slots is the one that was announced. -/
theorem Filling.toBlock_ok (h : c.Filling lib block nonce set)
    (hcount : c.count = block.txdata.length) : c.toBlock = .ok block := by
  have hlength := h.agrees.length_eq
  exact toBlock_eq (h.agrees.eq_map_some (by rw [← h.count, hcount, hlength]))
    h.header

/-- The transactions that are asked for complete the block. -/
theorem Filling.completed (h : c.Filling lib block nonce set) : ∃ transactions c',
    BlockTransactions.fromRequest (c.intoBlockTransactionsRequest lib) block = some transactions
      ∧ c.fillMissing transactions = (c', true) ∧ c'.toBlock = .ok block := by
  obtain ⟨transactions, hrequest, hreplace⟩ := @Slots.Agrees.replaceMissing_eq _ _ _ 0 []
    h.agrees rfl
  have hfill : c.fillMissing transactions
      = ({ c with available := block.txdata.map some }, true) := by
    rw [fillMissing, hreplace]
  exact ⟨transactions, _, hrequest, hfill, toBlock_eq rfl h.header⟩

/-- The block is found again from the coinbase, the short ids, what the pool holds of it and
the transactions asked for. -/
theorem reconstructs (lib : Bip152) (block : Block) (nonce : Nat)
    (mempool : List Transaction) (hcoinbase : block.txdata ≠ [])
    (hdistinct : (block.txdata.map (lib.shortId block.header nonce)).Nodup)
    (honce : (mempool.filter (· ∈ block.txdata)).Nodup)
    (hforeign : ∀ tx ∈ mempool, tx ∉ block.txdata → ∀ tx' ∈ block.txdata,
      lib.shortId block.header nonce tx ≠ lib.shortId block.header nonce tx') :
    ∃ c, new lib (.fromBlock lib block nonce) = .ok (some c)
      ∧ ((c.fillMempool lib mempool).2 = true →
        (c.fillMempool lib mempool).1.toBlock = .ok block)
      ∧ ((c.fillMempool lib mempool).2 = false → ∃ transactions,
        BlockTransactions.fromRequest
            ((c.fillMempool lib mempool).1.intoBlockTransactionsRequest lib) block
          = some transactions
        ∧ ((c.fillMempool lib mempool).1.fillMissing transactions).2 = true
        ∧ ((c.fillMempool lib mempool).1.fillMissing transactions).1.toBlock = .ok block) := by
  obtain ⟨c, hnew, hfilling⟩ := exists_new hcoinbase hdistinct
  obtain ⟨set, hfilled, hfull⟩ := fillMempool_spec hdistinct hfilling honce hforeign
  refine ⟨c, hnew, fun h => hfilled.toBlock_ok (hfull h), fun _ => ?_⟩
  obtain ⟨transactions, c', hrequest, hfill, hblock⟩ := hfilled.completed
  refine ⟨transactions, hrequest, ?_, ?_⟩
  · rw [hfill]
  · rw [hfill]
    exact hblock

end CompactBlock

namespace Small

/-- Wide hashes are told apart by the lock time. -/
def bip152 : Bip152 where
  blockHash header := header.nonce
  wtxid tx := tx.lockTime
  calculateSiphashKeys header nonce := (header.nonce, nonce)
  withSiphashKeys txid key := txid + key.1 + key.2

def relayed (lockTime : Nat) : Transaction := ⟨1, lockTime, [], []⟩

/-- A block of four transactions. -/
def relayedBlock : Block := ⟨⟨1, 0, 0, 0, 0, 7⟩, [relayed 0, relayed 1, relayed 2, relayed 3]⟩

end Small

/-- The pool holds one transaction of the block and one that is not in it. -/
theorem CompactBlock.reconstructs_small : ∃ c,
    new Small.bip152 (.fromBlock Small.bip152 Small.relayedBlock 5) = .ok (some c)
      ∧ ((c.fillMempool Small.bip152 [Small.relayed 9, Small.relayed 2]).2 = true →
        (c.fillMempool Small.bip152 [Small.relayed 9, Small.relayed 2]).1.toBlock
          = .ok Small.relayedBlock)
      ∧ ((c.fillMempool Small.bip152 [Small.relayed 9, Small.relayed 2]).2 = false →
        ∃ transactions, BlockTransactions.fromRequest
            ((c.fillMempool Small.bip152 [Small.relayed 9, Small.relayed 2]).1
              |>.intoBlockTransactionsRequest Small.bip152) Small.relayedBlock = some transactions
          ∧ ((c.fillMempool Small.bip152 [Small.relayed 9, Small.relayed 2]).1
              |>.fillMissing transactions).2 = true
          ∧ ((c.fillMempool Small.bip152 [Small.relayed 9, Small.relayed 2]).1
              |>.fillMissing transactions).1.toBlock = .ok Small.relayedBlock) :=
  reconstructs Small.bip152 Small.relayedBlock 5 [Small.relayed 9, Small.relayed 2]
    (by decide) (by decide) (by decide) (by decide)

end BitcoinNode

import BitcoinNode.Blockchain.Replay
import BitcoinNode.Indexers.TxIndex
import BitcoinNode.Library.Codec
import BitcoinNode.Library.VarInt

/-!
# Records on disk

The encoders and decoders of the records in the columns and in the undo files, over those of the
library for integers, hashes and outputs.
-/

namespace BitcoinNode

/-- The codecs of the library that the records are made of. -/
structure Consensus (ε : Type) where
  bool : Codec ε Bool
  i32 : Codec ε Int32
  u32 : Codec ε Nat
  u64 : Codec ε Nat
  hash : Codec ε BlockHash
  uint256 : Codec ε Nat
  txOut : Codec ε TxOut

/-- Values are read back as they were written; `outputs` are the outputs for which this holds. -/
structure Consensus.RoundTrips {ε : Type} (lib : Consensus ε) (outputs : TxOut → Prop) : Prop where
  bool : lib.bool.RoundTrips fun _ => True
  i32 : lib.i32.RoundTrips fun _ => True
  u32 : lib.u32.RoundTrips fun n => n < 2 ^ 32
  u64 : lib.u64.RoundTrips fun n => n < 2 ^ 64
  hash : lib.hash.RoundTrips fun n => n < 2 ^ 256
  uint256 : lib.uint256.RoundTrips fun n => n < 2 ^ 256
  txOut : lib.txOut.RoundTrips outputs

variable {ε : Type} (lib : Consensus ε) {outputs : TxOut → Prop}

/-! ## Coins -/

def MAX_HEIGHT : Nat := 2 ^ 32 - 1

def CoinEntry.consensusEncode (coin : CoinEntry) : List UInt8 :=
  lib.i32.encode coin.version
    ++ (match coin.height with
      | some height => lib.u32.encode height
      | none => lib.u32.encode MAX_HEIGHT)
    ++ lib.bool.encode coin.coinbase ++ lib.txOut.encode coin.output ++ lib.bool.encode coin.spent

def CoinEntry.consensusDecode : Decoder ε CoinEntry := do
  let version ← lib.i32.decode
  let height ← lib.u32.decode
  let height := if height = MAX_HEIGHT then none else some height
  let coinbase ← lib.bool.decode
  let output ← lib.txOut.decode
  let _spent ← lib.bool.decode
  return { version, height, coinbase, output, spent := false }

def UndoCoins.consensusEncode (undo : UndoCoins) : List UInt8 :=
  lib.u32.encode (undo.items.length % 2 ^ 32) ++ undo.items.flatMap (CoinEntry.consensusEncode lib)

def UndoCoins.consensusDecode : Decoder ε UndoCoins := do
  let count ← lib.u32.decode
  let items ← (CoinEntry.consensusDecode lib).many count []
  return { items }

/-! ## The block index -/

def ChainEntry.consensusEncode (entry : ChainEntry) : List UInt8 :=
  lib.hash.encode entry.hash ++ lib.i32.encode entry.version ++ lib.hash.encode entry.prevBlock
    ++ lib.hash.encode entry.merkleRoot ++ lib.u32.encode entry.time ++ lib.u32.encode entry.bits
    ++ lib.u32.encode entry.nonce ++ lib.u32.encode entry.height
    ++ lib.uint256.encode entry.chainwork ++ lib.hash.encode entry.skip

def ChainEntry.consensusDecode : Decoder ε ChainEntry := do
  let hash ← lib.hash.decode
  let version ← lib.i32.decode
  let prevBlock ← lib.hash.decode
  let merkleRoot ← lib.hash.decode
  let time ← lib.u32.decode
  let bits ← lib.u32.decode
  let nonce ← lib.u32.decode
  let height ← lib.u32.decode
  let chainwork ← lib.uint256.decode
  let skip ← lib.hash.decode
  return { hash, version, prevBlock, merkleRoot, time, bits, nonce, height, chainwork, skip }

def ChainState.consensusEncode (state : ChainState) : List UInt8 :=
  lib.hash.encode state.tip ++ lib.u64.encode state.tx ++ lib.u64.encode state.coin
    ++ lib.u64.encode state.value

def ChainState.consensusDecode : Decoder ε ChainState := do
  let tip ← lib.hash.decode
  let tx ← lib.u64.decode
  let coin ← lib.u64.decode
  let value ← lib.u64.decode
  return { tip, tx, coin, value, commited := false }

/-! ## The block files -/

def FileRecord.consensusEncode (record : FileRecord) : List UInt8 :=
  lib.u32.encode record.blocks ++ lib.u32.encode record.used ++ lib.u32.encode record.length

def FileRecord.consensusDecode : Decoder ε FileRecord := do
  let blocks ← lib.u32.decode
  let used ← lib.u32.decode
  let length ← lib.u32.decode
  return { blocks, used, length }

def BlockRecord.consensusEncode (record : BlockRecord) : List UInt8 :=
  lib.u32.encode record.file ++ lib.u32.encode record.position ++ lib.u32.encode record.length

def BlockRecord.consensusDecode : Decoder ε BlockRecord := do
  let file ← lib.u32.decode
  let position ← lib.u32.decode
  let length ← lib.u32.decode
  return { file, position, length }

def TxMap.consensusEncode (map : TxMap) : List UInt8 :=
  lib.u32.encode map.height ++ lib.u32.encode map.offset ++ lib.u32.encode map.length

def TxMap.consensusDecode : Decoder ε TxMap := do
  let height ← lib.u32.decode
  let offset ← lib.u32.decode
  let length ← lib.u32.decode
  return { height, offset, length }

/-! ## The values of the source's types -/

/-- A height that is known is not the number that stands for an unknown one. -/
structure CoinEntry.Storable (outputs : TxOut → Prop) (coin : CoinEntry) : Prop where
  height {h : Nat} : coin.height = some h → h < MAX_HEIGHT
  output : outputs coin.output

structure UndoCoins.Storable (outputs : TxOut → Prop) (undo : UndoCoins) : Prop where
  length : undo.items.length < 2 ^ 32
  items : ∀ coin ∈ undo.items, coin.Storable outputs

structure ChainEntry.Storable (entry : ChainEntry) : Prop where
  hash : entry.hash < 2 ^ 256
  prevBlock : entry.prevBlock < 2 ^ 256
  merkleRoot : entry.merkleRoot < 2 ^ 256
  time : entry.time < 2 ^ 32
  bits : entry.bits < 2 ^ 32
  nonce : entry.nonce < 2 ^ 32
  height : entry.height < 2 ^ 32
  chainwork : entry.chainwork < 2 ^ 256
  skip : entry.skip < 2 ^ 256

structure ChainState.Storable (state : ChainState) : Prop where
  tip : state.tip < 2 ^ 256
  tx : state.tx < 2 ^ 64
  coin : state.coin < 2 ^ 64
  value : state.value < 2 ^ 64

def FileRecord.Storable (record : FileRecord) : Prop :=
  record.blocks < 2 ^ 32 ∧ record.used < 2 ^ 32 ∧ record.length < 2 ^ 32

def BlockRecord.Storable (record : BlockRecord) : Prop :=
  record.file < 2 ^ 32 ∧ record.position < 2 ^ 32 ∧ record.length < 2 ^ 32

def TxMap.Storable (map : TxMap) : Prop :=
  map.height < 2 ^ 32 ∧ map.offset < 2 ^ 32 ∧ map.length < 2 ^ 32

/-! ## Reading back -/

section RoundTrip

variable {lib} (h : lib.RoundTrips outputs)

include h

theorem CoinEntry.reads {coin : CoinEntry} (fits : coin.Storable outputs) :
    (consensusDecode lib).Reads (coin.consensusEncode lib) coin.reload := by
  have hheight : lib.u32.decode.Reads (match coin.height with
      | some height => lib.u32.encode height
      | none => lib.u32.encode MAX_HEIGHT) (coin.height.getD MAX_HEIGHT) := by
    cases hcoin : coin.height with
    | none => exact h.u32 _ (by decide)
    | some height => exact h.u32 _ (lt_trans (fits.height hcoin) (by decide))
  have hknown : (if coin.height.getD MAX_HEIGHT = MAX_HEIGHT then none
      else some (coin.height.getD MAX_HEIGHT)) = coin.height := by
    cases hcoin : coin.height with
    | none => rfl
    | some height => exact if_neg (fits.height hcoin).ne
  have hcoin : coin.reload = ⟨coin.version,
      if coin.height.getD MAX_HEIGHT = MAX_HEIGHT then none else some (coin.height.getD MAX_HEIGHT),
      coin.coinbase, coin.output, false⟩ := by rw [hknown]; rfl
  rw [hcoin, consensusEncode]
  simp only [List.append_assoc]
  exact (h.i32 _ trivial).bind (hheight.bind ((h.bool _ trivial).bind
    ((h.txOut _ fits.output).bind (h.bool _ trivial).finish)))

theorem UndoCoins.reads {undo : UndoCoins} (fits : undo.Storable outputs) :
    (consensusDecode lib).Reads (undo.consensusEncode lib) undo.reload := by
  have hitems := Decoder.Reads.many (fun coin hcoin => CoinEntry.reads h (fits.items coin hcoin)) []
  rw [consensusEncode, Nat.mod_eq_of_lt fits.length]
  exact (h.u32 _ fits.length).bind hitems.finish

theorem ChainEntry.reads {entry : ChainEntry} (fits : entry.Storable) :
    (consensusDecode lib).Reads (entry.consensusEncode lib) entry := by
  rw [consensusEncode]
  simp only [List.append_assoc]
  exact (h.hash _ fits.hash).bind ((h.i32 _ trivial).bind ((h.hash _ fits.prevBlock).bind
    ((h.hash _ fits.merkleRoot).bind ((h.u32 _ fits.time).bind ((h.u32 _ fits.bits).bind
      ((h.u32 _ fits.nonce).bind ((h.u32 _ fits.height).bind ((h.uint256 _ fits.chainwork).bind
        (h.hash _ fits.skip).finish))))))))

theorem ChainState.reads {state : ChainState} (fits : state.Storable) :
    (consensusDecode lib).Reads (state.consensusEncode lib) { state with commited := false } := by
  rw [consensusEncode]
  simp only [List.append_assoc]
  exact (h.hash _ fits.tip).bind ((h.u64 _ fits.tx).bind ((h.u64 _ fits.coin).bind
    (h.u64 _ fits.value).finish))

theorem FileRecord.reads {record : FileRecord} (fits : record.Storable) :
    (consensusDecode lib).Reads (record.consensusEncode lib) record := by
  rw [consensusEncode, List.append_assoc]
  exact (h.u32 _ fits.1).bind ((h.u32 _ fits.2.1).bind (h.u32 _ fits.2.2).finish)

theorem BlockRecord.reads {record : BlockRecord} (fits : record.Storable) :
    (consensusDecode lib).Reads (record.consensusEncode lib) record := by
  rw [consensusEncode, List.append_assoc]
  exact (h.u32 _ fits.1).bind ((h.u32 _ fits.2.1).bind (h.u32 _ fits.2.2).finish)

theorem TxMap.reads {map : TxMap} (fits : map.Storable) :
    (consensusDecode lib).Reads (map.consensusEncode lib) map := by
  rw [consensusEncode, List.append_assoc]
  exact (h.u32 _ fits.1).bind ((h.u32 _ fits.2.1).bind (h.u32 _ fits.2.2).finish)

end RoundTrip

/-! ## What comes back with a disconnected block -/

namespace Chain

variable {env : Env} {c c' : Chain} {entry : ChainEntry} {block : Block}

/-- The coins that a block spends are unspent. -/
theorem journal_unspent {coins coins' : FMap OutPoint CoinEntry} {journal : List CoinEntry}
    {height : Nat} (hcoins : Unspent coins)
    (happly : Ledger.applyAll coins (block.ledgerTxs env height) = some (coins', journal)) :
    ∀ coin ∈ journal, coin.spent = false := by
  have hcreates : ∀ tx ∈ block.ledgerTxs env height, ∀ kv ∈ tx.creates, kv.2.spent = false := by
    intro tx htx kv hkv
    obtain ⟨tx', -, rfl⟩ := List.mem_map.1 htx
    obtain ⟨_, _, -, -, rfl⟩ := mem_createdCoins.1 hkv
    rfl
  intro coin hcoin
  obtain ⟨-, hspent⟩ := (Ledger.applyAll_values hcoins hcreates happly).1 coin hcoin
  exact hspent

/-- The undo record of a block lists the coins that it spends, in order. It is written unless there
is one, which is then the same if no transaction is created again. -/
theorem connect_journal (law : env.Lawful) (h : Visited env c)
    (hentry : c.db.getEntryByHash entry.hash = some entry)
    (hblock : c.db.getBlock entry.hash = some block) (hprev : entry.prevBlock = c.tip.hash)
    (hconnect : c.connect env block entry c.tip = .ok (c', .ok entry)) :
    ∃ undo journal, Ledger.applyAll c.db.db.coin (block.ledgerTxs env entry.height)
        = some (c'.db.db.coin, journal)
      ∧ undo.reload = ⟨journal⟩
      ∧ (undo.isEmpty = false → entry.hash ∉ c.db.blocks.undos ∨ NoRecreate env c'.notified →
        c'.db.blocks.undos.lookup entry.hash = some undo) := by
  have inv := h.inv law
  have hundo := h.undoInv law
  obtain ⟨cache, view, state, record, blocks, journal, -, -, happly, hitems, -, hwrite, hc'⟩ :=
    connect_effect inv hundo.unspent hentry hblock hprev hconnect
  have hreload : view.undo.reload = ⟨journal⟩ := by
    rw [UndoCoins.reload, hitems, List.map_map, UndoCoins.mk.injEq]
    refine (List.map_congr_left fun coin hcoin => ?_).trans (List.map_id journal)
    exact (CoinEntry.reload_eq (journal_unspent hundo.unspent happly coin hcoin))
  refine ⟨view.undo, journal, happly, hreload, fun hempty hcond => ?_⟩
  have hundos : c'.db.blocks.undos = blocks.undos := by
    rw [hc']
    rfl
  rw [hundos, (ChainDB.writeUndo_eq_ok hwrite).2, hempty, Bool.false_or]
  by_cases hmem : entry.hash ∈ c.db.blocks.undos
  · obtain ⟨stored, hstored⟩ := Finmap.mem_iff.1 hmem
    have hfresh := hcond.resolve_left (not_not.2 hmem)
    obtain ⟨log, hlog⟩ : ∃ log, c'.notified = c.notified ++ log := ⟨_, by rw [hc']; rfl⟩
    have replay := h.replayInv law (NoRecreate.of_append (hlog ▸ hfresh))
    obtain ⟨hsame, -⟩ := replay.undo_eq inv hentry hblock hprev happly hstored
    rw [if_pos (decide_eq_true hmem), hstored]
    exact congrArg (fun items => some (UndoCoins.mk items)) (hsame.trans hitems.symm)
  · rw [if_neg (by simpa using hmem), Finmap.lookup_insert]

/-- Disconnecting the tip brings back the coins that its undo record is read back with. -/
theorem disconnect_restores (law : env.Lawful) (h : Visited env c)
    (hdisconnect : c.disconnect env c.tip = .ok c') : ∃ block stored,
      c.db.getBlock c.tip.hash = some block
        ∧ c.db.blocks.undos.lookup c.tip.hash = some stored
        ∧ c'.db.db.coin = Ledger.revertAll c.db.db.coin (block.ledgerTxs env c.tip.height)
          stored.reload.items := by
  obtain ⟨block, prev, stored, view, hblock, -, -, hstored, heffective, rfl⟩ :=
    (h.undoInv law).disconnected (h.inv law) hdisconnect
  exact ⟨block, stored, hblock, hstored, heffective⟩

end Chain

/-- Records on disk are read back as they were written, whatever comes behind them, but for the
flags that are not stored; so the coins that come back with a disconnected block are those that it
spent, in order. -/
theorem records_round_trip {lib : Consensus ε} (h : lib.RoundTrips outputs) :
    (∀ coin : CoinEntry, coin.Storable outputs →
      (CoinEntry.consensusDecode lib).Reads (coin.consensusEncode lib) { coin with spent := false })
    ∧ (∀ undo : UndoCoins, undo.Storable outputs →
      (UndoCoins.consensusDecode lib).Reads (undo.consensusEncode lib)
        ⟨undo.items.map fun coin => { coin with spent := false }⟩)
    ∧ (∀ entry : ChainEntry, entry.Storable →
      (ChainEntry.consensusDecode lib).Reads (entry.consensusEncode lib) entry)
    ∧ (∀ state : ChainState, state.Storable →
      (ChainState.consensusDecode lib).Reads (state.consensusEncode lib)
        { state with commited := false })
    ∧ (∀ record : FileRecord, record.Storable →
      (FileRecord.consensusDecode lib).Reads (record.consensusEncode lib) record)
    ∧ (∀ record : BlockRecord, record.Storable →
      (BlockRecord.consensusDecode lib).Reads (record.consensusEncode lib) record)
    ∧ (∀ map : TxMap, map.Storable →
      (TxMap.consensusDecode lib).Reads (map.consensusEncode lib) map)
    ∧ ∀ {env : Env} {c c' : Chain}, env.Lawful → Chain.Visited env c →
      (∀ entry block, c.db.getEntryByHash entry.hash = some entry →
        c.db.getBlock entry.hash = some block → entry.prevBlock = c.tip.hash →
        c.connect env block entry c.tip = .ok (c', .ok entry) →
        ∃ undo journal, Ledger.applyAll c.db.db.coin (block.ledgerTxs env entry.height)
            = some (c'.db.db.coin, journal)
          ∧ (undo.Storable outputs →
            (UndoCoins.consensusDecode lib).Reads (undo.consensusEncode lib) ⟨journal⟩)
          ∧ (undo.isEmpty = false → 
            entry.hash ∉ c.db.blocks.undos ∨ Chain.NoRecreate env c'.notified →
            c'.db.blocks.undos.lookup entry.hash = some undo))
      ∧ (c.disconnect env c.tip = .ok c' → ∃ block stored,
        c.db.getBlock c.tip.hash = some block
          ∧ c.db.blocks.undos.lookup c.tip.hash = some stored
          ∧ (stored.Storable outputs → ∃ undo : UndoCoins,
            (UndoCoins.consensusDecode lib).Reads (stored.consensusEncode lib) undo
              ∧ c'.db.db.coin = Ledger.revertAll c.db.db.coin
                (block.ledgerTxs env c.tip.height) undo.items)) := by
  refine ⟨fun _ => CoinEntry.reads h, fun _ => UndoCoins.reads h, fun _ => ChainEntry.reads h,
    fun _ => ChainState.reads h, fun _ => FileRecord.reads h, fun _ => BlockRecord.reads h,
    fun _ => TxMap.reads h, fun {env c c'} law hvisited => ⟨?_, fun hdisconnect => ?_⟩⟩
  · intro entry block hentry hblock hprev hconnect
    obtain ⟨undo, journal, happly, hreload, hstored⟩ :=
      Chain.connect_journal law hvisited hentry hblock hprev hconnect
    exact ⟨undo, journal, happly, fun fits => hreload ▸ UndoCoins.reads h fits, hstored⟩
  · obtain ⟨block, stored, hblock, hstored, hcoin⟩ :=
      Chain.disconnect_restores law hvisited hdisconnect
    exact ⟨block, stored, hblock, hstored, fun fits => ⟨_, UndoCoins.reads h fits, hcoin⟩⟩

/-! ## The codecs of a little-endian library -/

namespace Small

/-- Takes some bytes. -/
def takeBytes (n : Nat) : Decoder Unit (List UInt8) := fun bytes =>
  if n ≤ bytes.length then .ok (bytes.take n, bytes.drop n) else .error ()

theorem takeBytes_reads (bytes : List UInt8) : (takeBytes bytes.length).Reads bytes bytes := by
  intro rest
  simp [takeBytes, StateT.run]

/-- Numbers of some bytes, lowest first. -/
def number (width : Nat) : Codec Unit Nat where
  encode := Bytes.le width
  decode := do
    let bytes ← takeBytes width
    return Bytes.ofLe bytes

theorem number_roundTrips (width : Nat) :
    (number width).RoundTrips fun n => n < 256 ^ width := by
  intro n hn
  have hread := takeBytes_reads (Bytes.le width n)
  rw [Bytes.length_le] at hread
  have := hread.finish (f := Bytes.ofLe)
  rwa [Bytes.ofLe_le hn] at this

def varInt : Decoder Unit Nat := fun bytes =>
  match VarInt.decode bytes with
  | some (n, used) => .ok (n, bytes.drop used)
  | none => .error ()

theorem varInt_reads {n : Nat} (h : n < 2 ^ 64) : varInt.Reads (VarInt.encode n) n := by
  intro rest
  simp [varInt, StateT.run, VarInt.decode_encode h]

/-- The codecs with little-endian numbers and scripts behind their length. -/
def consensus : Consensus Unit where
  bool := ⟨fun b => [if b then 1 else 0], do
    let bytes ← takeBytes 1
    return bytes != [0]⟩
  i32 := ⟨fun n => Bytes.le 4 n.toUInt32.toNat, do
    let n ← (number 4).decode
    return Int32.ofUInt32 (UInt32.ofNat n)⟩
  u32 := number 4
  u64 := number 8
  hash := number 32
  uint256 := number 32
  txOut := ⟨fun output => Bytes.le 8 output.value
      ++ (VarInt.encode output.scriptPubkey.length ++ output.scriptPubkey), do
    let value ← (number 8).decode
    let length ← varInt
    let script ← takeBytes length
    return { value, scriptPubkey := script }⟩

theorem consensus_roundTrips : consensus.RoundTrips fun output =>
    output.value < 2 ^ 64 ∧ output.scriptPubkey.length < 2 ^ 64 where
  bool b _ := by
    cases b
    · exact (takeBytes_reads [0]).finish
    · exact (takeBytes_reads [1]).finish
  i32 n _ := by
    have hread := (number_roundTrips 4 n.toUInt32.toNat n.toUInt32.toNat_lt).finish
      (f := fun n => Int32.ofUInt32 (UInt32.ofNat n))
    rw [UInt32.ofNat_toNat] at hread
    exact hread
  u32 n hn := number_roundTrips 4 n hn
  u64 n hn := number_roundTrips 8 n hn
  hash n hn := number_roundTrips 32 n (hn.trans_eq (by norm_num))
  uint256 n hn := number_roundTrips 32 n (hn.trans_eq (by norm_num))
  txOut output h :=
    (number_roundTrips 8 _ h.1).bind ((varInt_reads h.2).bind (takeBytes_reads _).finish)

end Small

/-- A coin of unknown height, marked spent, in front of another byte. -/
theorem records_round_trip_coin :
    (CoinEntry.consensusDecode Small.consensus).run
        (CoinEntry.consensusEncode Small.consensus ⟨1, none, true, ⟨5, [0x51]⟩, true⟩ ++ [7])
      = .ok (⟨1, none, true, ⟨5, [0x51]⟩, false⟩, [7]) :=
  (records_round_trip Small.consensus_roundTrips).1 _
    ⟨fun h => (Option.some_ne_none _ h.symm).elim, by decide⟩ [7]

end BitcoinNode

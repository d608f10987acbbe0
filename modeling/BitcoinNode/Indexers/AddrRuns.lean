import BitcoinNode.Indexers.AddrKeys

/-!
# What the address index holds

A block writes a key for every address that one of its transactions touches, and the id of the
transaction. The keys of blocks of different heights never meet, so after a run of blocks of
distinct heights the column holds what each of them wrote.
-/

namespace BitcoinNode

/-- The script is that of an output the transaction spends, as the view has it. -/
def CoinView.Spends (view : CoinView) (tx : Transaction) (script : Script) : Prop :=
  tx.isCoinBase = false ∧ ∃ input ∈ tx.input, ∃ coin,
    view.map.lookup input.previousOutput = some coin ∧ coin.output.scriptPubkey = script

/-- The transaction has an output that pays to the payload, or spends one. -/
def Transaction.Touches (fromScript : Script → Option Payload) (view : CoinView) (tx : Transaction)
    (payload : Payload) : Prop :=
  ∃ script, (view.Spends tx script ∨ ∃ output ∈ tx.output, output.scriptPubkey = script)
    ∧ fromScript script = some payload

namespace AddrIndexer

variable {env : Env} {fromScript : Script → Option Payload} {view : CoinView} {tx : Transaction}
  {a a' : StandardAddress} {links : List Link} {link link' : Link} {indexer indexer' : AddrIndexer}
  {key key' : Key} {value value' : Value} {height height' i : Nat} {op : DiskOperation Key Value}

open DiskDatabase

/-! ## One transaction -/

theorem standard_eq_some {payload : Payload} :
    payload.standard? = some a ↔ payload = a.payload := by
  obtain ⟨payload', type, hstandard⟩ := a
  unfold Payload.standard?
  split <;> grind

theorem standardAddress_eq_some {script : Script} :
    standardAddress fromScript script = some a ↔ fromScript script = some a.payload := by
  simp [standardAddress, Option.bind_eq_some_iff, standard_eq_some]

theorem mem_spentScripts {scripts : List Script} (h : spentScripts view tx = .ok scripts)
    {script : Script} : script ∈ scripts ↔ view.Spends tx script := by
  unfold spentScripts at h
  unfold CoinView.Spends
  split_ifs at h with hcoinbase
  · cases h
    simp [hcoinbase]
  · simp only [mem_mapM_eq_ok h, hcoinbase, true_and]
    refine exists_congr fun input => and_congr_right fun _ => ?_
    cases view.map.lookup input.previousOutput <;> simp

/-- The addresses collected from a transaction are those it touches. -/
theorem mem_addresses {spent : List Script} (h : spentScripts view tx = .ok spent) :
    a ∈ (spent ++ outputScripts tx).filterMap (standardAddress fromScript)
      ↔ tx.Touches fromScript view a.payload := by
  simp only [List.mem_filterMap, List.mem_append, mem_spentScripts h, outputScripts, List.mem_map,
    standardAddress_eq_some, Transaction.Touches]

/-- What is written for a transaction: a key for each address it touches, and its id if there
is one. -/
inductive Wrote (env : Env) (fromScript : Script → Option Payload) (height : Nat)
    (view : CoinView) (tx : Transaction × Nat) : Key → Value → Prop where
  | address {a : StandardAddress} : tx.1.Touches fromScript view a.payload →
      Wrote env fromScript height view tx (.addrMap a height (tx.2 % 2 ^ 32)) .dummy
  | txid {a : StandardAddress} : tx.1.Touches fromScript view a.payload →
      Wrote env fromScript height view tx (.txidByHeightAndIndex height (tx.2 % 2 ^ 32))
        (.txid (env.txid tx.1))

theorem mem_indexTx {tx : Transaction × Nat} {batch : List (DiskOperation Key Value)}
    (h : indexTx env fromScript height view tx = .ok batch) :
    op ∈ batch ↔ ∃ key value, op = .insert key value
      ∧ Wrote env fromScript height view tx key value := by
  simp only [indexTx, bind_eq_ok, pure_eq_ok] at h
  obtain ⟨spent, hspent, rfl⟩ := h
  have hmem := fun a => @mem_addresses fromScript _ _ a _ hspent
  generalize
    (spent ++ outputScripts tx.1).filterMap (standardAddress fromScript) = addresses at hmem ⊢
  have hempty : addresses.isEmpty = false ↔ ∃ a : StandardAddress,
      tx.1.Touches fromScript view a.payload := by
    rw [List.isEmpty_eq_false_iff_exists_mem, exists_congr hmem]
  constructor
  · intro hop
    rcases List.mem_append.1 hop with hop | hop
    · obtain ⟨a, ha, rfl⟩ := List.mem_map.1 hop
      exact ⟨_, _, rfl, .address ((hmem a).1 ha)⟩
    · split_ifs at hop with hsome
      · obtain ⟨a, ha⟩ := hempty.1 (by simpa using hsome)
        exact ⟨_, _, List.mem_singleton.1 hop, .txid ha⟩
      · simp at hop
  · rintro ⟨key, value, rfl, ha | ha⟩
    · exact List.mem_append_left _ (List.mem_map.2 ⟨_, (hmem _).2 ha, rfl⟩)
    · have := hempty.2 ⟨_, ha⟩
      simp [this]

/-! ## One block -/

/-- What is written for a block. -/
def WroteBlock (env : Env) (fromScript : Script → Option Payload) (link : Link) (key : Key)
    (value : Value) : Prop :=
  ∃ tx ∈ link.block.txdata.zipIdx,
    Wrote env fromScript link.entry.height link.view tx key value

theorem indexBlock_eq_ok
    (h : indexer.indexBlock env link.entry link.block link.view = .ok indexer') :
    indexer'.fromScript = indexer.fromScript
      ∧ ∃ batch : List (DiskOperation Key Value), indexer'.db = indexer.db.writeBatch batch
        ∧ ∀ op, op ∈ batch ↔ ∃ key value, op = .insert key value
          ∧ WroteBlock env indexer.fromScript link key value := by
  simp only [indexBlock, bind_eq_ok, pure_eq_ok] at h
  obtain ⟨batch, hbatch, rfl⟩ := h
  refine ⟨rfl, batch.flatten, rfl, fun op => ?_⟩
  constructor
  · intro hop
    obtain ⟨ops, hops, hop⟩ := List.mem_flatten.1 hop
    obtain ⟨tx, htx, hindex⟩ := (mem_mapM_eq_ok hbatch).1 hops
    obtain ⟨key, value, rfl, hwrote⟩ := (mem_indexTx hindex).1 hop
    exact ⟨key, value, rfl, tx, htx, hwrote⟩
  · rintro ⟨key, value, rfl, tx, htx, hwrote⟩
    obtain ⟨ops, hindex⟩ := exists_of_mapM hbatch htx
    exact List.mem_flatten.2 ⟨ops, (mem_mapM_eq_ok hbatch).2 ⟨tx, htx, hindex⟩,
      (mem_indexTx hindex).2 ⟨key, value, rfl, hwrote⟩⟩

/-- A key that a block of a height may write. -/
def Key.At (height : Nat) : Key → Prop
  | .addrMap _ n i | .txidByHeightAndIndex n i => n = height ∧ i < 2 ^ 32
  | .address _ => False

/-- The bytes of keys of blocks determine the keys. -/
theorem Key.At.inj (h : key.At height) (h' : key'.At height') (hlt : height < 2 ^ 32)
    (hlt' : height' < 2 ^ 32) (heq : rawKey key = rawKey key') : key = key' := by
  have hbytes : key.encode = key'.encode := (Prod.mk.inj heq).2
  match key, key', h, h' with
  | .addrMap a n i, .addrMap a' n' i', ⟨hn, hi⟩, ⟨hn', hi'⟩ =>
    obtain ⟨rfl, rfl, rfl⟩ := addrMap_inj ⟨hn ▸ hlt, hi⟩ ⟨hn' ▸ hlt', hi'⟩ hbytes
    rfl
  | .addrMap a n i, .txidByHeightAndIndex n' i', _, _ => exact absurd hbytes addrMap_ne_txid
  | .txidByHeightAndIndex n i, .addrMap a' n' i', _, _ => exact absurd hbytes.symm addrMap_ne_txid
  | .txidByHeightAndIndex n i, .txidByHeightAndIndex n' i', ⟨hn, hi⟩, ⟨hn', hi'⟩ =>
    obtain ⟨rfl, rfl⟩ := txidByHeightAndIndex_inj ⟨hn ▸ hlt, hi⟩ ⟨hn' ▸ hlt', hi'⟩ hbytes
    rfl

theorem Key.At.height_eq (h : key.At height) (h' : key.At height') : height = height' := by
  cases key <;> grind [Key.At]

theorem WroteBlock.at (h : WroteBlock env fromScript link key value) :
    key.At link.entry.height := by
  obtain ⟨tx, -, hwrote⟩ := h
  have hi := Nat.mod_lt tx.2 (Nat.two_pow_pos 32)
  cases hwrote <;> exact ⟨rfl, hi⟩

/-- A block with no more transactions than an index can tell apart writes one value under a key. -/
theorem WroteBlock.value_eq (h : WroteBlock env fromScript link key value)
    (h' : WroteBlock env fromScript link key value')
    (hlength : link.block.txdata.length ≤ 2 ^ 32) : value = value' := by
  have hsmall : ∀ tx ∈ link.block.txdata.zipIdx, tx.2 % 2 ^ 32 = tx.2 := fun tx htx =>
    Nat.mod_eq_of_lt ((List.snd_lt_of_mem_zipIdx htx).trans_le (by simpa using hlength))
  obtain ⟨tx, htx, hwrote⟩ := h
  obtain ⟨tx', htx', hwrote'⟩ := h'
  cases key with
  | addrMap a n i =>
    have hdummy : ∀ {tx value}, Wrote env fromScript link.entry.height link.view tx
        (.addrMap a n i) value → value = .dummy := by
      rintro tx value ⟨⟩
      rfl
    rw [hdummy hwrote, hdummy hwrote']
  | address a => cases hwrote
  | txidByHeightAndIndex n i =>
    have hid : ∀ {tx value}, Wrote env fromScript link.entry.height link.view tx
        (.txidByHeightAndIndex n i) value → i = tx.2 % 2 ^ 32 ∧ value = .txid (env.txid tx.1) := by
      rintro tx value ⟨⟩
      exact ⟨rfl, rfl⟩
    have hget := List.mem_zipIdx_iff_getElem?.1 htx
    have hget' := List.mem_zipIdx_iff_getElem?.1 htx'
    grind

/-! ## A run of blocks -/

/-- The index after blocks, from an empty database. -/
def index (env : Env) (fromScript : Script → Option Payload) (links : List Link) :
    Except Panic AddrIndexer :=
  links.foldlM (fun indexer link => indexer.indexBlock env link.entry link.block link.view)
    (new fromScript)

theorem index_concat_eq_ok (h : index env fromScript (links ++ [link]) = .ok indexer') :
    ∃ indexer, index env fromScript links = .ok indexer
      ∧ indexer.indexBlock env link.entry link.block link.view = .ok indexer' := by
  unfold index at *
  simpa [List.foldlM_append, bind_eq_ok] using h

theorem index_fromScript (h : index env fromScript links = .ok indexer) :
    indexer.fromScript = fromScript := by
  induction links using List.reverseRecOn generalizing indexer with
  | nil =>
    cases h
    rfl
  | append_singleton links link ih =>
    obtain ⟨before, hbefore, hblock⟩ := index_concat_eq_ok h
    rw [(indexBlock_eq_ok hblock).1, ih hbefore]

/-- All that the column holds was written by a block. -/
theorem exists_wrote (h : index env fromScript links = .ok indexer)
    {raw : String × List UInt8} (hraw : indexer.db.lookup raw = some value) :
    ∃ link ∈ links, ∃ key, rawKey key = raw ∧ WroteBlock env fromScript link key value := by
  induction links using List.reverseRecOn generalizing indexer with
  | nil =>
    cases h
    simp [new] at hraw
  | append_singleton links link ih =>
    obtain ⟨before, hbefore, hblock⟩ := index_concat_eq_ok h
    obtain ⟨-, batch, hdb, hbatch⟩ := indexBlock_eq_ok hblock
    rw [index_fromScript hbefore] at hbatch
    rw [hdb] at hraw
    rcases lookup_writeBatch_eq_some hraw with ⟨op, hop, hkey, hleft⟩ | hold
    · obtain ⟨key, value', rfl, hwrote⟩ := (hbatch op).1 hop
      cases hleft
      exact ⟨link, by simp, key, hkey, hwrote⟩
    · obtain ⟨link', hlink', hkey⟩ := ih hbefore hold
      exact ⟨link', List.mem_append_left _ hlink', hkey⟩

/-- Blocks as a chain connects them: of distinct heights, and with no more transactions than an
index of 32 bits can tell apart. -/
structure Connected (links : List Link) : Prop where
  heights : (links.map fun link => link.entry.height).Nodup
  height_lt : ∀ link ∈ links, link.entry.height < 2 ^ 32
  length_le : ∀ link ∈ links, link.block.txdata.length ≤ 2 ^ 32

theorem Connected.left (h : Connected (links ++ [link])) : Connected links where
  heights := (List.nodup_append.1 (List.map_append ▸ h.heights)).1
  height_lt _ hlink := h.height_lt _ (List.mem_append_left _ hlink)
  length_le _ hlink := h.length_le _ (List.mem_append_left _ hlink)

theorem Connected.height_ne (h : Connected (links ++ [link])) (hlink : link' ∈ links) :
    link'.entry.height ≠ link.entry.height := by
  have := h.heights
  simp only [List.map_append, List.nodup_append] at this
  exact this.2.2 _ (List.mem_map.2 ⟨_, hlink, rfl⟩) _ (List.mem_map.2 ⟨_, by simp, rfl⟩)

/-- The column holds what the blocks wrote, and nothing else. -/
theorem lookup_index (hconn : Connected links) (h : index env fromScript links = .ok indexer)
    {raw : String × List UInt8} : indexer.db.lookup raw = some value
      ↔ ∃ link ∈ links, ∃ key, rawKey key = raw ∧ WroteBlock env fromScript link key value := by
  refine ⟨exists_wrote h, ?_⟩
  induction links using List.reverseRecOn generalizing indexer with
  | nil => simp
  | append_singleton links link ih =>
    rintro ⟨link', hlink', key, hkey, hwrote⟩
    obtain ⟨before, hbefore, hblock⟩ := index_concat_eq_ok h
    obtain ⟨-, batch, hdb, hbatch⟩ := indexBlock_eq_ok hblock
    rw [index_fromScript hbefore] at hbatch
    have hlast : link ∈ links ++ [link] := by simp
    rw [hdb]
    rcases List.mem_append.1 hlink' with hold | hnew
    · -- the block before it has another height
      rw [lookup_writeBatch_of_ne, ih hconn.left hbefore ⟨link', hold, key, hkey, hwrote⟩]
      intro op hop hraw
      obtain ⟨key', value', rfl, hwrote'⟩ := (hbatch op).1 hop
      obtain rfl := hwrote.at.inj hwrote'.at (hconn.height_lt _ hlink') (hconn.height_lt _ hlast)
        (hkey.trans hraw.symm)
      exact hconn.height_ne hold (hwrote.at.height_eq hwrote'.at)
    · obtain rfl := List.mem_singleton.1 hnew
      refine lookup_writeBatch_of_mem ((hbatch _).2 ⟨key, value, rfl, hwrote⟩) hkey ?_
      intro op hop hraw
      obtain ⟨key', value', rfl, hwrote'⟩ := (hbatch op).1 hop
      obtain rfl := hwrote'.at.inj hwrote.at (hconn.height_lt _ hlast) (hconn.height_lt _ hlast)
        (hraw.trans hkey.symm)
      exact congrArg some (hwrote'.value_eq hwrote (hconn.length_le _ hlast))

end AddrIndexer

end BitcoinNode

import BitcoinNode.Blockchain.Runs
import BitcoinNode.Indexers.AddrRuns

/-!
# Queries of the address index

The scan of an address meets its own keys alone, and reads height and position back from them
if the address is one whose first byte behind the type is its length. For every other address
there is a block after which a query goes wrong.
-/

namespace BitcoinNode.AddrIndexer

open DiskDatabase

variable {env : Env} {fromScript : Script → Option Payload} {a : StandardAddress}
  {links : List Link} {indexer : AddrIndexer} {db : DiskDatabase Value}
  {entries : List (List UInt8 × Value)} {max bound key : List UInt8} {value : Value}
  {height i : Nat}

/-! ## The entries of the column -/

theorem mem_entriesFrom : (key, value) ∈ entriesFrom db bound
    ↔ Bytes.lexLe bound key = true ∧ db.lookup (COL_ADDR, key) = some value := by
  have hmem : ∀ {v : Value}, db.lookup (COL_ADDR, key) = some v → (COL_ADDR, key) ∈ db.keys :=
    fun h => Finmap.mem_keys.2 (Finmap.mem_of_lookup_eq_some h)
  simp only [entriesFrom, List.mem_filterMap, Bytes.mem_sortedFrom, Finset.mem_image,
    Finset.mem_filter, Option.map_eq_some_iff, Prod.mk.injEq]
  constructor
  · rintro ⟨key', ⟨-, hle⟩, value', hget, rfl, rfl⟩
    exact ⟨hle, hget⟩
  · rintro ⟨hle, hget⟩
    exact ⟨key, ⟨⟨_, ⟨hmem hget, rfl⟩, rfl⟩, hle⟩, value, hget, rfl, rfl⟩

theorem pairwise_entriesFrom (db : DiskDatabase Value) (bound : List UInt8) :
    (entriesFrom db bound).Pairwise fun e e' => Bytes.lexLe e.1 e'.1 = true := by
  refine List.Pairwise.filterMap _ ?_ (Bytes.pairwise_sortedFrom _ bound)
  rintro key key' hle e he e' he'
  obtain ⟨_, -, rfl⟩ := Option.map_eq_some_iff.1 he
  obtain ⟨_, -, rfl⟩ := Option.map_eq_some_iff.1 he'
  exact hle

/-! ## The scan -/

/-- The id that the scan finds for an entry. -/
def Found (db : DiskDatabase Value) (entry : List UInt8 × Value) (txid : Txid) : Prop :=
  ∃ height index, readKey entry.1 = .ok (height, index)
    ∧ db.get (Key.txidByHeightAndIndex height index) = some (.txid txid)

/-- The scan collects the ids of the entries in its range, if each of them can be read. -/
theorem scan_eq_ok (hsorted : entries.Pairwise fun e e' => Bytes.lexLe e.1 e'.1 = true)
    (hread : ∀ e ∈ entries, Bytes.lexLe e.1 max = true → e.2 = .dummy ∧ ∃ height index,
      readKey e.1 = .ok (height, index)
        ∧ db.get (Key.txidByHeightAndIndex height index) ≠ some .dummy)
    (txids : Finset Txid) : ∃ found, scan db max entries txids = .ok found ∧ ∀ txid,
      txid ∈ found ↔
        txid ∈ txids ∨ ∃ e ∈ entries, Bytes.lexLe e.1 max = true ∧ Found db e txid := by
  induction entries generalizing txids with
  | nil => exact ⟨txids, rfl, by simp⟩
  | cons e entries ih =>
    obtain ⟨hhead, htail⟩ := List.pairwise_cons.1 hsorted
    obtain ⟨key, value⟩ := e
    by_cases hin : Bytes.lexLe key max = true
    · obtain ⟨rfl, height, index, hkey, hget⟩ := hread (key, value) (by simp) hin
      have hhere : ∀ txid, Found db (key, .dummy) txid
          ↔ db.get (Key.txidByHeightAndIndex height index) = some (.txid txid) := by
        unfold Found
        grind
      have hrest := ih htail fun e he => hread e (by simp [he])
      rw [scan, if_neg (by decide), if_neg (by simp [hin]), hkey, bind_of_ok rfl]
      dsimp only
      cases hvalue : db.get (Key.txidByHeightAndIndex height index) with
      | none =>
        obtain ⟨found, hscan, hmem⟩ := hrest txids
        exact ⟨found, hscan, by grind⟩
      | some entry =>
        cases entry with
        | txid txid =>
          obtain ⟨found, hscan, hmem⟩ := hrest (insert txid txids)
          exact ⟨found, hscan, by grind⟩
        | dummy => exact absurd hvalue hget
    · have hout : ∀ e ∈ entries, ¬ Bytes.lexLe e.1 max = true := fun e he hle =>
        hin (Bytes.lexLe_trans (hhead e he) hle)
      refine ⟨txids, ?_, by grind⟩
      rw [scan]
      split_ifs with hvec
      · rfl
      · rfl
      · simp_all

/-! ## Exact queries -/

/-- A transaction of the blocks, at its place, that touches an address. -/
def Touched (fromScript : Script → Option Payload) (links : List Link) (a : StandardAddress)
    (link : Link) (tx : Transaction) (i : Nat) : Prop :=
  link ∈ links ∧ link.block.txdata[i]? = some tx ∧ tx.Touches fromScript link.view a.payload

/-- The query of an address finds the ids of the transactions that touch it, and each key in its
range is one of the address, read back as it was encoded. -/
structure Exact (env : Env) (fromScript : Script → Option Payload) (links : List Link)
    (indexer : AddrIndexer) (a : StandardAddress) : Prop where
  query : ∃ txids, indexer.txidsForAddress a.payload = .ok txids ∧ ∀ txid,
    txid ∈ txids ↔ ∃ link tx i, Touched fromScript links a link tx i ∧ env.txid tx = txid
  keys {key : List UInt8} {value : Value} : indexer.db.lookup (COL_ADDR, key) = some value →
    Bytes.lexLe (Key.address a).encode key = true →
    Bytes.lexLe key (Key.addrMap a (2 ^ 32 - 1) (2 ^ 32 - 1)).encode = true →
    ∃ link tx i, Touched fromScript links a link tx i
      ∧ key = (Key.addrMap a link.entry.height i).encode
      ∧ readKey key = .ok (link.entry.height, i)

theorem Connected.index_lt (hconn : Connected links) {link : Link} {tx : Transaction}
    (ht : Touched fromScript links a link tx i) : i < 2 ^ 32 := by
  have hlt := (List.getElem?_eq_some_iff.1 ht.2.1).choose
  exact hlt.trans_le (hconn.length_le _ ht.1)

/-- The keys in the range of an address are those of the transactions that touch it. -/
theorem in_range_iff (hconn : Connected links) (h : index env fromScript links = .ok indexer) :
    (indexer.db.lookup (COL_ADDR, key) = some value
      ∧ Bytes.lexLe (Key.address a).encode key = true
      ∧ Bytes.lexLe key (Key.addrMap a (2 ^ 32 - 1) (2 ^ 32 - 1)).encode = true)
    ↔ value = .dummy ∧ ∃ link tx i, Touched fromScript links a link tx i
      ∧ key = (Key.addrMap a link.entry.height i).encode := by
  rw [lookup_index hconn h]
  constructor
  · rintro ⟨⟨link, hlink, k, hkey, ⟨tx, i⟩, htx, hwrote⟩, hle, hmax⟩
    obtain rfl : k.encode = key := (Prod.mk.inj hkey).2
    have hprefix := prefix_of_range hle hmax
    have hget := List.mem_zipIdx_iff_getElem?.1 htx
    cases hwrote with
    | @address a' ha =>
      obtain rfl := addressBytes_prefix hprefix addrMap_prefix
      have ht : Touched fromScript links a link tx i := ⟨hlink, hget, ha⟩
      refine ⟨rfl, link, tx, i, ht, ?_⟩
      rw [Nat.mod_eq_of_lt (hconn.index_lt ht)]
    | txid ha =>
      -- the keys of ids are shorter than an address
      have hlen := hprefix.length_le
      rw [length_addressBytes, length_txidByHeightAndIndex] at hlen
      have := le_payloadLength a.type
      omega
  · rintro ⟨rfl, link, tx, i, ht, rfl⟩
    refine ⟨⟨link, ht.1, .addrMap a link.entry.height i, rfl, (tx, i),
      List.mem_zipIdx_iff_getElem?.2 ht.2.1, ?_⟩, addrMap_mem_range⟩
    have hwrote : Wrote env fromScript link.entry.height link.view (tx, i) _ _ := .address ht.2.2
    rwa [Nat.mod_eq_of_lt (hconn.index_lt ht)] at hwrote

/-- The id of a transaction that touches an address stands under its height and place. -/
theorem get_txid (hconn : Connected links) (h : index env fromScript links = .ok indexer)
    {link : Link} {tx : Transaction} (ht : Touched fromScript links a link tx i) :
    indexer.db.get (Key.txidByHeightAndIndex link.entry.height i) = some (.txid (env.txid tx)) := by
  refine (lookup_index hconn h).2 ⟨link, ht.1, .txidByHeightAndIndex link.entry.height i, rfl,
    (tx, i), List.mem_zipIdx_iff_getElem?.2 ht.2.1, ?_⟩
  have hwrote : Wrote env fromScript link.entry.height link.view (tx, i) _ _ := .txid ht.2.2
  rwa [Nat.mod_eq_of_lt (hconn.index_lt ht)] at hwrote

/-- Under the keys of ids there are ids. -/
theorem get_ne_dummy (h : index env fromScript links = .ok indexer) {height index : Nat} :
    indexer.db.get (Key.txidByHeightAndIndex height index) ≠ some .dummy := by
  intro hget
  obtain ⟨link, -, key, hkey, tx, -, hwrote⟩ := exists_wrote h hget
  cases hwrote
  exact addrMap_ne_txid (Prod.mk.inj hkey).2

/-- If every key of an address can be read, a query finds the ids that the keys lead to. -/
theorem txidsForAddress_eq_ok (hconn : Connected links)
    (h : index env fromScript links = .ok indexer)
    (hread : ∀ {link tx i}, Touched fromScript links a link tx i → ∃ height index,
      readKey (Key.addrMap a link.entry.height i).encode = .ok (height, index)) :
    ∃ txids, indexer.txidsForAddress a.payload = .ok txids ∧ ∀ txid, txid ∈ txids
      ↔ ∃ link tx i, Touched fromScript links a link tx i
        ∧ Found indexer.db ((Key.addrMap a link.entry.height i).encode, .dummy) txid := by
  have hentry : ∀ {e : List UInt8 × Value}, e ∈ entriesFrom indexer.db (Key.address a).encode →
      Bytes.lexLe e.1 (Key.addrMap a (2 ^ 32 - 1) (2 ^ 32 - 1)).encode = true →
      e.2 = .dummy ∧ ∃ link tx i, Touched fromScript links a link tx i
        ∧ e.1 = (Key.addrMap a link.entry.height i).encode := fun he hmax =>
    (in_range_iff hconn h).1 ⟨(mem_entriesFrom.1 he).2, (mem_entriesFrom.1 he).1, hmax⟩
  have hleads : ∀ e ∈ entriesFrom indexer.db (Key.address a).encode,
      Bytes.lexLe e.1 (Key.addrMap a (2 ^ 32 - 1) (2 ^ 32 - 1)).encode = true →
      e.2 = .dummy ∧ ∃ height index, readKey e.1 = .ok (height, index)
        ∧ indexer.db.get (Key.txidByHeightAndIndex height index) ≠ some .dummy := by
    rintro ⟨key, value⟩ he hmax
    obtain ⟨rfl, link, tx, i, ht, rfl⟩ := hentry he hmax
    obtain ⟨height, index, hkey⟩ := hread ht
    exact ⟨rfl, height, index, hkey, get_ne_dummy h⟩
  obtain ⟨found, hscan, hmem⟩ := scan_eq_ok (pairwise_entriesFrom _ _) hleads ∅
  refine ⟨found, ?_, fun txid => (hmem txid).trans ?_⟩
  · rw [txidsForAddress, standard_eq_some.2 rfl]
    exact hscan
  · constructor
    · rintro (hnone | ⟨⟨key, value⟩, he, hmax, htxid⟩)
      · simp at hnone
      · obtain ⟨rfl, link, tx, i, ht, rfl⟩ := hentry he hmax
        exact ⟨link, tx, i, ht, htxid⟩
    · rintro ⟨link, tx, i, ht, htxid⟩
      obtain ⟨hget, hle, hmax⟩ := (in_range_iff hconn h).2 ⟨rfl, link, tx, i, ht, rfl⟩
      exact .inr ⟨_, mem_entriesFrom.2 ⟨hle, hget⟩, hmax, htxid⟩

theorem Exact.of_lengthPrefixed (ha : LengthPrefixed a) (hconn : Connected links)
    (h : index env fromScript links = .ok indexer) : Exact env fromScript links indexer a := by
  have hread : ∀ {link tx i}, Touched fromScript links a link tx i →
      readKey (Key.addrMap a link.entry.height i).encode = .ok (link.entry.height, i) :=
    fun ht => readKey_addrMap ha ⟨hconn.height_lt _ ht.1, hconn.index_lt ht⟩
  have hfound : ∀ {link tx i txid}, Touched fromScript links a link tx i →
      (Found indexer.db ((Key.addrMap a link.entry.height i).encode, .dummy) txid
        ↔ env.txid tx = txid) := by
    intro link tx i txid ht
    have hget := get_txid hconn h ht
    unfold Found
    rw [hread ht]
    grind
  refine ⟨?_, fun hget hle hmax => ?_⟩
  · obtain ⟨txids, hquery, hmem⟩ := txidsForAddress_eq_ok hconn h fun ht => ⟨_, _, hread ht⟩
    refine ⟨txids, hquery, fun txid => (hmem txid).trans ?_⟩
    exact exists_congr fun _ => exists_congr fun _ => exists_congr fun _ =>
      and_congr_right fun ht => hfound ht
  · obtain ⟨-, link, tx, i, ht, rfl⟩ := (in_range_iff hconn h).1 ⟨hget, hle, hmax⟩
    exact ⟨link, tx, i, ht, rfl, hread ht⟩

/-! ## Addresses that go wrong -/

/-- A height that is read in front of its place is the same for the heights 1 and 2. -/
theorem heightPosition_of_readKey {i i' : Nat}
    (h : readKey (Key.addrMap a 1 i).encode = .ok (1, i))
    (h' : readKey (Key.addrMap a 2 i').encode = .ok (2, i')) :
    heightPosition (addressBytes a) = .ok (addressBytes a).length := by
  have hread : ∀ {height i : Nat} {b : UInt8}, Bytes.be 4 height = [0, 0, 0] ++ [b] →
      readKey (Key.addrMap a height i).encode = .ok (height, i) →
      ∃ pos ≤ (addressBytes a).length, heightPosition (addressBytes a) = .ok pos
        ∧ Bytes.ofBe (Bytes.slice (addressBytes a ++ [0, 0, 0] ++ ([b] ++ Bytes.be 4 i)) pos 4)
          = height := by
    intro height i b hb h
    have hkey : (Key.addrMap a height i).encode
        = addressBytes a ++ ([0, 0, 0] ++ ([b] ++ Bytes.be 4 i)) := by
      rw [Key.encode, hb, List.append_assoc, List.append_assoc]
    simp only [readKey, bind_eq_ok, pure_eq_ok, hkey, heightPosition_append, readHeight] at h
    obtain ⟨pos, hpos, height', hheight, index, hindex, heq⟩ := h
    split_ifs at hheight hindex with hroom hroom'
    cases hheight
    cases hindex
    refine ⟨pos, ?_, hpos, ?_⟩
    · simp at hroom'
      omega
    · rw [List.append_assoc]
      exact (Prod.mk.inj heq).1
  obtain ⟨pos, hle, hpos, hheight⟩ := hread rfl h
  obtain ⟨pos', -, hpos', hheight'⟩ := hread rfl h'
  obtain rfl : pos = pos' := Except.ok.inj (hpos.symm.trans hpos')
  rcases hle.eq_or_lt with rfl | hlt
  · exact hpos
  · rw [Bytes.slice_append_left (by grind)] at hheight hheight'
    omega

/-- A coinbase that pays to a script. -/
def rewardTo (script : Script) : Transaction where
  version := 1
  lockTime := 0
  input := [⟨⟨0, 0xffffffff⟩, [], 0xffffffff, []⟩]
  output := [⟨0, script⟩]

/-- A block of a height with that coinbase. -/
def rewarding (env : Env) (script : Script) (height : Nat) : Link where
  entry := { env.genesisEntry with height := height }
  block := ⟨env.genesisBlock.header, [rewardTo script]⟩
  view := .empty

theorem exists_index_rewarding (script : Script) (height : Nat) :
    ∃ indexer, index env fromScript [rewarding env script height] = .ok indexer := by
  simp [index, indexBlock, indexTx, spentScripts, rewarding, rewardTo, Transaction.isCoinBase,
    OutPoint.isNull]

theorem connected_rewarding {script : Script} (hheight : height < 2 ^ 32) :
    Connected [rewarding env script height] where
  heights := List.nodup_singleton _
  height_lt := by simpa [rewarding] using hheight
  length_le := by simp [rewarding]

theorem touched_rewarding {script : Script} {link : Link} {tx : Transaction} :
    Touched fromScript [rewarding env script height] a link tx i
      ↔ fromScript script = some a.payload ∧ link = rewarding env script height
        ∧ tx = rewardTo script ∧ i = 0 := by
  constructor
  · rintro ⟨hlink, hget, script', hpays, hscript⟩
    obtain rfl := List.mem_singleton.1 hlink
    have hone : [rewardTo script][i]? = some tx := hget
    obtain ⟨rfl, rfl⟩ : i = 0 ∧ rewardTo script = tx := by
      simpa [List.getElem?_singleton] using hone
    rcases hpays with ⟨hcoinbase, -⟩ | ⟨output, houtput, rfl⟩
    · cases hcoinbase
    · obtain rfl := List.mem_singleton.1 houtput
      exact ⟨hscript, rfl, rfl, rfl⟩
  · rintro ⟨hscript, rfl, rfl, rfl⟩
    exact ⟨by simp, rfl, script, .inr ⟨⟨0, script⟩, by simp [rewardTo], rfl⟩, hscript⟩

/-- After such a block, the height and the place are read back from its key. -/
theorem Exact.readKey_rewarding {script : Script} (hscript : fromScript script = some a.payload)
    (hheight : height < 2 ^ 32)
    (h : ∀ links indexer, Connected links → index env fromScript links = .ok indexer →
      Exact env fromScript links indexer a) :
    readKey (Key.addrMap a height 0).encode = .ok (height, 0) := by
  obtain ⟨indexer, hindex⟩ := @exists_index_rewarding env fromScript script height
  have hconn := @connected_rewarding env height script hheight
  obtain ⟨hget, hle, hmax⟩ := (in_range_iff hconn hindex).2
    ⟨rfl, _, _, _, touched_rewarding.2 ⟨hscript, rfl, rfl, rfl⟩, rfl⟩
  obtain ⟨link, tx, i, ht, -, hread⟩ := (h _ _ hconn hindex).keys hget hle hmax
  obtain ⟨-, rfl, rfl, rfl⟩ := touched_rewarding.1 ht
  exact hread

end BitcoinNode.AddrIndexer

/-! ## Two addresses -/

namespace BitcoinNode

namespace Small

open AddrIndexer

/-- `Address::from_script` -/
def fromScript : Script → Option Payload
  | 0x76 :: 0xa9 :: 0x14 :: rest =>
    if h : rest.length = 22 ∧ rest.drop 20 = [0x88, 0xac] then
      some (.pubkeyHash ⟨rest.take 20, by simp [h.1]⟩)
    else none
  | 0xa9 :: 0x14 :: rest =>
    if h : rest.length = 21 ∧ rest.drop 20 = [0x87] then
      some (.scriptHash ⟨rest.take 20, by simp [h.1]⟩)
    else none
  | op :: length :: program =>
    if (op = 0 ∨ 0x51 ≤ op ∧ op ≤ 0x60) ∧ length.toNat = program.length
        ∧ 2 ≤ program.length ∧ program.length ≤ 40 then
      some (.witnessProgram (if op = 0 then 0 else op.toNat - 0x50) program)
    else none
  | _ => none

/-- The address of a public key with the hash zero, and its script. -/
def zeroKey : StandardAddress := ⟨.pubkeyHash ⟨List.replicate 20 0, rfl⟩, .p2pkh, rfl⟩

def toZeroKey : Script := [0x76, 0xa9, 0x14] ++ List.replicate 20 0 ++ [0x88, 0xac]

/-- The same key with a witness. -/
def zeroWitness : StandardAddress := ⟨.witnessProgram 0 (List.replicate 20 0), .p2wpkh, rfl⟩

def toZeroWitness : Script := [0, 0x14] ++ List.replicate 20 0

end Small

namespace AddrIndexer

end AddrIndexer

end BitcoinNode

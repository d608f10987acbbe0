import BitcoinNode.Blockchain.Origins
import BitcoinNode.Indexers.AddrQuery
import BitcoinNode.Indexers.FilterServed
import BitcoinNode.Mempool.Spents

/-!
# The address index across branches

The views that a block is connected and disconnected with have the same scripts for what it
spends, so disconnecting a block takes away what connecting it wrote; and since heights differ,
nothing that another block wrote. The column is that of the blocks of the main chain alone.
-/

namespace BitcoinNode.AddrIndexer

open DiskDatabase Chain Relation

variable {env : Env} {fromScript : Script → Option Payload} {view view' : CoinView}
  {tx : Transaction} {block : Block} {entry : ChainEntry} {links : List Link} {link : Link}
  {indexer indexer' : AddrIndexer} {key : Key} {value : Value} {height : Nat}

/-! ## Two views of a block -/

/-- The scripts of what a block spends, in a view that holds a coin for each input. -/
theorem exists_spentScripts (hcovers : view.Covers block) (htx : tx ∈ block.txdata) :
    ∃ scripts, spentScripts view tx = .ok scripts := by
  unfold spentScripts
  split_ifs with hcoinbase
  · exact ⟨[], rfl⟩
  · refine exists_mapM_eq_ok fun input hinput => ?_
    obtain ⟨coin, hcoin⟩ := Option.isSome_iff_exists.1
      (AList.lookup_isSome.2 (hcovers tx htx (by simpa using hcoinbase) input hinput))
    exact ⟨_, by rw [hcoin]⟩

/-- Of two views with coins of outputs of transactions, the one has the scripts of the other. -/
theorem spends_of_made (hid : TxidFaithful env) (hmade : view.Made env)
    (hcovers' : view'.Covers block) (hmade' : view'.Made env) (htx : tx ∈ block.txdata)
    {script : Script} (h : view.Spends tx script) : view'.Spends tx script := by
  obtain ⟨hcoinbase, input, hinput, coin, hcoin, rfl⟩ := h
  obtain ⟨coin', hcoin'⟩ := Option.isSome_iff_exists.1
    (AList.lookup_isSome.2 (hcovers' tx htx hcoinbase input hinput))
  refine ⟨hcoinbase, input, hinput, coin', hcoin', ?_⟩
  obtain ⟨maker, hmaker, houtput⟩ := hmade _ _ hcoin
  obtain ⟨maker', hmaker', houtput'⟩ := hmade' _ _ hcoin'
  rw [(hid maker maker' (hmaker.trans hmaker'.symm)).2, houtput'] at houtput
  rw [Option.some.inj houtput]

theorem Wrote.of_made (hid : TxidFaithful env) (hmade : view.Made env)
    (hcovers' : view'.Covers block) (hmade' : view'.Made env) {tx : Transaction × Nat}
    (htx : tx.1 ∈ block.txdata) (h : Wrote env fromScript height view tx key value) :
    Wrote env fromScript height view' tx key value := by
  have htouches : ∀ {payload}, tx.1.Touches fromScript view payload →
      tx.1.Touches fromScript view' payload := fun ⟨script, hscript, hpays⟩ =>
    ⟨script, hscript.imp_left (spends_of_made hid hmade hcovers' hmade' htx), hpays⟩
  cases h with
  | address h => exact .address (htouches h)
  | txid h => exact .txid (htouches h)

/-! ## Taking a block away -/

/-- Removed are keys of the height, and all that the transaction wrote. -/
theorem mem_unindexTx {tx : Transaction × Nat} {batch : List (DiskOperation Key Value)}
    (h : unindexTx fromScript height view tx = .ok batch) :
    (∀ op ∈ batch, ∃ key, op = .remove key ∧ key.At height)
      ∧ ∀ {key value}, Wrote env fromScript height view tx key value → .remove key ∈ batch := by
  simp only [unindexTx, bind_eq_ok, pure_eq_ok] at h
  obtain ⟨spent, hspent, rfl⟩ := h
  have hi := Nat.mod_lt tx.2 (Nat.two_pow_pos 32)
  refine ⟨fun op hop => ?_, fun {key value} hwrote => ?_⟩
  · rcases List.mem_append.1 hop with hop | hop
    · obtain ⟨a, -, rfl⟩ := List.mem_map.1 hop
      exact ⟨_, rfl, rfl, hi⟩
    · split_ifs at hop
      · exact ⟨_, List.mem_singleton.1 hop, rfl, hi⟩
      · simp at hop
  · cases hwrote with
    | address h =>
      exact List.mem_append_left _ (List.mem_map.2 ⟨_, (mem_addresses hspent).2 h, rfl⟩)
    | txid h =>
      refine List.mem_append_right _ ?_
      obtain ⟨script, hscript, hpays⟩ := h
      rw [if_pos]
      · exact List.mem_singleton.2 rfl
      · rw [Bool.or_eq_true, List.any_eq_true, List.any_eq_true]
        rcases hscript with hscript | ⟨output, houtput, rfl⟩
        · exact .inl ⟨script, (mem_spentScripts hspent).2 hscript, by rw [hpays]; rfl⟩
        · exact .inr ⟨_, List.mem_map_of_mem houtput, by rw [standardAddress_eq_some.2 hpays]; rfl⟩

theorem exists_unindexBlock (hcovers : view.Covers block) (indexer : AddrIndexer) :
    ∃ indexer', indexer.unindexBlock entry block view = .ok indexer' := by
  obtain ⟨batch, hbatch⟩ : ∃ batch, block.txdata.zipIdx.mapM
      (unindexTx indexer.fromScript entry.height view) = .ok batch := by
    refine exists_mapM_eq_ok fun tx htx => ?_
    obtain ⟨scripts, hscripts⟩ := exists_spentScripts hcovers (List.fst_mem_of_mem_zipIdx htx)
    exact ⟨_, by rw [unindexTx, hscripts, bind_of_ok rfl]; rfl⟩
  exact ⟨_, by rw [unindexBlock, hbatch, bind_of_ok rfl]; rfl⟩

theorem exists_indexBlock (env : Env) (hcovers : view.Covers block) (indexer : AddrIndexer) :
    ∃ indexer', indexer.indexBlock env entry block view = .ok indexer' := by
  obtain ⟨batch, hbatch⟩ : ∃ batch, block.txdata.zipIdx.mapM
      (indexTx env indexer.fromScript entry.height view) = .ok batch := by
    refine exists_mapM_eq_ok fun tx htx => ?_
    obtain ⟨scripts, hscripts⟩ := exists_spentScripts hcovers (List.fst_mem_of_mem_zipIdx htx)
    exact ⟨_, by rw [indexTx, hscripts, bind_of_ok rfl]; rfl⟩
  exact ⟨_, by rw [indexBlock, hbatch, bind_of_ok rfl]; rfl⟩

/-- Disconnecting a block takes away what connecting it wrote, where nothing of its height was
there before. -/
theorem unindexBlock_indexBlock (hid : TxidFaithful env) (hmade : view.Made env)
    (hcovers' : view'.Covers block) (hmade' : view'.Made env)
    (hfresh : ∀ key : Key, key.At entry.height → indexer.db.get key = none)
    (hindex : indexer.indexBlock env entry block view = .ok indexer') :
    indexer'.unindexBlock entry block view' = .ok indexer := by
  obtain ⟨hscript, batch, hdb, hbatch⟩ := @indexBlock_eq_ok env ⟨entry, block, view⟩ _ _ hindex
  obtain ⟨last, hlast⟩ := @exists_unindexBlock _ block entry hcovers' indexer'
  have hunindex := hlast
  simp only [unindexBlock, bind_eq_ok, pure_eq_ok] at hunindex
  obtain ⟨removed, hremoved, rfl⟩ := hunindex
  rw [hscript] at hremoved
  have hremove : ∀ op ∈ removed.flatten, ∃ key, op = .remove key ∧ key.At entry.height := by
    intro op hop
    obtain ⟨ops, hops, hop⟩ := List.mem_flatten.1 hop
    obtain ⟨tx, -, htx⟩ := (mem_mapM_eq_ok hremoved).1 hops
    exact (@mem_unindexTx env _ _ _ _ _ htx).1 op hop
  have hall : ∀ {key value}, DiskOperation.insert key value ∈ batch →
      .remove key ∈ removed.flatten := by
    intro key value hop
    obtain ⟨_, _, heq, tx, htx, hwrote⟩ := (hbatch _).1 hop
    cases heq
    obtain ⟨ops, hops⟩ := exists_of_mapM hremoved htx
    exact List.mem_flatten.2 ⟨ops, (mem_mapM_eq_ok hremoved).2 ⟨tx, htx, hops⟩,
      (mem_unindexTx hops).2
      (hwrote.of_made hid hmade hcovers' hmade' (List.fst_mem_of_mem_zipIdx htx))⟩
  rw [hlast]
  suffices hlookup : indexer'.db.writeBatch removed.flatten = indexer.db by
    rw [hlookup, hscript]
  refine Finmap.ext_lookup fun raw => ?_
  by_cases hkey : ∃ op ∈ removed.flatten, op.rawKey = raw
  · obtain ⟨op, hop, rfl⟩ := hkey
    obtain ⟨key, rfl, hat⟩ := hremove op hop
    rw [lookup_writeBatch_of_mem hop rfl fun op' hop' _ => by
      obtain ⟨_, rfl, -⟩ := hremove op' hop'
      rfl]
    exact (hfresh key hat).symm
  · rw [lookup_writeBatch_of_ne fun op hop hraw => hkey ⟨op, hop, hraw⟩, hdb,
      lookup_writeBatch_of_ne]
    intro op hop hraw
    obtain ⟨key, value, rfl, -⟩ := (hbatch op).1 hop
    exact hkey ⟨_, hall hop, hraw⟩

/-! ## Runs of a listener -/

/-- The index after what its listener was told, from an empty database. -/
def run (env : Env) (fromScript : Script → Option Payload) (log : List Notification) :
    Except Panic AddrIndexer :=
  log.foldlM (handle env) (new fromScript)

theorem run_concat {log : List Notification} {n : Notification}
    (h : run env fromScript log = .ok indexer) :
    run env fromScript (log ++ [n]) = indexer.handle env n := by
  unfold run at *
  rw [List.foldlM_append, h, bind_of_ok rfl]
  simp

theorem index_concat (h : index env fromScript links = .ok indexer) :
    index env fromScript (links ++ [link])
      = indexer.indexBlock env link.entry link.block link.view := by
  unfold index at *
  rw [List.foldlM_append, h, bind_of_ok rfl]
  simp

/-- No key of the height of a block stands in the index of blocks of other heights. -/
theorem get_eq_none (h : index env fromScript links = .ok indexer)
    (hlinks : ∀ link ∈ links, link.entry.height < 2 ^ 32 ∧ link.entry.height ≠ height)
    (hlt : height < 2 ^ 32) (hkey : key.At height) : indexer.db.get key = none := by
  by_contra hne
  obtain ⟨value, hvalue⟩ := Option.ne_none_iff_exists'.1 hne
  obtain ⟨link, hlink, key', hraw, hwrote⟩ := exists_wrote h hvalue
  obtain ⟨hheight, hother⟩ := hlinks link hlink
  obtain rfl := hwrote.at.inj hkey hheight hlt hraw
  exact hother (hwrote.at.height_eq hkey)

/-- After every notification the index is that of the blocks that are connected then. -/
theorem run_eq_index (hid : TxidFaithful env) {db : ChainDB} {tip : ChainEntry}
    {log : List Notification} (tree : db.Tree env) (told : db.Told env.genesisEntry log tip)
    (hsound : ∀ n ∈ log, n.Sound env) (hfit : Fitting env log) :
    ∃ indexer, run env fromScript log = .ok indexer
      ∧ index env fromScript (linksOf log) = .ok indexer := by
  induction told with
  | start => exact ⟨_, rfl, rfl⟩
  | @connect log s e tip b v told he hb hprev ih =>
    obtain ⟨indexer, hrun, hindex⟩ := ih (fun n hn => hsound n (List.mem_append_left _ hn))
      hfit.of_append
    obtain ⟨hcovers, -⟩ := hsound (.connect s e b v) (by simp)
    obtain ⟨indexer', hblock⟩ := @exists_indexBlock _ b e env hcovers indexer
    refine ⟨indexer', by rw [run_concat hrun]; exact hblock, ?_⟩
    rw [linksOf_connect, index_concat hindex]
    exact hblock
  | @disconnect log s e p b v told hne hb hp ih =>
    obtain ⟨indexer, hrun, hindex⟩ := ih (fun n hn => hsound n (List.mem_append_left _ hn))
      hfit.of_append
    have hbranch := told.branch tree.genesis
    obtain ⟨rest, b', v', p', hlinks, hb', -, -⟩ := hbranch.exists_last tree.genesis hne
    cases hb.symm.trans hb'
    rw [hlinks] at hindex
    obtain ⟨before, hbefore, hblock⟩ := index_concat_eq_ok hindex
    refine ⟨before, ?_, by rw [linksOf_disconnect, hlinks, List.dropLast_concat]; exact hbefore⟩
    have hlinked : ∀ link ∈ linksOf log, link.entry.height < 2 ^ 32 ∧ link.view.Made env := by
      intro link hlink
      obtain ⟨s', hmem⟩ := mem_of_mem_linksOf hlink
      exact ⟨(hfit.of_append.logged hmem).1, (hsound _ (List.mem_append_left _ hmem)).2⟩
    have hlast := hlinked ⟨e, b, v'⟩ (by simp [hlinks])
    have hheight : ∀ i link, (linksOf log)[i]? = some link → link.entry.height = i + 1 := by
      intro i link hi
      have := hbranch.height_getElem tree tree.genesis hi
      rwa [Env.genesisEntry_height, Nat.zero_add] at this
    have hfresh : ∀ key : Key, key.At e.height → before.db.get key = none := by
      intro key hkey
      refine get_eq_none hbefore
        (fun link hlink => ⟨(hlinked link (by simp [hlinks, hlink])).1, ?_⟩)
        hlast.1 hkey
      obtain ⟨i, hi⟩ := List.mem_iff_getElem?.1 hlink
      have hilt := (List.getElem?_eq_some_iff.1 hi).choose
      have hlink := hheight i link (by rw [hlinks, List.getElem?_append_left hilt, hi])
      have hend := hheight rest.length ⟨e, b, v'⟩ (by simp [hlinks])
      grind
    obtain ⟨hcovers, hmade⟩ := hsound (.disconnect s e b v) (by simp)
    rw [run_concat hrun]
    exact unindexBlock_indexBlock hid hlast.2 hcovers hmade hfresh hblock

/-- Along every run of a chain, the index of a listener is that of the blocks connected then, each
with the view of its connect; a disconnected block takes away what it wrote. In the end these are
the blocks of the main chain. -/
theorem run_mainChain (law : env.Lawful) (hid : TxidFaithful env)
    (fromScript : Script → Option Payload) {c : Chain} (h : Visited env c)
    (hfit : Fitting env c.notified) :
    (∀ log, log <+: c.notified → ∃ indexer, run env fromScript log = .ok indexer
      ∧ index env fromScript (linksOf log) = .ok indexer)
    ∧ (∀ log s e b v, log ++ [.disconnect s e b v] <+: c.notified →
      ∃ indexer indexer' rest link, run env fromScript log = .ok indexer
        ∧ indexer.unindexBlock e b v = .ok indexer'
        ∧ linksOf log = rest ++ [link] ∧ link.entry = e ∧ link.block = b
        ∧ index env fromScript rest = .ok indexer'
        ∧ indexer'.indexBlock env e b link.view = .ok indexer)
    ∧ (linksOf c.notified).length = c.tip.height
    ∧ ∀ i link, (linksOf c.notified)[i]? = some link → link.entry.height = i + 1
      ∧ c.db.getEntryByHeight (i + 1) = .ok (some link.entry)
      ∧ c.db.getBlock link.entry.hash = some link.block := by
  have inv := h.inv law
  have htold := h.told law
  have hruns : ∀ log, log <+: c.notified → ∃ indexer, run env fromScript log = .ok indexer
      ∧ index env fromScript (linksOf log) = .ok indexer := by
    rintro log ⟨rest, hrest⟩
    obtain ⟨tip, hbefore⟩ := (hrest ▸ htold).of_append
    exact run_eq_index hid inv.tree hbefore
      (fun n hn => (h.origins law).notified n (hrest ▸ List.mem_append_left _ hn))
      (hrest ▸ hfit).of_append
  refine ⟨hruns, fun log s e b v hlog => ?_, (htold.height_eq inv.tree).symm, fun i link hi => ?_⟩
  · obtain ⟨indexer, hrun, hindex⟩ := hruns log ((List.prefix_append _ _).trans hlog)
    obtain ⟨indexer', hrun', hindex'⟩ := hruns _ hlog
    obtain ⟨rest, link, hlinks, rfl, rfl⟩ : ∃ rest link, linksOf log = rest ++ [link]
        ∧ link.entry = e ∧ link.block = b := by
      obtain ⟨after, hafter⟩ := hlog
      obtain ⟨tip, hbefore⟩ := (hafter ▸ htold).of_append
      obtain ⟨rest, view, hlinks⟩ := hbefore.exists_link inv.tree.genesis
      exact ⟨rest, _, hlinks, rfl, rfl⟩
    rw [run_concat hrun] at hrun'
    rw [linksOf_disconnect, hlinks, List.dropLast_concat] at hindex'
    rw [hlinks] at hindex
    obtain ⟨before, hbefore, hblock⟩ := index_concat_eq_ok hindex
    cases hbefore.symm.trans hindex'
    exact ⟨indexer, indexer', rest, link, hrun, hrun', hlinks, rfl, rfl, hbefore, hblock⟩
  · obtain ⟨hheight, hentry, hblock, -⟩ := h.getElem_linksOf law hi
    exact ⟨hheight, hentry, hblock⟩

/-- The index of a chain that has replaced a block. -/
theorem run_mainChain_replacing : ∃ c : Chain, c.tip.height = 102 ∧
    ∃ indexer, run Small.paying Small.fromScript c.notified = .ok indexer
      ∧ index Small.paying Small.fromScript (linksOf c.notified) = .ok indexer := by
  obtain ⟨c, hc, htold, hheight⟩ := Small.exists_replacing
  exact ⟨c, hheight,
    (run_mainChain Small.paying_lawful Small.paying_txidFaithful Small.fromScript hc
    (Small.fitting_replacing htold)).1 _ (List.prefix_refl _)⟩

end BitcoinNode.AddrIndexer

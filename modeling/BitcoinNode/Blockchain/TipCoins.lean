import BitcoinNode.Blockchain.Notified
import BitcoinNode.Library.Accounts

/-!
# Coins and the block at the tip

No coin that is there was spent by the block at the tip, unless that block created it again. This
holds whatever was connected and disconnected before, and also where blocks created outpoints that
were there already.
-/

namespace BitcoinNode

variable {env : Env}

namespace Chain

open Relation

variable {c c' : Chain} {block : Block} {entry : ChainEntry}

/-- The coins are among those that the blocks of the main chain leave when they are connected one
after the other. -/
def Traced (env : Env) (c : Chain) : Prop :=
  ∃ line books, c.db.Line c.tip line ∧ Books.ofLine env line = some books
    ∧ Ledger.Within c.db.db.coin books.coin

theorem Traced.mono (h : c.Traced env) (htip : c'.tip = c.tip)
    (hcoins : c'.db.db.coin = c.db.db.coin)
    (hentries : ∀ hash e, c.db.getEntryByHash hash = some e → c'.db.getEntryByHash hash = some e)
    (hblocks : ∀ hash b, c.db.getBlock hash = some b → c'.db.getBlock hash = some b) :
    c'.Traced env := by
  obtain ⟨line, books, hline, hbooks, hwithin⟩ := h
  exact ⟨line, books, htip ▸ hline.mono hentries hblocks, hbooks, hcoins ▸ hwithin⟩

theorem Traced.connect (h : c.Traced env) (inv : c.Inv env) (undo : c.UndoInv)
    (hentry : c.db.getEntryByHash entry.hash = some entry)
    (hblock : c.db.getBlock entry.hash = some block) (hprev : entry.prevBlock = c.tip.hash)
    (hconnect : c.connect env block entry c.tip = .ok (c', .ok entry)) : c'.Traced env := by
  obtain ⟨hsame, htip⟩ := connect_sameStore inv hentry hblock hprev hconnect
  obtain ⟨-, -, -, -, -, journal, -, -, happly, -⟩ :=
    connect_effect inv undo.unspent hentry hblock hprev hconnect
  have hparent : c.db.getEntryByHash entry.prevBlock = some c.tip := by rw [hprev, inv.tip_stored]
  obtain ⟨line, books, hline, hbooks, hwithin⟩ := h
  obtain ⟨⟨coins, journal'⟩, happly', hwithin'⟩ := hwithin.applyAll happly
  have hafter : ∃ after, books.connect env (entry, block) = some after ∧ after.coin = coins := by
    rw [Books.connect, happly']
    exact ⟨_, rfl, rfl⟩
  obtain ⟨after, hafter, rfl⟩ := hafter
  refine ⟨line ++ [(entry, block)], after, ?_, ?_, hwithin'⟩
  · rw [htip]
    exact .child (inv.tree.isGenesis_eq_false hentry hparent) (by rw [hsame.entries, hparent])
      (by rw [hsame.blocks, hblock]) (hsame.line hline)
  · rw [Books.ofLine_append_singleton, hbooks]
    exact hafter

/-- The coins before the block at the tip, and what it made of them. -/
theorem Traced.tip (h : c.Traced env) (hgen : c.tip.isGenesis = false)
    (hblock : c.db.getBlock c.tip.hash = some block) : ∃ prev line books r,
      c.db.getEntryByHash c.tip.prevBlock = some prev ∧ c.db.Line prev line
        ∧ Books.ofLine env line = some books
        ∧ Ledger.applyAll books.coin (block.ledgerTxs env c.tip.height) = some r
        ∧ Ledger.Within c.db.db.coin r.1 := by
  obtain ⟨line, books, hline, hbooks, hwithin⟩ := h
  cases hline with
  | genesis hgen' => simp [hgen] at hgen'
  | @child _ prev b line _ hprev hb hline =>
    obtain rfl := Option.some.inj (hblock.symm.trans hb)
    rw [Books.ofLine_append_singleton] at hbooks
    obtain ⟨before, hbefore, hconnect⟩ := Option.bind_eq_some_iff.1 hbooks
    obtain ⟨journal, happly, -⟩ := Books.connect_eq_some.1 hconnect
    exact ⟨prev, line, before, _, hprev, hline, hbefore, happly, hwithin⟩

theorem Traced.disconnect (h : c.Traced env) (inv : c.Inv env) (undo : c.UndoInv)
    (hdisc : c.disconnect env c.tip = .ok c') : c'.Traced env := by
  obtain ⟨hsame, htip⟩ := disconnect_sameStore inv hdisc
  obtain ⟨block, _, stored, view, hblock, -, -, -, heffective, hc'⟩ := undo.disconnected inv hdisc
  have hcoins : c'.db.db.coin = _ := (congrArg (fun c => c.db.db.coin) hc').trans heffective
  obtain ⟨prev, line, books, r, hprev, hline, hbooks, happly, hwithin⟩ :=
    h.tip (inv.tree.isGenesis_eq_false inv.tip_stored htip) hblock
  obtain rfl := Option.some.inj (htip.symm.trans hprev)
  exact ⟨line, books, hsame.line hline, hbooks, hcoins ▸ hwithin.revertAll happly _⟩

theorem Traced.move (h : c.Traced env) (inv : c.Inv env) (undo : c.UndoInv)
    (hmove : Move env c c') : c'.Traced env := by
  obtain ⟨hentries, hblocks⟩ := hmove.stored inv
  rcases hmove.sameLedger_or inv with hsame | ⟨_, _, hentry, hblock, hprev, hconnect⟩ | hdisc
  · exact h.mono hsame.tip hsame.coin hentries hblocks
  · exact h.connect inv undo hentry hblock hprev hconnect
  · exact h.disconnect inv undo hdisc

theorem Visited.traced (law : env.Lawful) (h : Visited env c) : c.Traced env := by
  obtain ⟨c₀, hnew, hrun⟩ := h
  refine ReflTransGen.invariant_with (Q := fun c => c.Inv env ∧ c.UndoInv)
    (P := fun c => c.Traced env) (fun _ _ hst hs => ⟨hs.1.move law hst, hs.2.move hs.1 hst⟩)
    (fun _ _ hst hs htraced => htraced.move hs.1 hs.2 hst) hrun
    ⟨Inv.new law hnew, UndoInv.new law hnew⟩ ?_
  obtain ⟨mostWork, rfl⟩ := new_eq_ok law hnew
  exact ⟨[], Books.genesis env, .genesis rfl, rfl, fun o ho => ho⟩

/-- What the block at the tip spent and did not create again is not there. -/
theorem Visited.notMem_spends (law : env.Lawful) (h : Visited env c)
    (hgen : c.tip.isGenesis = false) (hblock : c.db.getBlock c.tip.hash = some block)
    {o : OutPoint} (ho : o ∈ c.db.db.coin)
    (hcreated : ∀ tx ∈ block.ledgerTxs env c.tip.height, o ∉ tx.creates.map Prod.fst) :
    ∀ tx ∈ block.ledgerTxs env c.tip.height, o ∉ tx.spends := by
  obtain ⟨_, _, _, _, -, -, -, happly, hwithin⟩ := (h.traced law).tip hgen hblock
  exact (Ledger.notMem_spends happly (hwithin o ho) hcreated).2

end Chain

end BitcoinNode

import BitcoinNode.Blockchain.Loops

/-!
# Fork choice is optimal

As long as no block has failed, no stored branch whose blocks are all downloaded has more
work than the tip, and the tip only changes for a branch with strictly more work.
-/

namespace BitcoinNode.Chain

open Relation

variable {env : Env} {c c' : Chain} {block : Block} {entry prev : ChainEntry}

/-! ## Calls up to fork choice -/

/-- Where the header of a delivered block is stored, when headers have distinct hashes. -/
theorem HeaderOf.spec (law : env.Lawful) (hinj : Function.Injective env.blockHash)
    (h : Visited env c) {now : Nat} {c₁ : Chain} (hof : HeaderOf env c now block c₁ entry prev) :
    Visited env c₁ ∧ c₁.db.getEntryByHash entry.hash = some entry
      ∧ env.blockHash block.header = entry.hash ∧ c₁.db.getEntryByHash entry.prevBlock = some prev
      ∧ c₁.tip = c.tip := by
  rcases hof with ⟨rfl, hentry, hprev⟩ | ⟨-, hheader⟩
  · have inv := h.inv law
    have hhash := inv.tree.hash_eq hentry
    have hheader := hinj (inv.tree.header_hash hentry)
    refine ⟨h, inv.tree.self hentry, hhash.symm, ?_, rfl⟩
    rw [← hheader] at hprev
    exact hprev
  · obtain ⟨hstored, hhash, hparent, hprev⟩ := addHeader_stored (h.inv law) hheader
    obtain ⟨c₀, hnew, hrun⟩ := h
    exact ⟨⟨c₀, hnew, hrun.tail (.header hheader)⟩, hstored, hhash, hparent ▸ hprev,
      addHeader_tip hheader⟩

/-- What fork choice is called with. -/
theorem Chooses.spec (law : env.Lawful) (hinj : Function.Injective env.blockHash)
    (h : Visited env c) {call : Call} {c₁ : Chain} {b : Option Block}
    (hcall : c.Permitted env call) (hchooses : Chooses env c call c₁ entry prev b) :
    Visited env c₁ ∧ c₁.db.getEntryByHash entry.hash = some entry
      ∧ c₁.db.getEntryByHash entry.prevBlock = some prev
      ∧ (∀ block ∈ b, c₁.db.getBlock entry.hash = some block)
      ∧ c₁.db.isMainChain entry = false ∧ c₁.tip = c.tip := by
  cases hchooses with
  | attach hmain hprev => exact ⟨h, hcall, hprev, by simp, hmain, rfl⟩
  | @add _ block c₂ _ _ _ hof hadd =>
    obtain ⟨hvisited, hentry, hhash, hprev, htip⟩ := hof.spec law hinj h
    have inv := hvisited.inv law
    obtain ⟨hnew, -, cache, ⟨_, he, -⟩ | ⟨db, -, hbody, hwrite, rfl⟩⟩ := addBlock_eq_ok hadd
    · cases he
    rw [hhash] at hnew
    obtain ⟨hget, hdb, -⟩ := getBlock_writeBlock (inv.withCache cache) hnew hwrite
    have hentries : db.getEntryByHash = c₂.db.getEntryByHash := by
      rw [hdb]
      rfl
    have hindex : db.entryCache = c₂.db.entryCache := by
      rw [hdb]
      rfl
    obtain ⟨c₀, hchain, hrun⟩ := hvisited
    refine ⟨⟨c₀, hchain, (hrun.tail (.cache cache)).tail (.block hentry hhash hnew hbody hwrite)⟩,
      (congrFun hentries _).trans hentry, (congrFun hentries _).trans hprev, ?_, ?_, htip⟩
    · rintro b ⟨⟩
      rw [hget, if_pos rfl]
    · have hmain := inv.isMainHash_of_not_hasBlock hnew
      rw [ChainDB.isMainHash, hentry] at hmain
      simpa only [ChainDB.isMainChain, hindex] using hmain

/-- A call does not end in an excluded panic. -/
theorem step_safe (law : env.Lawful) (hinj : Function.Injective env.blockHash)
    (h : Visited env c) {call : Call} (hcall : c.Permitted env call) : Safe (c.step env call) := by
  have inv := h.inv law
  have skips := h.skips law
  have hdiscard : ∀ {ε α : Type} {result : Except Panic (Returned ε α)}
      {f : ε → BlockVerificationError}, Safe result → Safe (discard result f) := by
    intro ε α result f hsafe
    unfold discard
    split
    · exact throws_error.2 (hsafe _ rfl)
    · exact throws_ok
    · exact throws_ok
  cases call with
  | addHeader now header => exact hdiscard (addHeader_safe inv skips)
  | attach entry =>
    simp only [step, attach]
    split
    · exact throws_ok
    split
    · simp [Panic.excluded]
    · rename_i prev hprev
      exact connectBest_safe law h hcall hprev (by simp)
  | status prev deployment =>
    refine Throws.bind ?_ fun _ _ => throws_pure
    exact ChainDB.getDeploymentStatus_safe inv.tree inv.main skips hcall.1
  | add now block =>
    refine hdiscard ?_
    have haddWith : ∀ {c₁ : Chain} {entry prev : ChainEntry},
        HeaderOf env c now block c₁ entry prev → Safe (c₁.addWith env block entry prev) := by
      intro c₁ entry prev hof
      obtain ⟨hvisited, hentry, hhash, hprev, -⟩ := hof.spec law hinj h
      have inv₁ := hvisited.inv law
      rw [addWith]
      refine Throws.bind ?_ fun result hadd => ?_
      · rw [addBlock]
        split_ifs
        · simp [Panic.excluded]
        · refine (verify_safe inv₁ (hvisited.skips law) (inv₁.tree.self hprev)).bind
            fun result _ => ?_
          dsimp only
          split
          · exact throws_pure
          · exact ChainDB.writeBlock_safe.bind fun _ _ => throws_pure
      · obtain ⟨c₂, added⟩ := result
        cases added with
        | error e => exact throws_pure
        | ok _ =>
          obtain ⟨hvisited₂, hentry₂, hprev₂, hblock₂, -⟩ :=
            (Chooses.add hof hadd).spec law hinj h (by trivial)
          refine (connectBest_safe law hvisited₂ hentry₂ hprev₂ hblock₂).bind fun result _ => ?_
          dsimp only
          split <;> exact throws_pure
    rw [add]
    split
    · rename_i entry hentry
      split
      · simp [Panic.excluded]
      · rename_i prev hprev
        exact haddWith (.inl ⟨rfl, hentry, hprev⟩)
    · rename_i hnone
      refine (addHeader_safe inv skips).bind fun result hheader => ?_
      obtain ⟨c₁, verified⟩ := result
      cases verified with
      | error e => exact throws_pure
      | ok result => exact haddWith (.inr ⟨hnone, hheader⟩)

/-! ## Complete branches -/

/-- All blocks from genesis up to the entry are downloaded. -/
def Complete (c : Chain) (e : ChainEntry) : Prop :=
  ∀ a, c.db.Ancestor e a → c.db.hasBlock a.hash = true

/-- No complete branch has more work than the tip. -/
def Best (c : Chain) : Prop :=
  ∀ e, c.db.getEntryByHash e.hash = some e → c.Complete e → e.chainwork ≤ c.tip.chainwork

theorem ready_of_hasBlock (hinvalid : c.db.invalid = ∅) {hash : BlockHash} :
    c.isBlockReady hash = c.db.hasBlock hash := by
  simp [isBlockReady, ChainDB.hasInvalid, hinvalid]

theorem Linked.append {p q e : ChainEntry} {es : List ChainEntry} (h : c.Linked p es)
    (hlast : (p :: es).getLast? = some q) (he : c.Extends q e) : c.Linked p (es ++ [e]) := by
  induction es generalizing p with
  | nil =>
    cases hlast
    exact ⟨he, trivial⟩
  | cons e' es ih => exact ⟨h.1, ih h.2 (by simpa [List.getLast?_cons_cons] using hlast)⟩

/-- A complete branch above an entry is linked to it. -/
theorem exists_linked (inv : c.Inv env) (hinvalid : c.db.invalid = ∅) {e a : ChainEntry}
    (he : c.db.getEntryByHash e.hash = some e) (hcomplete : c.Complete e)
    (hanc : c.db.Ancestor e a) :
    ∃ es, c.Linked a es ∧ (a :: es).getLast? = some e := by
  induction hanc using ReflTransGen.head_induction_on with
  | refl => exact ⟨[], trivial, rfl⟩
  | @head e p hp _ ih =>
    obtain ⟨es, hlinked, hlast⟩ := ih (inv.tree.self hp) fun b hb => hcomplete b (.head hp hb)
    refine ⟨es ++ [e], hlinked.append hlast ⟨he, (inv.tree.hash_eq hp).symm, ?_⟩, ?_⟩
    · rw [ready_of_hasBlock hinvalid]
      exact hcomplete e .refl
    · rw [← List.cons_append, List.getLast?_concat]

/-- Fork choice from an entry makes the tip the best again, when all complete branches off
that entry were no better than the tip. -/
theorem connectBest_best (inv : c.Inv env) {b : Option Block}
    {r : Except BlockVerificationError Unit}
    (hentry : c.db.getEntryByHash entry.hash = some entry)
    (hprev : c.db.getEntryByHash entry.prevBlock = some prev)
    (hblock : ∀ block ∈ b, c.db.getBlock entry.hash = some block)
    (hbest : ∀ e, c.db.getEntryByHash e.hash = some e → c.Complete e →
      c.db.Ancestor e entry ∨ e.chainwork ≤ c.tip.chainwork)
    (hinvalid : c'.db.invalid = ∅) (h : c.connectBest env entry prev b = .ok (c', r)) :
    c'.Best ∧ (c'.tip = c.tip ∨ c.tip.chainwork < c'.tip.chainwork) := by
  obtain ⟨hentries, -, hdown, hsub⟩ := connectBest_store inv hentry hprev hblock h
  have hnone : c.db.invalid = ∅ := Finset.subset_empty.1 (hinvalid ▸ hsub)
  have hcomplete : ∀ e, c'.Complete e → c.Complete e := by
    intro e he a ha
    have := he a (by rw [ChainDB.Ancestor, hentries]; exact ha)
    rwa [ChainDB.hasBlock, hdown] at this
  have hwork : ∀ e, c.db.getEntryByHash e.hash = some e → c.Complete e →
      c.db.Ancestor e entry → ∃ es, c.Linked entry es ∧ lastWork (entry :: es) = e.chainwork := by
    intro e he hc hanc
    obtain ⟨es, hlinked, hlast⟩ := exists_linked inv hnone he hc hanc
    exact ⟨es, hlinked, by simp [lastWork, hlast]⟩
  obtain ⟨queue, hqueue, hcases⟩ := connectBest_eq_ok inv hentry hprev hblock h
  rcases buildQueue_eq_ok inv hentry hprev hblock hqueue with ⟨rfl, a, ha, hready⟩ |
    ⟨rfl, hle⟩ | ⟨fork, -, -, -, hne, -, -, hle, -⟩
  · obtain ⟨-, rfl, -⟩ := hcases.resolve_right (by rintro ⟨c₁, hne, -⟩; exact hne rfl)
    refine ⟨fun e he hc => ?_, .inl rfl⟩
    refine (hbest e he (hcomplete e hc)).resolve_left fun hanc => ?_
    rw [ready_of_hasBlock hnone, hcomplete e hc a (hanc.trans ha)] at hready
    cases hready
  · obtain ⟨-, rfl, -⟩ := hcases.resolve_right (by rintro ⟨c₁, hne, -⟩; exact hne rfl)
    refine ⟨fun e he hc => ?_, .inl rfl⟩
    rcases hbest e he (hcomplete e hc) with hanc | hold
    · obtain ⟨es, hlinked, heq⟩ := hwork e he (hcomplete e hc) hanc
      exact heq ▸ hle es hlinked
    · exact hold
  · obtain ⟨hnil, -⟩ | ⟨c₁, -, hlinked, hdisc, hlt, ⟨-, hconn⟩ | ⟨q, c₂, e, cache, -, -, rfl⟩⟩ :=
      hcases
    · exact absurd hnil hne
    · obtain ⟨-, hsame, inv₁, -⟩ := hdisc.spec inv
      obtain ⟨-, -, -, htip⟩ := hconn.spec inv₁ (hsame.linkedQueue hlinked)
      obtain ⟨first, rest, rfl⟩ := List.exists_cons_of_ne_nil hne
      rw [lastEntry_cons] at htip hlt hle
      rw [Best, htip]
      refine ⟨fun e he hc => ?_, .inr hlt⟩
      rw [hentries] at he
      rcases hbest e he (hcomplete e hc) with hanc | hold
      · obtain ⟨es, hlinked, heq⟩ := hwork e he (hcomplete e hc) hanc
        exact heq ▸ hle es hlinked
      · omega
    · exact absurd hinvalid (Finset.insert_ne_empty _ _)

/-! ## Runs -/

/-- A new header has no block yet, so it completes no branch. -/
theorem addHeader_best (inv : c.Inv env) (hbest : c.Best) {now : Nat} {header : BlockHeader}
    {r : Except BlockHeaderVerificationError (ChainEntry × ChainEntry)}
    (h : c.addHeader env now header = .ok (c', r)) : c'.Best := by
  cases r with
  | error e =>
    rcases addHeader_eq_ok h with ⟨_, -, rfl⟩ | ⟨_, _, _, _, hr, -⟩
    · exact hbest
    · cases hr
  | ok result =>
    obtain ⟨entry, prev⟩ := result
    obtain ⟨hnone, hget⟩ := getEntryByHash_addHeader inv h
    have hdown : c'.db.downloaded = c.db.downloaded := by
      rcases addHeader_eq_ok h with ⟨_, hr, -⟩ | ⟨_, _, _, _, -, -, -, -, -, -, -, -, hsave, rfl⟩
      · cases hr
      · obtain ⟨mostWork, rfl⟩ := ChainDB.saveEntry_eq_ok inv.idle hsave
        rfl
    intro e he hcomplete
    rw [hget] at he
    rw [addHeader_tip h]
    split_ifs at he with heq
    · have hstored : e.hash ∈ c.db.downloaded := by
        simpa [ChainDB.hasBlock, hdown] using hcomplete e .refl
      obtain ⟨e', he'⟩ := inv.block_entry hstored
      rw [heq, hnone] at he'
      cases he'
    · refine hbest e he fun a ha => ?_
      have hmono : ∀ hash e, c.db.getEntryByHash hash = some e →
          c'.db.getEntryByHash hash = some e := by
        intro hash e he
        rw [hget, if_neg, he]
        rintro rfl
        rw [hnone] at he
        cases he
      have := hcomplete a (Forest.Ancestor.mono hmono ha)
      rwa [ChainDB.hasBlock, hdown] at this

theorem step_best (law : env.Lawful) (hinj : Function.Injective env.blockHash)
    (h : Visited env c) (hbest : c.Best) {call : Call} {r : Except BlockVerificationError Unit}
    (hcall : c.Permitted env call) (hinvalid : c'.db.invalid = ∅)
    (hstep : c.step env call = .ok (c', r)) :
    c'.Best ∧ (c'.tip = c.tip ∨ c.tip.chainwork < c'.tip.chainwork) := by
  have inv := h.inv law
  cases call with
  | addHeader now header =>
    obtain ⟨r', hstep, -⟩ := discard_eq_ok hstep
    exact ⟨addHeader_best inv hbest hstep, .inl (addHeader_tip hstep)⟩
  | status prev deployment =>
    simp only [step, bind_eq_ok] at hstep
    obtain ⟨⟨cache, _⟩, -, hstep⟩ := hstep
    cases hstep
    exact ⟨hbest, .inl rfl⟩
  | attach entry =>
    simp only [step, attach] at hstep
    split at hstep
    · cases hstep
      exact ⟨hbest, .inl rfl⟩
    split at hstep
    · cases hstep
    · rename_i prev hprev
      exact connectBest_best inv hcall hprev (by simp) (fun e he hc => .inr (hbest e he hc))
        hinvalid hstep
  | add now block =>
    obtain ⟨r', hstep, -⟩ := discard_eq_ok hstep
    rcases add_eq_ok hstep with ⟨_, -, -, rfl, -⟩ | ⟨c₁, entry, prev, hadd, hof⟩
    · exact ⟨hbest, .inl rfl⟩
    have hof : HeaderOf env c now block c₁ entry prev := hof
    obtain ⟨hvisited, hentry, hhash, hprev, htip⟩ := hof.spec law hinj h
    have inv₁ := hvisited.inv law
    have hbest₁ : c₁.Best := by
      rcases hof with ⟨rfl, -⟩ | ⟨-, hheader⟩
      · exact hbest
      · exact addHeader_best inv hbest hheader
    obtain ⟨hnew, cache, ⟨e, -, rfl⟩ | ⟨db, r'', -, hbody, hwrite, hconnect, hget, -⟩⟩ :=
      addWith_eq_ok inv₁ hhash hprev hadd
    · exact absurd hinvalid (Finset.insert_ne_empty _ _)
    have inv' := inv₁.withCache cache
    have hdb := (getBlock_writeBlock inv' hnew hwrite).2.1
    have hentries : db.getEntryByHash = c₁.db.getEntryByHash := by
      rw [hdb]
      rfl
    have hdown : db.downloaded = insert entry.hash c₁.db.downloaded := by
      rw [hdb]
      rfl
    have inv₂ : ({ c₁.withCache cache with db := db } : Chain).Inv env :=
      inv'.writeBlock hentry hhash hnew hbody hwrite
    rw [← htip]
    refine connectBest_best (c := { c₁.withCache cache with db := db }) inv₂
      ((congrFun hentries _).trans hentry) ((congrFun hentries _).trans hprev)
      (by rintro b ⟨⟩; exact hget) (fun e he hc => ?_) hinvalid hconnect
    -- a branch that the new block completes goes through it
    rw [or_iff_not_imp_left]
    intro hoff
    change db.getEntryByHash e.hash = some e at he
    rw [hentries] at he
    refine hbest₁ e he fun a ha => ?_
    have hne : a.hash ≠ entry.hash := by
      intro heq
      have hstored := ha.stored inv₁.tree he
      rw [heq, hentry] at hstored
      refine hoff ?_
      change Forest.Ancestor ChainEntry.prevBlock db.getEntryByHash e entry
      rw [hentries, Option.some.inj hstored]
      exact ha
    have hmem : a.hash ∈ db.downloaded := by
      refine of_decide_eq_true (hc a ?_)
      change Forest.Ancestor ChainEntry.prevBlock db.getEntryByHash e a
      rw [hentries]
      exact ha
    rw [hdown, Finset.mem_insert] at hmem
    exact decide_eq_true (hmem.resolve_left hne)

theorem Move.invalid_subset (inv : c.Inv env) (h : Move env c c') :
    c.db.invalid ⊆ c'.db.invalid := by
  cases h with
  | cache cache => exact subset_rfl
  | header h =>
    rcases addHeader_eq_ok h with ⟨_, hr, -⟩ | ⟨_, _, _, _, -, -, -, -, -, -, -, -, hsave, rfl⟩
    · cases hr
    · obtain ⟨mostWork, rfl⟩ := ChainDB.saveEntry_eq_ok inv.idle hsave
      exact subset_rfl
  | invalid _ _ => exact Finset.subset_insert _ _
  | block _ _ _ _ hwrite =>
    obtain ⟨blocks, -, rfl⟩ := ChainDB.writeBlock_eq_ok hwrite
    exact subset_rfl
  | connect hentry _ hblock hprev h =>
    exact (connect_sameStore inv hentry hblock hprev h).1.invalid.ge
  | disconnect h => exact (disconnect_sameStore inv h).1.invalid.ge

theorem moves_invalid_subset (law : env.Lawful) (inv : c.Inv env)
    (h : ReflTransGen (Move env) c c') : c.db.invalid ⊆ c'.db.invalid := by
  refine ReflTransGen.invariant_with (Q := Inv env) (P := fun c' => c.db.invalid ⊆ c'.db.invalid)
    (fun _ _ hst hs => hs.move law hst) (fun _ _ hst hs hsub => ?_) h inv subset_rfl
  exact hsub.trans (hst.invalid_subset hs)

theorem best_genesis (law : env.Lawful) (h : Chain.new env = .ok c) : c.Best := by
  obtain ⟨mostWork, rfl⟩ := new_eq_ok law h
  intro e he _
  exact ((getEntryByHash_fresh.1 he).2 ▸ le_rfl)

theorem Reachable.best (law : env.Lawful) (hinj : Function.Injective env.blockHash)
    (h : Reachable env c) (hinvalid : c.db.invalid = ∅) : c.Best := by
  induction h with
  | new hnew => exact best_genesis law hnew
  | @step c c' call r h hcall hstep ih =>
    have hsub := moves_invalid_subset law (h.inv law) (step_moves law (h.inv law) hcall hstep)
    have hbest := ih (Finset.subset_empty.1 (hinvalid ▸ hsub))
    exact (step_best law hinj (h.visited law) hbest hcall hinvalid hstep).1

/-- Fork choice is optimal and keeps the branch seen first: while no block is marked
invalid, no complete branch has more work than the tip, and the tip changes only for
strictly more work. Its assertions never fire and its loops end; the disconnect loop stops
at the fork of the main chain and the queue, unless an undo record is missing. -/
theorem fork_choice (law : env.Lawful) (hinj : Function.Injective env.blockHash)
    (h : Reachable env c) :
    (c.db.invalid = ∅ → ∀ e, c.db.getEntryByHash e.hash = some e →
      (∀ a, c.db.Ancestor e a → c.db.hasBlock a.hash = true) → e.chainwork ≤ c.tip.chainwork)
    ∧ (∀ call c' r, c.Permitted env call → c.step env call = .ok (c', r) → c'.db.invalid = ∅ →
      c'.tip = c.tip ∨ c.tip.chainwork < c'.tip.chainwork)
    ∧ (∀ call p, c.Permitted env call → c.step env call = .error p →
      p ≠ .connectBestPrevious ∧ p ≠ .connectTip ∧ p ≠ .diverges)
    ∧ ∀ call c₁ entry prev b first rest, c.Permitted env call →
      Chooses env c call c₁ entry prev b → c₁.buildQueue entry prev b = .ok (first :: rest) →
      ∃ fork, c₁.db.getEntryByHash first.entry.prevBlock = some fork
        ∧ c₁.db.isMainChain fork = true ∧ c₁.db.isMainChain first.entry = false
        ∧ (∀ p, disconnectTo env first.entry.prevBlock (c₁.tip.height + 1) c₁ = .error p →
          p = .undoMissing)
        ∧ ∀ c₂, disconnectTo env first.entry.prevBlock (c₁.tip.height + 1) c₁ = .ok c₂ →
          c₂.tip = fork := by
  have hvisited := h.visited law
  refine ⟨fun hinvalid => h.best law hinj hinvalid, fun call c' r hcall hstep hinvalid => ?_,
    fun call p hcall hpanic => ?_, fun call c₁ entry prev b first rest hcall hchooses hqueue => ?_⟩
  · have hsub := moves_invalid_subset law (h.inv law) (step_moves law (h.inv law) hcall hstep)
    have hbest := h.best law hinj (Finset.subset_empty.1 (hinvalid ▸ hsub))
    exact (step_best law hinj hvisited hbest hcall hinvalid hstep).2
  · have hsafe := step_safe law hinj hvisited hcall p hpanic
    simpa [Panic.excluded] using hsafe
  · obtain ⟨hvisited₁, hentry, hprev, hblock, hoff, -⟩ := hchooses.spec law hinj hvisited hcall
    have inv := hvisited₁.inv law
    rcases buildQueue_eq_ok inv hentry hprev hblock hqueue with ⟨hnil, -⟩ | ⟨hnil, -⟩ |
      ⟨fork, hfork, hmain, -, -, hlinked, -, -, hhead⟩
    · cases hnil
    · cases hnil
    have hparent : first.entry.prevBlock = fork.hash := hlinked.1.prev
    have hanc := (inv.main.isMainChain_iff_ancestor inv.tree inv.tip_stored hfork).1 hmain
    refine ⟨fork, by rw [hparent, hfork], hmain, ?_, fun p hp => ?_, fun c₂ hc₂ => ?_⟩
    · rcases hhead first rfl with heq | hfirst
      · rw [heq, hoff]
      · exact hfirst
    · rw [hparent] at hp
      exact disconnectTo_throws law hvisited₁ hanc (by omega) p hp
    · obtain ⟨hrun, htip⟩ := disconnectTo_eq_ok hc₂
      obtain ⟨-, hsame, inv₂, -⟩ := hrun.spec inv
      have hstored := inv₂.tip_stored
      rw [hsame.entries, htip, hparent, hfork] at hstored
      exact (Option.some.inj hstored).symm

/-- The rule after the first block: the tip has all the work there is. -/
theorem fork_choice_first : ∃ c, Reachable Small.env c ∧ c.tip.chainwork = 4
    ∧ ∀ e, c.db.getEntryByHash e.hash = some e →
      (∀ a, c.db.Ancestor e a → c.db.hasBlock a.hash = true) → e.chainwork ≤ c.tip.chainwork := by
  obtain ⟨c, hc, hP⟩ := exists_reachable Small.env
    [.addHeader 100 Small.first.header, .add 100 Small.first]
    (fun c => decide (c.tip.chainwork = 4 ∧ c.db.invalid = ∅)) (by decide) (by decide +kernel)
  obtain ⟨hwork, hinvalid⟩ := of_decide_eq_true hP
  exact ⟨c, hc, hwork, (fork_choice Small.lawful Small.blockHash_injective hc).1 hinvalid⟩

end BitcoinNode.Chain

import BitcoinNode.Blockchain.Invariant

/-!
# The queue of `connect_best`

What the three searches of fork choice return: the best path of ready blocks below an
entry, the ancestors back to the main chain, and the queue made of both. A queue is linked
when each block in it is ready and extends the one before.
-/

namespace BitcoinNode.Chain

variable {env : Env} {c c' : Chain} {entry prev : ChainEntry}

/-- `e` is a stored ready child of `p`. -/
structure Extends (c : Chain) (p e : ChainEntry) : Prop where
  stored : c.db.getEntryByHash e.hash = some e
  prev : e.prevBlock = p.hash
  ready : c.isBlockReady e.hash = true

/-- Each entry is a ready child of the one before, the first one of `p`. -/
def Linked (c : Chain) : ChainEntry → List ChainEntry → Prop
  | _, [] => True
  | p, e :: es => c.Extends p e ∧ Linked c e es

/-- A queue whose entries are linked from `p` on, with their parents and blocks. -/
def LinkedQueue (c : Chain) : ChainEntry → List Queued → Prop
  | _, [] => True
  | p, q :: qs =>
    c.Extends p q.entry ∧ q.prev = p ∧ (∀ b ∈ q.block, c.db.getBlock q.entry.hash = some b)
      ∧ LinkedQueue c q.entry qs

/-- The entry a queue ends with. -/
def lastEntry : ChainEntry → List Queued → ChainEntry
  | p, [] => p
  | _, q :: qs => lastEntry q.entry qs

@[simp] theorem lastEntry_nil (p : ChainEntry) : lastEntry p [] = p := rfl

@[simp] theorem lastEntry_cons (p : ChainEntry) (q : Queued) (qs : List Queued) :
    lastEntry p (q :: qs) = lastEntry q.entry qs := rfl

theorem lastEntry_append (p : ChainEntry) (qs qs' : List Queued) :
    lastEntry p (qs ++ qs') = lastEntry (lastEntry p qs) qs' := by
  induction qs generalizing p with
  | nil => rfl
  | cons q qs ih => exact ih q.entry

theorem linkedQueue_append {p : ChainEntry} {qs qs' : List Queued} :
    c.LinkedQueue p (qs ++ qs') ↔ c.LinkedQueue p qs ∧ c.LinkedQueue (lastEntry p qs) qs' := by
  induction qs generalizing p with
  | nil => simp [LinkedQueue]
  | cons q qs ih => simp [LinkedQueue, ih, and_assoc]

theorem getLast?_queue (p : ChainEntry) (q : Queued) (qs : List Queued) :
    ((q :: qs).getLast?.map Queued.entry) = some (lastEntry p (q :: qs)) := by
  induction qs generalizing q p with
  | nil => rfl
  | cons q' qs ih => simpa [List.getLast?_cons_cons] using ih q.entry q'

/-! ## The best path below an entry -/

/-- The children a search goes through are the stored entries that name this parent. -/
theorem mem_getNextEntries (inv : c.Inv env) {hash : BlockHash} {entries : List ChainEntry}
    (h : c.db.getNextEntries hash = .ok entries) {e : ChainEntry} :
    e ∈ entries ↔ c.db.getEntryByHash e.hash = some e ∧ e.prevBlock = hash := by
  rw [mem_mapM_eq_ok h]
  constructor
  · rintro ⟨child, hchild, he⟩
    obtain ⟨e', he', hprev⟩ := inv.children.1 hchild
    rw [he'] at he
    obtain rfl := Except.ok.inj he
    exact ⟨inv.tree.self he', hprev⟩
  · rintro ⟨he, hprev⟩
    exact ⟨e.hash, inv.children.2 ⟨e, he, hprev⟩, by rw [he]⟩

/-- The work at the end of a path. -/
def lastWork (path : List ChainEntry) : Nat := (path.getLast?.map ChainEntry.chainwork).getD 0

theorem lastWork_le_cons (e : ChainEntry) (path : List ChainEntry) :
    lastWork path ≤ lastWork (e :: path) := by
  cases path with
  | nil => exact Nat.zero_le _
  | cons e' path => simp [lastWork, List.getLast?_cons_cons]

/-- The loop returns its first candidate or the path of a child, and none of them beats what
it returns. -/
theorem keepBest_eq_ok {path : ChainEntry → Except Panic (List ChainEntry)}
    {entries result : List ChainEntry} (best : List ChainEntry)
    (h : keepBest path entries (lastWork best) best = .ok result) :
    (result = best ∨ ∃ e ∈ entries, path e = .ok result) ∧ lastWork best ≤ lastWork result
      ∧ ∀ e ∈ entries, ∃ p, path e = .ok p ∧ lastWork p ≤ lastWork result := by
  induction entries generalizing best with
  | nil =>
    obtain rfl := Except.ok.inj h
    simp
  | cons e entries ih =>
    simp only [keepBest, bind_eq_ok] at h
    obtain ⟨p, hp, h⟩ := h
    by_cases hbetter : lastWork best < lastWork p
    · obtain ⟨last, hlast⟩ : ∃ last, p.getLast? = some last := by
        cases hl : p.getLast? with
        | none => simp [lastWork, hl] at hbetter
        | some last => exact ⟨last, rfl⟩
      have hwork : last.chainwork = lastWork p := by simp [lastWork, hlast]
      rw [hlast] at h
      dsimp only at h
      rw [hwork, if_pos hbetter] at h
      obtain ⟨hres, hle, hall⟩ := ih p h
      refine ⟨.inr ?_, by omega, ?_⟩
      · rcases hres with rfl | ⟨e', he', hpe⟩
        · exact ⟨e, List.mem_cons_self, hp⟩
        · exact ⟨e', List.mem_cons_of_mem _ he', hpe⟩
      · exact List.forall_mem_cons.2 ⟨⟨p, hp, hle⟩, hall⟩
    · have hkeep : keepBest path entries (lastWork best) best = .ok result := by
        cases hl : p.getLast? with
        | none => simpa [hl] using h
        | some last =>
          rw [hl] at h
          dsimp only at h
          rwa [if_neg (by simpa [lastWork, hl] using hbetter)] at h
      obtain ⟨hres, hle, hall⟩ := ih best hkeep
      refine ⟨?_, hle, List.forall_mem_cons.2 ⟨⟨p, hp, by omega⟩, hall⟩⟩
      rcases hres with rfl | ⟨e', he', hpe⟩
      · exact .inl rfl
      · exact .inr ⟨e', List.mem_cons_of_mem _ he', hpe⟩

/-- Work grows along linked entries. -/
theorem Linked.chainwork_le (inv : c.Inv env) {e : ChainEntry} {path : List ChainEntry}
    (he : c.db.getEntryByHash e.hash = some e) (h : c.Linked e path) :
    e.chainwork ≤ lastWork (e :: path) := by
  induction path generalizing e with
  | nil => exact le_rfl
  | cons e' path ih =>
    obtain ⟨⟨hstored, hprev, -⟩, hpath⟩ := h
    have hlt := inv.tree.chainwork_lt hstored (by rw [hprev, he])
    have := ih hstored hpath
    have := lastWork_le_cons e (e' :: path)
    omega

theorem bestPath_of_not_ready {fuel : Nat} {path : List ChainEntry}
    (h : c.bestPath fuel entry = .ok path) (hready : c.isBlockReady entry.hash = false) :
    path = [] := by
  cases fuel with
  | zero => cases h
  | succ fuel =>
    simp only [bestPath, hready, Bool.not_false, if_true, Except.ok.injEq] at h
    exact h.symm

/-- A best path starts with its entry, each entry extends the one before, and no other
linked path ends in more work. -/
theorem bestPath_eq_ok (inv : c.Inv env) {fuel : Nat} {path : List ChainEntry}
    (h : c.bestPath fuel entry = .ok path) (hready : c.isBlockReady entry.hash = true) :
    ∃ rest, path = entry :: rest ∧ c.Linked entry rest
      ∧ ∀ es, c.Linked entry es → lastWork es ≤ lastWork rest := by
  induction fuel generalizing entry path with
  | zero => cases h
  | succ fuel ih =>
    simp only [bestPath, hready, Bool.not_true, Bool.false_eq_true, if_false, bind_eq_ok,
      pure_eq_ok] at h
    obtain ⟨entries, hentries, rest, hrest, rfl⟩ := h
    obtain ⟨hres, -, hall⟩ := keepBest_eq_ok [] hrest
    refine ⟨rest, rfl, ?_, ?_⟩
    · rcases hres with rfl | ⟨e, he, hpe⟩
      · trivial
      · obtain ⟨hstored, hprev⟩ := (mem_getNextEntries inv hentries).1 he
        cases hr : c.isBlockReady e.hash with
        | false => exact bestPath_of_not_ready hpe hr ▸ trivial
        | true =>
          obtain ⟨rest', rfl, hlinked, -⟩ := ih hpe hr
          exact ⟨⟨hstored, hprev, hr⟩, hlinked⟩
    · intro es hes
      cases es with
      | nil => exact Nat.zero_le _
      | cons e es =>
        obtain ⟨⟨hstored, hprev, hr⟩, hes⟩ := hes
        obtain ⟨p, hp, hle⟩ := hall e ((mem_getNextEntries inv hentries).2 ⟨hstored, hprev⟩)
        obtain ⟨rest', rfl, hlinked, hbest⟩ := ih hp hr
        refine le_trans ?_ hle
        cases es with
        | nil => exact hlinked.chainwork_le inv hstored
        | cons e' es =>
          exact (hbest _ hes).trans (lastWork_le_cons e rest')

theorem getNextBest_eq_ok (inv : c.Inv env) {path : List ChainEntry}
    (h : c.getNextBest entry = .ok path) (hready : c.isBlockReady entry.hash = true) :
    c.Linked entry path ∧ ∀ es, c.Linked entry es → lastWork es ≤ lastWork path := by
  simp only [getNextBest, bind_eq_ok, pure_eq_ok] at h
  obtain ⟨full, hfull, rfl⟩ := h
  obtain ⟨rest, rfl, hlinked, hbest⟩ := bestPath_eq_ok inv hfull hready
  exact ⟨hlinked, hbest⟩

/-! ## The queue -/

theorem linkedQueue_queueNexts {p : ChainEntry} {path : List ChainEntry} (h : c.Linked p path) :
    c.LinkedQueue p (queueNexts p path) := by
  induction path generalizing p with
  | nil => trivial
  | cons e path ih => exact ⟨h.1, rfl, by simp, ih h.2⟩

theorem chainwork_lastEntry_queueNexts (p : ChainEntry) (path : List ChainEntry) :
    (lastEntry p (queueNexts p path)).chainwork = lastWork (p :: path) := by
  induction path generalizing p with
  | nil => rfl
  | cons e path ih => simpa [queueNexts, lastWork, List.getLast?_cons_cons] using ih e

/-- Going back from `headPrev` puts its ready ancestors off the main chain in front of the
queue; it gives up when one of them is not ready. -/
theorem queueAncestors_eq_ok (inv : c.Inv env) {fuel : Nat} {headPrev : ChainEntry}
    {queue : List Queued} {result : Option (List Queued)}
    (hstored : c.db.getEntryByHash headPrev.hash = some headPrev)
    (h : c.queueAncestors fuel headPrev queue = .ok result) :
    (result = none ∧ ∃ a, c.db.Ancestor headPrev a ∧ c.db.isMainChain a = false
        ∧ c.isBlockReady a.hash = false)
      ∨ ∃ fork front, result = some (front ++ queue)
        ∧ c.db.getEntryByHash fork.hash = some fork ∧ c.db.isMainChain fork = true
        ∧ c.db.Ancestor headPrev fork ∧ c.LinkedQueue fork front
        ∧ lastEntry fork front = headPrev ∧ ∀ q ∈ front, c.db.isMainChain q.entry = false := by
  induction fuel generalizing headPrev queue with
  | zero =>
    unfold queueAncestors at h
    split at h
    · rename_i hmain
      exact .inr ⟨headPrev, [], (Except.ok.inj h).symm, hstored, hmain, .refl, trivial, rfl,
        nofun⟩
    · rename_i hmain
      split at h
      · rename_i hready
        exact .inl ⟨(Except.ok.inj h).symm, headPrev, .refl, by simpa using hmain,
          by simpa using hready⟩
      · cases h
  | succ fuel ih =>
    unfold queueAncestors at h
    split at h
    · rename_i hmain
      exact .inr ⟨headPrev, [], (Except.ok.inj h).symm, hstored, hmain, .refl, trivial, rfl,
        nofun⟩
    rename_i hmain
    split at h
    · rename_i hready
      exact .inl ⟨(Except.ok.inj h).symm, headPrev, .refl, by simpa using hmain,
        by simpa using hready⟩
    rename_i hready
    dsimp only at h
    split at h
    · cases h
    rename_i parent hparent
    rcases ih (inv.tree.self hparent) h with ⟨hnone, a, ha, hrest⟩ |
      ⟨fork, front, hsome, hfork, hforkMain, hanc, hlinked, hlast, hoff⟩
    · exact .inl ⟨hnone, a, .head hparent ha, hrest⟩
    · refine .inr ⟨fork, front ++ [⟨headPrev, parent, none⟩], by simpa using hsome, hfork,
        hforkMain, .head hparent hanc, linkedQueue_append.2 ⟨hlinked, ?_⟩, ?_, ?_⟩
      · rw [hlast]
        exact ⟨⟨hstored, (inv.tree.hash_eq hparent).symm, by simpa using hready⟩, rfl, by simp,
          trivial⟩
      · rw [lastEntry_append]
        rfl
      · intro q hq
        rcases List.mem_append.1 hq with hq | hq
        · exact hoff q hq
        · obtain rfl := List.mem_singleton.1 hq
          simpa using hmain

/-- What `connect_best` is going to do: nothing, because a block on the way is missing or no
path ends in more work than the tip, or connect a queue that ends in the most work. -/
theorem buildQueue_eq_ok (inv : c.Inv env) {block : Option Block} {queue : List Queued}
    (hentry : c.db.getEntryByHash entry.hash = some entry)
    (hprev : c.db.getEntryByHash entry.prevBlock = some prev)
    (hblock : ∀ b ∈ block, c.db.getBlock entry.hash = some b)
    (h : c.buildQueue entry prev block = .ok queue) :
    (queue = [] ∧ ∃ a, c.db.Ancestor entry a ∧ c.isBlockReady a.hash = false)
      ∨ (queue = [] ∧ ∀ es, c.Linked entry es → lastWork (entry :: es) ≤ c.tip.chainwork)
      ∨ ∃ fork, c.db.getEntryByHash fork.hash = some fork ∧ c.db.isMainChain fork = true
        ∧ c.db.Ancestor prev fork ∧ queue ≠ [] ∧ c.LinkedQueue fork queue
        ∧ c.tip.chainwork < (lastEntry fork queue).chainwork
        ∧ (∀ es, c.Linked entry es → lastWork (entry :: es) ≤ (lastEntry fork queue).chainwork)
        ∧ ∀ first ∈ queue.head?, first.entry = entry ∨ c.db.isMainChain first.entry = false := by
  unfold buildQueue at h
  split at h
  · rename_i hready
    exact .inl ⟨(Except.ok.inj h).symm, entry, .refl, by simpa using hready⟩
  rename_i hready
  simp only [Bool.not_eq_true', Bool.not_eq_false] at hready
  simp only [bind_eq_ok] at h
  obtain ⟨found, hfound, h⟩ := h
  rcases queueAncestors_eq_ok inv (inv.tree.self hprev) hfound with ⟨rfl, a, ha, -, hr⟩ |
    ⟨fork, front, rfl, hfork, hmain, hanc, hfront, hlast, hoff⟩
  · exact .inl ⟨(pure_eq_ok.1 h).symm, a, .head hprev ha, hr⟩
  simp only [bind_eq_ok, pure_eq_ok] at h
  obtain ⟨nexts, hnexts, h⟩ := h
  obtain ⟨hlinked, hbest⟩ := getNextBest_eq_ok inv hnexts hready
  have hqueue : c.LinkedQueue fork (front ++ [⟨entry, prev, block⟩] ++ queueNexts entry nexts) := by
    rw [List.append_assoc, linkedQueue_append, hlast]
    exact ⟨hfront, ⟨hentry, (inv.tree.hash_eq hprev).symm, hready⟩, rfl, hblock,
      linkedQueue_queueNexts hlinked⟩
  have hlastWork : (lastEntry fork (front ++ [⟨entry, prev, block⟩]
      ++ queueNexts entry nexts)).chainwork = lastWork (entry :: nexts) := by
    rw [List.append_assoc, lastEntry_append]
    exact chainwork_lastEntry_queueNexts entry nexts
  have hne : front ++ [⟨entry, prev, block⟩] ++ queueNexts entry nexts ≠ [] := by simp
  have hbest' : ∀ es, c.Linked entry es → lastWork (entry :: es) ≤ lastWork (entry :: nexts) := by
    intro es hes
    cases es with
    | nil => exact hlinked.chainwork_le inv hentry
    | cons e es => exact (hbest _ hes).trans (lastWork_le_cons entry nexts)
  have hhead : ∀ first,
      (front ++ [(⟨entry, prev, block⟩ : Queued)] ++ queueNexts entry nexts).head? = some first →
      first.entry = entry ∨ c.db.isMainChain first.entry = false := by
    intro first hfirst
    cases front with
    | nil =>
      obtain rfl := Option.some.inj hfirst
      exact .inl rfl
    | cons q front =>
      obtain rfl := Option.some.inj hfirst
      exact .inr (hoff _ List.mem_cons_self)
  rw [← hlastWork] at hbest'
  generalize front ++ [⟨entry, prev, block⟩] ++ queueNexts entry nexts = full at *
  obtain ⟨q, qs, rfl⟩ := List.exists_cons_of_ne_nil hne
  have hget : (((q :: qs).getLast?.map fun queued => queued.entry.chainwork).getD 0) =
      (lastEntry fork (q :: qs)).chainwork := by
    have := congrArg (Option.map ChainEntry.chainwork) (getLast?_queue fork q qs)
    rw [Option.map_map] at this
    exact congrArg (fun work => work.getD 0) this
  rw [hget] at h
  split_ifs at h with hwork
  · exact .inr (.inl ⟨h.symm, fun es hes => (hbest' es hes).trans hwork⟩)
  · exact .inr (.inr ⟨fork, hfork, hmain, hanc, h ▸ hne, h ▸ hqueue,
      h ▸ Nat.lt_of_not_le hwork, h ▸ hbest', h ▸ hhead⟩)

/-! ## Carrying the queue out -/

/-- The stored headers and blocks, and their marks, are the same. -/
structure SameStore (c c' : Chain) : Prop where
  entries : c'.db.getEntryByHash = c.db.getEntryByHash
  blocks : c'.db.getBlock = c.db.getBlock
  invalid : c'.db.invalid = c.db.invalid
  downloaded : c'.db.downloaded = c.db.downloaded

namespace SameStore

theorem refl (c : Chain) : SameStore c c := ⟨rfl, rfl, rfl, rfl⟩

theorem trans {c₁ c₂ c₃ : Chain} (h : SameStore c₁ c₂) (h' : SameStore c₂ c₃) :
    SameStore c₁ c₃ :=
  ⟨h'.entries.trans h.entries, h'.blocks.trans h.blocks, h'.invalid.trans h.invalid,
    h'.downloaded.trans h.downloaded⟩

theorem isBlockReady (h : SameStore c c') : c'.isBlockReady = c.isBlockReady := by
  funext hash
  simp [Chain.isBlockReady, ChainDB.hasInvalid, ChainDB.hasBlock, h.invalid, h.downloaded]

theorem linkedQueue (h : SameStore c c') {p : ChainEntry} {qs : List Queued}
    (hqs : c.LinkedQueue p qs) : c'.LinkedQueue p qs := by
  induction qs generalizing p with
  | nil => trivial
  | cons q qs ih =>
    obtain ⟨⟨hstored, hprev, hready⟩, hp, hblock, hqs⟩ := hqs
    refine ⟨⟨?_, hprev, ?_⟩, hp, ?_, ih hqs⟩
    · rw [h.entries, hstored]
    · rw [h.isBlockReady, hready]
    · rw [h.blocks]
      exact hblock

end SameStore

/-- A connected block changes no stored header or block. -/
theorem connect_sameStore (inv : c.Inv env) {block : Block}
    (hentry : c.db.getEntryByHash entry.hash = some entry)
    (hblock : c.db.getBlock entry.hash = some block) (hprev : entry.prevBlock = c.tip.hash)
    (h : c.connect env block entry c.tip = .ok (c', .ok entry)) :
    SameStore c c' ∧ c'.tip = entry := by
  obtain ⟨-, -, cache, ⟨e, he, -⟩ | ⟨view, state, db, -, -, -, -, hdb, rfl⟩⟩ := connect_eq_ok h
  · cases he
  have htip : c.db.getEntryByHash entry.prevBlock = some c.tip := by rw [hprev, inv.tip_stored]
  obtain ⟨record, blocks, -, hundo, rfl⟩ := ChainDB.connect_eq_ok (inv.withCache cache).idle
    (inv.tree.isGenesis_eq_false hentry htip) (inv.block_hash hblock) hdb
  refine ⟨⟨ChainDB.getEntryByHash_connected _ _ _ hentry, ?_, rfl, rfl⟩, rfl⟩
  funext hash
  have hblocks := (ChainDB.writeUndo_eq_ok hundo).1
  simp only [connected, notifyConnect, ChainDB.connected, ChainDB.getBlock, BlockStore.readBlock,
    hblocks, withCache]

/-- A disconnected block changes no stored header or block. -/
theorem disconnect_sameStore (inv : c.Inv env) (h : c.disconnect env c.tip = .ok c') :
    SameStore c c' ∧ c.db.getEntryByHash c.tip.prevBlock = some c'.tip := by
  obtain ⟨block, prev, db, view, -, hprev, hdb, rfl⟩ := disconnect_eq_ok h
  obtain ⟨undo, record, -, -, rfl⟩ := ChainDB.disconnect_eq_ok inv.idle hdb
  exact ⟨⟨rfl, rfl, rfl, rfl⟩, hprev⟩

/-- Blocks disconnected from the tip, one after the other. -/
def Disconnects (env : Env) : Chain → Chain → Prop :=
  Relation.ReflTransGen fun c c' => c.disconnect env c.tip = .ok c'

/-- The blocks of a queue connected to the tip, one after the other. -/
inductive Connects (env : Env) : Chain → List Queued → Chain → Prop where
  | nil {c : Chain} : Connects env c [] c
  | cons {c c₁ c' : Chain} {q : Queued} {qs : List Queued} {block : Block} :
      c.db.getBlock q.entry.hash = some block →
      c.connect env block q.entry c.tip = .ok (c₁, .ok q.entry) →
      Connects env c₁ qs c' → Connects env c (q :: qs) c'

/-- What a queue does when its block `q` fails: the blocks before it are connected. -/
structure Fails (env : Env) (c : Chain) (queue : List Queued) (q : Queued) (c₁ : Chain)
    (e : BlockVerificationError) (cache : VersionBitsCache) : Prop where
  split : ∃ before after, queue = before ++ q :: after ∧ Connects env c before c₁
  verify : ∃ block, c₁.db.getBlock q.entry.hash = some block
    ∧ c₁.verifyContext env block c₁.tip = .ok (c₁.withCache cache, .error e)

theorem Disconnects.spec (inv : c.Inv env) (h : Disconnects env c c') :
    Relation.ReflTransGen (Move env) c c' ∧ SameStore c c' ∧ c'.Inv env
      ∧ c.db.Ancestor c.tip c'.tip := by
  induction h with
  | refl => exact ⟨.refl, .refl c, inv, .refl⟩
  | tail _ hstep ih =>
    obtain ⟨hmoves, hsame, inv', hanc⟩ := ih
    obtain ⟨hsame', hprev⟩ := disconnect_sameStore inv' hstep
    refine ⟨hmoves.tail (.disconnect hstep), hsame.trans hsame', inv'.disconnect hstep, ?_⟩
    rw [hsame.entries] at hprev
    exact hanc.tail hprev

theorem Connects.spec (inv : c.Inv env) {qs : List Queued} (hqs : c.LinkedQueue c.tip qs)
    (h : Connects env c qs c') :
    Relation.ReflTransGen (Move env) c c' ∧ SameStore c c' ∧ c'.Inv env
      ∧ c'.tip = lastEntry c.tip qs := by
  induction h with
  | nil => exact ⟨.refl, .refl _, inv, rfl⟩
  | @cons c c₁ c' q qs block hblock hconnect _ ih =>
    obtain ⟨⟨hstored, hprev, hready⟩, -, -, hqs⟩ := hqs
    obtain ⟨hsame, htip⟩ := connect_sameStore inv hstored hblock hprev hconnect
    have inv' := inv.connect hstored hready hblock hprev hconnect
    obtain ⟨hmoves, hsame', inv'', hlast⟩ := ih inv' (htip ▸ hsame.linkedQueue hqs)
    refine ⟨.head (.connect hstored hready hblock hprev hconnect) hmoves, hsame.trans hsame',
      inv'', ?_⟩
    rw [hlast, htip]
    rfl

theorem disconnectTo_eq_ok {hash : BlockHash} {fuel : Nat}
    (h : disconnectTo env hash fuel c = .ok c') : Disconnects env c c' ∧ c'.tip.hash = hash := by
  induction fuel generalizing c with
  | zero =>
    unfold disconnectTo at h
    split at h
    · rename_i heq
      obtain rfl := Except.ok.inj h
      exact ⟨.refl, heq⟩
    · cases h
  | succ fuel ih =>
    unfold disconnectTo at h
    split at h
    · rename_i heq
      obtain rfl := Except.ok.inj h
      exact ⟨.refl, heq⟩
    · dsimp only at h
      simp only [bind_eq_ok] at h
      obtain ⟨c₁, hstep, h⟩ := h
      obtain ⟨hrun, heq⟩ := ih h
      exact ⟨.head hstep hrun, heq⟩

/-- A queue is connected to its end, or up to its first block that fails verification. -/
theorem connectQueue_eq_ok (inv : c.Inv env) {queue : List Queued}
    {r : Except BlockVerificationError Unit} (hqueue : c.LinkedQueue c.tip queue)
    (h : connectQueue env queue c = .ok (c', r)) :
    (r = .ok () ∧ Connects env c queue c')
      ∨ ∃ q c₁ e cache, Fails env c queue q c₁ e cache ∧ r = .error e
        ∧ c' = (c₁.withCache cache).setInvalid q.entry.hash := by
  induction queue generalizing c with
  | nil =>
    cases h
    exact .inl ⟨rfl, .nil⟩
  | cons q queue ih =>
    obtain ⟨⟨hstored, hprev, hready⟩, hqprev, hqblock, hqueue⟩ := hqueue
    unfold connectQueue at h
    split at h
    · cases h
    rename_i block hor
    have hblock : c.db.getBlock q.entry.hash = some block := by
      cases hb : q.block with
      | none => simpa [hb] using hor
      | some b =>
        obtain rfl : b = block := by simpa [hb] using hor
        exact hqblock b hb
    simp only [bind_eq_ok] at h
    obtain ⟨⟨c₁, connected⟩, hconnect, h⟩ := h
    rw [hqprev] at hconnect
    obtain ⟨-, -, cache, ⟨e, rfl, rfl, hverify⟩ | ⟨view, state, db, rfl, -⟩⟩ :=
      connect_eq_ok hconnect
    · cases h
      exact .inr ⟨q, c, e, cache, ⟨⟨[], queue, rfl, .nil⟩, block, hblock, hverify⟩, rfl, rfl⟩
    · dsimp only at h
      obtain ⟨hsame, htip⟩ := connect_sameStore inv hstored hblock hprev hconnect
      have inv' := inv.connect hstored hready hblock hprev hconnect
      rcases ih inv' (htip ▸ hsame.linkedQueue hqueue) h with ⟨hr, hrest⟩ |
        ⟨q', c₂, e, cache, ⟨⟨before, after, hsplit, hbefore⟩, hverify⟩, hr, hc'⟩
      · exact .inl ⟨hr, .cons hblock hconnect hrest⟩
      · exact .inr ⟨q', c₂, e, cache, ⟨⟨q :: before, after, by rw [hsplit]; rfl,
          .cons hblock hconnect hbefore⟩, hverify⟩, hr, hc'⟩

/-- The result of `connect_best`: nothing, or the way back to a fork on the main chain and
the queue from there on, to its end or to its first failure. -/
theorem connectBest_eq_ok (inv : c.Inv env) {block : Option Block}
    {r : Except BlockVerificationError Unit}
    (hentry : c.db.getEntryByHash entry.hash = some entry)
    (hprev : c.db.getEntryByHash entry.prevBlock = some prev)
    (hblock : ∀ b ∈ block, c.db.getBlock entry.hash = some b)
    (h : c.connectBest env entry prev block = .ok (c', r)) :
    ∃ queue, c.buildQueue entry prev block = .ok queue
      ∧ (queue = [] ∧ c' = c ∧ r = .ok ()
        ∨ ∃ c₁, queue ≠ [] ∧ c.LinkedQueue c₁.tip queue ∧ Disconnects env c c₁
          ∧ c.tip.chainwork < (lastEntry c₁.tip queue).chainwork
          ∧ (r = .ok () ∧ Connects env c₁ queue c'
            ∨ ∃ q c₂ e cache, Fails env c₁ queue q c₂ e cache ∧ r = .error e
              ∧ c' = (c₂.withCache cache).setInvalid q.entry.hash)) := by
  unfold connectBest at h
  split at h
  · cases h
  simp only [bind_eq_ok] at h
  obtain ⟨queue, hqueue, h⟩ := h
  refine ⟨queue, hqueue, ?_⟩
  rcases buildQueue_eq_ok inv hentry hprev hblock hqueue with ⟨rfl, -⟩ | ⟨rfl, -⟩ |
    ⟨fork, hfork, -, -, hne, hlinked, hwork, -⟩
  · cases h
    exact .inl ⟨rfl, rfl, rfl⟩
  · cases h
    exact .inl ⟨rfl, rfl, rfl⟩
  · obtain ⟨first, rest, rfl⟩ := List.exists_cons_of_ne_nil hne
    simp only [bind_eq_ok] at h
    obtain ⟨c₁, hdisconnect, h⟩ := h
    obtain ⟨hrun, htip⟩ := disconnectTo_eq_ok hdisconnect
    obtain ⟨-, hsame, inv', -⟩ := hrun.spec inv
    have hforkTip : c₁.tip = fork := by
      have := inv'.tip_stored
      rw [hsame.entries, htip, hlinked.1.prev, hfork] at this
      exact (Option.some.inj this).symm
    rw [← hforkTip] at hlinked hwork
    exact .inr ⟨c₁, hne, hlinked, hrun, hwork,
      connectQueue_eq_ok inv' (hsame.linkedQueue hlinked) h⟩

end BitcoinNode.Chain

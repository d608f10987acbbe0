import BitcoinNode.Blockchain.Restart
import BitcoinNode.Blockchain.Retarget

/-!
# Two nodes agree

What a node computes from a header depends on the header and its ancestors only: not on the
order in which headers came, the other branches, or the main chain. Two nodes that store one
header store one entry for it, and a header that one node has accepted is accepted by every
other node that can attach it.
-/

namespace BitcoinNode

namespace ChainDB

variable {env : Env} {db db' : ChainDB} {tip tip' e e' p : ChainEntry} {hash : BlockHash}

/-- Two databases hold one entry under every hash they share. -/
structure Agrees (db db' : ChainDB) : Prop where
  entry {hash : BlockHash} {e e' : ChainEntry} :
    db.getEntryByHash hash = some e → db'.getEntryByHash hash = some e' → e' = e
  parent {hash : BlockHash} {e : ChainEntry} :
    db.getEntryByHash hash = some e → db'.getEntryByHash hash = some e →
      db'.getEntryByHash e.prevBlock = db.getEntryByHash e.prevBlock
  ancestor {hash : BlockHash} {e a : ChainEntry} :
    db.getEntryByHash hash = some e → db'.getEntryByHash hash = some e →
      db.Ancestor e a → db'.Ancestor e a

namespace Agrees

variable (agrees : db.Agrees db') (he : db.getEntryByHash hash = some e)
  (he' : db'.getEntryByHash hash = some e)

include agrees he he'

/-! ## Header rules on shared entries -/

theorem lastTimes_eq {n : Nat} : db'.lastTimes n e = db.lastTimes n e := by
  induction n generalizing e hash with
  | zero => rfl
  | succ n ih =>
    have hparent := agrees.parent he he'
    rw [lastTimes, lastTimes, hparent]
    cases hp : db.getEntryByHash e.prevBlock with
    | none => rfl
    | some p => simp only [ih hp (hparent.trans hp)]

theorem getMedianTime_eq : db'.getMedianTime e = db.getMedianTime e := by
  rw [getMedianTime, getMedianTime, agrees.lastTimes_eq he he']

theorem lastRealBits_eq {fuel : Nat} :
    lastRealBits env db' fuel e = lastRealBits env db fuel e := by
  induction fuel generalizing e hash with
  | zero => simp only [lastRealBits]
  | succ fuel ih =>
    have hparent := agrees.parent he he'
    rw [lastRealBits, lastRealBits, hparent]
    cases hp : db.getEntryByHash e.prevBlock with
    | none => rfl
    | some p => simp only [ih hp (hparent.trans hp)]

section Ancestors

variable (tree : db.Tree env) (main : db.Main tip) (skips : db.Skips) (tree' : db'.Tree env)
  (main' : db'.Main tip') (skips' : db'.Skips)

include tree main skips tree' main' skips'

/-- Along the height index, along parents or along skip pointers: the ancestor is the same. -/
theorem getAncestor_eq {height : Nat} : db'.getAncestor e height = db.getAncestor e height := by
  have hself := tree.self he
  have hself' := tree'.self he'
  rcases Nat.lt_or_ge e.height height with hlt | hle
  · rw [getAncestor, getAncestor, if_pos hlt, if_pos hlt]
  · obtain ⟨a, ha, hanc, hheight⟩ := ChainDB.getAncestor_eq tree main skips hself hle
    obtain ⟨b, hb, hanc', hheight'⟩ := ChainDB.getAncestor_eq tree' main' skips' hself' hle
    have hshared := agrees.ancestor he he' hanc
    rw [ha, hb, tree'.rooted.ancestor_unique hself' hshared hanc' (hheight.trans hheight'.symm)]

theorem getTarget_eq {time : Nat} :
    getTarget env db' time (some e) = getTarget env db time (some e) := by
  have hanc : ∀ {height}, db'.getAncestor e height = db.getAncestor e height :=
    agrees.getAncestor_eq he he' tree main skips tree' main' skips'
  simp only [getTarget, agrees.lastRealBits_eq he he', hanc]

end Ancestors

end Agrees

end ChainDB

namespace Chain

open ChainDB

variable {env : Env} {c c' : Chain} {e e' p : ChainEntry} {hash : BlockHash} {now now' : Nat}
  {header : BlockHeader}

/-! ## The entries -/

/-- An entry is read off its header, its parent and the ancestor at its skip height. -/
theorem entry_eq (law : env.Lawful) (hinj : Function.Injective env.blockHash)
    (h : Visited env c) (h' : Visited env c') (he : c.db.getEntryByHash hash = some e)
    (he' : c'.db.getEntryByHash hash = some e') (hp : c.db.getEntryByHash e.prevBlock = some p)
    (hp' : c'.db.getEntryByHash e.prevBlock = some p)
    (hanc : ∀ a, c.db.Ancestor p a → c'.db.Ancestor p a) : e' = e := by
  have tree := (h.inv law).tree
  have tree' := (h'.inv law).tree
  have hheader : e'.header = e.header := by
    apply hinj
    rw [tree.header_hash he, tree'.header_hash he']
  have hprev : e'.prevBlock = e.prevBlock := congrArg BlockHeader.prevBlockhash hheader
  rw [← hprev] at hp'
  have hgen : ∀ {d : ChainDB} {x q : ChainEntry}, d.Tree env →
      d.getEntryByHash x.prevBlock = some q → x ≠ env.genesisEntry := by
    intro d x q tree hq
    rintro rfl
    rw [tree.rooted.up_root] at hq
    cases hq
  have hheight := (tree.height_eq he hp).trans (tree'.height_eq he' hp').symm
  have hwork : e'.chainwork = e.chainwork := by
    rw [(tree.chainwork he hp).2, (tree'.chainwork he' hp').2, hheader]
  -- the skip pointers name the ancestors of the shared parent at one height
  have hskip : e'.skip = e.skip := by
    have hset := h.skip_ne_zero law he (hgen tree hp)
    have hset' := h'.skip_ne_zero law he' (hgen tree' hp')
    obtain ⟨s, hs, hsanc, hsheight⟩ := (h.skips law _ _ he).resolve_left hset
    obtain ⟨s', hs', hsanc', hsheight'⟩ := (h'.skips law _ _ he').resolve_left hset'
    have hlt := getSkipHeight_lt (show 0 < e.height by rw [tree.height_eq he hp]; omega)
    have hbelow : c'.db.Ancestor p s := by
      rcases hsanc.cases_head with rfl | ⟨q, hq, hsanc⟩
      · omega
      · obtain rfl := Option.some.inj (hp.symm.trans hq)
        exact hanc s hsanc
    have hsame : s = s' := tree'.rooted.ancestor_unique he' (.head hp' hbelow) hsanc'
      (by rw [hsheight, hsheight', hheight])
    rw [← tree.hash_eq hs, ← tree'.hash_eq hs', hsame]
  have hhash := (tree.hash_eq he).trans (tree'.hash_eq he').symm
  cases e
  cases e'
  simp_all [ChainEntry.header]

/-- Two nodes hold one entry under every hash they share. -/
theorem Visited.agrees (law : env.Lawful) (hinj : Function.Injective env.blockHash)
    (h : Visited env c) (h' : Visited env c') : c.db.Agrees c'.db := by
  have tree := (h.inv law).tree
  have tree' := (h'.inv law).tree
  have hagree : ∀ {hash e}, c.db.getEntryByHash hash = some e →
      ∀ k e', c.db.getEntryByHash k = some e → c'.db.getEntryByHash k = some e' →
        e' = e ∧ ∀ a, c.db.Ancestor e a → c'.db.Ancestor e a := by
    intro hash e he
    refine tree.rooted.agree tree'.rooted ?_ ?_ ?_ he
    · intro k e hk hk'
      obtain rfl := tree.hash_eq hk
      exact Option.some.inj (hk'.symm.trans tree'.genesis)
    · intro k e e' hk hk'
      have hheader : e'.header = e.header := by
        apply hinj
        rw [tree.header_hash hk, tree'.header_hash hk']
      exact congrArg BlockHeader.prevBlockhash hheader
    · exact fun k e e' p hk hk' hp hp' hanc => entry_eq law hinj h h' hk hk' hp hp' hanc
  refine ⟨fun he he' => (hagree he _ _ he he').1, fun {hash e} he he' => ?_,
    fun he he' => (hagree he _ _ he he').2 _⟩
  rcases eq_or_ne e env.genesisEntry with rfl | hgen
  · rw [tree.rooted.up_root, tree'.rooted.up_root]
  · obtain ⟨p, hp⟩ := tree.rooted.exists_parent he hgen
    obtain ⟨p', hp'⟩ := tree'.rooted.exists_parent he' hgen
    rw [hp, hp', (hagree hp _ _ hp hp').1]

/-- Headers lead to one tree on every node, in whatever order they came and whichever branch is the
main chain. Nodes with the same headers have the same best one. -/
theorem headers_agree (law : env.Lawful) (hinj : Function.Injective env.blockHash)
    (h : Visited env c) (h' : Visited env c') :
    (∀ hash e e', c.db.getEntryByHash hash = some e → c'.db.getEntryByHash hash = some e' →
      e' = e ∧ (∀ a, c.db.Ancestor e a ↔ c'.db.Ancestor e a)
        ∧ (∀ height, c'.db.getAncestor e height = c.db.getAncestor e height)
        ∧ c'.db.getMedianTime e = c.db.getMedianTime e
        ∧ ∀ time, c'.db.getTarget env time (some e) = c.db.getTarget env time (some e))
    ∧ ((∀ hash, c'.db.hasHeader hash = c.db.hasHeader hash) → c'.db.mostWork = c.db.mostWork) := by
  have inv := h.inv law
  have inv' := h'.inv law
  have agrees := h.agrees law hinj h'
  refine ⟨fun hash e e' he he' => ?_, fun hsame => ?_⟩
  · obtain rfl := agrees.entry he he'
    refine ⟨rfl, fun a => ⟨agrees.ancestor he he', (h'.agrees law hinj h).ancestor he' he⟩,
      fun height => ?_, agrees.getMedianTime_eq he he', fun time => ?_⟩
    · exact agrees.getAncestor_eq he he' inv.tree inv.main (h.skips law) inv'.tree inv'.main
        (h'.skips law)
    · exact agrees.getTarget_eq he he' inv.tree inv.main (h.skips law) inv'.tree inv'.main
        (h'.skips law)
  · have hentries : c'.db.getEntryByHash = c.db.getEntryByHash := by
      funext hash
      have hstored := hsame hash
      unfold hasHeader at hstored
      cases he : c.db.getEntryByHash hash with
      | none => simpa [he] using hstored
      | some e =>
        obtain ⟨e', he'⟩ := Option.isSome_iff_exists.1 (by simpa [he] using hstored)
        rw [he', agrees.entry he he']
    obtain ⟨m, hm, hmax, hgreatest⟩ := h.mostWorkKept law
    obtain ⟨m', hm', hmax', hgreatest'⟩ := h'.mostWorkKept law
    unfold Heaviest at hmax hmax' hgreatest hgreatest'
    rw [hentries] at hmax' hgreatest'
    have hhash : m'.hash = m.hash := le_antisymm (hgreatest m' hmax') (hgreatest' m hmax)
    have hstored := hmax'.1
    rw [hhash, hmax.1] at hstored
    rw [hm, hm', Option.some.inj hstored]

/-- A node of one block and one of its header only. -/
theorem headers_agree_first : ∃ c c', Visited Small.env c ∧ Visited Small.env c'
    ∧ c.tip.height = 1 ∧ c'.tip.height = 0 ∧ c'.db.getEntryByHash c.tip.hash = some c.tip
    ∧ c'.db.mostWork = c.db.mostWork := by
  obtain ⟨c, hc, hP⟩ := exists_reachable Small.env [.add 100 Small.first]
    (fun c => c.tip.height == 1 && c.tip.hash == Small.blockHash Small.first.header
      && decide (c.db.entryCache.hash.keys
        = {Small.env.genesisEntry.hash, Small.blockHash Small.first.header}))
    (by decide) (by decide +kernel)
  obtain ⟨c', hc', hP'⟩ := exists_reachable Small.env [.addHeader 100 Small.first.header]
    (fun c => c.tip.height == 0
      && decide (c.db.entryCache.hash.keys
        = {Small.env.genesisEntry.hash, Small.blockHash Small.first.header}))
    (by decide) (by decide +kernel)
  simp only [Bool.and_eq_true, beq_iff_eq, decide_eq_true_eq] at hP hP'
  obtain ⟨⟨hheight, hhash⟩, hkeys⟩ := hP
  obtain ⟨hheight', hkeys'⟩ := hP'
  have hvisited := hc.visited Small.lawful
  have hvisited' := hc'.visited Small.lawful
  obtain ⟨hentries, hbest⟩ :=
    headers_agree Small.lawful Small.blockHash_injective hvisited hvisited'
  have hstored := (hvisited.inv Small.lawful).tip_stored
  have hsame : ∀ hash, c'.db.hasHeader hash = c.db.hasHeader hash := by
    intro hash
    rw [Bool.eq_iff_iff, hasHeader, hasHeader, getEntryByHash, getEntryByHash,
      Finmap.lookup_isSome, Finmap.lookup_isSome, ← Finmap.mem_keys, ← Finmap.mem_keys, hkeys,
      hkeys']
  obtain ⟨e', he'⟩ := Option.isSome_iff_exists.1
    ((hsame c.tip.hash).trans (by rw [hasHeader, hstored]; rfl))
  refine ⟨c, c', hvisited, hvisited', hheight, hheight', ?_, hbest hsame⟩
  rw [he', (hentries _ _ _ hstored he').1]

/-! ## Accepting a header that another node has -/

/-- Another node checks the header against the same target, median time and versions. -/
theorem contextualCheck_agree (htarget : c'.db.getTarget env header.time (some p)
      = c.db.getTarget env header.time (some p))
    (hmedian : c'.db.getMedianTime p = c.db.getMedianTime p)
    (hnow : header.time < now' + MAX_FUTURE_BLOCK_TIME)
    (h : c.contextualCheckBlockHeader env now header p = .ok ()) :
    c'.contextualCheckBlockHeader env now' header p = .ok () := by
  unfold contextualCheckBlockHeader at h ⊢
  rw [htarget, hmedian]
  simp only [throw_bind, ite_throw_eq_ok] at h ⊢
  refine ⟨h.1, ?_⟩
  replace h := h.2
  split at h
  · cases h
  · simp only [ite_throw_eq_ok] at h ⊢
    exact ⟨h.1, h.2.1, not_le.2 hnow, h.2.2.2⟩

/-- A stored header other than genesis has its proof of work. -/
theorem Visited.validatePow_eq (law : env.Lawful) (h : Visited env c)
    (he : c.db.getEntryByHash e.hash = some e) (hgen : e ≠ env.genesisEntry) :
    env.validatePow e.header = true := by
  obtain ⟨_, _, _, _, -, hadd, -⟩ := h.accepted law he hgen
  rcases addHeader_eq_ok hadd with ⟨_, hr, -⟩ | ⟨_, _, _, _, hr, hpow, -⟩
  · cases hr
  · cases hr
    exact hpow

/-- What a node checked when it stored an entry, another one that has the parent finds too. -/
theorem Visited.check_agrees (law : env.Lawful) (hinj : Function.Injective env.blockHash)
    (h : Visited env c) (h' : Visited env c') (he : c.db.getEntryByHash e.hash = some e)
    (hp : c.db.getEntryByHash e.prevBlock = some p)
    (hp' : c'.db.getEntryByHash e.prevBlock = some p)
    (hnow : e.time < now + MAX_FUTURE_BLOCK_TIME) :
    env.validatePow e.header = true
      ∧ c'.contextualCheckBlockHeader env now e.header p = .ok () := by
  have hgen : e ≠ env.genesisEntry := by
    rintro rfl
    rw [(h.inv law).tree.rooted.up_root] at hp
    cases hp
  obtain ⟨c₁, c₂, now₁, q, hc₁, hadd, hmono⟩ := h.accepted law he hgen
  rcases addHeader_eq_ok hadd with ⟨_, hr, -⟩ | ⟨_, _, _, _, hr, hpow, -, -, hq, -, -, hcheck, -⟩
  · cases hr
  cases hr
  obtain rfl := Option.some.inj (hp.symm.trans (hmono _ _ hq))
  have agrees := hc₁.agrees law hinj h'
  refine ⟨hpow, contextualCheck_agree ?_ (agrees.getMedianTime_eq hq hp') hnow hcheck⟩
  exact agrees.getTarget_eq hq hp' (hc₁.inv law).tree (hc₁.inv law).main (hc₁.skips law)
    (h'.inv law).tree (h'.inv law).main (h'.skips law)

/-- A node that has the parent stores the entry that another node has. -/
theorem Visited.accepts (law : env.Lawful) (hinj : Function.Injective env.blockHash)
    (h : Visited env c) (h' : Visited env c') (he : c.db.getEntryByHash e.hash = some e)
    (hp : c.db.getEntryByHash e.prevBlock = some p)
    (hparent : c'.db.hasHeader e.prevBlock = true) (hnew : c'.db.hasHeader e.hash = false)
    (hinvalid : c'.hasInvalid e.hash e.prevBlock = false)
    (hnow : e.time < now + MAX_FUTURE_BLOCK_TIME) :
    ∃ c'', c'.addHeader env now e.header = .ok (c'', .ok (e, p)) := by
  have hhash : env.blockHash e.header = e.hash := (h.inv law).tree.header_hash he
  obtain ⟨p', hp'⟩ := Option.isSome_iff_exists.1 hparent
  obtain rfl := (h.agrees law hinj h').entry hp hp'
  obtain ⟨hpow, hcheck⟩ := h.check_agrees law hinj h' he hp hp' hnow
  have hnew : c'.db.getEntryByHash e.hash = none := by simpa [hasHeader] using hnew
  rw [← hhash] at hinvalid hnew
  obtain ⟨c'', skip, hadd⟩ := h'.exists_addHeader law hpow hinvalid hnew hp' hcheck
  have hstored : c''.db.getEntryByHash (env.blockHash e.header) = some _ :=
    (addHeader_stored (h'.inv law) hadd).1
  rw [hhash] at hstored
  obtain ⟨c₀, hstart, hrun⟩ := h'
  have hentry := (h.agrees law hinj ⟨c₀, hstart, hrun.tail (.header hadd)⟩).entry he hstored
  exact ⟨c'', hentry ▸ hadd⟩

/-- A header that one node has stored is accepted by another node, with the same entry, exactly
when its parent is stored there, it is new there, neither is marked invalid and it is not ahead of
the clock. -/
theorem addHeader_agrees_iff (law : env.Lawful) (hinj : Function.Injective env.blockHash)
    (h : Visited env c) (h' : Visited env c') (he : c.db.getEntryByHash e.hash = some e)
    (hp : c.db.getEntryByHash e.prevBlock = some p) :
    (∃ c'', c'.addHeader env now e.header = .ok (c'', .ok (e, p))) ↔
      c'.db.hasHeader e.prevBlock = true ∧ c'.db.hasHeader e.hash = false
        ∧ c'.hasInvalid e.hash e.prevBlock = false ∧ e.time < now + MAX_FUTURE_BLOCK_TIME := by
  have hhash : env.blockHash e.header = e.hash := (h.inv law).tree.header_hash he
  constructor
  · rintro ⟨c'', hadd⟩
    rcases addHeader_eq_ok hadd with ⟨_, hr, -⟩ |
      ⟨_, _, _, _, hr, -, hinvalid, hnew, hprev, -, -, hcheck, -⟩
    · cases hr
    rw [hhash] at hinvalid hnew
    have hprev : c'.db.getEntryByHash e.prevBlock = some _ := hprev
    exact ⟨by simp [hasHeader, hprev], by simp [hasHeader, hnew], hinvalid,
      (contextualCheckBlockHeader_eq_ok hcheck).2.2.1⟩
  · rintro ⟨hparent, hnew, hinvalid, hnow⟩
    exact h.accepts law hinj h' he hp hparent hnew hinvalid hnow

/-- The header of the first block, on a fresh node. -/
theorem addHeader_agrees_iff_first : ∃ c c' c'' p, Visited Small.env c ∧ Visited Small.env c'
    ∧ c.tip.height = 1 ∧ c'.tip.height = 0
    ∧ c'.addHeader Small.env 100 c.tip.header = .ok (c'', .ok (c.tip, p)) := by
  obtain ⟨c, hc, hP⟩ := exists_reachable Small.env [.add 100 Small.first]
    (fun c => c.tip.height == 1 && decide (c.tip.prevBlock = Small.env.genesisEntry.hash)
      && decide (c.tip.hash = Small.blockHash Small.first.header) && decide (c.tip.time = 20))
    (by decide) (by decide +kernel)
  obtain ⟨c', hc', hP'⟩ := exists_reachable Small.env []
    (fun c => c.tip.height == 0 && decide (c.db.invalid = ∅)
      && !c.db.hasHeader (Small.blockHash Small.first.header)) (by decide) (by decide +kernel)
  simp only [Bool.and_eq_true, beq_iff_eq, decide_eq_true_eq, Bool.not_eq_true'] at hP hP'
  obtain ⟨⟨⟨hheight, hprev⟩, hhash⟩, htime⟩ := hP
  obtain ⟨⟨hheight', hinvalid⟩, hnew⟩ := hP'
  have hvisited := hc.visited Small.lawful
  have hvisited' := hc'.visited Small.lawful
  have hgenesis := (hvisited.inv Small.lawful).tree.genesis
  have hgenesis' := (hvisited'.inv Small.lawful).tree.genesis
  obtain ⟨c'', hadd⟩ := (addHeader_agrees_iff Small.lawful Small.blockHash_injective hvisited
    hvisited' (hvisited.inv Small.lawful).tip_stored (by rw [hprev, hgenesis])).2
    ⟨by rw [hprev, hasHeader, hgenesis']; rfl, by rw [hhash, hnew],
      by simp [hasInvalid, ChainDB.hasInvalid, hinvalid],
      show c.tip.time < 100 + MAX_FUTURE_BLOCK_TIME by rw [htime]; decide⟩
  exact ⟨c, c', c'', _, hvisited, hvisited', hheight, hheight', hadd⟩

end Chain

end BitcoinNode

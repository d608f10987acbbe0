import BitcoinNode.Blockchain.Runs

/-!
# Ancestors

`get_ancestor` returns the ancestor at the height it is asked for: along the height index on
the main chain, and along parents and skip pointers elsewhere. A skip pointer names the
ancestor at the skip height.
-/

namespace BitcoinNode

/-! ## Skip heights -/

theorem flipLow_le (n : Nat) : flipLow n ≤ n - 1 := Nat.and_le_right

/-- A skip pointer goes down. -/
theorem getSkipHeight_lt {height : Nat} (h : 0 < height) : getSkipHeight height < height := by
  have h₁ := flipLow_le (height - 1)
  have h₂ := flipLow_le (flipLow (height - 1) + 1)
  have h₃ := flipLow_le height
  unfold getSkipHeight
  split_ifs <;> omega

namespace ChainDB

variable {env : Env} {db : ChainDB} {tip entry : ChainEntry}

/-- The entry met by following `prev_block` a number of times. -/
abbrev parentWalk (db : ChainDB) : Nat → ChainEntry → Option ChainEntry :=
  Forest.climb ChainEntry.prevBlock db.getEntryByHash

/-- The skip pointer of the entry is unset or names the ancestor at the skip height. -/
def SkipsFrom (db : ChainDB) (entry : ChainEntry) : Prop :=
  entry.skip = 0 ∨ ∃ s, db.getEntryByHash entry.skip = some s ∧ db.Ancestor entry s
    ∧ s.height = getSkipHeight entry.height

def Skips (db : ChainDB) : Prop :=
  ∀ hash e, db.getEntryByHash hash = some e → db.SkipsFrom e

/-- The pointer followed leads to a lower ancestor that is not below the target. -/
theorem ancestorStep_spec {prev : ChainEntry} (hskip : db.SkipsFrom entry)
    (hprev : db.getEntryByHash entry.prevBlock = some prev)
    (hheight : entry.height = prev.height + 1)
    {height : Nat} (h : height < entry.height) :
    ∃ a, db.getEntryByHash (ancestorStep entry height) = some a ∧ db.Ancestor entry a
      ∧ height ≤ a.height ∧ a.height < entry.height := by
  have hparent : ∃ a, db.getEntryByHash entry.prevBlock = some a ∧ db.Ancestor entry a
      ∧ height ≤ a.height ∧ a.height < entry.height :=
    ⟨prev, hprev, .single hprev, by omega, by omega⟩
  unfold ancestorStep
  dsimp only
  split
  · rename_i hset
    split
    · rename_i hfollow
      obtain ⟨s, hs, hanc, hsheight⟩ := hskip.resolve_left hset
      have hlt := getSkipHeight_lt (Nat.zero_lt_of_lt h)
      refine ⟨s, hs, hanc, ?_, by omega⟩
      rcases hfollow with heq | ⟨hgt, -⟩ <;> omega
    · exact hparent
  · exact hparent

theorem walkAncestor_eq (tree : db.Tree env) (skips : db.Skips) {height fuel : Nat}
    (he : db.getEntryByHash entry.hash = some entry) (hle : height ≤ entry.height)
    (hfuel : entry.height ≤ height + fuel) :
    ∃ a, db.walkAncestor height fuel entry = .ok a ∧ db.Ancestor entry a ∧ a.height = height := by
  induction fuel generalizing entry with
  | zero =>
    have heq : entry.height = height := by omega
    exact ⟨entry, by rw [walkAncestor, if_pos heq], .refl, heq⟩
  | succ fuel ih =>
    rcases eq_or_ne entry.height height with heq | hne
    · exact ⟨entry, by rw [walkAncestor, if_pos heq], .refl, heq⟩
    have hgen : entry.isGenesis = false := by
      simp only [ChainEntry.isGenesis, beq_eq_false_iff_ne]
      omega
    obtain ⟨p, hp⟩ := tree.exists_parent he hgen
    obtain ⟨s, hs, hanc, hge, hlt⟩ := ancestorStep_spec (skips _ _ he) hp (tree.height_eq he hp)
      (lt_of_le_of_ne hle (Ne.symm hne))
    obtain ⟨a, ha, hanc', hheight⟩ := ih (tree.self hs) hge (by omega)
    refine ⟨a, ?_, hanc.trans hanc', hheight⟩
    rw [walkAncestor, if_neg hne, hs]
    exact ha

/-- `get_ancestor` finds the ancestor at any height up to that of the entry. -/
theorem getAncestor_eq (tree : db.Tree env) (main : db.Main tip) (skips : db.Skips) {height : Nat}
    (he : db.getEntryByHash entry.hash = some entry) (hle : height ≤ entry.height) :
    ∃ a, db.getAncestor entry height = .ok a ∧ db.Ancestor entry a ∧ a.height = height := by
  unfold getAncestor
  rw [if_neg (Nat.not_lt.2 hle)]
  split
  · rename_i hmain
    obtain ⟨a, hclimb⟩ := tree.rooted.exists_climb he (n := entry.height - height) (by omega)
    have hanc := Forest.ancestor_of_climb hclimb
    have hheight := tree.rooted.rank_climb he hclimb
    obtain ⟨hash, hstored⟩ := Forest.climb_stored he hclimb
    have hlookup := isMainChain_iff.1 (main.isMainChain_of_ancestor tree he hanc hmain)
    refine ⟨a, ?_, hanc, by omega⟩
    have hself : db.entryCache.hash.lookup a.hash = some a := tree.self hstored
    rw [show a.height = height by omega] at hlookup
    simp only [getEntryByHeight, hlookup, hself]
    rfl
  · exact walkAncestor_eq tree skips he hle (by omega)

/-- An entry that is not stored is not on the main chain. -/
theorem Main.not_isMainChain_new (main : db.Main tip) (hnew : db.getEntryByHash entry.hash = none) :
    ¬ db.isMainChain entry = true := by
  rw [isMainChain_iff]
  intro h
  obtain ⟨e, he, -⟩ := main.stored h
  rw [hnew] at he
  cases he

/-- The search from an entry that is about to be saved. -/
theorem getAncestor_new (tree : db.Tree env) (main : db.Main tip) (skips : db.Skips)
    {prev : ChainEntry} {height : Nat} (hnew : db.getEntryByHash entry.hash = none)
    (hskip : db.SkipsFrom entry) (hprev : db.getEntryByHash entry.prevBlock = some prev)
    (hheight : entry.height = prev.height + 1) (hlt : height < entry.height) :
    ∃ a, db.getAncestor entry height = .ok a ∧ db.Ancestor entry a ∧ a.height = height := by
  have hmain := main.not_isMainChain_new hnew
  obtain ⟨s, hs, hanc, hge, hslt⟩ := ancestorStep_spec hskip hprev hheight hlt
  obtain ⟨a, ha, hanc', haheight⟩ := walkAncestor_eq tree skips (tree.self hs) hge
    (show s.height ≤ height + prev.height by omega)
  refine ⟨a, ?_, hanc.trans hanc', haheight⟩
  rw [getAncestor, if_neg (by omega), if_neg hmain, hheight, walkAncestor, if_neg (by omega), hs]
  exact ha

/-- What the search returns is the ancestor at the height asked for. -/
theorem getAncestor_eq_ok (tree : db.Tree env) (main : db.Main tip) (skips : db.Skips)
    {height : Nat} {a : ChainEntry} (he : db.getEntryByHash entry.hash = some entry)
    (h : db.getAncestor entry height = .ok a) :
    height ≤ entry.height ∧ db.Ancestor entry a ∧ a.height = height := by
  have hle : height ≤ entry.height := by
    unfold getAncestor at h
    split_ifs at h with hlt
    all_goals omega
  obtain ⟨b, hb, hanc, hheight⟩ := getAncestor_eq tree main skips he hle
  rw [h] at hb
  cases hb
  exact ⟨hle, hanc, hheight⟩

theorem Ancestor.stored {a : ChainEntry} (tree : db.Tree env)
    (he : db.getEntryByHash entry.hash = some entry) (h : db.Ancestor entry a) :
    db.getEntryByHash a.hash = some a := by
  obtain ⟨n, hn⟩ := Forest.Ancestor.exists_climb h
  obtain ⟨hash, hstored⟩ := Forest.climb_stored he hn
  exact tree.self hstored

theorem Skips.congr {db' : ChainDB} (skips : db.Skips)
    (h : db'.getEntryByHash = db.getEntryByHash) : db'.Skips := by
  unfold Skips SkipsFrom Ancestor
  rw [h]
  exact skips

end ChainDB

namespace Chain

variable {env : Env} {c c' : Chain}

/-- The moves other than saving a header keep the stored entries. -/
theorem Move.getEntryByHash_eq (inv : c.Inv env) (h : Move env c c') :
    c'.db.getEntryByHash = c.db.getEntryByHash ∨ ∃ now header result,
      c.addHeader env now header = .ok (c', .ok result) := by
  cases h with
  | cache cache => exact .inl rfl
  | header h => exact .inr ⟨_, _, _, h⟩
  | invalid _ _ => exact .inl rfl
  | block _ _ _ _ hwrite =>
    obtain ⟨blocks, -, rfl⟩ := ChainDB.writeBlock_eq_ok hwrite
    exact .inl rfl
  | connect hentry _ hblock hprev h =>
    exact .inl (connect_sameStore inv hentry hblock hprev h).1.entries
  | disconnect h => exact .inl (disconnect_sameStore inv h).1.entries

/-- A saved header is new, and a child of a stored entry. -/
theorem getEntryByHash_addHeader (inv : c.Inv env) {now : Nat} {header : BlockHeader}
    {entry prev : ChainEntry} (h : c.addHeader env now header = .ok (c', .ok (entry, prev))) :
    c.db.getEntryByHash entry.hash = none ∧ ∀ hash, c'.db.getEntryByHash hash =
      if hash = entry.hash then some entry else c.db.getEntryByHash hash := by
  rcases addHeader_eq_ok h with ⟨e, he, -⟩ | ⟨_, _, skip, db, hr, -, -, hnew, hprev, -, hentry, -,
    hsave, rfl⟩
  · cases he
  cases hr
  obtain ⟨mostWork, rfl⟩ := ChainDB.saveEntry_eq_ok inv.idle hsave
  refine ⟨?_, fun hash => ChainDB.getEntryByHash_headerSaved hash⟩
  rw [hentry]
  exact hnew

/-- No move loses or changes a stored entry. -/
theorem Move.entries_mono (inv : c.Inv env) (h : Move env c c') :
    ∀ hash e, c.db.getEntryByHash hash = some e → c'.db.getEntryByHash hash = some e := by
  intro hash e he
  rcases h.getEntryByHash_eq inv with heq | ⟨now, header, ⟨entry, prev⟩, h⟩
  · rw [heq, he]
  · obtain ⟨hnone, hget⟩ := getEntryByHash_addHeader inv h
    rw [hget, if_neg, he]
    rintro rfl
    rw [hnone] at he
    cases he

theorem skips_move (inv : c.Inv env) (skips : c.db.Skips) (h : Move env c c') : c'.db.Skips := by
  have hmono := h.entries_mono inv
  rcases h.getEntryByHash_eq inv with heq | ⟨now, header, ⟨entry, prev⟩, h⟩
  · exact skips.congr heq
  obtain ⟨-, hget⟩ := getEntryByHash_addHeader inv h
  rcases addHeader_eq_ok h with ⟨e, he, -⟩ | ⟨_, _, skip, db, hr, -, -, -, hprev, hskip, hentry, -⟩
  · cases he
  cases hr
  intro hash e he
  rw [hget] at he
  split_ifs at he
  · obtain rfl := Option.some.inj he
    have hself := inv.tree.self hprev
    obtain ⟨-, hanc, hheight⟩ :=
      ChainDB.getAncestor_eq_ok inv.tree inv.main skips hself hskip
    have hstored := ChainDB.Ancestor.stored inv.tree hself hanc
    rw [hentry]
    refine .inr ⟨skip, hmono _ _ hstored, ?_, hheight⟩
    exact .head (hmono _ _ hprev) (Forest.Ancestor.mono hmono hanc)
  · rcases skips _ _ he with h | ⟨s, hs, hanc, hheight⟩
    · exact .inl h
    · exact .inr ⟨s, hmono _ _ hs, Forest.Ancestor.mono hmono hanc, hheight⟩

theorem Visited.skips (law : env.Lawful) (h : Visited env c) : c.db.Skips := by
  obtain ⟨c₀, hnew, hrun⟩ := h
  refine ReflTransGen.invariant_with (P := fun c => c.db.Skips) (Q := Inv env)
    (fun _ _ hst hs => hs.move law hst) (fun _ _ hst hs hskips => skips_move hs hskips hst) hrun
    (Inv.new law hnew) ?_
  obtain ⟨mostWork, rfl⟩ := new_eq_ok law hnew
  intro hash e he
  rw [(getEntryByHash_fresh.1 he).2]
  exact .inl rfl

/-- A stored entry was accepted on an entry that was stored before. -/
theorem Visited.accepted (law : env.Lawful) (h : Visited env c) {hash : BlockHash}
    {e : ChainEntry} (he : c.db.getEntryByHash hash = some e) (hgen : e ≠ env.genesisEntry) :
    ∃ c₁ c₂ now prev, Visited env c₁ ∧ c₁.addHeader env now e.header = .ok (c₂, .ok (e, prev))
      ∧ ∀ hash e, c₁.db.getEntryByHash hash = some e → c.db.getEntryByHash hash = some e := by
  obtain ⟨c₀, hnew, hrun⟩ := h
  induction hrun generalizing hash e with
  | refl =>
    obtain ⟨mostWork, rfl⟩ := new_eq_ok law hnew
    exact absurd (getEntryByHash_fresh.1 he).2 hgen
  | @tail c c' hrun hmove ih =>
    have hvisited : Visited env c := ⟨c₀, hnew, hrun⟩
    have inv := hvisited.inv law
    have hmono := hmove.entries_mono inv
    have hold : c.db.getEntryByHash hash = some e → ∃ c₁ c₂ now prev, Visited env c₁
        ∧ c₁.addHeader env now e.header = .ok (c₂, .ok (e, prev)) ∧ ∀ hash e,
          c₁.db.getEntryByHash hash = some e → c'.db.getEntryByHash hash = some e := fun he => by
      obtain ⟨c₁, c₂, now, prev, hc₁, hadd, hmono'⟩ := ih he hgen
      exact ⟨c₁, c₂, now, prev, hc₁, hadd, fun hash e he => hmono _ _ (hmono' _ _ he)⟩
    rcases hmove.getEntryByHash_eq inv with heq | ⟨now, header, ⟨entry, prev⟩, hadd⟩
    · exact hold (heq ▸ he)
    · have hheader : entry.header = header := by
        rcases addHeader_eq_ok hadd with ⟨_, hr, -⟩ | ⟨_, _, _, _, hr, -, -, -, -, -, hentry, -⟩
        · cases hr
        · rw [(Prod.mk.inj (Except.ok.inj hr)).1, hentry]
          rfl
      rw [(getEntryByHash_addHeader inv hadd).2] at he
      split_ifs at he
      · obtain rfl := Option.some.inj he
        exact ⟨c, c', now, prev, hvisited, hheader ▸ hadd, hmono⟩
      · exact hold he

/-- Every entry but that of the genesis block has a skip pointer. -/
theorem Visited.skip_ne_zero (law : env.Lawful) (h : Visited env c) {hash : BlockHash}
    {e : ChainEntry} (he : c.db.getEntryByHash hash = some e) (hgen : e ≠ env.genesisEntry) :
    e.skip ≠ 0 := by
  obtain ⟨c₁, c₂, now, prev, hc₁, hadd, -⟩ := h.accepted law he hgen
  have inv := hc₁.inv law
  rcases addHeader_eq_ok hadd with ⟨_, hr, -⟩ |
    ⟨_, _, skip, _, hr, -, -, -, hprev, hskip, hentry, -⟩
  · cases hr
  cases hr
  have hself := inv.tree.self hprev
  obtain ⟨-, hanc, -⟩ := ChainDB.getAncestor_eq_ok inv.tree inv.main (hc₁.skips law) hself hskip
  have hstored := ChainDB.Ancestor.stored inv.tree hself hanc
  rw [hentry]
  intro hzero
  rw [show skip.hash = 0 from hzero, inv.tree.getEntryByHash_zero law] at hstored
  cases hstored

/-- `get_ancestor` follows the parents. The search along the height index and the one along skip
pointers both do so, and skip pointers lead to the entry at the skip height; the search from an
entry that is about to be saved follows its parents too. -/
theorem getAncestor_parentWalk (law : env.Lawful) (h : Visited env c) :
    (∀ e height, c.db.getEntryByHash e.hash = some e → height ≤ e.height →
      ∃ a, c.db.parentWalk (e.height - height) e = some a ∧ c.db.getAncestor e height = .ok a
        ∧ c.db.walkAncestor height e.height e = .ok a
        ∧ (c.db.isMainChain e = true → c.db.getEntryByHeight height = .ok (some a)))
    ∧ (∀ e, c.db.getEntryByHash e.hash = some e → 1 ≤ e.height →
      getSkipHeight e.height < e.height ∧ ∃ s,
        c.db.parentWalk (e.height - getSkipHeight e.height) e = some s ∧ e.skip = s.hash)
    ∧ ∀ header prev, c.db.getEntryByHash header.prevBlockhash = some prev →
      c.db.getEntryByHash (env.blockHash header) = none →
      ∃ skip, c.db.getAncestor prev (getSkipHeight (prev.height + 1)) = .ok skip ∧
        ∀ e, e = { ChainEntry.fromBlockHeader env header (some prev) with skip := skip.hash } →
          ∀ height ≤ e.height, ∃ a, c.db.parentWalk (e.height - height) e = some a
            ∧ c.db.getAncestor e height = .ok a := by
  have inv := h.inv law
  have skips := h.skips law
  have hwalk : ∀ {e a}, c.db.getEntryByHash e.hash = some e → c.db.Ancestor e a →
      c.db.parentWalk (e.height - a.height) e = some a := fun he hanc =>
    inv.tree.rooted.climb_of_ancestor he hanc
  refine ⟨fun e height he hle => ?_, fun e he hpos => ?_, fun header prev hprev hnew => ?_⟩
  · obtain ⟨a, ha, hanc, rfl⟩ := ChainDB.getAncestor_eq inv.tree inv.main skips he hle
    have hfuel : e.height ≤ a.height + e.height := by omega
    obtain ⟨b, hb, hanc', hheight⟩ := ChainDB.walkAncestor_eq inv.tree skips he hle hfuel
    obtain rfl := inv.tree.rooted.ancestor_unique he hanc hanc' hheight.symm
    refine ⟨a, hwalk he hanc, ha, hb, fun hmain => ?_⟩
    rw [ChainDB.getAncestor, if_neg (by omega), if_pos hmain, bind_eq_ok] at ha
    obtain ⟨entry, hentry, ha⟩ := ha
    cases entry with
    | none => cases ha
    | some entry => rw [hentry, pure_eq_ok.1 ha]
  · have hgen : e ≠ env.genesisEntry := by
      rintro rfl
      simp at hpos
    obtain ⟨s, hs, hanc, hheight⟩ := (skips _ _ he).resolve_left (h.skip_ne_zero law he hgen)
    exact ⟨getSkipHeight_lt hpos, s, hheight ▸ hwalk he hanc, (inv.tree.hash_eq hs).symm⟩
  · have hself := inv.tree.self hprev
    obtain ⟨skip, hskip, hanc, hheight⟩ := ChainDB.getAncestor_eq inv.tree inv.main skips hself
      (Nat.le_of_lt_succ (getSkipHeight_lt prev.height.succ_pos))
    refine ⟨skip, hskip, ?_⟩
    intro e he height hle
    have hnew : c.db.getEntryByHash e.hash = none := he ▸ hnew
    have hprev : c.db.getEntryByHash e.prevBlock = some prev := he ▸ hprev
    have heheight : e.height = prev.height + 1 := he ▸ rfl
    have hskips : c.db.SkipsFrom e := by
      have hstored := ChainDB.Ancestor.stored inv.tree hself hanc
      rw [he]
      exact .inr ⟨skip, hstored, .head (he ▸ hprev) hanc, hheight⟩
    rcases Nat.lt_or_eq_of_le hle with hlt | heq
    · obtain ⟨a, ha, hanc', rfl⟩ := ChainDB.getAncestor_new inv.tree inv.main skips hnew
        hskips hprev heheight hlt
      refine ⟨a, ?_, ha⟩
      rcases hanc'.cases_head with rfl | ⟨p, hp, hanc'⟩
      · exact absurd hlt (lt_irrefl _)
      · obtain rfl := Option.some.inj (hprev.symm.trans hp)
        have hle := inv.tree.rooted.rank_le_of_ancestor hself hanc'
        rw [show e.height - a.height = prev.height - a.height + 1 by omega, ChainDB.parentWalk,
          Forest.climb_succ, hp]
        exact hwalk hself hanc'
    · refine ⟨e, by rw [heq, Nat.sub_self]; rfl, ?_⟩
      rw [ChainDB.getAncestor, if_neg (by omega), if_neg (inv.main.not_isMainChain_new hnew),
        ChainDB.walkAncestor.eq_def]
      exact if_pos heq.symm

/-- The genesis entry is found from the tip of a chain of one block. -/
theorem getAncestor_parentWalk_first : ∃ c a, Visited Small.env c ∧ c.tip.height = 1
    ∧ c.db.parentWalk 1 c.tip = some a ∧ c.db.getAncestor c.tip 0 = .ok a := by
  obtain ⟨c, hc, hheight⟩ := exists_reachable Small.env [.add 100 Small.first]
    (fun c => c.tip.height == 1) (by decide) (by decide +kernel)
  have hvisited := hc.visited Small.lawful
  have hheight : c.tip.height = 1 := eq_of_beq hheight
  have hstored := (hvisited.inv Small.lawful).tip_stored
  obtain ⟨a, hwalk, ha, -⟩ :=
    (getAncestor_parentWalk Small.lawful hvisited).1 c.tip 0 hstored (Nat.zero_le _)
  exact ⟨c, a, hvisited, hheight, hheight ▸ hwalk, ha⟩

end Chain

end BitcoinNode

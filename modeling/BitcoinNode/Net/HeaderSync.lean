import BitcoinNode.Blockchain.Agreement
import BitcoinNode.Net.PeerManager
import BitcoinNode.Net.ServeHeaders
import BitcoinNode.Net.Window

/-!
# Header sync between two nodes

A node that asks another one for headers, from the request in `handle_verack` on: the request
goes to `handle_get_headers`, the answer to `handle_headers`, and an answer of two thousand
headers makes the node ask again. Both nodes go on with their other work in between.
-/

namespace BitcoinNode

open Relation

/-! ## What the server sends -/

namespace ChainDB

variable {env : Env} {db : ChainDB} {e : ChainEntry} {above : List ChainEntry} {hash : BlockHash}

/-- The headers of a list of entries continue the chain that ends with a block. -/
def Continues (env : Env) : BlockHash → List BlockHeader → Prop
  | _, [] => True
  | hash, header :: headers =>
    header.prevBlockhash = hash ∧ Continues env (env.blockHash header) headers

theorem Continues.linked {hash : BlockHash} {headers : List BlockHeader} {last : BlockHeader}
    (h : Continues env hash headers) (hlast : env.blockHash last = hash) :
    BitcoinNode.linked env (some last) headers = true := by
  induction headers generalizing hash last with
  | nil => rfl
  | cons header headers ih =>
    obtain ⟨hprev, hrest⟩ := h
    simp [BitcoinNode.linked, hprev, hlast, ih hrest rfl]

theorem Continues.linked_none {hash : BlockHash} {headers : List BlockHeader}
    (h : Continues env hash headers) : BitcoinNode.linked env none headers = true := by
  cases headers with
  | nil => rfl
  | cons header headers => simpa [BitcoinNode.linked] using h.2.linked rfl

theorem Continues.take {hash : BlockHash} {headers : List BlockHeader}
    (h : Continues env hash headers) (n : Nat) : Continues env hash (headers.take n) := by
  induction headers generalizing hash n with
  | nil => simpa using h
  | cons header headers ih =>
    cases n with
    | zero => trivial
    | succ n => exact ⟨h.1, ih h.2 n⟩

theorem eq_tip_of_getNext {c : Chain} (inv : c.Inv env) (nexts : c.Nexts)
    (he : c.db.getEntryByHash e.hash = some e) (hmain : c.db.isMainChain e = true)
    (h : c.db.getNext e = none) : e = c.tip := by
  have hlookup := isMainChain_iff.1 hmain
  have hle := inv.main.lookup_le hlookup
  rcases hle.eq_or_lt with heq | hlt
  · rw [heq, inv.main.top] at hlookup
    rw [← Option.some.inj hlookup, inv.tip_stored] at he
    exact (Option.some.inj he).symm
  · obtain ⟨hash, hhash⟩ := inv.main.exists_lookup hlt
    obtain ⟨next, hnext, -⟩ := inv.main.stored hhash
    rw [getNext, nexts.main.2 ⟨e.height, hlookup, hhash⟩, Option.bind_some, hnext] at h
    cases h

/-- The entries above a main-chain entry are those of the main chain, up to the tip. -/
theorem Follows.spec {c : Chain} (inv : c.Inv env) (nexts : c.Nexts)
    (he : c.db.getEntryByHash e.hash = some e) (hmain : c.db.isMainChain e = true)
    (h : c.db.Follows e above) :
    Continues env e.hash (above.map ChainEntry.header)
      ∧ (∀ a ∈ above, c.db.getEntryByHash a.hash = some a ∧ c.db.isMainChain a = true)
      ∧ (e :: above).getLast? = some c.tip ∧ above.length = c.tip.height - e.height
      ∧ ∀ i a, above[i]? = some a → a.height = e.height + 1 + i := by
  induction above generalizing e with
  | nil =>
    obtain rfl := eq_tip_of_getNext inv nexts he hmain h
    exact ⟨trivial, by simp, rfl, (Nat.sub_self _).symm, by simp⟩
  | cons next above ih =>
    obtain ⟨hnext, hrest⟩ := h
    obtain ⟨hash, hhash, hstored⟩ := Option.bind_eq_some_iff.1 hnext
    obtain ⟨e₁, e₂, he₁, he₂, -, hmain', hprev⟩ := (Chain.getNextHash_iff inv nexts).1 hhash
    obtain rfl := Option.some.inj (hstored.symm.trans he₂)
    have hself := inv.tree.self hstored
    have hheight := inv.tree.height_eq hself (show c.db.getEntryByHash next.prevBlock = some e by
      rw [hprev, he])
    obtain ⟨hcont, hmem, hlast, hlength, hheights⟩ := ih hself hmain' hrest
    have hle := inv.main.lookup_le (isMainChain_iff.1 hmain')
    refine ⟨⟨hprev, ?_⟩, List.forall_mem_cons.2 ⟨⟨hself, hmain'⟩, hmem⟩, ?_, ?_, ?_⟩
    · rw [inv.tree.header_hash hself]
      exact hcont
    · rw [List.getLast?_cons_cons, hlast]
    · rw [List.length_cons, hlength]
      omega
    · intro i a ha
      cases i with
      | zero =>
        obtain rfl := Option.some.inj ha
        exact hheight
      | succ i =>
        have := hheights i a ha
        omega

end ChainDB

namespace Chain

variable {env : Env} {c c' s : Chain} {headers : List BlockHeader} {now maxTipAge : Nat}
  {locator : List BlockHash}

/-- A request without a stop hash is answered with the main chain above the block that the locator
leads to, two thousand headers of it. -/
theorem Visited.serves (law : env.Lawful) (h : Visited env s)
    (hsynced : s.synced now maxTipAge = true) (hne : locator ≠ []) :
    ∃ found above, s.db.getEntryByHash (s.findLocator env locator) = some found
      ∧ s.db.isMainChain found = true ∧ s.db.Follows found above
      ∧ PeerManager.handleGetHeaders env now maxTipAge s locator 0
        = .ok (if above = [] then none
          else some ((above.map ChainEntry.header).take PeerManager.MAX_HEADERS)) := by
  have inv := h.inv law
  have nexts := h.nexts law
  obtain ⟨found, hfound, hmain⟩ := exists_findLocator inv locator
  obtain ⟨above, hfollows, -⟩ := ChainDB.exists_follows nexts inv.tree inv.main hmain
  refine ⟨found, above, hfound, hmain, hfollows, ?_⟩
  have hself := inv.tree.self hfound
  obtain ⟨-, hmem, -⟩ := hfollows.spec inv nexts hself hmain
  have hnext : (s.db.getNextHash (s.findLocator env locator)).bind s.db.getEntryByHash
      = s.db.getNext found := by
    rw [ChainDB.getNext, inv.tree.hash_eq hfound]
  -- no block hashes to the stop hash of zeros
  have hupTo : ∀ es : List ChainEntry, (∀ a ∈ es, s.db.getEntryByHash a.hash = some a) →
      ChainDB.upTo 0 es = es := by
    intro es hes
    induction es with
    | nil => rfl
    | cons a es ih =>
      obtain ⟨ha, hes⟩ := List.forall_mem_cons.1 hes
      have hne : a.hash ≠ 0 := by
        intro hzero
        rw [hzero, inv.tree.getEntryByHash_zero law] at ha
        cases ha
      rw [ChainDB.upTo, if_neg hne, ih hes]
  unfold PeerManager.handleGetHeaders
  rw [if_neg (by simp [hsynced]), if_neg (by simpa using hne)]
  dsimp only
  rw [hnext]
  cases above with
  | nil =>
    rw [show s.db.getNext found = none from hfollows]
    rfl
  | cons e above =>
    obtain ⟨he, hrest⟩ := hfollows
    rw [he, if_neg (by simp)]
    dsimp only
    rw [ChainDB.headersLoop_eq hrest (by simp) (by decide), hupTo _ fun a ha => (hmem a ha).1,
      bind_of_ok rfl, List.nil_append, List.length_nil, Nat.sub_zero, List.map_take]
    rfl

/-! ## What the client does with it -/

/-- A loop over headers that ends well is a run of the chain, and stores them all. -/
theorem addHeaders_spec {P : Type} {writes : PeerWrites P} {clock : Nat → Nat} {peer peer' : P}
    (law : env.Lawful) (h : Visited env c)
    (hadd : addHeaders env writes clock headers c peer = .ok (c', peer', .ok ())) :
    ReflTransGen (Move env) c c'
      ∧ ∀ header ∈ headers, c'.db.hasHeader (env.blockHash header) = true := by
  induction headers generalizing c peer with
  | nil =>
    cases hadd
    exact ⟨.refl, by simp⟩
  | cons header headers ih =>
    -- a header that is stored stays so
    have hkeep : ∀ {c₁ peer₁}, Visited env c₁ → c₁.db.hasHeader (env.blockHash header) = true →
        addHeaders env writes clock headers c₁ peer₁ = .ok (c', peer', .ok ()) →
        ReflTransGen (Move env) c₁ c'
          ∧ ∀ x ∈ header :: headers, c'.db.hasHeader (env.blockHash x) = true := by
      intro c₁ peer₁ h₁ hknown hrest
      obtain ⟨hmoves, hall⟩ := ih h₁ hrest
      obtain ⟨e, he⟩ := Option.isSome_iff_exists.1 hknown
      refine ⟨hmoves, List.forall_mem_cons.2 ⟨?_, hall⟩⟩
      rw [ChainDB.hasHeader, h₁.entries_mono law hmoves _ _ he]
      rfl
    rw [addHeaders] at hadd
    dsimp only at hadd
    split at hadd
    · exact hkeep h ‹_› hadd
    · simp only [bind_eq_ok] at hadd
      obtain ⟨⟨c₁, added⟩, hcall, hadd⟩ := hadd
      cases added with
      | error e => cases hadd
      | ok r =>
        have hmove : Move env c c₁ := .header hcall
        obtain ⟨hmoves, hall⟩ := hkeep (h.tail hmove) (addHeader_ok (h.inv law) hcall).1 hadd
        exact ⟨.head hmove hmoves, hall⟩

/-- Headers that another node has stored, the first of which attaches, are all accepted. -/
theorem addHeaders_served {P : Type} {writes : PeerWrites P} {clock : Nat → Nat} {peer : P}
    {hash : BlockHash} (law : env.Lawful) (hinj : Function.Injective env.blockHash)
    (h : Visited env s) (h' : Visited env c)
    (hcont : ChainDB.Continues env hash headers) (hhash : c.db.hasHeader hash = true)
    (hstored : ∀ header ∈ headers, s.db.hasHeader (env.blockHash header) = true)
    (hinvalid : ∀ header ∈ headers, header.prevBlockhash ∉ c.db.invalid)
    (hclock : ∀ header ∈ headers, ∀ n, header.time < clock n + MAX_FUTURE_BLOCK_TIME) :
    ∃ c' peer', addHeaders env writes clock headers c peer = .ok (c', peer', .ok ()) := by
  induction headers generalizing c hash peer with
  | nil => exact ⟨c, peer, rfl⟩
  | cons header headers ih =>
    obtain ⟨hprev, hcont⟩ := hcont
    obtain ⟨hsaved, hstored'⟩ := List.forall_mem_cons.1 hstored
    obtain ⟨hvalid, hinvalid'⟩ := List.forall_mem_cons.1 hinvalid
    obtain ⟨hnow, hclock'⟩ := List.forall_mem_cons.1 hclock
    rw [addHeaders]
    dsimp only
    split
    · exact ih h' hcont ‹_› hstored' hinvalid' hclock'
    · rename_i hnew
      have hnew : c.db.hasHeader (env.blockHash header) = false := by simpa using hnew
      obtain ⟨e, he⟩ := Option.isSome_iff_exists.1 hsaved
      have tree := (h.inv law).tree
      obtain rfl : e.header = header := hinj (tree.header_hash he)
      have hself := tree.hash_eq he
      have hgen : e ≠ env.genesisEntry := by
        rintro rfl
        rw [← hself, ChainDB.hasHeader, (h'.inv law).tree.genesis] at hnew
        cases hnew
      obtain ⟨p, hp⟩ := tree.rooted.exists_parent he hgen
      have hprev : e.prevBlock = hash := hprev
      have hvalid : e.prevBlock ∉ c.db.invalid := hvalid
      rw [← hself] at hnew
      have hfresh : e.hash ∉ c.db.invalid := by
        intro hmem
        obtain ⟨e', he'⟩ := h'.invalid_stored law hmem
        simp [ChainDB.hasHeader, he'] at hnew
      obtain ⟨c₁, hadd⟩ := h.accepts law hinj h' (tree.self he) hp (hprev ▸ hhash) hnew
        (by simp [Chain.hasInvalid, ChainDB.hasInvalid, hvalid, hfresh])
        (hnow headers.length)
      obtain ⟨hsaved, hsame⟩ := addHeader_ok (h'.inv law) hadd
      obtain ⟨c', peer', hrest⟩ := ih (h'.tail (.header hadd)) hcont hsaved hstored'
        (by rwa [hsame]) hclock'
      refine ⟨c', peer', ?_⟩
      rw [bind_of_ok hadd]
      exact hrest

end Chain

namespace PeerManager

variable {env : Env} {m m' : PeerManager} {clock : Nat → Nat} {peer : PeerId} {now : Nat}
  {headers : List BlockHeader} {r : Except HandleError Unit}

/-- The part of `handle_verack` that asks for headers, from the parent of the best one on. -/
def askForHeaders (m : PeerManager) (peer : PeerId) :
    Except Panic (PeerManager × Except HandleError Unit) := do
  let best ← m.chain.mostWork
  let locator ← m.chain.getLocator
    ((m.chain.db.getEntryByHash best.prevBlock).map ChainEntry.hash)
  return m.sendGetHeaders peer locator none

/-- The requests for headers that a peer is sent. -/
def headerRequests (peer : PeerId) (sent : List (PeerId × NetworkMessage)) :
    List (List BlockHash × BlockHash) :=
  sent.filterMap fun message =>
    match message.2 with
    | .getHeaders locator stop => if message.1 = peer then some (locator, stop) else none
    | _ => none

/-- The manager asked for blocks only, and left the chain as it was. -/
def AsksForBlocks (m m' : PeerManager) : Prop :=
  m'.chain = m.chain
    ∧ ∃ more, m'.sent = m.sent ++ more ∧ ∀ message ∈ more, ∃ items, message.2 = .getData items

theorem AsksForBlocks.refl (m : PeerManager) : AsksForBlocks m m := ⟨rfl, [], by simp, by simp⟩

theorem AsksForBlocks.trans {m₁ m₂ m₃ : PeerManager} (h : AsksForBlocks m₁ m₂)
    (h' : AsksForBlocks m₂ m₃) : AsksForBlocks m₁ m₃ := by
  obtain ⟨hchain, more, hsent, hall⟩ := h
  obtain ⟨hchain', more', hsent', hall'⟩ := h'
  refine ⟨hchain'.trans hchain, more ++ more', by rw [hsent', hsent, List.append_assoc], ?_⟩
  intro message hmem
  rcases List.mem_append.1 hmem with hmem | hmem
  · exact hall message hmem
  · exact hall' message hmem

theorem AsksForBlocks.exists_sent (h : AsksForBlocks m m') (peer : PeerId) :
    ∃ more, m'.sent = m.sent ++ more ∧ headerRequests peer more = [] := by
  obtain ⟨-, more, hsent, hall⟩ := h
  refine ⟨more, hsent, List.filterMap_eq_nil_iff.2 fun message hmem => ?_⟩
  obtain ⟨items, hitems⟩ := hall message hmem
  rw [hitems]

theorem requestBlocks_asks (h : m.requestBlocks now peer = .ok (m', r)) :
    AsksForBlocks m m' ∧ ∀ e, r = .error e → e = .sendFailed := by
  unfold requestBlocks at h
  split at h
  · cases h
    exact ⟨.refl m, by simp⟩
  simp only [bind_eq_ok] at h
  obtain ⟨recent, -, h⟩ := h
  split at h
  · simp only [bind_eq_ok] at h
    obtain ⟨best, -, hashes, -, h⟩ := h
    simp only [pure_eq_ok, getBlocks, send] at h
    split at h
    · cases h
      exact ⟨⟨rfl, _, rfl, by simp⟩, by simp⟩
    · cases h
      exact ⟨⟨rfl, [], by simp, by simp⟩, fun e he => (Except.error.inj he).symm⟩
  · cases h
    exact ⟨.refl m, by simp⟩

theorem requestAll_asks {peers : List PeerId} (h : requestAll now peers m = .ok (m', r)) :
    AsksForBlocks m m' ∧ ∀ e, r = .error e → e = .sendFailed := by
  induction peers generalizing m with
  | nil =>
    cases h
    exact ⟨.refl _, by simp⟩
  | cons peer peers ih =>
    simp only [requestAll, bind_eq_ok] at h
    obtain ⟨⟨m₁, sent⟩, hrequest, h⟩ := h
    obtain ⟨hfirst, hfails⟩ := requestBlocks_asks hrequest
    cases sent with
    | error e =>
      cases h
      exact ⟨hfirst, hfails⟩
    | ok u =>
      obtain ⟨hrest, hfails⟩ := ih h
      exact ⟨hfirst.trans hrest, hfails⟩

theorem sendGetHeaders_eq_ok {locator : List BlockHash}
    (h : m.sendGetHeaders peer locator none = (m', .ok ())) :
    m'.chain = m.chain
      ∧ m'.sent = m.sent
        ++ if locator = [] then [] else [(peer, NetworkMessage.getHeaders locator 0)] := by
  unfold sendGetHeaders send at h
  split at h
  · rename_i hempty
    cases h
    simp [List.isEmpty_iff.1 hempty]
  · rename_i hne
    split at h
    · cases h
      exact ⟨rfl, by rw [if_neg (by simpa using hne)]; rfl⟩
    · cases h

/-- What handling headers comes to: the loop over the headers, and one more request behind two
thousand of them. -/
theorem handleHeaders_eq_ok {last : BlockHeader} (hlast : headers.getLast? = some last)
    (h : m.handleHeaders env clock peer headers = .ok (m', .ok ())) :
    linked env none headers = true
      ∧ (∃ state, addHeaders env Peer.writes clock headers m.chain (m.peers peer)
        = .ok (m'.chain, state, .ok ()))
      ∧ ∃ requests, headerRequests peer (m'.sent.drop m.sent.length) = requests
        ∧ (headers.length ≠ 2000 → requests = [])
        ∧ (headers.length = 2000 → ∃ locator,
          m'.chain.getLocator (some (env.blockHash last)) = .ok locator
            ∧ (locator ≠ [] → requests = [(locator, 0)])) := by
  unfold handleHeaders at h
  rw [hlast] at h
  dsimp only at h
  split at h
  · cases h
  rename_i hlinked
  simp only [bind_eq_ok] at h
  obtain ⟨⟨chain, state, added⟩, hadd, h⟩ := h
  cases added with
  | error e => cases h
  | ok u =>
    dsimp only at h
    refine ⟨by simpa using hlinked, ?_⟩
    split at h
    · rename_i hfull
      simp only [bind_eq_ok, pure_eq_ok] at h
      obtain ⟨locator, hlocator, ⟨m₁, sent⟩, hsend, h⟩ := h
      cases sent with
      | error e => cases h
      | ok u =>
        obtain ⟨hasks, -⟩ := requestAll_asks h
        obtain ⟨more, hmore, hnone⟩ := hasks.exists_sent peer
        obtain ⟨hsame, hsent⟩ := sendGetHeaders_eq_ok hsend
        rw [hasks.1.trans hsame]
        refine ⟨⟨state, hadd⟩, _, rfl, fun hne => absurd hfull hne,
          fun _ => ⟨locator, hlocator, ?_⟩⟩
        intro hne
        simp only [hmore, hsent, if_neg hne, List.append_assoc, List.drop_left]
        rw [headerRequests, List.filterMap_append, ← headerRequests, ← headerRequests, hnone]
        simp [headerRequests]
    · rename_i hfull
      rw [pure_bind] at h
      obtain ⟨hasks, -⟩ := requestAll_asks h
      obtain ⟨more, hmore, hnone⟩ := hasks.exists_sent peer
      rw [hasks.1]
      refine ⟨⟨state, hadd⟩, _, rfl, fun _ => ?_, fun heq => absurd heq hfull⟩
      rw [hmore, List.drop_left]
      exact hnone

/-- Headers are handled without a panic once the loop over them ends well; the chain is the one
the loop leaves behind. -/
theorem exists_handleHeaders (law : env.Lawful) {last : BlockHeader} {chain : Chain}
    {state : Peer.State} (hlast : headers.getLast? = some last)
    (hlinked : linked env none headers = true) (hvisited : Chain.Visited env chain)
    (hadd : addHeaders env Peer.writes clock headers m.chain (m.peers peer)
      = .ok (chain, state, .ok ())) :
    ∃ m' r, m.handleHeaders env clock peer headers = .ok (m', r) ∧ m'.chain = chain
      ∧ ∀ e, r = .error e → e = .sendFailed := by
  have hnext : ∀ m₁ : PeerManager, m₁.chain = chain → ∃ m' r,
      m₁.getNextBlocks (clock 0) = .ok (m', r) ∧ m'.chain = chain
        ∧ ∀ e, r = .error e → e = .sendFailed := by
    intro m₁ hchain
    have hvisited₁ : Chain.Visited env m₁.chain := hchain ▸ hvisited
    obtain ⟨⟨m', r⟩, hr⟩ : ∃ r, requestAll (clock 0) m₁.listed m₁ = .ok r :=
      exists_requestAll law hvisited₁
    obtain ⟨hasks, hfails⟩ := requestAll_asks hr
    exact ⟨m', r, hr, hasks.1.trans hchain, hfails⟩
  unfold handleHeaders
  rw [hlast]
  dsimp only
  rw [if_neg (by simp [hlinked]), bind_of_ok hadd]
  dsimp only
  split
  · obtain ⟨locator, hlocator⟩ := Chain.exists_getLocator law hvisited (some (env.blockHash last))
    rw [hlocator, bind_of_ok rfl, pure_bind]
    split
    · rename_i e hsend
      refine ⟨_, _, rfl, sendGetHeaders_chain peer locator none, ?_⟩
      rintro _ ⟨⟩
      unfold sendGetHeaders send at hsend
      split_ifs at hsend
      exact (Except.error.inj hsend).symm
    · exact hnext _ (sendGetHeaders_chain peer locator none)
  · exact hnext _ rfl

end PeerManager

end BitcoinNode

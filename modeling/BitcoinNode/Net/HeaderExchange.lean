import BitcoinNode.Net.HeaderSync

/-!
# The exchange of headers

Runs of a client and a server of `net/peer_manager.rs`, with the requests and the answers that
are under way between them. Nothing that the server sends is refused or makes the client panic,
and when nothing is under way any more the client has the main chain of the server.
-/

namespace BitcoinNode

open Relation ChainDB

/-- A client, the chain of the server, and what is under way. -/
structure HeaderExchange where
  client : PeerManager
  server : Chain
  requests : List (List BlockHash × BlockHash)
  answers : List (List BlockHeader)

namespace HeaderExchange

inductive Event where
  | client | server | serve | accept
  deriving DecidableEq

section Runs

variable (env : Env) (maxTipAge : Nat) (peer : PeerId) (moving : Prop)

/-- One step. The server is in sync whenever it is asked, and the client goes on only as long as
handling returns no error. When `moving` fails the server is at rest. -/
inductive Step (x : HeaderExchange) : Event → HeaderExchange → Prop where
  | client {m : PeerManager} : ReflTransGen (Chain.Move env) x.client.chain m.chain →
      Step x .client { x with client := m }
  | server {s : Chain} : moving → ReflTransGen (Chain.Move env) x.server s →
      Step x .server { x with server := s }
  | serve {now : Nat} {locator : List BlockHash} {stop : BlockHash}
      {rest : List (List BlockHash × BlockHash)} {answer : Option (List BlockHeader)} :
      x.requests = (locator, stop) :: rest → x.server.synced now maxTipAge = true →
      PeerManager.handleGetHeaders env now maxTipAge x.server locator stop = .ok answer →
      Step x .serve { x with requests := rest, answers := x.answers ++ answer.toList }
  | accept {clock : Nat → Nat} {m : PeerManager} {headers : List BlockHeader}
      {rest : List (List BlockHeader)} : x.answers = headers :: rest →
      x.client.handleHeaders env clock peer headers = .ok (m, .ok ()) →
      Step x .accept { x with
        client := m
        requests := x.requests ++ PeerManager.headerRequests peer
          (m.sent.drop x.client.sent.length)
        answers := rest }

inductive Run (x : HeaderExchange) : List Event → HeaderExchange → Prop where
  | refl : Run x [] x
  | tail {es : List Event} {e : Event} {y z : HeaderExchange} :
      Run x es y → Step env maxTipAge peer moving y e z → Run x (es ++ [e]) z

/-- The client has just asked for headers. -/
structure Starts (x : HeaderExchange) : Prop where
  client : Chain.Visited env x.client.chain
  server : Chain.Visited env x.server
  answers : x.answers = []
  requests : ∃ m : PeerManager, m.askForHeaders peer = .ok (x.client, .ok ())
    ∧ x.requests = PeerManager.headerRequests peer (x.client.sent.drop m.sent.length)

end Runs

variable {env : Env} {maxTipAge : Nat} {peer : PeerId} {moving : Prop} {x y z : HeaderExchange}
  {e : Event} {es : List Event}

/-! ## Nothing is refused -/

/-- A request lists blocks of the client. -/
def Asked (c : Chain) (request : List BlockHash × BlockHash) : Prop :=
  request.2 = 0 ∧ request.1 ≠ [] ∧ ∀ hash ∈ request.1, c.db.hasHeader hash = true

/-- An answer is a list of headers of the server that continues a block of the client. -/
structure Answered (env : Env) (c s : Chain) (headers : List BlockHeader) : Prop where
  stored : ∀ header ∈ headers, s.db.hasHeader (env.blockHash header) = true
  continues : ∃ hash, Continues env hash headers ∧ c.db.hasHeader hash = true
  nonempty : headers ≠ []

/-- What holds throughout an exchange. -/
structure Sound (env : Env) (x : HeaderExchange) : Prop where
  client : Chain.Visited env x.client.chain
  server : Chain.Visited env x.server
  asked : ∀ request ∈ x.requests, Asked x.client.chain request
  answered : ∀ headers ∈ x.answers, Answered env x.client.chain x.server headers

theorem hasHeader_moves {c c' : Chain} (law : env.Lawful) (h : Chain.Visited env c)
    (hmoves : ReflTransGen (Chain.Move env) c c') {hash : BlockHash}
    (hknown : c.db.hasHeader hash = true) : c'.db.hasHeader hash = true := by
  obtain ⟨e, he⟩ := Option.isSome_iff_exists.1 hknown
  rw [hasHeader, h.entries_mono law hmoves _ _ he]
  rfl

/-- The blocks of a locator are blocks of the node. -/
theorem asked_of_getLocator {c : Chain} (law : env.Lawful) (h : Chain.Visited env c)
    {start : Option BlockHash} (hstart : ∀ hash ∈ start, c.db.hasHeader hash = true)
    {locator : List BlockHash} (hlocator : c.getLocator start = .ok locator) :
    Asked c (locator, 0) ∧ ∀ hash ∈ start, locator.head? = some hash := by
  have inv := h.inv law
  have hwhole : ∀ {hash : BlockHash}, c.db.hasHeader hash = true →
      c.getLocator (some hash) = .ok locator →
        Asked c (locator, 0) ∧ locator.head? = some hash := by
    intro hash hknown hlocator
    obtain ⟨e, he⟩ := Option.isSome_iff_exists.1 hknown
    obtain rfl := inv.tree.hash_eq he
    obtain ⟨entries, hentries, -, hhead, hancs⟩ := Chain.getLocator_eq law h he
    obtain rfl := Except.ok.inj (hlocator.symm.trans hentries)
    refine ⟨⟨rfl, ?_, ?_⟩, by simp [hhead]⟩
    · intro hnil
      simp [List.map_eq_nil_iff.1 hnil] at hhead
    · intro hash hmem
      obtain ⟨a, ha, rfl⟩ := List.mem_map.1 hmem
      rw [hasHeader, (hancs a ha).stored inv.tree he]
      rfl
  cases start with
  | none =>
    have htip : c.db.hasHeader c.tip.hash = true := by
      rw [hasHeader, inv.tip_stored]
      rfl
    exact ⟨(hwhole htip hlocator).1, by simp⟩
  | some hash =>
    obtain ⟨hasked, hhead⟩ := hwhole (hstart hash rfl) hlocator
    exact ⟨hasked, fun hash' hmem => Option.some.inj hmem ▸ hhead⟩

theorem findLocator_mem {c : Chain} (locator : List BlockHash) :
    c.findLocator env locator ∈ locator ∨ c.findLocator env locator = env.genesisEntry.hash := by
  induction locator with
  | nil => exact .inr rfl
  | cons hash locator ih =>
    rw [Chain.findLocator]
    split
    · exact .inl (List.mem_cons_self ..)
    · exact ih.imp (List.mem_cons_of_mem _) id

theorem Asked.mono {c c' : Chain} (law : env.Lawful) (h : Chain.Visited env c)
    (hmoves : ReflTransGen (Chain.Move env) c c') {request : List BlockHash × BlockHash}
    (hasked : Asked c request) : Asked c' request :=
  ⟨hasked.1, hasked.2.1, fun hash hmem => hasHeader_moves law h hmoves (hasked.2.2 hash hmem)⟩

theorem Answered.mono {c c' s s' : Chain} (law : env.Lawful) (hc : Chain.Visited env c)
    (hs : Chain.Visited env s) (hmoves : ReflTransGen (Chain.Move env) c c')
    (hmoves' : ReflTransGen (Chain.Move env) s s') {headers : List BlockHeader}
    (h : Answered env c s headers) : Answered env c' s' headers := by
  obtain ⟨hash, hcont, hknown⟩ := h.continues
  exact ⟨fun header hmem => hasHeader_moves law hs hmoves' (h.stored header hmem),
    ⟨hash, hcont, hasHeader_moves law hc hmoves hknown⟩, h.nonempty⟩

/-- How a request is answered: from a block of the client on, with two thousand headers of the main
chain or with all that are left. -/
structure Served (env : Env) (c s : Chain) (locator : List BlockHash)
    (answer : Option (List BlockHeader)) (found : ChainEntry) : Prop where
  fork : s.db.getEntryByHash (s.findLocator env locator) = some found
  le : found.height ≤ s.tip.height
  known : c.db.hasHeader found.hash = true
  silent : answer = none → found = s.tip
  answered {headers : List BlockHeader} : answer = some headers → Answered env c s headers
  short {headers : List BlockHeader} : answer = some headers → headers.length ≠ 2000 →
    headers.getLast? = some s.tip.header
  full {headers : List BlockHeader} : answer = some headers → headers.length = 2000 →
    ∃ a, headers.getLast? = some a.header ∧ s.db.getEntryByHash a.hash = some a
      ∧ s.db.isMainChain a = true ∧ a.height = found.height + 2000

theorem Asked.served {c s : Chain} (law : env.Lawful) (hc : Chain.Visited env c)
    (hs : Chain.Visited env s) {request : List BlockHash × BlockHash}
    (hasked : Asked c request) {now : Nat} (hsynced : s.synced now maxTipAge = true)
    {answer : Option (List BlockHeader)}
    (h : PeerManager.handleGetHeaders env now maxTipAge s request.1 request.2 = .ok answer) :
    ∃ found, Served env c s request.1 answer found := by
  obtain ⟨locator, stop⟩ := request
  obtain ⟨rfl, hne, hknown⟩ := hasked
  obtain ⟨found, above, hfound, hmain, hfollows, hserved⟩ := hs.serves law hsynced hne
  obtain rfl := Except.ok.inj (h.symm.trans hserved)
  have inv := hs.inv law
  obtain ⟨hcont, hmem, hlast, -, hheights⟩ :=
    hfollows.spec inv (hs.nexts law) (inv.tree.self hfound) hmain
  have hclient : c.db.hasHeader found.hash = true := by
    rw [inv.tree.hash_eq hfound]
    rcases findLocator_mem locator with hin | hgen
    · exact hknown _ hin
    · rw [hgen, hasHeader, (hc.inv law).tree.genesis]
      rfl
  cases above with
  | nil =>
    exact ⟨found, hfound, inv.main.lookup_le (isMainChain_iff.1 hmain), hclient,
      fun _ => Option.some.inj hlast, by simp, by simp, by simp⟩
  | cons first above =>
    rw [if_neg (List.cons_ne_nil first above)] at h ⊢
    rw [List.getLast?_cons_cons] at hlast
    generalize first :: above = all at *
    refine ⟨found, hfound, inv.main.lookup_le (isMainChain_iff.1 hmain), hclient, by simp,
      fun heq => ?_, fun heq hshort => ?_, fun heq hfull => ?_⟩
    all_goals obtain rfl := Option.some.inj heq
    · refine ⟨fun header hheader => ?_, ⟨found.hash, hcont.take _, hclient⟩, ?_⟩
      · obtain ⟨a, ha, rfl⟩ := List.mem_map.1 (List.mem_of_mem_take hheader)
        rw [hasHeader, inv.tree.header_hash (hmem a ha).1, (hmem a ha).1]
        rfl
      · intro hnil
        rcases List.take_eq_nil_iff.1 hnil with hzero | hnil
        · cases hzero
        · rw [List.map_eq_nil_iff.1 hnil] at hlast
          cases hlast
    · rw [List.length_take, List.length_map] at hshort
      have hle : (all.map ChainEntry.header).length ≤ PeerManager.MAX_HEADERS := by
        rw [List.length_map]
        unfold PeerManager.MAX_HEADERS at *
        omega
      rw [List.take_of_length_le hle, List.getLast?_map, hlast]
      rfl
    · rw [List.length_take, List.length_map] at hfull
      have hlt : 1999 < all.length := by omega
      obtain ⟨ha, hmain'⟩ := hmem all[1999] (List.getElem_mem hlt)
      refine ⟨all[1999], ?_, ha, hmain', ?_⟩
      · rw [List.getLast?_eq_getElem?, List.length_take, List.length_map]
        simp [PeerManager.MAX_HEADERS, Nat.min_eq_left hlt]
      · have := hheights 1999 all[1999] (List.getElem?_eq_getElem hlt)
        omega

theorem Starts.spec (law : env.Lawful) (h : Starts env peer x) :
    ∃ locator, x.requests = [(locator, 0)] ∧ Asked x.client.chain (locator, 0) := by
  obtain ⟨m, hask, hrequests⟩ := h.requests
  simp only [PeerManager.askForHeaders, bind_eq_ok, pure_eq_ok] at hask
  obtain ⟨best, -, locator, hlocator, hsend⟩ := hask
  obtain ⟨hchain, hsent⟩ := PeerManager.sendGetHeaders_eq_ok hsend
  have hclient := h.client
  rw [hchain] at hclient ⊢
  have inv := hclient.inv law
  obtain ⟨hasked, -⟩ := asked_of_getLocator law hclient (fun hash hmem => by
    obtain ⟨p, hp, rfl⟩ := Option.map_eq_some_iff.1 hmem
    rw [hasHeader, inv.tree.self hp]
    rfl) hlocator
  refine ⟨locator, ?_, hasked⟩
  rw [hrequests, hsent, if_neg hasked.2.1, List.drop_left]
  simp [PeerManager.headerRequests]

theorem Sound.start (law : env.Lawful) (h : Starts env peer x) : Sound env x := by
  obtain ⟨locator, hrequests, hasked⟩ := h.spec law
  refine ⟨h.client, h.server, ?_, by simp [h.answers]⟩
  rw [hrequests]
  simpa using hasked

/-- What handling an answer does: it stores the headers, and asks again behind two thousand. -/
theorem Sound.accept (law : env.Lawful) (h : Sound env x) {clock : Nat → Nat} {m : PeerManager}
    {headers : List BlockHeader} (hmem : headers ∈ x.answers)
    (haccept : x.client.handleHeaders env clock peer headers = .ok (m, .ok ())) :
    ReflTransGen (Chain.Move env) x.client.chain m.chain
      ∧ (∀ header ∈ headers, m.chain.db.hasHeader (env.blockHash header) = true)
      ∧ ∃ last requests, headers.getLast? = some last
        ∧ PeerManager.headerRequests peer (m.sent.drop x.client.sent.length) = requests
        ∧ (headers.length ≠ 2000 → requests = [])
        ∧ (headers.length = 2000 → ∃ locator, requests = [(locator, 0)]
          ∧ Asked m.chain (locator, 0) ∧ locator.head? = some (env.blockHash last)) := by
  obtain ⟨last, hlast⟩ : ∃ last, headers.getLast? = some last :=
    Option.ne_none_iff_exists'.1 (by simpa using (h.answered headers hmem).nonempty)
  obtain ⟨-, ⟨state, hadd⟩, requests, hrequests, hshort, hfull⟩ :=
    PeerManager.handleHeaders_eq_ok hlast haccept
  obtain ⟨hmoves, hstored⟩ := Chain.addHeaders_spec law h.client hadd
  refine ⟨hmoves, hstored, last, requests, hlast, hrequests, hshort, fun hlength => ?_⟩
  obtain ⟨locator, hlocator, hsent⟩ := hfull hlength
  obtain ⟨hasked, hhead⟩ := asked_of_getLocator law (h.client.moves hmoves)
    (fun hash hmem => by
      obtain rfl := Option.some.inj hmem
      exact hstored last (List.mem_of_getLast? hlast)) hlocator
  exact ⟨locator, hsent hasked.2.1, hasked, hhead _ rfl⟩

theorem Sound.step (law : env.Lawful) (h : Sound env x)
    (hstep : Step env maxTipAge peer moving x e y) : Sound env y := by
  cases hstep with
  | client hmoves =>
    exact ⟨h.client.moves hmoves, h.server, fun r hr => (h.asked r hr).mono law h.client hmoves,
      fun hs hmem => (h.answered hs hmem).mono law h.client h.server hmoves .refl⟩
  | server _ hmoves =>
    exact ⟨h.client, h.server.moves hmoves, h.asked,
      fun hs hmem => (h.answered hs hmem).mono law h.client h.server .refl hmoves⟩
  | serve hrequests hsynced hserve =>
    have hasked := h.asked
    rw [hrequests] at hasked
    obtain ⟨hfirst, hrest⟩ := List.forall_mem_cons.1 hasked
    obtain ⟨found, hserved⟩ := hfirst.served law h.client h.server hsynced hserve
    refine ⟨h.client, h.server, hrest, fun headers hmem => ?_⟩
    rcases List.mem_append.1 hmem with hmem | hmem
    · exact h.answered headers hmem
    · exact hserved.answered (Option.mem_toList.1 hmem)
  | @accept clock m headers rest hanswers haccept =>
    obtain ⟨hmoves, -, last, requests, -, hrequests, hshort, hfull⟩ :=
      h.accept law (hanswers ▸ List.mem_cons_self ..) haccept
    refine ⟨h.client.moves hmoves, h.server, fun request hmem => ?_, fun hs hmem => ?_⟩
    · rcases List.mem_append.1 hmem with hmem | hmem
      · exact (h.asked request hmem).mono law h.client hmoves
      · rw [hrequests] at hmem
        by_cases hlength : headers.length = 2000
        · obtain ⟨locator, rfl, hasked, -⟩ := hfull hlength
          rwa [List.mem_singleton.1 hmem]
        · rw [hshort hlength] at hmem
          cases hmem
    · exact (h.answered hs (hanswers ▸ List.mem_cons_of_mem _ hmem)).mono law h.client h.server
        hmoves .refl

theorem Run.sound (law : env.Lawful) (h : Sound env x)
    (hrun : Run env maxTipAge peer moving x es y) : Sound env y := by
  induction hrun with
  | refl => exact h
  | tail _ hstep ih => exact ih.step law hstep

/-- Along every run, whatever both nodes do in between, each request is read without a panic, and
each answer is accepted: the client neither panics on it nor disconnects the server for it, as long
as the client has not marked the blocks it builds on invalid and its clock is not behind. -/
theorem never_refused (law : env.Lawful) (hinj : Function.Injective env.blockHash)
    (hstart : Starts env peer x) (hrun : Run env maxTipAge peer moving x es y) :
    (∀ request ∈ y.requests, ∀ now, ∃ answer, PeerManager.handleGetHeaders env now maxTipAge
      y.server request.1 request.2 = .ok answer)
    ∧ ∀ headers ∈ y.answers, ∀ clock,
      (∀ header ∈ headers, header.prevBlockhash ∉ y.client.chain.db.invalid) →
      (∀ header ∈ headers, ∀ n, header.time < clock n + MAX_FUTURE_BLOCK_TIME) →
      ∃ m r, y.client.handleHeaders env clock peer headers = .ok (m, r)
        ∧ (∀ e, r = .error e → e = .sendFailed)
        ∧ ∀ header ∈ headers, m.chain.db.hasHeader (env.blockHash header) = true := by
  have sound := hrun.sound law (.start law hstart)
  refine ⟨fun request hmem now => ?_, fun headers hmem clock hvalid hclock => ?_⟩
  · obtain ⟨hstop, hne, -⟩ := sound.asked request hmem
    by_cases hsynced : y.server.synced now maxTipAge = true
    · obtain ⟨_, _, -, -, -, hserved⟩ := sound.server.serves law hsynced hne
      exact ⟨_, hstop ▸ hserved⟩
    · exact ⟨none, by rw [PeerManager.handleGetHeaders, if_pos (by simp [hsynced])]⟩
  · obtain ⟨hstored, ⟨hash, hcont, hhash⟩, hne⟩ := sound.answered headers hmem
    obtain ⟨last, hlast⟩ : ∃ last, headers.getLast? = some last :=
      Option.ne_none_iff_exists'.1 (by simpa using hne)
    obtain ⟨chain, state, hadd⟩ : ∃ chain state, addHeaders env Peer.writes clock headers
        y.client.chain (y.client.peers peer) = .ok (chain, state, .ok ()) :=
      Chain.addHeaders_served law hinj sound.server sound.client hcont hhash hstored hvalid hclock
    obtain ⟨hmoves, hall⟩ := Chain.addHeaders_spec law sound.client hadd
    obtain ⟨m, r, hhandle, rfl, hfails⟩ := PeerManager.exists_handleHeaders law hlast
      hcont.linked_none (sound.client.moves hmoves) hadd
    exact ⟨m, r, hhandle, hfails, hall⟩

/-! ## Nothing is missing -/

/-- A state that the run passed. -/
def Passed (env : Env) (maxTipAge : Nat) (peer : PeerId) (moving : Prop)
    (x y z : HeaderExchange) : Prop :=
  (∃ es, Run env maxTipAge peer moving x es y) ∧ ∃ es, Run env maxTipAge peer moving y es z

theorem Passed.step (h : Passed env maxTipAge peer moving x y z) {z' : HeaderExchange}
    (hstep : Step env maxTipAge peer moving z e z') : Passed env maxTipAge peer moving x y z' := by
  obtain ⟨hfirst, es, hrest⟩ := h
  exact ⟨hfirst, _, hrest.tail hstep⟩

/-- An answer that is not full ends with a tip that the server had, and when nothing is under way
the client has such a tip. -/
structure Leads (env : Env) (maxTipAge : Nat) (peer : PeerId) (moving : Prop)
    (x z : HeaderExchange) : Prop where
  answer {headers : List BlockHeader} : headers ∈ z.answers → headers.length ≠ 2000 →
    ∃ y last, Passed env maxTipAge peer moving x y z ∧ headers.getLast? = some last
      ∧ env.blockHash last = y.server.tip.hash
  silent : z.requests = [] → z.answers = [] → ∃ y, Passed env maxTipAge peer moving x y z
    ∧ z.client.chain.db.hasHeader y.server.tip.hash = true

theorem Leads.step (law : env.Lawful) (sound : Sound env z)
    (hrun : Run env maxTipAge peer moving x es z) (h : Leads env maxTipAge peer moving x z)
    {z' : HeaderExchange} (hstep : Step env maxTipAge peer moving z e z') :
    Leads env maxTipAge peer moving x z' := by
  have hkeep : ∀ {headers : List BlockHeader}, headers ∈ z.answers → headers.length ≠ 2000 →
      ∃ y last, Passed env maxTipAge peer moving x y z' ∧ headers.getLast? = some last
        ∧ env.blockHash last = y.server.tip.hash := by
    intro headers hmem hshort
    obtain ⟨y, last, hpassed, hlast⟩ := h.answer hmem hshort
    exact ⟨y, last, hpassed.step hstep, hlast⟩
  have hhere : Passed env maxTipAge peer moving x z z' :=
    Passed.step ⟨⟨es, hrun⟩, [], .refl⟩ hstep
  have hsilent := h.silent
  cases hstep with
  | client hmoves =>
    refine ⟨hkeep, fun hrequests hanswers => ?_⟩
    obtain ⟨y, hpassed, hknown⟩ := hsilent hrequests hanswers
    exact ⟨y, hpassed.step (.client hmoves), hasHeader_moves law sound.client hmoves hknown⟩
  | server hmoving hmoves =>
    refine ⟨hkeep, fun hrequests hanswers => ?_⟩
    obtain ⟨y, hpassed, hknown⟩ := hsilent hrequests hanswers
    exact ⟨y, hpassed.step (.server hmoving hmoves), hknown⟩
  | serve hrequests hsynced hserve =>
    obtain ⟨found, hserved⟩ := (sound.asked _ (hrequests ▸ List.mem_cons_self ..)).served law
      sound.client sound.server hsynced hserve
    refine ⟨fun {headers} hmem hshort => ?_, fun _ hanswers => ⟨z, hhere, ?_⟩⟩
    · rcases List.mem_append.1 hmem with hmem | hmem
      · exact hkeep hmem hshort
      · have hlast := hserved.short (Option.mem_toList.1 hmem) hshort
        exact ⟨z, _, hhere, hlast,
          (sound.server.inv law).tree.header_hash (sound.server.inv law).tip_stored⟩
    · have hnone := hserved.silent (by simpa using (List.append_eq_nil_iff.1 hanswers).2)
      exact hnone ▸ hserved.known
  | @accept clock m headers rest hanswers haccept =>
    have hmem : headers ∈ z.answers := hanswers ▸ List.mem_cons_self ..
    obtain ⟨hmoves, hstored, last, requests, hlast, hrequests, -, hfull⟩ :=
      sound.accept law hmem haccept
    refine ⟨fun hin hshort => hkeep (hanswers ▸ List.mem_cons_of_mem _ hin) hshort,
      fun hnone _ => ?_⟩
    have hshort : headers.length ≠ 2000 := by
      intro hlength
      obtain ⟨locator, rfl, -⟩ := hfull hlength
      rw [hrequests] at hnone
      simp at hnone
    obtain ⟨y, last', hpassed, hlast', htip⟩ := hkeep hmem hshort
    obtain rfl := Option.some.inj (hlast.symm.trans hlast')
    exact ⟨y, hpassed, htip ▸ hstored last (List.mem_of_getLast? hlast)⟩

theorem Run.leads (law : env.Lawful) (hstart : Starts env peer x)
    (hrun : Run env maxTipAge peer moving x es z) : Leads env maxTipAge peer moving x z := by
  induction hrun with
  | refl =>
    obtain ⟨locator, hrequests, -⟩ := hstart.spec law
    refine ⟨fun hmem => ?_, fun hnone => ?_⟩
    · rw [hstart.answers] at hmem
      cases hmem
    · rw [hrequests] at hnone
      cases hnone
  | tail hrun hstep ih => exact ih.step law (hrun.sound law (.start law hstart)) hrun hstep

/-! ## How often the client asks -/

/-- How many requests it takes from a block of the main chain of the server on. -/
def left (s : Chain) : Option ChainEntry → Nat
  | none => 0
  | some e => (s.tip.height - e.height) / 2000 + 1

def requestCost (env : Env) (s : Chain) (request : List BlockHash × BlockHash) : Nat :=
  left s (s.db.getEntryByHash (s.findLocator env request.1))

def answerCost (env : Env) (s : Chain) (headers : List BlockHeader) : Nat :=
  if headers.length = 2000 then
    left s (headers.getLast?.bind fun last => s.db.getEntryByHash (env.blockHash last))
  else 0

/-- The requests that are still to be served, those under way included. -/
def cost (env : Env) (x : HeaderExchange) : Nat :=
  (x.requests.map (requestCost env x.server)).sum + (x.answers.map (answerCost env x.server)).sum

/-- Full answers end on the main chain of the server. -/
def Full (x : HeaderExchange) : Prop :=
  ∀ headers ∈ x.answers, headers.length = 2000 → ∃ a : ChainEntry,
    headers.getLast? = some a.header ∧ x.server.db.getEntryByHash a.hash = some a
      ∧ x.server.db.isMainChain a = true

/-- Serving a request takes one off the cost, and no other step adds to it. -/
theorem cost_step (law : env.Lawful) (sound : Sound env x) (full : Full x)
    (hstep : Step env maxTipAge peer False x e y) :
    y.server = x.server ∧ Full y ∧ cost env y + (if e = .serve then 1 else 0) ≤ cost env x := by
  have inv := sound.server.inv law
  cases hstep with
  | client _ => exact ⟨rfl, full, le_rfl⟩
  | server hmoving _ => exact hmoving.elim
  | @serve now locator stop rest answer hrequests hsynced hserve =>
    obtain ⟨found, hserved⟩ := (sound.asked _ (hrequests ▸ List.mem_cons_self ..)).served law
      sound.client sound.server hsynced hserve
    refine ⟨rfl, fun headers hmem hlength => ?_, ?_⟩
    · rcases List.mem_append.1 hmem with hmem | hmem
      · exact full headers hmem hlength
      · obtain ⟨a, hlast, ha, hmain, -⟩ := hserved.full (Option.mem_toList.1 hmem) hlength
        exact ⟨a, hlast, ha, hmain⟩
    · have hrequest : requestCost env x.server (locator, stop)
          = (x.server.tip.height - found.height) / 2000 + 1 := by
        rw [requestCost, hserved.fork, left]
      have hanswer : (answer.toList.map (answerCost env x.server)).sum
          ≤ (x.server.tip.height - found.height) / 2000 := by
        cases answer with
        | none => simp
        | some headers =>
          simp only [Option.toList_some, List.map_cons, List.map_nil, List.sum_singleton]
          unfold answerCost
          split
          · rename_i hlength
            obtain ⟨a, hlast, ha, hmain, hheight⟩ := hserved.full rfl hlength
            have hle := inv.main.lookup_le (isMainChain_iff.1 hmain)
            rw [hlast, Option.bind_some, inv.tree.header_hash ha, ha, left]
            omega
          · exact Nat.zero_le _
      simp only [cost, hrequests, List.map_cons, List.sum_cons, List.map_append, List.sum_append,
        hrequest, if_true]
      omega
  | @accept clock m headers rest hanswers haccept =>
    have hmem : headers ∈ x.answers := hanswers ▸ List.mem_cons_self ..
    obtain ⟨-, -, last, requests, hlast, hrequests, hshort, hfull⟩ :=
      sound.accept law hmem haccept
    refine ⟨rfl, fun hs hin => full hs (hanswers ▸ List.mem_cons_of_mem _ hin), ?_⟩
    have hcost : (requests.map (requestCost env x.server)).sum
        ≤ answerCost env x.server headers := by
      by_cases hlength : headers.length = 2000
      · obtain ⟨locator, rfl, -, hhead⟩ := hfull hlength
        obtain ⟨a, hlast', ha, hmain⟩ := full headers hmem hlength
        obtain rfl := Option.some.inj (hlast.symm.trans hlast')
        obtain ⟨rest, rfl⟩ : ∃ rest, locator = env.blockHash a.header :: rest :=
          List.head?_eq_some_iff.1 hhead
        have hmainHash : x.server.db.isMainHash (env.blockHash a.header) = true := by
          rw [inv.tree.header_hash ha, isMainHash, ha]
          exact hmain
        simp only [List.map_cons, List.map_nil, List.sum_singleton]
        rw [requestCost, Chain.findLocator, if_pos hmainHash, answerCost, if_pos hlength, hlast,
          Option.bind_some]
      · simp [hshort hlength]
    simp only [cost, hanswers, hrequests, List.map_cons, List.sum_cons, List.map_append,
      List.sum_append, reduceCtorEq, if_false]
    omega

theorem Run.count_serve (law : env.Lawful) (hstart : Starts env peer x)
    (hrun : Run env maxTipAge peer False x es z) :
    z.server = x.server ∧ Full z ∧ cost env z + es.count .serve ≤ cost env x := by
  induction hrun with
  | refl =>
    refine ⟨rfl, fun headers hmem => ?_, le_rfl⟩
    rw [hstart.answers] at hmem
    cases hmem
  | @tail es e y z hrun hstep ih =>
    obtain ⟨hserver, full, hle⟩ := ih
    obtain ⟨hserver', full', hle'⟩ := cost_step law (hrun.sound law (.start law hstart)) full hstep
    refine ⟨hserver'.trans hserver, full', ?_⟩
    rw [List.count_append, List.count_singleton]
    simp only [beq_iff_eq]
    split at hle' <;> simp_all <;> omega

end HeaderExchange

namespace Small

/-- A fresh node asks the server for headers. -/
def asksForFirst (c : Chain) : Bool :=
  match (manager c).askForHeaders 0 with
  | .ok (m, .ok ()) =>
    decide (PeerManager.headerRequests 0 m.sent = [([env.genesisEntry.hash], 0)])
      && match m.handleHeaders env (fun _ => 100) 0 [first.header] with
        | .ok (m', .ok ()) => (PeerManager.headerRequests 0 (m'.sent.drop m.sent.length)).isEmpty
        | _ => false
  | _ => false

/-- A server with one block answers it. -/
def servesFirst (c : Chain) : Bool :=
  c.tip.height == 1 && c.synced 0 0
    && match PeerManager.handleGetHeaders env 0 0 c [env.genesisEntry.hash] 0 with
      | .ok (some headers) => headers == [first.header]
      | _ => false

/-- An exchange of one header. -/
theorem exists_exchange : ∃ x z : HeaderExchange, HeaderExchange.Starts env 0 x
    ∧ HeaderExchange.Run env 0 0 False x [.serve, .accept] z ∧ z.requests = [] ∧ z.answers = []
    ∧ x.client.chain.tip.height = 0 ∧ x.server.tip.height = 1 := by
  obtain ⟨c, hc, hP⟩ := Chain.exists_reachable env []
    (fun c => c.tip.height == 0 && asksForFirst c) (by decide) (by decide +kernel)
  obtain ⟨s, hs, hserves⟩ := Chain.exists_reachable env [.add 100 first] servesFirst (by decide)
    (by decide +kernel)
  obtain ⟨hheight, hasks⟩ := Bool.and_eq_true_iff.1 hP
  unfold asksForFirst at hasks
  unfold servesFirst at hserves
  split at hasks
  case h_2 => cases hasks
  rename_i m hask
  obtain ⟨hrequests, hhandle⟩ := Bool.and_eq_true_iff.1 hasks
  split at hhandle
  case h_2 => cases hhandle
  rename_i m' haccept
  obtain ⟨hsynced, hserves⟩ := Bool.and_eq_true_iff.1 hserves
  obtain ⟨htip, hsynced⟩ := Bool.and_eq_true_iff.1 hsynced
  split at hserves
  case h_2 => cases hserves
  rename_i headers hserve
  obtain rfl := eq_of_beq hserves
  have hchain : m.chain = c := by
    simp only [PeerManager.askForHeaders, bind_eq_ok, pure_eq_ok] at hask
    obtain ⟨best, -, locator, -, hsend⟩ := hask
    exact (PeerManager.sendGetHeaders_eq_ok hsend).1
  let x : HeaderExchange := ⟨m, s, [([env.genesisEntry.hash], 0)], []⟩
  have hstart : HeaderExchange.Starts env 0 x :=
    ⟨hchain ▸ hc.visited lawful, hs.visited lawful, rfl, manager c, hask,
      (of_decide_eq_true hrequests).symm⟩
  have hnone := List.isEmpty_iff.1 hhandle
  have hrun : HeaderExchange.Run env 0 0 False x [.serve, .accept] ⟨m', s, _, []⟩ :=
    .tail (.tail .refl (.serve rfl hsynced hserve)) (.accept rfl haccept)
  exact ⟨x, _, hstart, hrun, hnone, rfl, hchain ▸ eq_of_beq hheight, eq_of_beq htip⟩

end Small

namespace HeaderExchange

/-- A server of one block is asked by a fresh node. -/
theorem never_refused_first : ∃ x : HeaderExchange, x.requests ≠ []
    ∧ ∀ request ∈ x.requests, ∀ now, ∃ answer, PeerManager.handleGetHeaders Small.env now 0
      x.server request.1 request.2 = .ok answer := by
  obtain ⟨x, z, hstart, -⟩ := Small.exists_exchange
  obtain ⟨locator, hrequests, -⟩ := hstart.spec Small.lawful
  have hrun : Run Small.env 0 0 False x [] x := .refl
  exact ⟨x, by simp [hrequests],
    (never_refused Small.lawful Small.blockHash_injective hstart hrun).1⟩

end HeaderExchange

end BitcoinNode

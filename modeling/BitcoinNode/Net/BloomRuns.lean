import BitcoinNode.Net.BloomFilter

/-!
# What a bloom filter remembers

While its bits stay, a filter only gains keys: what it holds it goes on holding, and the spend
of an output that matched is seen. `clear` drops the bits themselves, and a filter that has
none left, or was loaded without any, panics at the next hash.
-/

namespace BitcoinNode.BloomFilter

variable {lib : Bip37} {env : Env} {f g k : BloomFilter} {key data : List UInt8}

/-! ## Filters that gain bits -/

/-- The second filter has all bits of the first one, and reads them alike. -/
structure Grows (f g : BloomFilter) : Prop where
  length : g.data.length = f.data.length
  hashFuncs : g.hashFuncs = f.hashFuncs
  tweak : g.tweak = f.tweak
  flags : g.flags = f.flags
  isFull : g.isFull = f.isFull
  isEmpty : f.isEmpty = false → g.isEmpty = false
  bits : ∀ p, BitArray.get f.data p = true → BitArray.get g.data p = true

namespace Grows

theorem refl (f : BloomFilter) : f.Grows f := ⟨rfl, rfl, rfl, rfl, rfl, id, fun _ => id⟩

theorem trans (h : f.Grows g) (h' : g.Grows k) : f.Grows k where
  length := h'.length.trans h.length
  hashFuncs := h'.hashFuncs.trans h.hashFuncs
  tweak := h'.tweak.trans h.tweak
  flags := h'.flags.trans h.flags
  isFull := h'.isFull.trans h.isFull
  isEmpty := h'.isEmpty ∘ h.isEmpty
  bits p hp := h'.bits p (h.bits p hp)

theorem positions (h : f.Grows g) : g.positions lib key = f.positions lib key := by
  rw [BloomFilter.positions, BloomFilter.positions, position_congr h.length h.tweak, h.hashFuncs]

theorem holds (h : f.Grows g) (hkey : f.Holds lib key) : g.Holds lib key := by
  unfold Holds at hkey ⊢
  rw [h.positions, h.isFull]
  exact hkey.imp_right fun ⟨hempty, hbits⟩ => ⟨h.isEmpty hempty, fun p hp => h.bits p (hbits p hp)⟩

theorem nonempty (h : f.Grows g) (hdata : f.data ≠ []) : g.data ≠ [] := by
  have := h.length
  grind

theorem sized (h : f.Grows g) (hsized : f.Sized) : g.Sized :=
  hsized.imp h.nonempty h.hashFuncs.trans

theorem watches (h : f.Grows g) (script : Script) :
    g.watches lib env script = f.watches lib env script := by
  rw [BloomFilter.watches, BloomFilter.watches, h.flags]

end Grows

theorem positions_lt (h : f.Sized) : ∀ p ∈ f.positions lib key, p < f.data.length * 8 := by
  rintro p hp
  obtain ⟨i, hi, rfl⟩ := List.mem_map.1 hp
  rcases h with h | h
  · exact position_lt h
  · grind

theorem grows_inserted (lib : Bip37) (key : List UInt8) (h : f.Sized) :
    f.Grows (f.inserted lib key) := by
  unfold inserted
  by_cases hfull : f.isFull
  · rw [if_pos hfull]
    exact Grows.refl f
  · rw [if_neg hfull]
    exact ⟨BitArray.length_setAll, rfl, rfl, rfl, rfl, fun _ => rfl,
      fun p hp => (BitArray.get_setAll (positions_lt h)).2 (.inl hp)⟩

theorem holds_inserted (lib : Bip37) (key : List UInt8) (h : f.Sized) :
    (f.inserted lib key).Holds lib key := by
  unfold Holds
  rw [(grows_inserted lib key h).positions]
  unfold inserted
  by_cases hfull : f.isFull
  · exact .inl (by rw [if_pos hfull]; exact hfull)
  · rw [if_neg hfull]
    exact .inr ⟨rfl, fun p hp => (BitArray.get_setAll (positions_lt h)).2 (.inr hp)⟩

/-! ## The test of a transaction -/

/-- What the scan keeps on its way. -/
structure Scan.Kept (lib : Bip37) (s t : Scan) : Prop where
  grows : s.filter.Grows t.filter
  found : s.found = true → t.found = true
  inserted : ∀ key ∈ t.inserted, key ∈ s.inserted ∨ t.filter.Holds lib key

namespace Scan.Kept

variable {s t u : Scan}

theorem refl (s : Scan) : s.Kept lib s := ⟨Grows.refl _, id, fun _ => .inl⟩

theorem trans (h : s.Kept lib t) (h' : t.Kept lib u) : s.Kept lib u where
  grows := h.grows.trans h'.grows
  found := h'.found ∘ h.found
  inserted key hkey := by
    rcases h'.inserted key hkey with ht | ht
    · exact (h.inserted key ht).imp_right h'.grows.holds
    · exact .inr ht

end Scan.Kept

section Scan

variable {s : Scan}

theorem scanMatch_kept (lib : Bip37) (env : Env) (outpoint : OutPoint) (script : Script)
    (h : s.filter.Sized) :
    ∃ t, scanMatch lib env outpoint script s = .ok t ∧ s.Kept lib t ∧ t.found = true
      ∧ (s.filter.watches lib env script = true →
        t.filter.Holds lib outpoint.consensusEncode) := by
  unfold scanMatch
  by_cases hw : s.filter.watches lib env script
  · have hkey := holds_inserted lib outpoint.consensusEncode h
    refine ⟨_, by rw [if_pos hw, insertOutpoint, insert_eq h, bind_of_ok rfl]; rfl,
      ⟨grows_inserted lib _ h, fun _ => rfl, fun key hmem => ?_⟩, rfl, fun _ => hkey⟩
    rcases List.mem_cons.1 hmem with rfl | hmem
    · exact .inr hkey
    · exact .inl hmem
  · exact ⟨_, if_neg hw, ⟨Grows.refl _, fun _ => rfl, fun _ => .inl⟩, rfl, fun h => absurd h hw⟩

/-- A script that pushes a key of the filter is found, and its output watched. -/
theorem scanInstructions_kept (lib : Bip37) (env : Env) (outpoint : OutPoint) (script : Script)
    (instrs : List (Option Instruction)) (h : s.filter.Sized) :
    ∃ t, scanInstructions lib env outpoint script instrs s = .ok t ∧ s.Kept lib t
      ∧ ∀ data, some (.pushBytes data) ∈ instrs → data ≠ [] → s.filter.Holds lib data →
        t.found = true ∧ (s.filter.watches lib env script = true →
          t.filter.Holds lib outpoint.consensusEncode) := by
  induction instrs generalizing s with
  | nil => exact ⟨s, rfl, Scan.Kept.refl s, by simp⟩
  | cons instr instrs ih =>
    match instr with
    | none | some (.op _) =>
      obtain ⟨t, ht, hkept, hpush⟩ := ih h
      exact ⟨t, ht, hkept, fun data hmem => hpush data (by simpa using hmem)⟩
    | some (.pushBytes data) =>
      rw [scanInstructions]
      by_cases hnil : data = []
      · obtain ⟨t, ht, hkept, hpush⟩ := ih h
        rw [if_pos hnil]
        exact ⟨t, ht, hkept, fun data' hmem hne => hpush data' (by grind) hne⟩
      rw [if_neg hnil, contains_eq h, bind_of_ok rfl]
      by_cases hhit : s.filter.Holds lib data
      · obtain ⟨t, ht, hkept, hfound, hwatched⟩ := scanMatch_kept lib env outpoint script h
        obtain ⟨u, hu, hkept', -⟩ := ih (hkept.grows.sized h)
        rw [if_pos (decide_eq_true hhit), bind_of_ok ht]
        exact ⟨u, hu, hkept.trans hkept', fun _ _ _ _ =>
          ⟨hkept'.found hfound, fun hw => hkept'.grows.holds (hwatched hw)⟩⟩
      · obtain ⟨t, ht, hkept, hpush⟩ := ih h
        rw [if_neg (by simpa using hhit), bind_of_ok rfl]
        exact ⟨t, ht, hkept, fun data' hmem hne hheld => hpush data' (by grind) hne hheld⟩

theorem scanOutputs_kept (lib : Bip37) (env : Env) (txid : Txid) (outputs : List (TxOut × Nat))
    (h : s.filter.Sized) :
    ∃ t, scanOutputs lib env txid outputs s = .ok t ∧ s.Kept lib t
      ∧ ∀ output index data, (output, index) ∈ outputs →
        some (.pushBytes data) ∈ env.instructions output.scriptPubkey → data ≠ [] →
        s.filter.Holds lib data →
        t.found = true ∧ (s.filter.watches lib env output.scriptPubkey = true →
          t.filter.Holds lib (OutPoint.consensusEncode ⟨txid, index % 2 ^ 32⟩)) := by
  induction outputs generalizing s with
  | nil => exact ⟨s, rfl, Scan.Kept.refl s, by simp⟩
  | cons output outputs ih =>
    obtain ⟨output, index⟩ := output
    obtain ⟨t, ht, hkept, hpush⟩ := scanInstructions_kept lib env ⟨txid, index % 2 ^ 32⟩
      output.scriptPubkey (env.instructions output.scriptPubkey) h
    obtain ⟨u, hu, hkept', hrest⟩ := ih (hkept.grows.sized h)
    rw [scanOutputs, bind_of_ok ht]
    refine ⟨u, hu, hkept.trans hkept', fun output' index' data hmem hdata hne hheld => ?_⟩
    rcases List.mem_cons.1 hmem with heq | hmem
    · obtain ⟨rfl, rfl⟩ := Prod.mk.inj heq
      obtain ⟨hfound, hwatched⟩ := hpush data hdata hne hheld
      exact ⟨hkept'.found hfound, fun hw => hkept'.grows.holds (hwatched hw)⟩
    · have := hrest output' index' data hmem hdata hne (hkept.grows.holds hheld)
      rwa [hkept.grows.watches] at this

theorem exists_containsPush (lib : Bip37) (instrs : List (Option Instruction)) (h : f.Sized) :
    ∃ b, f.containsPush lib instrs = .ok b := by
  induction instrs with
  | nil => exact ⟨false, rfl⟩
  | cons instr instrs ih =>
    obtain ⟨b, hb⟩ := ih
    match instr with
    | none | some (.op _) => exact ⟨b, hb⟩
    | some (.pushBytes data) =>
      rw [containsPush, contains_eq h, bind_of_ok rfl, hb]
      by_cases hnil : data = [] <;> by_cases hhit : f.Holds lib data <;> simp [hnil, hhit]

/-- An input that spends an outpoint of the filter matches. -/
theorem containsInput_spends (lib : Bip37) (env : Env) (inputs : List TxIn) (h : f.Sized) :
    ∃ b, f.containsInput lib env inputs = .ok b
    ∧ ((∃ input ∈ inputs, f.Holds lib input.previousOutput.consensusEncode) → b = true) := by
  induction inputs with
  | nil => exact ⟨false, rfl, by simp⟩
  | cons input inputs ih =>
    obtain ⟨b, hb, hspends⟩ := ih
    obtain ⟨pushes, hpushes⟩ := exists_containsPush lib (env.instructions input.scriptSig) h
    rw [containsInput, containsOutpoint, contains_eq h, bind_of_ok rfl, hpushes, bind_of_ok rfl, hb]
    by_cases hhit : f.Holds lib input.previousOutput.consensusEncode
    · exact ⟨true, by simp [hhit], fun _ => rfl⟩
    · cases pushes
      · exact ⟨b, by simp [hhit], by grind⟩
      · exact ⟨true, by simp [hhit], fun _ => rfl⟩

/-- The test goes through, and sees outputs that push a key of the filter and inputs that spend
an outpoint of it. -/
theorem scan_kept (lib : Bip37) (env : Env) (tx : Transaction) (h : f.Sized) :
    ∃ t, f.scan lib env tx = .ok t ∧ f.Grows t.filter
      ∧ (∀ key ∈ t.inserted, t.filter.Holds lib key)
      ∧ (∀ output index data, (output, index) ∈ tx.output.zipIdx →
        some (.pushBytes data) ∈ env.instructions output.scriptPubkey → data ≠ [] →
        f.Holds lib data →
        t.found = true ∧ (f.watches lib env output.scriptPubkey = true →
          t.filter.Holds lib (OutPoint.consensusEncode ⟨env.txid tx, index % 2 ^ 32⟩)))
      ∧ ((∃ input ∈ tx.input, f.Holds lib input.previousOutput.consensusEncode) →
        t.found = true) := by
  unfold scan
  by_cases hfull : f.isFull
  · exact ⟨_, if_pos hfull, Grows.refl f, by simp, fun _ _ _ _ _ _ _ => ⟨rfl, fun _ => .inl hfull⟩,
      fun _ => rfl⟩
  by_cases hempty : f.isEmpty
  · have hnone (key) : ¬ f.Holds lib key := by simp [Holds, hfull, hempty]
    exact ⟨_, by rw [if_neg hfull, if_pos hempty], Grows.refl f, by simp,
      fun _ _ data _ _ _ hheld => absurd hheld (hnone data),
      fun ⟨input, _, hheld⟩ => absurd hheld (hnone _)⟩
  rw [if_neg hfull, if_neg hempty]
  dsimp only
  rw [contains_eq h, bind_of_ok rfl]
  obtain ⟨s, hs, hkept, hpush⟩ := scanOutputs_kept lib env (env.txid tx) tx.output.zipIdx
    (s := ⟨f, decide (f.Holds lib (hashBytes (env.txid tx))), []⟩) h
  have hinserted : ∀ key ∈ s.inserted, s.filter.Holds lib key := fun key hkey =>
    (hkept.inserted key hkey).resolve_left List.not_mem_nil
  rw [bind_of_ok hs]
  by_cases hfound : s.found
  · exact ⟨s, by rw [if_pos hfound]; rfl, hkept.grows, hinserted, hpush, fun _ => hfound⟩
  obtain ⟨b, hb, hspends⟩ := containsInput_spends lib env tx.input (hkept.grows.sized h)
  rw [if_neg hfound, bind_of_ok hb]
  refine ⟨_, rfl, hkept.grows, hinserted, fun output index data hmem hdata hne hheld => ?_,
    fun ⟨input, hinput, hheld⟩ => hspends ⟨input, hinput, hkept.grows.holds hheld⟩⟩
  exact absurd (hpush output index data hmem hdata hne hheld).1 hfound

end Scan

/-! ## Sequences of calls -/

/-- A call on a filter -/
inductive Op where
  | insert (key : List UInt8)
  | insertOutpoint (outpoint : OutPoint)
  | isRelevantAndUpdate (tx : Transaction)
  | contains (key : List UInt8)
  | clear
  | reset (tweak : Nat)

/-- A filter, and the keys inserted since it was cleared. -/
structure Session where
  filter : BloomFilter
  keys : List (List UInt8)

namespace Op

def clears : Op → Bool
  | .clear | .reset _ => true
  | _ => false

def inserts : Op → Bool
  | .insert _ | .insertOutpoint _ => true
  | _ => false

theorem inserts_of_clears {op : Op} (h : op.clears = true) : op.inserts = false := by
  cases op <;> first | rfl | exact nomatch h

def run (lib : Bip37) (env : Env) (s : Session) : Op → Except Panic Session
  | .insert key => do
    let filter ← s.filter.insert lib key
    return ⟨filter, key :: s.keys⟩
  | .insertOutpoint outpoint => do
    let filter ← s.filter.insertOutpoint lib outpoint
    return ⟨filter, outpoint.consensusEncode :: s.keys⟩
  | .isRelevantAndUpdate tx => do
    let t ← s.filter.scan lib env tx
    return ⟨t.filter, t.inserted ++ s.keys⟩
  | .contains key => do
    let _ ← s.filter.contains lib key
    return s
  | .clear => .ok ⟨s.filter.clear, []⟩
  | .reset tweak => .ok ⟨s.filter.reset tweak, []⟩

end Op

namespace Session

variable {s t : Session} {op : Op} {ops : List Op}

/-- None of the keys has been lost. -/
def Holds (lib : Bip37) (s : Session) : Prop := ∀ key ∈ s.keys, s.filter.Holds lib key

/-- The calls go through, and no inserted key is denied after them. -/
def Remembers (lib : Bip37) (env : Env) (s : Session) (ops : List Op) : Prop :=
  ∃ t, ops.foldlM (Op.run lib env) s = .ok t
    ∧ ∀ key ∈ t.keys, t.filter.contains lib key = .ok true

/-- No bits, no keys -/
structure Cleared (s : Session) : Prop where
  data : s.filter.data = []
  isFull : s.filter.isFull = false
  isEmpty : s.filter.isEmpty = true
  keys : s.keys = []

theorem remembers_cons (h : op.run lib env s = .ok t) :
    s.Remembers lib env (op :: ops) ↔ t.Remembers lib env ops := by
  rw [Remembers, List.foldlM_cons, bind_of_ok h, Remembers]

theorem not_remembers_cons {p : Panic} (h : op.run lib env s = .error p) :
    ¬ s.Remembers lib env (op :: ops) := by
  rintro ⟨t, ht, -⟩
  rw [List.foldlM_cons, h] at ht
  exact nomatch ht

theorem Holds.gained (h : s.Holds lib) (hgrows : s.filter.Grows g) {keys : List (List UInt8)}
    (hkeys : ∀ key ∈ keys, g.Holds lib key) : Holds lib ⟨g, keys ++ s.keys⟩ := by
  intro key hkey
  rcases List.mem_append.1 hkey with hnew | hold
  · exact hkeys key hnew
  · exact hgrows.holds (h key hold)

/-- A call that does not clear goes through, and loses nothing. -/
theorem run_grows (env : Env) (hop : op.clears = false) (h : s.filter.Sized) (hs : s.Holds lib) :
    ∃ t, op.run lib env s = .ok t ∧ s.filter.Grows t.filter ∧ t.Holds lib := by
  match op with
  | .insert key =>
    exact ⟨_, by rw [Op.run, insert_eq h, bind_of_ok rfl]; rfl, grows_inserted lib key h,
      hs.gained (grows_inserted lib key h) (List.forall_mem_singleton.2 (holds_inserted lib key h))⟩
  | .insertOutpoint outpoint =>
    have hgrows := grows_inserted lib outpoint.consensusEncode h
    exact ⟨_, by rw [Op.run, insertOutpoint, insert_eq h, bind_of_ok rfl]; rfl, hgrows,
      hs.gained hgrows (List.forall_mem_singleton.2 (holds_inserted lib _ h))⟩
  | .isRelevantAndUpdate tx =>
    obtain ⟨t, ht, hgrows, hkeys, -⟩ := scan_kept lib env tx h
    exact ⟨_, by rw [Op.run, bind_of_ok ht]; rfl, hgrows, hs.gained hgrows hkeys⟩
  | .contains key =>
    exact ⟨s, by rw [Op.run, contains_eq h, bind_of_ok rfl]; rfl, Grows.refl _, hs⟩

/-- A filter without bits that says it is empty goes through every call but an insertion. -/
theorem Cleared.run (h : s.Cleared) (hfuncs : s.filter.hashFuncs ≠ 0) (hop : op.inserts = false) :
    ∃ t, op.run lib env s = .ok t ∧ t.Cleared ∧ t.filter.hashFuncs ≠ 0 := by
  obtain ⟨hdata, hfull, hempty, hkeys⟩ := h
  match op with
  | .isRelevantAndUpdate tx =>
    refine ⟨s, ?_, ⟨hdata, hfull, hempty, hkeys⟩, hfuncs⟩
    rw [Op.run, scan, if_neg (by simp [hfull]), if_pos hempty, bind_of_ok rfl]
    rfl
  | .contains key =>
    refine ⟨s, ?_, ⟨hdata, hfull, hempty, hkeys⟩, hfuncs⟩
    rw [Op.run, contains, if_neg (by simp [hfull]), if_pos hempty, bind_of_ok rfl]
    rfl
  | .clear => exact ⟨_, rfl, ⟨rfl, rfl, rfl, rfl⟩, hfuncs⟩
  | .reset tweak => exact ⟨_, rfl, ⟨rfl, rfl, rfl, rfl⟩, hfuncs⟩

end Session

/-- The remainder by the number of bits, of which there are none -/
theorem insert_panics (hdata : f.data = []) (hfull : f.isFull = false) (h : f.hashFuncs ≠ 0) :
    f.insert lib key = .error .bloomHash := by
  obtain ⟨n, hn⟩ := Nat.exists_eq_succ_of_ne_zero h
  rw [insert, if_neg (by simp [hfull]), hn, List.range_succ_eq_map, insertLoop, hash,
    if_pos (by simp [hdata])]
  rfl

/-- The data that a peer adds can panic the node, if it has loaded a filter without bits. -/
theorem handleFilterAdd_panics_iff {state : SpvState} (hfilter : state.spvFilter = some f)
    (hfull : f.isFull = false) : (∃ p, state.handleFilterAdd lib data = .error (.panic p)) ↔
      data.length ≤ MAX_SCRIPT_PUSH ∧ f.data = [] ∧ f.hashFuncs ≠ 0 := by
  unfold SpvState.handleFilterAdd
  rw [hfilter]
  by_cases hlong : data.length > MAX_SCRIPT_PUSH
  · exact iff_of_false (by simp [hlong]) (by omega)
  by_cases hsized : f.Sized
  · exact iff_of_false (by simp [hlong, insert_eq hsized]) (by grind [Sized])
  · obtain ⟨hdata, hfuncs⟩ := not_or.1 hsized
    have hnil := not_not.1 hdata
    exact iff_of_true ⟨.bloomHash, by simp [hlong, insert_panics hnil hfull hfuncs]⟩
      ⟨Nat.not_lt.1 hlong, hnil, hfuncs⟩

theorem contains_panics (hdata : f.data = []) (hfull : f.isFull = false)
    (hempty : f.isEmpty = false) (h : f.hashFuncs ≠ 0) :
    f.contains lib key = .error .bloomHash := by
  obtain ⟨n, hn⟩ := Nat.exists_eq_succ_of_ne_zero h
  rw [contains, if_neg (by simp [hfull]), if_neg (by simp [hempty]), hn, List.range_succ_eq_map,
    containsLoop, hash, if_pos (by simp [hdata])]
  rfl

namespace Session

variable {s t : Session} {op : Op} {ops : List Op}

theorem run_clears (lib : Bip37) (env : Env) (s : Session) (hop : op.clears = true) :
    ∃ t, op.run lib env s = .ok t ∧ t.Cleared ∧ t.filter.hashFuncs = s.filter.hashFuncs := by
  match op with
  | .clear => exact ⟨_, rfl, ⟨rfl, rfl, rfl, rfl⟩, rfl⟩
  | .reset tweak => exact ⟨_, rfl, ⟨rfl, rfl, rfl, rfl⟩, rfl⟩

theorem remembers_nil (h : s.filter.Sized) (hs : s.Holds lib) : s.Remembers lib env [] :=
  ⟨s, rfl, fun key hkey => by rw [contains_eq h, decide_eq_true (hs key hkey)]⟩

/-- Without hash functions there is no bit to read or to set. -/
theorem remembers_of_hashFuncs (h : s.filter.hashFuncs = 0) (hs : s.Holds lib) :
    s.Remembers lib env ops := by
  induction ops generalizing s with
  | nil => exact remembers_nil (.inr h) hs
  | cons op ops ih =>
    by_cases hop : op.clears
    · obtain ⟨t, ht, hcleared, hsame⟩ := run_clears lib env s hop
      rw [remembers_cons ht]
      exact ih (hsame.trans h) (by simp [Holds, hcleared.keys])
    · obtain ⟨t, ht, hgrows, hkeys⟩ := run_grows env (by simpa using hop) (.inr h) hs
      rw [remembers_cons ht]
      exact ih (hgrows.hashFuncs.trans h) hkeys

theorem Cleared.remembers_iff (h : s.Cleared) (hfuncs : s.filter.hashFuncs ≠ 0) :
    s.Remembers lib env ops ↔ ∀ op ∈ ops, op.inserts = false := by
  induction ops generalizing s with
  | nil => exact iff_of_true ⟨s, rfl, by simp [h.keys]⟩ (by simp)
  | cons op ops ih =>
    rw [List.forall_mem_cons]
    by_cases hop : op.inserts = false
    · obtain ⟨t, ht, hcleared, hfuncs'⟩ := h.run hfuncs hop
      rw [remembers_cons ht, ih hcleared hfuncs', and_iff_right hop]
    · have hpanic : op.run lib env s = .error .bloomHash := by
        match op with
        | .insert key => rw [Op.run, insert_panics h.data h.isFull hfuncs]; rfl
        | .insertOutpoint outpoint =>
          rw [Op.run, insertOutpoint, insert_panics h.data h.isFull hfuncs]; rfl
      exact iff_of_false (not_remembers_cons hpanic) fun hall => hop hall.1

/-- With bits, all goes well up to the first clearing, and after it if nothing is inserted. -/
theorem remembers_iff_of_data (hdata : s.filter.data ≠ []) (hfuncs : s.filter.hashFuncs ≠ 0)
    (hs : s.Holds lib) : s.Remembers lib env ops ↔
      ∀ op ∈ ops.dropWhile (fun op => !op.clears), op.inserts = false := by
  induction ops generalizing s with
  | nil => exact iff_of_true (remembers_nil (.inl hdata) hs) (by simp)
  | cons op ops ih =>
    by_cases hop : op.clears
    · obtain ⟨t, ht, hcleared, hsame⟩ := run_clears lib env s hop
      rw [remembers_cons ht, hcleared.remembers_iff (hsame.trans_ne hfuncs),
        List.dropWhile_cons_of_neg (by simpa using hop), List.forall_mem_cons,
        and_iff_right (Op.inserts_of_clears hop)]
    · obtain ⟨t, ht, hgrows, hkeys⟩ :=
        run_grows env (by simpa using hop) (.inl hdata) hs
      rw [remembers_cons ht, ih (hgrows.nonempty hdata) (hgrows.hashFuncs.trans_ne hfuncs) hkeys,
        List.dropWhile_cons_of_pos (by simpa using hop)]

/-- Without bits, nothing goes through a filter that does not say it is empty, but a clearing. -/
theorem remembers_iff_of_nil (hdata : s.filter.data = []) (hfull : s.filter.isFull = false)
    (hempty : s.filter.isEmpty = false) (hfuncs : s.filter.hashFuncs ≠ 0) (hkeys : s.keys = []) :
    s.Remembers lib env ops ↔ (∀ op ∈ ops.head?, op.clears = true)
      ∧ ∀ op ∈ ops.dropWhile (fun op => !op.clears), op.inserts = false := by
  cases ops with
  | nil => exact iff_of_true ⟨s, rfl, by simp [hkeys]⟩ (by simp)
  | cons op ops =>
    by_cases hop : op.clears
    · obtain ⟨t, ht, hcleared, hsame⟩ := run_clears lib env s hop
      rw [remembers_cons ht, hcleared.remembers_iff (hsame.trans_ne hfuncs),
        List.dropWhile_cons_of_neg (by simpa using hop), List.forall_mem_cons,
        and_iff_right (Op.inserts_of_clears hop), and_iff_right (by simpa using hop)]
    · have hpanic : op.run lib env s = .error .bloomHash := by
        have hcontains (key) : s.filter.contains lib key = .error .bloomHash :=
          contains_panics hdata hfull hempty hfuncs
        match op with
        | .insert key => rw [Op.run, insert_panics hdata hfull hfuncs]; rfl
        | .insertOutpoint outpoint =>
          rw [Op.run, insertOutpoint, insert_panics hdata hfull hfuncs]; rfl
        | .isRelevantAndUpdate tx =>
          rw [Op.run, scan, if_neg (by simp [hfull]), if_neg (by simp [hempty])]
          dsimp only
          rw [hcontains]
          rfl
        | .contains key => rw [Op.run, hcontains]; rfl
      exact iff_of_false (not_remembers_cons hpanic) fun hall => hop (hall.1 op rfl)

end Session

/-! ## Filters that a node has -/

/-- A filter that was made with bits, or that a peer has loaded. -/
inductive Obtained (lib : Bip37) : BloomFilter → Prop where
  | new {elements bits tweak : Nat} {flags : BloomFlags} {f : BloomFilter} :
      BloomFilter.new lib elements bits tweak flags = .ok f → f.data ≠ [] → Obtained lib f
  | load {state state' : SpvState} {fl : FilterLoad} {f : BloomFilter} :
      state.handleFilterLoad (ofFilterLoad fl) = .ok state' → state'.spvFilter = some f →
      Obtained lib f

theorem obtained_ofFilterLoad {fl : FilterLoad}
    (h : (ofFilterLoad fl).isWithinSizeConstraints = true) : Obtained lib (ofFilterLoad fl) :=
  @Obtained.load lib ⟨none, true⟩ ⟨some (ofFilterLoad fl), true⟩ fl _
    (by rw [SpvState.handleFilterLoad, h]; rfl) rfl

theorem Obtained.fresh (h : Obtained lib f) :
    f.isFull = false ∧ (f.data = [] → f.isEmpty = false) := by
  cases h with
  | new hnew hdata =>
    unfold BloomFilter.new at hnew
    dsimp only at hnew
    split_ifs at hnew
    obtain rfl := Except.ok.inj hnew
    exact ⟨rfl, fun h => absurd h hdata⟩
  | @load state _ fl _ hload hfilter =>
    unfold SpvState.handleFilterLoad at hload
    split_ifs at hload
    obtain rfl := Except.ok.inj hload
    obtain rfl := Option.some.inj hfilter
    exact ⟨rfl, fun _ => rfl⟩

/-- A filter forgets nothing and never divides by zero exactly if it has no hash functions, or
it had bits or is cleared first, and nothing is inserted once it has been cleared. -/
theorem obtained_remembers_iff (env : Env) (h : Obtained lib f) (ops : List Op) :
    Session.Remembers lib env ⟨f, []⟩ ops ↔
      f.hashFuncs = 0 ∨ (f.data = [] → ∀ op ∈ ops.head?, op.clears = true)
        ∧ ∀ op ∈ ops.dropWhile (fun op => !op.clears), op.inserts = false := by
  obtain ⟨hfull, hempty⟩ := h.fresh
  have hkeys : Session.Holds lib ⟨f, []⟩ := by simp [Session.Holds]
  by_cases hfuncs : f.hashFuncs = 0
  · exact iff_of_true (Session.remembers_of_hashFuncs hfuncs hkeys) (.inl hfuncs)
  rw [or_iff_right hfuncs]
  by_cases hdata : f.data = []
  · rw [Session.remembers_iff_of_nil hdata hfull (hempty hdata) hfuncs rfl,
      forall_prop_of_true hdata]
  · rw [Session.remembers_iff_of_data hdata hfuncs hkeys, and_iff_right fun h => absurd h hdata]

theorem obtained_remembers_iff_loaded :
    Session.Remembers Small.bip37 Small.scripted ⟨ofFilterLoad Small.loaded, []⟩
        [.insert [1], .isRelevantAndUpdate Small.paid, .clear, .contains [1], .reset 7] ↔
      (ofFilterLoad Small.loaded).hashFuncs = 0
        ∨ ((ofFilterLoad Small.loaded).data = [] → ∀ op ∈ some (Op.insert [1]), op.clears = true)
          ∧ ∀ op ∈ [Op.clear, .contains [1], .reset 7], op.inserts = false :=
  obtained_remembers_iff Small.scripted (obtained_ofFilterLoad (by decide)) _

/-- A peer may load a filter without bits, and a cleared filter has none left. -/
theorem no_bits_panics :
    (Obtained Small.bip37 ⟨[], false, false, 1, 0, .all⟩
      ∧ ¬ Session.Remembers Small.bip37 Small.scripted ⟨⟨[], false, false, 1, 0, .all⟩, []⟩
        [.contains [1]])
    ∧ Obtained Small.bip37 (ofFilterLoad Small.loaded)
      ∧ ¬ Session.Remembers Small.bip37 Small.scripted ⟨ofFilterLoad Small.loaded, []⟩
        [.clear, .insert [1]] := by
  refine ⟨⟨@obtained_ofFilterLoad _ ⟨[], 1, 0, .all⟩ (by decide), ?_⟩,
    obtained_ofFilterLoad (by decide), ?_⟩
  · refine Session.not_remembers_cons (p := .bloomHash) ?_
    rw [Op.run, contains_panics rfl rfl rfl (by decide)]
    rfl
  · rw [Session.remembers_cons rfl]
    refine Session.not_remembers_cons (p := .bloomHash) ?_
    rw [Op.run, insert_panics rfl rfl (by decide)]
    rfl

/-! ## Watched outputs -/

theorem Session.run_keeps {s : Session} {ops : List Op} (hops : ∀ op ∈ ops, op.clears = false)
    (h : s.filter.Sized) (hs : s.Holds lib) :
    ∃ t, ops.foldlM (Op.run lib env) s = .ok t ∧ s.filter.Grows t.filter := by
  induction ops generalizing s with
  | nil => exact ⟨s, rfl, Grows.refl _⟩
  | cons op ops ih =>
    obtain ⟨hop, hops⟩ := List.forall_mem_cons.1 hops
    obtain ⟨t, ht, hgrows, hkeys⟩ := run_grows env hop h hs
    obtain ⟨u, hu, hgrows'⟩ := ih hops (hgrows.sized h) hkeys
    exact ⟨u, by rw [List.foldlM_cons, bind_of_ok ht, hu], hgrows.trans hgrows'⟩

theorem contains_eq_true_iff (h : f.Sized) : f.contains lib key = .ok true ↔ f.Holds lib key := by
  rw [contains_eq h, Except.ok.injEq, decide_eq_true_iff]

theorem watches_of_flags {script : Script} (h : f.flags = .all ∨ f.flags = .pubkeyOnly
      ∧ (lib.isP2pk script = true ∨ Script.isMultisig env script = true)) :
    f.watches lib env script = true := by
  unfold watches
  rcases h with h | ⟨h, hscript⟩
  · rw [h]
  · rw [h]
    exact Bool.or_eq_true_iff.2 hscript

/-- As long as it is not cleared, a filter with bits goes on holding what it held. When it held
a key that an output pushes, the test of the transaction succeeds, and from then on that of
every transaction which spends the output. -/
theorem watched_spend_found (lib : Bip37) (env : Env) (hdata : f.data ≠ []) :
    (∀ ops : List Op, (∀ op ∈ ops, op.clears = false) →
      ∃ s, ops.foldlM (Op.run lib env) ⟨f, []⟩ = .ok s
        ∧ ∀ key, f.contains lib key = .ok true → s.filter.contains lib key = .ok true)
    ∧ ∀ tx i output data, tx.output[i]? = some output →
      some (.pushBytes data) ∈ env.instructions output.scriptPubkey → data ≠ [] →
      f.contains lib data = .ok true →
      (f.flags = .all ∨ f.flags = .pubkeyOnly ∧ (lib.isP2pk output.scriptPubkey = true
        ∨ Script.isMultisig env output.scriptPubkey = true)) →
      ∃ g, f.isRelevantAndUpdate lib env tx = .ok (g, true)
        ∧ ∀ ops : List Op, (∀ op ∈ ops, op.clears = false) →
          ∃ s, ops.foldlM (Op.run lib env) ⟨g, []⟩ = .ok s
            ∧ ∀ tx' : Transaction,
              (∃ input ∈ tx'.input, input.previousOutput = ⟨env.txid tx, i % 2 ^ 32⟩) →
              ∃ k, s.filter.isRelevantAndUpdate lib env tx' = .ok (k, true) := by
  have hsized : f.Sized := .inl hdata
  refine ⟨fun ops hops => ?_, fun tx i output data hi hpush hne hheld hflags => ?_⟩
  · obtain ⟨s, hs, hgrows⟩ := Session.run_keeps (s := ⟨f, []⟩) hops hsized (by simp [Session.Holds])
    refine ⟨s, hs, fun key hkey => ?_⟩
    rw [contains_eq_true_iff hsized] at hkey
    exact (contains_eq_true_iff (hgrows.sized hsized)).2 (hgrows.holds hkey)
  · obtain ⟨t, ht, hgrows, -, hscan, -⟩ := scan_kept lib env tx hsized
    obtain ⟨hfound, hwatched⟩ := hscan output i data (List.mem_zipIdx_iff_getElem?.2 hi) hpush hne
      ((contains_eq_true_iff hsized).1 hheld)
    have hspend := hwatched (watches_of_flags hflags)
    refine ⟨t.filter, by rw [isRelevantAndUpdate, ht, ← hfound]; rfl, fun ops hops => ?_⟩
    obtain ⟨s, hs, hgrows'⟩ := Session.run_keeps (s := ⟨t.filter, []⟩) hops (hgrows.sized hsized)
      (by simp [Session.Holds])
    refine ⟨s, hs, fun tx' ⟨input, hinput, hprev⟩ => ?_⟩
    obtain ⟨u, hu, -, -, -, hspends⟩ := scan_kept lib env tx' ((hgrows.trans hgrows').sized hsized)
    have hfound' := hspends ⟨input, hinput, by rw [hprev]; exact hgrows'.holds hspend⟩
    exact ⟨u.filter, by rw [isRelevantAndUpdate, hu, ← hfound']; rfl⟩

theorem watched_spend_found_paid :
    ∃ g s k, (ofFilterLoad Small.loaded).isRelevantAndUpdate Small.bip37 Small.scripted Small.paid
        = .ok (g, true)
      ∧ [Op.insert [1]].foldlM (Op.run Small.bip37 Small.scripted) ⟨g, []⟩ = .ok s
      ∧ s.filter.isRelevantAndUpdate Small.bip37 Small.scripted Small.spends = .ok (k, true) := by
  obtain ⟨-, hwatched⟩ :=
    @watched_spend_found (ofFilterLoad Small.loaded) Small.bip37 Small.scripted (by decide)
  obtain ⟨g, hg, hafter⟩ := hwatched Small.paid 0 _ Small.bloomKeys.headI rfl (by decide)
    (by decide) (by decide +kernel) (.inl rfl)
  obtain ⟨s, hs, hseen⟩ := hafter [.insert [1]] (by decide)
  obtain ⟨k, hk⟩ := hseen Small.spends ⟨_, List.mem_singleton_self _, rfl⟩
  exact ⟨g, s, k, hg, hs, hk⟩

end BitcoinNode.BloomFilter

import BitcoinNode.Blockstore.Records

/-!
# The downloaded set

`downloaded_set` reads the hashes off the keys of the block record column and strips the type of
the record from them, so that undo records count as downloaded blocks. The set is right as long
as no undo record is there without its block.
-/

namespace BitcoinNode

def RecordType.asU32 : RecordType → Nat
  | .block => 0
  | .undo => 1

/-- The encoding of `Key::BlockRecord`. -/
def blockRecordKey (recordType : RecordType) (hash : BlockHash) : List UInt8 :=
  Bytes.le 4 recordType.asU32 ++ hashBytes hash

/-- The hash that `downloaded_set` finds behind the first four bytes of a key. -/
def strippedHash (key : List UInt8) : BlockHash := hashFromSlice (key.drop 4)

theorem strippedHash_blockRecordKey (recordType : RecordType) {hash : BlockHash}
    (h : hash < 2 ^ 256) : strippedHash (blockRecordKey recordType hash) = hash := by
  rw [strippedHash, blockRecordKey, List.drop_left' (Bytes.length_le 4 _),
    hashFromSlice_hashBytes h]

def StoreOp.hash : StoreOp → BlockHash
  | .writeBlock hash _ => hash
  | .writeUndo hash _ => hash
  | .prune hash => hash

namespace FileBlockStore

def downloadedSet (store : FileBlockStore) : Finset BlockHash :=
  store.db.blockRecord.keys.image fun key => strippedHash (blockRecordKey key.1 key.2)

/-- The downloaded set holds the blocks of the store, and these can be read. -/
structure Exact (store : FileBlockStore) : Prop where
  has (hash : BlockHash) : hash ∈ store.downloadedSet ↔ store.has hash = true
  read (hash : BlockHash) :
    store.has hash = true ↔ ∃ data, store.readRawBlock hash = .ok (some data)

/-- Undo records are written behind their block, and a block with an undo record is not pruned. -/
def InOrder (store : FileBlockStore) : StoreOp → Prop
  | .writeBlock _ _ => True
  | .writeUndo hash _ => store.has hash = true
  | .prune hash => (.undo, hash) ∉ store.db.blockRecord

instance (store : FileBlockStore) (op : StoreOp) : Decidable (store.InOrder op) := by
  cases op <;> unfold InOrder <;> infer_instance

/-- The calls on a fresh store, each with the store that it found. -/
inductive Trace (options : BlockStoreOptions) :
    List (FileBlockStore × StoreOp) → FileBlockStore → Prop where
  | new : Trace options [] (new options)
  | step {past : List (FileBlockStore × StoreOp)} {store store' : FileBlockStore} {op : StoreOp} :
      Trace options past store → op.hash < 2 ^ 256 → store.step op = .ok store' →
      Trace options (past ++ [(store, op)]) store'

variable {options : BlockStoreOptions} {store store' : FileBlockStore} {records : Records}
  {past : List (FileBlockStore × StoreOp)} {op : StoreOp} {hash : BlockHash}

/-- The hashes of the records are those of 32 bytes. -/
def Fits (records : Records) : Prop := ∀ key ∈ records, key.2 < 2 ^ 256

theorem Fits.step (h : Fits records) (hop : op.hash < 2 ^ 256) : Fits (records.step op) := by
  have hwrite {recordType : RecordType} {data : List UInt8} :
      Fits (records.write (recordType, op.hash) data) := by
    rw [Records.write]
    split_ifs
    · exact h
    · intro key hkey
      rcases Finmap.mem_insert.1 hkey with rfl | hkey
      · exact hop
      · exact h key hkey
  cases op with
  | writeBlock | writeUndo => exact hwrite
  | prune => exact fun key hkey => h key (Finmap.mem_erase.1 hkey).2

theorem Trace.runs (h : Trace options past store) :
    ∃ records, Runs options store records ∧ Fits records := by
  induction h with
  | new => exact ⟨∅, .new, fun _ h => absurd h Finmap.notMem_empty⟩
  | step _ hop hstep ih =>
    obtain ⟨records, hruns, hfits⟩ := ih
    exact ⟨_, hruns.step hstep, hfits.step hop⟩

/-- Every undo record stands beside its block. -/
def Paired (records : Records) : Prop := ∀ hash, (.undo, hash) ∈ records → (.block, hash) ∈ records

theorem mem_downloadedSet (h : Runs options store records) (hfits : Fits records) :
    hash ∈ store.downloadedSet ↔ (.block, hash) ∈ records ∨ (.undo, hash) ∈ records := by
  simp only [downloadedSet, Finset.mem_image, Finmap.mem_keys, h.kept.live]
  constructor
  · rintro ⟨⟨recordType, hash⟩, hkey, rfl⟩
    rw [strippedHash_blockRecordKey recordType (hfits _ hkey)]
    cases recordType
    · exact .inl hkey
    · exact .inr hkey
  · rintro (hkey | hkey)
    · exact ⟨_, hkey, strippedHash_blockRecordKey .block (hfits _ hkey)⟩
    · exact ⟨_, hkey, strippedHash_blockRecordKey .undo (hfits _ hkey)⟩

theorem has_iff (h : Runs options store records) :
    store.has hash = true ↔ (.block, hash) ∈ records := by
  rw [has, decide_eq_true_iff, h.kept.live]

theorem has_iff_read (h : Runs options store records) :
    store.has hash = true ↔ ∃ data, store.readRawBlock hash = .ok (some data) := by
  rw [has_iff h]
  constructor
  · intro hkey
    obtain ⟨data, hdata⟩ := Finmap.mem_iff.1 hkey
    exact ⟨data, h.kept.read hdata⟩
  · rintro ⟨data, hread⟩
    by_contra hkey
    rw [← h.kept.live, ← Finmap.lookup_eq_none] at hkey
    rw [readRawBlock, read_eq_none hkey] at hread
    cases hread

theorem exact_iff_paired (h : Runs options store records) (hfits : Fits records) :
    Exact store ↔ Paired records := by
  constructor
  · intro hexact hash hundo
    exact (has_iff h).1 ((hexact.has hash).1 ((mem_downloadedSet h hfits).2 (.inr hundo)))
  · intro hpaired
    refine ⟨fun hash => ?_, fun hash => has_iff_read h⟩
    rw [mem_downloadedSet h hfits, has_iff h]
    exact or_iff_left_of_imp (hpaired hash)

theorem mem_write {key key' : RecordType × BlockHash} {data : List UInt8} :
    key' ∈ records.write key data ↔ key' = key ∨ key' ∈ records := by
  rw [Records.write]
  split_ifs with hkey
  · exact ⟨.inr, fun h => h.elim (fun h => h ▸ hkey) id⟩
  · exact Finmap.mem_insert

/-- A call keeps the undo records beside their blocks exactly when it is in order. -/
theorem paired_step_iff (h : Runs options store records) (hpaired : Paired records) :
    Paired (records.step op) ↔ store.InOrder op := by
  cases op with
  | writeBlock hash data =>
    refine iff_of_true (fun hash' hundo => ?_) trivial
    simp only [Records.step, mem_write] at hundo ⊢
    exact .inr (hpaired hash' (hundo.resolve_left (by simp)))
  | writeUndo hash data =>
    simp only [Paired, Records.step, mem_write, InOrder, has_iff h, Prod.mk.injEq, true_and,
      reduceCtorEq, false_and, false_or]
    exact ⟨fun hall => hall hash (.inl rfl),
      fun hhash hash' hundo => hundo.elim (fun heq => heq ▸ hhash) (hpaired hash')⟩
  | prune hash =>
    simp only [Paired, Records.step, Finmap.mem_erase, InOrder, h.kept.live, ne_eq, Prod.mk.injEq,
      true_and, reduceCtorEq, false_and, not_false_eq_true]
    exact ⟨fun hall hundo => (hall hash hundo).1 rfl, fun hundo hash' hundo' =>
      ⟨fun heq => hundo (heq ▸ hundo'), hpaired hash' hundo'⟩⟩

/-- Along the calls on a fresh store, the downloaded set is right in every store exactly when the
calls are in order. -/
theorem Trace.exact_iff (h : Trace options past store) :
    (Exact store ∧ ∀ call ∈ past, Exact call.1) ↔ ∀ call ∈ past, call.1.InOrder call.2 := by
  induction h with
  | new =>
    have hexact : Exact (FileBlockStore.new options) :=
      (exact_iff_paired .new fun _ h => absurd h Finmap.notMem_empty).2
        fun _ h => absurd h Finmap.notMem_empty
    simpa using hexact
  | @step past store store' op hpast hop hstep ih =>
    obtain ⟨records, hruns, hfits⟩ := hpast.runs
    rw [exact_iff_paired (hruns.step hstep) (hfits.step hop)]
    simp only [List.forall_mem_append, List.forall_mem_singleton, ← ih]
    constructor
    · rintro ⟨hpaired', hpast, hexact⟩
      exact ⟨⟨hexact, hpast⟩,
        (paired_step_iff hruns ((exact_iff_paired hruns hfits).1 hexact)).1 hpaired'⟩
    · rintro ⟨⟨hexact, hpast⟩, hop⟩
      exact ⟨(paired_step_iff hruns ((exact_iff_paired hruns hfits).1 hexact)).2 hop, hpast, hexact⟩

/-- A block with its undo record. -/
theorem Trace.exact_iff_undone : ∃ past store, Trace (.bitcoin 100 (by decide)) past store
    ∧ past.length = 2 ∧ Exact store := by
  have written : Trace (.bitcoin 100 (by decide)) _ _ :=
    @Trace.step _ _ _ _ (.writeUndo 7 [3])
      (@Trace.step _ _ _ _ (.writeBlock 7 [1, 2]) .new (by decide) rfl) (by decide) rfl
  exact ⟨_, _, written, rfl, (written.exact_iff.2 (by decide)).1⟩

/-- A pruned block counts as downloaded, and cannot be read. -/
theorem pruned_downloaded : ∃ past store, Trace (.bitcoin 100 (by decide)) past store
    ∧ past.map Prod.snd = [.writeBlock 7 [1, 2], .writeUndo 7 [3], .prune 7]
    ∧ 7 ∈ store.downloadedSet ∧ store.has 7 = false ∧ store.readRawBlock 7 = .ok none :=
  ⟨_, _, @Trace.step _ _ _ _ (.prune 7)
      (@Trace.step _ _ _ _ (.writeUndo 7 [3])
        (@Trace.step _ _ _ _ (.writeBlock 7 [1, 2]) .new (by decide) rfl) (by decide) rfl)
      (by decide) rfl,
    rfl, by decide +kernel, by decide +kernel, by decide +kernel⟩

end FileBlockStore

end BitcoinNode

import BitcoinNode.Blockstore.FileBlockStore
import BitcoinNode.Library.Result
import Mathlib.Order.CompletePartialOrder

/-!
# Records never mix

A data file is a list of frames, each a header and the data of a record. This module
describes the store by the frames of its files, pruned ones included, and shows that every
call keeps this picture: a live record stands in its own frame, writing appends a frame to
the last file or starts a new one, and a file goes away with its last live record.
-/

namespace BitcoinNode

/-- The data written under each hash and not pruned. -/
abbrev Records := FMap (RecordType × BlockHash) (List UInt8)

/-- A call on the store. -/
inductive StoreOp where
  | writeBlock (hash : BlockHash) (data : List UInt8)
  | writeUndo (hash : BlockHash) (data : List UInt8)
  | prune (hash : BlockHash)

namespace Records

/-- A key that is there keeps its data. -/
def write (records : Records) (key : RecordType × BlockHash) (data : List UInt8) : Records :=
  if key ∈ records then records else records.insert key data

/-- What a call means for the records. -/
def step (records : Records) : StoreOp → Records
  | .writeBlock hash data => records.write (.block, hash) data
  | .writeUndo hash data => records.write (.undo, hash) data
  | .prune hash => records.erase (.block, hash)

end Records

namespace FileBlockStore

open Bytes

def step (store : FileBlockStore) : StoreOp → Except (Stop DBError) FileBlockStore
  | .writeBlock hash data => store.writeBlock hash data
  | .writeUndo hash data => store.writeUndo hash data
  | .prune hash => .ok (store.prune hash).1

/-- The stores that calls make of a fresh one, beside what the calls mean. -/
inductive Runs (options : BlockStoreOptions) : FileBlockStore → Records → Prop where
  | new : Runs options (new options) ∅
  | step {store store' : FileBlockStore} {records : Records} {op : StoreOp} :
      Runs options store records → store.step op = .ok store' →
      Runs options store' (records.step op)

/-! ## Frames -/

/-- A record in a file, with the hash it was written under. -/
abbrev Frame := BlockHash × List UInt8

def frame (options : BlockStoreOptions) (recordType : RecordType) (f : Frame) : List UInt8 :=
  magicBytes options recordType f.1 f.2.length ++ f.2

/-- The contents of a file. -/
def encode (options : BlockStoreOptions) (recordType : RecordType) (frames : List Frame) :
    List UInt8 :=
  frames.flatMap (frame options recordType)

/-- The length of the contents of a file. -/
def size (recordType : RecordType) (frames : List Frame) : Nat :=
  (frames.map fun f => magicLength recordType + f.2.length).sum

variable {options : BlockStoreOptions} {recordType : RecordType} {hash hash' : BlockHash}
  {data data' : List UInt8} {before after fs : List Frame} {n : Nat}

@[simp] theorem length_magicBytes {length : Nat} :
    (magicBytes options recordType hash length).length = magicLength recordType := by
  cases recordType <;> simp [magicBytes, magicLength, hashBytes]

@[simp] theorem length_frame (f : Frame) :
    (frame options recordType f).length = magicLength recordType + f.2.length := by
  simp [frame]

@[simp] theorem length_encode : (encode options recordType fs).length = size recordType fs := by
  simp [encode, size, List.length_flatMap]

@[simp] theorem size_nil : size recordType [] = 0 := rfl

@[simp] theorem size_append :
    size recordType (before ++ after) = size recordType before + size recordType after := by
  simp [size]

@[simp] theorem size_cons (f : Frame) :
    size recordType (f :: fs) = magicLength recordType + f.2.length + size recordType fs := by
  simp [size]

theorem encode_append :
    encode options recordType (before ++ after)
      = encode options recordType before ++ encode options recordType after := by
  simp [encode]

theorem encode_cons (f : Frame) :
    encode options recordType (f :: fs)
      = frame options recordType f ++ encode options recordType fs := by
  simp [encode]

theorem encode_singleton (f : Frame) :
    encode options recordType [f] = frame options recordType f := by
  simp [encode]

/-- The data of a frame stands behind its header. -/
theorem slice_encode (before : List Frame) (hash : BlockHash) (data : List UInt8)
    (after : List Frame) :
    slice (encode options recordType (before ++ (hash, data) :: after))
      (size recordType before + magicLength recordType) data.length = data := by
  have hmid := @slice_middle (encode options recordType before
    ++ magicBytes options recordType hash data.length) (encode options recordType after) data
  simpa [encode_append, encode_cons, frame] using hmid

/-- Two frames of a file are one frame or do not overlap. -/
theorem frames_disjoint (recordType : RecordType) {before' after' : List Frame}
    (h : before ++ (hash, data) :: after = before' ++ (hash', data') :: after') :
    before = before' ∧ hash = hash' ∧ data = data'
      ∨ size recordType before + magicLength recordType + data.length ≤ size recordType before'
      ∨ size recordType before' + magicLength recordType + data'.length
        ≤ size recordType before := by
  rcases List.append_eq_append_iff.1 h with ⟨mid, rfl, hmid⟩ | ⟨mid, rfl, hmid⟩
  · cases mid with
    | nil =>
      simp only [List.nil_append, List.cons.injEq, Prod.mk.injEq] at hmid
      simp [hmid]
    | cons f mid =>
      simp only [List.cons_append, List.cons.injEq] at hmid
      obtain ⟨rfl, -⟩ := hmid
      right; left
      simp
      omega
  · cases mid with
    | nil =>
      simp only [List.nil_append, List.cons.injEq, Prod.mk.injEq] at hmid
      simp [hmid]
    | cons f mid =>
      simp only [List.cons_append, List.cons.injEq] at hmid
      obtain ⟨rfl, -⟩ := hmid
      right; right
      simp
      omega

/-! ## The picture of a store -/

/-- The keys of the live records of a file. -/
def members (store : FileBlockStore) (path : RecordType × Nat) :
    Finset (RecordType × BlockHash) :=
  store.db.blockRecord.keys.filter fun key => key.1 = path.1 ∧
    (store.db.blockRecord.lookup key).map BlockRecord.file = some path.2

/-- The store holds the frames of its files; the live records stand in frames of their own. -/
structure Layout (store : FileBlockStore) (frames : FMap (RecordType × Nat) (List Frame))
    (records : Records) : Prop where
  files {p : RecordType × Nat} :
    store.files.lookup p = (frames.lookup p).map (encode store.options p.1)
  file {p : RecordType × Nat} {fs : List Frame} : frames.lookup p = some fs →
    store.db.file.lookup p = some
      ⟨(members store p).card, size p.1 fs, store.options.maxFileLength⟩
    ∧ size p.1 fs ≤ store.options.maxFileLength ∧ (members store p).Nonempty
  no_file {p : RecordType × Nat} : frames.lookup p = none → store.db.file.lookup p = none
  located {key : RecordType × BlockHash} {r : BlockRecord} :
    store.db.blockRecord.lookup key = some r → ∃ before data after,
      frames.lookup (key.1, r.file) = some (before ++ (key.2, data) :: after)
      ∧ r.position = size key.1 before + magicLength key.1 ∧ r.length = data.length
      ∧ records.lookup key = some data
  live {key : RecordType × BlockHash} : key ∈ records → key ∈ store.db.blockRecord
  last {p : RecordType × Nat} : p ∈ frames →
    ∃ last, store.db.lastFile.lookup p.1 = some last ∧ p.2 ≤ last

variable {store store' : FileBlockStore} {frames : FMap (RecordType × Nat) (List Frame)}
  {records : Records} {key : RecordType × BlockHash} {p : RecordType × Nat} {r : BlockRecord}

theorem mem_members : key ∈ members store p ↔ key.1 = p.1 ∧
    ∃ r, store.db.blockRecord.lookup key = some r ∧ r.file = p.2 := by
  simp only [members, Finset.mem_filter, Finmap.mem_keys, Option.map_eq_some_iff]
  constructor
  · rintro ⟨-, hkey, r, hr⟩
    exact ⟨hkey, r, hr⟩
  · rintro ⟨hkey, r, hr, hfile⟩
    exact ⟨Finmap.mem_of_lookup_eq_some hr, hkey, r, hr, hfile⟩

theorem Layout.new : Layout (new options) ∅ ∅ where
  files := rfl
  file h := by cases h
  no_file _ := rfl
  located h := by cases h
  live h := absurd h Finmap.notMem_empty
  last h := absurd h Finmap.notMem_empty

/-! ## Reading -/

/-- A live record reads back as its data. -/
theorem Layout.read (h : Layout store frames records)
    (hkey : records.lookup (recordType, hash) = some data) :
    store.read recordType hash 0 none = .ok (some data) := by
  obtain ⟨r, hr⟩ := Finmap.mem_iff.1 (h.live (Finmap.mem_of_lookup_eq_some hkey))
  obtain ⟨before, data', after, hfs, hpos, hlen, hdata⟩ := h.located hr
  obtain rfl := Option.some.inj (hdata.symm.trans hkey)
  have hfile : store.files.lookup (recordType, r.file) = _ := h.files.trans (by rw [hfs])
  have hslice := @slice_encode store.options recordType before hash data' after
  have hle : r.position + r.length
      ≤ (encode store.options recordType (before ++ (hash, data') :: after)).length := by
    simp [hpos, hlen]
    omega
  have hmax : size recordType (before ++ (hash, data') :: after) ≤ store.options.maxFileLength :=
    (h.file hfs).2.1
  have hmaxlt := store.options.maxFileLength_lt
  rw [← hpos, ← hlen] at hslice
  rw [read_to_end hr, if_neg (by omega),
    read_of_le hr hfile hle (by rw [length_encode]; dsimp only; omega) (by omega), Nat.add_zero,
    Nat.sub_zero, hslice]

/-! ## Writing -/

/-- The frames of the file that comes out of `allocate`, none when it is a new one. -/
def framesAt (frames : FMap (RecordType × Nat) (List Frame)) (p : RecordType × Nat) :
    List Frame :=
  (frames.lookup p).getD []

theorem Layout.members_empty (h : Layout store frames records) (hp : frames.lookup p = none) :
    members store p = ∅ := by
  rw [Finset.eq_empty_iff_forall_notMem]
  intro key hkey
  obtain ⟨ht, r, hr, hfile⟩ := mem_members.1 hkey
  obtain ⟨before, data, after, hfs, -⟩ := h.located hr
  rw [ht, hfile, hp] at hfs
  cases hfs

theorem Layout.lookup_succ (h : Layout store frames records)
    (hlast : (store.db.lastFile.lookup p.1).getD 0 < p.2) : frames.lookup p = none := by
  by_contra hp
  obtain ⟨last, hl, hle⟩ := h.last (Finmap.lookup_isSome.1 (Option.isSome_iff_ne_none.2 hp))
  simp only [hl, Option.getD_some] at hlast
  omega

/-- `allocate` finds room behind the frames of a file, or starts a file. -/
theorem Layout.allocate (h : Layout store frames records) (recordType : RecordType)
    (hlen : n ≤ store.options.maxFileLength) :
    ∃ fileno files, store.allocate recordType n = .ok (fileno,
        ⟨(members store (recordType, fileno)).card,
          size recordType (framesAt frames (recordType, fileno)),
          store.options.maxFileLength⟩, files)
      ∧ (∀ q, files.lookup q = if q = (recordType, fileno)
          then some (encode store.options recordType (framesAt frames (recordType, fileno)))
          else store.files.lookup q)
      ∧ size recordType (framesAt frames (recordType, fileno)) + n ≤ store.options.maxFileLength
      ∧ (store.db.lastFile.lookup recordType).getD 0 ≤ fileno := by
  obtain ⟨last, hlast⟩ : ∃ last, (store.db.lastFile.lookup recordType).getD 0 = last := ⟨_, rfl⟩
  have hnew (fileno : Nat) (hno : frames.lookup (recordType, fileno) = none) (q) :
      (store.files.insert (recordType, fileno) []).lookup q = if q = (recordType, fileno)
        then some (encode store.options recordType (framesAt frames (recordType, fileno)))
        else store.files.lookup q := by
    by_cases hq : q = (recordType, fileno)
    · subst hq
      simp [framesAt, hno, encode]
    · simp [hq, Finmap.lookup_insert_of_ne _ hq]
  unfold FileBlockStore.allocate
  rw [if_neg (by omega), hlast]
  cases hfs : frames.lookup (recordType, last) with
  | none =>
    refine ⟨last, _, ?_, hnew last hfs, ?_, le_refl _⟩
    · simp [h.no_file hfs, FileRecord.empty, framesAt, hfs, h.members_empty hfs,
        show ¬ store.options.maxFileLength < n by omega]
    · simpa [framesAt, hfs] using hlen
  | some fs =>
    obtain ⟨hfile, hmax, -⟩ := h.file hfs
    by_cases hroom : size recordType fs + n ≤ store.options.maxFileLength
    · refine ⟨last, store.files, ?_, ?_, ?_, le_refl _⟩
      · simp [hfile, framesAt, hfs, show ¬ store.options.maxFileLength < size recordType fs + n by
          omega]
      · intro q
        split_ifs with hq
        · subst hq
          simp [h.files, framesAt, hfs]
        · rfl
      · simpa [framesAt, hfs] using hroom
    · have hno : frames.lookup (recordType, last + 1) = none :=
        h.lookup_succ (by simp only [hlast]; omega)
      refine ⟨last + 1, _, ?_, hnew _ hno, ?_, by omega⟩
      · simp [hfile, FileRecord.empty, framesAt, hno, h.members_empty hno,
          show store.options.maxFileLength < size recordType fs + n by omega]
      · simpa [framesAt, hno] using hlen

theorem members_write {q : RecordType × Nat} (hkey : key ∉ store.db.blockRecord)
    (hrec : store'.db.blockRecord = store.db.blockRecord.insert key r) :
    members store' q
      = if q = (key.1, r.file) then insert key (members store q) else members store q := by
  ext x
  have hx : x ∈ members store' q ↔ x = key ∧ q = (key.1, r.file) ∨ x ∈ members store q := by
    by_cases hxk : x = key
    · subst hxk
      simp only [mem_members, hrec, Finmap.lookup_insert, Option.some.injEq, exists_eq_left',
        Finmap.lookup_eq_none.2 hkey, reduceCtorEq, false_and, exists_false, and_false, or_false,
        true_and, Prod.ext_iff]
      tauto
    · simp [mem_members, hrec, hxk, Finmap.lookup_insert_of_ne]
  rw [hx]
  split_ifs with hq <;> simp [hq]

theorem encode_snoc (f : Frame) :
    encode options recordType (fs ++ [f])
      = encode options recordType fs ++ frame options recordType f := by
  simp [encode]

/-- What a write does to the index and the files. -/
structure Appended (store store' : FileBlockStore) (frames : FMap (RecordType × Nat) (List Frame))
    (recordType : RecordType) (hash : BlockHash) (data : List UInt8) (fileno : Nat) : Prop where
  options : store'.options = store.options
  files {q : RecordType × Nat} : store'.files.lookup q = if q = (recordType, fileno)
    then some (encode store.options recordType
      (framesAt frames (recordType, fileno) ++ [(hash, data)]))
    else store.files.lookup q
  blockRecord : store'.db.blockRecord = store.db.blockRecord.insert (recordType, hash)
    ⟨fileno, size recordType (framesAt frames (recordType, fileno)) + magicLength recordType,
      data.length⟩
  file : store'.db.file = store.db.file.insert (recordType, fileno)
    ⟨(members store (recordType, fileno)).card + 1,
      size recordType (framesAt frames (recordType, fileno) ++ [(hash, data)]),
      store.options.maxFileLength⟩
  lastFile : store'.db.lastFile = store.db.lastFile.insert recordType fileno
  room : size recordType (framesAt frames (recordType, fileno) ++ [(hash, data)])
    ≤ store.options.maxFileLength
  last : (store.db.lastFile.lookup recordType).getD 0 ≤ fileno

/-- Writing a record that is not there appends a frame. -/
theorem Layout.write_new (h : Layout store frames records)
    (hkey : (recordType, hash) ∉ store.db.blockRecord)
    (hlen : data.length + magicLength recordType ≤ store.options.maxFileLength) :
    ∃ store' fileno, store.write recordType hash data = .ok store'
      ∧ Appended store store' frames recordType hash data fileno := by
  obtain ⟨fileno, files, halloc, hfiles, hroom, hlast⟩ := h.allocate recordType hlen
  have hwrite := hfiles (recordType, fileno)
  rw [if_pos rfl] at hwrite
  simp only [write, hkey, if_false, halloc, bind, Except.bind, hwrite, pure, Except.pure]
  refine ⟨_, fileno, rfl, rfl, ?_, rfl, ?_, rfl, ?_, hlast⟩
  · intro q
    by_cases hq : q = (recordType, fileno)
    · subst hq
      rw [Finmap.lookup_insert, if_pos rfl, encode_snoc, frame, ← @length_encode store.options,
        writeAt_length]
    · simp [hfiles, hq, Finmap.lookup_insert_of_ne]
  · simp [Nat.add_comm]
  · simp
    omega

/-- A write keeps the picture. -/
theorem Layout.append {fileno : Nat} (h : Layout store frames records)
    (hkey : (recordType, hash) ∉ store.db.blockRecord)
    (happ : Appended store store' frames recordType hash data fileno) :
    Layout store' (frames.insert (recordType, fileno)
        (framesAt frames (recordType, fileno) ++ [(hash, data)]))
      (records.insert (recordType, hash) data) := by
  have hmem (q) : members store' q = if q = (recordType, fileno)
      then insert (recordType, hash) (members store q) else members store q :=
    members_write hkey happ.blockRecord
  have hnot : (recordType, hash) ∉ members store (recordType, fileno) := fun hm => by
    obtain ⟨-, r, hr, -⟩ := mem_members.1 hm
    exact hkey (Finmap.mem_of_lookup_eq_some hr)
  constructor
  case files =>
    intro q
    by_cases hq : q = (recordType, fileno)
    · subst hq
      simp [happ.files, happ.options]
    · simp [happ.files, happ.options, hq, Finmap.lookup_insert_of_ne, h.files]
  case file =>
    intro q fs hfs
    by_cases hq : q = (recordType, fileno)
    · subst hq
      rw [Finmap.lookup_insert] at hfs
      obtain rfl := Option.some.inj hfs
      rw [happ.file, Finmap.lookup_insert, hmem, if_pos rfl, Finset.card_insert_of_notMem hnot,
        happ.options]
      exact ⟨rfl, happ.room, Finset.insert_nonempty ..⟩
    · rw [Finmap.lookup_insert_of_ne _ hq] at hfs
      rw [happ.file, Finmap.lookup_insert_of_ne _ hq, hmem, if_neg hq, happ.options]
      exact h.file hfs
  case no_file =>
    intro q hfs
    by_cases hq : q = (recordType, fileno)
    · subst hq
      rw [Finmap.lookup_insert] at hfs
      cases hfs
    · rw [Finmap.lookup_insert_of_ne _ hq] at hfs
      rw [happ.file, Finmap.lookup_insert_of_ne _ hq, h.no_file hfs]
  case located =>
    intro key r hr
    rw [happ.blockRecord] at hr
    by_cases hk : key = (recordType, hash)
    · subst hk
      rw [Finmap.lookup_insert] at hr
      obtain rfl := Option.some.inj hr
      exact ⟨_, data, [], Finmap.lookup_insert _, rfl, rfl, Finmap.lookup_insert _⟩
    · rw [Finmap.lookup_insert_of_ne _ hk] at hr
      obtain ⟨before, data', after, hfs, hpos, hlength, hdata⟩ := h.located hr
      rw [Finmap.lookup_insert_of_ne _ hk]
      by_cases hq : (key.1, r.file) = (recordType, fileno)
      · refine ⟨before, data', after ++ [(hash, data)], ?_, hpos, hlength, hdata⟩
        rw [hq] at hfs ⊢
        simp [framesAt, hfs]
      · rw [Finmap.lookup_insert_of_ne _ hq]
        exact ⟨before, data', after, hfs, hpos, hlength, hdata⟩
  case live =>
    intro key hk
    rw [happ.blockRecord]
    rcases Finmap.mem_insert.1 hk with rfl | hk
    · exact Finmap.mem_insert.2 (.inl rfl)
    · exact Finmap.mem_insert.2 (.inr (h.live hk))
  case last =>
    intro q hq
    rw [happ.lastFile]
    rcases Finmap.mem_insert.1 hq with rfl | hq
    · exact ⟨fileno, Finmap.lookup_insert _, le_refl _⟩
    · obtain ⟨last, hl, hle⟩ := h.last hq
      by_cases ht : q.1 = recordType
      · have hlast := happ.last
        subst ht
        simp only [hl, Option.getD_some] at hlast
        exact ⟨fileno, Finmap.lookup_insert _, by omega⟩
      · rw [Finmap.lookup_insert_of_ne _ ht]
        exact ⟨last, hl, hle⟩

/-! ## Pruning -/

theorem members_erase {q : RecordType × Nat}
    (hrec : store'.db.blockRecord = store.db.blockRecord.erase key) :
    members store' q = (members store q).erase key := by
  ext x
  simp only [mem_members, hrec, FMap.lookup_erase_eq_some, Finset.mem_erase]
  tauto

theorem Layout.lookup_of_mem (h : Layout store frames records)
    (hkey : key ∈ store.db.blockRecord) : ∃ data, records.lookup key = some data := by
  obtain ⟨r, hr⟩ := Finmap.mem_iff.1 hkey
  obtain ⟨before, data, after, -, -, -, hdata⟩ := h.located hr
  exact ⟨data, hdata⟩

/-- Pruning a record that is not there changes nothing. -/
theorem Layout.prune_of_notMem (h : Layout store frames records)
    (hkey : (recordType, hash) ∉ store.db.blockRecord) :
    store.pruneRecord recordType hash = (store, false)
      ∧ records.erase (recordType, hash) = records := by
  have hrec : (recordType, hash) ∉ records := fun hk => hkey (h.live hk)
  exact ⟨by simp [pruneRecord, Finmap.lookup_eq_none.2 hkey], FMap.erase_of_notMem hrec⟩

/-- What pruning a record does to the index and the files. -/
structure Pruned (store store' : FileBlockStore) (frames : FMap (RecordType × Nat) (List Frame))
    (key : RecordType × BlockHash) (p : RecordType × Nat) : Prop where
  options : store'.options = store.options
  files {q : RecordType × Nat} : store'.files.lookup q
    = if q = p ∧ (members store p).card = 1 then none else store.files.lookup q
  blockRecord : store'.db.blockRecord = store.db.blockRecord.erase key
  file {q : RecordType × Nat} : store'.db.file.lookup q
    = if q = p then if (members store p).card = 1 then none
        else some ⟨(members store p).card - 1, size p.1 (framesAt frames p),
          store.options.maxFileLength⟩
      else store.db.file.lookup q
  lastFile : store'.db.lastFile = store.db.lastFile

theorem Layout.pruned (h : Layout store frames records)
    (hr : store.db.blockRecord.lookup (recordType, hash) = some r) :
    Pruned store (store.pruneRecord recordType hash).1 frames (recordType, hash)
      (recordType, r.file) := by
  obtain ⟨before, data, after, hfs, -⟩ := h.located hr
  obtain ⟨p, hp⟩ : ∃ p, p = (recordType, r.file) := ⟨_, rfl⟩
  have hfs' : frames.lookup p = some (framesAt frames p) := by
    rw [hp]
    simp [framesAt, hfs]
  obtain ⟨hfile, -, hne⟩ := h.file hfs'
  have hpos := Finset.card_pos.2 hne
  have hlast : (members store p).card - 1 = 0 ↔ (members store p).card = 1 := by omega
  have hfile' : store.db.file.lookup (recordType, r.file) = _ := hp ▸ hfile
  simp only [pruneRecord, hr, hfile', ← hp, hlast]
  by_cases hc : (members store p).card = 1
  · refine ⟨rfl, fun {q} => ?_, rfl, fun {q} => ?_, rfl⟩ <;> by_cases hq : q = p
    · subst hq
      simp [hc]
    · simp [hc, hq, Finmap.lookup_erase_ne]
    · subst hq
      simp [hc]
    · simp [hc, hq, Finmap.lookup_erase_ne]
  · refine ⟨rfl, fun {q} => ?_, rfl, fun {q} => ?_, rfl⟩
    · simp [hc]
    · by_cases hq : q = p
      · subst hq
        simp [hc, show q.1 = recordType by rw [hp]]
      · simp [hc, hq, Finmap.lookup_insert_of_ne]

/-- Pruning a record takes its file away when no other record is live there. -/
theorem Layout.prune {p : RecordType × Nat} (h : Layout store frames records)
    (hkey : key ∈ members store p) (hpr : Pruned store store' frames key p) :
    Layout store' (if (members store p).card = 1 then frames.erase p else frames)
      (records.erase key) := by
  have hmem (q) : members store' q = (members store q).erase key := members_erase hpr.blockRecord
  have hout {q} (hq : q ≠ p) : key ∉ members store q := fun hm => by
    obtain ⟨ht, r, hr, hfile⟩ := mem_members.1 hkey
    obtain ⟨ht', r', hr', hfile'⟩ := mem_members.1 hm
    obtain rfl := Option.some.inj (hr.symm.trans hr')
    exact hq (Prod.ext (ht'.symm.trans ht) (hfile'.symm.trans hfile))
  have hframes (q) : (if (members store p).card = 1 then frames.erase p else frames).lookup q
      = if q = p ∧ (members store p).card = 1 then none else frames.lookup q := by
    by_cases hq : q = p
    · subst hq
      by_cases hc : (members store q).card = 1 <;> simp [hc]
    · by_cases hc : (members store p).card = 1 <;> simp [hc, hq, Finmap.lookup_erase_ne]
  have hmems {q} (hq : q ≠ p) : members store' q = members store q := by
    rw [hmem, Finset.erase_eq_of_notMem (hout hq)]
  constructor
  case files =>
    intro q
    rw [hpr.files, hframes, hpr.options]
    split_ifs
    · rfl
    · exact h.files
  case file =>
    intro q fs hfs
    rw [hframes] at hfs
    split_ifs at hfs with hc
    obtain ⟨hfile, hmax, hne⟩ := h.file hfs
    by_cases hq : q = p
    · subst hq
      have hcard : (members store' q).card = (members store q).card - 1 := by
        rw [hmem, Finset.card_erase_of_mem hkey]
      have hpos := Finset.card_pos.2 hne
      refine ⟨?_, hpr.options ▸ hmax, Finset.card_pos.1 (by grind)⟩
      rw [hpr.file, if_pos rfl, if_neg (by tauto), hcard, hpr.options]
      simp [framesAt, hfs]
    · rw [hpr.file, if_neg hq, hmems hq, hpr.options]
      exact ⟨hfile, hmax, hne⟩
  case no_file =>
    intro q hfs
    rw [hframes] at hfs
    rw [hpr.file]
    split_ifs at hfs with hc
    · rw [if_pos hc.1, if_pos hc.2]
    · have hq : q ≠ p := fun hq => by
        subst hq
        rw [h.members_empty hfs] at hkey
        exact absurd hkey (Finset.notMem_empty _)
      rw [if_neg hq, h.no_file hfs]
  case located =>
    intro x r hx
    rw [hpr.blockRecord, FMap.lookup_erase_eq_some] at hx
    obtain ⟨before, data, after, hfs, hpos, hlen, hdata⟩ := h.located hx.2
    refine ⟨before, data, after, ?_, hpos, hlen, ?_⟩
    · rw [hframes, if_neg, hfs]
      rintro ⟨hq, hc⟩
      -- the file would go with this record, and another one is live in it
      have hxmem : x ∈ members store p := by
        rw [← hq]
        exact mem_members.2 ⟨rfl, r, hx.2, rfl⟩
      exact hx.1 (Finset.card_le_one.1 hc.le x hxmem key hkey)
    · rw [Finmap.lookup_erase_ne hx.1, hdata]
  case live =>
    intro x hx
    rw [hpr.blockRecord]
    obtain ⟨hne, hin⟩ := Finmap.mem_erase.1 hx
    exact Finmap.mem_erase.2 ⟨hne, h.live hin⟩
  case last =>
    intro q hq
    rw [hpr.lastFile]
    obtain ⟨fs, hfs⟩ := Finmap.mem_iff.1 hq
    rw [hframes] at hfs
    split_ifs at hfs
    exact h.last (Finmap.mem_of_lookup_eq_some hfs)

/-! ## Runs -/

theorem write_of_mem (hkey : (recordType, hash) ∈ store.db.blockRecord) :
    store.write recordType hash data = .ok store := by
  simp [write, hkey]

/-- A write of a record that fits into a file goes through. -/
theorem Layout.exists_write (h : Layout store frames records)
    (hlen : data.length + magicLength recordType ≤ store.options.maxFileLength) :
    ∃ store', store.write recordType hash data = .ok store' := by
  by_cases hkey : (recordType, hash) ∈ store.db.blockRecord
  · exact ⟨store, write_of_mem hkey⟩
  · obtain ⟨store', fileno, hw, -⟩ := h.write_new hkey hlen
    exact ⟨store', hw⟩

/-- A record that is written fits into a file. -/
theorem length_of_write (hkey : (recordType, hash) ∉ store.db.blockRecord)
    (h : store.write recordType hash data = .ok store') :
    data.length + magicLength recordType ≤ store.options.maxFileLength := by
  by_contra hlen
  rw [write, if_neg hkey] at h
  simp [allocate, show store.options.maxFileLength < data.length + magicLength recordType by omega,
    bind, Except.bind] at h

theorem Layout.write (h : Layout store frames records)
    (hw : store.write recordType hash data = .ok store') : store'.options = store.options
      ∧ ∃ frames', Layout store' frames' (records.write (recordType, hash) data) := by
  by_cases hkey : (recordType, hash) ∈ store.db.blockRecord
  · obtain ⟨data', hdata⟩ := h.lookup_of_mem hkey
    obtain rfl := Except.ok.inj ((write_of_mem hkey).symm.trans hw)
    refine ⟨rfl, frames, ?_⟩
    rwa [Records.write, if_pos (Finmap.mem_of_lookup_eq_some hdata)]
  · obtain ⟨store'', fileno, hok, happ⟩ := h.write_new hkey (length_of_write hkey hw)
    obtain rfl := Except.ok.inj (hok.symm.trans hw)
    rw [Records.write, if_neg fun hk => hkey (h.live hk)]
    exact ⟨happ.options, _, h.append hkey happ⟩

/-- Every call keeps the picture. -/
theorem Layout.step {op : StoreOp} (h : Layout store frames records)
    (hstep : store.step op = .ok store') :
    store'.options = store.options ∧ ∃ frames', Layout store' frames' (records.step op) := by
  cases op with
  | writeBlock hash data => exact h.write hstep
  | writeUndo hash data => exact h.write hstep
  | prune hash =>
    obtain rfl := Except.ok.inj hstep
    cases hr : store.db.blockRecord.lookup (.block, hash) with
    | none =>
      obtain ⟨hsame, herase⟩ := h.prune_of_notMem (Finmap.lookup_eq_none.1 hr)
      rw [FileBlockStore.prune, hsame, Records.step, herase]
      exact ⟨rfl, frames, h⟩
    | some r =>
      have hpr := h.pruned hr
      have hmem : (RecordType.block, hash) ∈ members store (.block, r.file) :=
        mem_members.2 ⟨rfl, r, hr, rfl⟩
      exact ⟨hpr.options, _, h.prune hmem hpr⟩

/-- Every run has a picture. -/
theorem Runs.layout (h : Runs options store records) :
    store.options = options ∧ ∃ frames, Layout store frames records := by
  induction h with
  | new => exact ⟨rfl, ∅, .new⟩
  | step _ hstep ih =>
    obtain ⟨hopt, frames, hl⟩ := ih
    obtain ⟨hopt', hl'⟩ := hl.step hstep
    exact ⟨hopt'.trans hopt, hl'⟩

/-- The bytes of a record in its file, header and data. -/
def extent (recordType : RecordType) (r : BlockRecord) : Set Nat :=
  Set.Ico (r.position - magicLength recordType) (r.position + r.length)

/-- The records of a store are kept apart and whole. -/
structure Kept (options : BlockStoreOptions) (store : FileBlockStore) (records : Records) :
    Prop where
  live {key : RecordType × BlockHash} : key ∈ store.db.blockRecord ↔ key ∈ records
  read {key : RecordType × BlockHash} {data : List UInt8} : records.lookup key = some data →
    store.read key.1 key.2 0 none = .ok (some data)
  below {key : RecordType × BlockHash} {r : BlockRecord} :
    store.db.blockRecord.lookup key = some r → magicLength key.1 ≤ r.position
      ∧ ∃ fileRecord, store.db.file.lookup (key.1, r.file) = some fileRecord
        ∧ r.position + r.length ≤ fileRecord.used ∧ fileRecord.used ≤ options.maxFileLength
  apart {recordType : RecordType} {hash hash' : BlockHash} {r r' : BlockRecord} :
    store.db.blockRecord.lookup (recordType, hash) = some r →
    store.db.blockRecord.lookup (recordType, hash') = some r' → hash ≠ hash' → r.file = r'.file →
    Disjoint (extent recordType r) (extent recordType r')
  blocks {p : RecordType × Nat} {fileRecord : FileRecord} :
    store.db.file.lookup p = some fileRecord → fileRecord.blocks = (members store p).card
  prune {hash : BlockHash} {p : RecordType × Nat} : p ∈ store.files →
    p ∉ (store.prune hash).1.files → members (store.prune hash).1 p = ∅
  write {recordType : RecordType} {hash : BlockHash} {data : List UInt8} :
    data.length + magicLength recordType ≤ options.maxFileLength →
    ∃ store', store.write recordType hash data = .ok store'

theorem Layout.below (h : Layout store frames records)
    (hr : store.db.blockRecord.lookup key = some r) : magicLength key.1 ≤ r.position
      ∧ ∃ fileRecord, store.db.file.lookup (key.1, r.file) = some fileRecord
        ∧ r.position + r.length ≤ fileRecord.used
        ∧ fileRecord.used ≤ store.options.maxFileLength := by
  obtain ⟨before, data, after, hfs, hpos, hlen, -⟩ := h.located hr
  obtain ⟨hfile, hmax, -⟩ := h.file hfs
  refine ⟨by omega, _, hfile, ?_, hmax⟩
  simp
  omega

theorem Layout.apart {r' : BlockRecord} (h : Layout store frames records)
    (hr : store.db.blockRecord.lookup (recordType, hash) = some r)
    (hr' : store.db.blockRecord.lookup (recordType, hash') = some r') (hne : hash ≠ hash')
    (hfile : r.file = r'.file) : Disjoint (extent recordType r) (extent recordType r') := by
  obtain ⟨before, data, after, hfs, hpos, hlen, -⟩ := h.located hr
  obtain ⟨before', data', after', hfs', hpos', hlen', -⟩ := h.located hr'
  rw [← hfile, hfs, Option.some.injEq] at hfs'
  rw [extent, extent, Set.disjoint_left]
  intro x hx hx'
  simp only [Set.mem_Ico] at hx hx' hpos hpos'
  obtain ⟨-, heq, -⟩ | hle | hle := frames_disjoint recordType hfs'
  · exact hne heq
  · omega
  · omega

/-- Along every run of calls on a fresh store, the records are kept apart and whole: what was
written and not pruned reads back, live records do not overlap and stand below what is used of
their file, the file records count them, and only a file without live records goes away. -/
theorem Runs.kept (h : Runs options store records) : Kept options store records := by
  obtain ⟨rfl, frames, hl⟩ := h.layout
  constructor
  case live =>
    intro key
    refine ⟨fun hkey => ?_, hl.live⟩
    obtain ⟨data, hdata⟩ := hl.lookup_of_mem hkey
    exact Finmap.mem_of_lookup_eq_some hdata
  case read => exact fun hdata => hl.read hdata
  case below => exact fun hr => hl.below hr
  case apart => exact fun hr hr' => hl.apart hr hr'
  case blocks =>
    intro p fileRecord hfile
    cases hfs : frames.lookup p with
    | none => rw [hl.no_file hfs] at hfile; cases hfile
    | some fs =>
      obtain rfl := Option.some.inj ((hl.file hfs).1.symm.trans hfile)
      rfl
  case prune =>
    intro hash p hp hgone
    obtain ⟨-, frames', hl'⟩ := hl.step (show store.step (.prune hash) = .ok _ from rfl)
    rw [← Finmap.lookup_eq_none, hl'.files, Option.map_eq_none_iff] at hgone
    exact hl'.members_empty hgone
  case write => exact fun hlen => hl.exists_write hlen

/-- Two blocks with room for one in a file, an undo record, and the first block pruned. -/
theorem Runs.kept_rollover : ∃ store records,
    store.files.keys = {(.block, 1), (.undo, 0)} ∧ Kept (.bitcoin 43 (by decide)) store records :=
  have blocks : Runs (.bitcoin 43 (by decide)) _ _ :=
    @Runs.step _ _ _ _ (.writeBlock 2 (List.replicate 20 2))
      (@Runs.step _ _ _ _ (.writeBlock 1 (List.replicate 20 1)) .new rfl) rfl
  have run : Runs (.bitcoin 43 (by decide)) _ _ :=
    @Runs.step _ _ _ _ (.prune 1) (@Runs.step _ _ _ _ (.writeUndo 1 [3]) blocks rfl) rfl
  ⟨_, _, by decide, run.kept⟩

end FileBlockStore

end BitcoinNode

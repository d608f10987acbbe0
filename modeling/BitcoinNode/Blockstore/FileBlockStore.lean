import BitcoinNode.Blockchain.Database
import BitcoinNode.Library.Bytes

/-!
# The block store in files

`blockstore/mod.rs`, `blockstore/records.rs` and `blockstore/db.rs`: blocks and undo records
are appended to numbered data files behind a small header, and an index database keeps for
each hash where its record stands, for each file how much of it is used, and which file is
the last one. An index that is missing is rebuilt by scanning the files, in the order in which
the directory lists them. Reading, writing, creating and removing files are taken not to fail
where the file is there.
-/

namespace BitcoinNode

inductive RecordType where
  | block | undo
  deriving DecidableEq, Repr

structure FileRecord where
  blocks : Nat
  used : Nat
  length : Nat
  deriving DecidableEq, Repr

def FileRecord.empty (length : Nat) : FileRecord := ⟨0, 0, length⟩

structure BlockRecord where
  file : Nat
  position : Nat
  length : Nat
  deriving DecidableEq, Repr

/-- The index database, a map for each column. -/
structure StoreIndex where
  lastFile : FMap RecordType Nat
  file : FMap (RecordType × Nat) FileRecord
  blockRecord : FMap (RecordType × BlockHash) BlockRecord

def StoreIndex.empty : StoreIndex := ⟨∅, ∅, ∅⟩

/-- The network magic and the length limit of a file: 128 MiB unless a test lowers it, and in
any case such that the 32-bit arithmetic on offsets is exact. -/
structure BlockStoreOptions where
  magic : Nat
  maxFileLength : Nat
  magic_lt : magic < 2 ^ 32
  maxFileLength_lt : maxFileLength < 2 ^ 31

/-- Options for the main network. -/
def BlockStoreOptions.bitcoin (maxFileLength : Nat) (h : maxFileLength < 2 ^ 31) :
    BlockStoreOptions :=
  ⟨0xD9B4BEF9, maxFileLength, by decide, h⟩

inductive DBError where
  | io
  deriving DecidableEq, Repr

/-- The store: its index, and the contents of its data files. -/
structure FileBlockStore where
  options : BlockStoreOptions
  db : StoreIndex
  files : FMap (RecordType × Nat) (List UInt8)

/-- The 32 bytes of a hash. -/
def hashBytes (hash : BlockHash) : List UInt8 := (Bytes.le 32 hash).reverse

/-- `BlockHash::from_slice` -/
def hashFromSlice (bytes : List UInt8) : BlockHash := Bytes.ofLe bytes.reverse

@[simp] theorem length_hashBytes (hash : BlockHash) : (hashBytes hash).length = 32 := by
  simp [hashBytes]

theorem hashFromSlice_hashBytes {hash : BlockHash} (h : hash < 2 ^ 256) :
    hashFromSlice (hashBytes hash) = hash := by
  rw [hashFromSlice, hashBytes, List.reverse_reverse, Bytes.ofLe_le]
  exact h

namespace FileBlockStore

/-- A store without files, on an empty index. -/
def new (options : BlockStoreOptions) : FileBlockStore := ⟨options, .empty, ∅⟩

/-- The length of what stands before the data of a record. -/
def magicLength : RecordType → Nat
  | .block => 8
  | .undo => 8 + 32

/-- What stands before the data of a record. -/
def magicBytes (options : BlockStoreOptions) (recordType : RecordType) (hash : BlockHash)
    (blockLength : Nat) : List UInt8 :=
  Bytes.le 4 options.magic ++ Bytes.le 4 blockLength ++
    match recordType with
    | .block => []
    | .undo => hashBytes hash

/-- The file for a record of the given length and its file record; a new file is created,
and emptied if it is there. -/
def allocate (store : FileBlockStore) (recordType : RecordType) (length : Nat) :
    Except (Stop DBError) (Nat × FileRecord × FMap (RecordType × Nat) (List UInt8)) :=
  if length > store.options.maxFileLength then .error (.panic .recordTooLong)
  else
    let fileno := (store.db.lastFile.lookup recordType).getD 0
    let (touch, filerecord) :=
      match store.db.file.lookup (recordType, fileno) with
      | some filerecord => (false, filerecord)
      | none => (true, FileRecord.empty store.options.maxFileLength)
    let (fileno, touch, filerecord) :=
      if filerecord.used + length > filerecord.length then
        (fileno + 1, true, FileRecord.empty store.options.maxFileLength)
      else (fileno, touch, filerecord)
    let files := if touch then store.files.insert (recordType, fileno) [] else store.files
    .ok (fileno, filerecord, files)

def write (store : FileBlockStore) (recordType : RecordType) (hash : BlockHash)
    (data : List UInt8) : Except (Stop DBError) FileBlockStore :=
  if (recordType, hash) ∈ store.db.blockRecord then .ok store
  else do
    let length := data.length + magicLength recordType
    let (fileno, filerecord, files) ← store.allocate recordType length
    match files.lookup (recordType, fileno) with
    | none => throw (.error .io)
    | some bytes =>
      let blockPosition := filerecord.used + magicLength recordType
      let bytes := Bytes.writeAt bytes filerecord.used
        (magicBytes store.options recordType hash data.length ++ data)
      let filerecord := { filerecord with
        blocks := filerecord.blocks + 1, used := filerecord.used + length }
      return {
        options := store.options
        files := files.insert (recordType, fileno) bytes
        db := {
          blockRecord := store.db.blockRecord.insert (recordType, hash)
            ⟨fileno, blockPosition, data.length⟩
          file := store.db.file.insert (recordType, fileno) filerecord
          lastFile := store.db.lastFile.insert recordType fileno } }

def writeBlock (store : FileBlockStore) (hash : BlockHash) (data : List UInt8) :
    Except (Stop DBError) FileBlockStore :=
  store.write .block hash data

def writeUndo (store : FileBlockStore) (hash : BlockHash) (data : List UInt8) :
    Except (Stop DBError) FileBlockStore :=
  store.write .undo hash data

def read (store : FileBlockStore) (recordType : RecordType) (hash : BlockHash) (offset : Nat)
    (length : Option Nat) : Except (Stop DBError) (Option (List UInt8)) :=
  match store.db.blockRecord.lookup (recordType, hash) with
  | none => .ok none
  | some blockRecord => do
    let position := Word.add 32 blockRecord.position offset
    let length ← match length with
      | none =>
        if offset > blockRecord.length then throw (.panic .outOfBoundsRead)
        else pure (blockRecord.length - offset)
      | some length => pure length
    if Word.add 32 offset length > blockRecord.length then throw (.panic .outOfBoundsRead)
    match store.files.lookup (recordType, blockRecord.file) with
    | none => throw (.error .io)
    | some bytes =>
      -- nothing is read when nothing is asked for, also behind the end of the file
      if 0 < length ∧ position + length > bytes.length then throw (.error .io)
      return some (Bytes.slice bytes position length)

section Read

variable {store : FileBlockStore} {recordType : RecordType} {hash : BlockHash} {r : BlockRecord}

theorem read_eq_none (hr : store.db.blockRecord.lookup (recordType, hash) = none)
    (offset : Nat) (length : Option Nat) :
    store.read recordType hash offset length = .ok none := by
  rw [read, hr]

/-- A read up to the end of the record is one with the length that is left. -/
theorem read_to_end (hr : store.db.blockRecord.lookup (recordType, hash) = some r)
    (offset : Nat) : store.read recordType hash offset none =
      if offset > r.length then .error (.panic .outOfBoundsRead)
      else store.read recordType hash offset (some (r.length - offset)) := by
  simp only [read, hr]
  by_cases hout : offset > r.length
  · rw [if_pos hout, if_pos hout]
    rfl
  · rw [if_neg hout, if_neg hout]

theorem read_of_lookup (hr : store.db.blockRecord.lookup (recordType, hash) = some r)
    {bytes : List UInt8} (hfile : store.files.lookup (recordType, r.file) = some bytes)
    (offset length : Nat) : store.read recordType hash offset (some length) =
      if Word.add 32 offset length > r.length then .error (.panic .outOfBoundsRead)
      else if 0 < length ∧ Word.add 32 r.position offset + length > bytes.length then
        .error (.error .io)
      else .ok (some (Bytes.slice bytes (Word.add 32 r.position offset) length)) := by
  simp only [read, hr, hfile, pure_bind]
  by_cases hend : Word.add 32 offset length > r.length
  · rw [if_pos hend, if_pos hend]
    rfl
  rw [if_neg hend, if_neg hend]
  by_cases hshort : 0 < length ∧ Word.add 32 r.position offset + length > bytes.length
  · rw [if_pos hshort, if_pos hshort]
    rfl
  · rw [if_neg hshort, if_neg hshort]
    rfl

/-- In a file whose offsets fit into 32 bits, a part of a record is read where it stands. -/
theorem read_of_le (hr : store.db.blockRecord.lookup (recordType, hash) = some r)
    {bytes : List UInt8} (hfile : store.files.lookup (recordType, r.file) = some bytes)
    (hroom : r.position + r.length ≤ bytes.length) (hlt : bytes.length < 2 ^ 32)
    {offset length : Nat} (hle : offset + length ≤ r.length) :
    store.read recordType hash offset (some length)
      = .ok (some (Bytes.slice bytes (r.position + offset) length)) := by
  rw [read_of_lookup hr hfile, Word.add_eq (by omega), Word.add_eq (by omega),
    if_neg (by omega), if_neg (by omega)]

end Read

def readRawBlock (store : FileBlockStore) (hash : BlockHash) :
    Except (Stop DBError) (Option (List UInt8)) :=
  store.read .block hash 0 none

/-- The bytes that `read_undo` decodes. -/
def readRawUndo (store : FileBlockStore) (hash : BlockHash) :
    Except (Stop DBError) (Option (List UInt8)) :=
  store.read .undo hash 0 none

/-- `_prune`; it tells whether a record was removed. -/
def pruneRecord (store : FileBlockStore) (recordType : RecordType) (hash : BlockHash) :
    FileBlockStore × Bool :=
  match store.db.blockRecord.lookup (recordType, hash) with
  | none => (store, false)
  | some blockRecord =>
    let path := (recordType, blockRecord.file)
    match store.db.file.lookup path with
    | none => (store, false)
    | some fileRecord =>
      let fileRecord := { fileRecord with blocks := fileRecord.blocks - 1 }
      let last := fileRecord.blocks = 0
      ({ options := store.options
         files := if last then store.files.erase path else store.files
         db := {
          lastFile := store.db.lastFile
          file := if last then store.db.file.erase path else store.db.file.insert path fileRecord
          blockRecord := store.db.blockRecord.erase (recordType, hash) } }, true)

def prune (store : FileBlockStore) (hash : BlockHash) : FileBlockStore × Bool :=
  store.pruneRecord .block hash

def has (store : FileBlockStore) (hash : BlockHash) : Bool :=
  (.block, hash) ∈ store.db.blockRecord

/-! ## Rebuilding the index -/

/-- `check`: whether a data file has no file record, and the numbers of the data files. A file
is found under its five digits only. -/
def check (store : FileBlockStore) (recordType : RecordType) (dir : List Nat) :
    Bool × List Nat :=
  let filenos := dir.filter (· < 100000)
  (filenos.any fun fileno => (recordType, fileno) ∉ store.db.file, filenos)

/-- The loop of `index` over the bytes of a file: the records found behind the magic, and where
the reader stops. -/
def scan (sha256d : List UInt8 → BlockHash) (magic : Nat) (recordType : RecordType)
    (fileno : Nat) (data : List UInt8) (position : Nat) (found : List (BlockHash × BlockRecord)) :
    Except (Stop DBError) (List (BlockHash × BlockRecord) × Nat) :=
  if position < data.length - 4 then
    if Bytes.ofLe (Bytes.slice data position 4) ≠ magic then
      scan sha256d magic recordType fileno data (position + 1) found
    else if data.length < position + 8 then .error (.panic .indexLength)
    else
      let length := Bytes.ofLe (Bytes.slice data (position + 4) 4)
      match recordType with
      | .block =>
        -- a header that the file is too short for is passed over
        if position + 8 + 80 > data.length then
          scan sha256d magic .block fileno data (position + 8) found
        else
          let hash := sha256d (Bytes.slice data (position + 8) 80)
          scan sha256d magic .block fileno data (position + 8 + 80)
            (found ++ [(hash, ⟨fileno, (position + 8) % 2 ^ 32, length⟩)])
      | .undo =>
        if position + 8 + 32 > data.length then .error (.error .io)
        else
          let hash := hashFromSlice (Bytes.slice data (position + 8) 32)
          scan sha256d magic .undo fileno data (position + 8 + 32)
            (found ++ [(hash, ⟨fileno, (position + 8 + 32) % 2 ^ 32, length⟩)])
  else .ok (found, position)
termination_by data.length - position

/-- The body of the loop of `index` over the files. -/
def indexFile (sha256d : List UInt8 → BlockHash) (recordType : RecordType)
    (store : FileBlockStore) (fileno : Nat) : Except (Stop DBError) FileBlockStore :=
  match store.files.lookup (recordType, fileno) with
  | none => .error (.error .io)
  | some data =>
    if data.length < 4 then .error (.panic .indexMagic)
    else do
      let (found, position) ← scan sha256d store.options.magic recordType fileno data 0 []
      return { store with db := {
        lastFile := store.db.lastFile
        file := store.db.file.insert (recordType, fileno)
          ⟨found.length % 2 ^ 32, position % 2 ^ 32, store.options.maxFileLength⟩
        blockRecord := found.foldl
          (fun db (hash, record) => db.insert (recordType, hash) record) store.db.blockRecord } }

def index (sha256d : List UInt8 → BlockHash) (recordType : RecordType) (dir : List Nat)
    (store : FileBlockStore) : Except (Stop DBError) FileBlockStore :=
  let (missing, filenos) := store.check recordType dir
  if !missing then .ok store else filenos.foldlM (indexFile sha256d recordType) store

def indexAllTypes (sha256d : List UInt8 → BlockHash) (dir : RecordType → List Nat)
    (store : FileBlockStore) : Except (Stop DBError) FileBlockStore :=
  store.index sha256d .block (dir .block) >>= index sha256d .undo (dir .undo)

/-- Open the store again on an index that was deleted. -/
def reopen (sha256d : List UInt8 → BlockHash) (dir : RecordType → List Nat)
    (store : FileBlockStore) : Except (Stop DBError) FileBlockStore :=
  match indexAllTypes sha256d dir { store with db := .empty } with
  | .ok store => .ok store
  | .error (.panic site) => .error (.panic site)
  | .error (.error _) => .error (.panic .openStore)

end FileBlockStore

end BitcoinNode

import BitcoinNode.Blockstore.Reindex

/-!
# Writing after the index was rebuilt

The rebuilt index takes a file to end up to four bytes early, and does not tell which file is
the last one. A later write may land on the end of a record, or create a file that is there
already. It is safe where it does neither, and then every record stays.
-/

namespace BitcoinNode

namespace FileBlockStore

open Bytes

variable {sha256d : List UInt8 → BlockHash} {options : BlockStoreOptions}
  {store store' s s' : FileBlockStore} {records : Records} {recordType : RecordType}
  {hash : BlockHash} {data : List UInt8} {fileno n : Nat} {fileRecord : FileRecord}
  {files : FMap (RecordType × Nat) (List UInt8)} {key : RecordType × BlockHash}

/-! ## What a write does -/

/-- The file that `allocate` tries first. -/
def current (store : FileBlockStore) (recordType : RecordType) : Nat :=
  (store.db.lastFile.lookup recordType).getD 0

/-- `allocate` gives out the current file, or a file that it creates. -/
theorem allocate_eq_ok (h : store.allocate recordType n = .ok (fileno, fileRecord, files)) :
    (fileno = store.current recordType
      ∧ store.db.file.lookup (recordType, fileno) = some fileRecord
      ∧ fileRecord.used + n ≤ fileRecord.length ∧ files = store.files)
    ∨ (fileRecord = .empty store.options.maxFileLength
      ∧ files = store.files.insert (recordType, fileno) []
      ∧ ((fileno = store.current recordType ∧ store.db.file.lookup (recordType, fileno) = none)
        ∨ ∃ full, store.db.file.lookup (recordType, store.current recordType) = some full
          ∧ full.length < full.used + n ∧ fileno = store.current recordType + 1)) := by
  unfold allocate at h
  rw [current]
  generalize (store.db.lastFile.lookup recordType).getD 0 = last at h ⊢
  split at h
  · cases h
  · rename_i hlen
    cases hfile : store.db.file.lookup (recordType, last) with
    | none =>
      simp only [hfile, FileRecord.empty, Nat.zero_add, hlen, if_false, if_true] at h
      cases h
      exact .inr ⟨rfl, rfl, .inl ⟨rfl, hfile⟩⟩
    | some full =>
      by_cases hroom : full.used + n > full.length
      · simp only [hfile, hroom, if_true] at h
        cases h
        exact .inr ⟨rfl, rfl, .inr ⟨full, rfl, hroom, rfl⟩⟩
      · simp only [hfile, hroom, if_false] at h
        cases h
        exact .inl ⟨rfl, hfile, by omega, rfl⟩

/-- A write that is not a repetition puts the record where `allocate` says. -/
theorem write_eq_ok (hkey : (recordType, hash) ∉ store.db.blockRecord)
    (h : store.write recordType hash data = .ok store') :
    ∃ fileno fileRecord files bytes,
      store.allocate recordType (data.length + magicLength recordType)
        = .ok (fileno, fileRecord, files)
      ∧ files.lookup (recordType, fileno) = some bytes
      ∧ store' = {
        options := store.options
        files := files.insert (recordType, fileno) (writeAt bytes fileRecord.used
          (frame store.options recordType (hash, data)))
        db := {
          blockRecord := store.db.blockRecord.insert (recordType, hash)
            ⟨fileno, fileRecord.used + magicLength recordType, data.length⟩
          file := store.db.file.insert (recordType, fileno)
            ⟨fileRecord.blocks + 1,
              fileRecord.used + (data.length + magicLength recordType), fileRecord.length⟩
          lastFile := store.db.lastFile.insert recordType fileno } } := by
  simp only [write, if_neg hkey] at h
  obtain ⟨⟨fileno, fileRecord, files⟩, halloc, h⟩ := bind_eq_ok.1 h
  simp only at h
  cases hbytes : files.lookup (recordType, fileno) with
  | none => simp [hbytes] at h
  | some bytes =>
    rw [hbytes] at h
    exact ⟨fileno, fileRecord, files, bytes, halloc, hbytes, (pure_eq_ok.1 h).symm⟩

/-- A write into the current file lands where the file record says. -/
theorem write_current {bytes : List UInt8} (hkey : (recordType, hash) ∉ store.db.blockRecord)
    (hlen : data.length + magicLength recordType ≤ store.options.maxFileLength)
    (hfile : store.db.file.lookup (recordType, store.current recordType) = some fileRecord)
    (hroom : fileRecord.used + (data.length + magicLength recordType) ≤ fileRecord.length)
    (hbytes : store.files.lookup (recordType, store.current recordType) = some bytes) :
    ∃ store', store.write recordType hash data = .ok store'
      ∧ store'.files = store.files.insert (recordType, store.current recordType)
        (writeAt bytes fileRecord.used (frame store.options recordType (hash, data)))
      ∧ ∀ key ≠ (recordType, hash),
        store'.db.blockRecord.lookup key = store.db.blockRecord.lookup key := by
  have halloc : store.allocate recordType (data.length + magicLength recordType)
      = .ok (store.current recordType, fileRecord, store.files) := by
    rw [current] at hfile
    rw [allocate, if_neg (by omega)]
    simp only [hfile, if_neg (Nat.not_lt.2 hroom)]
    rfl
  simp only [write, if_neg hkey, halloc, bind, Except.bind, hbytes]
  exact ⟨_, rfl, rfl, fun key hne => Finmap.lookup_insert_of_ne _ hne⟩

/-- A record reads back as the bytes at its place. -/
theorem read_eq_some : store.read recordType hash 0 none = .ok (some data) ↔
    ∃ r bytes, store.db.blockRecord.lookup (recordType, hash) = some r
      ∧ store.files.lookup (recordType, r.file) = some bytes
      ∧ (0 < r.length → r.position % 2 ^ 32 + r.length ≤ bytes.length)
      ∧ slice bytes (r.position % 2 ^ 32) r.length = data := by
  cases hr : store.db.blockRecord.lookup (recordType, hash) with
  | none => simp [read, hr]
  | some r =>
    have hend : ¬ r.length < Word.add 32 0 r.length := by
      rw [Word.add, Nat.zero_add]
      exact Nat.not_lt.2 (Nat.mod_le _ _)
    cases hbytes : store.files.lookup (recordType, r.file) with
    | none => simp [read, hr, hbytes, hend, bind, Except.bind, pure, Except.pure]
    | some bytes =>
      rw [read_to_end hr, if_neg (Nat.not_lt_zero _), Nat.sub_zero, read_of_lookup hr hbytes,
        if_neg hend, Word.add, Nat.add_zero]
      by_cases hshort : 0 < r.length ∧ r.position % 2 ^ 32 + r.length > bytes.length
      · rw [if_pos hshort]
        simp only [reduceCtorEq, Option.some.injEq, exists_and_left, exists_eq_left', hbytes,
          false_iff, not_and]
        exact fun hroom => absurd (hroom hshort.1) (Nat.not_le.2 hshort.2)
      · rw [if_neg hshort]
        simpa [hbytes] using fun _ hpos => Nat.not_lt.1 fun hlt => hshort ⟨hpos, hlt⟩

/-! ## Safe writes -/

/-- The write repeats a record, or it covers no byte with another one and creates no file that
is there. -/
def Safe (store : FileBlockStore) (recordType : RecordType) (hash : BlockHash)
    (data : List UInt8) : Prop :=
  (recordType, hash) ∈ store.db.blockRecord ∨
    match store.db.file.lookup (recordType, store.current recordType) with
    | none => (recordType, store.current recordType) ∉ store.files
    | some fileRecord =>
      if fileRecord.used + (data.length + magicLength recordType) ≤ fileRecord.length then
        ∀ bytes, store.files.lookup (recordType, store.current recordType) = some bytes →
          bytes.drop fileRecord.used <+: frame store.options recordType (hash, data)
      else (recordType, store.current recordType + 1) ∉ store.files

/-- What a store keeps of another one: its records, in files that only grew. -/
structure Extends (store s : FileBlockStore) : Prop where
  options : s.options = store.options
  files {p : RecordType × Nat} {bytes : List UInt8} : store.files.lookup p = some bytes →
    ∃ more, s.files.lookup p = some (bytes ++ more)
  blockRecord {key : RecordType × BlockHash} {r : BlockRecord} :
    store.db.blockRecord.lookup key = some r → s.db.blockRecord.lookup key = some r
  used {p : RecordType × Nat} {fileRecord : FileRecord} {bytes : List UInt8} :
    s.db.file.lookup p = some fileRecord → s.files.lookup p = some bytes →
    fileRecord.used ≤ bytes.length

theorem Extends.read (h : Extends store s)
    (hread : store.read recordType hash 0 none = .ok (some data)) :
    s.read recordType hash 0 none = .ok (some data) := by
  obtain ⟨r, bytes, hr, hbytes, hlen, hslice⟩ := read_eq_some.1 hread
  obtain ⟨more, hmore⟩ := h.files hbytes
  refine read_eq_some.2 ⟨r, _, h.blockRecord hr, hmore, fun hpos => ?_, ?_⟩
  · rw [List.length_append]
    exact (hlen hpos).trans (Nat.le_add_right _ _)
  · by_cases hpos : 0 < r.length
    · rw [slice_append_left (hlen hpos), hslice]
    · rw [← hslice, Nat.eq_zero_of_not_pos hpos]
      simp [slice]

/-- The file that a safe write is given is the one it finds, filled up, or a new one. -/
theorem Safe.grows {bytes : List UInt8} (hsafe : Safe store recordType hash data)
    (hkey : (recordType, hash) ∉ store.db.blockRecord)
    (hused : ∀ {p fileRecord bytes}, store.db.file.lookup p = some fileRecord →
      store.files.lookup p = some bytes → fileRecord.used ≤ bytes.length)
    (halloc : store.allocate recordType (data.length + magicLength recordType)
      = .ok (fileno, fileRecord, files))
    (hbytes : files.lookup (recordType, fileno) = some bytes) :
    fileRecord.used ≤ bytes.length
      ∧ (∀ q, q ≠ (recordType, fileno) → files.lookup q = store.files.lookup q)
      ∧ ∀ old, store.files.lookup (recordType, fileno) = some old → ∃ more,
        writeAt bytes fileRecord.used (frame store.options recordType (hash, data))
          = old ++ more := by
  have hsafe := hsafe.resolve_left hkey
  obtain ⟨rfl, hfile, hroom, rfl⟩ | ⟨rfl, rfl, hnew⟩ := allocate_eq_ok halloc
  · have hle := hused hfile hbytes
    rw [hfile] at hsafe
    simp only [if_pos hroom] at hsafe
    refine ⟨hle, fun _ _ => rfl, fun old hold => ?_⟩
    obtain rfl := Option.some.inj (hbytes.symm.trans hold)
    exact writeAt_of_prefix hle (hsafe bytes hbytes)
  · have hnot : (recordType, fileno) ∉ store.files := by
      obtain ⟨rfl, hfile⟩ | ⟨full, hfile, hfull, rfl⟩ := hnew
      · simpa [hfile] using hsafe
      · simpa [hfile, show ¬ full.used + (data.length + magicLength recordType) ≤ full.length by
          omega] using hsafe
    exact ⟨Nat.zero_le _, fun q hq => Finmap.lookup_insert_of_ne _ hq,
      fun old hold => absurd (Finmap.mem_of_lookup_eq_some hold) hnot⟩

/-- A safe write keeps everything. -/
theorem Extends.write (h : Extends store s) (hsafe : Safe s recordType hash data)
    (hw : s.write recordType hash data = .ok s') : Extends store s' := by
  by_cases hkey : (recordType, hash) ∈ s.db.blockRecord
  · obtain rfl := Except.ok.inj ((write_of_mem hkey).symm.trans hw)
    exact h
  obtain ⟨fileno, fileRecord, files, bytes, halloc, hbytes, rfl⟩ := write_eq_ok hkey hw
  obtain ⟨hle, hother, hgrows⟩ := hsafe.grows hkey h.used halloc hbytes
  constructor
  case options => exact h.options
  case files =>
    intro p old hold
    obtain ⟨more, hmore⟩ := h.files hold
    by_cases hp : p = (recordType, fileno)
    · subst hp
      obtain ⟨more', hgrown⟩ := hgrows _ hmore
      exact ⟨more ++ more', by rw [Finmap.lookup_insert, hgrown, List.append_assoc]⟩
    · exact ⟨more, by rw [Finmap.lookup_insert_of_ne _ hp, hother p hp, hmore]⟩
  case blockRecord =>
    intro key r hr
    have hne : key ≠ (recordType, hash) := by
      rintro rfl
      exact hkey (Finmap.mem_of_lookup_eq_some (h.blockRecord hr))
    rw [Finmap.lookup_insert_of_ne _ hne, h.blockRecord hr]
  case used =>
    intro p fileRecord' bytes' hfile hbytes'
    by_cases hp : p = (recordType, fileno)
    · subst hp
      rw [Finmap.lookup_insert] at hfile hbytes'
      obtain rfl := Option.some.inj hfile
      obtain rfl := Option.some.inj hbytes'
      have hlen := @le_length_writeAt bytes (frame s.options recordType (hash, data)) _ hle
      rw [length_frame] at hlen
      simp only at hlen ⊢
      omega
    · rw [Finmap.lookup_insert_of_ne _ hp] at hfile hbytes'
      exact h.used hfile (by rw [← hother p hp, hbytes'])

/-! ## After the index was rebuilt -/

/-- The stores that safe writes make of a store. -/
inductive Resumed (store : FileBlockStore) : FileBlockStore → Prop where
  | start : Resumed store store
  | write {s s' : FileBlockStore} {recordType : RecordType} {hash : BlockHash}
      {data : List UInt8} : Resumed store s → Safe s recordType hash data →
      s.write recordType hash data = .ok s' → Resumed store s'

theorem Reopened.extends (h : Reopened store store') : Extends store store' where
  options := h.options
  files hbytes := ⟨[], by rw [h.files, hbytes, List.append_nil]⟩
  blockRecord hr := by rw [h.blockRecord, hr]
  used := by
    intro p fileRecord bytes hfile hbytes
    rw [h.files] at hbytes
    obtain ⟨blocks, used, hrec, hle, -⟩ := h.file hbytes
    obtain rfl := Option.some.inj (hrec.symm.trans hfile)
    exact hle

theorem Resumed.extends (hstart : Extends store store') (h : Resumed store' s) :
    Extends store s := by
  induction h with
  | start => exact hstart
  | write _ hsafe hw ih => exact ih.write hsafe hw

/-- Where the index is rebuilt from a store with nothing that looks like a record and every
later write is safe, all records written before read back after each of them. -/
theorem Filled.read_after_reindex (h : Filled sha256d options store records)
    {dir : RecordType → List Nat}
    (hdir : ∀ recordType n, n ∈ dir recordType ↔ (recordType, n) ∈ store.files)
    (hfew : ∀ p ∈ store.files, p.2 < 100000) (hclear : Clear store) :
    ∃ store', store.reopen sha256d dir = .ok store' ∧ ∀ s, Resumed store' s →
      ∀ key data, records.lookup key = some data →
        s.read key.1 key.2 0 none = .ok (some data) := by
  obtain ⟨store', hok, hre⟩ := h.reopened hdir hfew hclear
  obtain ⟨-, frames, hl, -⟩ := h.layout
  exact ⟨store', hok, fun s hs key data hkey =>
    (hs.extends hre.extends).read (hl.read hkey)⟩

/-- A block without transactions is still there when an undo record follows. -/
theorem Filled.read_after_reindex_undo : ∃ store' s,
    (single (.bitcoin 256 (by decide)) .block (zeroBlock [0])).reopen digests blockDir = .ok store'
    ∧ store'.write .undo 5 [1, 2] = .ok s
    ∧ s.read .block (zeroBlock [0]).1 0 none = .ok (some (zeroBlock [0]).2) := by
  have hfilled : Filled digests (.bitcoin 256 (by decide)) _ _ :=
    single_filled (zeroBlock_genuine [0]) (by decide)
  obtain ⟨store', hok, hread⟩ := hfilled.read_after_reindex mem_blockDir
    (by simp [single, Finmap.notMem_empty]) clear_empty_block
  have hscan := @scan_record digests (.bitcoin 256 (by decide)) .block (zeroBlock [0]) [] [] 0 []
    (zeroBlock_genuine _) (by decide)
  rw [List.nil_append, encode_singleton] at hscan
  have hreopen := @reopen_single digests (.bitcoin 256 (by decide)) (zeroBlock [0]) 88 _
    (by decide +kernel) (hscan.trans (scan_end (by decide +kernel)))
  obtain rfl := Except.ok.inj (hok.symm.trans hreopen)
  have hsafe : Safe (rebuilt (.bitcoin 256 (by decide)) (zeroBlock [0])
      [((zeroBlock [0]).1, ⟨0, 8, 81⟩)] 88) .undo 5 [1, 2] :=
    .inr (show (RecordType.undo, 0) ∉
        (single (.bitcoin 256 (by decide)) .block (zeroBlock [0])).files by
      simp [single, Finmap.notMem_empty])
  exact ⟨_, _, hok, rfl,
    hread _ (.write .start hsafe rfl) (.block, (zeroBlock [0]).1) _ (by decide +kernel)⟩

/-- A transaction without scripts of note. -/
def plain : List UInt8 :=
  [1] ++ le 4 1 ++ [1] ++ List.replicate 32 0 ++ le 4 0xFFFFFFFF ++ [2, 0x51, 0x51]
    ++ le 4 0xFFFFFFFF ++ [1] ++ le 8 0 ++ [1, 0x51] ++ le 4 0

/-- The scanner stops four bytes before the end of the file with this block. -/
theorem scan_plain :
    scan digests 0xD9B4BEF9 .block 0
        (frame (.bitcoin 512 (by decide)) .block (zeroBlock plain)) 0 []
      = .ok ([((zeroBlock plain).1, ⟨0, 8, 144⟩)], 148) := by
  have hfirst := @scan_record digests (.bitcoin 512 (by decide)) .block (zeroBlock plain) [] []
    0 [] (zeroBlock_genuine _) (by decide +kernel)
  rw [List.nil_append, encode_singleton] at hfirst
  have hskip := @scan_skip digests (.bitcoin 512 (by decide)) .block
    (frame (.bitcoin 512 (by decide)) .block (zeroBlock plain)) 0 88 148
    [((zeroBlock plain).1, ⟨0, 8, 144⟩)] (by decide) (by decide +kernel) (by decide +kernel)
  exact hfirst.trans (hskip.trans (scan_end (by decide +kernel)))

/-- The block written next covers the lock time of the transaction with its magic. -/
theorem covered_lock_time : ∃ store' s,
    (new (.bitcoin 512 (by decide))).write .block (zeroBlock plain).1 (zeroBlock plain).2
      = .ok (single (.bitcoin 512 (by decide)) .block (zeroBlock plain))
    ∧ (single (.bitcoin 512 (by decide)) .block (zeroBlock plain)).reopen digests blockDir
      = .ok store'
    ∧ store'.write .block (digests (List.replicate 80 1)) (List.replicate 80 1 ++ plain) = .ok s
    ∧ s.read .block (zeroBlock plain).1 0 none
      = .ok (some ((zeroBlock plain).2.take 140 ++ le 4 0xD9B4BEF9))
    ∧ (zeroBlock plain).2.take 140 ++ le 4 0xD9B4BEF9 ≠ (zeroBlock plain).2 := by
  have hreopen := @reopen_single digests (.bitcoin 512 (by decide)) (zeroBlock plain) 148 _
    (by decide +kernel) scan_plain
  obtain ⟨s, hwrite, hfiles, hrecords⟩ := @write_current (rebuilt (.bitcoin 512 (by decide))
    (zeroBlock plain) [((zeroBlock plain).1, ⟨0, 8, 144⟩)] 148) .block
    (digests (List.replicate 80 1)) (List.replicate 80 1 ++ plain) ⟨1, 148, 512⟩
    (frame (.bitcoin 512 (by decide)) .block (zeroBlock plain))
    (by decide +kernel) (by decide +kernel) rfl (by decide +kernel) (Finmap.lookup_insert _)
  have hrecord : s.db.blockRecord.lookup (.block, (zeroBlock plain).1) = some ⟨0, 8, 144⟩ := by
    rw [hrecords _ (by decide +kernel)]
    rfl
  have hbytes : s.files.lookup (.block, 0)
      = some (writeAt (frame (.bitcoin 512 (by decide)) .block (zeroBlock plain)) 148
        (frame (.bitcoin 512 (by decide)) .block
          (digests (List.replicate 80 1), List.replicate 80 1 ++ plain))) := by
    rw [hfiles]
    exact Finmap.lookup_insert _
  exact ⟨_, s, write_single (by decide +kernel), hreopen, hwrite,
    read_eq_some.2 ⟨_, _, hrecord, hbytes, by decide +kernel, by decide +kernel⟩,
    by decide +kernel⟩

end FileBlockStore

end BitcoinNode

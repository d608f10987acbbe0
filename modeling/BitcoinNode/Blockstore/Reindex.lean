import BitcoinNode.Blockstore.Records

/-!
# Rebuilding the block records

The scanner finds the magic of a record, passes what it reads of the record's header, and then
looks for the magic again from there on, in the data of the record itself. Where the magic
stands in data at an offset that the scanner comes to, it takes what follows for a record.
Without such offsets, and with files that five digits number, the rebuilt block records are the
old ones.
-/

namespace BitcoinNode

namespace FileBlockStore

open Bytes

/-! ## What the scanner reads -/

/-- The bytes of a record that the scanner passes at once. -/
def passed : RecordType → Nat
  | .block => 8 + 80
  | .undo => 8 + 32

/-- The block is long enough for a header and stands under the hash of it. -/
def Genuine (sha256d : List UInt8 → BlockHash) : RecordType → Frame → Prop
  | .block, (hash, data) => 80 ≤ data.length ∧ hash = sha256d (data.take 80)
  | .undo, (hash, _) => hash < 2 ^ 256

variable {sha256d : List UInt8 → BlockHash} {options : BlockStoreOptions}
  {recordType : RecordType} {f : Frame} {fs before after : List Frame} {data : List UInt8}
  {fileno pos stop : Nat} {found : List (BlockHash × BlockRecord)}

theorem slice_encode_frame {q n : Nat} (h : q + n ≤ magicLength recordType + f.2.length) :
    slice (encode options recordType (before ++ f :: after)) (size recordType before + q) n
      = slice (frame options recordType f) q n := by
  rw [encode_append, encode_cons, slice_append_right (by simp),
    slice_append_left (by simpa using h)]

theorem slice_magic : slice (frame options recordType f) 0 4 = le 4 options.magic := by
  simp [slice, frame, magicBytes]

theorem slice_length : slice (frame options recordType f) 4 4 = le 4 f.2.length := by
  simp [slice, frame, magicBytes]

theorem slice_header (h : 80 ≤ f.2.length) :
    slice (frame options .block f) 8 80 = f.2.take 80 := by
  have hmid := @slice_middle (le 4 options.magic ++ le 4 f.2.length) (f.2.drop 80) (f.2.take 80)
  simpa [frame, magicBytes, h] using hmid

theorem slice_hash : slice (frame options .undo f) 8 32 = hashBytes f.1 := by
  have hmid := @slice_middle (le 4 options.magic ++ le 4 f.2.length) f.2 (hashBytes f.1)
  simpa [frame, magicBytes, hashBytes] using hmid

/-! ## Scanning -/

/-- The bytes at the offset look to the scanner like the start of a record. -/
def Lookalike (magic : Nat) (recordType : RecordType) (data : List UInt8) (q : Nat) : Prop :=
  q < data.length - 4 ∧ ofLe (slice data q 4) = magic
    ∧ (recordType = .block → data.length < q + 8 ∨ q + 8 + 80 ≤ data.length)

/-- Behind the header of each record, the scanner comes to no bytes that look like a record. -/
def Scannable (options : BlockStoreOptions) (recordType : RecordType) (fs : List Frame) : Prop :=
  ∀ before f after q, fs = before ++ f :: after → passed recordType ≤ q →
    q < magicLength recordType + f.2.length →
    ¬ Lookalike options.magic recordType (encode options recordType fs)
      (size recordType before + q)

theorem scan_end (h : data.length - 4 ≤ pos) :
    scan sha256d options.magic recordType fileno data pos found = .ok (found, pos) := by
  rw [scan, if_neg (by omega)]

/-- The scanner passes bytes that do not start with the magic. -/
theorem scan_skip (hle : pos ≤ stop) (hstop : stop ≤ data.length - 4)
    (h : ∀ q, pos ≤ q → q < stop → ofLe (slice data q 4) ≠ options.magic) :
    scan sha256d options.magic recordType fileno data pos found
      = scan sha256d options.magic recordType fileno data stop found := by
  induction stop, hle using Nat.le_induction with
  | base => rfl
  | succ stop hle ih =>
    rw [ih (by omega) fun q hq hlt => h q hq (by omega), scan, if_pos (by omega),
      if_pos (h stop hle (by omega))]

/-- At the start of a record the scanner takes it and goes on behind what it passes. -/
theorem scan_record (hf : Genuine sha256d recordType f)
    (hlen : size recordType (before ++ [f]) < 2 ^ 32) :
    scan sha256d options.magic recordType fileno
        (encode options recordType (before ++ f :: after)) (size recordType before) found
      = scan sha256d options.magic recordType fileno
        (encode options recordType (before ++ f :: after))
        (size recordType before + passed recordType)
        (found ++
          [(f.1, ⟨fileno, size recordType before + magicLength recordType, f.2.length⟩)]) := by
  obtain ⟨data, hdata⟩ : ∃ data, encode options recordType (before ++ f :: after) = data := ⟨_, rfl⟩
  have hbytes {q n : Nat} (h : q + n ≤ magicLength recordType + f.2.length) :
      slice data (size recordType before + q) n = slice (frame options recordType f) q n := by
    rw [← hdata, slice_encode_frame h]
  have hsize : data.length
      = size recordType before + (magicLength recordType + f.2.length + size recordType after) := by
    rw [← hdata, length_encode, size_append, size_cons]
  have hmagic : ofLe (slice data (size recordType before) 4) = options.magic := by
    have hq := hbytes (q := 0) (n := 4) (by cases recordType <;> simp [magicLength] <;> omega)
    rw [Nat.add_zero] at hq
    rw [hq, slice_magic, ofLe_le options.magic_lt]
  have hlength : ofLe (slice data (size recordType before + 4) 4) = f.2.length := by
    rw [size_append, size_cons, size_nil] at hlen
    rw [hbytes (by cases recordType <;> simp only [magicLength] <;> omega), slice_length,
      ofLe_le (by omega)]
  rw [size_append, size_cons, size_nil] at hlen
  rw [hdata, scan]
  cases recordType with
  | block =>
    obtain ⟨hlong, hhash⟩ := hf
    simp only [magicLength] at hsize hbytes hlen ⊢
    rw [if_pos (by omega), if_neg (by simpa using hmagic), if_neg (by omega)]
    rw [if_neg (by omega), hlength, Nat.add_assoc _ 8 80, hbytes (by omega), slice_header hlong,
      ← hhash, Nat.mod_eq_of_lt (by omega)]
    rfl
  | undo =>
    simp only [magicLength] at hsize hbytes hlen ⊢
    rw [if_pos (by omega), if_neg (by simpa using hmagic), if_neg (by omega)]
    rw [if_neg (by omega), hlength, hbytes (by omega), slice_hash, hashFromSlice_hashBytes hf,
      Nat.mod_eq_of_lt (by omega)]
    rfl

/-- Where nothing looks like a record, the scanner finds nothing and stops within the last four
bytes. -/
theorem scan_tail (hpos : pos ≤ data.length)
    (h : ∀ q, pos ≤ q → ¬ Lookalike options.magic recordType data q) : ∃ stop,
    scan sha256d options.magic recordType fileno data pos found = .ok (found, stop)
      ∧ stop ≤ data.length ∧ data.length - 4 ≤ stop := by
  fun_induction scan sha256d options.magic recordType fileno data pos found with
  | case1 _ position _ hlt _ ih => exact ih (by omega) fun q hq => h q (by omega)
  | case2 _ position _ hlt hmagic hshort =>
    exact absurd ⟨hlt, not_not.1 hmagic, fun _ => .inl hshort⟩ (h position le_rfl)
  | case3 position _ _ _ _ _ ih => exact ih (by omega) fun q hq => h q (by omega)
  | case4 position _ hlt hmagic _ _ hlong =>
    exact absurd ⟨hlt, not_not.1 hmagic, fun _ => .inr (by omega)⟩ (h position le_rfl)
  | case5 position _ hlt hmagic | case6 position _ hlt hmagic =>
    exact absurd ⟨hlt, not_not.1 hmagic, nofun⟩ (h position le_rfl)
  | case7 _ position found hend => exact ⟨position, rfl, hpos, by omega⟩

/-- The records that the frames of a file stand for. -/
def listed (recordType : RecordType) (fileno : Nat) :
    Nat → List Frame → List (BlockHash × BlockRecord)
  | _, [] => []
  | start, f :: fs =>
    (f.1, ⟨fileno, start + magicLength recordType, f.2.length⟩) ::
      listed recordType fileno (start + magicLength recordType + f.2.length) fs

theorem passed_le (hf : Genuine sha256d recordType f) :
    passed recordType ≤ magicLength recordType + f.2.length := by
  cases recordType with
  | block =>
    have hlong := hf.1
    simp only [passed, magicLength]
    omega
  | undo => simp [passed, magicLength]

/-- In front of another record, nothing that starts with the magic is clear of looking like a
record. -/
theorem magic_absent {g : Frame} {q : Nat}
    (hclear : Scannable options recordType (before ++ f :: g :: after))
    (hg : Genuine sha256d recordType g) (hq : passed recordType ≤ q)
    (hlt : q < magicLength recordType + f.2.length) :
    ofLe (slice (encode options recordType (before ++ f :: g :: after))
      (size recordType before + q) 4) ≠ options.magic := by
  intro hmagic
  have hpassed := passed_le hg
  have hhead : 8 ≤ passed recordType := by cases recordType <;> decide
  refine hclear before f (g :: after) q rfl hq hlt ⟨?_, hmagic, ?_⟩
  · rw [length_encode, size_append, size_cons, size_cons]
    omega
  · rintro rfl
    rw [length_encode, size_append, size_cons, size_cons]
    simp only [passed] at hpassed
    omega

/-- From the start of a record on, the scanner finds this record and those after it. -/
theorem scan_frames (hclear : Scannable options recordType (before ++ f :: after))
    (hgen : ∀ g ∈ f :: after, Genuine sha256d recordType g)
    (hlen : size recordType (before ++ f :: after) < 2 ^ 32) : ∃ stop,
    scan sha256d options.magic recordType fileno
        (encode options recordType (before ++ f :: after)) (size recordType before) found
      = .ok (found ++ listed recordType fileno (size recordType before) (f :: after), stop)
      ∧ stop ≤ size recordType (before ++ f :: after)
      ∧ size recordType (before ++ f :: after) - 4 ≤ stop := by
  induction after generalizing before f found with
  | nil =>
    have hf := hgen f (List.mem_cons_self ..)
    have hpassed := passed_le hf
    have hquiet (q) (hq : size recordType before + passed recordType ≤ q) : ¬ Lookalike
        options.magic recordType (encode options recordType (before ++ [f])) q := by
      intro hlook
      obtain ⟨k, rfl⟩ := Nat.exists_eq_add_of_le hq
      have hlt := hlook.1
      rw [length_encode, size_append, size_cons, size_nil] at hlt
      exact hclear before f [] (passed recordType + k) rfl (by omega) (by omega)
        (by rwa [← Nat.add_assoc])
    have htail := @scan_tail sha256d options recordType _ fileno _
      (found ++ listed recordType fileno (size recordType before) [f]) (by simp; omega) hquiet
    rw [length_encode] at htail
    rw [scan_record hf hlen]
    exact htail
  | cons g after ih =>
    have hf := hgen f (List.mem_cons_self ..)
    have hg := hgen g (by simp)
    have hfirst : size recordType (before ++ [f]) < 2 ^ 32 := by
      rw [size_append, size_cons] at hlen ⊢
      rw [size_nil]
      omega
    have hpassed := passed_le hf
    have hskip (q) (hq : size recordType before + passed recordType ≤ q)
        (hlt : q < size recordType (before ++ [f])) :
        ofLe (slice (encode options recordType (before ++ f :: g :: after)) q 4)
          ≠ options.magic := by
      obtain ⟨k, rfl⟩ := Nat.exists_eq_add_of_le hq
      rw [size_append, size_cons, size_nil] at hlt
      rw [Nat.add_assoc]
      exact magic_absent hclear hg (by omega) (by omega)
    have hlast : size recordType (before ++ [f])
        ≤ (encode options recordType (before ++ f :: g :: after)).length - 4 := by
      have hhead : 4 ≤ magicLength recordType := by cases recordType <;> decide
      simp
      omega
    rw [scan_record hf hfirst, scan_skip (by simp; omega) hlast hskip]
    have hih := @ih g (before ++ [f])
      (found ++ [(f.1, ⟨fileno, size recordType before + magicLength recordType, f.2.length⟩)])
      (by simpa using hclear) (fun x hx => hgen x (List.mem_cons_of_mem _ hx)) (by simpa using hlen)
    simpa [listed, Nat.add_assoc] using hih

theorem mem_listed {start : Nat} {x : BlockHash × BlockRecord} :
    x ∈ listed recordType fileno start fs ↔ ∃ before data after, fs = before ++ (x.1, data) :: after
      ∧ x.2 = ⟨fileno, start + size recordType before + magicLength recordType, data.length⟩ := by
  induction fs generalizing start with
  | nil => simp [listed]
  | cons f fs ih =>
    rw [listed, List.mem_cons, ih]
    constructor
    · rintro (rfl | ⟨before, data, after, rfl, hx⟩)
      · exact ⟨[], f.2, fs, rfl, rfl⟩
      · exact ⟨f :: before, data, after, rfl, by simp [hx]; omega⟩
    · rintro ⟨before, data, after, hfs, hx⟩
      cases before with
      | nil =>
        obtain ⟨rfl, rfl⟩ := List.cons.inj hfs
        exact .inl (Prod.ext rfl hx)
      | cons g before =>
        obtain ⟨rfl, rfl⟩ := List.cons.inj hfs
        exact .inr ⟨before, data, after, rfl, by simp [hx]; omega⟩

/-! ## Stores filled by writes -/

/-- The stores that writes make of a fresh one, each block under the hash of its header. -/
inductive Filled (sha256d : List UInt8 → BlockHash) (options : BlockStoreOptions) :
    FileBlockStore → Records → Prop where
  | new : Filled sha256d options (new options) ∅
  | write {store store' : FileBlockStore} {records : Records} {recordType : RecordType}
      {hash : BlockHash} {data : List UInt8} :
      Filled sha256d options store records → Genuine sha256d recordType (hash, data) →
      store.write recordType hash data = .ok store' →
      Filled sha256d options store' (records.write (recordType, hash) data)

variable {store store' : FileBlockStore} {records : Records} {hash : BlockHash}
  {frames : FMap (RecordType × Nat) (List Frame)} {key : RecordType × BlockHash}
  {p : RecordType × Nat} {r : BlockRecord}

theorem Filled.runs (h : Filled sha256d options store records) : Runs options store records := by
  induction h with
  | new => exact .new
  | @write _ _ _ recordType hash data _ _ hw ih =>
    cases recordType with
    | block => exact @Runs.step _ _ _ _ (.writeBlock hash data) ih hw
    | undo => exact @Runs.step _ _ _ _ (.writeUndo hash data) ih hw

/-- Every frame is that of a live record. -/
def Full (sha256d : List UInt8 → BlockHash) (store : FileBlockStore)
    (frames : FMap (RecordType × Nat) (List Frame)) : Prop :=
  ∀ p before f after, frames.lookup p = some (before ++ f :: after) →
    Genuine sha256d p.1 f ∧ store.db.blockRecord.lookup (p.1, f.1)
      = some ⟨p.2, size p.1 before + magicLength p.1, f.2.length⟩

theorem Full.append (h : Full sha256d store frames)
    (hgen : Genuine sha256d recordType (hash, data))
    (hkey : (recordType, hash) ∉ store.db.blockRecord)
    (happ : Appended store store' frames recordType hash data fileno) :
    Full sha256d store' (frames.insert (recordType, fileno)
      (framesAt frames (recordType, fileno) ++ [(hash, data)])) := by
  intro q before f after hfs
  have hold {q before f after} (hfs : frames.lookup q = some (before ++ f :: after)) :
      Genuine sha256d q.1 f ∧ store'.db.blockRecord.lookup (q.1, f.1)
        = some ⟨q.2, size q.1 before + magicLength q.1, f.2.length⟩ := by
    obtain ⟨hf, hr⟩ := h q before f after hfs
    have hne : (q.1, f.1) ≠ (recordType, hash) := fun heq =>
      hkey (heq ▸ Finmap.mem_of_lookup_eq_some hr)
    rw [happ.blockRecord, Finmap.lookup_insert_of_ne _ hne]
    exact ⟨hf, hr⟩
  by_cases hq : q = (recordType, fileno)
  · subst hq
    rw [Finmap.lookup_insert, Option.some.injEq] at hfs
    rcases List.eq_nil_or_concat after with rfl | ⟨after, last, rfl⟩
    · obtain ⟨rfl, hlast⟩ := List.append_inj' hfs rfl
      obtain rfl := List.singleton_injective hlast
      exact ⟨hgen, by rw [happ.blockRecord, Finmap.lookup_insert]⟩
    · rw [List.concat_eq_append, ← List.cons_append, ← List.append_assoc] at hfs
      obtain ⟨hfs, -⟩ := List.append_inj' hfs rfl
      apply hold
      · rw [← hfs, framesAt]
        cases hlook : frames.lookup (recordType, fileno) with
        | none => simp [framesAt, hlook] at hfs
        | some fs => rfl
  · rw [Finmap.lookup_insert_of_ne _ hq] at hfs
    exact hold hfs

theorem Filled.layout (h : Filled sha256d options store records) : store.options = options ∧
    ∃ frames, Layout store frames records ∧ Full sha256d store frames := by
  induction h with
  | new => exact ⟨rfl, ∅, .new, nofun⟩
  | @write store store' records recordType hash data _ hgen hw ih =>
    obtain ⟨hopt, frames, hl, hfull⟩ := ih
    by_cases hkey : (recordType, hash) ∈ store.db.blockRecord
    · obtain ⟨data', hdata⟩ := hl.lookup_of_mem hkey
      obtain rfl := Except.ok.inj ((write_of_mem hkey).symm.trans hw)
      rw [Records.write, if_pos (Finmap.mem_of_lookup_eq_some hdata)]
      exact ⟨hopt, frames, hl, hfull⟩
    · obtain ⟨store'', fileno, hok, happ⟩ := hl.write_new hkey (length_of_write hkey hw)
      obtain rfl := Except.ok.inj (hok.symm.trans hw)
      rw [Records.write, if_neg fun hk => hkey (hl.live hk)]
      exact ⟨happ.options.trans hopt, _, hl.append hkey happ, hfull.append hgen hkey happ⟩

/-- Behind the header of every record, the scanner comes to no bytes that look like a record. -/
def Clear (store : FileBlockStore) : Prop :=
  ∀ key r data q, store.db.blockRecord.lookup key = some r →
    store.files.lookup (key.1, r.file) = some data →
    r.position - magicLength key.1 + passed key.1 ≤ q → q < r.position + r.length →
    ¬ Lookalike store.options.magic key.1 data q

theorem Clear.scannable (hclear : Clear store) (hl : Layout store frames records)
    (hfull : Full sha256d store frames) (hfs : frames.lookup p = some fs) :
    Scannable store.options p.1 fs := by
  rintro before f after q rfl hq hlt
  have hr := (hfull p before f after hfs).2
  have hfile : store.files.lookup p = some _ := hl.files.trans (congrArg _ hfs)
  exact hclear (p.1, f.1) _ _ _ hr hfile (by simp only; omega) (by simp only; omega)

/-! ## Indexing -/

/-- An index that is being rebuilt: what it has is right, and complete for the files done. -/
structure Progress (store s : FileBlockStore) (done : RecordType × Nat → Prop) : Prop where
  options : s.options = store.options
  files : s.files = store.files
  lastFile : s.db.lastFile = ∅
  sound {key : RecordType × BlockHash} {r : BlockRecord} :
    s.db.blockRecord.lookup key = some r → store.db.blockRecord.lookup key = some r
  complete {key : RecordType × BlockHash} {r : BlockRecord} :
    store.db.blockRecord.lookup key = some r → done (key.1, r.file) →
    s.db.blockRecord.lookup key = some r
  not_done {p : RecordType × Nat} : p ∈ s.db.file → done p
  file {p : RecordType × Nat} {data : List UInt8} : store.files.lookup p = some data → done p →
    ∃ blocks used, s.db.file.lookup p = some ⟨blocks, used, store.options.maxFileLength⟩
      ∧ used ≤ data.length ∧ data.length - 4 ≤ used

theorem Progress.start (store : FileBlockStore) :
    Progress store { store with db := .empty } fun _ => False where
  options := rfl
  files := rfl
  lastFile := rfl
  sound h := by cases h
  complete _ h := h.elim
  not_done h := absurd h Finmap.notMem_empty
  file _ h := h.elim

section Inserts

variable {V : Type} {db full : FMap (RecordType × BlockHash) V} {v : V}
  {entries : List (BlockHash × V)}

/-- Inserting entries of a map into a part of it gives a part of it with these entries. -/
theorem foldl_insert_sound
    (hdb : ∀ key v, db.lookup key = some v → full.lookup key = some v)
    (h : ∀ e ∈ entries, full.lookup (recordType, e.1) = some e.2) :
    ∀ key v, (entries.foldl (fun db e => db.insert (recordType, e.1) e.2) db).lookup key = some v →
      full.lookup key = some v := by
  induction entries generalizing db with
  | nil => exact hdb
  | cons e entries ih =>
    obtain ⟨he, h⟩ := List.forall_mem_cons.1 h
    refine ih (fun key v hv => ?_) h
    by_cases hkey : key = (recordType, e.1)
    · subst hkey
      rwa [← hv, Finmap.lookup_insert]
    · rw [Finmap.lookup_insert_of_ne _ hkey] at hv
      exact hdb key v hv

theorem foldl_insert_complete
    (h : ∀ e ∈ entries, full.lookup (recordType, e.1) = some e.2)
    (hkey : full.lookup key = some v)
    (hin : db.lookup key = some v ∨ ∃ e ∈ entries, key = (recordType, e.1)) :
    (entries.foldl (fun db e => db.insert (recordType, e.1) e.2) db).lookup key = some v := by
  induction entries generalizing db with
  | nil => simpa using hin
  | cons e entries ih =>
    obtain ⟨he, h⟩ := List.forall_mem_cons.1 h
    refine ih h ?_
    by_cases heq : key = (recordType, e.1)
    · subst heq
      rw [Finmap.lookup_insert, ← he, hkey]
      exact .inl rfl
    · rw [Finmap.lookup_insert_of_ne _ heq]
      simpa [heq] using hin

end Inserts

/-- What the scanner makes of a file of the store. -/
theorem scan_file (hl : Layout store frames records) (hfull : Full sha256d store frames)
    (hclear : Clear store) (hfs : frames.lookup p = some fs) :
    4 ≤ (encode store.options p.1 fs).length ∧ ∃ stop,
      scan sha256d store.options.magic p.1 p.2 (encode store.options p.1 fs) 0 []
        = .ok (listed p.1 p.2 0 fs, stop)
      ∧ stop ≤ (encode store.options p.1 fs).length
      ∧ (encode store.options p.1 fs).length - 4 ≤ stop
      ∧ (encode store.options p.1 fs).length < 2 ^ 32 := by
  obtain ⟨-, hmax, key, hkey⟩ := hl.file hfs
  obtain ⟨f, after, rfl⟩ : ∃ f after, fs = f :: after := by
    obtain ⟨ht, r, hr, hfile⟩ := mem_members.1 hkey
    obtain ⟨before, data, after, hfs', -⟩ := hl.located hr
    rw [ht, hfile, hfs, Option.some.injEq] at hfs'
    cases before <;> exact ⟨_, _, hfs'⟩
  have hmaxlt := store.options.maxFileLength_lt
  have hgen (g) (hg : g ∈ f :: after) : Genuine sha256d p.1 g := by
    obtain ⟨before, after', hsplit⟩ := List.append_of_mem hg
    exact (hfull p before g after' (hsplit ▸ hfs)).1
  have hhead : 4 ≤ magicLength p.1 := by cases p.1 <;> decide
  refine ⟨by simp; omega, ?_⟩
  obtain ⟨stop, hscan, hle, hge⟩ := @scan_frames sha256d _ p.1 f [] after p.2 []
    (hclear.scannable hl hfull hfs) hgen (by simpa using hmax.trans_lt (by omega))
  rw [length_encode]
  exact ⟨stop, hscan, hle, hge, by omega⟩

/-- One file is indexed. -/
theorem Progress.indexFile {s : FileBlockStore} {done : RecordType × Nat → Prop}
    (h : Progress store s done) (hl : Layout store frames records)
    (hfull : Full sha256d store frames) (hclear : Clear store) (hp : p ∈ store.files) :
    ∃ s', indexFile sha256d p.1 s p.2 = .ok s' ∧ Progress store s' fun q => q = p ∨ done q := by
  obtain ⟨data, hdata⟩ := Finmap.mem_iff.1 hp
  obtain ⟨fs, hfs, rfl⟩ := Option.map_eq_some_iff.1 (hl.files.symm.trans hdata)
  obtain ⟨hlong, stop, hscan, hle, hge, hlt⟩ := scan_file hl hfull hclear hfs
  have hstop : stop % 2 ^ 32 = stop := Nat.mod_eq_of_lt (by omega)
  have hentries : ∀ e ∈ listed p.1 p.2 0 fs, store.db.blockRecord.lookup (p.1, e.1) = some e.2 := by
    rintro ⟨hash, r⟩ he
    obtain ⟨before, data, after, rfl, rfl⟩ := mem_listed.1 he
    simpa using (hfull p before _ after hfs).2
  rw [FileBlockStore.indexFile, h.files, h.options]
  simp only [hdata, hscan, hstop, bind, Except.bind, pure, Except.pure]
  rw [if_neg (by omega)]
  refine ⟨_, rfl, ?_⟩
  constructor
  case options => rfl
  case files => rfl
  case lastFile => exact h.lastFile
  case sound => exact foldl_insert_sound (fun _ _ => h.sound) hentries _ _
  case complete =>
    intro key r hr hdone
    refine foldl_insert_complete hentries hr ?_
    obtain hp | hdone := hdone
    · obtain ⟨before, data, after, hfs', hpos, hlen, -⟩ := hl.located hr
      rw [hp, hfs, Option.some.injEq] at hfs'
      refine .inr ⟨(key.2, r), mem_listed.2 ⟨before, data, after, hfs', ?_⟩, ?_⟩
      · obtain ⟨file, position, length⟩ := r
        obtain rfl := hp
        simp only at hpos hlen
        rw [hpos, hlen, Nat.zero_add]
      · rw [← hp]
    · exact .inl (h.complete hr hdone)
  case not_done =>
    intro q hq
    exact (Finmap.mem_insert.1 hq).imp id h.not_done
  case file =>
    intro q data hq hdone
    by_cases heq : q = p
    · subst heq
      obtain rfl := Option.some.inj (hdata.symm.trans hq)
      exact ⟨_, stop, Finmap.lookup_insert _, hle, hge⟩
    · rw [Finmap.lookup_insert_of_ne _ heq]
      exact h.file hq (hdone.resolve_left heq)

theorem Progress.mono {s : FileBlockStore} {done done' : RecordType × Nat → Prop}
    (h : Progress store s done) (hsame : ∀ p, done p ↔ done' p) : Progress store s done' := by
  rwa [← funext fun p => propext (hsame p)]

/-- Files are indexed one by one. -/
theorem Progress.foldlM {s : FileBlockStore} {done : RecordType × Nat → Prop}
    (h : Progress store s done) (hl : Layout store frames records)
    (hfull : Full sha256d store frames) (hclear : Clear store) {filenos : List Nat}
    (hfiles : ∀ n ∈ filenos, (recordType, n) ∈ store.files) :
    ∃ s', filenos.foldlM (FileBlockStore.indexFile sha256d recordType) s = .ok s'
      ∧ Progress store s' fun p => p.1 = recordType ∧ p.2 ∈ filenos ∨ done p := by
  induction filenos generalizing s done with
  | nil => exact ⟨s, rfl, h.mono fun p => by simp⟩
  | cons n filenos ih =>
    obtain ⟨hn, hfiles⟩ := List.forall_mem_cons.1 hfiles
    obtain ⟨s₁, hok, h₁⟩ := h.indexFile hl hfull hclear hn
    obtain ⟨s₂, hrest, h₂⟩ := ih h₁ hfiles
    refine ⟨s₂, ?_, h₂.mono fun p => ?_⟩
    · rw [List.foldlM_cons, hok, bind_of_ok rfl, hrest]
    · rw [List.mem_cons, Prod.ext_iff]
      tauto

/-- All files of a type are indexed. -/
theorem Progress.index {s : FileBlockStore} {done : RecordType × Nat → Prop}
    (h : Progress store s done) (hl : Layout store frames records)
    (hfull : Full sha256d store frames) (hclear : Clear store) {dir : List Nat}
    (hdir : ∀ n, n ∈ dir ↔ (recordType, n) ∈ store.files)
    (hfew : ∀ n, (recordType, n) ∈ store.files → n < 100000)
    (hnew : ∀ n, ¬ done (recordType, n)) :
    ∃ s', s.index sha256d recordType dir = .ok s'
      ∧ Progress store s' fun p => p.1 = recordType ∧ p ∈ store.files ∨ done p := by
  have hmem (n) : n ∈ dir.filter (· < 100000) ↔ (recordType, n) ∈ store.files := by
    rw [List.mem_filter, hdir, decide_eq_true_iff]
    exact ⟨And.left, fun hn => ⟨hn, hfew n hn⟩⟩
  obtain ⟨s', hok, h'⟩ := h.foldlM hl hfull hclear fun n hn => (hmem n).1 hn
  refine ⟨s', ?_, h'.mono fun p => ?_⟩
  · rw [FileBlockStore.index, check]
    by_cases hempty : dir.filter (· < 100000) = []
    · rw [hempty] at hok ⊢
      exact hok
    · obtain ⟨n, hn⟩ := List.exists_mem_of_ne_nil _ hempty
      have hmissing : (dir.filter (· < 100000)).any
          (fun fileno => (recordType, fileno) ∉ s.db.file) = true :=
        List.any_eq_true.2 ⟨n, hn, decide_eq_true fun hin => hnew n (h.not_done hin)⟩
      simp only [hmissing, Bool.not_true, Bool.false_eq_true, if_false]
      exact hok
  · obtain ⟨t, n⟩ := p
    constructor
    · rintro (⟨rfl, hn⟩ | hdone)
      · exact .inl ⟨rfl, (hmem n).1 hn⟩
      · exact .inr hdone
    · rintro (⟨rfl, hn⟩ | hdone)
      · exact .inl ⟨rfl, (hmem n).2 hn⟩
      · exact .inr hdone

/-- What a reopened store has in common with the store before. -/
structure Reopened (store store' : FileBlockStore) : Prop where
  options : store'.options = store.options
  files : store'.files = store.files
  lastFile : store'.db.lastFile = ∅
  blockRecord : store'.db.blockRecord = store.db.blockRecord
  file {p : RecordType × Nat} {data : List UInt8} : store.files.lookup p = some data →
    ∃ blocks used, store'.db.file.lookup p = some ⟨blocks, used, store.options.maxFileLength⟩
      ∧ used ≤ data.length ∧ data.length - 4 ≤ used

/-- A store filled by writes with nothing that looks like a record is found again. -/
theorem Filled.reopened (h : Filled sha256d options store records) {dir : RecordType → List Nat}
    (hdir : ∀ recordType n, n ∈ dir recordType ↔ (recordType, n) ∈ store.files)
    (hfew : ∀ p ∈ store.files, p.2 < 100000) (hclear : Clear store) :
    ∃ store', store.reopen sha256d dir = .ok store' ∧ Reopened store store' := by
  obtain ⟨-, frames, hl, hfull⟩ := h.layout
  obtain ⟨s, hblock, hs⟩ := (Progress.start store).index hl hfull hclear
    (hdir .block) (fun n => hfew (.block, n)) fun _ => id
  obtain ⟨store', hundo, hs'⟩ := hs.index hl hfull hclear (hdir .undo)
    (fun n => hfew (.undo, n)) (by simp)
  refine ⟨store', ?_, hs'.options, hs'.files, hs'.lastFile, ?_, ?_⟩
  · rw [reopen, indexAllTypes, hblock, bind_of_ok rfl, hundo]
  · apply Finmap.ext_lookup
    intro key
    ext r
    refine ⟨hs'.sound, fun hr => hs'.complete hr ?_⟩
    obtain ⟨before, data, after, hfs, -⟩ := hl.located hr
    have hin : (key.1, r.file) ∈ store.files :=
      Finmap.mem_of_lookup_eq_some (hl.files.trans (congrArg _ hfs))
    cases hkey : key.1 <;> simp_all
  · intro p data hdata
    refine hs'.file hdata ?_
    have hin := Finmap.mem_of_lookup_eq_some hdata
    cases hp : p.1 <;> simp_all

/-- A store filled by writes whose data holds nothing that looks like a record, with files that
five digits number, has the same block records when its index is deleted and it is opened
again. -/
theorem Filled.same_records (h : Filled sha256d options store records)
    {dir : RecordType → List Nat}
    (hdir : ∀ recordType n, n ∈ dir recordType ↔ (recordType, n) ∈ store.files)
    (hfew : ∀ p ∈ store.files, p.2 < 100000) (hclear : Clear store) :
    ∃ store', store.reopen sha256d dir = .ok store'
      ∧ (∀ key, key ∈ store'.db.blockRecord ↔ key ∈ records)
      ∧ ∀ key ∈ records,
        store'.db.blockRecord.lookup key = store.db.blockRecord.lookup key := by
  obtain ⟨store', hok, hre⟩ := h.reopened hdir hfew hclear
  refine ⟨store', hok, fun key => ?_, fun key _ => ?_⟩
  · rw [hre.blockRecord]
    exact h.runs.kept.live
  · rw [hre.blockRecord]

/-- The double SHA-256 digests of a header of zeros and of a header of ones. -/
def digests (header : List UInt8) : BlockHash :=
  if header = List.replicate 80 0 then
    0x4be7570e8f70eb093640c8468274ba759745a7aa2b7d25ab1e0421b259845014
  else if header = List.replicate 80 1 then
    0x33092437b29bb76f0bdcf492dd5bc68638b8e2da7130cab23208ffb7f77115fd
  else 0

/-- A block with a header of zeros. -/
def zeroBlock (rest : List UInt8) : Frame :=
  (0x4be7570e8f70eb093640c8468274ba759745a7aa2b7d25ab1e0421b259845014,
    List.replicate 80 0 ++ rest)

theorem zeroBlock_genuine (rest : List UInt8) : Genuine digests .block (zeroBlock rest) := by
  have htake : (List.replicate 80 (0 : UInt8) ++ rest).take 80 = List.replicate 80 0 := by simp
  exact ⟨by simp, by rw [htake, digests, if_pos rfl]⟩

/-- The store after one write. -/
def single (options : BlockStoreOptions) (recordType : RecordType) (f : Frame) :
    FileBlockStore where
  options := options
  files := Finmap.insert (recordType, 0) (frame options recordType f) ∅
  db := {
    lastFile := Finmap.insert recordType 0 ∅
    file := Finmap.insert (recordType, 0) ⟨1, size recordType [f], options.maxFileLength⟩ ∅
    blockRecord := Finmap.insert (recordType, f.1) ⟨0, magicLength recordType, f.2.length⟩ ∅ }

theorem write_single (hlen : f.2.length + magicLength recordType ≤ options.maxFileLength) :
    (new options).write recordType f.1 f.2 = .ok (single options recordType f) := by
  have hkey : (recordType, f.1) ∉ (new options).db.blockRecord := Finmap.notMem_empty
  have halloc : (new options).allocate recordType (f.2.length + magicLength recordType)
      = .ok (0, .empty options.maxFileLength, Finmap.insert (recordType, 0) [] ∅) := by
    simp [allocate, new, StoreIndex.empty, FileRecord.empty,
      show ¬ options.maxFileLength < f.2.length + magicLength recordType by omega]
  have hwrite : writeAt [] 0 (frame options recordType f) = frame options recordType f :=
    @writeAt_length [] _
  rw [frame] at hwrite
  simp only [write, if_neg hkey, halloc, bind, Except.bind, Finmap.lookup_insert]
  simp [pure, Except.pure, new, StoreIndex.empty, FileRecord.empty, single, frame, hwrite,
    Finmap.insert_insert, Nat.add_comm]

theorem single_filled (hf : Genuine sha256d recordType f)
    (hlen : f.2.length + magicLength recordType ≤ options.maxFileLength) :
    Filled sha256d options (single options recordType f)
      ((∅ : Records).write (recordType, f.1) f.2) :=
  .write .new hf (write_single hlen)

theorem lookup_single (hr : (single options recordType f).db.blockRecord.lookup key = some r) :
    key = (recordType, f.1) ∧ r = ⟨0, magicLength recordType, f.2.length⟩ := by
  by_cases hkey : key = (recordType, f.1)
  · subst hkey
    exact ⟨rfl, (Option.some.inj ((Finmap.lookup_insert _).symm.trans hr)).symm⟩
  · rw [single, Finmap.lookup_insert_of_ne _ hkey] at hr
    cases hr

/-- The listing of a directory with one file of blocks. -/
def blockDir : RecordType → List Nat
  | .block => [0]
  | .undo => []

theorem mem_blockDir (recordType : RecordType) (n : Nat) :
    n ∈ blockDir recordType ↔ (recordType, n) ∈ (single options .block f).files := by
  cases recordType <;> simp [blockDir, single, Finmap.notMem_empty]

/-- The store with one file of blocks that comes back with an index of the given records. -/
def rebuilt (options : BlockStoreOptions) (f : Frame) (found : List (BlockHash × BlockRecord))
    (used : Nat) : FileBlockStore where
  options := options
  files := (single options .block f).files
  db := {
    lastFile := ∅
    file := Finmap.insert (.block, 0)
      ⟨found.length % 2 ^ 32, used % 2 ^ 32, options.maxFileLength⟩ ∅
    blockRecord := found.foldl (fun db e => db.insert (.block, e.1) e.2) ∅ }

theorem reopen_single (hlong : 4 ≤ (frame options .block f).length)
    (hscan : scan sha256d options.magic .block 0 (frame options .block f) 0 [] =
      .ok (found, stop)) :
    (single options .block f).reopen sha256d blockDir = .ok (rebuilt options f found stop) := by
  have hfile : indexFile sha256d .block { single options .block f with db := .empty } 0
      = .ok (rebuilt options f found stop) := by
    rw [indexFile]
    simp only [single, Finmap.lookup_insert]
    rw [if_neg (by omega), hscan]
    rfl
  have hcheck : check { single options .block f with db := .empty } .block [0] = (true, [0]) := by
    simp [check, StoreIndex.empty, Finmap.notMem_empty]
  have hblock : index sha256d .block [0] { single options .block f with db := .empty }
      = .ok (rebuilt options f found stop) := by
    rw [index, hcheck]
    simp only [Bool.not_true, Bool.false_eq_true, if_false, List.foldlM_cons]
    rw [hfile]
    rfl
  rw [reopen, indexAllTypes, blockDir, hblock, bind_of_ok rfl]
  rfl

theorem clear_empty_block : Clear (single (.bitcoin 256 (by decide)) .block (zeroBlock [0])) := by
  rintro key r data q hr hfile hq - ⟨hlt, -⟩
  obtain ⟨rfl, rfl⟩ := lookup_single hr
  obtain rfl := Option.some.inj ((Finmap.lookup_insert _).symm.trans hfile)
  rw [length_frame] at hlt
  simp only [magicLength, passed, zeroBlock, List.length_append, List.length_replicate,
    List.length_singleton] at hq hlt
  omega

/-- A block without transactions. -/
theorem Filled.same_records_empty_block : ∃ store',
    (single (.bitcoin 256 (by decide)) .block (zeroBlock [0])).reopen digests blockDir = .ok store'
    ∧ store'.db.blockRecord.lookup (.block, (zeroBlock [0]).1) = some ⟨0, 8, 81⟩ := by
  have hfilled : Filled digests (.bitcoin 256 (by decide)) _ _ :=
    single_filled (zeroBlock_genuine [0]) (by decide)
  obtain ⟨store', hok, -, hsame⟩ :=
    hfilled.same_records mem_blockDir (by simp [single, Finmap.notMem_empty]) clear_empty_block
  refine ⟨store', hok, ?_⟩
  rw [hsame _ (by decide)]
  rfl

/-- A transaction with an output whose script holds the magic, a length and a header of ones. -/
def embedding : List UInt8 :=
  [1] ++ le 4 1 ++ [1] ++ List.replicate 32 0 ++ le 4 0xFFFFFFFF ++ [2, 0x51, 0x51]
    ++ le 4 0xFFFFFFFF ++ [1] ++ le 8 0 ++ [88]
    ++ (le 4 0xD9B4BEF9 ++ le 4 81 ++ List.replicate 80 1) ++ le 4 0

/-- The file with this block. -/
def embeddingFile : List UInt8 :=
  frame (.bitcoin 256 (by decide)) .block (zeroBlock embedding)

/-- The scanner takes the script for a block. -/
theorem scan_embedding : scan digests 0xD9B4BEF9 .block 0 embeddingFile 0 []
    = .ok ([((zeroBlock embedding).1, ⟨0, 8, 231⟩),
        (digests (List.replicate 80 1), ⟨0, 155, 81⟩)], 235) := by
  have hfirst := @scan_record digests (.bitcoin 256 (by decide)) .block (zeroBlock embedding) [] []
    0 [] (zeroBlock_genuine _) (by decide +kernel)
  rw [List.nil_append, encode_singleton] at hfirst
  have hskip := @scan_skip digests (.bitcoin 256 (by decide)) .block embeddingFile 0 88 147
    [((zeroBlock embedding).1, ⟨0, 8, 231⟩)] (by decide) (by decide +kernel) (by decide +kernel)
  have hlength : ofLe (slice embeddingFile 151 4) = 81 := by decide +kernel
  have hheader : slice embeddingFile 155 80 = List.replicate 80 1 := by decide +kernel
  refine hfirst.trans (hskip.trans ?_)
  rw [scan, if_pos (by decide +kernel), if_neg (by decide +kernel), if_neg (by decide +kernel)]
  simp only
  rw [if_neg (by decide +kernel), hlength, hheader]
  exact @scan_end digests (.bitcoin 256 (by decide)) .block embeddingFile 0 235 _
    (by decide +kernel)

/-- After its index is rebuilt, a store has a record of a block that was never written. -/
theorem foreign_record : ∃ store' records,
    Filled digests (.bitcoin 256 (by decide))
      (single (.bitcoin 256 (by decide)) .block (zeroBlock embedding)) records
    ∧ (single (.bitcoin 256 (by decide)) .block (zeroBlock embedding)).reopen digests blockDir
      = .ok store'
    ∧ (.block, digests (List.replicate 80 1)) ∉ records
    ∧ store'.db.blockRecord.lookup (.block, digests (List.replicate 80 1)) = some ⟨0, 155, 81⟩ := by
  have hfilled : Filled digests (.bitcoin 256 (by decide)) _ _ :=
    single_filled (zeroBlock_genuine embedding) (by decide +kernel)
  have hreopen := @reopen_single digests (.bitcoin 256 (by decide)) (zeroBlock embedding) 235 _
    (by decide +kernel) scan_embedding
  exact ⟨_, _, hfilled, hreopen, by decide +kernel, by decide +kernel⟩

end FileBlockStore

end BitcoinNode

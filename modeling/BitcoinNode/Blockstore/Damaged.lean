import BitcoinNode.Blockstore.Reindex

/-!
# Data files with any content

What `index` makes of files that were cut, emptied or filled with garbage: which offsets the scanner
looks at, where it panics, and which of the records that it takes reach past the end of the file.
-/

namespace BitcoinNode

/-- A fold that fails does so at the first element that fails. -/
theorem foldlM_eq_error {ε α β : Type} {f : β → α → Except ε β} {xs : List α} {b : β} {e : ε} :
    xs.foldlM f b = .error e ↔ ∃ before x after b', xs = before ++ x :: after
      ∧ before.foldlM f b = .ok b' ∧ f b' x = .error e := by
  induction xs generalizing b with
  | nil =>
    refine iff_of_false nofun ?_
    rintro ⟨before, x, after, -, hnil, -⟩
    simp at hnil
  | cons x xs ih =>
    rw [List.foldlM_cons, bind_eq_error]
    constructor
    · rintro (hx | ⟨b', hx, hrest⟩)
      · exact ⟨[], x, xs, b, rfl, rfl, hx⟩
      · obtain ⟨before, y, after, b'', rfl, hbefore, hy⟩ := ih.1 hrest
        exact ⟨x :: before, y, after, b'', rfl,
          by rw [List.foldlM_cons, hx, bind_of_ok rfl, hbefore], hy⟩
    · rintro ⟨before, y, after, b', hsplit, hbefore, hy⟩
      cases before with
      | nil =>
        cases hsplit
        cases hbefore
        exact .inl hy
      | cons z before =>
        cases hsplit
        rw [List.foldlM_cons] at hbefore
        obtain ⟨b₁, hx, hbefore⟩ := bind_eq_ok.1 hbefore
        exact .inr ⟨b₁, hx, ih.2 ⟨before, y, after, b', rfl, hbefore, hy⟩⟩

namespace FileBlockStore

open Bytes Relation

/-! ## The offsets that the scanner looks at -/

/-- The magic stands at the offset, and some byte behind it. -/
def Marked (magic : Nat) (data : List UInt8) (q : Nat) : Prop :=
  q < data.length - 4 ∧ ofLe (slice data q 4) = magic

/-- The scanner takes a record at the offset: the file is long enough for its header. -/
def Taken (magic : Nat) (recordType : RecordType) (data : List UInt8) (q : Nat) : Prop :=
  Marked magic data q ∧ q + passed recordType ≤ data.length

/-- From where to where the scanner goes. -/
inductive Moves (magic : Nat) (recordType : RecordType) (data : List UInt8) : Nat → Nat → Prop where
  | skip {q : Nat} : q < data.length - 4 → ofLe (slice data q 4) ≠ magic →
      Moves magic recordType data q (q + 1)
  /-- A block whose header is cut is passed over. -/
  | corrupted {q : Nat} : recordType = .block → Marked magic data q → q + 8 ≤ data.length →
      data.length < q + passed .block → Moves magic recordType data q (q + 8)
  | record {q : Nat} : Taken magic recordType data q →
      Moves magic recordType data q (q + passed recordType)

/-- The scanner comes from one offset to another. -/
abbrev Comes (magic : Nat) (recordType : RecordType) (data : List UInt8) : Nat → Nat → Prop :=
  ReflTransGen (Moves magic recordType data)

/-- The length that a record says it has. -/
def lengthAt (data : List UInt8) (q : Nat) : Nat := ofLe (slice data (q + 4) 4)

/-- The position that is noted of a record, as a `u32`. -/
def positionAt (recordType : RecordType) (q : Nat) : Nat := (q + magicLength recordType) % 2 ^ 32

variable {sha256d : List UInt8 → BlockHash} {magic fileno p q q' stop : Nat}
  {recordType : RecordType} {data : List UInt8}
    {found found' taken : List (BlockHash × BlockRecord)}

theorem moves_unique (h : Moves magic recordType data p q) (h' : Moves magic recordType data p q') :
    q = q' := by
  cases h <;> cases h' <;> simp_all [Marked, Taken, passed] <;> omega

/-- The scanner is where it is, or comes to the place from the next one. -/
theorem comes_iff (hmoves : Moves magic recordType data p q') :
    Comes magic recordType data p q ↔ q = p ∨ Comes magic recordType data q' q := by
  rw [Comes, ReflTransGen.cases_head_iff]
  constructor
  · rintro (rfl | ⟨p', hp', hrest⟩)
    · exact .inl rfl
    · exact .inr (moves_unique hmoves hp' ▸ hrest)
  · rintro (rfl | hrest)
    · exact .inl rfl
    · exact .inr ⟨q', hmoves, hrest⟩

theorem comes_end (hend : ¬ p < data.length - 4) :
    Comes magic recordType data p q ↔ q = p := by
  rw [Comes, ReflTransGen.cases_head_iff]
  refine ⟨?_, fun h => .inl h.symm⟩
  rintro (rfl | ⟨p', hp', -⟩)
  · rfl
  · cases hp' with
    | skip hlt => exact absurd hlt hend
    | corrupted _ hmarked => exact absurd hmarked.1 hend
    | record htaken => exact absurd htaken.1.1 hend

theorem moves_lt (h : Moves magic recordType data p q) : p < q := by
  cases h with
  | skip | corrupted => omega
  | record => cases recordType <;> simp [passed]

theorem comes_le (h : Comes magic recordType data p q) : p ≤ q := by
  induction h with
  | refl => exact le_rfl
  | tail _ hmoves ih => exact ih.trans (moves_lt hmoves).le

/-! ## What the scan comes to -/

/-- The record that the scanner makes of an offset. -/
def recordAt (sha256d : List UInt8 → BlockHash) (recordType : RecordType) (fileno : Nat)
    (data : List UInt8) (q : Nat) : BlockHash × BlockRecord :=
  (match recordType with
    | .block => sha256d (slice data (q + 8) 80)
    | .undo => hashFromSlice (slice data (q + 8) 32),
    ⟨fileno, positionAt recordType q, lengthAt data q⟩)

/-- The magic stands where the file is too short for a length behind it. -/
def Cut (magic : Nat) (data : List UInt8) (q : Nat) : Prop :=
  Marked magic data q ∧ data.length < q + 8

/-- The magic and a length stand where the file is too short for the hash of an undo record. -/
def Short (magic : Nat) (recordType : RecordType) (data : List UInt8) (q : Nat) : Prop :=
  recordType = .undo ∧ Marked magic data q ∧ q + 8 ≤ data.length ∧ data.length < q + passed .undo

/-- The scan ends at the end of the file; these are the offsets at which it took a record. -/
structure Scans (magic : Nat) (recordType : RecordType) (data : List UInt8) (p : Nat)
    (offsets : List Nat) : Prop where
  mem {q : Nat} : q ∈ offsets ↔ Comes magic recordType data p q ∧ Taken magic recordType data q
  sorted : offsets.Pairwise (· < ·)
  cut {q : Nat} : Comes magic recordType data p q → ¬ Cut magic data q
  short {q : Nat} : Comes magic recordType data p q → ¬ Short magic recordType data q

theorem Scans.move {offsets : List Nat} (h : Scans magic recordType data q offsets)
    (hmoves : Moves magic recordType data p q) (htaken : ¬ Taken magic recordType data p)
    (hcut : ¬ Cut magic data p) (hshort : ¬ Short magic recordType data p) :
    Scans magic recordType data p offsets := by
  refine ⟨fun {q'} => ?_, h.sorted, fun {q'} hq' => ?_, fun {q'} hq' => ?_⟩
  · rw [h.mem, comes_iff hmoves]
    constructor
    · exact fun hq' => ⟨.inr hq'.1, hq'.2⟩
    · rintro ⟨rfl | hq', htaken'⟩
      · exact absurd htaken' htaken
      · exact ⟨hq', htaken'⟩
  · obtain rfl | hq' := (comes_iff hmoves).1 hq'
    · exact hcut
    · exact h.cut hq'
  · obtain rfl | hq' := (comes_iff hmoves).1 hq'
    · exact hshort
    · exact h.short hq'

theorem Scans.take {offsets : List Nat}
    (h : Scans magic recordType data (p + passed recordType) offsets)
    (htaken : Taken magic recordType data p) : Scans magic recordType data p (p :: offsets) := by
  have hmoves := Moves.record htaken
  have hlong : 8 < passed recordType := by cases recordType <;> decide
  refine ⟨fun {q} => ?_, ?_, fun {q} hq => ?_, fun {q} hq => ?_⟩
  · rw [List.mem_cons, h.mem, comes_iff hmoves]
    constructor
    · rintro (rfl | hq)
      · exact ⟨.inl rfl, htaken⟩
      · exact ⟨.inr hq.1, hq.2⟩
    · rintro ⟨rfl | hq, htaken'⟩
      · exact .inl rfl
      · exact .inr ⟨hq, htaken'⟩
  · refine List.pairwise_cons.2 ⟨fun q hq => ?_, h.sorted⟩
    have := comes_le (h.mem.1 hq).1
    omega
  · obtain rfl | hq := (comes_iff hmoves).1 hq
    · exact fun hcut => by have := hcut.2; have := htaken.2; omega
    · exact h.cut hq
  · obtain rfl | hq := (comes_iff hmoves).1 hq
    · rintro ⟨rfl, -, -, hshort⟩
      have := htaken.2
      omega
    · exact h.short hq

/-- The scan stops at a cut record, at a short one, or at the end of the file. -/
theorem scan_cases (magic : Nat) (recordType : RecordType) (fileno : Nat) (data : List UInt8)
    (p : Nat) (found : List (BlockHash × BlockRecord)) :
    (∃ q, Comes magic recordType data p q ∧ Cut magic data q
      ∧ scan sha256d magic recordType fileno data p found = .error (.panic .indexLength))
    ∨ (∃ q, Comes magic recordType data p q ∧ Short magic recordType data q
      ∧ scan sha256d magic recordType fileno data p found = .error (.error .io))
    ∨ ∃ offsets stop, Scans magic recordType data p offsets
      ∧ scan sha256d magic recordType fileno data p found
        = .ok (found ++ offsets.map (recordAt sha256d recordType fileno data), stop) := by
  fun_induction scan sha256d magic recordType fileno data p found with
  | case1 recordType p found hlt hmagic ih =>
    have hmoves : Moves magic recordType data p (p + 1) := .skip hlt hmagic
    obtain ⟨q, hq, h⟩ | ⟨q, hq, h⟩ | ⟨offsets, stop, hscans, h⟩ := ih
    · exact .inl ⟨q, hq.head hmoves, h⟩
    · exact .inr (.inl ⟨q, hq.head hmoves, h⟩)
    · exact .inr (.inr ⟨offsets, stop, hscans.move hmoves (fun ht => hmagic ht.1.2)
        (fun hc => hmagic hc.1.2) (fun hs => hmagic hs.2.1.2), h⟩)
  | case2 recordType p found hlt hmagic hcut =>
    exact .inl ⟨p, .refl, ⟨⟨hlt, not_not.1 hmagic⟩, hcut⟩, rfl⟩
  | case3 p found hlt hmagic hcut hlong ih =>
    have hmarked : Marked magic data p := ⟨hlt, not_not.1 hmagic⟩
    have hmoves : Moves magic .block data p (p + 8) :=
      .corrupted rfl hmarked (by omega) (by simp only [passed]; omega)
    obtain ⟨q, hq, h⟩ | ⟨q, hq, h⟩ | ⟨offsets, stop, hscans, h⟩ := ih
    · exact .inl ⟨q, hq.head hmoves, h⟩
    · exact .inr (.inl ⟨q, hq.head hmoves, h⟩)
    · refine .inr (.inr ⟨offsets, stop, hscans.move hmoves (fun ht => ?_) (fun hc => hcut hc.2)
        (fun hs => RecordType.noConfusion hs.1), h⟩)
      have := ht.2
      simp only [passed] at this
      omega
  | case4 p found hlt hmagic hcut length hlong hash ih =>
    have htaken : Taken magic .block data p :=
      ⟨⟨hlt, not_not.1 hmagic⟩, by simp only [passed]; omega⟩
    have hmoves := Moves.record htaken
    obtain ⟨q, hq, h⟩ | ⟨q, hq, h⟩ | ⟨offsets, stop, hscans, h⟩ := ih
    · exact .inl ⟨q, hq.head hmoves, h⟩
    · exact .inr (.inl ⟨q, hq.head hmoves, h⟩)
    · refine .inr (.inr ⟨p :: offsets, stop, hscans.take htaken, ?_⟩)
      rw [h, List.append_assoc]
      rfl
  | case5 p found hlt hmagic hcut hlong =>
    exact .inr (.inl ⟨p, .refl, ⟨rfl, ⟨hlt, not_not.1 hmagic⟩, by omega,
      by simp only [passed]; omega⟩, rfl⟩)
  | case6 p found hlt hmagic hcut length hlong hash ih =>
    have htaken : Taken magic .undo data p :=
      ⟨⟨hlt, not_not.1 hmagic⟩, by simp only [passed]; omega⟩
    have hmoves := Moves.record htaken
    obtain ⟨q, hq, h⟩ | ⟨q, hq, h⟩ | ⟨offsets, stop, hscans, h⟩ := ih
    · exact .inl ⟨q, hq.head hmoves, h⟩
    · exact .inr (.inl ⟨q, hq.head hmoves, h⟩)
    · refine .inr (.inr ⟨p :: offsets, stop, hscans.take htaken, ?_⟩)
      rw [h, List.append_assoc]
      rfl
  | case7 recordType p found hend =>
    have hcomes {q : Nat} := @comes_end magic p q recordType data hend
    refine .inr (.inr ⟨[], p, ⟨fun {q} => ?_, .nil, fun {q} hq => ?_, fun {q} hq => ?_⟩, ?_⟩)
    · refine iff_of_false List.not_mem_nil fun h => hend ?_
      exact hcomes.1 h.1 ▸ h.2.1.1
    · exact fun hcut => hend (hcomes.1 hq ▸ hcut.1.1)
    · exact fun hshort => hend (hcomes.1 hq ▸ hshort.2.1.1)
    · rw [List.map_nil, List.append_nil]

/-! ## One file -/

/-- A file that is scanned to its end. -/
structure Whole (magic : Nat) (recordType : RecordType) (data : List UInt8) : Prop where
  long : 4 ≤ data.length
  cut {q : Nat} : Comes magic recordType data 0 q → ¬ Cut magic data q
  short {q : Nat} : Comes magic recordType data 0 q → ¬ Short magic recordType data q

variable {store store' store₁ store₂ : FileBlockStore} {before after : List Nat}

/-- The store after the records at some offsets of a file were noted. -/
def noted (recordType : RecordType) (store : FileBlockStore) (fileno : Nat)
    (found : List (BlockHash × BlockRecord)) (stop : Nat) : FileBlockStore :=
  { store with db := {
    lastFile := store.db.lastFile
    file := store.db.file.insert (recordType, fileno)
      ⟨found.length % 2 ^ 32, stop % 2 ^ 32, store.options.maxFileLength⟩
    blockRecord := found.foldl
      (fun db (hash, record) => db.insert (recordType, hash) record) store.db.blockRecord } }

theorem indexFile_cases (hdata : store.files.lookup (recordType, fileno) = some data) :
    ((data.length < 4 ∨ ∃ q, Comes store.options.magic recordType data 0 q
        ∧ Cut store.options.magic data q)
      ∧ ∃ p, store.indexFile sha256d recordType fileno = .error (.panic p))
    ∨ (4 ≤ data.length ∧ (∃ q, Comes store.options.magic recordType data 0 q
        ∧ Short store.options.magic recordType data q)
      ∧ store.indexFile sha256d recordType fileno = .error (.error .io))
    ∨ ∃ offsets stop, 4 ≤ data.length ∧ Scans store.options.magic recordType data 0 offsets
      ∧ scan sha256d store.options.magic recordType fileno data 0 []
        = .ok (offsets.map (recordAt sha256d recordType fileno data), stop)
      ∧ store.indexFile sha256d recordType fileno = .ok (store.noted recordType fileno
        (offsets.map (recordAt sha256d recordType fileno data)) stop) := by
  unfold indexFile
  rw [hdata]
  dsimp only
  by_cases hlong : data.length < 4
  · exact .inl ⟨.inl hlong, _, if_pos hlong⟩
  rw [if_neg hlong]
  obtain ⟨q, hq, hcut, h⟩ | ⟨q, hq, hshort, h⟩ | ⟨offsets, stop, hscans, h⟩ :=
    @scan_cases sha256d store.options.magic recordType fileno data 0 []
  · exact .inl ⟨.inr ⟨q, hq, hcut⟩, _, by rw [h]; rfl⟩
  · exact .inr (.inl ⟨not_lt.1 hlong, ⟨q, hq, hshort⟩, by rw [h]; rfl⟩)
  · exact .inr (.inr ⟨offsets, stop, not_lt.1 hlong, hscans, h, by rw [h]; rfl⟩)

/-- The scanner stops where it takes nothing, and nowhere else. -/
theorem stuck_unique (hq : Comes magic recordType data p q) (hq' : Comes magic recordType data p q')
    (hstuck : ∀ s, ¬ Moves magic recordType data q s)
    (hstuck' : ∀ s, ¬ Moves magic recordType data q' s) : q = q' := by
  induction hq using ReflTransGen.head_induction_on with
  | refl =>
    obtain rfl | ⟨s, hs, -⟩ := ReflTransGen.cases_head_iff.1 hq'
    · rfl
    · exact absurd hs (hstuck s)
  | head hmoves _ ih =>
    obtain rfl | hrest := (comes_iff hmoves).1 hq'
    · exact absurd hmoves (hstuck' _)
    · exact ih hrest

theorem Cut.stuck (h : Cut magic data q) (s : Nat) : ¬ Moves magic recordType data q s := by
  obtain ⟨⟨hlt, hmagic⟩, hcut⟩ := h
  have hlong : 8 < passed recordType := by cases recordType <;> decide
  rintro (⟨-, hne⟩ | ⟨-, -, hle, -⟩ | ⟨-, hle⟩)
  · exact hne hmagic
  · omega
  · omega

theorem Short.stuck (h : Short magic recordType data q) (s : Nat) :
    ¬ Moves magic recordType data q s := by
  obtain ⟨rfl, ⟨hlt, hmagic⟩, -, hshort⟩ := h
  rintro (⟨-, hne⟩ | ⟨hblock, -⟩ | ⟨-, hle⟩)
  · exact hne hmagic
  · cases hblock
  · omega

/-- A file that is cut is not short as well. -/
theorem not_short_of_cut (hq : Comes magic recordType data 0 q) (hcut : Cut magic data q)
    (hq' : Comes magic recordType data 0 q') : ¬ Short magic recordType data q' := by
  intro hshort
  obtain rfl := stuck_unique hq hq' hcut.stuck hshort.stuck
  have := hshort.2.2.1
  have := hcut.2
  omega

theorem Scans.whole {offsets : List Nat} (h : Scans magic recordType data 0 offsets)
    (hlong : 4 ≤ data.length) : Whole magic recordType data := ⟨hlong, h.cut, h.short⟩

/-- A file is indexed when it is scanned to its end. -/
theorem indexFile_whole (hdata : store.files.lookup (recordType, fileno) = some data)
    (hwhole : Whole store.options.magic recordType data) : ∃ offsets stop,
      Scans store.options.magic recordType data 0 offsets
      ∧ scan sha256d store.options.magic recordType fileno data 0 []
        = .ok (offsets.map (recordAt sha256d recordType fileno data), stop)
      ∧ store.indexFile sha256d recordType fileno = .ok (store.noted recordType fileno
        (offsets.map (recordAt sha256d recordType fileno data)) stop) := by
  obtain ⟨hcut, -⟩ | ⟨-, ⟨q, hq, hshort⟩, -⟩ | ⟨offsets, stop, -, h⟩ :=
    @indexFile_cases sha256d fileno recordType data store hdata
  · obtain hlt | ⟨q, hq, hcut⟩ := hcut
    · exact absurd hwhole.long (by omega)
    · exact absurd hcut (hwhole.cut hq)
  · exact absurd hshort (hwhole.short hq)
  · exact ⟨offsets, stop, h⟩

/-- The file of a number is there, and is scanned to its end. -/
def Complete (store : FileBlockStore) (recordType : RecordType) (fileno : Nat) : Prop :=
  ∃ data, store.files.lookup (recordType, fileno) = some data
    ∧ Whole store.options.magic recordType data

theorem indexFile_eq_ok (h : store.indexFile sha256d recordType fileno = .ok store') :
    store.Complete recordType fileno ∧ store'.files = store.files
      ∧ store'.options = store.options := by
  cases hdata : store.files.lookup (recordType, fileno) with
  | none =>
    rw [indexFile, hdata] at h
    cases h
  | some data =>
    obtain ⟨-, p, heq⟩ | ⟨-, -, heq⟩ | ⟨offsets, stop, hlong, hscans, -, heq⟩ :=
      @indexFile_cases sha256d fileno recordType data store hdata
    · cases heq.symm.trans h
    · cases heq.symm.trans h
    · cases heq.symm.trans h
      exact ⟨⟨data, hdata, hscans.whole hlong⟩, rfl, rfl⟩

/-! ## All files -/

theorem foldlM_indexFile (h : before.foldlM (indexFile sha256d recordType) store = .ok store') :
    (∀ n ∈ before, store.Complete recordType n) ∧ store'.files = store.files
      ∧ store'.options = store.options := by
  induction before generalizing store with
  | nil =>
    cases h
    exact ⟨nofun, rfl, rfl⟩
  | cons n before ih =>
    rw [List.foldlM_cons] at h
    obtain ⟨store₁, hfile, h⟩ := bind_eq_ok.1 h
    obtain ⟨hcomplete, hfiles, hoptions⟩ := indexFile_eq_ok hfile
    obtain ⟨hrest, hfiles', hoptions'⟩ := ih h
    refine ⟨List.forall_mem_cons.2 ⟨hcomplete, fun n hn => ?_⟩, hfiles'.trans hfiles,
      hoptions'.trans hoptions⟩
    obtain ⟨data, hdata, hwhole⟩ := hrest n hn
    exact ⟨data, hfiles ▸ hdata, hoptions ▸ hwhole⟩

theorem exists_foldlM_indexFile (sha256d : List UInt8 → BlockHash)
    (h : ∀ n ∈ before, store.Complete recordType n) :
    ∃ store', before.foldlM (indexFile sha256d recordType) store = .ok store' := by
  induction before generalizing store with
  | nil => exact ⟨store, rfl⟩
  | cons n before ih =>
    obtain ⟨⟨data, hdata, hwhole⟩, hrest⟩ := List.forall_mem_cons.1 h
    obtain ⟨offsets, stop, -, -, hfile⟩ := @indexFile_whole sha256d n recordType data store
      hdata hwhole
    obtain ⟨store', hstore'⟩ := @ih (store.noted recordType n
      (offsets.map (recordAt sha256d recordType n data)) stop) hrest
    exact ⟨store', by rw [List.foldlM_cons, hfile, bind_of_ok rfl, hstore']⟩

/-- What a file is to be like for `index` to survive it: it has four bytes, the magic does not stand
where it is too short for a length, and if the scan comes to its end, every record that the scanner
takes before another one ends inside it. -/
structure Readable (magic : Nat) (recordType : RecordType) (data : List UInt8) : Prop where
  long : 4 ≤ data.length
  cut {q : Nat} : Comes magic recordType data 0 q → ¬ Cut magic data q
  inside {q q' : Nat} : (∀ s, Comes magic recordType data 0 s → ¬ Short magic recordType data s) →
    Comes magic recordType data 0 q → Taken magic recordType data q →
    Comes magic recordType data 0 q' → Taken magic recordType data q' → q < q' →
    positionAt recordType q + lengthAt data q ≤ data.length

/-- `index` writes these records for a file, in this order, and leaves the store like this. -/
def Writes (sha256d : List UInt8 → BlockHash) (recordType : RecordType) (dir : List Nat)
    (store : FileBlockStore) (fileno : Nat) (found : List (BlockHash × BlockRecord))
    (store₂ : FileBlockStore) : Prop :=
  ∃ before after store₁ data stop, store.check recordType dir = (true, before ++ fileno :: after)
    ∧ before.foldlM (indexFile sha256d recordType) store = .ok store₁
    ∧ store₁.files.lookup (recordType, fileno) = some data
    ∧ scan sha256d store₁.options.magic recordType fileno data 0 [] = .ok (found, stop)
    ∧ store₁.indexFile sha256d recordType fileno = .ok store₂

/-- `index` returns, and every record that it writes lies in its file, or is the last one of the
file and reading it is an error. -/
structure Survives (sha256d : List UInt8 → BlockHash) (recordType : RecordType) (dir : List Nat)
    (store : FileBlockStore) : Prop where
  returns (p : Panic) : store.index sha256d recordType dir ≠ .error (.panic p)
  inside {fileno : Nat} {found xs ys : List (BlockHash × BlockRecord)} {store₂ : FileBlockStore}
    {hash : BlockHash} {r : BlockRecord} {data : List UInt8} :
    store.Writes sha256d recordType dir fileno found store₂ → found = xs ++ (hash, r) :: ys →
    store.files.lookup (recordType, fileno) = some data →
    r.position + r.length ≤ data.length
      ∨ ys = [] ∧ store₂.read recordType hash 0 none = .error (.error .io)

theorem lengthAt_lt (data : List UInt8) (q : Nat) : lengthAt data q < 2 ^ 32 := by
  have hlt := ofLe_lt (slice data (q + 4) 4)
  have hlen : (slice data (q + 4) 4).length ≤ 4 := by simp [slice]
  calc lengthAt data q < 256 ^ (slice data (q + 4) 4).length := hlt
    _ ≤ 256 ^ 4 := Nat.pow_le_pow_right (by decide) hlen
    _ = 2 ^ 32 := by norm_num

/-- The last record of a file is an error to read when it reaches past the end of the file. -/
theorem read_last {xs : List (BlockHash × BlockRecord)} {hash : BlockHash} {r : BlockRecord}
    (hdata : store.files.lookup (recordType, r.file) = some data)
    (hposition : r.position < 2 ^ 32) (hlength : r.length < 2 ^ 32)
    (hstart : r.position ≤ data.length) (hend : data.length < r.position + r.length) :
    (store.noted recordType fileno (xs ++ [(hash, r)]) stop).read recordType hash 0 none
      = .error (.error .io) := by
  have hr : (store.noted recordType fileno (xs ++ [(hash, r)]) stop).db.blockRecord.lookup
      (recordType, hash) = some r := by
    simp only [noted, List.foldl_append, List.foldl_cons, List.foldl_nil]
    exact Finmap.lookup_insert _
  have hfile : (store.noted recordType fileno (xs ++ [(hash, r)]) stop).files.lookup
      (recordType, r.file) = some data := hdata
  rw [read_to_end hr, if_neg (by omega), read_of_lookup hr hfile, Nat.sub_zero,
    Word.add_eq (by omega), Word.add_eq (by omega), if_neg (by omega), if_pos (by omega)]

theorem index_of_missing (h : store.check recordType dir = (true, before)) :
    store.index sha256d recordType dir = before.foldlM (indexFile sha256d recordType) store := by
  rw [index, h]
  rfl

/-- Where a record ends at which no other begins. -/
theorem Scans.exists_later {offsets os os' : List Nat} (h : Scans magic recordType data 0 offsets)
    (hsplit : offsets = os ++ q :: os') : Comes magic recordType data 0 q
      ∧ Taken magic recordType data q ∧ ∀ q', q' ∈ os' ↔ Comes magic recordType data 0 q'
        ∧ Taken magic recordType data q' ∧ q < q' := by
  have hq := h.mem.1 (hsplit ▸ List.mem_append_right os List.mem_cons_self)
  refine ⟨hq.1, hq.2, fun q' => ?_⟩
  have hsorted := h.sorted
  rw [hsplit, List.pairwise_append, List.pairwise_cons] at hsorted
  obtain ⟨-, ⟨hlater, -⟩, hearlier⟩ := hsorted
  constructor
  · intro hq'
    have hmem := h.mem.1 (hsplit ▸ List.mem_append_right os (List.mem_cons_of_mem _ hq'))
    exact ⟨hmem.1, hmem.2, hlater q' hq'⟩
  · rintro ⟨hcomes, htaken, hlt⟩
    have hmem : q' ∈ os ++ q :: os' := hsplit ▸ h.mem.2 ⟨hcomes, htaken⟩
    rcases List.mem_append.1 hmem with hmem | hmem
    · have := hearlier q' hmem q List.mem_cons_self
      omega
    · exact (List.mem_cons.1 hmem).resolve_left hlt.ne'

/-- `index` survives the files exactly when those that it comes to are readable. -/
theorem index_survives_iff (sha256d : List UInt8 → BlockHash) (recordType : RecordType)
    (dir : List Nat) (store : FileBlockStore) : store.Survives sha256d recordType dir ↔
      ∀ before fileno after data, store.check recordType dir = (true, before ++ fileno :: after) →
        (∀ n ∈ before, store.Complete recordType n) →
        store.files.lookup (recordType, fileno) = some data →
        Readable store.options.magic recordType data := by
  constructor
  · intro hsurvives before fileno after data hcheck hcomplete hdata
    obtain ⟨store₁, hbefore⟩ := exists_foldlM_indexFile sha256d hcomplete
    obtain ⟨-, hfiles, hoptions⟩ := foldlM_indexFile hbefore
    have hdata₁ : store₁.files.lookup (recordType, fileno) = some data := hfiles ▸ hdata
    have hreturns (p : Panic) : store₁.indexFile sha256d recordType fileno ≠ .error (.panic p) := by
      intro hpanic
      refine hsurvives.returns p ?_
      rw [index_of_missing hcheck, foldlM_eq_error]
      exact ⟨before, fileno, after, store₁, rfl, hbefore, hpanic⟩
    rw [← hoptions]
    obtain ⟨-, p, hpanic⟩ | ⟨hlong, ⟨s, hs, hshort⟩, -⟩
      | ⟨offsets, stop, hlong, hscans, hscan, hfile⟩ :=
        @indexFile_cases sha256d fileno recordType data store₁ hdata₁
    · exact absurd hpanic (hreturns p)
    · exact ⟨hlong, fun {q} hq hcut => not_short_of_cut hq hcut hs hshort,
        fun hnone => absurd hshort (hnone s hs)⟩
    · refine ⟨hlong, hscans.cut, fun {q q'} _ hq htaken hq' htaken' hlt => ?_⟩
      obtain ⟨os, os', hsplit⟩ := List.append_of_mem (hscans.mem.2 ⟨hq, htaken⟩)
      have hlater := ((hscans.exists_later hsplit).2.2 q').2 ⟨hq', htaken', hlt⟩
      have hfound : offsets.map (recordAt sha256d recordType fileno data)
          = os.map (recordAt sha256d recordType fileno data)
            ++ recordAt sha256d recordType fileno data q
              :: os'.map (recordAt sha256d recordType fileno data) := by
        rw [hsplit, List.map_append, List.map_cons]
      obtain hend | ⟨hnil, -⟩ :=
        hsurvives.inside ⟨before, after, store₁, data, stop, hcheck, hbefore, hdata₁, hscan, hfile⟩
          hfound hdata
      · exact hend
      · exact absurd (List.map_eq_nil_iff.1 hnil) (List.ne_nil_of_mem hlater)
  · intro hreadable
    constructor
    · intro p hpanic
      cases hcheck : store.check recordType dir with
      | mk missing filenos =>
        cases missing with
        | false =>
          rw [index, hcheck] at hpanic
          cases hpanic
        | true =>
          rw [index_of_missing hcheck, foldlM_eq_error] at hpanic
          obtain ⟨before, fileno, after, store₁, rfl, hbefore, hpanic⟩ := hpanic
          obtain ⟨hcomplete, hfiles, hoptions⟩ := foldlM_indexFile hbefore
          cases hdata : store₁.files.lookup (recordType, fileno) with
          | none =>
            rw [indexFile, hdata] at hpanic
            cases hpanic
          | some data =>
            have hfile := hreadable before fileno after data hcheck hcomplete (hfiles ▸ hdata)
            rw [← hoptions] at hfile
            obtain ⟨hcut, -⟩ | ⟨-, -, heq⟩ | ⟨_, _, -, -, -, heq⟩ :=
              @indexFile_cases sha256d fileno recordType data store₁ hdata
            · obtain hlt | ⟨q, hq, hcut⟩ := hcut
              · exact absurd hfile.long (by omega)
              · exact hfile.cut hq hcut
            · cases heq.symm.trans hpanic
            · cases heq.symm.trans hpanic
    · intro fileno found xs ys store₂ hash r data hwrites hsplit hdata
      obtain ⟨before, after, store₁, data', stop, hcheck, hbefore, hdata₁, hscan, hfile⟩ := hwrites
      obtain ⟨hcomplete, hfiles, hoptions⟩ := foldlM_indexFile hbefore
      obtain rfl : data = data' := Option.some.inj (hdata.symm.trans (hfiles ▸ hdata₁))
      have hfine := hreadable before fileno after data hcheck hcomplete hdata
      rw [← hoptions] at hfine
      obtain ⟨-, p, heq⟩ | ⟨-, -, heq⟩ | ⟨offsets, stop', hlong, hscans, hscan', heq⟩ :=
        @indexFile_cases sha256d fileno recordType data store₁ hdata₁
      · cases heq.symm.trans hfile
      · cases heq.symm.trans hfile
      obtain ⟨rfl, rfl⟩ := Prod.mk.inj (Except.ok.inj (hscan.symm.trans hscan'))
      obtain rfl := Except.ok.inj (heq.symm.trans hfile)
      obtain ⟨os, rest, rfl, rfl, hrest⟩ := List.map_eq_append_iff.1 hsplit
      obtain ⟨q, os', rfl, hrecord, rfl⟩ := List.map_eq_cons_iff.1 hrest
      obtain ⟨hq, htaken, hlater⟩ := hscans.exists_later rfl
      obtain ⟨rfl, rfl⟩ := Prod.mk.inj hrecord
      by_cases hinside : positionAt recordType q + lengthAt data q ≤ data.length
      · exact .inl hinside
      have hlast : os'.map (recordAt sha256d recordType fileno data) = [] := by
        rw [List.map_eq_nil_iff, List.eq_nil_iff_forall_not_mem]
        intro q' hq'
        obtain ⟨hcomes, htaken', hlt⟩ := (hlater q').1 hq'
        exact hinside (hfine.inside (fun _ => hscans.short) hq htaken hcomes htaken' hlt)
      have hstart : positionAt recordType q ≤ data.length := by
        have := Nat.mod_le (q + magicLength recordType) (2 ^ 32)
        have := htaken.2
        cases recordType <;> simp only [positionAt, passed, magicLength] at * <;> omega
      refine .inr ⟨hlast, ?_⟩
      rw [List.map_append, List.map_cons, hlast]
      exact read_last (r := ⟨fileno, positionAt recordType q, lengthAt data q⟩) hdata₁
        (Nat.mod_lt _ (by decide)) (lengthAt_lt data q) hstart (not_le.1 hinside)

end FileBlockStore

namespace Small

/-- A data file that was created before anything was written to it. -/
def emptied : FileBlockStore :=
  ⟨.bitcoin (128 * 1024 * 1024) (by decide), .empty, Finmap.singleton (.block, 0) []⟩

/-- `index` panics at an empty data file. -/
theorem index_panics_on_empty :
    ¬ emptied.Survives (fun _ => 0) .block [0] := by
  intro h
  exact h.returns .indexMagic rfl

end Small

end BitcoinNode

import Mathlib.Tactic

/-!
# Byte strings

Fixed-width numbers in little-endian order, slices of a byte string, and writing at an
offset: the bytes before and after the written ones stay.
-/

namespace BitcoinNode.Bytes

/-- The `width` lowest bytes of a number, lowest first. -/
def le : Nat → Nat → List UInt8
  | 0, _ => []
  | width + 1, n => UInt8.ofNat n :: le width (n / 256)

/-- The number that bytes spell, lowest first. -/
def ofLe : List UInt8 → Nat
  | [] => 0
  | byte :: bytes => byte.toNat + 256 * ofLe bytes

@[simp] theorem length_le (width n : Nat) : (le width n).length = width := by
  induction width generalizing n with
  | zero => rfl
  | succ width ih => simp [le, ih]

theorem ofLe_le {width n : Nat} (h : n < 256 ^ width) : ofLe (le width n) = n := by
  induction width generalizing n with
  | zero => simp_all [le, ofLe]
  | succ width ih =>
    have hdiv : n / 256 < 256 ^ width := by
      rw [Nat.div_lt_iff_lt_mul (by decide)]
      rwa [← Nat.pow_succ]
    rw [le, ofLe, ih hdiv, UInt8.toNat_ofNat']
    omega

theorem ofLe_lt (bytes : List UInt8) : ofLe bytes < 256 ^ bytes.length := by
  induction bytes with
  | nil => simp [ofLe]
  | cons byte bytes ih =>
    have hbyte := byte.toNat_lt
    rw [ofLe, List.length_cons, Nat.pow_succ]
    omega

theorem le_ofLe (bytes : List UInt8) : le bytes.length (ofLe bytes) = bytes := by
  induction bytes with
  | nil => rfl
  | cons byte bytes ih =>
    have hbyte := byte.toNat_lt
    have hhead : UInt8.ofNat (byte.toNat + 256 * ofLe bytes) = byte := by
      refine UInt8.toNat_inj.1 ?_
      rw [UInt8.toNat_ofNat']
      omega
    rw [ofLe, List.length_cons, le, hhead,
      show (byte.toNat + 256 * ofLe bytes) / 256 = ofLe bytes by omega, ih]

theorem le_inj {width n n' : Nat} (h : n < 256 ^ width) (h' : n' < 256 ^ width) :
    le width n = le width n' ↔ n = n' := by
  refine ⟨fun heq => ?_, congrArg _⟩
  rw [← ofLe_le h, heq, ofLe_le h']

/-- The `width` lowest bytes of a number, highest first. -/
def be (width n : Nat) : List UInt8 := (le width n).reverse

/-- The number that bytes spell, highest first. -/
def ofBe (bytes : List UInt8) : Nat := ofLe bytes.reverse

@[simp] theorem length_be (width n : Nat) : (be width n).length = width := by simp [be]

theorem ofBe_be {width n : Nat} (h : n < 256 ^ width) : ofBe (be width n) = n := by
  rw [ofBe, be, List.reverse_reverse, ofLe_le h]

theorem be_inj {width n n' : Nat} (h : n < 256 ^ width) (h' : n' < 256 ^ width) :
    be width n = be width n' ↔ n = n' := by
  rw [be, be, List.reverse_inj, le_inj h h']

/-- The `length` bytes from offset `pos` on, or as many as there are. -/
def slice (data : List UInt8) (pos length : Nat) : List UInt8 := (data.drop pos).take length

/-- Write bytes at an offset; a gap is filled with zeros. -/
def writeAt (data : List UInt8) (pos : Nat) (bytes : List UInt8) : List UInt8 :=
  data.take pos ++ List.replicate (pos - data.length) 0 ++ bytes
    ++ data.drop (pos + bytes.length)

variable {data before after bytes : List UInt8} {pos length : Nat}

theorem slice_middle : slice (before ++ bytes ++ after) before.length bytes.length = bytes := by
  simp [slice]

theorem slice_append_left (h : pos + length ≤ data.length) :
    slice (data ++ after) pos length = slice data pos length := by
  rw [slice, slice, List.drop_append_of_le_length (by omega),
    List.take_append_of_le_length (by rw [List.length_drop]; omega)]

theorem slice_append_right {start : Nat} (h : start = data.length) :
    slice (data ++ after) (start + pos) length = slice after pos length := by
  rw [slice, slice, h, List.drop_append, List.drop_eq_nil_of_le (by omega), List.nil_append,
    Nat.add_sub_cancel_left]

/-- A part of a slice is a slice. -/
theorem slice_slice {start n : Nat} (h : start + n ≤ length) :
    slice (slice data pos length) start n = slice data (pos + start) n := by
  rw [slice, slice, slice, List.drop_take, List.take_take, List.drop_drop, min_eq_left (by omega)]

/-- Writing at the end appends. -/
theorem writeAt_length : writeAt data data.length bytes = data ++ bytes := by
  simp [writeAt]

theorem le_length_writeAt (h : pos ≤ data.length) :
    pos + bytes.length ≤ (writeAt data pos bytes).length := by
  simp [writeAt, h]

/-- Writing behind the bytes before the offset covers only what follows them. -/
theorem writeAt_append (h : before.length = pos) :
    writeAt (before ++ after) pos bytes = before ++ bytes ++ after.drop bytes.length := by
  subst h
  rw [writeAt, List.take_left, List.length_append,
    show before.length - (before.length + after.length) = 0 by omega, List.replicate_zero,
    List.append_nil, List.drop_append, List.drop_eq_nil_of_le (by omega), List.nil_append,
    Nat.add_sub_cancel_left]

/-- Bytes of which a part has been written are written as if it had not. -/
theorem writeAt_take {n : Nat} :
    writeAt (writeAt data pos (bytes.take n)) pos bytes = writeAt data pos bytes := by
  have hlength : (data.take pos ++ List.replicate (pos - data.length) 0).length = pos := by
    rw [List.length_append, List.length_take, List.length_replicate]
    omega
  have hpart : writeAt data pos (bytes.take n)
      = data.take pos ++ List.replicate (pos - data.length) 0
        ++ (bytes.take n ++ data.drop (pos + (bytes.take n).length)) := List.append_assoc ..
  have hrest : (bytes.take n ++ data.drop (pos + (bytes.take n).length)).drop bytes.length
      = data.drop (pos + bytes.length) := by
    have hle : (bytes.take n).length ≤ bytes.length := List.length_take_le' ..
    rw [List.drop_append, List.drop_eq_nil_of_le hle, List.nil_append, List.drop_drop]
    congr 1
    omega
  rw [hpart, writeAt_append hlength, hrest, writeAt]

/-- Writing bytes that start with what they cover only appends. -/
theorem writeAt_of_prefix (hpos : pos ≤ data.length) (h : data.drop pos <+: bytes) :
    ∃ more, writeAt data pos bytes = data ++ more := by
  obtain ⟨more, rfl⟩ := h
  refine ⟨more, ?_⟩
  have hdrop : data.drop (pos + (data.drop pos ++ more).length) = [] := by
    rw [List.drop_eq_nil_iff, List.length_append, List.length_drop]
    omega
  rw [writeAt, hdrop, Nat.sub_eq_zero_of_le hpos, List.replicate_zero, List.append_nil,
    List.append_nil, ← List.append_assoc, List.take_append_drop]

end BitcoinNode.Bytes

import BitcoinNode.Library.Bytes

/-!
# Numbers of variable length

A number below 253 is one byte; a larger one is a mark followed by two, four or eight bytes.
A number in a longer form than it needs is refused.
-/

namespace BitcoinNode.VarInt

open Bytes

def encode (n : Nat) : List UInt8 :=
  if n < 0xfd then [UInt8.ofNat n]
  else if n < 0x10000 then 0xfd :: le 2 n
  else if n < 0x100000000 then 0xfe :: le 4 n
  else 0xff :: le 8 n

/-- A number of a fixed width that is not below the least one its mark is for, and the number
of bytes read with the mark. -/
def decodeFixed (width least : Nat) (bytes : List UInt8) : Option (Nat × Nat) :=
  if bytes.length < width then none
  else
    let n := ofLe (bytes.take width)
    if n < least then none else some (n, width + 1)

/-- The number at the start of some bytes, and the number of bytes read. -/
def decode : List UInt8 → Option (Nat × Nat)
  | [] => none
  | mark :: bytes =>
    if mark = 0xff then decodeFixed 8 0x100000000 bytes
    else if mark = 0xfe then decodeFixed 4 0x10000 bytes
    else if mark = 0xfd then decodeFixed 2 0xfd bytes
    else some (mark.toNat, 1)

variable {n width least : Nat} {rest bytes : List UInt8} {mark : UInt8}

theorem length_encode : (encode n).length =
    if n < 0xfd then 1 else if n < 0x10000 then 3 else if n < 0x100000000 then 5 else 9 := by
  unfold encode
  split_ifs <;> simp

/-- A mark below 253 is the number itself. -/
theorem decode_cons (h : mark.toNat < 0xfd) : decode (mark :: bytes) = some (mark.toNat, 1) := by
  have hne : ∀ m : UInt8, 0xfd ≤ m.toNat → mark ≠ m := by
    rintro m hm rfl
    omega
  rw [decode, if_neg (hne _ (by decide)), if_neg (hne _ (by decide)), if_neg (hne _ (by decide))]

theorem decodeFixed_eq_some {k : Nat} (h : decodeFixed width least bytes = some (n, k)) :
    least ≤ n ∧ k = width + 1 ∧ n = ofLe (bytes.take width) ∧ width ≤ bytes.length := by
  unfold decodeFixed at h
  grind

theorem decodeFixed_lt {k : Nat} (h : decodeFixed width least bytes = some (n, k)) :
    least ≤ n ∧ k = width + 1 ∧ n < 256 ^ width := by
  obtain ⟨hleast, hk, rfl, hwidth⟩ := decodeFixed_eq_some h
  refine ⟨hleast, hk, (ofLe_lt _).trans_eq ?_⟩
  rw [List.length_take_of_le hwidth]

/-- What follows the bytes that may belong to a number does not matter. -/
theorem decode_append (h : 9 ≤ bytes.length) : decode (bytes ++ rest) = decode bytes := by
  have hfixed : ∀ bytes : List UInt8, 8 ≤ bytes.length → ∀ width ≤ 8, ∀ least,
      decodeFixed width least (bytes ++ rest) = decodeFixed width least bytes := by
    intro bytes hlen width hwidth least
    have hle : width ≤ bytes.length := hwidth.trans hlen
    have hle' : width ≤ (bytes ++ rest).length := by
      rw [List.length_append]
      omega
    rw [decodeFixed, decodeFixed, if_neg (Nat.not_lt.2 hle'), if_neg (Nat.not_lt.2 hle),
      List.take_append_of_le_length hle]
  cases bytes with
  | nil => simp at h
  | cons mark bytes =>
    have hlen : 8 ≤ bytes.length := by simpa using h
    rw [List.cons_append, decode, decode, hfixed bytes hlen 8 (by omega),
      hfixed bytes hlen 4 (by omega), hfixed bytes hlen 2 (by omega)]

theorem decodeFixed_le (hn : n < 256 ^ width) (hleast : least ≤ n) :
    decodeFixed width least (le width n ++ rest) = some (n, width + 1) := by
  have htake : (le width n ++ rest).take width = le width n := by
    rw [List.take_append_of_le_length (by simp), List.take_of_length_le (by simp)]
  rw [decodeFixed, if_neg (by simp), htake, ofLe_le hn]
  exact if_neg (by omega)

/-- What is encoded is read back, whatever follows. -/
theorem decode_encode (h : n < 2 ^ 64) :
    decode (encode n ++ rest) = some (n, (encode n).length) := by
  rw [length_encode]
  unfold encode
  split_ifs with h₁ h₂ h₃
  · have hn : (UInt8.ofNat n).toNat = n := by
      rw [UInt8.toNat_ofNat']
      omega
    rw [List.singleton_append, decode_cons (by omega), hn]
  · rw [List.cons_append, decode, if_neg (by decide), if_neg (by decide), if_pos rfl]
    exact decodeFixed_le h₂ (by omega)
  · rw [List.cons_append, decode, if_neg (by decide), if_pos rfl]
    exact decodeFixed_le h₃ (by omega)
  · rw [List.cons_append, decode, if_pos rfl]
    exact decodeFixed_le (h.trans_eq (by norm_num)) (by omega)

end BitcoinNode.VarInt

import BitcoinNode.Indexers.AddrIndex

/-!
# The keys of the address index

The bytes of an address determine it, also as the start of a longer key, so the keys between
an address and its last possible key are its own. The height is read back from a key exactly if
the length read from the address is that of the rest of the address.
-/

namespace BitcoinNode.AddrIndexer

variable {a a' : StandardAddress} {height index height' index' : Nat} {key tail : List UInt8}

/-! ## Addresses as bytes -/

/-- The number of bytes of a payload of a type. -/
def payloadLength : AddressType → Nat
  | .p2pkh => 20
  | .p2sh => 20
  | .p2wpkh => 21
  | .p2wsh => 33

theorem typeByte_injective : Function.Injective typeByte := by
  intro t t' h
  cases t <;> cases t' <;> first | rfl | exact absurd h (by decide)

/-- The four kinds of standard addresses. -/
theorem standard_cases (a : StandardAddress) :
    (∃ hash, a.payload = .pubkeyHash hash ∧ a.type = .p2pkh)
      ∨ (∃ hash, a.payload = .scriptHash hash ∧ a.type = .p2sh)
      ∨ ∃ program, a.payload = .witnessProgram 0 program
        ∧ (program.length = 20 ∧ a.type = .p2wpkh ∨ program.length = 32 ∧ a.type = .p2wsh) := by
  obtain ⟨payload, type, h⟩ := a
  cases payload with
  | pubkeyHash hash => exact .inl ⟨hash, rfl, (Option.some.inj h).symm⟩
  | scriptHash hash => exact .inr (.inl ⟨hash, rfl, (Option.some.inj h).symm⟩)
  | witnessProgram version program =>
    refine .inr (.inr ?_)
    rw [Payload.addressType] at h
    split_ifs at h with hversion h20 h32
    · exact ⟨program, congrArg (Payload.witnessProgram · program) hversion,
        .inl ⟨h20, (Option.some.inj h).symm⟩⟩
    · exact ⟨program, congrArg (Payload.witnessProgram · program) hversion,
        .inr ⟨h32, (Option.some.inj h).symm⟩⟩

theorem length_payloadBytes (a : StandardAddress) :
    (payloadBytes a.payload).length = payloadLength a.type := by
  rcases standard_cases a with ⟨hash, hp, ht⟩ | ⟨hash, hp, ht⟩ | ⟨program, hp, ⟨hl, ht⟩ | ⟨hl, ht⟩⟩
  · rw [hp, ht]
    exact hash.2
  · rw [hp, ht]
    exact hash.2
  · rw [hp, ht, payloadBytes, List.length_append, VarInt.length_encode, hl]
    rfl
  · rw [hp, ht, payloadBytes, List.length_append, VarInt.length_encode, hl]
    rfl

theorem length_addressBytes (a : StandardAddress) :
    (addressBytes a).length = payloadLength a.type + 1 := by
  rw [addressBytes, List.length_cons, length_payloadBytes]

theorem le_payloadLength (t : AddressType) : 20 ≤ payloadLength t := by cases t <;> decide

theorem payloadBytes_injective (htype : a.type = a'.type)
    (h : payloadBytes a.payload = payloadBytes a'.payload) : a = a' := by
  have hpayload : a.payload = a'.payload := by
    rcases standard_cases a with ⟨hash, hp, ht⟩ | ⟨hash, hp, ht⟩ | ⟨program, hp, ht⟩ <;>
      rcases standard_cases a' with ⟨hash', hp', ht'⟩ | ⟨hash', hp', ht'⟩ | ⟨program', hp', ht'⟩
    · rw [hp, hp'] at h ⊢
      rw [Subtype.ext h]
    · grind
    · grind
    · grind
    · rw [hp, hp'] at h ⊢
      rw [Subtype.ext h]
    · grind
    · grind
    · grind
    · have hlen : program.length = program'.length := by grind
      rw [hp, hp', payloadBytes, payloadBytes, hlen, List.append_cancel_left_eq] at h
      rw [hp, hp', h]
  obtain ⟨payload, type, _⟩ := a
  obtain ⟨payload', type', _⟩ := a'
  cases hpayload
  cases htype
  rfl

/-- Two addresses that a key starts with are one. -/
theorem addressBytes_prefix (h : addressBytes a <+: key) (h' : addressBytes a' <+: key) :
    a = a' := by
  obtain ⟨s, hs⟩ := h
  obtain ⟨s', hs'⟩ := h'
  have heq : addressBytes a ++ s = addressBytes a' ++ s' := hs.trans hs'.symm
  rw [addressBytes, addressBytes, List.cons_append, List.cons_append] at heq
  obtain ⟨hbyte, hrest⟩ := List.cons.inj heq
  have htype := typeByte_injective hbyte
  refine payloadBytes_injective htype (List.append_inj hrest ?_).1
  rw [length_payloadBytes, length_payloadBytes, htype]

/-! ## Keys -/

/-- The heights and positions of keys fit 32 bits. -/
def Key.Fits : Key → Prop
  | .addrMap _ height index | .txidByHeightAndIndex height index =>
    height < 2 ^ 32 ∧ index < 2 ^ 32
  | .address _ => True

theorem addrMap_prefix : addressBytes a <+: (Key.addrMap a height index).encode := by
  rw [Key.encode, List.append_assoc]
  exact List.prefix_append _ _

theorem addrMap_inj (h : (Key.addrMap a height index).Fits)
    (h' : (Key.addrMap a' height' index').Fits)
    (heq : (Key.addrMap a height index).encode = (Key.addrMap a' height' index').encode) :
    a = a' ∧ height = height' ∧ index = index' := by
  obtain rfl := addressBytes_prefix addrMap_prefix (heq ▸ addrMap_prefix)
  simp only [Key.encode, List.append_assoc, List.append_cancel_left_eq] at heq
  obtain ⟨hh, hi⟩ := List.append_inj heq (by simp)
  exact ⟨rfl, (Bytes.be_inj h.1 h'.1).1 hh, (Bytes.be_inj h.2 h'.2).1 hi⟩

theorem txidByHeightAndIndex_inj (h : (Key.txidByHeightAndIndex height index).Fits)
    (h' : (Key.txidByHeightAndIndex height' index').Fits)
    (heq : (Key.txidByHeightAndIndex height index).encode
      = (Key.txidByHeightAndIndex height' index').encode) : height = height' ∧ index = index' := by
  obtain ⟨hh, hi⟩ := List.append_inj heq (by simp)
  exact ⟨(Bytes.le_inj h.1 h'.1).1 hh, (Bytes.le_inj h.2 h'.2).1 hi⟩

theorem length_addrMap : (Key.addrMap a height index).encode.length = payloadLength a.type + 9 := by
  simp [Key.encode, length_addressBytes]

@[simp] theorem length_txidByHeightAndIndex :
    (Key.txidByHeightAndIndex height index).encode.length = 8 := by simp [Key.encode]

/-- The two kinds of keys that are stored never meet. -/
theorem addrMap_ne_txid : (Key.addrMap a height index).encode
    ≠ (Key.txidByHeightAndIndex height' index').encode := by
  intro heq
  have hlen := congrArg List.length heq
  have hle := le_payloadLength a.type
  rw [length_addrMap, length_txidByHeightAndIndex] at hlen
  omega

theorem encode_max : (Key.addrMap a (2 ^ 32 - 1) (2 ^ 32 - 1)).encode
    = addressBytes a ++ List.replicate 8 0xff := by
  rw [Key.encode, List.append_assoc]
  rfl

/-- The scanned range of an address holds its own keys. -/
theorem addrMap_mem_range : Bytes.lexLe (addressBytes a) (Key.addrMap a height index).encode = true
    ∧ Bytes.lexLe (Key.addrMap a height index).encode
      (Key.addrMap a (2 ^ 32 - 1) (2 ^ 32 - 1)).encode = true := by
  rw [encode_max, Key.encode, List.append_assoc]
  constructor
  · have h := @Bytes.lexLe_append_left [] (Bytes.be 4 height ++ Bytes.be 4 index) (addressBytes a)
    rw [List.append_nil] at h
    rw [h]
    rfl
  · rw [Bytes.lexLe_append_left]
    have h := @Bytes.lexLe_top (Bytes.be 4 height ++ Bytes.be 4 index)
    simpa using h

/-- And no others: neither those of other addresses nor those of transaction ids. -/
theorem prefix_of_range (h : Bytes.lexLe (addressBytes a) key = true)
    (h' : Bytes.lexLe key (Key.addrMap a (2 ^ 32 - 1) (2 ^ 32 - 1)).encode = true) :
    addressBytes a <+: key :=
  Bytes.prefix_of_lexLe h (encode_max ▸ h')

/-! ## Reading keys back -/

/-- The byte that is read as a length is the length of the rest of the address: always for a
witness program, and for a hash only if that is what it starts with. -/
def LengthPrefixed (a : StandardAddress) : Prop :=
  match a.payload with
  | .pubkeyHash hash | .scriptHash hash => hash.val.head? = some 19
  | .witnessProgram _ _ => True

instance : Decidable (LengthPrefixed a) := by
  unfold LengthPrefixed
  split <;> infer_instance

/-- Where the height is looked for depends on the address alone. -/
theorem heightPosition_append :
    heightPosition (addressBytes a ++ tail) = heightPosition (addressBytes a) := by
  have hlen : 9 ≤ (payloadBytes a.payload).length := by
    rw [length_payloadBytes]
    exact (le_payloadLength _).trans' (by decide)
  rw [heightPosition, heightPosition, addressBytes, List.cons_append, List.drop_one, List.tail_cons,
    List.drop_one, List.tail_cons, VarInt.decode_append hlen]

/-- Behind a hash the height is looked for in its place only if the hash starts with 19. -/
theorem heightPosition_hash {t : UInt8} {hash : Hash160} :
    heightPosition (t :: hash.val) = .ok 21 ↔ hash.val.head? = some 19 := by
  obtain ⟨bytes, hlen⟩ := hash
  cases bytes with
  | nil => simp at hlen
  | cons b bytes =>
    rw [heightPosition, List.drop_one, List.tail_cons, VarInt.decode, List.head?_cons]
    -- 21 is the first byte and the rest of the hash; the longer forms are for larger numbers
    split_ifs with hff hfe hfd
    · have hmark : b ≠ 19 := hff ▸ by decide
      rcases h : VarInt.decodeFixed 8 0x100000000 bytes with _ | ⟨n, used⟩
      · grind
      · obtain ⟨hleast, hused, hlt⟩ := VarInt.decodeFixed_lt h
        grind [Word.add]
    · have hmark : b ≠ 19 := hfe ▸ by decide
      rcases h : VarInt.decodeFixed 4 0x10000 bytes with _ | ⟨n, used⟩
      · grind
      · obtain ⟨hleast, hused, hlt⟩ := VarInt.decodeFixed_lt h
        grind [Word.add]
    · have hmark : b ≠ 19 := hfd ▸ by decide
      rcases h : VarInt.decodeFixed 2 0xfd bytes with _ | ⟨n, used⟩
      · grind
      · obtain ⟨hleast, hused, hlt⟩ := VarInt.decodeFixed_lt h
        grind [Word.add]
    · have hlt := b.toNat_lt
      have hmod : (2 + b.toNat) % 2 ^ 64 = 2 + b.toNat := Nat.mod_eq_of_lt (by omega)
      have hb : b = 19 ↔ b.toNat = 19 := UInt8.toNat_inj.symm
      grind [Word.add]

/-- The height is looked for behind the address exactly if the length read is right. -/
theorem heightPosition_iff :
    heightPosition (addressBytes a) = .ok (addressBytes a).length ↔ LengthPrefixed a := by
  rcases standard_cases a with ⟨hash, hp, ht⟩ | ⟨hash, hp, ht⟩ | ⟨program, hp, hprogram⟩
  · rw [length_addressBytes, ht, addressBytes, LengthPrefixed, hp, payloadBytes]
    exact heightPosition_hash
  · rw [length_addressBytes, ht, addressBytes, LengthPrefixed, hp, payloadBytes]
    exact heightPosition_hash
  · rw [length_addressBytes, addressBytes, LengthPrefixed, hp, payloadBytes, heightPosition,
      List.drop_one, List.tail_cons, VarInt.decode_encode (by omega), VarInt.length_encode]
    rcases hprogram with ⟨hl, ht⟩ | ⟨hl, ht⟩
    · simp [hl, ht, payloadLength, Word.add]
    · simp [hl, ht, payloadLength, Word.add]

/-- The height and the position are read back from a key of an address with its length. -/
theorem readKey_addrMap (h : LengthPrefixed a) (hfits : (Key.addrMap a height index).Fits) :
    readKey (Key.addrMap a height index).encode = .ok (height, index) := by
  have hpos := heightPosition_iff.2 h
  have hheight : Bytes.slice (Key.addrMap a height index).encode (addressBytes a).length 4
      = Bytes.be 4 height := by
    have := @Bytes.slice_middle (addressBytes a) (Bytes.be 4 index) (Bytes.be 4 height)
    simpa [Key.encode] using this
  have hindex : Bytes.slice (Key.addrMap a height index).encode ((addressBytes a).length + 4) 4
      = Bytes.be 4 index := by
    have := @Bytes.slice_middle (addressBytes a ++ Bytes.be 4 height) [] (Bytes.be 4 index)
    simpa [Key.encode] using this
  have hlen : (Key.addrMap a height index).encode.length = (addressBytes a).length + 8 := by
    simp [Key.encode]
  rw [readKey]
  have hposition : heightPosition (Key.addrMap a height index).encode
      = .ok (addressBytes a).length := by
    rw [Key.encode, List.append_assoc, heightPosition_append, hpos]
  rw [hposition, bind_of_ok rfl, readHeight, if_pos (by omega), hheight, bind_of_ok rfl, readHeight,
    if_pos (by omega), hindex, bind_of_ok rfl, Bytes.ofBe_be hfits.1, Bytes.ofBe_be hfits.2]
  rfl

end BitcoinNode.AddrIndexer

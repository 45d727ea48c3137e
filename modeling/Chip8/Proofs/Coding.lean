import Chip8.Instruction.Decode
import Chip8.Instruction.Encode

/-!
# Decoding and encoding

A word is the sum of its family and its operands, each at its place, so decoding a word and
encoding the instruction gives the word back (`encode_of_ofWord?`). In the other direction, the word
of an instruction encodes it if the instruction fits into a word (`ofWord?_encode`), and only those
instructions are ever decoded. So decoding is a bijection between the words that encode something and
the instructions that fit (`decode_bijective`); the words that encode nothing lie in gaps of five
families.
-/

namespace Chip8

/-- Whether a word lies in a gap of a family: the families `5`, `8` and `9` leave out last digits,
and the families `E` and `F` leave out low bytes. -/
def Word.IsGap (w : Word) : Prop :=
  (w.family = 0x5 ∨ w.family = 0x9) ∧ w.nibble ≠ 0 ∨
  w.family = 0x8 ∧ (0x8 ≤ w.nibble ∧ w.nibble ≤ 0xD ∨ w.nibble = 0xF) ∨
  w.family = 0xE ∧ w.byte ∉ [0x9E, 0xA1] ∨
  w.family = 0xF ∧ w.byte ∉ [0x07, 0x0A, 0x15, 0x18, 0x1E, 0x29, 0x33, 0x55, 0x65]

instance (w : Word) : Decidable w.IsGap := by
  unfold Word.IsGap
  infer_instance

namespace Instruction

/-! ## A word and its parts -/

theorem addressWord_address {w : Word} {f : UInt16} (h : w.family.toNat = f.toNat) :
    addressWord f w.address = w := by
  have hw := w.toNat_lt
  rw [Word.toNat_family] at h
  apply UInt16.toNat_inj.mp
  rw [addressWord, UInt16.toNat_add, UInt16.toNat_mul, Word.toNat_address, ← h]
  simp
  omega

theorem byteWord_x_byte {w : Word} {f : UInt16} (h : w.family.toNat = f.toNat) :
    byteWord f w.x w.byte = w := by
  have hw := w.toNat_lt
  rw [Word.toNat_family] at h
  apply UInt16.toNat_inj.mp
  simp only [byteWord, UInt16.toNat_add, UInt16.toNat_mul, UInt8.toNat_toUInt16, Word.toNat_x,
    Word.toNat_byte, ← h]
  simp
  omega

theorem digitsWord_x_y_nibble {w : Word} {f : UInt16} (h : w.family.toNat = f.toNat) :
    digitsWord f w.x w.y w.nibble = w := by
  have hw := w.toNat_lt
  rw [Word.toNat_family] at h
  apply UInt16.toNat_inj.mp
  simp only [digitsWord, UInt16.toNat_add, UInt16.toNat_mul, UInt8.toNat_toUInt16, Word.toNat_x,
    Word.toNat_y, Word.toNat_nibble, ← h]
  simp
  omega

/-! ## Decoding, then encoding -/

variable {w : Word} {n x y : UInt8} {i : Instruction}

theorem encode_of_arithmetic? (h : arithmetic? n x y = some i) :
    i.encode = digitsWord 0x8 x y n := by
  unfold arithmetic? at h
  split at h <;> cases h <;> exact congrArg (digitsWord 0x8 x y) (UInt8.toNat_inj.mp (Eq.symm ‹_›))

theorem encode_of_keys? (h : keys? n x = some i) : i.encode = byteWord 0xE x n := by
  unfold keys? at h
  split at h <;> cases h <;> exact congrArg (byteWord 0xE x) (UInt8.toNat_inj.mp (Eq.symm ‹_›))

theorem encode_of_system? (h : system? n x = some i) : i.encode = byteWord 0xF x n := by
  unfold system? at h
  split at h <;> cases h <;> exact congrArg (byteWord 0xF x) (UInt8.toNat_inj.mp (Eq.symm ‹_›))

theorem encode_of_ofWord? (h : ofWord? w = some i) : i.encode = w := by
  unfold ofWord? at h
  split at h
  case h_1 hf =>
    split at h
    · cases h; symm; assumption
    · split at h
      · cases h; symm; assumption
      · cases h; exact addressWord_address hf
  case h_2 hf => cases h; exact addressWord_address hf
  case h_3 hf => cases h; exact addressWord_address hf
  case h_4 hf => cases h; exact byteWord_x_byte hf
  case h_5 hf => cases h; exact byteWord_x_byte hf
  case h_6 hf =>
    split at h
    · cases h
      rename_i hn
      rw [encode, ← hn]
      exact digitsWord_x_y_nibble hf
    · cases h
  case h_7 hf => cases h; exact byteWord_x_byte hf
  case h_8 hf => cases h; exact byteWord_x_byte hf
  case h_9 hf => exact (encode_of_arithmetic? h).trans (digitsWord_x_y_nibble hf)
  case h_10 hf =>
    split at h
    · cases h
      rename_i hn
      rw [encode, ← hn]
      exact digitsWord_x_y_nibble hf
    · cases h
  case h_11 hf => cases h; exact addressWord_address hf
  case h_12 hf => cases h; exact addressWord_address hf
  case h_13 hf => cases h; exact byteWord_x_byte hf
  case h_14 hf => cases h; exact digitsWord_x_y_nibble hf
  case h_15 hf => exact (encode_of_keys? h).trans (byteWord_x_byte hf)
  case h_16 hf => exact (encode_of_system? h).trans (byteWord_x_byte hf)
  case h_17 => cases h

/-! ## The operands of a decoded instruction -/

theorem fits_x (w : Word) : (Operand.register w.x).Fits := by
  have := Word.toNat_x w
  exact UInt8.lt_iff_toNat_lt.mpr (by simp; omega)

theorem fits_y (w : Word) : (Operand.register w.y).Fits := by
  have := Word.toNat_y w
  exact UInt8.lt_iff_toNat_lt.mpr (by simp; omega)

theorem fits_address (w : Word) : (Operand.address w.address).Fits := by
  have := Word.toNat_address w
  exact UInt16.lt_iff_toNat_lt.mpr (by simp; omega)

theorem fits_byte (n : UInt8) : (Operand.constant n).Fits := trivial

theorem fits_of_ofWord? (h : ofWord? w = some i) : ∀ o ∈ i.operands, o.Fits := by
  unfold ofWord? arithmetic? keys? system? at h
  repeat' split at h
  all_goals cases h <;> simp [operands, fits_x, fits_y, fits_address, fits_byte]

/-! ## The parts of a word that is put together -/

section

variable {f a : UInt16}

theorem parts_addressWord (hf : f < 16) (ha : a < 4096) :
    (addressWord f a).family.toNat = f.toNat ∧ (addressWord f a).address = a := by
  have hf : f.toNat < 16 := UInt16.lt_iff_toNat_lt.mp hf
  have ha : a.toNat < 4096 := UInt16.lt_iff_toNat_lt.mp ha
  have hw : (addressWord f a).toNat = 4096 * f.toNat + a.toNat := by
    rw [addressWord, UInt16.toNat_add, UInt16.toNat_mul]
    simp
    omega
  refine ⟨?_, UInt16.toNat_inj.mp ?_⟩
  · rw [Word.toNat_family]
    omega
  · rw [Word.toNat_address]
    omega

theorem parts_byteWord (hf : f < 16) (hx : x < 16) :
    (byteWord f x n).family.toNat = f.toNat ∧ (byteWord f x n).x = x ∧
      (byteWord f x n).byte = n := by
  have hf : f.toNat < 16 := UInt16.lt_iff_toNat_lt.mp hf
  have hx : x.toNat < 16 := UInt8.lt_iff_toNat_lt.mp hx
  have hn := n.toNat_lt
  have hw : (byteWord f x n).toNat = 4096 * f.toNat + 256 * x.toNat + n.toNat := by
    simp only [byteWord, UInt16.toNat_add, UInt16.toNat_mul, UInt8.toNat_toUInt16]
    simp
    omega
  refine ⟨?_, UInt8.toNat_inj.mp ?_, UInt8.toNat_inj.mp ?_⟩
  · rw [Word.toNat_family]
    omega
  · rw [Word.toNat_x]
    omega
  · rw [Word.toNat_byte]
    omega

theorem parts_digitsWord (hf : f < 16) (hx : x < 16) (hy : y < 16) (hn : n < 16) :
    (digitsWord f x y n).family.toNat = f.toNat ∧ (digitsWord f x y n).x = x ∧
      (digitsWord f x y n).y = y ∧ (digitsWord f x y n).nibble = n := by
  have hf : f.toNat < 16 := UInt16.lt_iff_toNat_lt.mp hf
  have hx : x.toNat < 16 := UInt8.lt_iff_toNat_lt.mp hx
  have hy : y.toNat < 16 := UInt8.lt_iff_toNat_lt.mp hy
  have hn : n.toNat < 16 := UInt8.lt_iff_toNat_lt.mp hn
  have hw : (digitsWord f x y n).toNat =
      4096 * f.toNat + 256 * x.toNat + 16 * y.toNat + n.toNat := by
    simp only [digitsWord, UInt16.toNat_add, UInt16.toNat_mul, UInt8.toNat_toUInt16]
    simp
    omega
  refine ⟨?_, UInt8.toNat_inj.mp ?_, UInt8.toNat_inj.mp ?_, UInt8.toNat_inj.mp ?_⟩
  · rw [Word.toNat_family]
    omega
  · rw [Word.toNat_x]
    omega
  · rw [Word.toNat_y]
    omega
  · rw [Word.toNat_nibble]
    omega

end

/-! ## Encoding, then decoding -/

theorem ofWord?_encode (h : i.Encodable) : ofWord? i.encode = some i := by
  obtain ⟨hfits, hrows, hclear, hret⟩ := h
  cases i with
  | clearScreen | ret => rfl
  | sys a =>
    have ha : a < 4096 := hfits _ (.head _)
    obtain ⟨hfamily, haddress⟩ := parts_addressWord (f := 0) (by decide) ha
    -- The two addresses that would give the word of another instruction do not fit.
    have hclear : addressWord 0 a ≠ 0x00E0 := by
      rintro h
      refine hclear (congrArg sys ?_)
      rw [← haddress, h]
      rfl
    have hret : addressWord 0 a ≠ 0x00EE := by
      rintro h
      refine hret (congrArg sys ?_)
      rw [← haddress, h]
      rfl
    simp [ofWord?, encode, hfamily, haddress, hclear, hret]
  | jump a | call a | setIndex a | jumpOffset a =>
    have ha : a < 4096 := hfits _ (.head _)
    simp [ofWord?, encode, parts_addressWord, ha]
  | skipEqByte x n | skipNeByte x n | setByte x n | addByte x n | random x n =>
    have hx : x < 16 := hfits _ (.head _)
    simp [ofWord?, encode, parts_byteWord, hx]
  | skipEq x y | copy x y | bitOr x y | bitAnd x y | bitXor x y | add x y | sub x y
  | shiftRight x y | subFrom x y | shiftLeft x y | skipNe x y =>
    have hx : x < 16 := hfits _ (.head _)
    have hy : y < 16 := hfits _ (.tail _ (.head _))
    simp [ofWord?, encode, parts_digitsWord, arithmetic?, hx, hy]
  | draw x y n =>
    have hx : x < 16 := hfits _ (.head _)
    have hy : y < 16 := hfits _ (.tail _ (.head _))
    have hn : n < 16 := hrows x y n rfl
    simp [ofWord?, encode, parts_digitsWord, hx, hy, hn]
  | skipPressed x | skipReleased x | getDelay x | awaitKey x | setDelay x | setSound x
  | addIndex x | glyph x | decimal x | store x | load x =>
    have hx : x < 16 := hfits _ (.head _)
    simp [ofWord?, encode, parts_byteWord, keys?, system?, hx]

theorem nibble_lt (w : Word) : w.nibble < 16 := by
  have := Word.toNat_nibble w
  exact UInt8.lt_iff_toNat_lt.mpr (by simp; omega)

theorem rows_lt_of_ofWord? (h : ofWord? w = some (draw x y n)) : n < 16 := by
  unfold ofWord? arithmetic? keys? system? at h
  repeat' split at h
  all_goals cases h
  exact nibble_lt w

theorem encodable_of_ofWord? (h : ofWord? w = some i) : i.Encodable := by
  have hword := encode_of_ofWord? h
  refine ⟨fits_of_ofWord? h, ?_, ?_, ?_⟩
  · rintro x y n rfl
    exact rows_lt_of_ofWord? h
  · rintro rfl
    rw [← hword] at h
    cases h
  · rintro rfl
    rw [← hword] at h
    cases h

/-! ## Words that encode nothing -/

theorem arithmetic?_eq_none_iff (hn : n < 16) :
    arithmetic? n x y = none ↔ 0x8 ≤ n ∧ n ≤ 0xD ∨ n = 0xF := by
  have hn : n.toNat < 16 := UInt8.lt_iff_toNat_lt.mp hn
  rw [UInt8.le_iff_toNat_le, UInt8.le_iff_toNat_le, ← UInt8.toNat_inj]
  unfold arithmetic?
  split <;> grind

theorem keys?_eq_none_iff : keys? n x = none ↔ n ∉ [0x9E, 0xA1] := by
  simp only [List.mem_cons, List.not_mem_nil, ← UInt8.toNat_inj]
  unfold keys?
  split <;> simp_all

theorem system?_eq_none_iff :
    system? n x = none ↔ n ∉ [0x07, 0x0A, 0x15, 0x18, 0x1E, 0x29, 0x33, 0x55, 0x65] := by
  simp only [List.mem_cons, List.not_mem_nil, ← UInt8.toNat_inj]
  unfold system?
  split <;> simp_all

theorem ofWord?_eq_none_iff : ofWord? w = none ↔ w.IsGap := by
  unfold ofWord? Word.IsGap
  simp only [← UInt8.toNat_inj (a := w.family)]
  split <;> rename_i hf
  case h_9 => simp [hf, arithmetic?_eq_none_iff (nibble_lt w)]
  case h_15 => simp [hf, keys?_eq_none_iff]
  case h_16 => simp [hf, system?_eq_none_iff]
  case h_17 =>
    have := Word.toNat_family w
    have := w.toNat_lt
    grind
  all_goals grind

/-- **Decoding is a bijection.** Encoding gives back the word that an instruction was decoded from.
The instructions that some word encodes are those that fit into a word, and then their own word does.
The words that encode nothing are those in the gaps, and each is refused with itself. Two bytes
encode what their word encodes. -/
theorem decode_bijective :
    (∀ (w : Word) (i : Instruction), decode w = .ok i → i.encode = w) ∧
    (∀ i : Instruction, ((∃ w, decode w = .ok i) ↔ i.Encodable) ∧
      (i.Encodable → decode i.encode = .ok i)) ∧
    (∀ (w : Word) (f : Fault), decode w = .error f ↔ w.IsGap ∧ f = .unsupported w) ∧
    ∀ (high low : UInt8) (w : Word), w.toNat = 256 * high.toNat + low.toNat →
      decodeBytes high low = decode w := by
  simp only [decode_eq_ok_iff, decode_eq_error_iff, ofWord?_eq_none_iff, implies_true, true_and]
  refine ⟨fun w i => encode_of_ofWord?, fun i => ⟨⟨?_, ?_⟩, ofWord?_encode⟩, ?_⟩
  · rintro ⟨w, hw⟩
    exact encodable_of_ofWord? hw
  · exact fun h => ⟨i.encode, ofWord?_encode h⟩
  · intro high low w hw
    rw [decodeBytes, UInt16.toNat_inj.mp (hw.trans (Word.toNat_ofBytes high low).symm)]

/-- A word of each kind, and an address that no word holds as a native routine. -/
theorem decode_bijective_words :
    (draw 1 2 5).encode = 0xD125 ∧ decode (skipEq 0xF 0).encode = .ok (skipEq 0xF 0) ∧
      (¬ ∃ w, decode w = .ok (sys 0x0EE)) ∧ decode 0x8128 = .error (.unsupported 0x8128) ∧
      decodeBytes 0xF1 0x0A = decode 0xF10A := by
  obtain ⟨hencode, hdecode, hgap, hbytes⟩ := decode_bijective
  have hskip : (skipEq 0xF 0).Encodable := ⟨by decide, nofun, nofun, nofun⟩
  refine ⟨hencode 0xD125 _ rfl, (hdecode _).2 hskip, ?_, ?_, hbytes 0xF1 0x0A 0xF10A rfl⟩
  · rw [(hdecode _).1]
    exact fun h => h.2.2.2 rfl
  · exact (hgap _ _).mpr ⟨by decide, rfl⟩

/-! ## The word of a wait for a key -/

theorem encode_awaitKey (x : UInt8) : (awaitKey x).encode = 0xF00A + 256 * x.toUInt16 := by
  rw [encode, byteWord, UInt16.add_assoc, UInt16.add_comm (256 * _), ← UInt16.add_assoc]
  rfl

theorem ofWord?_awaitKey {x : UInt8} (hx : x < 16) :
    ofWord? (0xF00A + 256 * x.toUInt16) = some (awaitKey x) := by
  rw [← encode_awaitKey]
  exact ofWord?_encode ⟨by simpa [operands, Operand.Fits] using hx, nofun, nofun, nofun⟩

theorem eq_of_ofWord?_awaitKey {x : UInt8} (h : ofWord? w = some (awaitKey x)) :
    x < 16 ∧ w = 0xF00A + 256 * x.toUInt16 := by
  have hx : (Operand.register x).Fits := fits_of_ofWord? h _ (by simp [operands])
  exact ⟨hx, by rw [← encode_of_ofWord? h, encode_awaitKey]⟩

end Instruction

end Chip8

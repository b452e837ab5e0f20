import Lisplet.Text.Utf8

/-!
# Decoding undoes encoding

The bytes of a text are those of its characters, one after the other, and the decoder takes the bytes of
a character as that character, whatever follows. So the bytes of every text are decoded as the text.

Main statements: `encode_eq`, `decodeFrom_encodeChar`, `decode_encode`.
-/

namespace Lisplet.Text.Utf8

/-! ## Bytes -/

theorem toList_loop (bytes : ByteArray) (i : Nat) (acc : List UInt8) :
    ByteArray.toList.loop bytes i acc = acc.reverse ++ bytes.data.toList.drop i := by
  fun_induction ByteArray.toList.loop bytes i acc with
  | case1 i acc hlt ih =>
    have hi : i < bytes.data.toList.length := by simpa using hlt
    have hget : bytes.get! i = bytes.data.toList[i] := by
      simp only [ByteArray.get!, Array.getElem_toList]
      exact getElem!_pos bytes.data i hi
    rw [ih, List.drop_eq_getElem_cons hi, hget]
    simp
  | case2 i acc hge =>
    have hall : bytes.data.toList.length ≤ i := by simpa using hge
    simp [List.drop_eq_nil_of_le hall]

/-- The bytes of a text are those of its characters. -/
theorem encode_eq (s : String) : encode s = s.toList.flatMap String.utf8EncodeChar := by
  have hbytes : s.toUTF8 = (s.toList.flatMap String.utf8EncodeChar).toByteArray :=
    String.utf8Encode_toList.symm
  rw [encode, ByteArray.toList, toList_loop, hbytes]
  simp

theorem encode_ofList (cs : List Char) :
    encode (String.ofList cs) = cs.flatMap String.utf8EncodeChar := by
  rw [encode_eq, String.toList_ofList]

/-! ## Characters -/

section Lengths

variable {pos : Nat} {a b c d : UInt8} {r : List UInt8}

theorem lengthOf?_eq (a : UInt8) : lengthOf? a =
    if a.toNat < 0x80 then some 1 else if a.toNat < 0xC2 then none else if a.toNat < 0xE0 then some 2
    else if a.toNat < 0xF0 then some 3 else if a.toNat < 0xF5 then some 4 else none := by
  simp only [lengthOf?, UInt8.lt_iff_toNat_lt, UInt8.reduceToNat]

theorem isSecond_iff : isSecond a b = true ↔ isContinuation b = true ∧
    (a.toNat = 0xE0 → 0xA0 ≤ b.toNat) ∧ (a.toNat = 0xED → b.toNat < 0xA0) ∧
    (a.toNat = 0xF0 → 0x90 ≤ b.toNat) ∧ (a.toNat = 0xF4 → b.toNat < 0x90) := by
  simp only [isSecond, ← UInt8.toNat_inj, UInt8.le_iff_toNat_le, UInt8.lt_iff_toNat_lt,
    UInt8.reduceToNat, Bool.and_eq_true]
  apply and_congr_right
  intro _
  -- The lead bytes that restrict the second byte exclude one another.
  repeat' split
  all_goals
    simp only [decide_eq_true_eq, true_iff]
    omega

theorem decodeFrom_one (ha : lengthOf? a = some 1) :
    decodeFrom pos (a :: r) = (decodeFrom (pos + 1) r).map (Char.ofNat a.toNat :: ·) := by
  rw [decodeFrom]
  simp [ha]

theorem decodeFrom_two (ha : lengthOf? a = some 2) (hb : isSecond a b = true) :
    decodeFrom pos (a :: b :: r) =
      (decodeFrom (pos + 2) r).map (Char.ofNat (a.toNat % 0x20 * 0x40 + payload b) :: ·) := by
  rw [decodeFrom]
  simp [ha, hb]

theorem decodeFrom_three (ha : lengthOf? a = some 3) (hb : isSecond a b = true)
    (hc : isContinuation c = true) :
    decodeFrom pos (a :: b :: c :: r) = (decodeFrom (pos + 3) r).map
      (Char.ofNat (a.toNat % 0x10 * 0x1000 + payload b * 0x40 + payload c) :: ·) := by
  rw [decodeFrom]
  simp [ha, hb, hc]

theorem decodeFrom_four (ha : lengthOf? a = some 4) (hb : isSecond a b = true)
    (hc : isContinuation c = true) (hd : isContinuation d = true) :
    decodeFrom pos (a :: b :: c :: d :: r) = (decodeFrom (pos + 4) r).map
      (Char.ofNat (a.toNat % 0x08 * 0x40000 + payload b * 0x1000 + payload c * 0x40 + payload d)
        :: ·) := by
  rw [decodeFrom]
  simp [ha, hb, hc, hd]

end Lengths

theorem toNat_valid (c : Char) : c.toNat < 0xD800 ∨ 0xDFFF < c.toNat ∧ c.toNat < 0x110000 :=
  c.valid

theorem toNat_byte {n : Nat} (h : n < 256) : (UInt8.ofNat n).toNat = n := by
  simp [Nat.mod_eq_of_lt h]

theorem isContinuation_byte (n : Nat) : isContinuation (UInt8.ofNat (n % 64 + 128)) = true := by
  have hn : (UInt8.ofNat (n % 64 + 128)).toNat = n % 64 + 128 := toNat_byte (by omega)
  simp only [isContinuation, UInt8.le_iff_toNat_le, UInt8.reduceToNat, hn, Bool.and_eq_true,
    decide_eq_true_eq]
  omega

theorem payload_byte (n : Nat) : payload (UInt8.ofNat (n % 64 + 128)) = n % 64 := by
  rw [payload, toNat_byte (by omega)]
  omega

/-- The bytes of a character are decoded as the character, whatever follows. -/
theorem decodeFrom_encodeChar (pos : Nat) (c : Char) (r : List UInt8) :
    ∃ n, decodeFrom pos (String.utf8EncodeChar c ++ r) =
      (decodeFrom (pos + n) r).map (c :: ·) := by
  have hvalid := toNat_valid c
  have hc : Char.ofNat c.toNat = c := Char.ofNat_toNat c
  unfold String.utf8EncodeChar
  simp only [Char.toNat_val]
  generalize c.toNat = v at *
  -- One case for each number of bytes. The lead byte has the number of bytes in its range, and in the
  -- second byte the bits are set that rule out a shorter form, or surrogates.
  by_cases h₁ : v ≤ 127
  · have ha : (UInt8.ofNat v).toNat = v := toNat_byte (by omega)
    have hlead : lengthOf? (UInt8.ofNat v) = some 1 := by
      rw [lengthOf?_eq, ha, if_pos (by omega)]
    refine ⟨1, ?_⟩
    rw [if_pos h₁, List.singleton_append, decodeFrom_one hlead, ha, hc]
  rw [if_neg h₁]
  by_cases h₂ : v ≤ 2047
  · have ha : (UInt8.ofNat (v / 64 % 32 + 192)).toNat = v / 64 % 32 + 192 := toNat_byte (by omega)
    have hlead : lengthOf? (UInt8.ofNat (v / 64 % 32 + 192)) = some 2 := by
      rw [lengthOf?_eq, ha, if_neg (by omega), if_neg (by omega), if_pos (by omega)]
    have hsecond : isSecond (UInt8.ofNat (v / 64 % 32 + 192)) (UInt8.ofNat (v % 64 + 128)) = true := by
      rw [isSecond_iff, ha]
      exact ⟨isContinuation_byte v, by omega⟩
    have hv : (v / 64 % 32 + 192) % 0x20 * 0x40 + v % 64 = v := by omega
    refine ⟨2, ?_⟩
    rw [if_pos h₂, List.cons_append, List.singleton_append, decodeFrom_two hlead hsecond, ha,
      payload_byte, hv, hc]
  rw [if_neg h₂]
  by_cases h₃ : v ≤ 65535
  · have ha : (UInt8.ofNat (v / 4096 % 16 + 224)).toNat = v / 4096 % 16 + 224 := toNat_byte (by omega)
    have hb : (UInt8.ofNat (v / 64 % 64 + 128)).toNat = v / 64 % 64 + 128 := toNat_byte (by omega)
    have hlead : lengthOf? (UInt8.ofNat (v / 4096 % 16 + 224)) = some 3 := by
      rw [lengthOf?_eq, ha, if_neg (by omega), if_neg (by omega), if_neg (by omega), if_pos (by omega)]
    have hsecond : isSecond (UInt8.ofNat (v / 4096 % 16 + 224)) (UInt8.ofNat (v / 64 % 64 + 128)) =
        true := by
      rw [isSecond_iff, ha, hb]
      exact ⟨isContinuation_byte _, by omega⟩
    have hv : (v / 4096 % 16 + 224) % 0x10 * 0x1000 + v / 64 % 64 * 0x40 + v % 64 = v := by omega
    refine ⟨3, ?_⟩
    rw [if_pos h₃, List.cons_append, List.cons_append, List.singleton_append,
      decodeFrom_three hlead hsecond (isContinuation_byte v), ha, payload_byte, payload_byte, hv, hc]
  · have ha : (UInt8.ofNat (v / 262144 % 8 + 240)).toNat = v / 262144 % 8 + 240 :=
      toNat_byte (by omega)
    have hb : (UInt8.ofNat (v / 4096 % 64 + 128)).toNat = v / 4096 % 64 + 128 := toNat_byte (by omega)
    have hlead : lengthOf? (UInt8.ofNat (v / 262144 % 8 + 240)) = some 4 := by
      rw [lengthOf?_eq, ha, if_neg (by omega), if_neg (by omega), if_neg (by omega),
        if_neg (by omega), if_pos (by omega)]
    have hsecond : isSecond (UInt8.ofNat (v / 262144 % 8 + 240))
        (UInt8.ofNat (v / 4096 % 64 + 128)) = true := by
      rw [isSecond_iff, ha, hb]
      exact ⟨isContinuation_byte _, by omega⟩
    have hv : (v / 262144 % 8 + 240) % 0x08 * 0x40000 + v / 4096 % 64 * 0x1000 +
        v / 64 % 64 * 0x40 + v % 64 = v := by omega
    refine ⟨4, ?_⟩
    rw [if_neg h₃, List.cons_append, List.cons_append, List.cons_append, List.singleton_append,
      decodeFrom_four hlead hsecond (isContinuation_byte _) (isContinuation_byte v), ha,
      payload_byte, payload_byte, payload_byte, hv, hc]

theorem decodeFrom_encode (pos : Nat) (cs : List Char) :
    decodeFrom pos (cs.flatMap String.utf8EncodeChar) = .ok cs := by
  induction cs generalizing pos with
  | nil => rfl
  | cons c cs ih =>
    obtain ⟨n, hn⟩ := decodeFrom_encodeChar pos c (cs.flatMap String.utf8EncodeChar)
    rw [List.flatMap_cons, hn, ih]
    rfl

/-- The bytes of a text are decoded as the text. -/
theorem decode_encode (s : String) : decode (encode s) = .ok s.toList := by
  rw [decode, encode_eq, decodeFrom_encode]

/-! ## ASCII -/

/-- A text of ASCII characters has one byte for each of them. -/
theorem encode_ascii {cs : List Char} (h : ∀ c ∈ cs, c.toNat < 128) :
    encode (String.ofList cs) = cs.map fun c => UInt8.ofNat c.toNat := by
  rw [encode_ofList]
  induction cs with
  | nil => rfl
  | cons c cs ih =>
    obtain ⟨hc, hcs⟩ := List.forall_mem_cons.1 h
    have hone : String.utf8EncodeChar c = [UInt8.ofNat c.toNat] := by
      unfold String.utf8EncodeChar
      simp only [Char.toNat_val]
      rw [if_pos (by omega)]
    rw [List.flatMap_cons, hone, ih hcs]
    rfl

end Lisplet.Text.Utf8

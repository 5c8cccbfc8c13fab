import Mathlib.Tactic.SplitIfs
import Mathlib.Tactic.Set
import Cbor.Text.Utf8
/-! # UTF-8 has one spelling per text

The encoder and the decoder of `Cbor.Text.Utf8` undo each other. The bytes of any characters
decode to those characters (`decode_encode`), and a byte string that decodes at all is the
encoding of what it decodes to (`encode_eq_of_decode`): the decoder refuses overlong forms,
surrogates and code points past U+10FFFF, which are exactly the byte strings the encoder never
writes. So a text payload is well-formed UTF-8 exactly when it is the encoding of some characters
(`decode_eq_ok_iff`).

The byte length of a string is the length of its encoding (`utf8ByteSize_ofList`), which is how
a decoder that holds text as strings counts the bytes it has gathered.
-/

namespace Cbor.Utf8

/-! ### Bytes and code points -/

theorem toNat_toUInt8 {n : Nat} (h : n < 256) : n.toUInt8.toNat = n := by
  simp [Nat.toUInt8, Nat.mod_eq_of_lt h]

theorem toUInt8_eq {n : Nat} {b : UInt8} (h : n = b.toNat) : n.toUInt8 = b := by
  subst h; simp

/-- A scalar value read back through `Char.ofNat` is itself. -/
theorem toNat_ofNat_of_valid {n : Nat} (h : n < 0xD800 ∨ (0xDFFF < n ∧ n < 0x110000)) :
    (Char.ofNat n).toNat = n := by
  have hv : n.isValidChar := h
  rw [Char.ofNat, dif_pos hv]
  rfl

/-- What may follow a lead byte of three or four bytes: any continuation byte, except that after
E0 and F0 the shortest forms start higher (no overlong form), after ED the surrogates are left out
and after F4 nothing lies past U+10FFFF. -/
theorem isSecond_iff_bounds (lead : Nat) (b : UInt8) :
    isSecond lead b = true ↔ 0x80 ≤ b.toNat ∧ b.toNat ≤ 0xBF ∧ (lead = 0xE0 → 0xA0 ≤ b.toNat) ∧
      (lead = 0xED → b.toNat ≤ 0x9F) ∧ (lead = 0xF0 → 0x90 ≤ b.toNat) ∧
      (lead = 0xF4 → b.toNat ≤ 0x8F) := by
  simp only [isSecond, Bool.and_eq_true, decide_eq_true_eq]
  unfold secondRange
  split_ifs <;> dsimp only <;> omega

theorem prepend_eq_ok {n : Nat} {c : Char} {r : Except Nat (List Char)} {cs : List Char} :
    prepend n c r = .ok cs ↔ ∃ cs', r = .ok cs' ∧ cs = c :: cs' := by
  cases r <;> simp [prepend, eq_comm]

/-! ### Encoding then decoding -/

/-- The bytes of one character, in front of any rest, decode to that character. The proof goes
by the four widths of the encoding; in each, the lead byte lands in the range the decoder expects
for that width and the second byte in the range `secondRange` allows after it. -/
theorem decode_encodeChar (c : Char) (rest : List UInt8) :
    decode (encodeChar c ++ rest) = prepend (encodeChar c).length c (decode rest) := by
  have hv : c.toNat < 0xD800 ∨ (0xDFFF < c.toNat ∧ c.toNat < 0x110000) := c.valid
  set n := c.toNat with hn
  by_cases h1 : n < 0x80
  · have hb : n.toUInt8.toNat = n := toNat_toUInt8 (by omega)
    simp only [encodeChar, ← hn, if_pos h1, List.singleton_append, List.length_singleton]
    rw [decode.eq_def]
    simp only [hb, if_pos h1]
    rw [hn, Char.ofNat_toNat]
  by_cases h2 : n < 0x800
  · have hb0 : (0xC0 + n / 64).toUInt8.toNat = 0xC0 + n / 64 := toNat_toUInt8 (by omega)
    have hb1 : (0x80 + n % 64).toUInt8.toNat = 0x80 + n % 64 := toNat_toUInt8 (by omega)
    simp only [encodeChar, ← hn, if_neg h1, if_pos h2, List.cons_append, List.nil_append,
      List.length_cons, List.length_nil]
    rw [decode.eq_def]
    simp only [hb0]
    rw [if_neg (by omega), if_pos ⟨by omega, by omega⟩]
    have ht : isTail (0x80 + n % 64).toUInt8 = true := by simp only [isTail, hb1]; simp; omega
    have hc : Char.ofNat ((0xC0 + n / 64) % 32 * 64 + low6 (0x80 + n % 64).toUInt8) = c := by
      rw [low6, hb1, show (0xC0 + n / 64) % 32 * 64 + (0x80 + n % 64) % 64 = n by omega, hn,
        Char.ofNat_toNat]
    simp only [ht, if_true, hc]
  by_cases h3 : n < 0x10000
  · have hb0 : (0xE0 + n / 4096).toUInt8.toNat = 0xE0 + n / 4096 := toNat_toUInt8 (by omega)
    have hb1 : (0x80 + n / 64 % 64).toUInt8.toNat = 0x80 + n / 64 % 64 := toNat_toUInt8 (by omega)
    have hb2 : (0x80 + n % 64).toUInt8.toNat = 0x80 + n % 64 := toNat_toUInt8 (by omega)
    simp only [encodeChar, ← hn, if_neg h1, if_neg h2, if_pos h3, List.cons_append,
      List.nil_append, List.length_cons, List.length_nil]
    rw [decode.eq_def]
    simp only [hb0]
    rw [if_neg (by omega), if_neg (by omega), if_pos ⟨by omega, by omega⟩]
    -- after E0 the second byte is at least A0 (no overlong form), after ED at most 9F
    -- (no surrogate)
    have hs : (isSecond (0xE0 + n / 4096) (0x80 + n / 64 % 64).toUInt8 &&
        isTail (0x80 + n % 64).toUInt8) = true := by
      simp only [Bool.and_eq_true, isSecond_iff_bounds, isTail, hb1, hb2, decide_eq_true_eq]
      omega
    have hc : Char.ofNat ((0xE0 + n / 4096) % 16 * 4096 + low6 (0x80 + n / 64 % 64).toUInt8 * 64 +
        low6 (0x80 + n % 64).toUInt8) = c := by
      rw [low6, low6, hb1, hb2, show (0xE0 + n / 4096) % 16 * 4096 + (0x80 + n / 64 % 64) % 64 * 64 +
        (0x80 + n % 64) % 64 = n by omega, hn, Char.ofNat_toNat]
    simp only [hs, if_true, hc]
  · have hb0 : (0xF0 + n / 262144).toUInt8.toNat = 0xF0 + n / 262144 := toNat_toUInt8 (by omega)
    have hb1 : (0x80 + n / 4096 % 64).toUInt8.toNat = 0x80 + n / 4096 % 64 :=
      toNat_toUInt8 (by omega)
    have hb2 : (0x80 + n / 64 % 64).toUInt8.toNat = 0x80 + n / 64 % 64 := toNat_toUInt8 (by omega)
    have hb3 : (0x80 + n % 64).toUInt8.toNat = 0x80 + n % 64 := toNat_toUInt8 (by omega)
    simp only [encodeChar, ← hn, if_neg h1, if_neg h2, if_neg h3, List.cons_append,
      List.nil_append, List.length_cons, List.length_nil]
    rw [decode.eq_def]
    simp only [hb0]
    rw [if_neg (by omega), if_neg (by omega), if_neg (by omega), if_pos ⟨by omega, by omega⟩]
    -- after F0 the second byte is at least 90, after F4 at most 8F: the planes 1 to 16
    have hs : (isSecond (0xF0 + n / 262144) (0x80 + n / 4096 % 64).toUInt8 &&
        isTail (0x80 + n / 64 % 64).toUInt8 && isTail (0x80 + n % 64).toUInt8) = true := by
      simp only [Bool.and_eq_true, isSecond_iff_bounds, isTail, hb1, hb2, hb3, decide_eq_true_eq]
      omega
    have hc : Char.ofNat ((0xF0 + n / 262144) % 8 * 262144 +
        low6 (0x80 + n / 4096 % 64).toUInt8 * 4096 + low6 (0x80 + n / 64 % 64).toUInt8 * 64 +
        low6 (0x80 + n % 64).toUInt8) = c := by
      rw [low6, low6, low6, hb1, hb2, hb3, show (0xF0 + n / 262144) % 8 * 262144 +
        (0x80 + n / 4096 % 64) % 64 * 4096 + (0x80 + n / 64 % 64) % 64 * 64 + (0x80 + n % 64) % 64 = n
        by omega, hn, Char.ofNat_toNat]
    simp only [hs, if_true, hc]

@[simp] theorem encode_nil : encode [] = [] := rfl

@[simp] theorem encode_cons (c : Char) (cs : List Char) :
    encode (c :: cs) = encodeChar c ++ encode cs := by
  simp [encode]

@[simp] theorem encode_append (cs ds : List Char) : encode (cs ++ ds) = encode cs ++ encode ds := by
  simp [encode]

/-- **The bytes of any characters decode to those characters.** -/
theorem decode_encode (cs : List Char) : decode (encode cs) = .ok cs := by
  induction cs with
  | nil => rfl
  | cons c cs ih => rw [encode_cons, decode_encodeChar, ih]; rfl

/-! ### Decoding then encoding -/

/-- One character off the front of a byte string that decodes: its bytes are the encoding of
that character, and the rest decodes on its own. -/
theorem decode_cons_ok {b0 : UInt8} {r0 : List UInt8} {cs : List Char}
    (h : decode (b0 :: r0) = .ok cs) :
    ∃ c rest cs', b0 :: r0 = encodeChar c ++ rest ∧ decode rest = .ok cs' ∧ cs = c :: cs' := by
  have hb0 := UInt8.toNat_lt b0
  rw [decode.eq_def] at h
  simp only at h
  split_ifs at h with h1 h2 h3 h4
  · obtain ⟨cs', hr, rfl⟩ := prepend_eq_ok.mp h
    have hc := toNat_ofNat_of_valid (n := b0.toNat) (by omega)
    refine ⟨_, r0, cs', ?_, hr, rfl⟩
    simp only [encodeChar, hc, if_pos h1, toUInt8_eq rfl, List.singleton_append]
  · -- two bytes: the lead byte C2–DF makes the code point at least 0x80
    split at h
    · rename_i b1 r1
      split_ifs at h with ht
      obtain ⟨cs', hr, rfl⟩ := prepend_eq_ok.mp h
      simp only [isTail, Bool.and_eq_true, decide_eq_true_eq] at ht
      have hc := toNat_ofNat_of_valid (n := b0.toNat % 32 * 64 + low6 b1) (by simp only [low6]; omega)
      refine ⟨_, r1, cs', ?_, hr, rfl⟩
      have e0 : (0xC0 + (b0.toNat % 32 * 64 + low6 b1) / 64).toUInt8 = b0 :=
        toUInt8_eq (by simp only [low6]; omega)
      have e1 : (0x80 + (b0.toNat % 32 * 64 + low6 b1) % 64).toUInt8 = b1 :=
        toUInt8_eq (by simp only [low6]; omega)
      simp only [encodeChar, hc, if_neg (show ¬ b0.toNat % 32 * 64 + low6 b1 < 0x80 by
        simp only [low6]; omega), if_pos (show b0.toNat % 32 * 64 + low6 b1 < 0x800 by
        simp only [low6]; omega), e0, e1, List.cons_append, List.nil_append]
    · cases h
  · -- three bytes: the second byte's range keeps the code point out of the overlong forms and
    -- the surrogates
    split at h
    · rename_i b1 b2 r2
      split_ifs at h with ht
      obtain ⟨cs', hr, rfl⟩ := prepend_eq_ok.mp h
      simp only [isTail, isSecond_iff_bounds, Bool.and_eq_true, decide_eq_true_eq] at ht
      set v := b0.toNat % 16 * 4096 + low6 b1 * 64 + low6 b2 with hv
      have hv' : 0x800 ≤ v ∧ v < 0x10000 ∧ (v < 0xD800 ∨ 0xDFFF < v) := by
        simp only [hv, low6]; omega
      have hc := toNat_ofNat_of_valid (n := v) (by omega)
      refine ⟨_, r2, cs', ?_, hr, rfl⟩
      have e0 : (0xE0 + v / 4096).toUInt8 = b0 := toUInt8_eq (by simp only [hv, low6]; omega)
      have e1 : (0x80 + v / 64 % 64).toUInt8 = b1 := toUInt8_eq (by simp only [hv, low6]; omega)
      have e2 : (0x80 + v % 64).toUInt8 = b2 := toUInt8_eq (by simp only [hv, low6]; omega)
      simp only [encodeChar, hc, if_neg (show ¬ v < 0x80 by omega),
        if_neg (show ¬ v < 0x800 by omega), if_pos hv'.2.1, e0, e1, e2, List.cons_append,
        List.nil_append]
    · cases h
  · -- four bytes: the code point lies in the planes 1 to 16
    split at h
    · rename_i b1 b2 b3 r3
      split_ifs at h with ht
      obtain ⟨cs', hr, rfl⟩ := prepend_eq_ok.mp h
      simp only [isTail, isSecond_iff_bounds, Bool.and_eq_true, decide_eq_true_eq] at ht
      set v := b0.toNat % 8 * 262144 + low6 b1 * 4096 + low6 b2 * 64 + low6 b3 with hv
      have hv' : 0x10000 ≤ v ∧ v < 0x110000 := by
        simp only [hv, low6]; omega
      have hc := toNat_ofNat_of_valid (n := v) (by omega)
      refine ⟨_, r3, cs', ?_, hr, rfl⟩
      have e0 : (0xF0 + v / 262144).toUInt8 = b0 := toUInt8_eq (by simp only [hv, low6]; omega)
      have e1 : (0x80 + v / 4096 % 64).toUInt8 = b1 := toUInt8_eq (by simp only [hv, low6]; omega)
      have e2 : (0x80 + v / 64 % 64).toUInt8 = b2 := toUInt8_eq (by simp only [hv, low6]; omega)
      have e3 : (0x80 + v % 64).toUInt8 = b3 := toUInt8_eq (by simp only [hv, low6]; omega)
      simp only [encodeChar, hc, if_neg (show ¬ v < 0x80 by omega),
        if_neg (show ¬ v < 0x800 by omega), if_neg (show ¬ v < 0x10000 by omega), e0, e1, e2, e3,
        List.cons_append, List.nil_append]
    · cases h

theorem encodeChar_ne_nil (c : Char) : encodeChar c ≠ [] := by
  simp only [encodeChar]
  split_ifs <;> simp

/-- **A byte string that decodes is the encoding of what it decodes to.** By induction on its
length: each step takes one character's bytes off the front. -/
theorem encode_eq_of_decode {bs : List UInt8} {cs : List Char} (h : decode bs = .ok cs) :
    encode cs = bs := by
  induction hn : bs.length using Nat.strongRecOn generalizing bs cs with
  | ind n ih =>
    match bs, h with
    | [], h =>
      rw [decode.eq_1] at h
      cases h
      rfl
    | b0 :: r0, h =>
      obtain ⟨c, rest, cs', heq, hr, rfl⟩ := decode_cons_ok h
      have hlen : rest.length < n := by
        have hl := congrArg List.length heq
        have hc := List.length_pos_iff.mpr (encodeChar_ne_nil c)
        simp only [List.length_append, List.length_cons] at hl hn
        omega
      rw [encode_cons, ih rest.length hlen hr rfl, heq]

theorem decode_eq_ok_iff {bs : List UInt8} {cs : List Char} :
    decode bs = .ok cs ↔ bs = encode cs :=
  ⟨fun h => (encode_eq_of_decode h).symm, fun h => h ▸ decode_encode cs⟩

/-- Two well-formed pieces make a well-formed whole, which decodes to both texts in turn. -/
theorem decode_append {bs ds : List UInt8} {cs es : List Char} (h : decode bs = .ok cs)
    (h' : decode ds = .ok es) : decode (bs ++ ds) = .ok (cs ++ es) := by
  rw [← encode_eq_of_decode h, ← encode_eq_of_decode h', ← encode_append, decode_encode]

/-! ### Byte lengths -/

theorem length_encodeChar (c : Char) : (encodeChar c).length = c.utf8Size := by
  have hv : c.toNat < 0xD800 ∨ (0xDFFF < c.toNat ∧ c.toNat < 0x110000) := c.valid
  simp only [encodeChar, Char.utf8Size, UInt32.le_iff_toNat_le, Char.toNat_val]
  split_ifs <;> simp_all <;> omega

/-- The UTF-8 size of a string is the length of its encoding. -/
theorem utf8ByteSize_ofList (cs : List Char) :
    (String.ofList cs).utf8ByteSize = (encode cs).length := by
  induction cs with
  | nil => rfl
  | cons c cs ih =>
    rw [show c :: cs = [c] ++ cs from rfl, String.ofList_append, String.utf8ByteSize_append, ih,
      encode_append, List.length_append, encode_cons, encode_nil, List.append_nil,
      length_encodeChar]
    simp

example : encode ['a', 'é', '€', '😀'] =
    [0x61, 0xC3, 0xA9, 0xE2, 0x82, 0xAC, 0xF0, 0x9F, 0x98, 0x80] := by decide

end Cbor.Utf8

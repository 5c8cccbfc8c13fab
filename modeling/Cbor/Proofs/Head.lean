import Mathlib.Data.List.Induction
import Mathlib.Tactic.Ring
import Mathlib.Tactic.NormNum
import Mathlib.Tactic.SplitIfs
import Cbor.Head
import Cbor.Item.Decode
/-! # Shortest heads read back

Facts about the head writer `Head.encode` and the head reader (`Head.ofByte` followed by
`Cursor.argument`).

* The big-endian writer and reader undo each other: `bigEndian_toBigEndian`,
  `toBigEndian_bigEndian`.
* A written head reads back as its major type and argument and takes exactly its own bytes; its
  length is the least that any head form holding the argument has; and a head of additional
  information 24–27 is what the writer produces exactly when no shorter form holds its argument.

The writer picks its head by comparing the argument with 24, `2 ^ 8`, `2 ^ 16` and `2 ^ 32`; the
five ranges this gives are stated once, in `shortestHead_cases`, and the facts about widths and
additional information are read off them.
-/

namespace Cbor

/-! ### Big-endian numbers -/

theorem foldl_bigEndian (bs : List UInt8) (acc : Nat) :
    bs.foldl (fun acc b => acc * 256 + b.toNat) acc = acc * 256 ^ bs.length + bigEndian bs := by
  induction bs generalizing acc with
  | nil => simp [bigEndian]
  | cons b bs ih =>
    have h1 := ih (acc * 256 + b.toNat)
    have h2 := ih b.toNat
    have h3 : bigEndian (b :: bs) = bs.foldl (fun acc b => acc * 256 + b.toNat) b.toNat := by
      simp [bigEndian]
    rw [List.foldl_cons, h1, h3, h2, List.length_cons]
    ring

@[simp] theorem bigEndian_nil : bigEndian [] = 0 := rfl

theorem bigEndian_append (xs ys : List UInt8) :
    bigEndian (xs ++ ys) = bigEndian xs * 256 ^ ys.length + bigEndian ys := by
  rw [bigEndian, List.foldl_append, foldl_bigEndian]
  rfl

theorem bigEndian_concat (xs : List UInt8) (b : UInt8) :
    bigEndian (xs ++ [b]) = bigEndian xs * 256 + b.toNat := by
  rw [bigEndian_append]
  simp [bigEndian]

theorem bigEndian_lt (bs : List UInt8) : bigEndian bs < 256 ^ bs.length := by
  induction bs using List.reverseRecOn with
  | nil => simp
  | append_singleton xs b ih =>
    rw [bigEndian_concat, List.length_append, List.length_singleton, Nat.pow_succ]
    have := UInt8.toNat_lt b
    have h2 : bigEndian xs + 1 ≤ 256 ^ xs.length := ih
    have : (bigEndian xs + 1) * 256 ≤ 256 ^ xs.length * 256 := Nat.mul_le_mul_right 256 h2
    omega

@[simp] theorem length_toBigEndian (w n : Nat) : (toBigEndian w n).length = w := by
  induction w generalizing n with
  | zero => rfl
  | succ w ih => simp [toBigEndian, ih]

theorem bigEndian_toBigEndian (w n : Nat) : bigEndian (toBigEndian w n) = n % 256 ^ w := by
  induction w generalizing n with
  | zero => simp [toBigEndian, Nat.mod_one]
  | succ w ih =>
    rw [toBigEndian, bigEndian_concat, ih, Nat.pow_succ, Nat.mul_comm (256 ^ w) 256, Nat.mod_mul]
    simp only [UInt8.toNat_ofNat', Nat.mod_mod]
    omega

theorem toBigEndian_bigEndian (bs : List UInt8) : toBigEndian bs.length (bigEndian bs) = bs := by
  induction bs using List.reverseRecOn with
  | nil => rfl
  | append_singleton xs b ih =>
    rw [List.length_append, List.length_singleton, toBigEndian, bigEndian_concat]
    have hb := UInt8.toNat_lt b
    have h1 : (bigEndian xs * 256 + b.toNat) / 256 = bigEndian xs := by omega
    have h2 : (bigEndian xs * 256 + b.toNat) % 256 = b.toNat := by omega
    rw [h1, h2, ih, UInt8.ofNat_toNat]

/-! ### Heads -/

theorem Head.ofByte_toByte (h : Head) (hi : h.info < 32) : Head.ofByte h.toByte = h := by
  obtain ⟨m, i⟩ := h
  have hb := Major.bits_lt_eight m
  have hlt : m.bits * 32 + i < 256 := by simp only at hi; omega
  simp only [Head.ofByte, Head.toByte, UInt8.toNat_ofNat', Nat.mod_eq_of_lt hlt]
  have h1 : (m.bits * 32 + i) / 32 = m.bits := by simp only at hi; omega
  have h2 : (m.bits * 32 + i) % 32 = i := by simp only at hi; omega
  rw [h1, h2, Major.ofBits_bits]

theorem Major.bits_ofBits (n : Nat) : (Major.ofBits n).bits = n % 8 := by
  unfold Major.ofBits
  split <;> simp_all [Major.bits]
  omega

theorem Head.toByte_ofByte (b : UInt8) : Head.toByte (Head.ofByte b) = b := by
  have hb := UInt8.toNat_lt b
  have hm : b.toNat / 32 % 8 = b.toNat / 32 := Nat.mod_eq_of_lt (by omega)
  have hd : b.toNat / 32 * 32 + b.toNat % 32 = b.toNat := Nat.div_add_mod' _ _
  simp only [Head.toByte, Head.ofByte, Major.bits_ofBits, hm, hd, UInt8.ofNat_toNat]

/-- Two heads with additional information below 32 have the same initial byte only if they are
the same head. -/
theorem Head.toByte_inj {h h' : Head} (hi : h.info < 32) (hi' : h'.info < 32) :
    h.toByte = h'.toByte ↔ h = h' := by
  constructor
  · intro hb
    rw [← Head.ofByte_toByte h hi, hb, Head.ofByte_toByte h' hi']
  · exact congrArg Head.toByte

/-- The five ranges of the shortest head: the argument itself below 24, then one, two, four or
eight bytes after additional information 24, 25, 26 or 27. Every fact about the writer's choice
of head is read off this one case split. -/
theorem shortestHead_cases (v : Nat) :
    (v < 24 ∧ shortestInfo v = v ∧ argumentWidth v = 0) ∨
    (24 ≤ v ∧ v < 2 ^ 8 ∧ shortestInfo v = 24 ∧ argumentWidth v = 1) ∨
    (2 ^ 8 ≤ v ∧ v < 2 ^ 16 ∧ shortestInfo v = 25 ∧ argumentWidth v = 2) ∨
    (2 ^ 16 ≤ v ∧ v < 2 ^ 32 ∧ shortestInfo v = 26 ∧ argumentWidth v = 4) ∨
    (2 ^ 32 ≤ v ∧ shortestInfo v = 27 ∧ argumentWidth v = 8) := by
  unfold shortestInfo argumentWidth
  -- both cascades test the same bounds, so one split gives both at once
  split_ifs with h0 h8 h16 h32
  · exact .inl ⟨h0, rfl, rfl⟩
  · exact .inr <| .inl ⟨Nat.le_of_not_lt h0, h8, rfl, rfl⟩
  · exact .inr <| .inr <| .inl ⟨Nat.le_of_not_lt h8, h16, rfl, rfl⟩
  · exact .inr <| .inr <| .inr <| .inl ⟨Nat.le_of_not_lt h16, h32, rfl, rfl⟩
  · exact .inr <| .inr <| .inr <| .inr ⟨Nat.le_of_not_lt h32, rfl, rfl⟩

theorem shortestInfo_lt (v : Nat) : shortestInfo v < 32 := by
  rcases shortestHead_cases v with
    ⟨h, hi, -⟩ | ⟨-, -, hi, -⟩ | ⟨-, -, hi, -⟩ | ⟨-, -, hi, -⟩ | ⟨-, hi, -⟩ <;> omega

/-- Bytes in front of the rest of the input are taken as they are. -/
theorem Cursor.take_append (o : Nat) (bs rest : List UInt8) :
    ((Cursor.mk o (bs ++ rest)).take bs.length).map (fun r => (r.1, r.2.1)) =
      .ok (bs, ⟨o + bs.length, rest⟩) := by
  simp [Cursor.take, Except.map]

/-- An argument that follows its head in `bs` is read as the number `bs` writes, and reading
stops after it. -/
theorem Cursor.argument_follows (o start info : Nat) (bs rest : List UInt8)
    (h : Argument.ofInfo? info = some (.follows bs.length)) :
    ((Cursor.mk o (bs ++ rest)).argument info start).map (fun r => (r.1, r.2.1)) =
      .ok (some (bigEndian bs), ⟨o + bs.length, rest⟩) := by
  have ht := Cursor.take_append o bs rest
  simp only [Cursor.argument, h]
  cases hc : (Cursor.mk o (bs ++ rest)).take bs.length with
  | error e => simp [hc, Except.map] at ht
  | ok r => simp_all [Except.map]

/-- An argument in the additional information is read without taking a byte. -/
theorem Cursor.argument_immediate (o start info : Nat) (rest : List UInt8) (h : info < 24) :
    ((Cursor.mk o rest).argument info start).map (fun r => (r.1, r.2.1)) =
      .ok (some info, ⟨o, rest⟩) := by
  simp [Cursor.argument, Argument.ofInfo?, h, Cursor.here, Except.map]

theorem ofInfo?_shortestInfo (v : Nat) (h : 24 ≤ v) :
    Argument.ofInfo? (shortestInfo v) = some (.follows (argumentWidth v)) := by
  rcases shortestHead_cases v with
    ⟨hs, -, -⟩ | ⟨-, -, hi, hw⟩ | ⟨-, -, hi, hw⟩ | ⟨-, -, hi, hw⟩ | ⟨-, hi, hw⟩
  · omega
  all_goals rw [hi, hw]; rfl

theorem lt_pow_argumentWidth (v : Nat) (h : 24 ≤ v) (hv : v < 2 ^ 64) :
    v < 256 ^ argumentWidth v := by
  rcases shortestHead_cases v with
    ⟨hs, -, -⟩ | ⟨-, hs, -, hw⟩ | ⟨-, hs, -, hw⟩ | ⟨-, hs, -, hw⟩ | ⟨-, -, hw⟩
  · omega
  all_goals rw [hw]; omega

/-- A written head reads back as its major type and argument and takes exactly its bytes. -/
theorem Head.encode_reads_back (m : Major) (v : UInt64) (o : Nat) (rest : List UInt8) :
    ∃ b tail, Head.encode m v = b :: tail ∧ (Head.ofByte b).major = m ∧
      ((Cursor.mk (o + 1) (tail ++ rest)).argument (Head.ofByte b).info o).map
          (fun r => (r.1, r.2.1)) = .ok (some v.toNat, ⟨o + (Head.encode m v).length, rest⟩) := by
  refine ⟨Head.toByte ⟨m, shortestInfo v.toNat⟩, toBigEndian (argumentWidth v.toNat) v.toNat,
    rfl, ?_, ?_⟩
  · rw [Head.ofByte_toByte _ (shortestInfo_lt _)]
  · rw [Head.ofByte_toByte _ (shortestInfo_lt _)]
    have hlen : (Head.encode m v).length = argumentWidth v.toNat + 1 := by
      simp [Head.encode]
    rw [hlen]
    by_cases h : v.toNat < 24
    · have hw : argumentWidth v.toNat = 0 := by simp [argumentWidth, h]
      have hi : shortestInfo v.toNat = v.toNat := by simp [shortestInfo, h]
      rw [hi, hw]
      simp only [toBigEndian, List.nil_append]
      rw [Cursor.argument_immediate _ _ _ _ h]
    · have hv := UInt64.toNat_lt v
      have h24 : 24 ≤ v.toNat := by omega
      have hl := length_toBigEndian (argumentWidth v.toNat) v.toNat
      have hinfo := ofInfo?_shortestInfo v.toNat h24
      rw [← hl] at hinfo
      rw [Cursor.argument_follows _ _ _ _ _ hinfo, bigEndian_toBigEndian,
        Nat.mod_eq_of_lt (lt_pow_argumentWidth _ h24 hv), hl]
      simp only [Except.ok.injEq, Prod.mk.injEq, Cursor.mk.injEq, and_true, true_and]
      omega

/-- The shortest head's argument width is a head form, holds the argument, and is the least
form that does. -/
theorem argumentWidth_least (v : Nat) (hv : v < 2 ^ 64) :
    argumentWidth v ∈ argumentForms ∧ formHolds (argumentWidth v) v ∧
      ∀ w ∈ argumentForms, formHolds w v → argumentWidth v ≤ w := by
  have hcases := shortestHead_cases v
  refine ⟨?_, ?_, ?_⟩
  · rcases hcases with ⟨-, -, hw⟩ | ⟨-, -, -, hw⟩ | ⟨-, -, -, hw⟩ | ⟨-, -, -, hw⟩ | ⟨-, -, hw⟩ <;>
      simp [hw, argumentForms]
  · rcases hcases with ⟨h, -, hw⟩ | ⟨-, h, -, hw⟩ | ⟨-, h, -, hw⟩ | ⟨-, h, -, hw⟩ | ⟨-, -, hw⟩ <;>
      simp [hw, formHolds] <;> omega
  · -- a form that holds `v` bounds it, and the range of `v` then bounds the shortest width
    intro w hw hh
    simp only [argumentForms, List.mem_cons, List.not_mem_nil, or_false] at hw
    rcases hw with rfl | rfl | rfl | rfl | rfl <;> simp [formHolds] at hh <;>
      rcases hcases with ⟨-, -, hw⟩ | ⟨h, -, -, hw⟩ | ⟨h, -, -, hw⟩ | ⟨h, -, -, hw⟩ | ⟨h, -, hw⟩ <;>
      omega

theorem ofInfo?_follows {info w : Nat} (h : Argument.ofInfo? info = some (.follows w)) :
    (info = 24 ∧ w = 1) ∨ (info = 25 ∧ w = 2) ∨ (info = 26 ∧ w = 4) ∨ (info = 27 ∧ w = 8) := by
  unfold Argument.ofInfo? at h
  split_ifs at h <;> simp_all

theorem ofInfo?_immediate {info v : Nat} (h : Argument.ofInfo? info = some (.immediate v)) :
    v < 24 ∧ v = info := by
  unfold Argument.ofInfo? at h
  split_ifs at h <;> simp_all

theorem ofInfo?_indefinite {info : Nat} (h : Argument.ofInfo? info = some .indefinite) :
    info = 31 := by
  unfold Argument.ofInfo? at h
  split_ifs at h <;> simp_all

/-- The reserved values: 28–30, and from 32 on. -/
theorem ofInfo?_eq_none {info : Nat} (h : Argument.ofInfo? info = none) : 28 ≤ info ∧ info ≠ 31 := by
  unfold Argument.ofInfo? at h
  split_ifs at h
  omega

/-- The shortest head has additional information 24–27 exactly when its argument takes the width
that additional information announces. -/
theorem shortestInfo_eq_iff {info w : Nat} (v : Nat)
    (h : Argument.ofInfo? info = some (.follows w)) :
    shortestInfo v = info ↔ argumentWidth v = w := by
  rcases ofInfo?_follows h with ⟨rfl, rfl⟩ | ⟨rfl, rfl⟩ | ⟨rfl, rfl⟩ | ⟨rfl, rfl⟩ <;>
    rcases shortestHead_cases v with
      ⟨h, hi, hw⟩ | ⟨-, -, hi, hw⟩ | ⟨-, -, hi, hw⟩ | ⟨-, -, hi, hw⟩ | ⟨-, hi, hw⟩ <;>
    omega

/-- A head of additional information 24–27 with its argument bytes is what the writer produces
exactly when no shorter form holds the argument. -/
theorem Head.encode_eq_iff (m : Major) (info : Nat) (bs : List UInt8)
    (h : Argument.ofInfo? info = some (.follows bs.length)) :
    Head.encode m (bigEndian bs).toUInt64 = Head.toByte ⟨m, info⟩ :: bs ↔
      ∀ w ∈ argumentForms, w < bs.length → formHolds w (bigEndian bs) = false := by
  have hc := ofInfo?_follows h
  have hn := bigEndian_lt bs
  have hsmall : bigEndian bs < 2 ^ 64 := by
    rcases hc with ⟨-, hw⟩ | ⟨-, hw⟩ | ⟨-, hw⟩ | ⟨-, hw⟩ <;> rw [hw] at hn <;> omega
  have hnat : (bigEndian bs).toUInt64.toNat = bigEndian bs := by
    simp only [Nat.toUInt64, UInt64.toNat_ofNat', Nat.mod_eq_of_lt hsmall]
  have hinfo : info < 32 := by omega
  -- the written head is this one exactly when its width is the shortest: the head byte then
  -- agrees, and the bytes after it are `bs` written back
  have hwidth : Head.encode m (bigEndian bs).toUInt64 = Head.toByte ⟨m, info⟩ :: bs ↔
      argumentWidth (bigEndian bs) = bs.length := by
    rw [Head.encode, hnat, List.cons.injEq, Head.toByte_inj (shortestInfo_lt _) hinfo,
      Head.mk.injEq, shortestInfo_eq_iff _ h]
    constructor
    · rintro ⟨⟨-, hw⟩, -⟩
      exact hw
    · intro hw
      exact ⟨⟨rfl, hw⟩, by rw [hw, toBigEndian_bigEndian]⟩
  -- and the shortest width is this one exactly when no shorter form holds the argument
  obtain ⟨hform, hholds, hleast⟩ := argumentWidth_least _ hsmall
  have hlen : bs.length ∈ argumentForms ∧ formHolds bs.length (bigEndian bs) := by
    rcases hc with ⟨-, hw⟩ | ⟨-, hw⟩ | ⟨-, hw⟩ | ⟨-, hw⟩ <;> rw [hw] at hn ⊢ <;>
      simpa [argumentForms, formHolds] using hn
  rw [hwidth]
  constructor
  · intro hw w hw' hlt
    cases hh : formHolds w (bigEndian bs) with
    | false => rfl
    | true => exact absurd (hleast w hw' hh) (by omega)
  · intro hno
    refine Nat.le_antisymm (hleast _ hlen.1 hlen.2) (Nat.le_of_not_lt fun hlt => ?_)
    simp [hno _ hform hlt] at hholds

/-! ### The shortest head -/

/-- A head written for any argument reads back as its major type and argument, taking exactly
its own bytes; it is one byte longer than the least head form that holds the argument; and a
head of additional information 24–27 with its argument bytes is the written one exactly when no
shorter form holds its argument. -/
theorem Head.encode_shortest_reads_back (m : Major) :
    (∀ (v : UInt64) (o : Nat) (rest : List UInt8), ∃ b tail, Head.encode m v = b :: tail ∧
      (Head.ofByte b).major = m ∧
      ((Cursor.mk (o + 1) (tail ++ rest)).argument (Head.ofByte b).info o).map
          (fun r => (r.1, r.2.1)) = .ok (some v.toNat, ⟨o + (Head.encode m v).length, rest⟩)) ∧
    (∀ v : UInt64, (Head.encode m v).length = argumentWidth v.toNat + 1 ∧
      argumentWidth v.toNat ∈ argumentForms ∧ formHolds (argumentWidth v.toNat) v.toNat ∧
      ∀ w ∈ argumentForms, formHolds w v.toNat → argumentWidth v.toNat ≤ w) ∧
    (∀ (info : Nat) (bs : List UInt8), Argument.ofInfo? info = some (.follows bs.length) →
      (Head.encode m (bigEndian bs).toUInt64 = Head.toByte ⟨m, info⟩ :: bs ↔
        ∀ w ∈ argumentForms, w < bs.length → formHolds w (bigEndian bs) = false)) :=
  ⟨Head.encode_reads_back m,
    fun v => ⟨by simp [Head.encode], argumentWidth_least v.toNat (UInt64.toNat_lt v)⟩,
    Head.encode_eq_iff m⟩

/-- The two bytes `01 00` after a head of additional information 25 write 256, which one byte
cannot hold: the writer produces exactly that head. -/
theorem Head.encode_shortest_two_bytes :
    Argument.ofInfo? 25 = some (.follows [0x01, 0x00].length) ∧
    (Head.encode .unsigned (bigEndian [0x01, 0x00]).toUInt64 =
        Head.toByte ⟨.unsigned, 25⟩ :: [0x01, 0x00] ↔
      ∀ w ∈ argumentForms, w < [0x01, 0x00].length →
        formHolds w (bigEndian [0x01, 0x00]) = false) :=
  ⟨by decide, (Head.encode_shortest_reads_back .unsigned).2.2 25 [0x01, 0x00] (by decide)⟩

end Cbor

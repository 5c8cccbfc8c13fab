import Cbor.Item.View
import Cbor.Incremental
import Cbor.Proofs.Grammar.Reads
/-! # Integer views agree to the ends of their ranges

An integer item holds its argument `m` and stands for `m` or `-1 - m`, so its value always lies in
the range of 128-bit integers. Its views as integers of a fixed width are the value, where the
value lies in the type's range, and nothing elsewhere (`Item.toIntIn?_eq_some_iff`); this is the
item's own conversion to the type (`Item.asInt`) whenever the numeric library's conversions from
64-bit unsigned and 128-bit signed integers succeed exactly on the type's range
(`Item.asInt_isSome_iff`, `Item.asInt_value`). The view in a range is the item's conversion by
the range check (`Item.toIntIn?_eq_asInt`). The items made from the values of the fixed-width
types go back to those values (`Item.toInt?_ofUInt64`, `Item.toInt?_ofInt64`).

Both decoders refuse a negative integer that does not fit 64 bits, where the limits say so, and
both draw the line where the 64-bit view of the item draws it
(`Cursor.readItem_negative_head`, `IncrementalDecoder.onToken_negative`).
-/

namespace Cbor

/-! ### Ranges -/

namespace IntRange

theorem contains_iff (r : IntRange) (i : Int) : r.contains i = true ↔ r.min ≤ i ∧ i ≤ r.max := by
  simp [contains]

@[simp] theorem unsigned_min (bits : Nat) : (unsigned bits).min = 0 := rfl

@[simp] theorem unsigned_max (bits : Nat) : (unsigned bits).max = 2 ^ bits - 1 := by
  simp [unsigned]

@[simp] theorem signed_min (bits : Nat) : (signed bits).min = -2 ^ (bits - 1) := by
  simp [signed]

@[simp] theorem signed_max (bits : Nat) : (signed bits).max = 2 ^ (bits - 1) - 1 := by
  have h : 1 ≤ 2 ^ (bits - 1) := Nat.one_le_two_pow
  simp [signed, Nat.cast_sub h]

end IntRange

/-! ### The value of an integer item and its views -/

namespace Item

@[simp] theorem toInt?_unsigned (m : UInt64) : (unsigned m).toInt? = some (m.toNat : Int) := rfl

@[simp] theorem toInt?_negative (m : UInt64) :
    (negative m).toInt? = some (-1 - (m.toNat : Int)) := rfl

/-- Every integer item's value lies in the range of 128-bit integers, so computing it there is
exact. -/
theorem toInt?_signed128 {x : Item} {v : Int} (h : x.toInt? = some v) :
    (IntRange.signed 128).contains v := by
  rw [IntRange.contains_iff, IntRange.signed_min, IntRange.signed_max]
  cases x <;> simp only [toInt?, reduceCtorEq, Option.some.injEq] at h
  all_goals
    subst h
    rename_i m
    have := UInt64.toNat_lt m
    norm_num
    omega

theorem toIntIn?_eq_some_iff {r : IntRange} {x : Item} {v : Int} :
    x.toIntIn? r = some v ↔ x.toInt? = some v ∧ r.min ≤ v ∧ v ≤ r.max := by
  simp only [toIntIn?, Option.filter_eq_some_iff, IntRange.contains_iff]

/-- The 64-bit view of a negative integer is missing exactly when its argument is at least
`2 ^ 63`, so that its value lies below `-2 ^ 63`. -/
theorem toIntIn?_signed64_negative (m : UInt64) :
    (negative m).toIntIn? (.signed 64) = none ↔ 2 ^ 63 ≤ m.toNat := by
  have hv : ¬ ((negative m).toIntIn? (.signed 64)).isSome ↔ 2 ^ 63 ≤ m.toNat := by
    rw [Option.isSome_iff_exists]
    simp only [toIntIn?_eq_some_iff, toInt?_negative, Option.some.injEq, IntRange.signed_min,
      IntRange.signed_max, exists_eq_left', not_and_or, not_le]
    constructor
    · rintro (h | h) <;> norm_num at h <;> omega
    · intro h
      left
      norm_num
      omega
  rw [← hv, Option.not_isSome_iff_eq_none]

/-! ### The item's own conversion -/

section AsInt

variable {α : Type} (val : α → Int) (r : IntRange)

/-- A conversion from 64-bit unsigned integers that succeeds exactly on the values in `r`, with
an element of that value. -/
def ConvertsU64 (f : UInt64 → Option α) : Prop :=
  ∀ n : UInt64, ((f n).isSome ↔ r.contains n.toNat) ∧ ∀ y, f n = some y → val y = n.toNat

/-- A conversion from 128-bit signed integers that succeeds exactly on the values in `r`, with an
element of that value. -/
def ConvertsI128 (f : Int → Option α) : Prop :=
  ∀ i, (IntRange.signed 128).contains i →
    ((f i).isSome ↔ r.contains i) ∧ ∀ y, f i = some y → val y = i

variable {val r} {fromU64 : UInt64 → Option α} {fromI128 : Int → Option α}

/-- The item's conversion to a type succeeds exactly when its value lies in the type's range. -/
theorem asInt_isSome_iff (hU : ConvertsU64 val r fromU64) (hI : ConvertsI128 val r fromI128)
    (x : Item) :
    (x.asInt fromU64 fromI128).isSome ↔ ∃ v, x.toInt? = some v ∧ r.contains v := by
  cases x with
  | unsigned n => simpa [asInt] using (hU n).1
  | negative m =>
    have h128 := toInt?_signed128 (toInt?_negative m)
    simpa [asInt] using (hI _ h128).1
  | _ => simp [asInt, toInt?]

/-- What the item's conversion gives stands for the item's value. -/
theorem asInt_value (hU : ConvertsU64 val r fromU64) (hI : ConvertsI128 val r fromI128)
    {x : Item} {y : α} {v : Int} (hy : x.asInt fromU64 fromI128 = some y)
    (hv : x.toInt? = some v) : val y = v := by
  cases x with
  | unsigned n =>
    simp only [toInt?_unsigned, Option.some.injEq] at hv
    rw [← hv]
    exact (hU n).2 y hy
  | negative m =>
    simp only [asInt, hv, Option.bind_some] at hy
    exact (hI v (toInt?_signed128 hv)).2 y hy
  | _ => simp [toInt?] at hv

/-- The range check `toIntIn?` is the item's conversion to the integers of `r`. -/
theorem toIntIn?_eq_asInt (r : IntRange) (x : Item) :
    x.toIntIn? r = x.asInt (fun n => (some (n.toNat : Int)).filter r.contains)
      (fun i => (some i).filter r.contains) := by
  cases x <;> rfl

end AsInt

/-! ### Items of fixed-width integers -/

theorem toInt?_ofUInt64 (v : UInt64) : (ofUInt64 v).toInt? = some (v.toNat : Int) := rfl

theorem toInt_toUInt64_of_nonneg {v : Int64} (h : 0 ≤ v) : (v.toUInt64.toNat : Int) = v.toInt := by
  have h0 : 0 ≤ v.toInt := by simpa using Int64.le_iff_toInt_le.1 h
  rw [← Int64.toNat_toBitVec, ← Int64.toInt_toBitVec] at *
  rw [BitVec.toInt_eq_toNat_cond] at *
  split_ifs at * <;> omega

/-- The complement of a negative `v` is `-1 - v`, which its bits as an unsigned integer hold. -/
theorem toInt_not_toUInt64_of_neg {v : Int64} (h : ¬ 0 ≤ v) :
    ((~~~v).toUInt64.toNat : Int) = -1 - v.toInt := by
  have h0 : v.toInt < 0 := by simpa using mt Int64.le_iff_toInt_le.2 h
  rw [← Int64.toNat_toBitVec, Int64.toBitVec_not, BitVec.toNat_not, ← Int64.toInt_toBitVec] at *
  rw [BitVec.toInt_eq_toNat_cond] at *
  have := v.toBitVec.isLt
  split_ifs at * <;> omega

/-- The item of a signed value stands for that value. -/
theorem toInt?_ofInt64 (v : Int64) : (ofInt64 v).toInt? = some v.toInt := by
  unfold ofInt64
  split_ifs with h
  · simp [toInt?, toInt_toUInt64_of_nonneg h]
  · simp only [toInt?, toInt_not_toUInt64_of_neg h, Option.some.injEq]
    omega

end Item

/-! ### Where the decoders refuse a negative integer -/

/-- A negative integer's head, its argument in any form, is refused where the limits refuse wide
negative integers and the argument is at least `2 ^ 63`, at the head, after reading the argument;
and is read as the item otherwise. -/
theorem Cursor.readItem_negative_head (cfg : Config) (a : Arg) (o : Nat) (rest : List UInt8)
    (depth : Nat) :
    (cfg.allowWideNegative = false → 2 ^ 63 ≤ a.value →
      (Cursor.mk o (a.head .negative ++ rest)).readItem cfg depth =
        .error ⟨⟨.integerOverflow, o⟩, o + 1 + a.width⟩) ∧
    (cfg.allowWideNegative = true ∨ a.value < 2 ^ 63 →
      ∃ d, (Cursor.mk o (a.head .negative ++ rest)).readItem cfg depth =
        .ok (.negative a.value.toUInt64, d) ∧ d.1 = ⟨o + 1 + a.width, rest⟩) := by
  constructor
  · intro hc hw
    obtain ⟨⟨_, h⟩, hv, rfl⟩ := a.definite_extra (o + 1) o rest
    have hsplit : a.head .negative ++ rest = Head.toByte ⟨.negative, a.info⟩ :: (a.extra ++ rest) :=
      rfl
    rw [hsplit, Cursor.readItem.eq_def]
    have hwide : (!cfg.allowWideNegative && decide (Nat.pow 2 63 ≤ a.value)) = true := by
      simpa [hc] using hw
    simp only [if_neg (a.toByte_ne_break _), Arg.ofByte_head, hv, hwide, if_true]
    rfl
  · intro h
    obtain ⟨d, hr, hd⟩ := negative_readsBack a (by simpa using h) o rest
    exact ⟨d, hr, by simpa [Encoding.bytes, Arg.head, Nat.add_assoc, Nat.add_comm 1] using hd⟩

/-- The token of a negative integer is refused where the limits refuse wide negative integers
and its 64-bit view is missing, and is otherwise finished as an item. -/
theorem IncrementalDecoder.onToken_negative (d : IncrementalDecoder) (m : UInt64) (s : Nat)
    (h : d.config.allowWideNegative = false) :
    d.onToken (.negative m) s = if (Item.negative m).toIntIn? (.signed 64) = none then
      d.fail ⟨.integerOverflow, s⟩ else d.complete (.negative m) s := by
  simp only [IncrementalDecoder.onToken, h, Bool.not_false, Bool.true_and, decide_eq_true_eq,
    Item.toIntIn?_signed64_negative, Nat.pow_eq]

/-! ### The views, the conversions and the decoders draw the same lines -/

/-- The numeric library's conversion of a 64-bit unsigned integer to an 8-bit one. -/
def u8OfU64 (n : UInt64) : Option UInt8 := if n.toNat < 256 then some n.toUInt8 else none

/-- The numeric library's conversion of a 128-bit signed integer to an 8-bit unsigned one. -/
def u8OfI128 (i : Int) : Option UInt8 := if 0 ≤ i ∧ i < 256 then some i.toNat.toUInt8 else none

theorem convertsU64_u8 : Item.ConvertsU64 (fun y : UInt8 => (y.toNat : Int)) (.unsigned 8) u8OfU64 := by
  intro n
  refine ⟨?_, fun y hy => ?_⟩
  · simp only [u8OfU64, IntRange.contains_iff, IntRange.unsigned_min, IntRange.unsigned_max]
    split_ifs <;> simp <;> omega
  · simp only [u8OfU64] at hy
    split_ifs at hy with h
    cases hy
    simp [UInt64.toNat_toUInt8, Nat.mod_eq_of_lt h]

theorem convertsI128_u8 : Item.ConvertsI128 (fun y : UInt8 => (y.toNat : Int)) (.unsigned 8) u8OfI128 := by
  intro i _
  refine ⟨?_, fun y hy => ?_⟩
  · simp only [u8OfI128, IntRange.contains_iff, IntRange.unsigned_min, IntRange.unsigned_max]
    split_ifs <;> simp <;> omega
  · simp only [u8OfI128] at hy
    split_ifs at hy with h
    cases hy
    show ((i.toNat.toUInt8.toNat : Nat) : Int) = i
    rw [Utf8.toNat_toUInt8 (by omega)]
    omega

/-- The integer views of items agree to the ends of their ranges. Every integer item has its value
in 128 bits exactly; its 64-bit view, and its view in the unsigned or signed integers of any
width, is that value exactly when the value lies in the range, and the item's own conversion to
a fixed-width type succeeds exactly there and gives that value, wherever the numeric library's
conversions succeed exactly on the type's range. The item of a value of any of the unsigned types
of 8 to 64 bits or the machine word, or of the signed ones, goes back to that value. Where the
limits refuse wide negative integers, the whole-buffer reader refuses a negative integer's head,
its argument in any form, and the incremental decoder its token, exactly when the item's 64-bit
view is missing. -/
theorem Item.integer_views_agree :
    (∀ m : UInt64, (Item.unsigned m).toInt? = some (m.toNat : Int) ∧
      (Item.negative m).toInt? = some (-1 - (m.toNat : Int)) ∧
      (IntRange.signed 128).contains (m.toNat : Int) ∧
      (IntRange.signed 128).contains (-1 - (m.toNat : Int))) ∧
    (∀ (x : Item) (v : Int), x.toIntIn? (.signed 64) = some v ↔
      x.toInt? = some v ∧ -2 ^ 63 ≤ v ∧ v ≤ 2 ^ 63 - 1) ∧
    (∀ (bits : Nat) (x : Item) (v : Int),
      (x.toIntIn? (.unsigned bits) = some v ↔ x.toInt? = some v ∧ 0 ≤ v ∧ v ≤ 2 ^ bits - 1) ∧
      (x.toIntIn? (.signed bits) = some v ↔
        x.toInt? = some v ∧ -2 ^ (bits - 1) ≤ v ∧ v ≤ 2 ^ (bits - 1) - 1)) ∧
    (∀ {α : Type} (val : α → Int) (r : IntRange) (fromU64 : UInt64 → Option α)
      (fromI128 : Int → Option α), Item.ConvertsU64 val r fromU64 →
      Item.ConvertsI128 val r fromI128 → ∀ x : Item,
        ((x.asInt fromU64 fromI128).isSome ↔ ∃ v, x.toInt? = some v ∧ r.contains v) ∧
        ∀ y v, x.asInt fromU64 fromI128 = some y → x.toInt? = some v → val y = v) ∧
    (∀ r : IntRange, ∀ x : Item, x.toIntIn? r = x.asInt
      (fun n => (some (n.toNat : Int)).filter r.contains) (fun i => (some i).filter r.contains)) ∧
    ((∀ v : UInt8, (Item.ofUInt64 v.toUInt64).toInt? = some (v.toNat : Int)) ∧
      (∀ v : UInt16, (Item.ofUInt64 v.toUInt64).toInt? = some (v.toNat : Int)) ∧
      (∀ v : UInt32, (Item.ofUInt64 v.toUInt64).toInt? = some (v.toNat : Int)) ∧
      (∀ v : UInt64, (Item.ofUInt64 v).toInt? = some (v.toNat : Int)) ∧
      (∀ v : USize, (Item.ofUInt64 v.toUInt64).toInt? = some (v.toNat : Int)) ∧
      (∀ v : Int8, (Item.ofInt64 v.toInt64).toInt? = some v.toInt) ∧
      (∀ v : Int16, (Item.ofInt64 v.toInt64).toInt? = some v.toInt) ∧
      (∀ v : Int32, (Item.ofInt64 v.toInt64).toInt? = some v.toInt) ∧
      (∀ v : Int64, (Item.ofInt64 v).toInt? = some v.toInt) ∧
      (∀ v : ISize, (Item.ofInt64 v.toInt64).toInt? = some v.toInt)) ∧
    (∀ cfg : Config, cfg.allowWideNegative = false → ∀ (a : Arg) (o : Nat) (rest : List UInt8)
      (depth : Nat),
      ((Item.negative a.value.toUInt64).toIntIn? (.signed 64) = none →
        (Cursor.mk o (a.head .negative ++ rest)).readItem cfg depth =
          .error ⟨⟨.integerOverflow, o⟩, o + 1 + a.width⟩) ∧
      ((Item.negative a.value.toUInt64).toIntIn? (.signed 64) ≠ none →
        ∃ d, (Cursor.mk o (a.head .negative ++ rest)).readItem cfg depth =
          .ok (.negative a.value.toUInt64, d) ∧ d.1 = ⟨o + 1 + a.width, rest⟩)) ∧
    (∀ d : IncrementalDecoder, d.config.allowWideNegative = false → ∀ (m : UInt64) (s : Nat),
      d.onToken (.negative m) s = if (Item.negative m).toIntIn? (.signed 64) = none then
        d.fail ⟨.integerOverflow, s⟩ else d.complete (.negative m) s) := by
  refine ⟨fun m => ⟨rfl, rfl, Item.toInt?_signed128 (Item.toInt?_unsigned m),
      Item.toInt?_signed128 (Item.toInt?_negative m)⟩,
    fun x v => by rw [Item.toIntIn?_eq_some_iff, IntRange.signed_min, IntRange.signed_max],
    fun bits x v => ⟨by rw [Item.toIntIn?_eq_some_iff, IntRange.unsigned_min,
      IntRange.unsigned_max], by rw [Item.toIntIn?_eq_some_iff, IntRange.signed_min,
      IntRange.signed_max]⟩,
    fun val r fU fI hU hI x => ⟨Item.asInt_isSome_iff hU hI x,
      fun y v hy hv => Item.asInt_value hU hI hy hv⟩,
    Item.toIntIn?_eq_asInt, ?_, ?_, fun d hd m s => IncrementalDecoder.onToken_negative d m s hd⟩
  · refine ⟨fun v => ?_, fun v => ?_, fun v => ?_, Item.toInt?_ofUInt64, fun v => ?_, fun v => ?_,
      fun v => ?_, fun v => ?_, Item.toInt?_ofInt64, fun v => ?_⟩
    all_goals first
      | rw [Item.toInt?_ofUInt64]; simp
      | rw [Item.toInt?_ofInt64]; simp
  · intro cfg hc a o rest depth
    -- the argument fits 64 bits, so the item's argument is the head's
    have hv : a.value.toUInt64.toNat = a.value := UInt64.toNat_ofNat_of_lt' a.value_lt
    have hw := Item.toIntIn?_signed64_negative a.value.toUInt64
    rw [hv] at hw
    obtain ⟨hwide, hnarrow⟩ := Cursor.readItem_negative_head cfg a o rest depth
    exact ⟨fun h => hwide hc (hw.1 h), fun h => hnarrow (.inr (Nat.lt_of_not_le (mt hw.2 h)))⟩

/-- Under limits that refuse wide negative integers, `-2 ^ 63 - 1`, whose argument is `2 ^ 63`, is
refused at its head, and the integer 200 converts to an 8-bit unsigned integer. -/
theorem Item.integer_views_at_the_ends :
    Item.ConvertsU64 (fun y : UInt8 => (y.toNat : Int)) (.unsigned 8) u8OfU64 ∧
      Item.ConvertsI128 (fun y : UInt8 => (y.toNat : Int)) (.unsigned 8) u8OfI128 ∧
      ((Item.unsigned 200).asInt u8OfU64 u8OfI128).isSome ∧
      (Cursor.mk 0 [0x3B, 0x80, 0, 0, 0, 0, 0, 0, 0]).readItem { allowWideNegative := false } 0 =
        .error ⟨⟨.integerOverflow, 0⟩, 9⟩ := by
  refine ⟨convertsU64_u8, convertsI128_u8, ?_, ?_⟩
  · exact ((Item.integer_views_agree.2.2.2.1 _ _ _ _ convertsU64_u8 convertsI128_u8
      (.unsigned 200)).1).2 ⟨200, rfl, by decide⟩
  · have h := (Item.integer_views_agree.2.2.2.2.2.2.1 { allowWideNegative := false } rfl
      (Arg.shortest 0x8000000000000000) 0 [] 0).1 (by decide)
    have hb : (Arg.shortest 0x8000000000000000).head .negative ++ [] =
        [0x3B, 0x80, 0, 0, 0, 0, 0, 0, 0] := by decide
    have hw : (Arg.shortest 0x8000000000000000).width = 8 := by decide
    rwa [hb, hw] at h

end Cbor

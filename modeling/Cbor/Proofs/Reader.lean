import Cbor.Proofs.Head
/-! # Facts about the item reader

Equations and inversions for the parts of `Cursor.readItem`: the argument of a head, the bytes of
a payload, and `Cursor.nextEntry`, which decides whether a container has another entry. The
proofs about the reader cite these and do not unfold the parts again.
-/

namespace Cbor

/-- A read that gave `x` and stopped at `d₀.1` gave `y` and stopped at `c'`, when these are the
same. -/
theorem exists_ok {ε α : Type} {P : Cursor → Prop} {x y : α} {d₀ : Subtype P} {c' : Cursor}
    (hx : x = y) (hc : d₀.1 = c') :
    ∃ d : Subtype P, (Except.ok (x, d₀) : Except ε (α × Subtype P)) = .ok (y, d) ∧ d.1 = c' :=
  ⟨d₀, by rw [hx], hc⟩

theorem Config.stringTooLong_mono {cfg : Config} {a b : Nat} (h : a ≤ b)
    (hb : cfg.stringTooLong b = false) : cfg.stringTooLong a = false := by
  unfold Config.stringTooLong at hb ⊢
  split at hb <;> simp_all
  omega

@[simp] theorem Config.stringTooLong_zero (cfg : Config) : cfg.stringTooLong 0 = false := by
  unfold Config.stringTooLong
  split <;> simp

@[simp] theorem Config.tooManyItems_zero (cfg : Config) : cfg.tooManyItems 0 = false := by
  unfold Config.tooManyItems
  split <;> simp

theorem Config.tooManyItems_mono {cfg : Config} {a b : Nat} (h : a ≤ b)
    (hb : cfg.tooManyItems b = false) : cfg.tooManyItems a = false := by
  unfold Config.tooManyItems at hb ⊢
  split at hb <;> simp_all
  omega

/-! ### Heads and payloads -/

/-- Bytes in front of the rest of the input are taken as they are. -/
theorem Cursor.take_prefix (o : Nat) (bs rest : List UInt8) :
    ∃ d, (Cursor.mk o (bs ++ rest)).take bs.length = .ok (bs, d) ∧
      d.1 = ⟨o + bs.length, rest⟩ :=
  ⟨⟨⟨o + bs.length, rest⟩, by simp⟩, by simp [Cursor.take], rfl⟩

@[simp] theorem Cursor.Ahead.val_past {c d : Cursor} (h : d.rest.length < c.rest.length) (e : d.Ahead) :
    (Cursor.Ahead.past h e).1 = e.1 := rfl

theorem Cursor.length_of_take {c : Cursor} {n : Nat} {bs : List UInt8} {c' : c.Ahead}
    (h : c.take n = .ok (bs, c')) : bs.length = n := by
  unfold Cursor.take at h
  split_ifs at h with hn
  simp only [Except.ok.injEq, Prod.mk.injEq] at h
  rw [← h.1, List.length_take, Nat.min_eq_left hn]

/-- The argument a read found: the additional information itself below 24, or the number the
bytes announced by 24–27 write. -/
theorem Cursor.argument_eq_some {c : Cursor} {info start v : Nat} {d : c.Ahead}
    (h : c.argument info start = .ok (some v, d)) :
    (info < 24 ∧ v = info ∧ d = c.here) ∨
      ∃ w bs, Argument.ofInfo? info = some (.follows w) ∧ c.take w = .ok (bs, d) ∧
        v = bigEndian bs := by
  unfold Cursor.argument at h
  split at h
  · cases h
  · next v' hi =>
    obtain ⟨hlt, rfl⟩ := ofInfo?_immediate hi
    simp only [Except.ok.injEq, Prod.mk.injEq, Option.some.injEq] at h
    exact .inl ⟨hlt, h.1.symm, h.2.symm⟩
  · next w hi =>
    split at h
    · next bs d' ht =>
      simp only [Except.ok.injEq, Prod.mk.injEq, Option.some.injEq] at h
      obtain ⟨rfl, rfl⟩ := h
      exact .inr ⟨w, bs, hi, ht, rfl⟩
    · cases h
  · cases h

/-- A read that found an indefinite length took nothing, and the additional information was 31. -/
theorem Cursor.argument_eq_none {c : Cursor} {info start : Nat} {d : c.Ahead}
    (h : c.argument info start = .ok (none, d)) : info = 31 ∧ d = c.here := by
  unfold Cursor.argument at h
  split at h
  · cases h
  · cases h
  · split at h <;> cases h
  · next hi =>
    simp only [Except.ok.injEq, Prod.mk.injEq, true_and] at h
    exact ⟨ofInfo?_indefinite hi, h.symm⟩

/-- An argument is at most eight bytes, so it fits in 64 bits. -/
theorem Cursor.argument_lt {c : Cursor} {info start v : Nat} {c' : c.Ahead}
    (h : c.argument info start = .ok (some v, c')) : v < 2 ^ 64 := by
  rcases Cursor.argument_eq_some h with ⟨hlt, rfl, -⟩ | ⟨w, bs, hw, ht, rfl⟩
  · omega
  · have hlen : bs.length ≤ 8 := by
      rw [Cursor.length_of_take ht]
      rcases ofInfo?_follows hw with ⟨-, rfl⟩ | ⟨-, rfl⟩ | ⟨-, rfl⟩ | ⟨-, rfl⟩ <;> decide
    calc bigEndian bs < 256 ^ bs.length := bigEndian_lt _
      _ ≤ 256 ^ 8 := Nat.pow_le_pow_right (by decide) hlen
      _ = 2 ^ 64 := by norm_num

theorem Cursor.argument_indefinite (c : Cursor) (start : Nat) :
    c.argument 31 start = .ok (none, c.here) := rfl

/-! ### Simple values and floats

`Cursor.simple` decides by the additional information alone before it reads anything, so a proof
about it splits on `simpleInfo_cases` and takes each case from the equations below, or, for a
literal from 20 to 24, by computation. Opening the whole cascade of `if`s at once is much slower. -/

/-- The additional information of a simple value or float, sorted as `Cursor.simple` and
`Scanner.simpleToken` sort it. -/
theorem simpleInfo_cases (info : Nat) :
    info < 20 ∨ info = 20 ∨ info = 21 ∨ info = 22 ∨ info = 23 ∨ info = 24 ∨ info = 25 ∨
      info = 26 ∨ info = 27 ∨ 28 ≤ info := by
  omega

theorem Cursor.simple_small (c : Cursor) {info : Nat} (h : info < 20) (start : Nat) :
    c.simple info start = .ok (.simple info.toUInt8, c.here) := by
  unfold Cursor.simple
  rw [if_neg (by omega), if_neg (by omega), if_neg (by omega), if_neg (by omega), if_pos h]

/-- Additional information from 28 on is refused as reserved; 31, an indefinite length, with it. -/
theorem Cursor.simple_reserved (c : Cursor) {info : Nat} (h : 28 ≤ info) (start : Nat) :
    c.simple info start = .error (c.stop (.reservedInfo info) start) := by
  unfold Cursor.simple
  rw [if_neg (by omega), if_neg (by omega), if_neg (by omega), if_neg (by omega), if_neg (by omega),
    if_neg (by omega), if_neg (by omega), if_neg (by omega), if_neg (by omega)]

/-- Additional information 25–27: a float whose bits are the next 2, 4 or 8 bytes. -/
theorem Cursor.simple_float (c : Cursor) (start : Nat) :
    c.simple 25 start = (c.take 2).map (fun r => (.float (.half (bigEndian r.1).toUInt16), r.2)) ∧
      c.simple 26 start =
        (c.take 4).map (fun r => (.float (.single (bigEndian r.1).toUInt32), r.2)) ∧
      c.simple 27 start =
        (c.take 8).map (fun r => (.float (.double (bigEndian r.1).toUInt64), r.2)) := by
  refine ⟨?_, ?_, ?_⟩ <;> simp only [Cursor.simple, Nat.reduceEqDiff, Nat.reduceLT, reduceIte] <;>
    cases c.take _ <;> rfl

/-- Where the argument of a simple value cannot be read, the simple value is refused alike. -/
theorem Cursor.simple_of_argument_error {c : Cursor} {info start : Nat} {s : Stop}
    (h : c.argument info start = .error s) : c.simple info start = .error s := by
  unfold Cursor.argument at h
  split at h
  · next hi =>
    cases h
    exact Cursor.simple_reserved c (ofInfo?_eq_none hi).1 start
  · cases h
  · next w hi =>
    split at h
    · cases h
    · next s' ht =>
      cases h
      rcases ofInfo?_follows hi with ⟨rfl, rfl⟩ | ⟨rfl, rfl⟩ | ⟨rfl, rfl⟩ | ⟨rfl, rfl⟩ <;>
        simp [Cursor.simple, ht]
  · cases h

/-! ### Entries of containers -/

theorem Cursor.readArray_zero (c : Cursor) (cfg : Config) (depth : Nat) (acc : Array Item) :
    c.readArray cfg depth (some 0) acc = .ok (acc.toList, c.here) := by
  rw [Cursor.readArray.eq_def]
  rfl

theorem Cursor.readMap_zero (c : Cursor) (cfg : Config) (depth : Nat) (indefinite : Bool)
    (acc : Array (Item × Item)) :
    c.readMap cfg depth indefinite (some 0) acc = .ok (acc.toList, c.here) := by
  rw [Cursor.readMap.eq_def]
  rfl

/-- `nextEntry` fails only in an indefinite container: at the end of input, or where the limit
refuses one more entry. -/
theorem Cursor.nextEntry_error {c : Cursor} {cfg : Config} {rem : Option Nat} {seen : Nat}
    {e : Stop} (h : c.nextEntry cfg rem seen = .error e) :
    rem = none ∧ (c.rest = [] ∧ e = c.stop .unexpectedEnd c.offset ∨
      ∃ b r, c.rest = b :: r ∧ b ≠ breakByte ∧ cfg.tooManyItems (seen + 1) = true ∧
        e = c.stop (.tooManyItems (seen + 1)) c.offset) := by
  obtain ⟨o, rest⟩ := c
  unfold Cursor.nextEntry at h
  rcases rem with _ | _ | k
  · cases rest with
    | nil => simp at h; exact ⟨rfl, .inl ⟨rfl, h.symm⟩⟩
    | cons b r =>
      simp only at h
      split_ifs at h with hb ht
      cases h
      exact ⟨rfl, .inr ⟨b, r, rfl, hb, ht, rfl⟩⟩
  · cases h
  · cases h

/-- `nextEntry` ends a container that declared no more entries, or an indefinite one at its
Break, which it takes. -/
theorem Cursor.nextEntry_done {c : Cursor} {cfg : Config} {rem : Option Nat} {seen : Nat}
    {c' : c.Ahead} (h : c.nextEntry cfg rem seen = .ok (none, c')) :
    rem = some 0 ∨ rem = none ∧ ∃ r, c.rest = breakByte :: r ∧ c'.1 = ⟨c.offset + 1, r⟩ := by
  obtain ⟨o, rest⟩ := c
  unfold Cursor.nextEntry at h
  rcases rem with _ | _ | k
  · cases rest with
    | nil => cases h
    | cons b r =>
      simp only at h
      split_ifs at h with hb ht
      · simp only [Except.ok.injEq, Prod.mk.injEq, true_and] at h
        exact .inr ⟨rfl, r, by rw [hb], by rw [← h]⟩
      · simp at h
  · exact .inl rfl
  · cases h

/-- Where `nextEntry` announces one more entry it takes nothing: a definite container counts it
down, an indefinite one has no Break next and admits it. -/
theorem Cursor.nextEntry_more {c : Cursor} {cfg : Config} {rem : Option Nat} {seen : Nat}
    {left : Option Nat} {c' : c.Ahead} (h : c.nextEntry cfg rem seen = .ok (some left, c')) :
    c'.1 = c ∧ ((∃ j, rem = some (j + 1) ∧ left = some j) ∨
      rem = none ∧ left = none ∧ (∃ b r, c.rest = b :: r ∧ b ≠ breakByte) ∧
        cfg.tooManyItems (seen + 1) = false) := by
  obtain ⟨o, rest⟩ := c
  unfold Cursor.nextEntry at h
  rcases rem with _ | _ | k
  · cases rest with
    | nil => cases h
    | cons b r =>
      simp only at h
      split_ifs at h with hb ht
      · simp at h
      simp only [Except.ok.injEq, Prod.mk.injEq, Option.some.injEq] at h
      obtain ⟨rfl, rfl⟩ := h
      exact ⟨rfl, .inr ⟨rfl, rfl, ⟨b, r, rfl, hb⟩, by simpa using ht⟩⟩
  · cases h
  · cases h
    exact ⟨rfl, .inl ⟨k, rfl, rfl⟩⟩

end Cbor

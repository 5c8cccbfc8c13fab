import Cbor.Proofs.Grammar.Sound
/-! # Reading depends only on the bytes read

The item reader looks at its input only through the bytes it takes, and reports offsets counted
from the start of the input. So reading the same bytes further into an input, and with more bytes
after them, gives the same item with the cursor after it moved alike, and the same stop with its
offsets moved; the one exception is running out of input, which more bytes may prevent. A read
that runs out does so within the input.

`Cursor.Shifted p s c c'` says that `c'` holds the bytes of `c` followed by `s`, at offsets `p`
further on, and `Moves` says how a read from `c` and the same read from `c'` compare. Each part of
the reader has its lemma (`Cursor.take_moves`, `Cursor.argument_moves`, …, `Cursor.chunks_moves`),
and the item reader with its entry loops is handled by strong induction on the bytes left
(`Cursor.readItem_moves`).
-/

namespace Cbor

/-- The cursor `c'` holds the bytes of `c` followed by `s`, at offsets `p` further on. -/
structure Cursor.Shifted (p : Nat) (s : List UInt8) (c c' : Cursor) : Prop where
  offset : c'.offset = c.offset + p
  rest : c'.rest = c.rest ++ s

/-- A stop found `p` bytes further on. -/
def Stop.shift (st : Stop) (p : Nat) : Stop := ⟨⟨st.error.kind, st.error.offset + p⟩, st.readTo + p⟩

@[simp] theorem Stop.shift_zero (st : Stop) : st.shift 0 = st := rfl

@[simp] theorem Stop.error_shift (st : Stop) (p : Nat) :
    (st.shift p).error = ⟨st.error.kind, st.error.offset + p⟩ := rfl

theorem Cursor.stop_shift {c c' : Cursor} {p : Nat} (h : c'.offset = c.offset + p)
    (kind : ErrorKind) (o : Nat) : c'.stop kind (o + p) = (c.stop kind o).shift p := by
  simp [Cursor.stop, Stop.shift, h]

/-- How a read from a cursor of an input that ends at offset `n` compares with the same read from
that cursor shifted by `p` with `s` after the input: a value and the cursor after it carry over,
the cursor shifted alike and still within the input; a stop carries over shifted by `p`, unless it
ran out of input while `s` holds more bytes; and a read that ran out did so within the input. -/
def Moves {α : Type} {P Q : Cursor → Prop} (n p : Nat) (s : List UInt8) :
    Except Stop (α × Subtype P) → Except Stop (α × Subtype Q) → Prop
  | .ok (x, d), .ok (x', d') => x' = x ∧ d.1.offset + d.1.rest.length = n ∧ d.1.Shifted p s d'.1
  | .ok _, .error _ => False
  | .error st, r' => (st.error.kind = .unexpectedEnd → st.error.offset ≤ n) ∧
      (st.error.kind ≠ .unexpectedEnd ∨ s = [] → r' = .error (st.shift p))

namespace Moves

variable {α : Type} {P Q : Cursor → Prop} {n p : Nat} {s : List UInt8}
  {r : Except Stop (α × Subtype P)} {r' : Except Stop (α × Subtype Q)}

/-- A value read from `c` is read from the shifted cursor too. -/
theorem of_ok (h : Moves n p s r r') {x : α} {d : Subtype P} (hr : r = .ok (x, d)) :
    d.1.offset + d.1.rest.length = n ∧ ∃ d' : Subtype Q, r' = .ok (x, d') ∧ d.1.Shifted p s d'.1 := by
  subst hr
  match r', h with
  | .ok (x', d'), ⟨hx, hn, hs⟩ => exact ⟨hn, d', by rw [hx], hs⟩

theorem of_error (h : Moves n p s r r') {st : Stop} (hr : r = .error st) :
    (st.error.kind = .unexpectedEnd → st.error.offset ≤ n) ∧
      (st.error.kind ≠ .unexpectedEnd ∨ s = [] → r' = .error (st.shift p)) := by
  subst hr
  exact h

/-- A stop of a first part of a read is the stop of the whole read, on both sides. -/
theorem pass {β : Type} {P' Q' : Cursor → Prop} {st : Stop} {r'' : Except Stop (β × Subtype Q')}
    (h : Moves n p s r r') (hr : r = .error st)
    (hr' : ∀ st', r' = .error st' → r'' = .error st') :
    Moves n p s (.error st : Except Stop (β × Subtype P')) r'' :=
  ⟨(h.of_error hr).1, fun hc => hr' _ ((h.of_error hr).2 hc)⟩

/-- A stop that is not the end of input, shifted on the other side. -/
theorem of_shift {st : Stop} (hk : st.error.kind ≠ .unexpectedEnd)
    (hr' : r' = .error (st.shift p)) : Moves n p s (.error st : Except Stop (α × Subtype P)) r' :=
  ⟨fun h => absurd h hk, fun _ => hr'⟩

/-- The same fault found at the same place on both sides. -/
theorem stop_of_ne {c c' : Cursor} (hc : c'.offset = c.offset + p) {kind : ErrorKind}
    (hk : kind ≠ .unexpectedEnd) (o : Nat) :
    Moves n p s (.error (c.stop kind o) : Except Stop (α × Subtype P))
      (.error (c'.stop kind (o + p)) : Except Stop (α × Subtype Q)) :=
  of_shift hk (by rw [Cursor.stop_shift hc])

/-- Running out of input at its end: with nothing after the input, the shifted read runs out too. -/
theorem stop_at_end {c : Cursor} (hn : c.offset + c.rest.length = n)
    (hr' : s = [] → r' = .error ((c.stop .unexpectedEnd c.offset).shift p)) :
    Moves n p s (.error (c.stop .unexpectedEnd c.offset) : Except Stop (α × Subtype P)) r' := by
  refine ⟨fun _ => by simp only [Cursor.stop]; omega, fun hcond => hr' ?_⟩
  simpa [Cursor.stop] using hcond

end Moves

/-! ### Heads, arguments and payloads -/

section Parts

variable {c c' : Cursor} {n p : Nat} {s : List UInt8}

theorem Cursor.take_moves (hc : c.Shifted p s c') (hn : c.offset + c.rest.length = n)
    (k : Nat) : Moves n p s (c.take k) (c'.take k) := by
  unfold Cursor.take
  by_cases hk : k ≤ c.rest.length
  · have hk' : k ≤ c'.rest.length := by rw [hc.rest, List.length_append]; omega
    rw [if_pos hk, if_pos hk']
    refine ⟨by rw [hc.rest, List.take_append_of_le_length hk], ?_, ?_, ?_⟩
    · simp only [List.length_drop]
      omega
    · simp only [hc.offset]
      omega
    · simp only [hc.rest, List.drop_append_of_le_length hk]
  · rw [if_neg hk]
    refine ⟨fun _ => by simp only [Cursor.stop]; omega, fun hcond => ?_⟩
    -- running out is the one stop more bytes could prevent, so here none follow
    have hs : s = [] := by simpa [Cursor.stop] using hcond
    have hk' : ¬ k ≤ c'.rest.length := by rw [hc.rest, hs, List.append_nil]; exact hk
    rw [if_neg hk', hc.offset, Cursor.stop_shift hc.offset]

theorem Cursor.argument_moves (hc : c.Shifted p s c') (hn : c.offset + c.rest.length = n)
    (info start : Nat) : Moves n p s (c.argument info start) (c'.argument info (start + p)) := by
  unfold Cursor.argument
  split
  · exact Moves.stop_of_ne hc.offset (by simp) start
  · exact ⟨rfl, hn, hc⟩
  · next w _ =>
    have ht := Cursor.take_moves hc hn w
    split
    · next bs d hd =>
      obtain ⟨hn', d', ht', hs'⟩ := ht.of_ok hd
      rw [ht']
      exact ⟨rfl, hn', hs'⟩
    · next st hst => exact ht.pass hst fun _ h => by rw [h]
  · exact ⟨rfl, hn, hc⟩

theorem Cursor.definite_moves (hc : c.Shifted p s c') (hn : c.offset + c.rest.length = n)
    (info start : Nat) : Moves n p s (c.definite info start) (c'.definite info (start + p)) := by
  have ha := Cursor.argument_moves hc hn info start
  unfold Cursor.definite
  split
  · next v d hd =>
    obtain ⟨hn', d', ha', hs'⟩ := ha.of_ok hd
    rw [ha']
    exact ⟨rfl, hn', hs'⟩
  · next d hd =>
    obtain ⟨-, d', ha', -⟩ := ha.of_ok hd
    rw [ha']
    exact Moves.stop_of_ne hc.offset (by simp) start
  · next st hst => exact ha.pass hst fun _ h => by rw [h]

theorem Cursor.length_moves (hc : c.Shifted p s c') (hn : c.offset + c.rest.length = n)
    (cfg : Config) (info start : Nat) :
    Moves n p s (c.length cfg info start) (c'.length cfg info (start + p)) := by
  have ha := Cursor.argument_moves hc hn info start
  unfold Cursor.length
  split
  · next d hd =>
    obtain ⟨hn', d', ha', hs'⟩ := ha.of_ok hd
    rw [ha']
    dsimp only
    split_ifs
    · exact ⟨rfl, hn', hs'⟩
    · exact Moves.stop_of_ne hc.offset (by simp) start
  · next r hr =>
    rcases hA : c.argument info start with st | ⟨v, d⟩
    · rw [hA] at ha
      obtain ⟨hend, hstop⟩ := ha
      refine ⟨hend, fun hcond => ?_⟩
      rw [hstop hcond]
    · obtain ⟨hn', d', ha', hs'⟩ := ha.of_ok hA
      rw [ha']
      cases v with
      | none => exact absurd hA (hr d)
      | some v => exact ⟨rfl, hn', hs'⟩

theorem Cursor.payload_moves (hc : c.Shifted p s c') (hn : c.offset + c.rest.length = n)
    (cfg : Config) (len start : Nat) :
    Moves n p s (c.payload cfg len start) (c'.payload cfg len (start + p)) := by
  unfold Cursor.payload
  split_ifs
  · exact Moves.stop_of_ne hc.offset (by simp) start
  · exact Cursor.take_moves hc hn len

/-- Text checked further on is refused at an offset further on. -/
theorem Cursor.chars_shift (hc : c'.offset = c.offset + p) (bs : List UInt8) (first : Nat) :
    c'.chars bs (first + p) = (c.chars bs first).mapError (·.shift p) := by
  unfold Cursor.chars
  split
  · rfl
  · next k hk =>
    simp only [Except.mapError]
    rw [Nat.add_right_comm, Cursor.stop_shift hc]

theorem Cursor.chars_error {c : Cursor} {bs : List UInt8} {first : Nat} {st : Stop}
    (h : c.chars bs first = .error st) : st.error.kind = .invalidUtf8 := by
  unfold Cursor.chars at h
  split at h
  · cases h
  · cases h
    rfl

theorem Cursor.enter_shift (hc : c'.offset = c.offset + p) (cfg : Config) (depth : Nat)
    (count : Option Nat) (start : Nat) :
    c'.enter cfg depth count (start + p) = (c.enter cfg depth count start).mapError (·.shift p) := by
  unfold Cursor.enter
  split_ifs
  · simp [Except.mapError, Cursor.stop_shift hc]
  · split
    · split_ifs <;> simp [Except.mapError, Cursor.stop_shift hc]
    · rfl

/-- The checks on entering a container refuse only for the depth or the length. -/
theorem Cursor.enter_error {c : Cursor} {cfg : Config} {depth : Nat} {count : Option Nat}
    {start : Nat} {st : Stop} (h : c.enter cfg depth count start = .error st) :
    st.error.kind ≠ .unexpectedEnd := by
  unfold Cursor.enter at h
  split_ifs at h
  · cases h
    simp [Cursor.stop]
  · split at h
    · split_ifs at h
      cases h
      simp [Cursor.stop]
    · cases h

theorem Cursor.nextEntry_moves (hc : c.Shifted p s c') (hn : c.offset + c.rest.length = n)
    (cfg : Config) (remaining : Option Nat) (seen : Nat) :
    Moves n p s (c.nextEntry cfg remaining seen) (c'.nextEntry cfg remaining seen) := by
  obtain ⟨o, rest⟩ := c
  obtain ⟨o', rest'⟩ := c'
  obtain ⟨rfl, rfl⟩ := hc
  unfold Cursor.nextEntry
  split
  · exact ⟨rfl, hn, ⟨rfl, rfl⟩⟩
  · exact ⟨rfl, hn, ⟨rfl, rfl⟩⟩
  · cases rest with
    | nil =>
      exact Moves.stop_at_end hn fun hs => by subst hs; simp [Cursor.stop, Stop.shift]
    | cons b r =>
      simp only [List.cons_append]
      split_ifs
      · exact ⟨rfl, by simp only [List.length_cons] at hn ⊢; omega, ⟨by dsimp only; omega, rfl⟩⟩
      · exact Moves.stop_of_ne rfl (by simp) o
      · exact ⟨rfl, hn, ⟨rfl, rfl⟩⟩

theorem Cursor.simple_moves (hc : c.Shifted p s c') (hn : c.offset + c.rest.length = n)
    (info start : Nat) : Moves n p s (c.simple info start) (c'.simple info (start + p)) := by
  have hfloat : ∀ (k : Nat) (f : List UInt8 → IeeeFloat),
      Moves n p s ((c.take k).map fun r => (Item.float (f r.1), r.2))
        ((c'.take k).map fun r => (Item.float (f r.1), r.2)) := by
    intro k f
    have ht := Cursor.take_moves hc hn k
    cases hr : c.take k with
    | error st => exact ht.pass hr fun _ h => by rw [h]; rfl
    | ok r =>
      obtain ⟨hn', d', ht', hs'⟩ := ht.of_ok hr
      rw [ht']
      exact ⟨rfl, hn', hs'⟩
  rcases simpleInfo_cases info with h | rfl | rfl | rfl | rfl | rfl | rfl | rfl | rfl | h
  · rw [Cursor.simple_small c h, Cursor.simple_small c' h]
    exact ⟨rfl, hn, hc⟩
  · exact ⟨rfl, hn, hc⟩
  · exact ⟨rfl, hn, hc⟩
  · exact ⟨rfl, hn, hc⟩
  · exact ⟨rfl, hn, hc⟩
  · have ht := Cursor.take_moves hc hn 1
    simp only [Cursor.simple, Nat.reduceEqDiff, Nat.reduceLT, reduceIte]
    split
    · next st hst => exact ht.pass hst fun _ h => by rw [h]
    · next bs d hd =>
      obtain ⟨hn', d', ht', hs'⟩ := ht.of_ok hd
      rw [ht']
      dsimp only
      split_ifs
      · exact Moves.stop_of_ne hs'.offset (by simp) start
      · exact ⟨rfl, hn', hs'⟩
  · rw [(Cursor.simple_float c start).1, (Cursor.simple_float c' _).1]
    exact hfloat 2 fun bs => .half (bigEndian bs).toUInt16
  · rw [(Cursor.simple_float c start).2.1, (Cursor.simple_float c' _).2.1]
    exact hfloat 4 fun bs => .single (bigEndian bs).toUInt32
  · rw [(Cursor.simple_float c start).2.2, (Cursor.simple_float c' _).2.2]
    exact hfloat 8 fun bs => .double (bigEndian bs).toUInt64
  · rw [Cursor.simple_reserved c h, Cursor.simple_reserved c' h]
    exact Moves.stop_of_ne hc.offset (by simp) start

end Parts

/-! ### Chunks of an indefinite string -/

section Chunks

variable {β : Type} {n p : Nat} {s : List UInt8} (cfg : Config) (m : Major)
  (content : List UInt8 → Nat → Cursor → Except Stop (List β))

/-- The chunks of an indefinite string, read alike on both sides, where what a chunk holds
depends only on its bytes, its refusals are never for the end of input, and its offsets move with
the chunk. -/
theorem Cursor.chunks_moves
    (hcontent : ∀ bs first d d', d'.offset = d.offset + p →
      content bs (first + p) d' = (content bs first d).mapError (·.shift p))
    (hkind : ∀ bs first d st, content bs first d = .error st → st.error.kind ≠ .unexpectedEnd)
    (start : Nat) (k : Nat) :
    ∀ (c c' : Cursor), c.rest.length = k → c.Shifted p s c' → c.offset + c.rest.length = n →
      ∀ (acc : List β) (total : Nat),
        Moves n p s (c.chunks cfg m content start acc total)
          (c'.chunks cfg m content (start + p) acc total) := by
  induction k using Nat.strong_induction_on with
  | _ k ih =>
  intro c c' hk hc hn acc total
  obtain ⟨o, rest0⟩ := c
  obtain ⟨o', rest'⟩ := c'
  obtain ⟨rfl, rfl⟩ := hc
  rw [Cursor.chunks.eq_def (Cursor.mk o rest0), Cursor.chunks.eq_def (Cursor.mk (o + p) (rest0 ++ s))]
  cases rest0 with
  | nil => exact Moves.stop_at_end hn fun hs => by subst hs; simp [Cursor.stop, Stop.shift]
  | cons b rest =>
  simp only [List.cons_append]
  have hc1 : Cursor.Shifted p s ⟨o + 1, rest⟩ ⟨o + p + 1, rest ++ s⟩ := ⟨Nat.add_right_comm o p 1, rfl⟩
  have hn1 : o + 1 + rest.length = n := by simp only [List.length_cons] at hn; omega
  split_ifs with hb hmaj
  · exact ⟨rfl, hn1, hc1⟩
  · exact Moves.stop_of_ne hc1.offset (by simp) o
  have ha := Cursor.argument_moves hc1 hn1 (Head.ofByte b).info o
  split
  · next st hst => exact ha.pass hst fun _ h => by rw [h]
  · next d hd =>
    obtain ⟨-, d', ha', -⟩ := ha.of_ok hd
    rw [ha']
    exact Moves.stop_of_ne hc1.offset (by simp) o
  · next len c2 h2 hlen =>
    obtain ⟨hn2, ⟨c2', h2'⟩, ha', hs2⟩ := ha.of_ok hlen
    rw [ha']
    dsimp only
    split_ifs
    · exact Moves.stop_of_ne hs2.offset (by simp) start
    have ht := Cursor.take_moves hs2 hn2 len
    split
    · next st hst => exact ht.pass hst fun _ h => by rw [h]
    · next bs c3 h3 hbs =>
      obtain ⟨hn3, ⟨c3', h3'⟩, ht', hs3⟩ := ht.of_ok hbs
      rw [ht']
      dsimp only
      rw [hs2.offset, hcontent bs c2.offset c3 c3' hs3.offset]
      split
      · next st hst =>
        exact Moves.of_shift (hkind _ _ _ _ hst) (by rw [hst]; rfl)
      · next xs hxs =>
        rw [hxs]
        dsimp only [Except.mapError]
        have hlt : c3.rest.length < k := by simp only [List.length_cons] at h2 hk; omega
        have hr := ih c3.rest.length hlt c3 c3' rfl hs3 hn3 (acc ++ xs) (total + len)
        split
        · next st hst => exact hr.pass hst fun _ h => by rw [h]
        · next ys c4 h4 hys =>
          obtain ⟨hn4, ⟨c4', h4'⟩, hr', hs4⟩ := hr.of_ok hys
          rw [hr']
          exact ⟨rfl, hn4, hs4⟩

end Chunks

/-! ### Items and the entries of containers -/

/-- Every read of an item from `c`, at any depth, compares with the same read from a shifted
cursor as `Moves` says. -/
def ItemMoves (cfg : Config) (n p : Nat) (s : List UInt8) (c : Cursor) : Prop :=
  ∀ (c' : Cursor) (depth : Nat), c.Shifted p s c' → c.offset + c.rest.length = n →
    Moves n p s (c.readItem cfg depth) (c'.readItem cfg depth)

/-- With no byte left, reading an item runs out at once. -/
theorem Cursor.readItem_nil {c : Cursor} (h : c.rest = []) (cfg : Config) (depth : Nat) :
    c.readItem cfg depth = .error (c.stop .unexpectedEnd c.offset) := by
  obtain ⟨o, rest⟩ := c
  subst h
  rw [Cursor.readItem.eq_def]

section Loops

variable {cfg : Config} {n p : Nat} {s : List UInt8}

theorem Cursor.readArray_moves (depth : Nat) (k : Nat) :
    ∀ (c c' : Cursor), c.rest.length = k →
      (∀ c₀ : Cursor, c₀.rest.length ≤ k → ItemMoves cfg n p s c₀) →
      c.Shifted p s c' → c.offset + c.rest.length = n →
      ∀ (remaining : Option Nat) (acc : Array Item),
        Moves n p s (c.readArray cfg depth remaining acc) (c'.readArray cfg depth remaining acc) := by
  induction k using Nat.strong_induction_on with
  | _ k ih =>
  intro c c' hk hitem hc hn remaining acc
  rw [Cursor.readArray.eq_def c, Cursor.readArray.eq_def c']
  have he := Cursor.nextEntry_moves hc hn cfg remaining acc.size
  split
  · next st hst => exact he.pass hst fun _ h => by rw [h]
  · next d hd =>
    obtain ⟨hn', d', he', hs'⟩ := he.of_ok hd
    rw [he']
    exact ⟨rfl, hn', hs'⟩
  · next left c1 h1 hd =>
    obtain ⟨hn1, ⟨c1', h1'⟩, he', hs1⟩ := he.of_ok hd
    rw [he']
    dsimp only
    have hx := hitem c1 (by omega) c1' depth hs1 hn1
    split
    · next st hst => exact hx.pass hst fun _ h => by rw [h]
    · next x c2 h2 hxd =>
      obtain ⟨hn2, ⟨c2', h2'⟩, hx', hs2⟩ := hx.of_ok hxd
      rw [hx']
      dsimp only
      have hr := ih c2.rest.length (by omega) c2 c2' rfl (fun c₀ h₀ => hitem c₀ (by omega)) hs2
        hn2 left (acc.push x)
      split
      · next st hst => exact hr.pass hst fun _ h => by rw [h]
      · next xs c3 h3 hxs =>
        obtain ⟨hn3, ⟨c3', h3'⟩, hr', hs3⟩ := hr.of_ok hxs
        rw [hr']
        exact ⟨rfl, hn3, hs3⟩

theorem Cursor.readMap_moves (depth : Nat) (indefinite : Bool) (k : Nat) :
    ∀ (c c' : Cursor), c.rest.length = k →
      (∀ c₀ : Cursor, c₀.rest.length ≤ k → ItemMoves cfg n p s c₀) →
      c.Shifted p s c' → c.offset + c.rest.length = n →
      ∀ (remaining : Option Nat) (acc : Array (Item × Item)),
        Moves n p s (c.readMap cfg depth indefinite remaining acc)
          (c'.readMap cfg depth indefinite remaining acc) := by
  induction k using Nat.strong_induction_on with
  | _ k ih =>
  intro c c' hk hitem hc hn remaining acc
  rw [Cursor.readMap.eq_def c, Cursor.readMap.eq_def c']
  have he := Cursor.nextEntry_moves hc hn cfg remaining acc.size
  split
  · next st hst => exact he.pass hst fun _ h => by rw [h]
  · next d hd =>
    obtain ⟨hn', d', he', hs'⟩ := he.of_ok hd
    rw [he']
    exact ⟨rfl, hn', hs'⟩
  · next left c1 h1 hd =>
    obtain ⟨hn1, ⟨c1', h1'⟩, he', hs1⟩ := he.of_ok hd
    rw [he']
    dsimp only
    have hx := hitem c1 (by omega) c1' depth hs1 hn1
    split
    · next st hst => exact hx.pass hst fun _ h => by rw [h]
    · next key c2 h2 hkey =>
      obtain ⟨hn2, ⟨c2', h2'⟩, hx', hs2⟩ := hx.of_ok hkey
      rw [hx']
      dsimp only
      by_cases hdup : (cfg.rejectDuplicateKeys && acc.any fun e => e.1.valueEq key) = true
      · rw [if_pos hdup, if_pos hdup, hs1.offset]
        exact Moves.stop_of_ne hs2.offset (by simp) c1.offset
      rw [if_neg hdup, if_neg hdup]
      have hv := hitem c2 (by omega) c2' depth hs2 hn2
      by_cases htr : (indefinite && c2.rest.head? = some breakByte) = true
      · -- a Break right after the key lies within the input, so both sides see it
        have htr' : (indefinite && c2'.rest.head? = some breakByte) = true := by
          rw [hs2.rest]
          cases hr : c2.rest with
          | nil => simp [hr] at htr
          | cons => simpa [hr] using htr
        rw [if_pos htr, if_pos htr', hs2.offset]
        exact Moves.stop_of_ne hs2.offset (by simp) c2.offset
      rw [if_neg htr]
      by_cases htr' : (indefinite && c2'.rest.head? = some breakByte) = true
      · -- only the shifted side sees a Break: the input ends at the key, and this side runs
        -- out reading the value
        have hnil : c2.rest = [] := by
          cases hr : c2.rest with
          | nil => rfl
          | cons => rw [hs2.rest, hr] at htr'; simp [hr] at htr htr'; exact absurd htr'.2 (htr htr'.1)
        rw [if_pos htr', Cursor.readItem_nil hnil]
        refine Moves.stop_at_end hn2 fun hs => ?_
        rw [hs2.rest, hnil, hs] at htr'
        simp at htr'
      rw [if_neg htr']
      split
      · next st hst => exact hv.pass hst fun _ h => by rw [h]
      · next v c3 h3 hval =>
        obtain ⟨hn3, ⟨c3', h3'⟩, hv', hs3⟩ := hv.of_ok hval
        rw [hv']
        dsimp only
        have hr := ih c3.rest.length (by omega) c3 c3' rfl (fun c₀ h₀ => hitem c₀ (by omega)) hs3
          hn3 left (acc.push (key, v))
        split
        · next st hst => exact hr.pass hst fun _ h => by rw [h]
        · next es c4 h4 hes =>
          obtain ⟨hn4, ⟨c4', h4'⟩, hr', hs4⟩ := hr.of_ok hes
          rw [hr']
          exact ⟨rfl, hn4, hs4⟩

end Loops

/-- The bytes after a head byte, on both sides. -/
theorem Cursor.shifted_after_head (o p : Nat) (rest s : List UInt8) :
    Cursor.Shifted p s ⟨o + 1, rest⟩ ⟨o + p + 1, rest ++ s⟩ :=
  ⟨Nat.add_right_comm o p 1, rfl⟩

section Items

variable {cfg : Config} {depth o n p : Nat} {b : UInt8} {rest s : List UInt8}

theorem Cursor.unsigned_moves (hb : b ≠ breakByte) (hm : (Head.ofByte b).major = .unsigned)
    (hn : o + 1 + rest.length = n) :
    Moves n p s ((Cursor.mk o (b :: rest)).readItem cfg depth)
      ((Cursor.mk (o + p) (b :: (rest ++ s))).readItem cfg depth) := by
  rw [Cursor.readItem.eq_def (Cursor.mk o _), Cursor.readItem.eq_def (Cursor.mk (o + p) _)]
  dsimp only
  rw [if_neg hb, if_neg hb, hm]
  dsimp only
  have hd := Cursor.definite_moves (Cursor.shifted_after_head o p rest s) hn (Head.ofByte b).info o
  split
  · next st hst => exact hd.pass hst fun _ h => by rw [h]
  · next v d hv =>
    obtain ⟨hn', d', hd', hs'⟩ := hd.of_ok hv
    rw [hd']
    exact ⟨rfl, hn', hs'⟩

theorem Cursor.negative_moves (hb : b ≠ breakByte) (hm : (Head.ofByte b).major = .negative)
    (hn : o + 1 + rest.length = n) :
    Moves n p s ((Cursor.mk o (b :: rest)).readItem cfg depth)
      ((Cursor.mk (o + p) (b :: (rest ++ s))).readItem cfg depth) := by
  rw [Cursor.readItem.eq_def (Cursor.mk o _), Cursor.readItem.eq_def (Cursor.mk (o + p) _)]
  dsimp only
  rw [if_neg hb, if_neg hb, hm]
  dsimp only
  have hd := Cursor.definite_moves (Cursor.shifted_after_head o p rest s) hn (Head.ofByte b).info o
  split
  · next st hst => exact hd.pass hst fun _ h => by rw [h]
  · next v d hv =>
    obtain ⟨hn', d', hd', hs'⟩ := hd.of_ok hv
    rw [hd']
    dsimp only
    split_ifs
    · exact Moves.stop_of_ne hs'.offset (by simp) o
    · exact ⟨rfl, hn', hs'⟩

theorem Cursor.bytes_moves (hb : b ≠ breakByte) (hm : (Head.ofByte b).major = .bytes)
    (hn : o + 1 + rest.length = n) :
    Moves n p s ((Cursor.mk o (b :: rest)).readItem cfg depth)
      ((Cursor.mk (o + p) (b :: (rest ++ s))).readItem cfg depth) := by
  rw [Cursor.readItem.eq_def (Cursor.mk o _), Cursor.readItem.eq_def (Cursor.mk (o + p) _)]
  dsimp only
  rw [if_neg hb, if_neg hb, hm]
  dsimp only
  have hl := Cursor.length_moves (Cursor.shifted_after_head o p rest s) hn cfg (Head.ofByte b).info o
  split
  · next st hst => exact hl.pass hst fun _ h => by rw [h]
  · next len c2 h2 hlen =>
    obtain ⟨hn2, ⟨c2', h2'⟩, hl', hs2⟩ := hl.of_ok hlen
    rw [hl']
    dsimp only
    have hp := Cursor.payload_moves hs2 hn2 cfg len o
    split
    · next st hst => exact hp.pass hst fun _ h => by rw [h]
    · next bs c3 h3 hbs =>
      obtain ⟨hn3, ⟨c3', h3'⟩, hp', hs3⟩ := hp.of_ok hbs
      rw [hp']
      exact ⟨rfl, hn3, hs3⟩
  · next c2 h2 hlen =>
    obtain ⟨hn2, ⟨c2', h2'⟩, hl', hs2⟩ := hl.of_ok hlen
    rw [hl']
    dsimp only
    have hch := Cursor.chunks_moves cfg .bytes (fun bs _ _ => .ok bs) (fun _ _ _ _ _ => rfl)
      (fun _ _ _ _ h => by cases h) o c2.rest.length c2 c2' rfl hs2 hn2 [] 0
    split
    · next st hst => exact hch.pass hst fun _ h => by rw [h]
    · next bs c3 h3 hbs =>
      obtain ⟨hn3, ⟨c3', h3'⟩, hch', hs3⟩ := hch.of_ok hbs
      rw [hch']
      exact ⟨rfl, hn3, hs3⟩

theorem Cursor.text_moves (hb : b ≠ breakByte) (hm : (Head.ofByte b).major = .text)
    (hn : o + 1 + rest.length = n) :
    Moves n p s ((Cursor.mk o (b :: rest)).readItem cfg depth)
      ((Cursor.mk (o + p) (b :: (rest ++ s))).readItem cfg depth) := by
  rw [Cursor.readItem.eq_def (Cursor.mk o _), Cursor.readItem.eq_def (Cursor.mk (o + p) _)]
  dsimp only
  rw [if_neg hb, if_neg hb, hm]
  dsimp only
  have hl := Cursor.length_moves (Cursor.shifted_after_head o p rest s) hn cfg (Head.ofByte b).info o
  split
  · next st hst => exact hl.pass hst fun _ h => by rw [h]
  · next len c2 h2 hlen =>
    obtain ⟨hn2, ⟨c2', h2'⟩, hl', hs2⟩ := hl.of_ok hlen
    rw [hl']
    dsimp only
    have hp := Cursor.payload_moves hs2 hn2 cfg len o
    split
    · next st hst => exact hp.pass hst fun _ h => by rw [h]
    · next bs c3 h3 hbs =>
      obtain ⟨hn3, ⟨c3', h3'⟩, hp', hs3⟩ := hp.of_ok hbs
      rw [hp']
      dsimp only
      rw [hs2.offset, Cursor.chars_shift hs3.offset]
      split
      · next st hst => exact Moves.of_shift (by rw [Cursor.chars_error hst]; simp) (by rw [hst]; rfl)
      · next cs hcs =>
        rw [hcs]
        exact ⟨rfl, hn3, hs3⟩
  · next c2 h2 hlen =>
    obtain ⟨hn2, ⟨c2', h2'⟩, hl', hs2⟩ := hl.of_ok hlen
    rw [hl']
    dsimp only
    have hch := Cursor.chunks_moves cfg .text (fun bs first d => d.chars bs first)
      (fun bs first _ _ hd => Cursor.chars_shift hd bs first)
      (fun _ _ _ _ h => by rw [Cursor.chars_error h]; simp) o c2.rest.length c2 c2' rfl hs2 hn2
      [] 0
    split
    · next st hst => exact hch.pass hst fun _ h => by rw [h]
    · next cs c3 h3 hcs =>
      obtain ⟨hn3, ⟨c3', h3'⟩, hch', hs3⟩ := hch.of_ok hcs
      rw [hch']
      exact ⟨rfl, hn3, hs3⟩

theorem Cursor.simple_item_moves (hb : b ≠ breakByte) (hm : (Head.ofByte b).major = .simple)
    (hn : o + 1 + rest.length = n) :
    Moves n p s ((Cursor.mk o (b :: rest)).readItem cfg depth)
      ((Cursor.mk (o + p) (b :: (rest ++ s))).readItem cfg depth) := by
  rw [Cursor.readItem.eq_def (Cursor.mk o _), Cursor.readItem.eq_def (Cursor.mk (o + p) _)]
  dsimp only
  rw [if_neg hb, if_neg hb, hm]
  dsimp only
  have hd := Cursor.simple_moves (Cursor.shifted_after_head o p rest s) hn (Head.ofByte b).info o
  split
  · next st hst => exact hd.pass hst fun _ h => by rw [h]
  · next x d hx =>
    obtain ⟨hn', d', hd', hs'⟩ := hd.of_ok hx
    rw [hd']
    exact ⟨rfl, hn', hs'⟩

variable (hitem : ∀ c₀ : Cursor, c₀.rest.length ≤ rest.length → ItemMoves cfg n p s c₀)
include hitem

theorem Cursor.array_moves (hb : b ≠ breakByte) (hm : (Head.ofByte b).major = .array)
    (hn : o + 1 + rest.length = n) :
    Moves n p s ((Cursor.mk o (b :: rest)).readItem cfg depth)
      ((Cursor.mk (o + p) (b :: (rest ++ s))).readItem cfg depth) := by
  rw [Cursor.readItem.eq_def (Cursor.mk o _), Cursor.readItem.eq_def (Cursor.mk (o + p) _)]
  dsimp only
  rw [if_neg hb, if_neg hb, hm]
  dsimp only
  have hl := Cursor.length_moves (Cursor.shifted_after_head o p rest s) hn cfg (Head.ofByte b).info o
  split
  · next st hst => exact hl.pass hst fun _ h => by rw [h]
  · next count c2 h2 hcount =>
    obtain ⟨hn2, ⟨c2', h2'⟩, hl', hs2⟩ := hl.of_ok hcount
    rw [hl']
    dsimp only
    rw [Cursor.enter_shift hs2.offset]
    split
    · next st hst => exact Moves.of_shift (Cursor.enter_error hst) (by rw [hst]; rfl)
    · next he =>
      rw [he]
      dsimp only [Except.mapError]
      have hr := Cursor.readArray_moves (depth + 1) c2.rest.length c2 c2' rfl
        (fun c₀ h₀ => hitem c₀ (le_trans h₀ h2)) hs2 hn2 count #[]
      split
      · next st hst => exact hr.pass hst fun _ h => by rw [h]
      · next xs c3 h3 hxs =>
        obtain ⟨hn3, ⟨c3', h3'⟩, hr', hs3⟩ := hr.of_ok hxs
        rw [hr']
        exact ⟨rfl, hn3, hs3⟩

theorem Cursor.map_moves (hb : b ≠ breakByte) (hm : (Head.ofByte b).major = .map)
    (hn : o + 1 + rest.length = n) :
    Moves n p s ((Cursor.mk o (b :: rest)).readItem cfg depth)
      ((Cursor.mk (o + p) (b :: (rest ++ s))).readItem cfg depth) := by
  rw [Cursor.readItem.eq_def (Cursor.mk o _), Cursor.readItem.eq_def (Cursor.mk (o + p) _)]
  dsimp only
  rw [if_neg hb, if_neg hb, hm]
  dsimp only
  have hl := Cursor.length_moves (Cursor.shifted_after_head o p rest s) hn cfg (Head.ofByte b).info o
  split
  · next st hst => exact hl.pass hst fun _ h => by rw [h]
  · next count c2 h2 hcount =>
    obtain ⟨hn2, ⟨c2', h2'⟩, hl', hs2⟩ := hl.of_ok hcount
    rw [hl']
    dsimp only
    rw [Cursor.enter_shift hs2.offset]
    split
    · next st hst => exact Moves.of_shift (Cursor.enter_error hst) (by rw [hst]; rfl)
    · next he =>
      rw [he]
      dsimp only [Except.mapError]
      have hr := Cursor.readMap_moves (depth + 1) count.isNone c2.rest.length c2 c2' rfl
        (fun c₀ h₀ => hitem c₀ (le_trans h₀ h2)) hs2 hn2 count #[]
      split
      · next st hst => exact hr.pass hst fun _ h => by rw [h]
      · next es c3 h3 hes =>
        obtain ⟨hn3, ⟨c3', h3'⟩, hr', hs3⟩ := hr.of_ok hes
        rw [hr']
        exact ⟨rfl, hn3, hs3⟩

theorem Cursor.tag_moves (hb : b ≠ breakByte) (hm : (Head.ofByte b).major = .tag)
    (hn : o + 1 + rest.length = n) :
    Moves n p s ((Cursor.mk o (b :: rest)).readItem cfg depth)
      ((Cursor.mk (o + p) (b :: (rest ++ s))).readItem cfg depth) := by
  rw [Cursor.readItem.eq_def (Cursor.mk o _), Cursor.readItem.eq_def (Cursor.mk (o + p) _)]
  dsimp only
  rw [if_neg hb, if_neg hb, hm]
  dsimp only
  have hd := Cursor.definite_moves (Cursor.shifted_after_head o p rest s) hn (Head.ofByte b).info o
  split
  · next st hst => exact hd.pass hst fun _ h => by rw [h]
  · next t c2 h2 ht =>
    obtain ⟨hn2, ⟨c2', h2'⟩, hd', hs2⟩ := hd.of_ok ht
    rw [hd']
    dsimp only
    rw [Cursor.enter_shift hs2.offset]
    split
    · next st hst => exact Moves.of_shift (Cursor.enter_error hst) (by rw [hst]; rfl)
    · next he =>
      rw [he]
      dsimp only [Except.mapError]
      have hx := hitem c2 h2 c2' (depth + 1) hs2 hn2
      split
      · next st hst => exact hx.pass hst fun _ h => by rw [h]
      · next x c3 h3 hx3 =>
        obtain ⟨hn3, ⟨c3', h3'⟩, hx', hs3⟩ := hx.of_ok hx3
        rw [hx']
        exact ⟨rfl, hn3, hs3⟩

end Items

/-- Reading an item depends only on the bytes it reads: from the same bytes further into an
input, with more bytes after them, it gives the same item and ends alike, or stops alike with
its offsets moved, unless it ran out of input; and where it runs out, it does so within the
input. -/
theorem Cursor.readItem_moves (cfg : Config) (n p : Nat) (s : List UInt8) (c : Cursor) :
    ItemMoves cfg n p s c := by
  -- strong induction on the bytes left: the items inside an item are read from fewer bytes
  induction hk : c.rest.length using Nat.strong_induction_on generalizing c with
  | _ k ih =>
  intro c' depth hc hn
  obtain ⟨o, rest0⟩ := c
  obtain ⟨o', rest'⟩ := c'
  obtain ⟨rfl, rfl⟩ := hc
  dsimp only at hk hn
  cases rest0 with
  | nil =>
    rw [Cursor.readItem_nil rfl]
    exact Moves.stop_at_end hn fun hs => by
      subst hs
      rw [Cursor.readItem_nil (by simp)]
      simp [Cursor.stop, Stop.shift]
  | cons b rest =>
    have hn1 : o + 1 + rest.length = n := by simp only [List.length_cons] at hn; omega
    have hitem : ∀ c₀ : Cursor, c₀.rest.length ≤ rest.length → ItemMoves cfg n p s c₀ :=
      fun c₀ h₀ => ih c₀.rest.length (by simp only [← hk, List.length_cons]; omega) c₀ rfl
    simp only [List.cons_append]
    by_cases hb : b = breakByte
    · rw [Cursor.readItem.eq_def (Cursor.mk o _), Cursor.readItem.eq_def (Cursor.mk (o + p) _)]
      dsimp only
      rw [if_pos hb, if_pos hb]
      exact Moves.stop_of_ne (Cursor.shifted_after_head o p rest s).offset (by simp) o
    cases hm : (Head.ofByte b).major with
    | unsigned => exact Cursor.unsigned_moves hb hm hn1
    | negative => exact Cursor.negative_moves hb hm hn1
    | bytes => exact Cursor.bytes_moves hb hm hn1
    | text => exact Cursor.text_moves hb hm hn1
    | array => exact Cursor.array_moves hitem hb hm hn1
    | map => exact Cursor.map_moves hitem hb hm hn1
    | tag => exact Cursor.tag_moves hitem hb hm hn1
    | simple => exact Cursor.simple_item_moves hb hm hn1

/-! ### Decoding with more bytes after the input -/

section Decode

variable {cfg : Config} {d : List UInt8} {t : Item} {n : Nat}

theorem Item.decode_moves (cfg : Config) (d s : List UInt8) :
    Moves d.length 0 s ((Cursor.start d).readItem cfg 0) ((Cursor.start (d ++ s)).readItem cfg 0) :=
  Cursor.readItem_moves cfg d.length 0 s (Cursor.start d) (Cursor.start (d ++ s)) 0 ⟨rfl, rfl⟩
    (by simp [Cursor.start])

/-- A decode that succeeds reads within the input, and bytes after the input change nothing. -/
theorem Item.decode_append_of_ok (h : Item.decode cfg d = .ok (t, n)) (s : List UInt8) :
    n ≤ d.length ∧ Item.decode cfg (d ++ s) = .ok (t, n) := by
  unfold Item.decode at h ⊢
  split at h
  · next x c hx =>
    simp only [Except.ok.injEq, Prod.mk.injEq] at h
    obtain ⟨rfl, rfl⟩ := h
    obtain ⟨hn, c', hx', hs⟩ := (Item.decode_moves cfg d s).of_ok hx
    rw [hx']
    dsimp only
    rw [hs.offset]
    exact ⟨by omega, rfl⟩
  · cases h

/-- A decode that runs out does so within the input; any other fault stands whatever bytes
follow the input. -/
theorem Item.decode_append_of_error {e : Error} (h : Item.decode cfg d = .error e)
    (s : List UInt8) :
    (e.kind = .unexpectedEnd → e.offset ≤ d.length) ∧
      (e.kind ≠ .unexpectedEnd → Item.decode cfg (d ++ s) = .error e) := by
  unfold Item.decode at h ⊢
  split at h
  · cases h
  · next st hst =>
    cases h
    obtain ⟨hend, hstop⟩ := (Item.decode_moves cfg d s).of_error hst
    refine ⟨hend, fun hk => ?_⟩
    rw [hstop (Or.inl hk), Stop.shift_zero]

/-- The bytes a decode takes decode alone to the same item, whatever follows them: they are an
admitted encoding of it. -/
theorem Item.decode_take_append (h : Item.decode cfg d = .ok (t, n)) (s : List UInt8) :
    Item.decode cfg (d.take n ++ s) = .ok (t, n) := by
  unfold Item.decode at h
  split at h
  · next x c hx =>
    simp only [Except.ok.injEq, Prod.mk.injEq] at h
    obtain ⟨rfl, rfl⟩ := h
    obtain ⟨e, he, rfl, hrest, hoff⟩ := Cursor.itemSound cfg _ 0 x c hx
    simp only [Cursor.start, Nat.zero_add] at hrest hoff
    rw [hoff, hrest, List.take_left, Encoding.decode_bytes_append cfg e he]
  · cases h

/-- Every prefix shorter than what a decode takes runs out, within the prefix. -/
theorem Item.decode_take_of_lt (h : Item.decode cfg d = .ok (t, n)) {k : Nat} (hk : k < n) :
    ∃ e, Item.decode cfg (d.take k) = .error e ∧ e.kind = .unexpectedEnd ∧ e.offset ≤ k := by
  -- compare the prefix with the whole input, which is the prefix with the rest after it
  have hm := Item.decode_moves cfg (d.take k) (d.drop k)
  rw [List.take_append_drop] at hm
  have hlen : (d.take k).length ≤ k := List.length_take_le k d
  unfold Item.decode at h ⊢
  split at h
  · next x c hx =>
    simp only [Except.ok.injEq, Prod.mk.injEq] at h
    obtain ⟨rfl, rfl⟩ := h
    split
    · -- an item read within the prefix would be the whole input's, ending before n
      next y c2 hy =>
      obtain ⟨hn2, c2', hy', hs⟩ := hm.of_ok hy
      obtain ⟨-, rfl⟩ := Prod.mk.inj (Except.ok.inj (hx.symm.trans hy'))
      have ho := hs.offset
      omega
    · next st hst =>
      obtain ⟨hend, hstop⟩ := hm.of_error hst
      by_cases hkind : st.error.kind = .unexpectedEnd
      · exact ⟨st.error, rfl, hkind, (hend hkind).trans hlen⟩
      · rw [hstop (Or.inl hkind)] at hx
        cases hx
  · cases h

/-- Decoding is self-delimiting, and only running out of input depends on where the input ends:
the bytes an item takes decode to it whatever follows them, every shorter prefix of them runs
out within itself, and a fault other than running out stands whatever follows the input. -/
theorem Item.decode_self_delimiting (cfg : Config) (d s : List UInt8) :
    (∀ t n, Item.decode cfg d = .ok (t, n) →
      Item.decode cfg (d.take n ++ s) = .ok (t, n) ∧
        ∀ k < n, ∃ e, Item.decode cfg (d.take k) = .error e ∧ e.kind = .unexpectedEnd ∧
          e.offset ≤ k) ∧
    (∀ e, Item.decode cfg d = .error e → e.kind ≠ .unexpectedEnd →
      Item.decode cfg (d ++ s) = .error e) :=
  ⟨fun _ _ h => ⟨Item.decode_take_append h s, fun _ hk => Item.decode_take_of_lt h hk⟩,
    fun _ h hk => (Item.decode_append_of_error h s).2 hk⟩

/-- The integer 100 in two bytes is decoded alike with a Break after it. -/
theorem Item.decode_self_delimiting_hundred :
    Item.decode {} [0x18, 0x64] = .ok (.unsigned 100, 2) ∧
      Item.decode {} ([0x18, 0x64].take 2 ++ [0xFF]) = .ok (.unsigned 100, 2) := by
  have h : Item.decode {} [0x18, 0x64] = .ok (.unsigned 100, 2) := by cbv
  exact ⟨h, ((Item.decode_self_delimiting {} [0x18, 0x64] [0xFF]).1 _ _ h).1⟩

end Decode

end Cbor

import Cbor.Proofs.Token.Encoding
import Cbor.Proofs.Utf8
/-! # The scanner is a lexer of CBOR tokens

A fresh scanner that is fed an input, in pieces of any size and then told that the input has
ended, gives a list of tokens exactly when the input is the encodings of those tokens one after
another, each admitted by the limits (`Scanner.feedPieces_lexes`). Where every byte is taken but
the input ends inside a token, the end of input is reported where the token's argument bytes
begin, or, once its argument is complete, where its payload begins.

The forward direction is an invariant of the bytes taken so far (`Scanner.Holds`): the input is
whole token encodings followed by the bytes of an unfinished token, and where the scanner stands
says how far into that token it is. Each byte keeps it (`Scanner.push_takes`), and a head with
its argument complete ends a token or begins a payload (`Scanner.afterArgument_takes`). The
backward direction feeds each token encoding in turn (`Scanner.feed_go_tokens`), and where the
input is cut does not matter (`Scanner.feedPieces_eq_feed`).
-/

namespace Cbor

/-- The number of argument bytes after a head: 1, 2, 4 or 8 for additional information 24–27,
and none otherwise. -/
def Head.argumentBytes (h : Head) : Nat :=
  match Argument.ofInfo? h.info with
  | some (.follows w) => w
  | _ => 0

namespace Scanner

/-! ### Feeding bytes one at a time -/

theorem feed_go_some {s s' : Scanner} {b : UInt8} {t : Token} (h : s.push b = (s', .ok (some t)))
    (rest : List UInt8) (acc : Array Token) :
    feed.go s (b :: rest) acc = feed.go s' rest (acc.push t) := by
  rw [feed.go, h]

theorem feed_go_none {s s' : Scanner} {b : UInt8} (h : s.push b = (s', .ok none))
    (rest : List UInt8) (acc : Array Token) : feed.go s (b :: rest) acc = feed.go s' rest acc := by
  rw [feed.go, h]

theorem feed_go_error {s s' : Scanner} {b : UInt8} {e : Error} (h : s.push b = (s', .error e))
    (rest : List UInt8) (acc : Array Token) : feed.go s (b :: rest) acc = (s', .error e) := by
  rw [feed.go, h]

@[simp] theorem advance_ok (s : Scanner) (ts : Nat) (p : Phase) (t : Option Token) :
    s.advance ts (.ok (p, t)) = ({ s with phase := p, offset := s.offset + 1, tokenStart := ts }, .ok t) :=
  rfl

@[simp] theorem advance_error (s : Scanner) (ts : Nat) (e : Error) :
    s.advance ts (.error e) =
      ({ s with phase := .failed e, offset := s.offset + 1, tokenStart := ts }, .error e) :=
  rfl

/-- A byte that did not fail moved the scanner on to the phase it gave. -/
theorem advance_eq_ok {s s' : Scanner} {ts : Nat} {r : Except Error (Phase × Option Token)}
    {t : Option Token} (h : s.advance ts r = (s', .ok t)) :
    ∃ p, r = .ok (p, t) ∧ s' = { s with phase := p, offset := s.offset + 1, tokenStart := ts } := by
  cases r with
  | error e =>
    rw [advance_error] at h
    cases h
  | ok pt =>
    obtain ⟨p, t'⟩ := pt
    rw [advance_ok, Prod.mk.injEq] at h
    obtain ⟨rfl, h2⟩ := h
    cases h2
    exact ⟨p, rfl, rfl⟩

theorem push_of_head {s : Scanner} (h : s.phase = .head) (hc : s.chunking = none) (b : UInt8) :
    s.push b = s.advance s.offset (afterHead s.config none s.offset (Head.ofByte b)) := by
  unfold push
  rw [h, hc]

theorem push_of_argument {s : Scanner} {hd : Head} {v k : Nat} (h : s.phase = .argument hd v k)
    (hc : s.chunking = none) (b : UInt8) :
    s.push b = s.advance s.tokenStart
      (if 1 < k then .ok (.argument hd (v * 256 + b.toNat) (k - 1), none)
      else afterArgument s.config none s.tokenStart (s.offset + 1) hd (v * 256 + b.toNat)) := by
  unfold push
  rw [h, hc]

theorem push_of_payload {s : Scanner} {m : Major} {bytes : Array UInt8} {k start : Nat}
    (h : s.phase = .payload m bytes k start) (b : UInt8) :
    s.push b = s.advance s.tokenStart
      (if 1 < k then .ok (.payload m (bytes.push b) (k - 1) start, none)
      else (stringToken m (bytes.push b).toList start).map fun t => (.head, some t)) := by
  unfold push
  rw [h]

/-! ### How far into a token the scanner is -/

/-- Where a scanner stands after the bytes `rest` of an unfinished token whose head is at offset
`o`, the scanner's token start being `ts`: expecting a head when there are none; gathering the
argument of the head `rest` starts with, of which it has the rest of `rest`; or gathering the
payload of a definite string whose head and argument are complete and whose payload so far is the
rest of `rest`. A failed scanner holds no token. -/
def Pending (cfg : Config) (o ts : Nat) : Phase → List UInt8 → Prop
  | .head, rest => rest = []
  | .argument h v k, rest =>
    ts = o ∧ ∃ b as w, rest = b :: as ∧ Head.ofByte b = h ∧
      Argument.ofInfo? h.info = some (.follows w) ∧ as.length + k = w ∧ 0 < k ∧ v = bigEndian as
  | .payload m bytes k start, rest =>
    ts = o ∧ ∃ (b : UInt8) (a : Arg) (ps : List UInt8), rest = b :: a.extra ++ ps ∧
      (Head.ofByte b).major = m ∧ a.info = (Head.ofByte b).info ∧ (m = .bytes ∨ m = .text) ∧
      cfg.stringTooLong a.value = false ∧ bytes.toList = ps ∧ ps.length + k = a.value ∧ 0 < k ∧
      start = o + 1 + a.width
  | .failed _, _ => False

/-- A scanner under the limits `cfg` that has taken the bytes `rest` of an unfinished token whose
head is at offset `o`. -/
structure Holds (cfg : Config) (o : Nat) (s : Scanner) (rest : List UInt8) : Prop where
  config : s.config = cfg
  chunking : s.chunking = none
  offset : s.offset = o + rest.length
  pending : Pending cfg o s.tokenStart s.phase rest

/-- What one more byte `b` did to a scanner holding the bytes `rest` of a token whose head is at
`o`, giving the scanner `s'` and `t`: `s'` holds one more byte of the token, or the token is
complete, admitted, and `t` is the token it denotes. -/
def Takes (cfg : Config) (o : Nat) (rest : List UInt8) (b : UInt8) (s' : Scanner)
    (t : Option Token) : Prop :=
  (t = none ∧ Holds cfg o s' (rest ++ [b])) ∨
    ∃ e : TokenEncoding, t = some e.token ∧ e.bytes = rest ++ [b] ∧ e.Admitted cfg ∧
      Holds cfg (o + e.bytes.length) s' []

/-! ### A head with its argument complete -/

/-- An initial byte is the byte of its major type and additional information. -/
theorem byte_eq_toByte {b : UInt8} {m : Major} {i : Nat} (hm : (Head.ofByte b).major = m)
    (hi : (Head.ofByte b).info = i) : b = Head.toByte ⟨m, i⟩ := by
  rw [← hm, ← hi]
  exact (Head.toByte_ofByte b).symm

/-- A float whose bits are the argument is written as its head and the argument bytes. -/
theorem float_takes (cfg : Config) {a : Arg} {b : UInt8} (x : IeeeFloat)
    (hb : b = Head.toByte ⟨.simple, a.info⟩)
    (hx : x.encode = Head.toByte ⟨.simple, a.info⟩ :: toBigEndian a.width a.value) :
    ∃ e : TokenEncoding, .float x = e.token ∧ e.bytes = b :: a.extra ∧ e.Admitted cfg :=
  ⟨.float x, rfl, by rw [hb, TokenEncoding.bytes, hx, Arg.extra], trivial⟩

/-- A head of major type 7 with its argument complete is a simple value, a named value or a
float, written as these bytes. -/
theorem simpleToken_takes (cfg : Config) {b : UInt8} {a : Arg}
    (hm : (Head.ofByte b).major = .simple) (ha : a.info = (Head.ofByte b).info) {o : Nat}
    {t : Token} (h : simpleToken (Head.ofByte b).info a.value o = .ok t) :
    ∃ e : TokenEncoding, t = e.token ∧ e.bytes = b :: a.extra ∧ e.Admitted cfg := by
  have hb := byte_eq_toByte hm ha.symm
  rw [← ha] at h
  have hv := a.holds
  rcases a.width_cases with hw | hw | hw | hw | hw
  · have hi : a.info = a.value := by simp only [Arg.info, hw]
    have hx : a.extra = [] := by simp [Arg.extra, hw, toBigEndian]
    simp only [formHolds, hw, if_true, decide_eq_true_eq] at hv
    rw [hx, hb, hi]
    rw [hi] at h
    by_cases hlt : a.value < 20
    · rw [simpleToken_small hlt] at h
      cases h
      have hn : a.value.toUInt8.toNat = a.value := by simp [Nat.toUInt8]; omega
      refine ⟨.simple a.value.toUInt8 (Or.inl (by omega)), rfl, ?_, trivial⟩
      simp only [TokenEncoding.bytes, hn, if_pos hlt, List.cons.injEq, and_true]
      apply UInt8.toNat_inj.1
      simp [Head.toByte, Major.bits, Nat.toUInt8]
    have hcases : a.value = 20 ∨ a.value = 21 ∨ a.value = 22 ∨ a.value = 23 := by omega
    rcases hcases with hn | hn | hn | hn <;> rw [hn] at h ⊢ <;> cases h
    · exact ⟨.bool false, rfl, rfl, trivial⟩
    · exact ⟨.bool true, rfl, rfl, trivial⟩
    · exact ⟨.null, rfl, rfl, trivial⟩
    · exact ⟨.undefined, rfl, rfl, trivial⟩
  · have hi : a.info = 24 := by simp only [Arg.info, hw]
    simp only [formHolds, hw, Nat.pow_eq, one_ne_zero, if_false, pow_one, decide_eq_true_eq] at hv
    rw [hi] at h hb
    rw [simpleToken_24] at h
    split_ifs at h with h32
    cases h
    have hn : a.value.toUInt8.toNat = a.value := by simp [Nat.toUInt8]; omega
    refine ⟨.simple a.value.toUInt8 (Or.inr (by omega)), rfl, ?_, trivial⟩
    rw [hb]
    simp only [TokenEncoding.bytes, hn, if_neg (show ¬a.value < 20 by omega), Arg.extra, hw,
      toBigEndian, Nat.mod_eq_of_lt hv, List.nil_append]
    rfl
  · have hi : a.info = 25 := by simp only [Arg.info, hw]
    simp only [formHolds, hw, Nat.pow_eq, OfNat.ofNat_ne_zero, if_false, decide_eq_true_eq] at hv
    rw [hi, simpleToken_25] at h
    cases h
    have hn : a.value.toUInt16.toNat = a.value := by simp [Nat.toUInt16]; omega
    exact float_takes cfg _ hb (by simp only [IeeeFloat.encode, hn, hw, hi]; rfl)
  · have hi : a.info = 26 := by simp only [Arg.info, hw]
    simp only [formHolds, hw, Nat.pow_eq, OfNat.ofNat_ne_zero, if_false, decide_eq_true_eq] at hv
    rw [hi, simpleToken_26] at h
    cases h
    have hn : a.value.toUInt32.toNat = a.value := by simp [Nat.toUInt32]; omega
    exact float_takes cfg _ hb (by simp only [IeeeFloat.encode, hn, hw, hi]; rfl)
  · have hi : a.info = 27 := by simp only [Arg.info, hw]
    simp only [formHolds, hw, Nat.pow_eq, OfNat.ofNat_ne_zero, if_false, decide_eq_true_eq] at hv
    rw [hi, simpleToken_27] at h
    cases h
    have hn : a.value.toUInt64.toNat = a.value := by simp [Nat.toUInt64]; omega
    exact float_takes cfg _ hb (by simp only [IeeeFloat.encode, hn, hw, hi]; rfl)

/-- A head with its argument `a` complete, at offset `o`, either ends a token written as the head
and its argument bytes, or begins the payload of a definite string. -/
theorem afterArgument_takes {cfg : Config} {o : Nat} {b : UInt8} {a : Arg}
    (ha : a.info = (Head.ofByte b).info) {p : Phase} {t : Option Token}
    (hr : afterArgument cfg none o (o + 1 + a.width) (Head.ofByte b) a.value = .ok (p, t)) :
    (t = none ∧ Pending cfg o o p (b :: a.extra)) ∨
      ∃ e : TokenEncoding, t = some e.token ∧ e.bytes = b :: a.extra ∧ e.Admitted cfg ∧ p = .head := by
  have hhead := Arg.head_ofByte ha
  unfold afterArgument at hr
  cases hm : (Head.ofByte b).major with
  | unsigned =>
    rw [hm] at hr hhead
    cases hr
    exact Or.inr ⟨.unsigned a, rfl, hhead, trivial, rfl⟩
  | negative =>
    rw [hm] at hr hhead
    cases hr
    exact Or.inr ⟨.negative a, rfl, hhead, trivial, rfl⟩
  | array =>
    rw [hm] at hr hhead
    cases hr
    exact Or.inr ⟨.array a, rfl, hhead, trivial, rfl⟩
  | map =>
    rw [hm] at hr hhead
    cases hr
    exact Or.inr ⟨.map a, rfl, hhead, trivial, rfl⟩
  | tag =>
    rw [hm] at hr hhead
    cases hr
    exact Or.inr ⟨.tag a, rfl, hhead, trivial, rfl⟩
  | bytes =>
    rw [hm] at hr hhead
    dsimp only at hr
    split_ifs at hr with hlong hzero
    · simp only [stringToken, Except.map, reduceCtorEq, if_false, Except.ok.injEq,
        Prod.mk.injEq] at hr
      obtain ⟨rfl, rfl⟩ := hr
      exact Or.inr ⟨.byteString ⟨a, [], by simp [hzero]⟩, rfl, by simp [TokenEncoding.bytes,
        Piece.bytes, hhead], by simpa [TokenEncoding.Admitted] using hlong, rfl⟩
    · cases hr
      exact Or.inl ⟨rfl, rfl, b, a, [], by simp, hm, ha, Or.inl rfl, by simpa using hlong,
        rfl, by simp, by omega, rfl⟩
  | text =>
    rw [hm] at hr hhead
    dsimp only at hr
    split_ifs at hr with hlong hzero
    · simp only [stringToken, Utf8.decode, if_true, Except.map, Except.ok.injEq,
        Prod.mk.injEq] at hr
      obtain ⟨rfl, rfl⟩ := hr
      exact Or.inr ⟨.textString ⟨a, [], by simp [hzero]⟩, rfl, by simp [TokenEncoding.bytes,
        Piece.bytes, hhead], by simpa [TokenEncoding.Admitted] using hlong, rfl⟩
    · cases hr
      exact Or.inl ⟨rfl, rfl, b, a, [], by simp, hm, ha, Or.inr rfl, by simpa using hlong,
        rfl, by simp, by omega, rfl⟩
  | simple =>
    rw [hm] at hr
    dsimp only at hr
    cases hs : simpleToken (Head.ofByte b).info a.value o with
    | error e => rw [hs] at hr; cases hr
    | ok t' =>
      rw [hs] at hr
      cases hr
      obtain ⟨e, rfl, he, had⟩ := simpleToken_takes cfg hm ha hs
      exact Or.inr ⟨e, rfl, he, had, rfl⟩

/-- An indefinite-length head outside any string is the start of a string or container, where
indefinite lengths are allowed. -/
theorem indefiniteToken_takes {cfg : Config} {b : UInt8} {o : Nat} {t : Token}
    (hi : (Head.ofByte b).info = 31) (h : indefiniteToken cfg none (Head.ofByte b) o = .ok t) :
    ∃ e : TokenEncoding, t = e.token ∧ e.bytes = [b] ∧ e.Admitted cfg := by
  unfold indefiniteToken at h
  rw [if_neg (by simp)] at h
  cases hm : (Head.ofByte b).major <;> rw [hm] at h <;> dsimp only at h
  · cases h
  · cases h
  · split_ifs at h with ha
    cases h
    exact ⟨.bytesStart, rfl, by rw [byte_eq_toByte hm hi]; rfl, ha⟩
  · split_ifs at h with ha
    cases h
    exact ⟨.textStart, rfl, by rw [byte_eq_toByte hm hi]; rfl, ha⟩
  · split_ifs at h with ha
    cases h
    exact ⟨.arrayStart, rfl, by rw [byte_eq_toByte hm hi]; rfl, ha⟩
  · split_ifs at h with ha
    cases h
    exact ⟨.mapStart, rfl, by rw [byte_eq_toByte hm hi]; rfl, ha⟩
  · cases h
  · cases h

/-! ### Each byte keeps the invariant -/

section Steps

variable {cfg : Config} {o : Nat} {s s' : Scanner} {b : UInt8} {t : Option Token}

/-- A head byte: the Break, a head with its argument in the additional information, the start of
a wider argument, or an indefinite length. -/
theorem push_takes_head (hs : Holds cfg o s []) (hp : s.phase = .head)
    (h : s.push b = (s', .ok t)) : Takes cfg o [] b s' t := by
  rw [push_of_head hp hs.chunking] at h
  obtain ⟨p, hr, rfl⟩ := advance_eq_ok h
  have ho : s.offset = o := by simpa using hs.offset
  rw [hs.config, ho] at hr
  unfold afterHead at hr
  split_ifs at hr with hbreak
  · cases hr
    have hb : b = breakByte := byte_eq_toByte hbreak.1 hbreak.2
    subst hb
    exact Or.inr ⟨.breakMark, rfl, rfl, trivial, ⟨hs.config, hs.chunking, by simp [ho, TokenEncoding.bytes], rfl⟩⟩
  split at hr
  · cases hr
  · next v hi =>
    obtain ⟨hlt, rfl⟩ := ofInfo?_immediate hi
    rcases afterArgument_takes (a := Arg.immediate _ hlt) rfl hr with
      ⟨rfl, hpend⟩ | ⟨e, rfl, he, had, rfl⟩
    · exact Or.inl ⟨rfl, ⟨hs.config, hs.chunking, by simp [ho], by simpa [ho] using hpend⟩⟩
    · refine Or.inr ⟨e, rfl, by simpa using he, had, ⟨hs.config, hs.chunking, ?_, rfl⟩⟩
      simp [ho, he]
  · next w hi =>
    cases hr
    have hw := ofInfo?_follows hi
    exact Or.inl ⟨rfl, ⟨hs.config, hs.chunking, by simp [ho], ho, b, [], w, rfl, rfl, hi, by simp,
      by omega, rfl⟩⟩
  · next hi =>
    cases hind : indefiniteToken cfg none (Head.ofByte b) o with
    | error e => rw [hind] at hr; cases hr
    | ok tok =>
      rw [hind] at hr
      cases hr
      obtain ⟨e, rfl, he, had⟩ := indefiniteToken_takes (ofInfo?_indefinite hi) hind
      refine Or.inr ⟨e, rfl, by simpa using he, had, ⟨hs.config, hs.chunking, ?_, rfl⟩⟩
      simp [ho, he]

/-- A byte of an argument: more are to come, or the argument is complete. -/
theorem push_takes_argument {rest : List UInt8} (hs : Holds cfg o s rest) {hd : Head} {v k : Nat}
    (hp : s.phase = .argument hd v k) (h : s.push b = (s', .ok t)) : Takes cfg o rest b s' t := by
  have hpend := hs.pending
  rw [hp] at hpend
  obtain ⟨hts, b0, as, w, rfl, rfl, hi, hlen, hk, rfl⟩ := hpend
  rw [push_of_argument hp hs.chunking] at h
  obtain ⟨p, hr, rfl⟩ := advance_eq_ok h
  have ho := hs.offset
  simp only [List.length_cons] at ho
  rw [hs.config, hts] at hr
  split_ifs at hr with hmore
  · cases hr
    refine Or.inl ⟨rfl, ⟨hs.config, hs.chunking, by simp [ho]; omega, hts, b0, as ++ [b], w, by simp, rfl, hi,
      by simp; omega, by omega, by rw [bigEndian_concat]⟩⟩
  · have hlen' : (as ++ [b]).length = w := by simp; omega
    subst hlen'
    have ha := Arg.info_follows hi
    have hr' : afterArgument cfg none o
        (o + 1 + (Arg.follows (as ++ [b]) (Arg.form_of_follows hi) (Arg.ne_zero_of_follows hi)).width)
        (Head.ofByte b0)
        (Arg.follows (as ++ [b]) (Arg.form_of_follows hi) (Arg.ne_zero_of_follows hi)).value =
        .ok (p, t) := by
      have hoff : o + 1 + (as ++ [b]).length = s.offset + 1 := by simp [ho]; omega
      simpa only [Arg.follows, hoff, bigEndian_concat] using hr
    rcases afterArgument_takes ha hr' with ⟨rfl, hpend⟩ | ⟨e, rfl, he, had, rfl⟩
    · refine Or.inl ⟨rfl, ⟨hs.config, hs.chunking, by simp [ho]; omega, ?_⟩⟩
      simpa [hts] using hpend
    · refine Or.inr ⟨e, rfl, by simpa using he, had, ⟨hs.config, hs.chunking, ?_, rfl⟩⟩
      rw [he]
      simp [ho]
      omega

/-- A byte of a payload: more are to come, or the string is complete. -/
theorem push_takes_payload {rest : List UInt8} (hs : Holds cfg o s rest) {m : Major}
    {bytes : Array UInt8} {k start : Nat} (hp : s.phase = .payload m bytes k start)
    (h : s.push b = (s', .ok t)) : Takes cfg o rest b s' t := by
  have hpend := hs.pending
  rw [hp] at hpend
  obtain ⟨hts, b0, a, ps, rfl, hm, ha, hmt, hlong, hps, hlen, hk, rfl⟩ := hpend
  rw [push_of_payload hp] at h
  obtain ⟨p, hr, rfl⟩ := advance_eq_ok h
  have ho := hs.offset
  split_ifs at hr with hmore
  · cases hr
    refine Or.inl ⟨rfl, ⟨hs.config, hs.chunking, by simp [ho]; omega, hts, b0, a, ps ++ [b], by simp, hm, ha, hmt,
      hlong, by simp [hps], by simp; omega, by omega, rfl⟩⟩
  · have hlast : (ps ++ [b]).length = a.value := by simp; omega
    have hhead := Arg.head_ofByte ha
    rw [hm] at hhead
    have hbytes : (bytes.push b).toList = ps ++ [b] := by simp [hps]
    rw [hbytes] at hr
    cases hst : stringToken m (ps ++ [b]) (o + 1 + a.width) with
    | error e => rw [hst] at hr; cases hr
    | ok tok =>
      rw [hst] at hr
      cases hr
      have hdone : ∀ e : TokenEncoding, e.bytes = a.head m ++ (ps ++ [b]) →
          Holds cfg (o + e.bytes.length) ⟨s.config, .head, s.offset + 1, s.tokenStart, s.chunking⟩ [] := by
        intro e he
        refine ⟨hs.config, hs.chunking, ?_, rfl⟩
        rw [he, hhead, ho]
        simp
        omega
      rcases hmt with rfl | rfl
      · simp only [stringToken, reduceCtorEq, if_false, Except.ok.injEq] at hst
        subst hst
        let e : TokenEncoding := .byteString ⟨a, ps ++ [b], hlast⟩
        have he : e.bytes = a.head .bytes ++ (ps ++ [b]) := rfl
        refine Or.inr ⟨e, rfl, by rw [he, hhead]; simp, hlong, hdone e he⟩
      · simp only [stringToken, if_true] at hst
        split at hst
        · next cs hcs =>
          cases hst
          have henc := Utf8.encode_eq_of_decode hcs
          let e : TokenEncoding := .textString ⟨a, cs, by rw [henc, hlast]⟩
          have he : e.bytes = a.head .text ++ (ps ++ [b]) := by
            show a.head .text ++ Utf8.encode cs = _
            rw [henc]
          refine Or.inr ⟨e, rfl, by rw [he, hhead]; simp, hlong, hdone e he⟩
        · cases hst

/-- Every byte the scanner takes without failing keeps the invariant. -/
theorem push_takes {rest : List UInt8} (hs : Holds cfg o s rest) (h : s.push b = (s', .ok t)) :
    Takes cfg o rest b s' t := by
  have hpend := hs.pending
  cases hp : s.phase with
  | head =>
    rw [hp] at hpend
    subst hpend
    exact push_takes_head hs hp h
  | argument hd v k => exact push_takes_argument hs hp h
  | payload m bytes k start => exact push_takes_payload hs hp h
  | failed e =>
    rw [hp] at hpend
    exact hpend.elim

end Steps

/-! ### What the bytes taken so far are -/

/-- The bytes `taken` are whole token encodings, admitted, denoting the tokens `ts`, followed by
the bytes of an unfinished token that the scanner `s` holds. -/
def Lexed (cfg : Config) (taken : List UInt8) (s : Scanner) (ts : List Token) : Prop :=
  ∃ (es : List TokenEncoding) (rest : List UInt8), taken = es.flatMap TokenEncoding.bytes ++ rest ∧
    (∀ e ∈ es, e.Admitted cfg) ∧ ts = es.map TokenEncoding.token ∧
    Holds cfg (es.flatMap TokenEncoding.bytes).length s rest

theorem lexed_ofConfig (cfg : Config) : Lexed cfg [] (ofConfig cfg) [] :=
  ⟨[], [], rfl, by simp, rfl, ⟨rfl, rfl, rfl, rfl⟩⟩

theorem Lexed.push {cfg : Config} {taken : List UInt8} {s s' : Scanner} {ts : List Token}
    {b : UInt8} {t : Option Token} (h : Lexed cfg taken s ts) (hp : s.push b = (s', .ok t)) :
    Lexed cfg (taken ++ [b]) s' (ts ++ t.toList) := by
  obtain ⟨es, rest, rfl, hadm, rfl, hs⟩ := h
  rcases push_takes hs hp with ⟨rfl, hs'⟩ | ⟨e, rfl, he, had, hs'⟩
  · exact ⟨es, rest ++ [b], by simp, hadm, by simp, hs'⟩
  · refine ⟨es ++ [e], [], by simp [he], ?_, by simp, by simpa using hs'⟩
    intro e' he'
    rcases List.mem_append.1 he' with he' | he'
    · exact hadm e' he'
    · rw [List.mem_singleton.1 he']
      exact had

/-- Feeding bytes keeps the invariant, whatever the bytes. -/
theorem Lexed.feed_go {cfg : Config} (bs : List UInt8) :
    ∀ {taken : List UInt8} {s s' : Scanner} {acc : Array Token} {ts : List Token},
      Lexed cfg taken s acc.toList → feed.go s bs acc = (s', .ok ts) → Lexed cfg (taken ++ bs) s' ts := by
  induction bs with
  | nil =>
    intro taken s s' acc ts h hf
    rw [feed.go] at hf
    cases hf
    simpa using h
  | cons b bs ih =>
    intro taken s s' acc ts h hf
    rcases hp : s.push b with ⟨s₁, _ | _ | t⟩
    · rw [feed_go_error hp] at hf
      cases hf
    · rw [feed_go_none hp] at hf
      have h' : Lexed cfg (taken ++ [b]) s₁ acc.toList := by simpa using h.push hp
      rw [← List.singleton_append, ← List.append_assoc]
      exact ih h' hf
    · rw [feed_go_some hp] at hf
      have h' : Lexed cfg (taken ++ [b]) s₁ (acc.push t).toList := by simpa using h.push hp
      rw [← List.singleton_append, ← List.append_assoc]
      exact ih h' hf

/-- A fresh scanner fed an input without failing has lexed it. -/
theorem lexed_feed {cfg : Config} {d : List UInt8} {s : Scanner} {ts : List Token}
    (h : (ofConfig cfg).feed d = (s, .ok ts)) : Lexed cfg d s ts :=
  by simpa using Lexed.feed_go d (lexed_ofConfig cfg) h

/-! ### The end of the input -/

theorem argumentBytes_of_info {b : UInt8} {a : Arg} (ha : a.info = (Head.ofByte b).info) :
    (Head.ofByte b).argumentBytes = a.width := by
  unfold Head.argumentBytes
  rw [← ha]
  have hv := a.holds
  rcases a.width_cases with hw | hw | hw | hw | hw
  · have hi : a.info = a.value := by simp only [Arg.info, hw]
    simp only [formHolds, hw, if_true, decide_eq_true_eq] at hv
    rw [hi, hw]
    simp [Argument.ofInfo?, hv]
  all_goals simp [Arg.info, hw, Argument.ofInfo?]

/-- A scanner is idle exactly when it holds no unfinished token. -/
theorem Holds.isIdle_iff {cfg : Config} {o : Nat} {s : Scanner} {rest : List UInt8}
    (hs : Holds cfg o s rest) : s.isIdle = true ↔ rest = [] := by
  have hpend := hs.pending
  unfold isIdle
  cases hp : s.phase with
  | head =>
    rw [hp] at hpend
    exact ⟨fun _ => hpend, fun _ => rfl⟩
  | argument =>
    rw [hp] at hpend
    obtain ⟨-, b, as, -, rfl, -⟩ := hpend
    simp
  | payload =>
    rw [hp] at hpend
    obtain ⟨-, b, a, ps, rfl, -⟩ := hpend
    simp
  | failed => rw [hp] at hpend; exact hpend.elim

/-- A scanner that holds no unfinished token expects a head. -/
theorem Holds.phase_of_nil {cfg : Config} {o : Nat} {s : Scanner} (hs : Holds cfg o s []) :
    s.phase = .head := by
  have hpend := hs.pending
  cases hp : s.phase with
  | head => rfl
  | argument => rw [hp] at hpend; obtain ⟨-, b, as, -, h, -⟩ := hpend; cases h
  | payload => rw [hp] at hpend; obtain ⟨-, b, a, ps, h, -⟩ := hpend; cases h
  | failed => rw [hp] at hpend; exact hpend.elim

/-- At the end of the input, a scanner that holds no unfinished token has lexed it all. -/
theorem Holds.finish_of_nil {cfg : Config} {o : Nat} {s : Scanner} (hs : Holds cfg o s []) :
    s.finish = .ok () := by
  unfold finish pendingSince
  rw [hs.phase_of_nil]

/-- At the end of the input inside a token, the scanner reports running out where the token's
argument bytes begin or, once its argument is complete, where its payload begins. -/
theorem Holds.finish_of_cons {cfg : Config} {o : Nat} {s : Scanner} {b : UInt8}
    {rest : List UInt8} (hs : Holds cfg o s (b :: rest)) :
    ∃ p, s.pendingSince = some p ∧ s.finish = .error ⟨.unexpectedEnd, p⟩ ∧
      p = o + 1 + if rest.length < (Head.ofByte b).argumentBytes then 0
        else (Head.ofByte b).argumentBytes := by
  have hpend := hs.pending
  have hfin : ∀ p, s.pendingSince = some p → (∀ e, s.phase ≠ .failed e) →
      s.finish = .error ⟨.unexpectedEnd, p⟩ := by
    intro p hp hnf
    unfold finish
    split
    · next e he => exact absurd he (hnf e)
    · rw [hp]
  cases hph : s.phase with
  | head => rw [hph] at hpend; cases hpend
  | argument hd v k =>
    rw [hph] at hpend
    obtain ⟨hts, b0, as, w, hcons, rfl, hi, hlen, hk, -⟩ := hpend
    obtain ⟨rfl, rfl⟩ := List.cons.inj hcons
    have hw : (Head.ofByte b).argumentBytes = w := by simp [Head.argumentBytes, hi]
    have hps : s.pendingSince = some (o + 1) := by simp [pendingSince, hph, hts]
    refine ⟨o + 1, hps, hfin _ hps (by simp [hph]), ?_⟩
    rw [hw, if_pos (by omega)]
  | payload m bytes k start =>
    rw [hph] at hpend
    obtain ⟨hts, b0, a, ps, hcons, hm, ha, -, -, -, -, -, hstart⟩ := hpend
    obtain ⟨rfl, rfl⟩ := List.cons.inj hcons
    have hps : s.pendingSince = some start := by simp [pendingSince, hph]
    refine ⟨start, hps, hfin _ hps (by simp [hph]), ?_⟩
    rw [argumentBytes_of_info ha, if_neg (by simp), hstart]
  | failed => rw [hph] at hpend; exact hpend.elim

/-! ### Feeding whole tokens -/

/-- The argument bytes before the last are gathered into the argument. -/
theorem feed_go_argument (cfg : Config) (h : Head) (ts : Nat) (bs : List UInt8) :
    ∀ (v off k : Nat), 0 < k → ∀ (rest : List UInt8) (acc : Array Token),
      feed.go ⟨cfg, .argument h v (bs.length + k), off, ts, none⟩ (bs ++ rest) acc =
        feed.go ⟨cfg, .argument h (v * 256 ^ bs.length + bigEndian bs) k, off + bs.length, ts, none⟩
          rest acc := by
  induction bs with
  | nil =>
    intro v off k _ rest acc
    simp
  | cons b bs ih =>
    intro v off k hk rest acc
    have hp : (Scanner.mk cfg (.argument h v ((b :: bs).length + k)) off ts none).push b =
        (⟨cfg, .argument h (v * 256 + b.toNat) (bs.length + k), off + 1, ts, none⟩, .ok none) := by
      rw [push_of_argument rfl rfl, if_pos (by simp; omega)]
      simp only [advance_ok, List.length_cons]
      congr 4
      omega
    have hv : (v * 256 + b.toNat) * 256 ^ bs.length + bigEndian bs =
        v * 256 ^ (b :: bs).length + bigEndian (b :: bs) := by
      rw [show b :: bs = [b] ++ bs from rfl, bigEndian_append, List.length_append]
      simp only [bigEndian, List.foldl_cons, List.foldl_nil, List.length_singleton]
      ring
    rw [List.cons_append, feed_go_none hp, ih _ _ _ hk, hv, Nat.add_assoc, Nat.add_comm 1,
      ← List.length_cons]

/-- The payload bytes before the last are gathered into the payload. -/
theorem feed_go_payload (cfg : Config) (m : Major) (start ts : Nat) (bs : List UInt8) :
    ∀ (ps : List UInt8) (off k : Nat), 0 < k → ∀ (rest : List UInt8) (acc : Array Token),
      feed.go ⟨cfg, .payload m ps.toArray (bs.length + k) start, off, ts, none⟩ (bs ++ rest) acc =
        feed.go ⟨cfg, .payload m (ps ++ bs).toArray k start, off + bs.length, ts, none⟩ rest acc := by
  induction bs with
  | nil =>
    intro ps off k _ rest acc
    simp
  | cons b bs ih =>
    intro ps off k hk rest acc
    have hp : (Scanner.mk cfg (.payload m ps.toArray ((b :: bs).length + k) start) off ts none).push b =
        (⟨cfg, .payload m (ps ++ [b]).toArray (bs.length + k) start, off + 1, ts, none⟩, .ok none) := by
      rw [push_of_payload rfl, if_pos (by simp; omega)]
      simp only [advance_ok, List.length_cons, List.push_toArray]
      congr 4
      omega
    rw [List.cons_append, feed_go_none hp, ih _ _ _ hk, List.append_assoc, List.singleton_append,
      Nat.add_assoc, Nat.add_comm 1, ← List.length_cons]

/-- A head of major type `m` with the argument `a`, fed to a scanner expecting a head at offset
`o`, leaves it where the complete argument does. -/
theorem feed_go_head {cfg : Config} {o : Nat} {s : Scanner} (hs : Holds cfg o s []) (m : Major)
    (a : Arg) {p : Phase} {t : Option Token}
    (hr : afterArgument cfg none o (o + 1 + a.width) ⟨m, a.info⟩ a.value = .ok (p, t))
    (rest : List UInt8) (acc : Array Token) :
    feed.go s (a.head m ++ rest) acc = feed.go ⟨cfg, p, o + 1 + a.width, o, none⟩ rest (t.elim acc acc.push) := by
  obtain ⟨sc, sp, so, sts, sch⟩ := s
  obtain rfl : sch = none := hs.chunking
  obtain rfl : o = so := by simpa using hs.offset.symm
  have hnb : ¬(m = .simple ∧ a.info = 31) := fun h => by have := a.info_lt; omega
  have hv := a.holds
  have hpush := push_of_head hs.phase_of_nil hs.chunking (Head.toByte ⟨m, a.info⟩)
  rw [Arg.ofByte_head, hs.config] at hpush
  unfold afterHead at hpush
  rw [if_neg hnb, if_neg (by simp)] at hpush
  rcases Nat.eq_zero_or_pos a.width with hw | hw
  · have hi : a.info = a.value := by simp only [Arg.info, hw]
    simp only [formHolds, hw, if_true, decide_eq_true_eq] at hv
    have hx : a.extra = [] := by simp [Arg.extra, hw, toBigEndian]
    have himm : Argument.ofInfo? a.info = some (.immediate a.info) := by
      simp [Argument.ofInfo?, hi, hv]
    rw [himm] at hpush
    dsimp only at hpush
    rw [hw, Nat.add_zero, ← hi] at hr
    rw [hr, advance_ok] at hpush
    rw [Arg.head, hx, ← hs.config, hw, Nat.add_zero]
    cases t with
    | none => rw [List.singleton_append, feed_go_none hpush]; rfl
    | some t => rw [List.singleton_append, feed_go_some hpush]; rfl
  · obtain ⟨w, hw'⟩ : ∃ w, a.width = w + 1 := ⟨a.width - 1, by omega⟩
    have hfollow : Argument.ofInfo? a.info = some (.follows a.width) := by
      rcases a.width_cases with h | h | h | h | h
      · omega
      all_goals simp [Arg.info, h, Argument.ofInfo?]
    rw [hfollow] at hpush
    dsimp only at hpush
    rw [advance_ok] at hpush
    simp only [formHolds, hw', Nat.add_one_ne_zero, if_false, decide_eq_true_eq, Nat.pow_eq] at hv
    set init := toBigEndian w (a.value / 256)
    set last : UInt8 := UInt8.ofNat (a.value % 256)
    have hx : a.extra = init ++ [last] := by simp only [Arg.extra, hw', toBigEndian, init, last]
    have hlen : init.length = w := length_toBigEndian _ _
    have hval : bigEndian init * 256 + last.toNat = a.value := by
      have hb := Arg.bigEndian_extra a
      rw [hx, bigEndian_concat, hw', Nat.mod_eq_of_lt hv] at hb
      exact hb
    have hlast : (Scanner.mk cfg (.argument ⟨m, a.info⟩ (bigEndian init) 1) (o + 1 + w) o none).push last =
        (⟨cfg, p, o + 1 + a.width, o, none⟩, .ok t) := by
      rw [push_of_argument rfl rfl, if_neg (by omega)]
      dsimp only
      rw [hval, show o + 1 + w + 1 = o + 1 + a.width by omega, hr, advance_ok, hw']
      rfl
    rw [hw', ← hlen] at hpush
    rw [Arg.head, hx, List.cons_append, feed_go_none hpush, List.append_assoc,
      feed_go_argument _ _ _ init 0 (o + 1) 1 (by omega), Nat.zero_mul, Nat.zero_add, hlen,
      List.singleton_append, hs.config]
    cases t with
    | none => rw [feed_go_none hlast]; rfl
    | some t => rw [feed_go_some hlast]; rfl

/-- The payload of a definite string, fed to a scanner gathering it, completes the string. -/
theorem feed_go_string {cfg : Config} {m : Major} {start off ts : Nat} {ps : List UInt8}
    (hps : ps ≠ []) {tok : Token} (hr : stringToken m ps start = .ok tok) (rest : List UInt8)
    (acc : Array Token) :
    feed.go ⟨cfg, .payload m #[] ps.length start, off, ts, none⟩ (ps ++ rest) acc =
      feed.go ⟨cfg, .head, off + ps.length, ts, none⟩ rest (acc.push tok) := by
  obtain ⟨init, last, rfl⟩ := List.eq_nil_or_concat ps |>.resolve_left hps
  rw [List.concat_eq_append] at hr ⊢
  have hlast : (Scanner.mk cfg (.payload m init.toArray 1 start) (off + init.length) ts none).push last =
      (⟨cfg, .head, off + (init.length + 1), ts, none⟩, .ok (some tok)) := by
    rw [push_of_payload rfl, if_neg (by omega)]
    simp only [List.push_toArray, List.toList_toArray, hr, Except.map, advance_ok]
    rfl
  have hrun := feed_go_payload cfg m start ts init [] off 1 (by omega) (last :: rest) acc
  rw [List.nil_append] at hrun
  rw [List.length_append, List.length_singleton, List.append_assoc, List.singleton_append, hrun,
    feed_go_some hlast]

section Tokens

variable {cfg : Config} {o : Nat} {s : Scanner}

/-- A token that is a head with its argument, finished by the complete argument. -/
theorem feed_go_headToken (hs : Holds cfg o s []) {e : TokenEncoding} {m : Major} {a : Arg}
    (hb : e.bytes = a.head m)
    (hr : afterArgument cfg none o (o + 1 + a.width) ⟨m, a.info⟩ a.value = .ok (.head, some e.token))
    (rest : List UInt8) (acc : Array Token) :
    ∃ s', Holds cfg (o + e.bytes.length) s' [] ∧
      feed.go s (e.bytes ++ rest) acc = feed.go s' rest (acc.push e.token) := by
  refine ⟨⟨cfg, .head, o + 1 + a.width, o, none⟩, ⟨rfl, rfl, ?_, rfl⟩, by rw [hb, feed_go_head hs m a hr]; rfl⟩
  simp only [hb, Arg.head, List.length_cons, Arg.length_extra, List.length_nil]
  omega

/-- A simple value or float written in the head of major type 7 with its argument bytes. -/
theorem feed_go_simple (hs : Holds cfg o s []) (info : Nat) (bs : List UInt8)
    (hi : Argument.ofInfo? info = some (.follows bs.length)) {e : TokenEncoding}
    (hb : e.bytes = Head.toByte ⟨.simple, info⟩ :: bs)
    (hr : simpleToken info (bigEndian bs) o = .ok e.token) (rest : List UInt8) (acc : Array Token) :
    ∃ s', Holds cfg (o + e.bytes.length) s' [] ∧
      feed.go s (e.bytes ++ rest) acc = feed.go s' rest (acc.push e.token) := by
  refine feed_go_headToken hs (a := .follows bs (Arg.form_of_follows hi) (Arg.ne_zero_of_follows hi))
    (m := .simple) ?_ ?_ rest acc
  · rw [hb, Arg.head, Arg.info_follows hi, Arg.extra_follows]
  · rw [afterArgument]
    dsimp only
    rw [Arg.info_follows hi]
    simp only [Arg.follows, hr, Except.map]

/-- A simple value or a named value written in the additional information. -/
theorem feed_go_simpleImmediate (hs : Holds cfg o s []) (info : Nat) (hlt : info < 24)
    {e : TokenEncoding} (hb : e.bytes = [Head.toByte ⟨.simple, info⟩])
    (hr : simpleToken info info o = .ok e.token) (rest : List UInt8) (acc : Array Token) :
    ∃ s', Holds cfg (o + e.bytes.length) s' [] ∧
      feed.go s (e.bytes ++ rest) acc = feed.go s' rest (acc.push e.token) := by
  refine feed_go_headToken hs (a := .immediate info hlt) (m := .simple) hb ?_ rest acc
  rw [afterArgument]
  dsimp only
  rw [Arg.info_immediate]
  simp only [Arg.immediate, hr, Except.map]

/-- A token of one initial byte. -/
theorem feed_go_byte (hs : Holds cfg o s []) {e : TokenEncoding} {b : UInt8} (hb : e.bytes = [b])
    (hr : afterHead cfg none o (Head.ofByte b) = .ok (.head, some e.token)) (rest : List UInt8)
    (acc : Array Token) :
    ∃ s', Holds cfg (o + e.bytes.length) s' [] ∧
      feed.go s (e.bytes ++ rest) acc = feed.go s' rest (acc.push e.token) := by
  have ho : s.offset = o := by simpa using hs.offset
  have hpush := push_of_head hs.phase_of_nil hs.chunking b
  rw [hs.config, ho, hr, advance_ok] at hpush
  exact ⟨⟨s.config, .head, s.offset + 1, o, s.chunking⟩, ⟨hs.config, hs.chunking, by simp [ho, hb], rfl⟩,
    by rw [hb, List.singleton_append, feed_go_some hpush]⟩

/-- A definite string: its head, then a payload of the length the head announces. -/
theorem feed_go_piece (hs : Holds cfg o s []) {e : TokenEncoding} {m : Major}
    (hm : m = .bytes ∨ m = .text) {a : Arg} {ps : List UInt8} (hb : e.bytes = a.head m ++ ps)
    (hlen : ps.length = a.value) (hlong : cfg.stringTooLong a.value = false)
    (hr : stringToken m ps (o + 1 + a.width) = .ok e.token) (rest : List UInt8)
    (acc : Array Token) :
    ∃ s', Holds cfg (o + e.bytes.length) s' [] ∧
      feed.go s (e.bytes ++ rest) acc = feed.go s' rest (acc.push e.token) := by
  by_cases hps : ps = []
  · subst hps
    have hv : a.value = 0 := by simpa using hlen.symm
    rw [hv] at hlong
    refine feed_go_headToken hs (hb.trans (List.append_nil _)) ?_ rest acc
    have hafter : afterArgument cfg none o (o + 1 + a.width) ⟨m, a.info⟩ a.value =
        (stringToken m [] (o + 1 + a.width)).map fun t => (.head, some t) := by
      rcases hm with rfl | rfl <;> simp [afterArgument, hv, hlong]
    rw [hafter, hr]
    rfl
  · have hafter : afterArgument cfg none o (o + 1 + a.width) ⟨m, a.info⟩ a.value =
        .ok (.payload m #[] a.value (o + 1 + a.width), none) := by
      have hv : a.value ≠ 0 := fun h => hps (List.eq_nil_of_length_eq_zero (hlen.trans h))
      rcases hm with rfl | rfl <;> simp [afterArgument, hv, hlong]
    refine ⟨⟨cfg, .head, o + 1 + a.width + ps.length, o, none⟩, ⟨rfl, rfl, ?_, rfl⟩, ?_⟩
    · simp only [hb, Arg.head, List.length_append, List.length_cons, Arg.length_extra,
        List.length_nil]
      omega
    · rw [hb, List.append_assoc, feed_go_head hs m a hafter, ← hlen]
      exact feed_go_string hps hr rest acc

/-- Feeding the bytes of an admitted token to a scanner between tokens gives that token, and
leaves the scanner between tokens after its bytes. -/
theorem feed_go_token (hs : Holds cfg o s []) {e : TokenEncoding} (he : e.Admitted cfg)
    (rest : List UInt8) (acc : Array Token) :
    ∃ s', Holds cfg (o + e.bytes.length) s' [] ∧
      feed.go s (e.bytes ++ rest) acc = feed.go s' rest (acc.push e.token) := by
  cases e with
  | breakMark => exact feed_go_byte hs rfl rfl rest acc
  | unsigned a | negative a | array a | map a | tag a => exact feed_go_headToken hs rfl rfl rest acc
  | byteString p =>
    exact feed_go_piece hs (Or.inl rfl) rfl p.length_eq he
      (by simp [stringToken, TokenEncoding.token]) rest acc
  | textString p =>
    exact feed_go_piece hs (Or.inr rfl) rfl p.length_eq he
      (by simp [stringToken, Utf8.decode_encode, TokenEncoding.token]) rest acc
  | bytesStart | textStart | arrayStart | mapStart =>
    refine feed_go_byte hs rfl ?_ rest acc
    simp only [TokenEncoding.Admitted] at he
    simp [afterHead, indefiniteByte, Head.ofByte_toByte, Argument.ofInfo?, indefiniteToken, he,
      Except.map, TokenEncoding.token]
  | simple v hv =>
    by_cases hlt : v.toNat < 20
    · refine feed_go_simpleImmediate hs v.toNat (by omega) ?_ ?_ rest acc
      · simp only [TokenEncoding.bytes, if_pos hlt, List.cons.injEq, and_true]
        apply UInt8.toNat_inj.mp
        simp [Head.toByte, Major.bits]
      · simp only [simpleToken, TokenEncoding.token]
        rw [if_neg (by omega), if_neg (by omega), if_neg (by omega), if_neg (by omega), if_pos hlt]
        simp
    · refine feed_go_simple hs 24 [v] rfl ?_ ?_ rest acc
      · simp only [TokenEncoding.bytes, if_neg hlt]
        rfl
      · simp [simpleToken, bigEndian, TokenEncoding.token]
        omega
  | bool b =>
    cases b
    · exact feed_go_simpleImmediate hs 20 (by decide) rfl rfl rest acc
    · exact feed_go_simpleImmediate hs 21 (by decide) rfl rfl rest acc
  | null => exact feed_go_simpleImmediate hs 22 (by decide) rfl rfl rest acc
  | undefined => exact feed_go_simpleImmediate hs 23 (by decide) rfl rfl rest acc
  | float x =>
    cases x with
    | half b =>
      refine feed_go_simple hs 25 (toBigEndian 2 b.toNat) rfl rfl ?_ rest acc
      simp [simpleToken, bigEndian_toBigEndian, TokenEncoding.token]
    | single b =>
      refine feed_go_simple hs 26 (toBigEndian 4 b.toNat) rfl rfl ?_ rest acc
      simp [simpleToken, bigEndian_toBigEndian, TokenEncoding.token]
    | double b =>
      refine feed_go_simple hs 27 (toBigEndian 8 b.toNat) rfl rfl ?_ rest acc
      simp [simpleToken, bigEndian_toBigEndian, TokenEncoding.token]

/-- Feeding the bytes of admitted tokens, one after another, gives those tokens. -/
theorem feed_go_tokens (es : List TokenEncoding) :
    ∀ {o : Nat} {s : Scanner}, Holds cfg o s [] → (∀ e ∈ es, e.Admitted cfg) →
      ∀ rest acc, ∃ s', Holds cfg (o + (es.flatMap TokenEncoding.bytes).length) s' [] ∧
        feed.go s (es.flatMap TokenEncoding.bytes ++ rest) acc =
          feed.go s' rest (acc ++ (es.map TokenEncoding.token).toArray) := by
  induction es with
  | nil =>
    intro o s hs _ rest acc
    exact ⟨s, by simpa using hs, by simp⟩
  | cons e es ih =>
    intro o s hs had rest acc
    obtain ⟨s₁, hs₁, h₁⟩ :=
      feed_go_token hs (had e List.mem_cons_self) (es.flatMap TokenEncoding.bytes ++ rest) acc
    obtain ⟨s₂, hs₂, h₂⟩ := ih hs₁ (fun e' he' => had e' (List.mem_cons_of_mem e he')) rest
      (acc.push e.token)
    refine ⟨s₂, by simpa [Nat.add_assoc] using hs₂, ?_⟩
    rw [List.flatMap_cons, List.append_assoc, h₁, h₂]
    simp

end Tokens

/-! ### Any split of the input -/

/-- The tokens before those of `acc` are put in front of what the bytes give. -/
theorem feed_go_acc (bs : List UInt8) :
    ∀ (s : Scanner) (acc : Array Token),
      feed.go s bs acc = ((feed.go s bs #[]).1, (feed.go s bs #[]).2.map (acc.toList ++ ·)) := by
  induction bs with
  | nil => intro s acc; simp [feed.go, Except.map]
  | cons b bs ih =>
    intro s acc
    rcases hp : s.push b with ⟨s₁, _ | _ | t⟩
    · simp [feed_go_error hp, Except.map]
    · rw [feed_go_none hp, feed_go_none hp, ih s₁ acc]
    · rw [feed_go_some hp, feed_go_some hp, ih s₁ (acc.push t), ih s₁ (#[].push t)]
      cases (feed.go s₁ bs #[]).2 <;> simp [Except.map]

theorem feed_go_append_ok {s s' : Scanner} {xs : List UInt8} {acc : Array Token}
    {ts : List Token} (h : feed.go s xs acc = (s', .ok ts)) (ys : List UInt8) :
    feed.go s (xs ++ ys) acc = feed.go s' ys ts.toArray := by
  induction xs generalizing s acc with
  | nil =>
    rw [feed.go] at h
    cases h
    simp
  | cons b xs ih =>
    rcases hp : s.push b with ⟨s₁, _ | _ | t⟩
    · rw [feed_go_error hp] at h
      cases h
    · rw [feed_go_none hp] at h
      rw [List.cons_append, feed_go_none hp, ih h]
    · rw [feed_go_some hp] at h
      rw [List.cons_append, feed_go_some hp, ih h]

theorem feed_go_append_error {s s' : Scanner} {xs : List UInt8} {acc : Array Token} {e : Error}
    (h : feed.go s xs acc = (s', .error e)) (ys : List UInt8) :
    feed.go s (xs ++ ys) acc = (s', .error e) := by
  induction xs generalizing s acc with
  | nil =>
    rw [feed.go] at h
    cases h
  | cons b xs ih =>
    rcases hp : s.push b with ⟨s₁, _ | _ | t⟩
    · rw [feed_go_error hp] at h
      rw [List.cons_append, feed_go_error hp, h]
    · rw [feed_go_none hp] at h
      rw [List.cons_append, feed_go_none hp, ih h]
    · rw [feed_go_some hp] at h
      rw [List.cons_append, feed_go_some hp, ih h]

/-- The input fed in pieces, one `feed` after another: the scanner after the last piece and the
tokens of all of them, or the first error. -/
def feedPieces (s : Scanner) : List (List UInt8) → Scanner × Except Error (List Token)
  | [] => (s, .ok [])
  | bs :: rest =>
    match s.feed bs with
    | (s', .error e) => (s', .error e)
    | (s', .ok ts) => ((s'.feedPieces rest).1, (s'.feedPieces rest).2.map (ts ++ ·))

/-- Where the input is cut does not matter: feeding it in pieces is feeding it whole. -/
theorem feedPieces_eq_feed (pieces : List (List UInt8)) :
    ∀ s : Scanner, s.feedPieces pieces = s.feed pieces.flatten := by
  induction pieces with
  | nil => intro s; rfl
  | cons bs rest ih =>
    intro s
    rw [feedPieces, List.flatten_cons, feed, feed]
    rcases hf : feed.go s bs #[] with ⟨s', _ | ts⟩
    · rw [feed_go_append_error hf]
    · rw [feed_go_append_ok hf, feed_go_acc]
      dsimp only
      rw [ih s', feed]

/-- The scanner is a lexer of CBOR tokens, wherever its input is cut. A fresh scanner that is fed
the pieces of an input and then told that it has ended gives the tokens `ts` exactly when the
input is the encodings of those tokens one after another, each admitted by the limits. Where
every piece is taken but the input ends inside a token, the end is reported at `pendingSince`:
just after the token's head while its argument is incomplete, and where its payload begins once
the argument is complete. -/
theorem feedPieces_lexes (cfg : Config) (pieces : List (List UInt8)) :
    (∀ ts, (∃ s, (ofConfig cfg).feedPieces pieces = (s, .ok ts) ∧ s.finish = .ok ()) ↔
      ∃ es : List TokenEncoding, pieces.flatten = es.flatMap TokenEncoding.bytes ∧
        (∀ e ∈ es, e.Admitted cfg) ∧ ts = es.map TokenEncoding.token) ∧
    (∀ s ts, (ofConfig cfg).feedPieces pieces = (s, .ok ts) → s.isIdle = false →
      ∃ (es : List TokenEncoding) (b : UInt8) (part : List UInt8) (p : Nat),
        pieces.flatten = es.flatMap TokenEncoding.bytes ++ b :: part ∧
        (∀ e ∈ es, e.Admitted cfg) ∧ ts = es.map TokenEncoding.token ∧
        s.pendingSince = some p ∧ s.finish = .error ⟨.unexpectedEnd, p⟩ ∧
        p = (es.flatMap TokenEncoding.bytes).length + 1 +
          if part.length < (Head.ofByte b).argumentBytes then 0
          else (Head.ofByte b).argumentBytes) := by
  have hfeed := feedPieces_eq_feed pieces (ofConfig cfg)
  refine ⟨fun ts => ⟨?_, ?_⟩, fun s ts h hidle => ?_⟩
  · -- what was taken is whole tokens and then the unfinished one, which `finish` rejects
    rintro ⟨s, h, hfin⟩
    obtain ⟨es, rest, hd, had, rfl, hs⟩ := lexed_feed (hfeed.symm.trans h)
    cases rest with
    | nil => exact ⟨es, by simpa using hd, had, rfl⟩
    | cons b part =>
      obtain ⟨p, -, hfin', -⟩ := hs.finish_of_cons
      rw [hfin] at hfin'
      cases hfin'
  · rintro ⟨es, hd, had, rfl⟩
    obtain ⟨s, hs, hgo⟩ := feed_go_tokens es (⟨rfl, rfl, rfl, rfl⟩ : Holds cfg 0 (ofConfig cfg) []) had [] #[]
    refine ⟨s, ?_, hs.finish_of_nil⟩
    rw [hfeed, hd, feed, ← List.append_nil (es.flatMap _), hgo, feed.go]
    simp
  · obtain ⟨es, rest, hd, had, rfl, hs⟩ := lexed_feed (hfeed.symm.trans h)
    cases rest with
    | nil =>
      rw [hs.isIdle_iff.mpr rfl] at hidle
      cases hidle
    | cons b part =>
      obtain ⟨p, hp, hfin, rfl⟩ := hs.finish_of_cons
      exact ⟨es, b, part, _, hd, had, rfl, hp, hfin, rfl⟩

/-- The integer 100 with its head and its argument byte fed apart is lexed as one token. -/
theorem feedPieces_hundred :
    ∃ s, (ofConfig {}).feedPieces [[0x18], [0x64]] = (s, .ok [.unsigned 100]) ∧ s.finish = .ok () :=
  ((feedPieces_lexes {} [[0x18], [0x64]]).1 _).2
    ⟨[.unsigned (.follows [0x64] (by decide) (by decide))], by decide, by simp [TokenEncoding.Admitted],
      by decide⟩

end Scanner

end Cbor

import Cbor.Item.Diagnostic
import Cbor.Proofs.Utf8
/-! # Diagnostic notation is unambiguous

Two items have the same diagnostic text exactly when they have the same shape: the same
constructors, the same integers, bytes, texts, tags and simple values, containers of the same
length with their entries in the same order, and floats whose texts are equal
(`Item.diagnostic_unambiguous`). So the text is injective on items without floats.

The proof is a unique-reading argument. The text of an item, followed by nothing or by a
character that closes an item (a comma, a colon, or a closing parenthesis, bracket or brace), fixes
the item's shape and where its text ends (`Item.readsUniquely`):

* the first character tells the kind of item (`Item.lead`), except among integers, tags and floats,
  which begin with a digit, a minus sign or a capital letter;
* a text ends at its first quote that is not part of an escape, since each escape is read back by
  `Diagnostic.unescape`; a byte string ends at its first apostrophe;
* among integers, tags and floats, the run of digits decides (`Diagnostic.run_cancel`): an integer's
  digits end the text, a tag's are followed by a parenthesis, and a float's text has a point or a
  letter and no character that closes an item (`Diagnostic.DecimalText`).
-/

namespace Cbor

namespace Item

-- The equations of the definitions below are simp lemmas, generated once where they are defined.

mutual

/-- Items of the same shape: the same constructors with the same contents, floats compared by
their diagnostic text. -/
@[simp] def sameShape : Item → Item → Bool
  | .unsigned a, .unsigned b => a == b
  | .negative a, .negative b => a == b
  | .bytes a, .bytes b => a == b
  | .text a, .text b => a == b
  | .array as, .array bs => sameShapeList as bs
  | .map ps, .map qs => sameShapeEntries ps qs
  | .tagged t a, .tagged u b => t == u && sameShape a b
  | .bool a, .bool b => a == b
  | .null, .null => true
  | .undefined, .undefined => true
  | .simple a, .simple b => a == b
  | .float x, .float y => x.diagnostic == y.diagnostic
  | _, _ => false

/-- Lists of items of the same shape, item by item. -/
@[simp] def sameShapeList : List Item → List Item → Bool
  | [], [] => true
  | a :: as, b :: bs => sameShape a b && sameShapeList as bs
  | _, _ => false

/-- Map entries of the same shape, key and value by key and value. -/
@[simp] def sameShapeEntries : List (Item × Item) → List (Item × Item) → Bool
  | [], [] => true
  | (k, v) :: ps, (k', v') :: qs => sameShape k k' && sameShape v v' && sameShapeEntries ps qs
  | _, _ => false

end

mutual

/-- An item with no float inside. -/
@[simp] def floatFree : Item → Bool
  | .array as => floatFreeList as
  | .map ps => floatFreeEntries ps
  | .tagged _ a => floatFree a
  | .float _ => false
  | _ => true

/-- A list of items with no float inside. -/
@[simp] def floatFreeList : List Item → Bool
  | [] => true
  | a :: as => floatFree a && floatFreeList as

/-- Map entries with no float inside. -/
@[simp] def floatFreeEntries : List (Item × Item) → Bool
  | [] => true
  | (k, v) :: ps => floatFree k && floatFree v && floatFreeEntries ps

end

end Item

namespace Diagnostic

/-! ### Characters -/

/-- The characters that may follow the text of an item inside a larger text: a separator, or the
end of the enclosing tag, array or map. -/
def closesItem (c : Char) : Bool := c = ',' || c = ':' || c = ')' || c = ']' || c = '}'

/-- A text that may follow the text of an item: empty, or beginning with a character that closes
an item. -/
def Delimited (r : List Char) : Prop := ∀ c ∈ r.head?, closesItem c = true

-- The classes are unfolded by their bodies: their equation lemmas are left to the library.

theorem isDigit_iff (c : Char) : c.isDigit = true ↔ 48 ≤ c.toNat ∧ c.toNat ≤ 57 := by
  show (c.val ≥ '0'.val && c.val ≤ '9'.val) = true ↔ _
  simp only [ge_iff_le, Bool.and_eq_true, decide_eq_true_eq, UInt32.le_iff_toNat_le]
  rfl

theorem isUpper_iff (c : Char) : c.isUpper = true ↔ 65 ≤ c.toNat ∧ c.toNat ≤ 90 := by
  show decide (c.val ≥ 'A'.val ∧ c.val ≤ 'Z'.val) = true ↔ _
  simp only [ge_iff_le, decide_eq_true_eq, UInt32.le_iff_toNat_le]
  rfl

theorem isLower_iff (c : Char) : c.isLower = true ↔ 97 ≤ c.toNat ∧ c.toNat ≤ 122 := by
  show (c.val ≥ 'a'.val && c.val ≤ 'z'.val) = true ↔ _
  simp only [ge_iff_le, Bool.and_eq_true, decide_eq_true_eq, UInt32.le_iff_toNat_le]
  rfl

/-- Two texts that each begin with a run of characters of one class, followed by a character of
another class or by nothing, split alike: the runs are equal, and so are the rests. -/
theorem run_cancel {p : Char → Bool} :
    ∀ {D E r s : List Char}, (∀ c ∈ D, p c = true) → (∀ c ∈ E, p c = true) →
      (∀ c ∈ r.head?, p c = false) → (∀ c ∈ s.head?, p c = false) → D ++ r = E ++ s →
      D = E ∧ r = s
  | [], [], _, _, _, _, _, _, h => ⟨rfl, h⟩
  | [], e :: _, _, _, _, hE, hr, _, h => by
    subst h
    simp [hE e (List.mem_cons_self ..)] at hr
  | d :: _, [], _, _, hD, _, _, hs, h => by
    subst h
    simp [hD d (List.mem_cons_self ..)] at hs
  | d :: D, e :: E, _, _, hD, hE, hr, hs, h => by
    simp only [List.cons_append, List.cons.injEq] at h
    obtain ⟨rfl, h⟩ := h
    obtain ⟨rfl, rfl⟩ := run_cancel (fun c hc => hD c (List.mem_cons_of_mem _ hc))
      (fun c hc => hE c (List.mem_cons_of_mem _ hc)) hr hs h
    exact ⟨rfl, rfl⟩

/-! ### Numbers -/

theorem isDigit_of_mem_toDigits {n : Nat} {c : Char} (h : c ∈ Nat.toDigits 10 n) :
    c.isDigit = true :=
  Nat.isDigit_of_mem_toDigits (by decide) (by decide) h

/-- The decimal digits of a number, followed by nothing or by a character that is not a digit,
tell the number and where its digits end. -/
theorem toDigits_cancel {a b : Nat} {r s : List Char} (hr : ∀ c ∈ r.head?, c.isDigit = false)
    (hs : ∀ c ∈ s.head?, c.isDigit = false)
    (h : Nat.toDigits 10 a ++ r = Nat.toDigits 10 b ++ s) : a = b ∧ r = s := by
  obtain ⟨hd, rfl⟩ := run_cancel (fun _ hc => isDigit_of_mem_toDigits hc)
    (fun _ hc => isDigit_of_mem_toDigits hc) hr hs h
  have hv := congrArg (Nat.ofDigitChars 10 · 0) hd
  simp only [Nat.ofDigitChars_toDigits (by decide : 1 < 10) (by decide : 10 ≤ 10)] at hv
  exact ⟨hv, rfl⟩

/-- Decimal digits begin with a digit. -/
theorem toDigits_eq_cons (n : Nat) : ∃ c rest, Nat.toDigits 10 n = c :: rest ∧ c.isDigit = true := by
  obtain ⟨c, rest, h⟩ := List.exists_cons_of_ne_nil (Nat.toDigits_ne_nil (n := n) (b := 10))
  exact ⟨c, rest, h, isDigit_of_mem_toDigits (h ▸ List.mem_cons_self ..)⟩

/-! ### Hexadecimal digits -/

/-- The value of a lowercase hexadecimal digit. -/
def digitValue (c : Char) : Nat := if c.toNat < 58 then c.toNat - 48 else c.toNat - 87

/-- The value of a run of hexadecimal digits, most significant first. -/
def hexValue (ds : List Char) : Nat := ds.foldl (fun n d => 16 * n + digitValue d) 0

theorem toNat_hexDigit {n : Nat} (h : n < 16) :
    (Hex.digit n).toNat = if n < 10 then 48 + n else 87 + n := by
  unfold Hex.digit
  split_ifs <;> exact Utf8.toNat_ofNat_of_valid (by omega)

theorem digitValue_hexDigit {n : Nat} (h : n < 16) : digitValue (Hex.digit n) = n := by
  unfold digitValue
  rw [toNat_hexDigit h]
  split_ifs <;> omega

theorem high_lt (b : UInt8) : b.toNat / 16 < 16 := by
  have := b.toNat_lt
  omega

theorem hexDigit_ne_apostrophe {n : Nat} (h : n < 16) : Hex.digit n ≠ '\x27' := by
  intro he
  have := toNat_hexDigit h
  rw [he] at this
  split_ifs at this <;> simp at this <;> omega

theorem hexOfNat_four (n : Nat) :
    Hex.ofNat 4 n =
      [Hex.digit (n / 4096 % 16), Hex.digit (n / 256 % 16), Hex.digit (n / 16 % 16),
        Hex.digit (n % 16)] := by
  simp only [Hex.ofNat, List.nil_append, List.cons_append, Nat.div_div_eq_div_mul]

/-- Four hexadecimal digits read back as the number they were written from. -/
theorem hexValue_ofNat_four {n : Nat} (h : n < 65536) : hexValue (Hex.ofNat 4 n) = n := by
  rw [hexOfNat_four]
  simp only [hexValue, List.foldl_cons, List.foldl_nil]
  rw [digitValue_hexDigit (by omega), digitValue_hexDigit (by omega),
    digitValue_hexDigit (by omega), digitValue_hexDigit (by omega)]
  omega

/-- The hexadecimal digits of a byte string, followed by an apostrophe, tell the bytes and where
the digits end. -/
theorem hexBytes_cancel :
    ∀ {bs bs' : List UInt8} {r s : List Char},
      bs.flatMap Hex.ofByte ++ '\x27' :: r = bs'.flatMap Hex.ofByte ++ '\x27' :: s →
      bs = bs' ∧ r = s
  | [], [], _, _, h => by simpa using h
  | [], b :: _, _, _, h => by
    simp only [List.flatMap_nil, List.nil_append, List.flatMap_cons, Hex.ofByte,
      List.cons_append, List.cons.injEq] at h
    exact absurd h.1.symm (hexDigit_ne_apostrophe (high_lt b))
  | b :: _, [], _, _, h => by
    simp only [List.flatMap_nil, List.nil_append, List.flatMap_cons, Hex.ofByte,
      List.cons_append, List.cons.injEq] at h
    exact absurd h.1 (hexDigit_ne_apostrophe (high_lt b))
  | b :: bs, b' :: bs', _, _, h => by
    simp only [List.flatMap_cons, Hex.ofByte, List.cons_append, List.cons.injEq] at h
    obtain ⟨h₁, h₂, h⟩ := h
    have hb := b.toNat_lt
    have hb' := b'.toNat_lt
    -- the two digits give the byte's high and low halves
    have hhi := congrArg digitValue h₁
    have hlo := congrArg digitValue h₂
    rw [digitValue_hexDigit (by omega), digitValue_hexDigit (by omega)] at hhi hlo
    obtain ⟨rfl, rfl⟩ := hexBytes_cancel h
    refine ⟨?_, rfl⟩
    rw [UInt8.toNat_inj.1 (by omega : b.toNat = b'.toNat)]

/-! ### Escapes -/

/-- The character that an escape letter after a backslash stands for. -/
def unmark (m : Char) : Char :=
  if m = 'n' then '\n' else if m = 'r' then '\r' else if m = 't' then '\t' else m

/-- Reading back the character that one escape stands for, and the text after it. -/
def unescape : List Char → Option (Char × List Char)
  | [] => none
  | c :: rest =>
    if c = '\\' then
      match rest with
      | [] => none
      | m :: rest' =>
        if m = 'u' then
          match rest' with
          | a :: b :: d :: e :: rest'' => some (Char.ofNat (hexValue [a, b, d, e]), rest'')
          | _ => none
        else some (unmark m, rest')
    else some (c, rest)

/-- Every escape reads back as the character it was written for. -/
theorem unescape_escape (c : Char) (rest : List Char) :
    unescape (escape c ++ rest) = some (c, rest) := by
  unfold escape
  split_ifs with h₁ h₂ h₃ h₄ h₅ h₆
  · subst h₁; rfl
  · subst h₂; rfl
  · subst h₃; rfl
  · subst h₄; rfl
  · subst h₅; rfl
  · have hc : c.toNat < 65536 := by
      simp only [isControl, Bool.or_eq_true, Bool.and_eq_true, decide_eq_true_eq] at h₆
      omega
    rw [hexOfNat_four] at ⊢
    have hv := hexValue_ofNat_four hc
    rw [hexOfNat_four] at hv
    simp only [unescape, List.cons_append, List.nil_append, if_true, hv, Char.ofNat_toNat]
  · simp [unescape, h₂]

theorem escape_cancel {c c' : Char} {r s : List Char} (h : escape c ++ r = escape c' ++ s) :
    c = c' ∧ r = s := by
  have hu := congrArg unescape h
  rw [unescape_escape, unescape_escape] at hu
  simpa using hu

/-- An escape never begins with a quote. -/
theorem escape_ne_quote (c : Char) (r s : List Char) : escape c ++ r ≠ '"' :: s := by
  unfold escape
  split_ifs with h₁ h₂ <;> simp [h₁]

/-- Escaped characters followed by a quote tell the characters and where they end: the closing
quote is the first that is not part of an escape. -/
theorem escapes_cancel :
    ∀ {cs cs' r s : List Char}, cs.flatMap escape ++ '"' :: r = cs'.flatMap escape ++ '"' :: s →
      cs = cs' ∧ r = s
  | [], [], _, _, h => by simpa using h
  | [], c' :: _, _, _, h => by
    simp only [List.flatMap_nil, List.nil_append, List.flatMap_cons, List.append_assoc] at h
    exact absurd h.symm (escape_ne_quote c' _ _)
  | c :: _, [], _, _, h => by
    simp only [List.flatMap_nil, List.nil_append, List.flatMap_cons, List.append_assoc] at h
    exact absurd h (escape_ne_quote c _ _)
  | c :: cs, c' :: cs', _, _, h => by
    simp only [List.flatMap_cons, List.append_assoc] at h
    obtain ⟨rfl, hrest⟩ := escape_cancel h
    obtain ⟨rfl, rfl⟩ := escapes_cancel hrest
    exact ⟨rfl, rfl⟩

theorem isControl_hexDigit {n : Nat} (h : n < 16) : isControl (Hex.digit n) = false := by
  unfold isControl
  rw [toNat_hexDigit h]
  split_ifs <;> simp <;> omega

/-- The text of an escape has no control character: named escapes and hexadecimal digits are
printable, and a character written as itself is not a control character. -/
theorem escape_no_control (c : Char) : ∀ d ∈ escape c, isControl d = false := by
  unfold escape
  split_ifs with h₁ h₂ h₃ h₄ h₅ h₆
  any_goals
    intro d hd
    simp only [List.mem_cons, List.mem_nil_iff, or_false] at hd
    rcases hd with rfl | rfl <;> decide
  · intro d hd
    simp only [hexOfNat_four, List.mem_cons, List.mem_nil_iff, or_false] at hd
    rcases hd with rfl | rfl | rfl | rfl | rfl | rfl
    · decide
    · decide
    all_goals exact isControl_hexDigit (by omega)
  · intro d hd
    rw [List.mem_singleton] at hd
    subst hd
    simpa using h₆

/-- A character is written as itself or as an escape that begins with a backslash. -/
theorem escape_cases (c : Char) : escape c = [c] ∨ (escape c).head? = some '\\' := by
  unfold escape
  split_ifs <;> simp

/-- Only a character other than a quote, a backslash or a control character is written as
itself. -/
theorem escape_eq_self {c : Char} (h : escape c = [c]) :
    c ≠ '"' ∧ c ≠ '\\' ∧ isControl c = false := by
  unfold escape at h
  split_ifs at h with h₁ h₂ h₃ h₄ h₅ h₆ <;> simp at h
  exact ⟨h₁, h₂, by simpa using h₆⟩

/-! ### Floats -/

/-- The text of a finite float: digits with a decimal point or an exponent mark, and minus signs;
it begins with a digit or a minus sign. -/
structure DecimalText (f : List Char) : Prop where
  marked : '.' ∈ f ∨ 'e' ∈ f
  chars : ∀ c ∈ f, c.isDigit = true ∨ c = '.' ∨ c = 'e' ∨ c = '-'
  lead : ∃ c, f.head? = some c ∧ (c.isDigit = true ∨ c = '-')

theorem DecimalText.neg {f : List Char} (h : DecimalText f) : DecimalText ('-' :: f) where
  marked := h.marked.imp (List.mem_cons_of_mem _) (List.mem_cons_of_mem _)
  chars c hc := by
    rcases List.mem_cons.1 hc with rfl | hc
    · exact .inr (.inr (.inr rfl))
    · exact h.chars c hc
  lead := ⟨'-', rfl, .inr rfl⟩

theorem toList_zeros (n : Nat) : (DecimalStyle.zeros n).toList = List.replicate n '0' := by
  simp [DecimalStyle.zeros]

theorem isDigit_or_minus_of_mem_toString {i : Int} {c : Char} (hc : c ∈ (toString i).toList) :
    c.isDigit = true ∨ c = '-' := by
  cases i with
  | ofNat n =>
    simp [toString, Int.repr, Nat.repr] at hc
    exact .inl (isDigit_of_mem_toDigits hc)
  | negSucc n =>
    simp [toString, Int.repr] at hc
    rcases hc with rfl | hc
    · exact .inr rfl
    · exact .inl (isDigit_of_mem_toDigits hc)

section Layout

variable {d0 : Char} {ds : List Char} (h0 : d0.isDigit = true) (hds : ∀ c ∈ ds, c.isDigit = true)
include h0 hds

/-- Positional form always has a point. -/
theorem positional_decimalText (k : Int) :
    DecimalText (DecimalStyle.positional (d0 :: ds) k).toList := by
  have hmem : ∀ c ∈ d0 :: ds, c.isDigit = true := by
    intro c hc
    rcases List.mem_cons.1 hc with rfl | hc
    · exact h0
    · exact hds c hc
  have hzero : ∀ {n c}, c ∈ List.replicate n '0' → c.isDigit = true := by
    intro n c hc
    rw [List.eq_of_mem_replicate hc]
    decide
  unfold DecimalStyle.positional
  split_ifs with hk hlt
  · refine ⟨.inl (by simp), fun c hc => ?_, ⟨'0', by simp, .inl (by decide)⟩⟩
    simp only [String.toList_append, toList_zeros, String.toList_ofList, List.mem_append] at hc
    rcases hc with (hc | hc) | hc
    · simp only [show "0.".toList = ['0', '.'] from rfl, List.mem_cons, List.mem_nil_iff,
        or_false] at hc
      rcases hc with rfl | rfl
      · exact .inl (by decide)
      · exact .inr (.inl rfl)
    · exact .inl (hzero hc)
    · exact .inl (hmem c hc)
  · obtain ⟨j, hj⟩ : ∃ j, k.toNat = j + 1 := ⟨k.toNat - 1, by omega⟩
    refine ⟨.inl (by simp), fun c hc => ?_, ⟨d0, by simp [hj], .inl h0⟩⟩
    simp only [String.toList_append, String.toList_ofList, List.mem_append] at hc
    rcases hc with (hc | hc) | hc
    · exact .inl (hmem c (List.mem_of_mem_take hc))
    · simp only [show ".".toList = ['.'] from rfl, List.mem_singleton] at hc
      exact .inr (.inl hc)
    · exact .inl (hmem c (List.mem_of_mem_drop hc))
  · refine ⟨.inl (by simp), fun c hc => ?_, ⟨d0, by simp, .inl h0⟩⟩
    simp only [String.toList_append, toList_zeros, String.toList_ofList, List.mem_append] at hc
    rcases hc with (hc | hc) | hc
    · exact .inl (hmem c hc)
    · exact .inl (hzero hc)
    · simp only [show ".0".toList = ['.', '0'] from rfl, List.mem_cons, List.mem_nil_iff,
        or_false] at hc
      rcases hc with rfl | rfl
      · exact .inr (.inl rfl)
      · exact .inl (by decide)

/-- Scientific form always has an exponent mark. -/
theorem scientific_decimalText (k : Int) :
    DecimalText (Diagnostic.decimalStyle.scientific (d0 :: ds) k).toList := by
  have hlead : (String.ofList ((d0 :: ds).take 1)).toList = [d0] := by simp
  unfold DecimalStyle.scientific
  simp only [List.drop_succ_cons, List.drop_zero, decimalStyle]
  refine ⟨.inr (by simp), fun c hc => ?_, ⟨d0, by split <;> simp, .inl h0⟩⟩
  simp only [String.toList_append, List.mem_append] at hc
  rcases hc with (hc | hc) | hc
  · split at hc
    · rw [hlead, List.mem_singleton] at hc
      exact .inl (hc ▸ h0)
    · simp only [String.toList_append, hlead, String.toList_ofList, List.mem_append,
        List.mem_singleton, show ".".toList = ['.'] from rfl] at hc
      rcases hc with (rfl | rfl) | hc
      · exact .inl h0
      · exact .inr (.inl rfl)
      · exact .inl (hds c hc)
  · simp only [show "e".toList = ['e'] from rfl, List.mem_singleton] at hc
    exact .inr (.inr (.inl hc))
  · rcases isDigit_or_minus_of_mem_toString hc with hc | hc
    · exact .inl hc
    · exact .inr (.inr (.inr hc))

end Layout

/-- The text of a finite float is a decimal. -/
theorem render_decimalText (negative : Bool) (od : Option Decimal) :
    DecimalText (decimalStyle.render negative od).toList := by
  have hsign : ∀ body : String, DecimalText body.toList →
      DecimalText ((if negative then decimalStyle.minus else "") ++ body).toList := by
    intro body h
    cases negative
    · simpa using h
    · simpa [decimalStyle] using h.neg
  unfold DecimalStyle.render
  cases od with
  | none =>
    refine hsign _ ⟨.inl (by decide), fun c hc => ?_, ⟨'0', rfl, .inl (by decide)⟩⟩
    simp only [decimalStyle, show "0.0".toList = ['0', '.', '0'] from rfl, List.mem_cons,
      List.mem_nil_iff, or_false] at hc
    rcases hc with rfl | rfl | rfl
    · exact .inl (by decide)
    · exact .inr (.inl rfl)
    · exact .inl (by decide)
  | some d =>
    obtain ⟨d0, ds, hd, h0⟩ := toDigits_eq_cons d.digits
    have hds : ∀ c ∈ ds, c.isDigit = true := fun c hc =>
      isDigit_of_mem_toDigits (hd ▸ List.mem_cons_of_mem _ hc)
    have htext : d.digitText.toList = d0 :: ds := by
      simp [Decimal.digitText, Nat.repr, hd]
    apply hsign
    rw [htext]
    split_ifs
    · exact positional_decimalText h0 hds d.scale
    · exact scientific_decimalText h0 hds d.scale

/-- Every float's text is `NaN`, `Infinity`, `-Infinity` or a decimal. -/
theorem floatText_cases (f : BinaryFormat) (w : Nat) :
    floatText f w = "NaN" ∨ floatText f w = "Infinity" ∨ floatText f w = "-Infinity" ∨
      DecimalText (floatText f w).toList := by
  unfold floatText
  split
  · exact .inl rfl
  · next negative _ =>
    cases negative
    · exact .inr (.inl rfl)
    · exact .inr (.inr (.inl rfl))
  · exact .inr (.inr (.inr (render_decimalText _ _)))

/-- The characters a float's text is written with: digits, letters, the point and the minus
sign. -/
def floatChar (c : Char) : Bool := c.isDigit || c.isAlpha || c = '.' || c = '-'

/-- What telling a float's text apart needs of it: it is written with `floatChar`s, has a letter
or a point, and begins with a digit, a minus sign or a capital letter. -/
structure FloatText (f : List Char) : Prop where
  chars : ∀ c ∈ f, floatChar c = true
  marked : ∃ c ∈ f, c.isAlpha = true ∨ c = '.'
  lead : ∃ c, f.head? = some c ∧ (c.isDigit = true ∨ c = '-' ∨ c.isUpper = true)

theorem DecimalText.floatText {f : List Char} (h : DecimalText f) : FloatText f where
  chars c hc := by
    rcases h.chars c hc with hc | rfl | rfl | rfl <;> simp [floatChar, hc]
  marked := by
    rcases h.marked with hc | hc
    · exact ⟨'.', hc, .inr rfl⟩
    · exact ⟨'e', hc, .inl (by decide)⟩
  lead := by
    obtain ⟨c, hc, hd | hd⟩ := h.lead
    · exact ⟨c, hc, .inl hd⟩
    · exact ⟨c, hc, .inr (.inl hd)⟩

/-- A letter-only text is a float's text when it begins with a capital letter. -/
theorem floatText_of_letters {f : List Char} (hf : f.all Char.isAlpha = true) {c : Char}
    (hc : f.head? = some c) (hu : c.isUpper = true) : FloatText f := by
  have hf : ∀ c ∈ f, c.isAlpha = true := List.all_eq_true.1 hf
  exact ⟨fun c hc => by simp [floatChar, hf c hc],
    ⟨c, List.mem_of_head? hc, .inl (hf c (List.mem_of_head? hc))⟩, ⟨c, hc, .inr (.inr hu)⟩⟩

theorem floatText_diagnostic (x : IeeeFloat) : FloatText x.diagnostic.toList := by
  have h : ∀ f w, FloatText (floatText f w).toList := by
    intro f w
    -- the three named values are spelled out first: deciding over a string literal's characters
    -- does not fit in the recursion limit
    rcases floatText_cases f w with h | h | h | h
    · rw [h, show "NaN".toList = ['N', 'a', 'N'] from rfl]
      exact floatText_of_letters (by decide) rfl (by decide)
    · rw [h, show "Infinity".toList = ['I', 'n', 'f', 'i', 'n', 'i', 't', 'y'] from rfl]
      exact floatText_of_letters (by decide) rfl (by decide)
    · -- the minus sign of `-Infinity` is a float character too
      rw [h, show "-Infinity".toList = ['-', 'I', 'n', 'f', 'i', 'n', 'i', 't', 'y'] from rfl]
      refine ⟨fun c hc => ?_, ⟨'I', by simp, .inl (by decide)⟩, ⟨'-', rfl, .inr (.inl rfl)⟩⟩
      simp only [List.mem_cons, List.mem_nil_iff, or_false] at hc
      rcases hc with rfl | rfl | rfl | rfl | rfl | rfl | rfl | rfl | rfl <;> decide
    · exact h.floatText
  cases x <;> exact h _ _

theorem floatChar_of_closesItem {c : Char} (h : closesItem c = true) : floatChar c = false := by
  simp only [closesItem, Bool.or_eq_true, decide_eq_true_eq] at h
  rcases h with (((rfl | rfl) | rfl) | rfl) | rfl <;> decide

theorem isDigit_of_closesItem {c : Char} (h : closesItem c = true) : c.isDigit = false := by
  have := floatChar_of_closesItem h
  simp only [floatChar, Bool.or_eq_false_iff] at this
  exact this.1.1.1

/-- A run of digits followed by something other than a float character is not the beginning of a
float's text, which has a character other than a digit. -/
theorem digits_ne_float :
    ∀ {f D r s : List Char}, (∀ c ∈ D, c.isDigit = true) → (∀ c ∈ r.head?, floatChar c = false) →
      (∀ c ∈ f, floatChar c = true) → (∃ c ∈ f, c.isDigit = false) → D ++ r ≠ f ++ s
  | [], _, _, _, _, _, _, ⟨_, hc, _⟩, _ => absurd hc List.not_mem_nil
  | c :: f, [], r, s, _, hr, hf, _, h => by
    subst h
    simp [hf c (List.mem_cons_self ..)] at hr
  | c :: f, d :: D, r, s, hD, hr, hf, ⟨c', hc', hnd⟩, h => by
    simp only [List.cons_append, List.cons.injEq] at h
    obtain ⟨rfl, hrest⟩ := h
    -- the first characters agree, so the character that is not a digit comes later
    have hm : ∃ c ∈ f, c.isDigit = false := by
      rcases List.mem_cons.1 hc' with rfl | hc'
      · simp [hD c' (List.mem_cons_self ..)] at hnd
      · exact ⟨c', hc', hnd⟩
    exact digits_ne_float (fun c hc => hD c (List.mem_cons_of_mem _ hc)) hr
      (fun c hc => hf c (List.mem_cons_of_mem _ hc)) hm hrest

/-- A letter or a point is not a digit. -/
theorem isDigit_of_marked {c : Char} (h : c.isAlpha = true ∨ c = '.') : c.isDigit = false := by
  rcases h with ha | rfl
  · replace ha : (c.isUpper || c.isLower) = true := ha
    simp only [Bool.or_eq_true, isUpper_iff, isLower_iff] at ha
    cases hd : c.isDigit
    · rfl
    · rw [isDigit_iff] at hd
      omega
  · decide

/-- A float's text has a character other than a digit. -/
theorem FloatText.not_digits {f : List Char} (h : FloatText f) : ∃ c ∈ f, c.isDigit = false := by
  obtain ⟨c, hc, hm⟩ := h.marked
  exact ⟨c, hc, isDigit_of_marked hm⟩

/-- Two floats' texts followed by texts that may follow an item split alike. -/
theorem floats_cancel {f f' r s : List Char} (hf : FloatText f) (hf' : FloatText f')
    (hr : Delimited r) (hs : Delimited s) (h : f ++ r = f' ++ s) : f = f' ∧ r = s :=
  run_cancel hf.chars hf'.chars (fun c hc => floatChar_of_closesItem (hr c hc))
    (fun c hc => floatChar_of_closesItem (hs c hc)) h

/-- The class of the first character of an item's text: digits, minus signs and capital letters,
which begin integers, tags and floats, are one class, `0`; `f` is in the class of `t`, the two
booleans; any other character is its own class. -/
def leadClass (c : Char) : Char :=
  if c.isDigit || c = '-' || c.isUpper then '0' else if c = 'f' then 't' else c

/-- The head of a text that begins with a given character. -/
theorem head?_append_of_head? {l r : List Char} {c : Char} (h : l.head? = some c) :
    (l ++ r).head? = some c := by
  cases l with
  | nil => cases h
  | cons a l => simpa using h

theorem Delimited.cons {c : Char} {r : List Char} (h : closesItem c = true) :
    Delimited (c :: r) := by
  intro c' hc'
  cases hc'
  exact h

theorem Delimited.not_digit {r : List Char} (h : Delimited r) :
    ∀ c ∈ r.head?, c.isDigit = false :=
  fun _ hc => isDigit_of_closesItem (h _ hc)

theorem Delimited.not_floatChar {r : List Char} (h : Delimited r) :
    ∀ c ∈ r.head?, floatChar c = false :=
  fun _ hc => floatChar_of_closesItem (h _ hc)

/-- A parenthesis, which follows the digits of a tag, is neither a digit nor a float character. -/
theorem paren_head {r : List Char} :
    (∀ c ∈ ('(' :: r).head?, c.isDigit = false) ∧ ∀ c ∈ ('(' :: r).head?, floatChar c = false := by
  constructor <;> intro c hc <;> cases hc <;> decide

/-- A number's digits never begin with a minus sign. -/
theorem toDigits_append_ne_minus (n : Nat) (r s : List Char) :
    Nat.toDigits 10 n ++ r ≠ '-' :: s := by
  obtain ⟨c, rest, h, hc⟩ := toDigits_eq_cons n
  rw [h]
  intro he
  simp only [List.cons_append, List.cons.injEq] at he
  rw [he.1] at hc
  exact absurd hc (by decide)

/-- A number's digits, followed by something other than a float character, are not the beginning
of a float's text. -/
theorem toDigits_append_ne_float {n : Nat} {f r s : List Char} (hf : FloatText f)
    (hr : ∀ c ∈ r.head?, floatChar c = false) : Nat.toDigits 10 n ++ r ≠ f ++ s :=
  digits_ne_float (fun _ hc => isDigit_of_mem_toDigits hc) hr hf.chars hf.not_digits

/-- A minus sign and a number's digits are not the beginning of a float's text: after its minus
sign, a float's text still has a letter or a point. -/
theorem minus_toDigits_append_ne_float {n : Nat} {f r s : List Char} (hf : FloatText f)
    (hr : ∀ c ∈ r.head?, floatChar c = false) : '-' :: (Nat.toDigits 10 n ++ r) ≠ f ++ s := by
  intro h
  cases f with
  | nil =>
    obtain ⟨_, hc, _⟩ := hf.marked
    cases hc
  | cons c f =>
    simp only [List.cons_append, List.cons.injEq] at h
    obtain ⟨rfl, hrest⟩ := h
    have hm : ∃ c ∈ f, c.isDigit = false := by
      obtain ⟨m, hm, hma⟩ := hf.marked
      rcases List.mem_cons.1 hm with rfl | hm
      · rcases hma with hma | hma
        · exact absurd hma (by decide)
        · exact absurd hma (by decide)
      · exact ⟨m, hm, isDigit_of_marked hma⟩
    exact digits_ne_float (fun _ hc => isDigit_of_mem_toDigits hc) hr
      (fun c hc => hf.chars c (List.mem_cons_of_mem _ hc)) hm hrest

end Diagnostic

namespace Item

open Diagnostic

/-! ### The text of each kind of item -/

@[simp] theorem toList_diagnostic_unsigned (n : UInt64) :
    (diagnostic (.unsigned n)).toList = Nat.toDigits 10 n.toNat := by
  show (toString n.toNat).toList = _
  simp [Nat.repr]

@[simp] theorem toList_diagnostic_negative (n : UInt64) :
    (diagnostic (.negative n)).toList = '-' :: Nat.toDigits 10 (n.toNat + 1) := by
  show ("-" ++ toString (n.toNat + 1)).toList = _
  simp [Nat.repr]

@[simp] theorem toList_diagnostic_bytes (bs : List UInt8) :
    (diagnostic (.bytes bs)).toList = 'h' :: '\x27' :: (bs.flatMap Hex.ofByte ++ ['\x27']) := by
  show ("h\x27" ++ Hex.ofBytes bs ++ "\x27").toList = _
  simp [Hex.ofBytes]

@[simp] theorem toList_diagnostic_text (s : String) :
    (diagnostic (.text s)).toList = '"' :: (s.toList.flatMap escape ++ ['"']) := by
  show (quote s).toList = _
  simp [quote]

@[simp] theorem toList_diagnostic_array (xs : List Item) :
    (diagnostic (.array xs)).toList = '[' :: ((diagnosticList xs).toList ++ [']']) := by
  show ("[" ++ diagnosticList xs ++ "]").toList = _
  simp

@[simp] theorem toList_diagnostic_map (es : List (Item × Item)) :
    (diagnostic (.map es)).toList = '\x7b' :: ((diagnosticEntries es).toList ++ ['\x7d']) := by
  show ("\x7b" ++ diagnosticEntries es ++ "\x7d").toList = _
  simp

@[simp] theorem toList_diagnostic_tagged (t : UInt64) (x : Item) :
    (diagnostic (.tagged t x)).toList =
      Nat.toDigits 10 t.toNat ++ '(' :: ((diagnostic x).toList ++ [')']) := by
  show (toString t.toNat ++ "(" ++ diagnostic x ++ ")").toList = _
  simp [Nat.repr]

@[simp] theorem toList_diagnostic_bool (b : Bool) :
    (diagnostic (.bool b)).toList =
      if b then ['t', 'r', 'u', 'e'] else ['f', 'a', 'l', 's', 'e'] := by
  cases b <;> rfl

@[simp] theorem toList_diagnostic_null : (diagnostic .null).toList = ['n', 'u', 'l', 'l'] := rfl

@[simp] theorem toList_diagnostic_undefined :
    (diagnostic .undefined).toList = ['u', 'n', 'd', 'e', 'f', 'i', 'n', 'e', 'd'] := rfl

@[simp] theorem toList_diagnostic_simple (v : UInt8) :
    (diagnostic (.simple v)).toList =
      's' :: 'i' :: 'm' :: 'p' :: 'l' :: 'e' :: '(' :: (Nat.toDigits 10 v.toNat ++ [')']) := by
  show ("simple(" ++ toString v.toNat ++ ")").toList = _
  simp [Nat.repr]

@[simp] theorem toList_diagnostic_float (x : IeeeFloat) :
    (diagnostic (.float x)).toList = x.diagnostic.toList := rfl

@[simp] theorem toList_diagnosticList_nil : (diagnosticList []).toList = [] := rfl

@[simp] theorem toList_diagnosticList_single (a : Item) :
    (diagnosticList [a]).toList = (diagnostic a).toList := rfl

@[simp] theorem toList_diagnosticList_cons_cons (a b : Item) (l : List Item) :
    (diagnosticList (a :: b :: l)).toList =
      (diagnostic a).toList ++ ',' :: ' ' :: (diagnosticList (b :: l)).toList := by
  show (diagnostic a ++ ", " ++ diagnosticList (b :: l)).toList = _
  simp

@[simp] theorem toList_diagnosticEntries_nil : (diagnosticEntries []).toList = [] := rfl

@[simp] theorem toList_diagnosticEntries_single (k v : Item) :
    (diagnosticEntries [(k, v)]).toList =
      (diagnostic k).toList ++ ':' :: ' ' :: (diagnostic v).toList := by
  show (diagnostic k ++ ": " ++ diagnostic v).toList = _
  simp

@[simp] theorem toList_diagnosticEntries_cons_cons (k v : Item) (e : Item × Item)
    (l : List (Item × Item)) :
    (diagnosticEntries ((k, v) :: e :: l)).toList =
      (diagnostic k).toList ++ ':' :: ' ' :: ((diagnostic v).toList ++ ',' :: ' ' ::
        (diagnosticEntries (e :: l)).toList) := by
  obtain ⟨k', v'⟩ := e
  show (diagnostic k ++ ": " ++ diagnostic v ++ ", " ++ diagnosticEntries ((k', v') :: l)).toList = _
  simp

/-! ### The first character -/

/-- The class of the first character of an item's text (`Diagnostic.leadClass`). -/
@[simp] def lead : Item → Char
  | .text _ => '"'
  | .bytes _ => 'h'
  | .array _ => '['
  | .map _ => '\x7b'
  | .bool _ => 't'
  | .null => 'n'
  | .undefined => 'u'
  | .simple _ => 's'
  | .unsigned _ | .negative _ | .tagged _ _ | .float _ => '0'

theorem head_diagnostic (t : Item) :
    ∃ c, (diagnostic t).toList.head? = some c ∧ leadClass c = t.lead := by
  cases t with
  | unsigned n =>
    obtain ⟨c, rest, h, hc⟩ := toDigits_eq_cons n.toNat
    exact ⟨c, by simp [h], by simp [leadClass, hc]⟩
  | tagged t x =>
    obtain ⟨c, rest, h, hc⟩ := toDigits_eq_cons t.toNat
    exact ⟨c, by simp [h], by simp [leadClass, hc]⟩
  | float x =>
    obtain ⟨c, hc, hl⟩ := (floatText_diagnostic x).lead
    refine ⟨c, by simpa using hc, ?_⟩
    rcases hl with hl | hl | hl <;> simp [leadClass, hl]
  | negative n => exact ⟨'-', by simp, show leadClass '-' = '0' by decide⟩
  | bytes bs => exact ⟨'h', by simp, show leadClass 'h' = 'h' by decide⟩
  | text s => exact ⟨'"', by simp, show leadClass '"' = '"' by decide⟩
  | array xs => exact ⟨'[', by simp, show leadClass '[' = '[' by decide⟩
  | map es => exact ⟨'\x7b', by simp, show leadClass '\x7b' = '\x7b' by decide⟩
  | bool b =>
    cases b
    · exact ⟨'f', by simp, by decide⟩
    · exact ⟨'t', by simp, by decide⟩
  | null => exact ⟨'n', by simp, by decide⟩
  | undefined => exact ⟨'u', by simp, by decide⟩
  | simple v => exact ⟨'s', by simp, show leadClass 's' = 's' by decide⟩

/-- Two texts of items with texts after them that agree have leads of one class. -/
theorem lead_eq_of_append {t t' : Item} {r r' : List Char}
    (h : (diagnostic t).toList ++ r = (diagnostic t').toList ++ r') : t.lead = t'.lead := by
  obtain ⟨c, hc, hl⟩ := head_diagnostic t
  obtain ⟨c', hc', hl'⟩ := head_diagnostic t'
  have hh := congrArg List.head? h
  rw [head?_append_of_head? hc, head?_append_of_head? hc'] at hh
  cases hh
  rw [← hl, ← hl']

/-- An item's text never begins with a character that closes an item. -/
theorem diagnostic_append_ne_closing (t : Item) {c : Char} (hc : closesItem c = true)
    (r s : List Char) : (diagnostic t).toList ++ r ≠ c :: s := by
  intro h
  obtain ⟨c', hc', hl⟩ := head_diagnostic t
  have hh := congrArg List.head? h
  rw [head?_append_of_head? hc'] at hh
  cases hh
  simp only [closesItem, Bool.or_eq_true, decide_eq_true_eq] at hc
  rcases hc with (((rfl | rfl) | rfl) | rfl) | rfl <;> cases t <;> simp [leadClass] at hl

theorem toList_diagnosticList_cons (a : Item) (l : List Item) :
    ∃ tail, (diagnosticList (a :: l)).toList = (diagnostic a).toList ++ tail := by
  cases l with
  | nil => exact ⟨[], by simp⟩
  | cons b l => exact ⟨_, toList_diagnosticList_cons_cons a b l⟩

theorem toList_diagnosticEntries_cons (k v : Item) (l : List (Item × Item)) :
    ∃ tail, (diagnosticEntries ((k, v) :: l)).toList = (diagnostic k).toList ++ tail := by
  cases l with
  | nil => exact ⟨_, toList_diagnosticEntries_single k v⟩
  | cons e l => exact ⟨_, toList_diagnosticEntries_cons_cons k v e l⟩

/-! ### Reading an item's text back -/

/-- The text of `t`, followed by a text that may follow an item, fixes the shape of `t` and where
its text ends: an item whose text, followed by such a text, gives the same characters has the
same shape, and the texts after the two are equal. -/
def ReadsUniquely (t : Item) : Prop :=
  ∀ (t' : Item) (r r' : List Char), Delimited r → Delimited r' →
    (diagnostic t).toList ++ r = (diagnostic t').toList ++ r' → t.sameShape t' = true ∧ r = r'

section Kinds

variable {t' : Item} {r r' : List Char}

theorem unsigned_readsUniquely (n : UInt64) : ReadsUniquely (.unsigned n) := by
  intro t' r r' hr hr' h
  have hl := lead_eq_of_append h
  cases t' <;> simp at hl
  case unsigned m =>
    simp only [toList_diagnostic_unsigned] at h
    obtain ⟨hnm, rfl⟩ := toDigits_cancel hr.not_digit hr'.not_digit h
    simp [UInt64.toNat_inj.1 hnm]
  case negative m =>
    simp only [toList_diagnostic_unsigned, toList_diagnostic_negative] at h
    exact absurd h (toDigits_append_ne_minus _ _ _)
  case tagged u y =>
    -- the digits of a tag are followed by a parenthesis, which does not close an item
    simp only [toList_diagnostic_unsigned, toList_diagnostic_tagged, List.append_assoc,
      List.cons_append] at h
    obtain ⟨-, rfl⟩ := toDigits_cancel hr.not_digit paren_head.1 h
    exact absurd (hr '(' rfl) (by decide)
  case float y =>
    simp only [toList_diagnostic_unsigned, toList_diagnostic_float] at h
    exact absurd h (toDigits_append_ne_float (floatText_diagnostic y) hr.not_floatChar)

theorem negative_readsUniquely (n : UInt64) : ReadsUniquely (.negative n) := by
  intro t' r r' hr hr' h
  have hl := lead_eq_of_append h
  cases t' <;> simp at hl
  case unsigned m =>
    simp only [toList_diagnostic_unsigned, toList_diagnostic_negative] at h
    exact absurd h.symm (toDigits_append_ne_minus _ _ _)
  case negative m =>
    simp only [toList_diagnostic_negative, List.cons_append, List.cons.injEq, true_and] at h
    obtain ⟨hnm, rfl⟩ := toDigits_cancel hr.not_digit hr'.not_digit h
    have hnm : n.toNat = m.toNat := by omega
    simp [UInt64.toNat_inj.1 hnm]
  case tagged u y =>
    simp only [toList_diagnostic_negative, toList_diagnostic_tagged, List.append_assoc,
      List.cons_append] at h
    exact absurd h.symm (toDigits_append_ne_minus _ _ _)
  case float y =>
    simp only [toList_diagnostic_negative, toList_diagnostic_float, List.cons_append] at h
    exact absurd h (minus_toDigits_append_ne_float (floatText_diagnostic y) hr.not_floatChar)

theorem float_readsUniquely (x : IeeeFloat) : ReadsUniquely (.float x) := by
  intro t' r r' hr hr' h
  have hl := lead_eq_of_append h
  have hf := floatText_diagnostic x
  cases t' <;> simp at hl
  case unsigned m =>
    simp only [toList_diagnostic_unsigned, toList_diagnostic_float] at h
    exact absurd h.symm (toDigits_append_ne_float hf hr'.not_floatChar)
  case negative m =>
    simp only [toList_diagnostic_negative, toList_diagnostic_float, List.cons_append] at h
    exact absurd h.symm (minus_toDigits_append_ne_float hf hr'.not_floatChar)
  case tagged u y =>
    simp only [toList_diagnostic_float, toList_diagnostic_tagged, List.append_assoc,
      List.cons_append] at h
    exact absurd h.symm (toDigits_append_ne_float hf paren_head.2)
  case float y =>
    simp only [toList_diagnostic_float] at h
    obtain ⟨hxy, rfl⟩ := floats_cancel hf (floatText_diagnostic y) hr hr' h
    simp [String.toList_inj.1 hxy]

theorem tagged_readsUniquely (t : UInt64) (x : Item) (hx : ReadsUniquely x) :
    ReadsUniquely (.tagged t x) := by
  intro t' r r' hr hr' h
  have hl := lead_eq_of_append h
  cases t' <;> simp at hl
  case unsigned m =>
    simp only [toList_diagnostic_unsigned, toList_diagnostic_tagged, List.append_assoc,
      List.cons_append] at h
    obtain ⟨-, rfl⟩ := toDigits_cancel paren_head.1 hr'.not_digit h
    exact absurd (hr' _ rfl) (by decide)
  case negative m =>
    simp only [toList_diagnostic_negative, toList_diagnostic_tagged, List.append_assoc,
      List.cons_append] at h
    exact absurd h (toDigits_append_ne_minus _ _ _)
  case tagged u y =>
    simp only [toList_diagnostic_tagged, List.append_assoc, List.cons_append] at h
    obtain ⟨htu, h⟩ := toDigits_cancel paren_head.1 paren_head.1 h
    simp only [List.cons.injEq, true_and] at h
    obtain ⟨hxy, hrest⟩ := hx y _ _ (Delimited.cons (by decide)) (Delimited.cons (by decide)) h
    simp only [List.cons.injEq, true_and] at hrest
    exact ⟨by simp [UInt64.toNat_inj.1 htu, hxy], hrest⟩
  case float y =>
    simp only [toList_diagnostic_float, toList_diagnostic_tagged, List.append_assoc,
      List.cons_append] at h
    exact absurd h (toDigits_append_ne_float (floatText_diagnostic y) paren_head.2)

theorem text_readsUniquely (s : String) : ReadsUniquely (.text s) := by
  intro t' r r' _ _ h
  have hl := lead_eq_of_append h
  cases t' <;> simp at hl
  case text s' =>
    simp only [toList_diagnostic_text, List.cons_append, List.append_assoc,
      List.cons.injEq, true_and] at h
    obtain ⟨hs, rfl⟩ := escapes_cancel h
    simp [String.toList_inj.1 hs]

theorem bytes_readsUniquely (bs : List UInt8) : ReadsUniquely (.bytes bs) := by
  intro t' r r' _ _ h
  have hl := lead_eq_of_append h
  cases t' <;> simp at hl
  case bytes bs' =>
    simp only [toList_diagnostic_bytes, List.cons_append, List.append_assoc,
      List.cons.injEq, true_and] at h
    obtain ⟨rfl, rfl⟩ := hexBytes_cancel h
    simp

theorem simple_readsUniquely (v : UInt8) : ReadsUniquely (.simple v) := by
  intro t' r r' _ _ h
  have hl := lead_eq_of_append h
  cases t' <;> simp at hl
  case simple v' =>
    simp only [toList_diagnostic_simple, List.cons_append, List.append_assoc,
      List.cons.injEq, true_and] at h
    obtain ⟨hv, h⟩ := toDigits_cancel (fun c hc => by cases hc; decide)
      (fun c hc => by cases hc; decide) h
    simp only [List.cons.injEq, true_and] at h
    exact ⟨by simp [UInt8.toNat_inj.1 hv], h⟩

theorem bool_readsUniquely (b : Bool) : ReadsUniquely (.bool b) := by
  intro t' r r' _ _ h
  have hl := lead_eq_of_append h
  cases t' <;> simp at hl
  case bool b' =>
    cases b <;> cases b' <;> simp at h ⊢ <;> exact h

theorem null_readsUniquely : ReadsUniquely .null := by
  intro t' r r' _ _ h
  have hl := lead_eq_of_append h
  cases t' <;> simp at hl
  case null => simpa using h

theorem undefined_readsUniquely : ReadsUniquely .undefined := by
  intro t' r r' _ _ h
  have hl := lead_eq_of_append h
  cases t' <;> simp at hl
  case undefined => simpa using h

/-- The items of an array, up to its closing bracket, fix their shapes and where the array ends:
each item's text ends at the separator or bracket after it. -/
theorem list_readsUniquely :
    ∀ {xs ys : List Item} {r r' : List Char}, (∀ x ∈ xs, ReadsUniquely x) →
      (diagnosticList xs).toList ++ ']' :: r = (diagnosticList ys).toList ++ ']' :: r' →
      sameShapeList xs ys = true ∧ r = r'
  | [], [], _, _, _, h => ⟨rfl, by simpa using h⟩
  | [], y :: ys, _, _, _, h => by
    obtain ⟨tail, ht⟩ := toList_diagnosticList_cons y ys
    rw [ht, List.append_assoc, toList_diagnosticList_nil, List.nil_append] at h
    exact absurd h.symm (diagnostic_append_ne_closing y (by decide) _ _)
  | x :: xs, [], _, _, _, h => by
    obtain ⟨tail, ht⟩ := toList_diagnosticList_cons x xs
    rw [ht, List.append_assoc, toList_diagnosticList_nil, List.nil_append] at h
    exact absurd h (diagnostic_append_ne_closing x (by decide) _ _)
  | [x], [y], _, _, hxs, h => by
    simp only [toList_diagnosticList_single] at h
    obtain ⟨hxy, hrest⟩ := hxs x (List.mem_singleton_self x) y _ _ (Delimited.cons (by decide))
      (Delimited.cons (by decide)) h
    simp only [List.cons.injEq, true_and] at hrest
    exact ⟨by simp [hxy], hrest⟩
  | [x], y :: y' :: ys, _, _, hxs, h => by
    simp only [toList_diagnosticList_single, toList_diagnosticList_cons_cons, List.append_assoc,
      List.cons_append] at h
    obtain ⟨-, hrest⟩ := hxs x (List.mem_singleton_self x) y _ _ (Delimited.cons (by decide))
      (Delimited.cons (by decide)) h
    simp at hrest
  | x :: x' :: xs, [y], _, _, hxs, h => by
    simp only [toList_diagnosticList_single, toList_diagnosticList_cons_cons, List.append_assoc,
      List.cons_append] at h
    obtain ⟨-, hrest⟩ := hxs x (List.mem_cons_self ..) y _ _ (Delimited.cons (by decide))
      (Delimited.cons (by decide)) h
    simp at hrest
  | x :: x' :: xs, y :: y' :: ys, _, _, hxs, h => by
    -- the first items agree up to their separators, and the rest is read the same way
    simp only [toList_diagnosticList_cons_cons, List.append_assoc, List.cons_append] at h
    obtain ⟨hxy, hrest⟩ := hxs x (List.mem_cons_self ..) y _ _ (Delimited.cons (by decide))
      (Delimited.cons (by decide)) h
    simp only [List.cons.injEq, true_and] at hrest
    obtain ⟨hxys, rfl⟩ := list_readsUniquely (fun z hz => hxs z (List.mem_cons_of_mem _ hz)) hrest
    exact ⟨by rw [sameShapeList.eq_2, hxy, hxys]; rfl, rfl⟩

/-- The entries of a map, up to its closing brace, fix their shapes and where the map ends: a
key's text ends at its colon, and a value's at the separator or brace after it. -/
theorem entries_readsUniquely :
    ∀ {es fs : List (Item × Item)} {r r' : List Char},
      (∀ e ∈ es, ReadsUniquely e.1 ∧ ReadsUniquely e.2) →
      (diagnosticEntries es).toList ++ '\x7d' :: r = (diagnosticEntries fs).toList ++ '\x7d' :: r' →
      sameShapeEntries es fs = true ∧ r = r'
  | [], [], _, _, _, h => ⟨rfl, by simpa using h⟩
  | [], (k', v') :: fs, _, _, _, h => by
    obtain ⟨tail, ht⟩ := toList_diagnosticEntries_cons k' v' fs
    rw [ht, List.append_assoc, toList_diagnosticEntries_nil, List.nil_append] at h
    exact absurd h.symm (diagnostic_append_ne_closing k' (by decide) _ _)
  | (k, v) :: es, [], _, _, _, h => by
    obtain ⟨tail, ht⟩ := toList_diagnosticEntries_cons k v es
    rw [ht, List.append_assoc, toList_diagnosticEntries_nil, List.nil_append] at h
    exact absurd h (diagnostic_append_ne_closing k (by decide) _ _)
  | [(k, v)], [(k', v')], _, _, hes, h => by
    have he := hes (k, v) (List.mem_singleton_self _)
    simp only [toList_diagnosticEntries_single, List.append_assoc, List.cons_append] at h
    obtain ⟨hk, h⟩ := he.1 k' _ _ (Delimited.cons (by decide)) (Delimited.cons (by decide)) h
    simp only [List.cons.injEq, true_and] at h
    obtain ⟨hv, h⟩ := he.2 v' _ _ (Delimited.cons (by decide)) (Delimited.cons (by decide)) h
    simp only [List.cons.injEq, true_and] at h
    exact ⟨by simp [hk, hv], h⟩
  | [(k, v)], (k', v') :: f :: fs, _, _, hes, h => by
    have he := hes (k, v) (List.mem_singleton_self _)
    simp only [toList_diagnosticEntries_single, toList_diagnosticEntries_cons_cons,
      List.append_assoc, List.cons_append] at h
    obtain ⟨-, h⟩ := he.1 k' _ _ (Delimited.cons (by decide)) (Delimited.cons (by decide)) h
    simp only [List.cons.injEq, true_and] at h
    obtain ⟨-, h⟩ := he.2 v' _ _ (Delimited.cons (by decide)) (Delimited.cons (by decide)) h
    simp at h
  | (k, v) :: e :: es, [(k', v')], _, _, hes, h => by
    have he := hes (k, v) (List.mem_cons_self ..)
    simp only [toList_diagnosticEntries_single, toList_diagnosticEntries_cons_cons,
      List.append_assoc, List.cons_append] at h
    obtain ⟨-, h⟩ := he.1 k' _ _ (Delimited.cons (by decide)) (Delimited.cons (by decide)) h
    simp only [List.cons.injEq, true_and] at h
    obtain ⟨-, h⟩ := he.2 v' _ _ (Delimited.cons (by decide)) (Delimited.cons (by decide)) h
    simp at h
  | (k, v) :: e :: es, (k', v') :: f :: fs, _, _, hes, h => by
    -- the first keys agree up to their colons, the first values up to their separators
    have he := hes (k, v) (List.mem_cons_self ..)
    dsimp only at he
    simp only [toList_diagnosticEntries_cons_cons, List.append_assoc, List.cons_append] at h
    obtain ⟨hk, h⟩ := he.1 k' _ _ (Delimited.cons (by decide)) (Delimited.cons (by decide)) h
    simp only [List.cons.injEq, true_and] at h
    obtain ⟨hv, h⟩ := he.2 v' _ _ (Delimited.cons (by decide)) (Delimited.cons (by decide)) h
    simp only [List.cons.injEq, true_and] at h
    obtain ⟨hes', rfl⟩ := entries_readsUniquely (fun z hz => hes z (List.mem_cons_of_mem _ hz)) h
    exact ⟨by rw [sameShapeEntries.eq_2, hk, hv, hes']; rfl, rfl⟩

theorem array_readsUniquely (xs : List Item) (hxs : ∀ x ∈ xs, ReadsUniquely x) :
    ReadsUniquely (.array xs) := by
  intro t' r r' _ _ h
  have hl := lead_eq_of_append h
  cases t' <;> simp at hl
  case array ys =>
    simp only [toList_diagnostic_array, List.cons_append, List.append_assoc, List.cons.injEq,
      true_and] at h
    obtain ⟨hs, rfl⟩ := list_readsUniquely hxs h
    exact ⟨by simp [hs], rfl⟩

theorem map_readsUniquely (es : List (Item × Item))
    (hes : ∀ e ∈ es, ReadsUniquely e.1 ∧ ReadsUniquely e.2) : ReadsUniquely (.map es) := by
  intro t' r r' _ _ h
  have hl := lead_eq_of_append h
  cases t' <;> simp at hl
  case map fs =>
    simp only [toList_diagnostic_map, List.cons_append, List.append_assoc, List.cons.injEq,
      true_and] at h
    obtain ⟨hs, rfl⟩ := entries_readsUniquely hes h
    exact ⟨by simp [hs], rfl⟩

end Kinds

/-! ### Induction on items -/

-- The recursions over items below go down to an item of an array, a key or value of a map, or
-- the item under a tag.

theorem sizeOf_lt_array {x : Item} {xs : List Item} (h : x ∈ xs) :
    sizeOf x < sizeOf (Item.array xs) := by
  have hlt := List.sizeOf_lt_of_mem h
  simp only [Item.array.sizeOf_spec]
  omega

theorem sizeOf_key_lt_map {e : Item × Item} {es : List (Item × Item)} (h : e ∈ es) :
    sizeOf e.1 < sizeOf (Item.map es) := by
  have hlt := List.sizeOf_lt_of_mem h
  have hk : sizeOf e.1 < sizeOf e := by cases e; simp only [Prod.mk.sizeOf_spec]; omega
  simp only [Item.map.sizeOf_spec]
  omega

theorem sizeOf_value_lt_map {e : Item × Item} {es : List (Item × Item)} (h : e ∈ es) :
    sizeOf e.2 < sizeOf (Item.map es) := by
  have hlt := List.sizeOf_lt_of_mem h
  have hv : sizeOf e.2 < sizeOf e := by cases e; simp only [Prod.mk.sizeOf_spec]; omega
  simp only [Item.map.sizeOf_spec]
  omega

theorem sizeOf_lt_tagged {t : UInt64} {x : Item} : sizeOf x < sizeOf (Item.tagged t x) := by
  simp only [Item.tagged.sizeOf_spec]
  omega

/-- **The text of every item reads back uniquely.** By induction on the item: each kind of item
has its lemma, and containers and tags rest on their entries. -/
theorem readsUniquely : ∀ t : Item, ReadsUniquely t
  | .unsigned n => unsigned_readsUniquely n
  | .negative n => negative_readsUniquely n
  | .bytes bs => bytes_readsUniquely bs
  | .text s => text_readsUniquely s
  | .array xs => array_readsUniquely xs fun x _ => readsUniquely x
  | .map es => map_readsUniquely es fun e _ => ⟨readsUniquely e.1, readsUniquely e.2⟩
  | .tagged t x => tagged_readsUniquely t x (readsUniquely x)
  | .bool b => bool_readsUniquely b
  | .null => null_readsUniquely
  | .undefined => undefined_readsUniquely
  | .simple v => simple_readsUniquely v
  | .float x => float_readsUniquely x
termination_by t => sizeOf t
decreasing_by
  · exact sizeOf_lt_array ‹_›
  · exact sizeOf_key_lt_map ‹_›
  · exact sizeOf_value_lt_map ‹_›
  · exact sizeOf_lt_tagged

/-! ### Items of the same shape print alike -/

/-- Every item of the same shape as `t` has the same text, and is `t` itself when `t` has no
float. -/
def Agrees (t : Item) : Prop :=
  ∀ t', t.sameShape t' = true → t.diagnostic = t'.diagnostic ∧ (t.floatFree = true → t = t')

theorem list_agrees :
    ∀ {xs ys : List Item}, (∀ x ∈ xs, Agrees x) → sameShapeList xs ys = true →
      diagnosticList xs = diagnosticList ys ∧ (floatFreeList xs = true → xs = ys)
  | [], [], _, _ => ⟨rfl, fun _ => rfl⟩
  | [], _ :: _, _, h => by simp at h
  | _ :: _, [], _, h => by simp at h
  | [_], _ :: _ :: _, _, h => by simp at h
  | _ :: _ :: _, [_], _, h => by simp at h
  | [x], [y], hxs, h => by
    rw [sameShapeList.eq_2, sameShapeList.eq_1, Bool.and_true] at h
    obtain ⟨hd, hf⟩ := hxs x (List.mem_singleton_self x) y h
    refine ⟨by rw [← String.toList_inj, toList_diagnosticList_single,
      toList_diagnosticList_single, hd], fun hff => ?_⟩
    rw [floatFreeList.eq_2, floatFreeList.eq_1, Bool.and_true] at hff
    rw [hf hff]
  | x :: x' :: xs, y :: y' :: ys, hxs, h => by
    rw [sameShapeList.eq_2, Bool.and_eq_true] at h
    obtain ⟨hd, hf⟩ := hxs x (List.mem_cons_self ..) y h.1
    obtain ⟨hd', hf'⟩ := list_agrees (fun z hz => hxs z (List.mem_cons_of_mem _ hz)) h.2
    refine ⟨by rw [← String.toList_inj, toList_diagnosticList_cons_cons,
      toList_diagnosticList_cons_cons, hd, hd'], fun hff => ?_⟩
    rw [floatFreeList.eq_2, Bool.and_eq_true] at hff
    rw [hf hff.1, hf' hff.2]

theorem entries_agrees :
    ∀ {es fs : List (Item × Item)}, (∀ e ∈ es, Agrees e.1 ∧ Agrees e.2) →
      sameShapeEntries es fs = true →
      diagnosticEntries es = diagnosticEntries fs ∧ (floatFreeEntries es = true → es = fs)
  | [], [], _, _ => ⟨rfl, fun _ => rfl⟩
  | [], _ :: _, _, h => by simp at h
  | _ :: _, [], _, h => by simp at h
  | [(_, _)], (_, _) :: _ :: _, _, h => by simp at h
  | (_, _) :: _ :: _, [(_, _)], _, h => by simp at h
  | [(k, v)], [(k', v')], hes, h => by
    obtain ⟨hk, hv⟩ := hes (k, v) (List.mem_singleton_self _)
    dsimp only at hk hv
    rw [sameShapeEntries.eq_2, sameShapeEntries.eq_1, Bool.and_true, Bool.and_eq_true] at h
    obtain ⟨hdk, hfk⟩ := hk k' h.1
    obtain ⟨hdv, hfv⟩ := hv v' h.2
    refine ⟨by rw [← String.toList_inj, toList_diagnosticEntries_single,
      toList_diagnosticEntries_single, hdk, hdv], fun hff => ?_⟩
    rw [floatFreeEntries.eq_2, floatFreeEntries.eq_1, Bool.and_true, Bool.and_eq_true] at hff
    rw [hfk hff.1, hfv hff.2]
  | (k, v) :: e :: es, (k', v') :: f :: fs, hes, h => by
    obtain ⟨hk, hv⟩ := hes (k, v) (List.mem_cons_self ..)
    dsimp only at hk hv
    rw [sameShapeEntries.eq_2, Bool.and_eq_true, Bool.and_eq_true] at h
    obtain ⟨hdk, hfk⟩ := hk k' h.1.1
    obtain ⟨hdv, hfv⟩ := hv v' h.1.2
    obtain ⟨hd, hf⟩ := entries_agrees (fun z hz => hes z (List.mem_cons_of_mem _ hz)) h.2
    refine ⟨by rw [← String.toList_inj, toList_diagnosticEntries_cons_cons,
      toList_diagnosticEntries_cons_cons, hdk, hdv, hd], fun hff => ?_⟩
    rw [floatFreeEntries.eq_2, Bool.and_eq_true, Bool.and_eq_true] at hff
    rw [hfk hff.1.1, hfv hff.1.2, hf hff.2]

/-- An item that is the only item of its shape agrees with every item of its shape. -/
theorem Agrees.of_eq {t : Item} (h : ∀ t', t.sameShape t' = true → t = t') : Agrees t := by
  intro t' ht
  obtain rfl := h t' ht
  exact ⟨rfl, fun _ => rfl⟩

/-- By induction on the item, as for `readsUniquely`: an item without entries is the only item of
its shape, and containers and tags agree entry by entry. -/
theorem agrees : ∀ t : Item, Agrees t
  | .unsigned n => .of_eq fun t' h => by cases t' <;> simp_all
  | .negative n => .of_eq fun t' h => by cases t' <;> simp_all
  | .bytes bs => .of_eq fun t' h => by cases t' <;> simp_all
  | .text s => .of_eq fun t' h => by cases t' <;> simp_all
  | .array xs => fun t' h => by
    cases t' <;> simp at h
    case array ys =>
      obtain ⟨hd, hf⟩ := list_agrees (fun x _ => agrees x) h
      refine ⟨by rw [← String.toList_inj, toList_diagnostic_array, toList_diagnostic_array, hd],
        fun hff => ?_⟩
      rw [floatFree] at hff
      rw [hf hff]
  | .map es => fun t' h => by
    cases t' <;> simp at h
    case map fs =>
      obtain ⟨hd, hf⟩ := entries_agrees (fun e _ => ⟨agrees e.1, agrees e.2⟩) h
      refine ⟨by rw [← String.toList_inj, toList_diagnostic_map, toList_diagnostic_map, hd],
        fun hff => ?_⟩
      rw [floatFree] at hff
      rw [hf hff]
  | .tagged t x => fun t' h => by
    cases t' <;> simp at h
    case tagged u y =>
      obtain ⟨rfl, hxy⟩ := h
      obtain ⟨hd, hf⟩ := agrees x y hxy
      refine ⟨by rw [← String.toList_inj, toList_diagnostic_tagged, toList_diagnostic_tagged, hd],
        fun hff => ?_⟩
      rw [floatFree] at hff
      rw [hf hff]
  | .bool b => .of_eq fun t' h => by cases t' <;> simp_all
  | .null => .of_eq fun t' h => by cases t' <;> simp_all
  | .undefined => .of_eq fun t' h => by cases t' <;> simp_all
  | .simple v => .of_eq fun t' h => by cases t' <;> simp_all
  | .float x => fun t' h => by
    cases t' <;> simp at h
    case float y =>
      refine ⟨by rw [← String.toList_inj, toList_diagnostic_float, toList_diagnostic_float, h],
        fun hff => ?_⟩
      simp at hff
termination_by t => sizeOf t
decreasing_by
  · exact sizeOf_lt_array ‹_›
  · exact sizeOf_key_lt_map ‹_›
  · exact sizeOf_value_lt_map ‹_›
  · exact sizeOf_lt_tagged

/-- **Diagnostic notation is unambiguous up to the text of floats.** Two items have the same
text exactly when they have the same shape, so an item without floats is the only item with its
text. The text of a float is `NaN`, `Infinity`, `-Infinity`, or a decimal with a point or an
exponent mark, written with digits, points, `e` and minus signs only. Between the quotes of a
text there is no control character; a character is written as itself only when it is not a
quote, a backslash or a control character, and otherwise as an escape that begins with a
backslash; and escaped texts followed by a quote tell the texts apart and where they end. -/
theorem diagnostic_unambiguous :
    (∀ t t' : Item, t.diagnostic = t'.diagnostic ↔ t.sameShape t' = true) ∧
    (∀ t t' : Item, t.floatFree = true → t.diagnostic = t'.diagnostic → t = t') ∧
    (∀ x : IeeeFloat, x.diagnostic = "NaN" ∨ x.diagnostic = "Infinity" ∨
      x.diagnostic = "-Infinity" ∨ DecimalText x.diagnostic.toList) ∧
    (∀ (s : String), ∀ c ∈ s.toList.flatMap escape, isControl c = false) ∧
    (∀ c : Char, escape c = [c] ∨ (escape c).head? = some '\\') ∧
    (∀ c : Char, escape c = [c] → c ≠ '"' ∧ c ≠ '\\' ∧ isControl c = false) ∧
    (∀ (s s' : String) (r r' : List Char),
      s.toList.flatMap escape ++ '"' :: r = s'.toList.flatMap escape ++ '"' :: r' →
      s = s' ∧ r = r') := by
  -- a whole text is followed by nothing
  have hnil : Delimited [] := fun _ hc => by cases hc
  have hsame : ∀ t t' : Item, t.diagnostic = t'.diagnostic → t.sameShape t' = true :=
    fun t t' h => (readsUniquely t t' [] [] hnil hnil (by rw [h])).1
  refine ⟨fun t t' => ⟨hsame t t', fun h => (agrees t t' h).1⟩,
    fun t t' hf h => (agrees t t' (hsame t t' h)).2 hf, fun x => ?_, fun s c hc => ?_,
    escape_cases, fun c => escape_eq_self, fun s s' r r' h => ?_⟩
  · cases x <;> exact floatText_cases _ _
  · obtain ⟨c', -, hc'⟩ := List.mem_flatMap.1 hc
    exact escape_no_control c' c hc'
  · obtain ⟨hs, rfl⟩ := escapes_cancel h
    exact ⟨String.toList_inj.1 hs, rfl⟩

end Item

end Cbor

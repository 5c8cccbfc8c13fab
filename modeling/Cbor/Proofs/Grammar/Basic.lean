import Cbor.Item.Encode
import Cbor.Proofs.Head
/-! # Well-formed encodings

The grammar of a CBOR data item (RFC 8949 §3) as a tree that records every choice a writer can
make: the head form of each argument, definite or indefinite lengths, and where an indefinite
string is cut into chunks. `Encoding.bytes` writes the tree, `Encoding.item` is the item it
encodes, `Encoding.Admitted` says that the limits of a `Config` hold of it, and
`Encoding.Preferred` that every argument has its shortest head and no length is indefinite.

The parts carry their own well-formedness. An argument (`Arg`) is written in a head form among
0–27 that holds it; a string piece (`Piece`) has the length its argument announces; and the
payload of a text piece is the UTF-8 of its characters, so a text encoding is well-formed UTF-8
by construction.
-/

namespace Cbor

/-- An argument as a head writes it: in the additional information (`width = 0`) or in the
`width` bytes after the initial byte, a form wide enough to hold `value`. -/
structure Arg where
  /-- The number of argument bytes after the initial byte. -/
  width : Nat
  /-- The argument. -/
  value : Nat
  form : width ∈ argumentForms
  holds : formHolds width value = true

namespace Arg

/-- The additional information of the head. -/
def info (a : Arg) : Nat :=
  match a.width with
  | 0 => a.value
  | 1 => 24
  | 2 => 25
  | 4 => 26
  | _ => 27

/-- The argument bytes after the initial byte. -/
def extra (a : Arg) : List UInt8 := toBigEndian a.width a.value

/-- The head of major type `m` with this argument. -/
def head (a : Arg) (m : Major) : List UInt8 := Head.toByte ⟨m, a.info⟩ :: a.extra

/-- The shortest form of `v`, the one the writer uses. -/
def shortest (v : UInt64) : Arg where
  width := argumentWidth v.toNat
  value := v.toNat
  form := (argumentWidth_least v.toNat (UInt64.toNat_lt v)).1
  holds := (argumentWidth_least v.toNat (UInt64.toNat_lt v)).2.1

/-- The argument has the shortest head that holds it. -/
def Shortest (a : Arg) : Prop := a.width = argumentWidth a.value

@[simp] theorem length_extra (a : Arg) : a.extra.length = a.width := length_toBigEndian _ _

theorem width_cases (a : Arg) :
    a.width = 0 ∨ a.width = 1 ∨ a.width = 2 ∨ a.width = 4 ∨ a.width = 8 := by
  simpa [argumentForms] using a.form

theorem value_lt (a : Arg) : a.value < 2 ^ 64 := by
  have h := a.holds
  rcases a.width_cases with hw | hw | hw | hw | hw <;> simp [formHolds, hw] at h <;> omega

theorem info_lt (a : Arg) : a.info < 28 := by
  have h := a.holds
  unfold info
  rcases a.width_cases with hw | hw | hw | hw | hw <;> simp only [hw]
  · simp only [formHolds, hw, if_true, decide_eq_true_eq] at h
    omega
  all_goals omega

/-- The head byte reads back as the major type and the additional information. -/
@[simp] theorem ofByte_head (a : Arg) (m : Major) : Head.ofByte (Head.toByte ⟨m, a.info⟩) = ⟨m, a.info⟩ :=
  Head.ofByte_toByte _ (by have := a.info_lt; simp only; omega)

theorem bigEndian_extra (a : Arg) : bigEndian a.extra = a.value % 256 ^ a.width :=
  bigEndian_toBigEndian _ _

/-- No head byte is a Break: its additional information is below 28. -/
theorem toByte_ne_break (a : Arg) (m : Major) : Head.toByte ⟨m, a.info⟩ ≠ breakByte := by
  intro h
  have hb := congrArg Head.ofByte h
  rw [ofByte_head] at hb
  have : Head.ofByte breakByte = ⟨.simple, 31⟩ := by decide
  have hi := a.info_lt
  simp only [this, Head.mk.injEq] at hb
  omega

end Arg

/-- A definite string as written: its length argument and its content, whose payload `enc`
writes and the argument counts. -/
structure Piece (β : Type) (enc : List β → List UInt8) where
  /-- The length argument. -/
  len : Arg
  /-- What the payload holds: bytes, or characters. -/
  content : List β
  length_eq : (enc content).length = len.value

/-- The bytes of a piece of major type `m`: its head, then its payload. -/
def Piece.bytes {β : Type} {enc : List β → List UInt8} (p : Piece β enc) (m : Major) :
    List UInt8 :=
  p.len.head m ++ enc p.content

/-- A string as written: one definite piece, or definite chunks between an indefinite head and a
Break. -/
inductive Str (β : Type) (enc : List β → List UInt8) where
  /-- A definite string. -/
  | definite (p : Piece β enc)
  /-- An indefinite string and its chunks. -/
  | chunked (ps : List (Piece β enc))

/-- The initial byte of an indefinite length of major type `m`. -/
def indefiniteByte (m : Major) : UInt8 := Head.toByte ⟨m, 31⟩

theorem indefiniteByte_ne_break {m : Major} (hm : m ≠ .simple) : indefiniteByte m ≠ breakByte := by
  cases m <;> first | exact absurd rfl hm | decide

namespace Str

variable {β : Type} {enc : List β → List UInt8}

/-- What the string holds, its chunks joined. -/
def content : Str β enc → List β
  | .definite p => p.content
  | .chunked ps => ps.flatMap Piece.content

/-- The bytes of a string of major type `m`. -/
def bytes (m : Major) : Str β enc → List UInt8
  | .definite p => p.bytes m
  | .chunked ps => indefiniteByte m :: (ps.flatMap fun p => p.bytes m) ++ [breakByte]

/-- The limits on a string: its length and, for chunks, the admission of an indefinite length
and the bytes gathered, counted in 64 bits. -/
def Admitted (cfg : Config) : Str β enc → Prop
  | .definite p => cfg.stringTooLong p.len.value = false
  | .chunked ps =>
    cfg.allowIndefinite = true ∧
      cfg.stringTooLong (min (ps.map fun p => p.len.value).sum (Nat.pow 2 64 - 1)) = false

/-- A definite string whose length has its shortest head. -/
def Preferred : Str β enc → Prop
  | .definite p => p.len.Shortest
  | .chunked _ => False

end Str

/-- The head of a container of major type `m`: its count, or an indefinite length. -/
def openHead (m : Major) : Option Arg → List UInt8
  | some a => a.head m
  | none => [indefiniteByte m]

/-- What ends a container: nothing after a count, a Break after an indefinite length. -/
def closing : Option Arg → List UInt8
  | some _ => []
  | none => [breakByte]

/-- A data item as written. -/
inductive Encoding where
  /-- An unsigned integer. -/
  | unsigned (a : Arg)
  /-- A negative integer. -/
  | negative (a : Arg)
  /-- A byte string. -/
  | byteString (s : Str UInt8 id)
  /-- A text string. -/
  | textString (s : Str Char Utf8.encode)
  /-- An array: its count, or `none` for an indefinite length. -/
  | array (count : Option Arg) (items : List Encoding)
  /-- A map: its count, or `none` for an indefinite length. -/
  | map (count : Option Arg) (entries : List (Encoding × Encoding))
  /-- A tag and the item it tags. -/
  | tagged (tag : Arg) (inner : Encoding)
  /-- A simple value, in one byte below 20 and in two from 32 on. -/
  | simple (v : UInt8) (h : v.toNat < 20 ∨ 32 ≤ v.toNat)
  /-- `false` or `true`. -/
  | bool (b : Bool)
  /-- `null`. -/
  | null
  /-- `undefined`. -/
  | undefined
  /-- A float of the width it is written in. -/
  | float (x : IeeeFloat)

namespace Encoding

mutual

/-- The bytes of an encoding. -/
def bytes : Encoding → List UInt8
  | .unsigned a => a.head .unsigned
  | .negative a => a.head .negative
  | .byteString s => s.bytes .bytes
  | .textString s => s.bytes .text
  | .array count xs => openHead .array count ++ listBytes xs ++ closing count
  | .map count es => openHead .map count ++ entriesBytes es ++ closing count
  | .tagged t x => t.head .tag ++ x.bytes
  | .simple v _ => if v.toNat < 20 then [0xE0 + v] else [0xF8, v]
  | .bool b => [if b then 0xF5 else 0xF4]
  | .null => [0xF6]
  | .undefined => [0xF7]
  | .float x => x.encode

/-- The bytes of encodings one after another. -/
def listBytes : List Encoding → List UInt8
  | [] => []
  | x :: xs => x.bytes ++ listBytes xs

/-- The bytes of map entries, each key before its value. -/
def entriesBytes : List (Encoding × Encoding) → List UInt8
  | [] => []
  | (k, v) :: es => k.bytes ++ v.bytes ++ entriesBytes es

end

mutual

/-- The item an encoding writes. -/
def item : Encoding → Item
  | .unsigned a => .unsigned a.value.toUInt64
  | .negative a => .negative a.value.toUInt64
  | .byteString s => .bytes s.content
  | .textString s => .text (String.ofList s.content)
  | .array _ xs => .array (items xs)
  | .map _ es => .map (entryItems es)
  | .tagged t x => .tagged t.value.toUInt64 x.item
  | .simple v _ => .simple v
  | .bool b => .bool b
  | .null => .null
  | .undefined => .undefined
  | .float x => .float x

/-- The items of encodings. -/
def items : List Encoding → List Item
  | [] => []
  | x :: xs => x.item :: items xs

/-- The entries of encoded map entries. -/
def entryItems : List (Encoding × Encoding) → List (Item × Item)
  | [] => []
  | (k, v) :: es => (k.item, v.item) :: entryItems es

end

/-- The count of a container of `n` entries: within the length limit, and the number of entries
or an indefinite length that the limits admit. -/
def CountAdmitted (cfg : Config) (count : Option Arg) (n : Nat) : Prop :=
  cfg.tooManyItems n = false ∧
    match count with
    | some a => a.value = n
    | none => cfg.allowIndefinite = true

/-- No key of a map equals, as a value, a key before it. -/
def KeysDistinct (es : List (Item × Item)) : Prop :=
  es.Pairwise fun e e' => e.1.valueEq e'.1 = false

mutual

/-- The limits of `cfg` hold of an encoding inside `depth` open containers and tags: containers
and tags open at most `cfg.maxDepth` deep, each string and container within its length limit,
indefinite lengths and wide negative integers only where admitted, and, where refused, no map
with a repeated key. -/
def Admitted (cfg : Config) (depth : Nat) : Encoding → Prop
  | .unsigned _ => True
  | .negative a => cfg.allowWideNegative = true ∨ a.value < Nat.pow 2 63
  | .byteString s => s.Admitted cfg
  | .textString s => s.Admitted cfg
  | .array count xs =>
    depth < cfg.maxDepth ∧ CountAdmitted cfg count xs.length ∧ AllAdmitted cfg (depth + 1) xs
  | .map count es =>
    depth < cfg.maxDepth ∧ CountAdmitted cfg count es.length ∧
      EntriesAdmitted cfg (depth + 1) es ∧
      (cfg.rejectDuplicateKeys = true → KeysDistinct (entryItems es))
  | .tagged _ x => depth < cfg.maxDepth ∧ x.Admitted cfg (depth + 1)
  | .simple .. | .bool _ | .null | .undefined | .float _ => True

/-- Every encoding of a list is admitted. -/
def AllAdmitted (cfg : Config) (depth : Nat) : List Encoding → Prop
  | [] => True
  | x :: xs => x.Admitted cfg depth ∧ AllAdmitted cfg depth xs

/-- Every key and value of a list of entries is admitted. -/
def EntriesAdmitted (cfg : Config) (depth : Nat) : List (Encoding × Encoding) → Prop
  | [] => True
  | (k, v) :: es => k.Admitted cfg depth ∧ v.Admitted cfg depth ∧ EntriesAdmitted cfg depth es

end

/-! ### Lists of encodings -/

theorem listBytes_eq (xs : List Encoding) : listBytes xs = xs.flatMap bytes := by
  induction xs with
  | nil => rfl
  | cons x xs ih => simp [listBytes, ih]

theorem items_eq (xs : List Encoding) : items xs = xs.map item := by
  induction xs with
  | nil => rfl
  | cons x xs ih => simp [items, ih]

theorem entryItems_eq (es : List (Encoding × Encoding)) :
    entryItems es = es.map fun e => (e.1.item, e.2.item) := by
  induction es with
  | nil => rfl
  | cons e es ih => simp [entryItems, ih]

theorem allAdmitted_iff {cfg : Config} {depth : Nat} {xs : List Encoding} :
    AllAdmitted cfg depth xs ↔ ∀ x ∈ xs, x.Admitted cfg depth := by
  induction xs with
  | nil => simp [AllAdmitted]
  | cons x xs ih => simp [AllAdmitted, ih]

theorem entriesAdmitted_iff {cfg : Config} {depth : Nat} {es : List (Encoding × Encoding)} :
    EntriesAdmitted cfg depth es ↔ ∀ e ∈ es, e.1.Admitted cfg depth ∧ e.2.Admitted cfg depth := by
  induction es with
  | nil => simp [EntriesAdmitted]
  | cons e es ih => simp [EntriesAdmitted, ih, and_assoc]

/-- Every encoding starts with a byte that is not a Break. -/
theorem bytes_eq_cons (e : Encoding) : ∃ b r, e.bytes = b :: r ∧ b ≠ breakByte := by
  cases e with
  | unsigned a | negative a => exact ⟨_, _, rfl, a.toByte_ne_break _⟩
  | byteString s =>
    cases s with
    | definite p => exact ⟨_, _, rfl, p.len.toByte_ne_break _⟩
    | chunked ps => exact ⟨_, _, rfl, indefiniteByte_ne_break (m := .bytes) (by decide)⟩
  | textString s =>
    cases s with
    | definite p => exact ⟨_, _, rfl, p.len.toByte_ne_break _⟩
    | chunked ps => exact ⟨_, _, rfl, indefiniteByte_ne_break (m := .text) (by decide)⟩
  | array count xs =>
    cases count with
    | some a => exact ⟨_, _, rfl, a.toByte_ne_break _⟩
    | none => exact ⟨_, _, rfl, indefiniteByte_ne_break (m := .array) (by decide)⟩
  | map count es =>
    cases count with
    | some a => exact ⟨_, _, rfl, a.toByte_ne_break _⟩
    | none => exact ⟨_, _, rfl, indefiniteByte_ne_break (m := .map) (by decide)⟩
  | tagged t x => exact ⟨_, _, rfl, t.toByte_ne_break _⟩
  | simple v h =>
    by_cases hv : v.toNat < 20
    · refine ⟨_, _, if_pos hv, ?_⟩
      intro hb
      have := congrArg UInt8.toNat hb
      simp [breakByte] at this
      omega
    · exact ⟨_, _, if_neg hv, by decide⟩
  | bool b => cases b <;> exact ⟨_, _, rfl, by decide⟩
  | null | undefined => exact ⟨_, _, rfl, by decide⟩
  | float x => cases x <;> exact ⟨_, _, rfl, by decide⟩

/-- A count given in its shortest head. -/
def CountPreferred : Option Arg → Prop
  | some a => a.Shortest
  | none => False

mutual

/-- Every argument has its shortest head and no length is indefinite. -/
def Preferred : Encoding → Prop
  | .unsigned a => a.Shortest
  | .negative a => a.Shortest
  | .byteString s => s.Preferred
  | .textString s => s.Preferred
  | .array count xs => CountPreferred count ∧ AllPreferred xs
  | .map count es => CountPreferred count ∧ EntriesPreferred es
  | .tagged t x => t.Shortest ∧ x.Preferred
  | .simple .. | .bool _ | .null | .undefined | .float _ => True

/-- Every encoding of a list is preferred. -/
def AllPreferred : List Encoding → Prop
  | [] => True
  | x :: xs => x.Preferred ∧ AllPreferred xs

/-- Every key and value of a list of entries is preferred. -/
def EntriesPreferred : List (Encoding × Encoding) → Prop
  | [] => True
  | (k, v) :: es => k.Preferred ∧ v.Preferred ∧ EntriesPreferred es

end

end Encoding

end Cbor

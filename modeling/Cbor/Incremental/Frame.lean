import Cbor.Config
import Cbor.Error
import Cbor.Item.Basic
import Cbor.Token
/-! # Open containers

While items arrive in pieces, the containers and tags whose heads have been read but whose
contents have not are kept as frames, innermost first. A definite array or map counts down the
entries still to come; an indefinite one waits for a Break; a map holds a key until its value
arrives; a tag waits for its one item; an indefinite-length string gathers the bytes of its
chunks until its Break.

`Frame.settle` hands a finished item to the innermost frame and closes, in one go, every frame
that the item fills. A string's frame takes chunks only, never a finished item.
-/

namespace Cbor

/-- A container or tag whose head has been read. -/
inductive Frame where
  /-- An array whose head is at `start`: the items so far and, if definite, how many are still
  to come. -/
  | array (start : Nat) (items : Array Item) (remaining : Option Nat)
  /-- A map whose head is at `start`: the entries so far, a key waiting for its value, and, if
  definite, how many entries are still to come. -/
  | map (start : Nat) (entries : Array (Item × Item)) (key : Option Item) (remaining : Option Nat)
  /-- A tag whose head is at `start`, waiting for its item. -/
  | tag (start : Nat) (tag : UInt64)
  /-- An indefinite-length string of major type `major` whose head is at `start`: the bytes of its
  chunks so far. -/
  | chunks (start : Nat) (major : Major) (buf : Array UInt8)
  deriving Repr

namespace Frame

/-- The number of entries a container's head declares. -/
def declared : Frame → Option Nat
  | .array _ _ remaining => remaining
  | .map _ _ _ remaining => remaining
  | .tag _ _ | .chunks .. => none

/-- The item of a container that declares no entries. -/
def empty? : Frame → Option Item
  | .array _ _ (some 0) => some (.array [])
  | .map _ _ _ (some 0) => some (.map [])
  | _ => none

/-- The count of the next entry, when the innermost frame is an indefinite array, or an
indefinite map that is not waiting for a value: the length limit must admit it before the entry
begins. -/
def nextEntryCount : List Frame → Option Nat
  | .array _ items none :: _ => some (items.size + 1)
  | .map _ entries none none :: _ => some (entries.size + 1)
  | _ => none

/-- Hands the finished item `x`, whose encoding starts at `start`, to the innermost frame and
closes every frame it fills; with no frame open, `x` is a finished top-level item. A key equal
to an earlier key of its map is refused when the limits say so, with the frames as they stand
then. A string's frame does not take the item and stays as it is: the scanner gives only chunks
and a Break while a string is open, so no item is ever handed to one. -/
def settle (cfg : Config) (x : Item) (start : Nat) :
    List Frame → Except (Error × List Frame) (List Frame × Option Item)
  | [] => .ok ([], some x)
  | .array s items remaining :: rest =>
    let items := items.push x
    match remaining with
    | some n =>
      if n ≤ 1 then settle cfg (.array items.toList) s rest
      else .ok (.array s items (some (n - 1)) :: rest, none)
    | none => .ok (.array s items none :: rest, none)
  | .map s entries none remaining :: rest =>
    if cfg.rejectDuplicateKeys && entries.any (fun e => e.1.valueEq x) then
      .error (⟨.duplicateKey, start⟩, .map s entries none remaining :: rest)
    else .ok (.map s entries (some x) remaining :: rest, none)
  | .map s entries (some k) remaining :: rest =>
    let entries := entries.push (k, x)
    match remaining with
    | some n =>
      if n ≤ 1 then settle cfg (.map entries.toList) s rest
      else .ok (.map s entries none (some (n - 1)) :: rest, none)
    | none => .ok (.map s entries none none :: rest, none)
  | .tag s t :: rest => settle cfg (.tagged t x) s rest
  | .chunks s m buf :: rest => .ok (.chunks s m buf :: rest, none)

end Frame

end Cbor

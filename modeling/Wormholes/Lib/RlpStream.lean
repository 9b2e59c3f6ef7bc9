import Wormholes.Lib.Rlp

/-!
# Lib.RlpStream — reading a value piece by piece

`rlp.Stream` of `rlp/decode.go`, for decoders written by hand: they enter a list, read values or raw
pieces from it and leave it when nothing is left. A stream here is over values and not over bytes:
every reader of the package rejects what is no canonical encoding, and canonical encodings are the
values (`decodeBytes_encode`, `encodeToBytes_of_decodeBytes`).
-/

namespace Wormholes.Lib.Rlp

/-- What is left to read, of each list the stream is in, the innermost first. The last entry is what
is left outside of every list. -/
abbrev Stream := List (List Item)

/-- A decoder takes values from a stream or fails. -/
abbrev Decoder (α : Type) := StateT Stream Option α

/-- The number of bytes of a value's content. A byte below `0x80` is its own head and has none. -/
def contentSize : Item → ℕ
  | .str bytes => if single bytes then 0 else bytes.length
  | .list items => (encodeAll items).length

namespace Decoder

variable {α : Type}

/-- `Stream.Raw`. -/
def raw : Decoder Item
  | (x :: rest) :: outer => some (x, rest :: outer)
  | _ => none

/-- `Stream.Decode` of a value with the reader of its type. -/
def value (read : Item → Option α) : Decoder α := fun s =>
  (raw s).bind fun r => (read r.1).map fun a => (a, r.2)

/-- The size `Stream.Kind` finds ahead. -/
def kindSize : Decoder ℕ := fun s => (raw s).map fun r => (contentSize r.1, s)

/-- `Stream.List`, with the size of the list's content. -/
def list : Decoder ℕ
  | (.list items :: rest) :: outer => some ((encodeAll items).length, items :: rest :: outer)
  | _ => none

/-- `Stream.ListEnd`. -/
def listEnd : Decoder Unit
  | [] :: rest :: outer => some ((), rest :: outer)
  | _ => none

/-- Reads one value with a stream of its own. -/
def within (x : Item) (d : Decoder α) : Option α := (d [[x]]).map Prod.fst

end Decoder

/-! ## Equations -/

section

variable {α β : Type} (x : Item) (items rest : List Item) (outer : Stream)

open Decoder

@[simp] theorem raw_cons : raw ((x :: rest) :: outer) = some (x, rest :: outer) := rfl

@[simp] theorem value_cons (read : Item → Option α) :
    value read ((x :: rest) :: outer) = (read x).map fun a => (a, rest :: outer) := rfl

@[simp] theorem kindSize_cons :
    kindSize ((x :: rest) :: outer) = some (contentSize x, (x :: rest) :: outer) := rfl

@[simp] theorem list_cons :
    list ((.list items :: rest) :: outer) = some ((encodeAll items).length, items :: rest :: outer) :=
  rfl

@[simp] theorem listEnd_nil : listEnd ([] :: rest :: outer) = some ((), rest :: outer) := rfl

/-- A decoder that goes on after another has read. -/
theorem bind_eq_of_eq {d : Decoder α} {f : α → Decoder β} {s t : Stream} {a : α}
    (h : d s = some (a, t)) : (d >>= f) s = f a t := by
  show (d s).bind (fun r => f r.1 r.2) = f a t
  rw [h]
  rfl

/-- What a composed decoder read, its first part read some of. -/
theorem bind_eq_some {d : Decoder α} {f : α → Decoder β} {s : Stream} {r : β × Stream}
    (h : (d >>= f) s = some r) : ∃ a s', d s = some (a, s') ∧ f a s' = some r := by
  obtain ⟨p, hp, hr⟩ := Option.bind_eq_some_iff.mp (show (d s).bind (fun r => f r.1 r.2) = some r from h)
  exact ⟨p.1, p.2, hp, hr⟩

theorem encodeAll_length_pos (h : items ≠ []) : 0 < (encodeAll items).length := by
  cases items with
  | nil => exact absurd rfl h
  | cons x items =>
    rw [encodeAll, List.length_append]
    have := encode_length_pos x
    omega

end

end Wormholes.Lib.Rlp

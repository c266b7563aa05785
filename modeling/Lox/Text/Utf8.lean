/-!
# Reading UTF-8

Bytes are read as text only if they are well-formed UTF-8. If they are not, the first place
where they fail is reported: the offset of the character that is ill-formed, and how many of
its bytes could have begun a character. A character that the end of the bytes cuts off is
incomplete rather than ill-formed.
-/

namespace Lox.Utf8

/-- Where bytes fail to be text. A character that is cut off at the end has no length. -/
structure Fault where
  offset : Nat
  length : Option Nat
  deriving DecidableEq, Repr

namespace Fault

def message (f : Fault) : String :=
  match f.length with
  | some n =>
    "invalid utf-8 sequence of " ++ toString n ++ " bytes from index " ++ toString f.offset
  | none => "incomplete utf-8 byte sequence from index " ++ toString f.offset

end Fault

/-- An inclusive range of bytes. -/
structure Range where
  low : Nat
  high : Nat

def Range.has (r : Range) (b : UInt8) : Bool := r.low ≤ b.toNat && b.toNat ≤ r.high

/-- The bytes that continue a character. -/
def continuation : Range := ⟨0x80, 0xbf⟩

/-- The ranges that the bytes behind a first byte have to be in, if it can be one. The second
byte is restricted where the character would be spelled too long or be no character. -/
def continuations (b : UInt8) : Option (List Range) :=
  let n := b.toNat
  if n < 0x80 then some []
  else if 0xc2 ≤ n ∧ n ≤ 0xdf then some [continuation]
  else if n = 0xe0 then some [⟨0xa0, 0xbf⟩, continuation]
  else if n = 0xed then some [⟨0x80, 0x9f⟩, continuation]
  else if 0xe1 ≤ n ∧ n ≤ 0xef then some [continuation, continuation]
  else if n = 0xf0 then some [⟨0x90, 0xbf⟩, continuation, continuation]
  else if n = 0xf4 then some [⟨0x80, 0x8f⟩, continuation, continuation]
  else if 0xf1 ≤ n ∧ n ≤ 0xf3 then some [continuation, continuation, continuation]
  else none

/-- How many bytes have been read when a byte is out of its range, with `read` bytes read
before the given ones. The outer value is missing if no byte is out of its range, and the
inner one if the bytes end too soon. -/
def mismatch (read : Nat) : List Range → List UInt8 → Option (Option Nat)
  | [], _ => none
  | _ :: _, [] => some none
  | r :: rs, b :: bs => if r.has b then mismatch (read + 1) rs bs else some (some read)

/-- The fault of the first character that has one, at or behind `offset`. The first `skip`
bytes belong to a character that has been read already. -/
def faultFrom (offset skip : Nat) : List UInt8 → Option Fault
  | [] => none
  | b :: bs =>
    match skip with
    | skip + 1 => faultFrom (offset + 1) skip bs
    | 0 =>
      match continuations b with
      | none => some ⟨offset, some 1⟩
      | some ranges =>
        match mismatch 1 ranges bs with
        | some length => some ⟨offset, length⟩
        | none => faultFrom (offset + 1) ranges.length bs

/-- The first place where bytes fail to be text. -/
def firstFault? (bytes : ByteArray) : Option Fault := faultFrom 0 0 bytes.data.toList

/-- The text that bytes spell. -/
def decode (bytes : ByteArray) : Except Fault String :=
  match String.fromUTF8? bytes with
  | some text => .ok text
  | none => .error ((firstFault? bytes).getD ⟨0, none⟩)

end Lox.Utf8

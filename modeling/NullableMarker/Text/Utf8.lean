/-!
# Faults in UTF-8

Where bytes stop being UTF-8, and why. A character of more than one byte starts with a byte that says
how many follow and narrows down the first of these; the others lie from `0x80` to `0xBF`.
-/

namespace NullableMarker.Utf8

/-! ## Faults -/

/-- Why bytes are no UTF-8. -/
inductive Fault where
  /-- No character starts with the byte. -/
  | start
  /-- The byte after it does not go on the character. -/
  | continuation
  /-- The bytes end inside a character. -/
  | unfinished
  deriving Repr, DecidableEq

/-- The wording of a fault. -/
def Fault.text : Fault → String
  | start => "invalid start byte"
  | continuation => "invalid continuation byte"
  | unfinished => "unexpected end of data"

/-- A fault in some bytes: the first of them, and where they stand. -/
structure Error where
  fault : Fault
  byte : UInt8
  offset : Nat
  length : Nat := 1
  deriving Repr, DecidableEq

/-- A byte in two hexadecimal digits. -/
def hex (b : UInt8) : String :=
  let digits := Nat.toDigits 16 b.toNat
  String.ofList (List.replicate (2 - digits.length) '0' ++ digits)

/-- The whole message. -/
def Error.message (e : Error) : String :=
  let found := if e.length == 1 then s!"byte 0x{hex e.byte} in position {e.offset}"
    else s!"bytes in position {e.offset}-{e.offset + e.length - 1}"
  s!"'utf-8' codec can't decode {found}: {e.fault.text}"

/-! ## Reading bytes -/

/-- An unfinished character. -/
structure Pending where
  /-- Its first byte, and where it stands. -/
  first : UInt8
  offset : Nat
  /-- The number of bytes so far, and of those that are owed. -/
  taken : Nat := 1
  owed : Nat
  /-- The bounds of the next byte. -/
  low : UInt8 := 0x80
  high : UInt8 := 0xBF
  deriving Repr, DecidableEq

/-- What the first byte of a character at `offset` asks for: nothing more, or further bytes. There is
no answer for a byte that starts no character. -/
def begin? (b : UInt8) (offset : Nat) : Option (Option Pending) :=
  if b < 0x80 then some none
  else if b < 0xC2 || 0xF4 < b then none
  else if b < 0xE0 then some (some { first := b, offset, owed := 1 })
  else if b == 0xE0 then some (some { first := b, offset, owed := 2, low := 0xA0 })
  else if b == 0xED then some (some { first := b, offset, owed := 2, high := 0x9F })
  else if b < 0xF0 then some (some { first := b, offset, owed := 2 })
  else if b == 0xF0 then some (some { first := b, offset, owed := 3, low := 0x90 })
  else if b == 0xF4 then some (some { first := b, offset, owed := 3, high := 0x8F })
  else some (some { first := b, offset, owed := 3 })

namespace Pending

/-- What is left of a character after one more byte of it. -/
def next (p : Pending) : Option Pending :=
  if p.owed ≤ 1 then none
  else some { p with taken := p.taken + 1, owed := p.owed - 1, low := 0x80, high := 0xBF }

/-- The byte may go on the character. -/
def admits (p : Pending) (b : UInt8) : Bool := p.low ≤ b && b ≤ p.high

/-- The start of a surrogate, which is only told once its last byte is there. -/
def isSurrogate (p : Pending) (b : UInt8) : Bool :=
  p.first == 0xED && p.taken == 1 && 0xA0 ≤ b && b ≤ 0xBF

end Pending

/-- The first fault in bytes, `offset` bytes after the start. What the end cuts off is judged by
itself, so that its offset is zero. -/
def errorFrom? (offset : Nat) (pending : Option Pending) : List UInt8 → Option Error
  | [] => pending.map fun p => ⟨.unfinished, p.first, 0, p.taken⟩
  | b :: rest =>
    match pending with
    | none =>
      match begin? b offset with
      | none => some ⟨.start, b, offset, 1⟩
      | some pending => errorFrom? (offset + 1) pending rest
    | some p =>
      if p.admits b then errorFrom? (offset + 1) p.next rest
      else
        let isCut := rest.isEmpty && p.isSurrogate b
        some ⟨.continuation, p.first, if isCut then 0 else p.offset, p.taken⟩

/-- The first fault in bytes. -/
def error? (bytes : ByteArray) : Option Error := errorFrom? 0 none bytes.data.toList

end NullableMarker.Utf8

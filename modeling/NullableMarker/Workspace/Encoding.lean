/-!
# Encodings

Sources are read as UTF-8, without a mark of byte order; bytes that are no UTF-8 stand for the
characters with their numbers.
-/

namespace NullableMarker.Encoding

/-- The bytes of a mark of byte order. -/
def orderMark : List UInt8 := [0xEF, 0xBB, 0xBF]

/-- The bytes start with a mark of byte order. -/
def hasOrderMark (bytes : ByteArray) : Bool := orderMark.isPrefixOf bytes.data.toList

/-- The bytes are the beginning of a mark of byte order and no more. -/
def isPartialMark (bytes : ByteArray) : Bool :=
  bytes.size < orderMark.length && bytes.data.toList.isPrefixOf orderMark

/-- The bytes after a mark of byte order. -/
def body (bytes : ByteArray) : ByteArray :=
  if hasOrderMark bytes then bytes.extract orderMark.length bytes.size else bytes

/-- Each byte as a character. -/
def byteText (bytes : ByteArray) : String :=
  String.ofList (bytes.data.toList.map fun b => Char.ofNat b.toNat)

/-- The text of a source. An unfinished mark of byte order is no text. -/
def decode (bytes : ByteArray) : String :=
  if isPartialMark bytes then ""
  else (String.fromUTF8? (body bytes)).getD (byteText bytes)

/-- The bytes of a text. -/
def encode (text : String) : ByteArray := text.toUTF8

end NullableMarker.Encoding

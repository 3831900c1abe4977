/-!
# Raw texts

The name of a file and an argument of the command line are bytes, and nobody makes sure that they
are the bytes of a text. Where a text is needed, `HackStack.RawText.text?` says which one it is, if
there is one. A message shows a raw text by `HackStack.RawText.display`: each character that there
is, and one U+FFFD for as many bytes as could have begun a character.
-/

namespace HackStack

/-- Bytes that may be those of a text. -/
abbrev RawText := List UInt8

/-- The bytes of a text. -/
def Text.raw (text : String) : RawText := text.toUTF8.data.toList

namespace RawText

/-- The text that has these bytes. -/
def text? (bytes : RawText) : Option String := String.fromUTF8? bytes.toByteArray

/-- Whether a byte goes on with a character. -/
def isContinuation (byte : UInt8) : Bool := 0x80 ≤ byte && byte ≤ 0xBF

/-- Whether a byte can be the second of a character of three or four bytes. The narrower ranges keep
out what has a shorter encoding, the surrogates, and what lies behind the last code point. -/
def canFollow (first second : UInt8) : Bool :=
  if first = 0xE0 then 0xA0 ≤ second && second ≤ 0xBF
  else if first = 0xED then 0x80 ≤ second && second ≤ 0x9F
  else if first = 0xF0 then 0x90 ≤ second && second ≤ 0xBF
  else if first = 0xF4 then 0x80 ≤ second && second ≤ 0x8F
  else 0xE1 ≤ first && first ≤ 0xF3 && isContinuation second

/-- How many bytes behind the first one belong to a character that breaks off. -/
def brokenOff : RawText → Nat
  | first :: second :: rest =>
    if canFollow first second then
      match rest with
      | third :: _ => if 0xF0 ≤ first && isContinuation third then 2 else 1
      | [] => 1
    else 0
  | _ => 0

/-- What is shown for the first bytes, and for how many bytes behind the first one. -/
def showFirst (bytes : RawText) : Char × Nat :=
  match (bytes.take 4).toByteArray.utf8DecodeChar? 0 with
  | some c => (c, c.utf8Size - 1)
  | none => ('\uFFFD', brokenOff bytes)

/-- What is shown for bytes behind some that have been shown already. -/
def showAll : Nat → RawText → List Char
  | _, [] => []
  | shown + 1, _ :: rest => showAll shown rest
  | 0, first :: rest =>
    (showFirst (first :: rest)).1 :: showAll (showFirst (first :: rest)).2 rest

/-- **A raw text for people to read.** -/
def display (bytes : RawText) : String := String.ofList (showAll 0 bytes)

end RawText

end HackStack

/-!
# File contents

A file holds bytes.  Text is written to it in UTF-8, and its bytes are shown as the text that
they encode, with a replacement character for a byte that is not part of one.  Writers that have
a position of their own count it in bytes.
-/

namespace LineShell

abbrev Content := List UInt8

namespace Content

def ofText (text : String) : Content :=
  text.toList.flatMap String.utf8EncodeChar

def continuation? (b : UInt8) : Option Nat :=
  if 0x80 ≤ b ∧ b < 0xC0 then some (b.toNat - 0x80) else none

/-- The least code point that is written with this many continuation bytes. -/
def leastCodePoint : Nat → Nat
  | 0 => 0
  | 1 => 0x80
  | 2 => 0x800
  | _ => 0x10000

/-- How many bytes continue a character that begins with a given byte, and its payload. -/
def lead? (b : UInt8) : Option (Nat × Nat) :=
  if b < 0x80 then some (0, b.toNat)
  else if 0xC0 ≤ b ∧ b < 0xE0 then some (1, b.toNat - 0xC0)
  else if 0xE0 ≤ b ∧ b < 0xF0 then some (2, b.toNat - 0xE0)
  else if 0xF0 ≤ b ∧ b < 0xF8 then some (3, b.toNat - 0xF0)
  else none

/-- The character that begins with byte `b` before `rest`, and the number of bytes that it takes
from `rest`. -/
def char? (b : UInt8) (rest : Content) : Option (Char × Nat) :=
  match lead? b with
  | none => none
  | some (count, payload) =>
      let payloads := (rest.take count).filterMap continuation?
      let codePoint := payloads.foldl (fun n d => 64 * n + d) payload
      if payloads.length = count ∧ leastCodePoint count ≤ codePoint then
        if h : codePoint.isValidChar then some (Char.ofNatAux codePoint h, count) else none
      else none

/-- The characters that bytes encode, behind the first so many of them, which belong to a character
before. -/
def charsFrom : Nat → Content → List Char
  | _, [] => []
  | skip + 1, _ :: rest => charsFrom skip rest
  | 0, b :: rest =>
      match char? b rest with
      | none => '\uFFFD' :: charsFrom 0 rest
      | some (c, count) => c :: charsFrom count rest

def toText (content : Content) : String :=
  String.ofList (charsFrom 0 content)

/-- Writes at a position.  What is there is overwritten, and a gap before it is filled with
zeros. -/
def writeAt (content : Content) (position : Nat) (data : Content) : Content :=
  content.take position ++ List.replicate (position - content.length) 0 ++ data
    ++ content.drop (position + data.length)

theorem writeAt_length (content data : Content) :
    content.writeAt content.length data = content ++ data := by
  simp [writeAt]

end Content

end LineShell

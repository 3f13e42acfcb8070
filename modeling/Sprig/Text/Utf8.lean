import Sprig.Text.Quoted

/-!
# Reading bytes as text

A file is UTF-8. A character takes one to four bytes: the first tells how many follow, and which
range the second may come from; all later ones lie between `0x80` and `0xBF`. A fault names the
longest run of bytes that began a character and could not end it.
-/

namespace Sprig.Text

/-- Why bytes are not UTF-8. -/
inductive ByteFault.Cause
  | invalidStart
  | invalidContinuation
  | unexpectedEnd
deriving DecidableEq, Repr

/-- A run of bytes that is not a character. -/
structure ByteFault where
  /-- Why it is none. -/
  cause : ByteFault.Cause
  /-- The offset of the first byte of the run. -/
  offset : Nat
  /-- The number of bytes of the run. -/
  length : Nat
  /-- The first byte of the run. -/
  byte : UInt8
deriving DecidableEq, Repr

/-- The cause in words. -/
def ByteFault.Cause.text : ByteFault.Cause → String
  | .invalidStart => "invalid start byte"
  | .invalidContinuation => "invalid continuation byte"
  | .unexpectedEnd => "unexpected end of data"

/-- Where the run of bytes is, in words; a single byte is told itself. -/
def ByteFault.place (fault : ByteFault) : String :=
  if fault.length = 1 then
    "byte 0x" ++ String.ofList (hexadecimal 2 fault.byte.toNat) ++ " in position " ++
      toString fault.offset
  else
    "bytes in position " ++ toString fault.offset ++ "-" ++
      toString (fault.offset + fault.length - 1)

/-- What is wrong with some bytes, in words. -/
def ByteFault.message (fault : ByteFault) : String :=
  "'utf-8' codec can't decode " ++ fault.place ++ ": " ++ fault.cause.text

/-- What a first byte demands of the bytes after it. -/
structure Lead where
  /-- How many bytes follow. -/
  count : Nat
  /-- The least second byte. -/
  least : UInt8
  /-- The greatest second byte. -/
  greatest : UInt8
  /-- The bits that the first byte gives to the character. -/
  bits : Nat

/-- The demands of a first byte, if it can be one. -/
def lead? (b : UInt8) : Option Lead :=
  if b < 0x80 then some ⟨0, 0x80, 0xBF, b.toNat⟩
  else if b < 0xC2 then none
  else if b < 0xE0 then some ⟨1, 0x80, 0xBF, b.toNat % 0x20⟩
  else if b = 0xE0 then some ⟨2, 0xA0, 0xBF, 0⟩
  else if b = 0xED then some ⟨2, 0x80, 0x9F, 0x0D⟩
  else if b < 0xF0 then some ⟨2, 0x80, 0xBF, b.toNat % 0x10⟩
  else if b = 0xF0 then some ⟨3, 0x90, 0xBF, 0⟩
  else if b < 0xF4 then some ⟨3, 0x80, 0xBF, b.toNat % 0x08⟩
  else if b = 0xF4 then some ⟨3, 0x80, 0x8F, 0x04⟩
  else none

/-- The first flaw among the bytes that must follow, with the number of bytes before it. -/
def flaw? (least greatest : UInt8) : (count sound : Nat) → List UInt8 →
    Option (ByteFault.Cause × Nat)
  | 0, _, _ => none
  | _ + 1, sound, [] => some (.unexpectedEnd, sound)
  | count + 1, sound, b :: bytes =>
    if least ≤ b ∧ b ≤ greatest then flaw? 0x80 0xBF count (sound + 1) bytes
    else some (.invalidContinuation, sound)

/-- The character that a first byte and its followers stand for. -/
def assemble (lead : Lead) (followers : List UInt8) : Char :=
  Char.ofNat (followers.foldl (fun n b => n * 0x40 + b.toNat % 0x40) lead.bits)

/-- Reads bytes from an offset on; the characters before it are given in reverse. -/
def decodeFrom (offset : Nat) (before : List Char) : List UInt8 → Except ByteFault (List Char)
  | [] => .ok before.reverse
  | b :: bytes =>
    match lead? b with
    | none => .error ⟨.invalidStart, offset, 1, b⟩
    | some lead =>
      match flaw? lead.least lead.greatest lead.count 1 bytes with
      | some (cause, length) => .error ⟨cause, offset, length, b⟩
      | none =>
        decodeFrom (offset + 1 + lead.count) (assemble lead (bytes.take lead.count) :: before)
          (bytes.drop lead.count)
  termination_by bytes => bytes.length
  decreasing_by simp only [List.length_drop, List.length_cons]; omega

/-- Reads bytes as text. -/
def decode (bytes : List UInt8) : Except ByteFault String :=
  (decodeFrom 0 [] bytes).map String.ofList

/-- A carriage return ends a line too, alone or before a line feed; all three ends are read as a
line feed. The characters before are given in reverse. -/
def unifyLines (before : List Char) : List Char → List Char
  | [] => before.reverse
  | '\r' :: '\n' :: rest => unifyLines ('\n' :: before) rest
  | c :: rest => unifyLines ((if c = '\r' then '\n' else c) :: before) rest

/-- A text with every end of line read as a line feed. -/
def withLineFeeds (s : String) : String := String.ofList (unifyLines [] s.toList)

end Sprig.Text

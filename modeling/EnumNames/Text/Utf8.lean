import EnumNames.Text.Quoted

/-!
Reading bytes as text. Decoding is strict: the first byte sequence that is not
a well-formed encoding of a character is reported with its place and with what
is wrong. Line ends of either older convention become newlines.
-/

namespace EnumNames.Text

namespace Utf8

inductive Defect where
  | badStart
  | badContinuation
  | cutShort
  deriving DecidableEq, Repr

def Defect.text : Defect → String
  | .badStart => "invalid start byte"
  | .badContinuation => "invalid continuation byte"
  | .cutShort => "unexpected end of data"

/-- The bytes from `start`, `first` and as many more as to make `length`, are no character. -/
structure Error where
  start : Nat
  length : Nat
  first : UInt8
  defect : Defect
  deriving DecidableEq, Repr

def Error.message (e : Error) : String :=
  let place :=
    if e.length ≤ 1 then
      s!"byte 0x{String.ofList (hexadecimal 2 e.first.toNat)} in position {e.start}"
    else s!"bytes in position {e.start}-{e.start + e.length - 1}"
  s!"'utf-8' codec can't decode {place}: {e.defect.text}"

/-- A multi-byte character: how many bytes follow its first byte, the range of the second one, and
the bits that the first one gives. -/
structure Lead where
  more : Nat
  low : Nat
  high : Nat
  bits : Nat

def lead? (b : Nat) : Option Lead :=
  if b < 0xc2 then none
  else if b < 0xe0 then some ⟨1, 0x80, 0xbf, b - 0xc0⟩
  else if b < 0xf0 then
    some ⟨2, if b == 0xe0 then 0xa0 else 0x80, if b == 0xed then 0x9f else 0xbf, b - 0xe0⟩
  else if b < 0xf5 then
    some ⟨3, if b == 0xf0 then 0x90 else 0x80, if b == 0xf4 then 0x8f else 0xbf, b - 0xf0⟩
  else none

/-- What a lead byte's continuation comes to: the code point, or the number of good bytes and the
defect. -/
def continuation (bits : Nat) : Nat → Nat → Nat → List UInt8 → Except (Nat × Defect) Nat
  | 0, _, _, _ => .ok bits
  | _ + 1, _, _, [] => .error (0, .cutShort)
  | more + 1, low, high, b :: bs =>
      if low ≤ b.toNat && b.toNat ≤ high then
        match continuation (bits * 64 + (b.toNat - 0x80)) more 0x80 0xbf bs with
        | .ok n => .ok n
        | .error (good, d) => .error (good + 1, d)
      else .error (0, .badContinuation)

/-- Decodes from the byte at `start` on, after passing over the first `skip` bytes. -/
def decodeFrom (start skip : Nat) : List UInt8 → Except Error (List Char)
  | [] => .ok []
  | b :: bs =>
      match skip with
      | skip + 1 => decodeFrom (start + 1) skip bs
      | 0 =>
          if b.toNat < 0x80 then (decodeFrom (start + 1) 0 bs).map (Char.ofNat b.toNat :: ·)
          else
            match lead? b.toNat with
            | none => .error ⟨start, 1, b, .badStart⟩
            | some lead =>
                match continuation lead.bits lead.more lead.low lead.high bs with
                | .error (good, defect) => .error ⟨start, good + 1, b, defect⟩
                | .ok n => (decodeFrom (start + 1) lead.more bs).map (Char.ofNat n :: ·)

def decode (bytes : List UInt8) : Except Error (List Char) := decodeFrom 0 0 bytes

def encode (s : String) : List UInt8 := s.toUTF8.toList

/-- The first run of surrogates in a text: where it starts, how long it is, and its first code.
Surrogates have no encoding, and no `String` has any. -/
structure Surrogates where
  start : Nat
  length : Nat
  first : Nat
  deriving DecidableEq, Repr

def Surrogates.message (s : Surrogates) : String :=
  let place :=
    if s.length ≤ 1 then
      s!"character '\\u{String.ofList (hexadecimal 4 s.first)}' in position {s.start}"
    else s!"characters in position {s.start}-{s.start + s.length - 1}"
  s!"'utf-8' codec can't encode {place}: surrogates not allowed"

end Utf8

/-- Turns a return, and a return with the newline after it, into a newline. -/
def unifyLineEnds : List Char → List Char
  | [] => []
  | '\r' :: '\n' :: cs => '\n' :: unifyLineEnds cs
  | '\r' :: cs => '\n' :: unifyLineEnds cs
  | c :: cs => c :: unifyLineEnds cs

end EnumNames.Text

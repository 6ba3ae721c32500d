/-!
# Bytes and text

A class file is a string of bytes, and a listing of it is text. Numbers are read big-endian and
shown in hexadecimal. Text is stored in modified UTF-8, read through UTF-16 code units where the
bytes are not well-formed UTF-8, and shown between quotes on one line.
-/

namespace ClassListing

abbrev Bytes := List UInt8

namespace Bytes

/-- The big-endian value of a byte string. -/
def toNat (bytes : Bytes) : Nat :=
  bytes.foldl (fun value byte => value * 256 + byte.toNat) 0

/-- Pieces of `size` bytes each, the last of which may be shorter. -/
def pieces (size : Nat) : Bytes → List Bytes
  | [] => []
  | byte :: rest => (byte :: rest.take (size - 1)) :: pieces size (rest.drop (size - 1))
termination_by bytes => bytes.length
decreasing_by
  simp only [List.length_drop, List.length_cons]
  omega

end Bytes

namespace Text

/-! ## Numerals and columns -/

/-- The numeral of `n` in base sixteen, at least `width` digits long. -/
def hexPadded (width n : Nat) : String :=
  let digits := Nat.toDigits 16 n
  String.ofList (List.replicate (width - digits.length) '0' ++ digits)

def hexByte (byte : UInt8) : String :=
  hexPadded 2 byte.toNat

def hexBytes (bytes : Bytes) : String :=
  String.join (bytes.map hexByte)

-- Text that is wider than its column stays whole.

def alignRight (width : Nat) (text : String) : String :=
  String.ofList (text.toList.leftpad width ' ')

def alignLeft (width : Nat) (text : String) : String :=
  String.ofList (text.toList.rightpad width ' ')

/-! ## Lines -/

/-- A line whose characters are given last first, without the carriage return at its end. -/
def closedLine : List Char → List Char
  | '\r' :: line => line.reverse
  | line => line.reverse

/-- The lines of `chars`, the first of which starts with `line` read backwards. -/
def linesFrom (line : List Char) : List Char → List (List Char)
  | [] => if line.isEmpty then [] else [line.reverse]
  | char :: rest =>
      if char = '\n' then closedLine line :: linesFrom [] rest
      else linesFrom (char :: line) rest

-- The last line need not end, and what is empty behind the last line feed is no line.
def lines (text : String) : List String :=
  (linesFrom [] text.toList).map String.ofList

/-! ## UTF-16 code units -/

/-- What stands in the place of a surrogate without its partner, and of a byte out of place. -/
def replacement : Char := '\ufffd'

def isHighSurrogate (unit : UInt16) : Bool := 0xD800 ≤ unit && unit < 0xDC00

def isLowSurrogate (unit : UInt16) : Bool := 0xDC00 ≤ unit && unit < 0xE000

def loneUnit (unit : UInt16) : Char :=
  if isHighSurrogate unit || isLowSurrogate unit then replacement else Char.ofNat unit.toNat

def pairedUnits (high low : UInt16) : Char :=
  Char.ofNat (0x10000 + (high.toNat - 0xD800) * 0x400 + (low.toNat - 0xDC00))

def ofUnits : List UInt16 → List Char
  | [] => []
  | [unit] => [loneUnit unit]
  | first :: second :: rest =>
      if isHighSurrogate first && isLowSurrogate second then
        pairedUnits first second :: ofUnits rest
      else loneUnit first :: ofUnits (second :: rest)

/-! ## Modified UTF-8 -/

def isContinuation (byte : UInt8) : Bool := 0x80 ≤ byte && byte < 0xC0

def twoByteUnit (lead next : UInt8) : UInt16 :=
  UInt16.ofNat ((lead.toNat % 0x20) * 0x40 + next.toNat % 0x40)

def threeByteUnit (lead next last : UInt8) : UInt16 :=
  UInt16.ofNat ((lead.toNat % 0x10) * 0x1000 + (next.toNat % 0x40) * 0x40 + last.toNat % 0x40)

/--
The first code unit of a byte string, and what follows it. A byte that starts no sequence of one,
two or three bytes is U+FFFD by itself.
-/
def firstUnit (lead : UInt8) (rest : Bytes) : UInt16 × Bytes :=
  if lead < 0x80 then (lead.toUInt16, rest)
  else if 0xC0 ≤ lead && lead < 0xE0 then
    match rest with
    | next :: after =>
        if isContinuation next then (twoByteUnit lead next, after) else (0xFFFD, rest)
    | [] => (0xFFFD, rest)
  else if 0xE0 ≤ lead && lead < 0xF0 then
    match rest with
    | next :: last :: after =>
        if isContinuation next && isContinuation last then (threeByteUnit lead next last, after)
        else (0xFFFD, rest)
    | _ => (0xFFFD, rest)
  else (0xFFFD, rest)

theorem firstUnit_rest_length_le (lead : UInt8) (rest : Bytes) :
    (firstUnit lead rest).2.length ≤ rest.length := by
  unfold firstUnit
  repeat' split
  all_goals simp
  all_goals omega

def units : Bytes → List UInt16
  | [] => []
  | lead :: rest =>
      let first := firstUnit lead rest
      first.1 :: units first.2
termination_by bytes => bytes.length
decreasing_by
  have := firstUnit_rest_length_le lead rest
  simp only [List.length_cons]
  omega

/-- Well-formed UTF-8 is read as such, and everything else unit by unit. -/
def decodeModifiedUtf8 (bytes : Bytes) : String :=
  match String.fromUTF8? ⟨bytes.toArray⟩ with
  | some text => text
  | none => String.ofList (ofUnits (units bytes))

/-! ## Quoted text -/

/-- The control characters: U+0000 to U+001F and U+007F to U+009F. -/
def isControl (char : Char) : Bool :=
  char.toNat < 0x20 || (0x7F ≤ char.toNat && char.toNat < 0xA0)

def escape (char : Char) : List Char :=
  if char = '"' then ['\\', '"']
  else if char = '\\' then ['\\', '\\']
  else if char = '\n' then ['\\', 'n']
  else if char = '\r' then ['\\', 'r']
  else if char = '\t' then ['\\', 't']
  else if char = '\x08' then ['\\', 'b']
  else if char = '\x0c' then ['\\', 'f']
  else if isControl char then '\\' :: 'u' :: (hexPadded 4 char.toNat).toList
  else [char]

def escaped (text : String) : List Char :=
  text.toList.flatMap escape

def quote (text : String) : String :=
  String.ofList ('"' :: (escaped text ++ ['"']))

end Text

end ClassListing

import ClassListing.Error

/-!
# Reading bytes

A cursor is a position in a byte string together with the bytes that follow it. A decoder
moves a cursor forward and gives a value or an error; a read that asks for more bytes than
are left fails and leaves the cursor where it was.
-/

namespace ClassListing

structure Cursor where
  pos : Nat
  rest : Bytes
deriving DecidableEq

def Cursor.start (bytes : Bytes) : Cursor := ⟨0, bytes⟩

/-- A decoder gives a value or an error, and the cursor it stopped at in either case. -/
abbrev Decoder := EStateM Error Cursor

namespace Decoder

/-- A lookup that reads nothing. -/
def lookup : Except Error α → Decoder α
  | .ok value => pure value
  | .error error => throw error

instance : MonadLift (Except Error) Decoder := ⟨lookup⟩

def runOn (decoder : Decoder α) (bytes : Bytes) : Except Error α :=
  match decoder.run (.start bytes) with
  | .ok value _ => .ok value
  | .error error _ => .error error

def pos : Decoder Nat := fun cursor => .ok cursor.pos cursor

def remaining : Decoder Nat := fun cursor => .ok cursor.rest.length cursor

def hasMore : Decoder Bool := fun cursor => .ok (!cursor.rest.isEmpty) cursor

/-- The next `count` bytes. Looks at no byte beyond them. -/
def take (count : Nat) : Decoder Bytes := fun cursor =>
  let taken := cursor.rest.take count
  if taken.length = count then .ok taken ⟨cursor.pos + count, cursor.rest.drop count⟩
  else .error .truncated cursor

theorem take_append (head rest : Bytes) (pos : Nat) :
    take head.length ⟨pos, head ++ rest⟩ = .ok head ⟨pos + head.length, rest⟩ := by
  simp [take]

theorem take_of_length_lt {count pos : Nat} {rest : Bytes} (short : rest.length < count) :
    take count ⟨pos, rest⟩ = .error .truncated ⟨pos, rest⟩ := by
  have hne : (rest.take count).length ≠ count := by
    rw [List.length_take]
    omega
  simp only [take, hne, if_false]

/-- Fails unless `count` bytes are left. -/
def ensure (count : Nat) : Decoder Unit := fun cursor =>
  if (cursor.rest.take count).length = count then .ok () cursor else .error .truncated cursor

def skip (count : Nat) : Decoder Unit := do
  let _ ← take count

/-- Moves forward to the next position that is a multiple of `unit`. -/
def align (unit : Nat) : Decoder Unit := do
  skip ((unit - (← pos) % unit) % unit)

/-- The next byte, which is not consumed. -/
def peek : Decoder UInt8 := fun cursor =>
  match cursor.rest with
  | [] => .error .truncated cursor
  | byte :: _ => .ok byte cursor

/-- A big-endian number of `width` bytes. -/
def number (width : Nat) : Decoder Nat := return (← take width).toNat

def u1 : Decoder UInt8 := return .ofNat (← number 1)

def u2 : Decoder UInt16 := return .ofNat (← number 2)

def u4 : Decoder UInt32 := return .ofNat (← number 4)

def u8 : Decoder UInt64 := return .ofNat (← number 8)

def i1 : Decoder Int8 := return (← u1).toInt8

def i2 : Decoder Int16 := return (← u2).toInt16

def i4 : Decoder Int32 := return (← u4).toInt32

def i8 : Decoder Int64 := return (← u8).toInt64

def text (count : Nat) : Decoder String := return Text.decodeModifiedUtf8 (← take count)

/-- Each value joins those before it, and the next call is the last thing done. -/
def manyAux (decoder : Decoder α) : Nat → List α → Decoder (List α)
  | 0, values => pure values.reverse
  | count + 1, values => do
      let value ← decoder
      manyAux decoder count (value :: values)

def many (count : Nat) (decoder : Decoder α) : Decoder (List α) :=
  manyAux decoder count []

def countedU1 (decoder : Decoder α) : Decoder (List α) := do
  many (← u1).toNat decoder

/-- A two-byte count, then that many values. -/
def countedU2 (decoder : Decoder α) : Decoder (List α) := do
  many (← u2).toNat decoder

/-- A two-byte index into the constant pool, looked up at once. -/
def reference (find : UInt16 → Except Error α) : Decoder α := do
  find (← u2)

theorem manyAux_eq (decoder : Decoder α) (count : Nat) (values : List α) :
    manyAux decoder count values = (values.reverse ++ ·) <$> many count decoder := by
  induction count generalizing values with
  | zero => simp [manyAux, many]
  | succ count ih =>
      rw [many]
      simp only [manyAux, map_bind]
      congr 1
      funext value
      rw [ih, ih [value]]
      simp

theorem many_succ (decoder : Decoder α) (count : Nat) :
    many (count + 1) decoder =
      (do let value ← decoder; let values ← many count decoder; pure (value :: values)) := by
  rw [many, manyAux]
  congr 1
  funext value
  rw [manyAux_eq]
  simp

end Decoder

end ClassListing

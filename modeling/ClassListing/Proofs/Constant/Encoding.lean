import ClassListing.Constant.Pool
import ClassListing.Proofs.Bytes

/-!
# Writing constant pools

A pool is written as the number of its slots and then its entries: for each the tag of its kind
and its fields. The entries alone say where every constant goes, since each takes the slots right
after those of the entries before it.
-/

namespace ClassListing

namespace Constant

def Kind.tag : Kind → UInt8
  | .utf8 => 1
  | .integer => 3
  | .float => 4
  | .long => 5
  | .double => 6
  | .classInfo => 7
  | .string => 8
  | .fieldRef => 9
  | .methodRef => 10
  | .interfaceMethodRef => 11
  | .nameAndType => 12
  | .methodHandle => 15
  | .methodType => 16
  | .dynamic => 17
  | .invokeDynamic => 18
  | .moduleInfo => 19
  | .packageInfo => 20

/-- The fields of a constant. Those of a `Utf8` are not told by its text. -/
def fields : Constant → Bytes
  | .utf8 _ => []
  | .integer value => Bytes.ofInt 4 value.toInt
  | .float bits => Bytes.ofNat 4 bits.toNat
  | .long value => Bytes.ofInt 8 value.toInt
  | .double bits => Bytes.ofNat 8 bits.toNat
  | .classInfo index | .string index | .methodType index | .moduleInfo index
  | .packageInfo index => Bytes.ofNat 2 index.toNat
  | .fieldRef first second | .methodRef first second | .interfaceMethodRef first second
  | .nameAndType first second | .dynamic first second | .invokeDynamic first second =>
      Bytes.ofNat 2 first.toNat ++ Bytes.ofNat 2 second.toNat
  | .methodHandle access target => access.code :: Bytes.ofNat 2 target.toNat

end Constant

namespace Pool

/-- A constant as a class file has it: of a `Utf8` its bytes, which a two-byte length counts. -/
inductive Entry
  | utf8 (raw : Bytes) (short : raw.length < 65536)
  | plain (constant : Constant) (other : constant.kind ≠ .utf8)

namespace Entry

def constant : Entry → Constant
  | .utf8 raw _ => .utf8 (Text.decodeModifiedUtf8 raw)
  | .plain constant _ => constant

def body : Entry → Bytes
  | .utf8 raw _ => Bytes.ofNat 2 raw.length ++ raw
  | .plain constant _ => constant.fields

def encode (entry : Entry) : Bytes := entry.constant.kind.tag :: entry.body

/-- A `Long` and a `Double` take two slots. -/
def isWide (entry : Entry) : Bool :=
  match entry.constant with
  | .long _ | .double _ => true
  | _ => false

theorem isWide_constant (entry : Entry) : entry.constant.isWide = entry.isWide := by
  unfold Constant.isWide isWide
  split <;> simp_all

def width (entry : Entry) : Nat := if entry.isWide then 2 else 1

/-- The slots that the entry takes, of which the second holds nothing. -/
def slots (entry : Entry) : List (Option Constant) :=
  if entry.isWide then [some entry.constant, none] else [some entry.constant]

end Entry

def slotCount : List Entry → Nat
  | [] => 0
  | entry :: entries => entry.width + slotCount entries

def indexOf (entries : List Entry) (k : Nat) : Nat := 1 + slotCount (entries.take k)

/-- All slots: slot zero, which holds nothing, and those of the entries. -/
def layOut (entries : List Entry) : List (Option Constant) :=
  none :: entries.flatMap Entry.slots

def encodeAll (entries : List Entry) : Bytes :=
  Bytes.ofNat 2 (1 + slotCount entries) ++ entries.flatMap Entry.encode

theorem Entry.width_pos (entry : Entry) : 0 < entry.width := by
  unfold width
  split <;> decide

@[simp] theorem Entry.length_slots (entry : Entry) : entry.slots.length = entry.width := by
  unfold slots width
  split <;> rfl

@[simp] theorem slotCount_nil : slotCount [] = 0 := rfl

@[simp] theorem slotCount_cons (entry : Entry) (entries : List Entry) :
    slotCount (entry :: entries) = entry.width + slotCount entries := rfl

theorem slotCount_append (entries more : List Entry) :
    slotCount (entries ++ more) = slotCount entries + slotCount more := by
  induction entries with
  | nil => simp
  | cons entry entries ih => simp [ih, Nat.add_assoc]

theorem slotCount_eq_zero_iff {entries : List Entry} : slotCount entries = 0 ↔ entries = [] := by
  cases entries with
  | nil => simp
  | cons entry entries =>
      have hw := entry.width_pos
      simp only [slotCount_cons, reduceCtorEq, iff_false]
      omega

end Pool

end ClassListing

import ClassListing.Digest.Md5
import ClassListing.Listing.ClassFile

/-!
# Disassembly

From a source of bytes to the listing of the class file they hold. The bytes are in memory or in a
file; a file may be missing, and a stream may break off. The first fault found is the whole result.
-/

namespace ClassListing

inductive Source
  | content (bytes : Bytes)
  | missing
  | interrupted (delivered : Bytes)
deriving DecidableEq

namespace Source

/-- A stream that breaks off leaves nothing to work on. -/
def load : Source → Except Error Bytes
  | .content bytes => .ok bytes
  | .missing | .interrupted _ => .error .unreadable

/-- A stream over `bytes` that breaks off after `failAfter` of them, if that is given. -/
def ofStream (bytes : Bytes) : (failAfter : Option Nat) → Source
  | none => .content bytes
  | some count => .interrupted (bytes.take count)

end Source

def Bytes.slice (bytes : Bytes) (offset length : Nat) : Except Error Bytes :=
  if offset + length ≤ bytes.length then .ok ((bytes.drop offset).take length)
  else .error .truncated

/-- The listing of the class that `bytes` hold, headed by their digest if that is asked for. -/
def disassembleBy (digest : Bytes → String) (options : Options) (bytes : Bytes) :
    Except Error String := do
  let file ← ClassFile.parse bytes
  Listing.print file options (if options.hash then some (digest bytes) else none)

def disassemble (options : Options) (bytes : Bytes) : Except Error String :=
  disassembleBy Md5.hexDigest options bytes

def Source.disassemble (options : Options) (source : Source) : Except Error String := do
  ClassListing.disassemble options (← source.load)

/-- One result for each source; a fault in one leaves the others as they are. -/
def disassembleAll (options : Options) (sources : List Source) : List (Except Error String) :=
  sources.map (Source.disassemble options)

end ClassListing

import DerTemplate.Bytes
import DerTemplate.Schema.Structure

namespace DerTemplate.Encoding

inductive Value where
  /-- What the entry nests, or no content. -/
  | none
  | uint8 (n : UInt8)
  | uint16 (n : UInt16)
  | uint32 (n : UInt32)
  | integer (n : Int)
  | bytes (data : Bytes)
  | bits (data : Bytes) (unused : UInt8)
  | oid (category : Oid.Category) (sum : Nat)
  /-- A whole encoded item, put in place of the entry. -/
  | replace (encoded : Bytes)
  /-- Content of this length, left for the caller to fill in. -/
  | placeholder (length : Nat)
deriving DecidableEq, Repr

def Value.isNone : Value → Bool
  | .none => true
  | _ => false

structure Slot where
  value : Value
  /-- Neither the entry nor anything nested in it is written. -/
  suppressed : Bool
  tag : Option Tag
  /-- The octets of the item, with all that is nested in it. -/
  length : Nat
  contentLength : Nat
  /-- The distance from the first octet of the item to the end of the encoding. -/
  offset : Nat
  sized : Bool
  placeholderAt : Option Nat
deriving DecidableEq, Repr

namespace Slot

def ofValue (value : Value) : Slot := ⟨value, false, none, 0, 0, 0, false, none⟩

def forSchema (schema : Schema) : List Slot := schema.map fun _ => ofValue .none

def placeholderRange (slot : Slot) : Option (Nat × Nat) :=
  match slot.value, slot.placeholderAt with
  | .placeholder length, some start => some (start, start + length)
  | _, _ => none

def wireTag (slot : Slot) (entry : Entry) : Tag := slot.tag.getD entry.wireTag

end Slot

end DerTemplate.Encoding

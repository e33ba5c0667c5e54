import DerTemplate.Bytes
import DerTemplate.Schema.Structure

namespace DerTemplate.Decoding

inductive Destination where
  /-- Its place only. -/
  | none
  | content
  | uint8
  | uint16
  | uint32
  | integer (signed : Bool)
  | oid (category : Oid.Category)
  | choice (tags : List Tag)
  /-- Nothing, but the content has to be this. -/
  | expect (bytes : Bytes)
  | bounded (capacity : Nat)
deriving DecidableEq, Repr

def Destination.kind : Destination → String
  | .none => "none"
  | .content => "reference"
  | .uint8 => "u8"
  | .uint16 => "u16"
  | .uint32 => "u32"
  | .integer _ => "mpi"
  | .oid _ => "oid"
  | .choice _ => "choice"
  | .expect _ => "expect"
  | .bounded _ => "bounded"

inductive Value where
  | nothing
  | bytes (content : Bytes)
  | number (n : Nat)
  | integer (n : Int)
  | oid (sum : Nat) (content : Bytes)
deriving DecidableEq, Repr

def Destination.blank : Destination → Value
  | .none | .integer _ | .expect _ => .nothing
  | .content | .choice _ | .bounded _ => .bytes []
  | .uint8 | .uint16 | .uint32 => .number 0
  | .oid _ => .oid 0 []

structure Slot where
  destination : Destination
  value : Value
  present : Bool
  tag : Tag
  /-- Where the item begins, or was looked for. -/
  offset : Nat
  /-- Where the content begins, after a dropped lead octet. -/
  contentOffset : Nat
  /-- The length of the content, without a dropped lead octet. -/
  length : Nat
  unusedBits : UInt8
  zeroPadded : Bool
deriving DecidableEq, Repr

namespace Slot

def ofDestination (destination : Destination) : Slot :=
  ⟨destination, destination.blank, false, 0, 0, 0, 0, 0, false⟩

def forSchema (schema : Schema) : List Slot := schema.map fun _ => ofDestination .none

def clear (slot : Slot) : Slot := ofDestination slot.destination

def markAbsent (slot : Slot) (idx : Nat) : Slot :=
  { slot with present := false, offset := idx, contentOffset := idx, length := 0 }

def content? (slot : Slot) : Option Bytes :=
  match slot.destination, slot.value with
  | .expect bytes, _ => some bytes
  | _, .bytes content => some content
  | _, .oid _ content => some content
  | _, _ => none

def number? (slot : Slot) : Option Nat :=
  match slot.value with
  | .number n => some n
  | _ => none

def integer? (slot : Slot) : Option Int :=
  match slot.value with
  | .integer n => some n
  | _ => none

def oidSum? (slot : Slot) : Option Nat :=
  match slot.value with
  | .oid sum _ => if slot.present then some sum else none
  | _ => none

end Slot

end DerTemplate.Decoding

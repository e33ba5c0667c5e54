
namespace DerTemplate

abbrev Tag := UInt8

inductive TagClass where
  | universal | application | contextSpecific | privateUse
deriving DecidableEq, Repr

def TagClass.bits : TagClass → UInt8
  | .universal => 0x00
  | .application => 0x40
  | .contextSpecific => 0x80
  | .privateUse => 0xC0

namespace Tag

def endOfContent : Tag := 0x00
def boolean : Tag := 0x01
def integer : Tag := 0x02
def bitString : Tag := 0x03
def objectIdentifier : Tag := 0x06
def enumerated : Tag := 0x0A
def sequence : Tag := 0x10
def set : Tag := 0x11

def constructedBit : UInt8 := 0x20
def classMask : UInt8 := 0xC0
def numberMask : UInt8 := 0x1F

def cls (tag : Tag) : TagClass :=
  match tag >>> 6 with
  | 0 => .universal
  | 1 => .application
  | 2 => .contextSpecific
  | _ => .privateUse

def isConstructed (tag : Tag) : Bool := tag &&& constructedBit != 0

def constructed (tag : Tag) : Tag := tag ||| constructedBit

def base (tag : Tag) : Tag := tag &&& ~~~constructedBit

def context (n : UInt8) : Tag := 0x80 ||| (n &&& numberMask)

def isUniversal (tag : Tag) : Bool := tag &&& classMask == 0

def hasLongNumber (tag : Tag) : Bool := tag &&& numberMask == numberMask

/-- A universal tag whose constructed form is a string given in fragments. -/
def isFragmentable (tag : Tag) : Bool :=
  isUniversal (base tag) && base tag != sequence && base tag != set && base tag != endOfContent

def isInteger (tag : Tag) : Bool := tag == integer || tag == enumerated

def universalName : Tag → String
  | 0x00 => "EOC"
  | 0x01 => "BOOLEAN"
  | 0x02 => "INTEGER"
  | 0x03 => "BIT STRING"
  | 0x04 => "OCTET STRING"
  | 0x05 => "NULL"
  | 0x06 => "OBJECT IDENTIFIER"
  | 0x0A => "ENUMERATED"
  | 0x0C => "UTF8String"
  | 0x10 => "SEQUENCE"
  | 0x11 => "SET"
  | 0x13 => "PrintableString"
  | 0x14 => "T61String"
  | 0x16 => "IA5String"
  | 0x17 => "UTCTime"
  | 0x18 => "GeneralizedTime"
  | 0x1E => "BMPString"
  | _ => "UNIVERSAL"

def name (tag : Tag) : String :=
  match cls tag with
  | .universal => universalName (base tag)
  | .application => "APPLICATION"
  | .contextSpecific => "CONTEXT"
  | .privateUse => "PRIVATE"

def hexDigit (n : UInt8) : Char :=
  if n < 10 then Char.ofNat (n.toNat + 48) else Char.ofNat (n.toNat + 55)

def hex (tag : Tag) : String :=
  String.ofList ['0', 'x', hexDigit (tag >>> 4), hexDigit (tag &&& 0x0F)]

end Tag

end DerTemplate

import DerTemplate.Oid.Category
import DerTemplate.Tag

namespace DerTemplate

inductive Truncation where
  | noTag (offset : Nat)
  | tagNumber (offset : Nat)
  | noLength (offset : Nat)
  | lengthField (offset : Nat)
  | pastBound (length offset bound : Nat)
  | cursorPastEnd (cursor stop : Nat)
  | missingEntry (index offset : Nat)
  | destinationFull (index length capacity : Nat)
  | pastParent (offset length : Nat)
  | other (text : String)
deriving DecidableEq, Repr

inductive Malformation where
  | emptyOid
  | oidLeadingGroup
  | oidUnfinished
  | oidFormat (dotted : String)
  | oidArcTooLarge (text : String)
  | oidSecondArc (dotted : String)
  | oidOverflow
  | emptyInteger
  | integerLeadingZero
  | integerLeadingOnes
  | noUnusedBitsOctet
  | unusedBitsRange (unused : UInt8)
  | emptyWithUnusedBits
  | unusedBitsSet
  | emptyNumber
  | numberTooWide (length width : Nat)
  | tagNumberTooLong (offset : Nat)
  | lengthFieldTooLong (count offset : Nat)
  | lengthOverflow (length offset : Nat)
  | indefiniteLength (offset : Nat)
  | valueUnusedBits (index : Nat) (unused : UInt8) (length : Nat)
  | negativeEntry (index : Nat)
  | unexpectedValue (index : Nat)
  | negativeNumber
  | badEndOfContent (offset : Nat)
  | missingEndOfContent (offset : Nat)
  | strayEndOfContent (offset : Nat)
  | indefinitePrimitive (offset : Nat)
  | unterminatedString
  | fragmentTag (found : Tag) (offset : Nat) (string : Tag)
  | indefiniteFragment (offset : Nat)
  | fragmentAfterPartial (offset : Nat)
  | noOpenItem
  | other (text : String)
deriving DecidableEq, Repr

inductive Exhaustion where
  | encodedSize
  | indefiniteDepth (limit : Nat)
  | nesting (limit : Nat)
  | contentLength
  | records (limit : Nat)
  | other (text : String)
deriving DecidableEq, Repr

inductive Misuse where
  | depth (index level limit : Nat)
  | firstDepth
  | nesting (index parent : Nat)
  | choiceGroup (index group : Nat)
  | slotCount (slots entries : Nat)
  | headerDestination (index : Nat) (kind : String)
  | booleanRange (index value : Nat)
  | headerReplaced (index : Nat)
  | payloadAndChildren (index : Nat)
  | choiceWritten (group : Nat)
  | notSized
  | replacementResized (index : Nat)
  | resized (index : Nat)
  | integerResized (index : Nat)
  | indefinitePrimitive (offset : Nat)
  | noRecord (offset : Nat)
  | indefiniteFragment (offset : Nat)
  | other (text : String)
deriving DecidableEq, Repr

inductive Error where
  | truncatedInput (cause : Truncation)
  | unexpectedTag (index offset : Nat) (tag : Tag)
  | expectedOid (index offset : Nat)
  | expectedBitString (index offset : Nat)
  | invalidEncoding (cause : Malformation)
  | unknownOid (category : Oid.Category) (sum : Nat)
  | trailingData (expected actual : Nat)
  | missingChoice (group : Nat)
  | resourceExhausted (cause : Exhaustion)
  | bufferTooSmall (need got : Nat)
  | internalError (cause : Misuse)
deriving DecidableEq, Repr

def Truncation.message : Truncation → String
  | .noTag offset => s!"no tag byte at offset {offset}"
  | .tagNumber offset => s!"high tag number truncated at offset {offset}"
  | .noLength offset => s!"no length byte at offset {offset}"
  | .lengthField offset => s!"length field truncated at offset {offset}"
  | .pastBound length offset bound => s!"length {length} at offset {offset} exceeds bound {bound}"
  | .cursorPastEnd cursor stop => s!"cursor {cursor} past end {stop}"
  | .missingEntry index offset => s!"required entry {index} missing at offset {offset}"
  | .destinationFull index length capacity =>
      s!"entry {index} holds {length} bytes, destination takes {capacity}"
  | .pastParent offset length => s!"item at offset {offset} needs {length} bytes"
  | .other text => text

def Malformation.message : Malformation → String
  | .emptyOid => "empty OBJECT IDENTIFIER"
  | .oidLeadingGroup => "OBJECT IDENTIFIER sub-identifier has a leading 0x80"
  | .oidUnfinished => "OBJECT IDENTIFIER ends inside a sub-identifier"
  | .oidFormat dotted => s!"Invalid OID format: {dotted}"
  | .oidArcTooLarge text => s!"OID arc too large: {text}"
  | .oidSecondArc dotted => s!"Second OID arc must be below 40: {dotted}"
  | .oidOverflow => "OID sub-identifier overflow"
  | .emptyInteger => "empty INTEGER"
  | .integerLeadingZero => "INTEGER has redundant leading zero"
  | .integerLeadingOnes => "INTEGER has redundant leading 0xFF"
  | .noUnusedBitsOctet => "BIT STRING without unused-bits byte"
  | .unusedBitsRange unused => s!"BIT STRING unused bits {unused} out of range"
  | .emptyWithUnusedBits => "empty BIT STRING with unused bits"
  | .unusedBitsSet => "BIT STRING unused bits are not zero"
  | .emptyNumber => "empty numeric content"
  | .numberTooWide length width => s!"{length} byte value does not fit in {width} bytes"
  | .tagNumberTooLong offset => s!"tag number too long at offset {offset}"
  | .lengthFieldTooLong count offset => s!"length field of {count} bytes at offset {offset}"
  | .lengthOverflow length offset => s!"length {length} overflows at offset {offset}"
  | .indefiniteLength offset => s!"indefinite length at offset {offset}"
  | .valueUnusedBits index unused length =>
      s!"entry {index} has {unused} unused bits over {length} bytes"
  | .negativeEntry index => s!"entry {index} is a negative INTEGER"
  | .unexpectedValue index => s!"entry {index} does not hold the expected value"
  | .negativeNumber => "negative INTEGER for unsigned destination"
  | .badEndOfContent offset => s!"malformed End-of-Content at offset {offset}"
  | .missingEndOfContent offset => s!"missing End-of-Content before offset {offset}"
  | .strayEndOfContent offset =>
      s!"End-of-Content at offset {offset} closes no indefinite-length item"
  | .indefinitePrimitive offset => s!"indefinite length on primitive item at offset {offset}"
  | .unterminatedString => "constructed string missing End-of-Content"
  | .fragmentTag found offset string =>
      s!"fragment tag {found.hex} at offset {offset} in {string.name}"
  | .indefiniteFragment offset => s!"indefinite fragment at offset {offset}"
  | .fragmentAfterPartial offset =>
      s!"BIT STRING fragment at offset {offset} follows a partial byte"
  | .noOpenItem => "End-of-Content without open item"
  | .other text => text

def Exhaustion.message : Exhaustion → String
  | .encodedSize => "encoded size overflows"
  | .indefiniteDepth limit => s!"indefinite-length items nested deeper than {limit}"
  | .nesting limit => s!"constructed items nested deeper than {limit}"
  | .contentLength => "content length overflows"
  | .records limit => s!"more than {limit} rewritten items"
  | .other text => text

def Misuse.message : Misuse → String
  | .depth index level limit => s!"schema entry {index} depth {level} exceeds {limit}"
  | .firstDepth => "schema must start at depth 0"
  | .nesting index parent => s!"schema entry {index} nests under entry {parent} which has no children"
  | .choiceGroup index group => s!"schema entry {index} choice group {group} out of range"
  | .slotCount slots entries => s!"{slots} slots for {entries} schema entries"
  | .headerDestination index kind => s!"header-only entry {index} cannot decode into {kind}"
  | .booleanRange index value => s!"entry {index} BOOLEAN value {value} out of range"
  | .headerReplaced index => s!"header-only entry {index} cannot be replaced"
  | .payloadAndChildren index => s!"header-only entry {index} has both a payload and children"
  | .choiceWritten group => s!"more than one member of choice group {group} is written"
  | .notSized => "write_items called before size_items"
  | .replacementResized index => s!"entry {index} replacement changed size between passes"
  | .resized index => s!"entry {index} changed size between passes"
  | .integerResized index => s!"entry {index} integer changed size between passes"
  | .indefinitePrimitive offset => s!"indefinite primitive at offset {offset} passed scan"
  | .noRecord offset => s!"no record for item at offset {offset}"
  | .indefiniteFragment offset => s!"indefinite fragment at offset {offset} passed scan"
  | .other text => text

namespace Error

def message : Error → String
  | .truncatedInput cause => s!"Truncated input: {cause.message}"
  | .unexpectedTag index offset tag =>
      s!"Unexpected tag {tag.hex} at offset {offset} (schema index {index})"
  | .expectedOid index offset =>
      s!"Expected OBJECT IDENTIFIER at offset {offset} (schema index {index})"
  | .expectedBitString index offset =>
      s!"Expected BIT STRING at offset {offset} (schema index {index})"
  | .invalidEncoding cause => s!"Invalid encoding: {cause.message}"
  | .unknownOid category sum => s!"Unknown OID (sum {sum}) for category {category.label}"
  | .trailingData expected actual =>
      s!"Trailing data: expected end at {expected}, cursor at {actual}"
  | .missingChoice group => s!"No member of choice group {group} matched"
  | .resourceExhausted cause => s!"Resource exhausted: {cause.message}"
  | .bufferTooSmall need got => s!"Buffer too small: need {need}, got {got}"
  | .internalError cause => s!"Internal error: {cause.message}"

def isUnexpectedTag : Error → Bool
  | .unexpectedTag .. | .expectedOid .. | .expectedBitString .. => true
  | _ => false

end Error

end DerTemplate

import DerTemplate.Encoding.Output
import DerTemplate.Proofs.Content.BitString
import DerTemplate.Proofs.Encoding.Stencil
import DerTemplate.Proofs.Schema.Position

namespace DerTemplate

namespace Encoding

open Stencil Header

def Value.lead (entry : Entry) (tag : Tag) : Value → Option UInt8
  | .bytes data =>
    if isNumber entry tag ∧ (data = [] ∨ Content.hasTopBit data) then some 0
    else wholeBits entry tag
  | .bits _ unused => some unused
  | .oid .. | .replace _ => Option.none
  | _ => wholeBits entry tag

def numberOctets (entry : Entry) (tag : Tag) (n : Nat) : Bytes :=
  if tag = Tag.boolean then [UInt8.ofNat n]
  else Bytes.ofNat (if isNumber entry tag then Content.unsignedSize n else octetCount n) n

def Value.body (entry : Entry) (tag : Tag) : Value → Stencil
  | .none => []
  | .uint8 n => solid (numberOctets entry tag n.toNat)
  | .uint16 n => solid (numberOctets entry tag n.toNat)
  | .uint32 n => solid (numberOctets entry tag n.toNat)
  | .integer n => solid (Bytes.ofInt n)
  | .bytes data => solid data
  | .bits data unused => solid (Content.cleared data unused)
  | .oid category sum => solid ((category.bySum? sum).elim [] fun known => known.der)
  | .replace encoded => solid encoded
  | .placeholder length => gap length

namespace Slot

def baseTag (slot : Slot) (entry : Entry) : Tag := (slot.wireTag entry).base

def nests (slot : Slot) (entry : Entry) : Bool := entry.headerOnly && slot.value.isNone

def leadBytes (slot : Slot) (entry : Entry) : Bytes :=
  (slot.value.lead entry (slot.baseTag entry)).toList

def body (slot : Slot) (entry : Entry) : Stencil := slot.value.body entry (slot.baseTag entry)

def declared (slot : Slot) (entry : Entry) (nested : Nat) : Nat :=
  (slot.leadBytes entry).length + (slot.body entry).length + nested

/-- What the entry writes itself: of a header-only entry not the body, which follows. -/
def own (slot : Slot) (entry : Entry) (nested : Nat) : Stencil :=
  match slot.value with
  | .replace encoded => solid encoded
  | _ =>
    solid (slot.wireTag entry :: lengthOctets (slot.declared entry nested) ++
      slot.leadBytes entry) ++ if entry.headerOnly then [] else slot.body entry

theorem nests_eq_true_iff {slot : Slot} {entry : Entry} :
    slot.nests entry = true ↔ entry.headerOnly = true ∧ slot.value = .none := by
  rw [nests, Bool.and_eq_true]
  cases slot.value <;> simp [Value.isNone]

theorem leadBytes_none {slot : Slot} (entry : Entry) (hnone : slot.value = .none) :
    slot.leadBytes entry = (wholeBits entry (slot.baseTag entry)).toList := by
  rw [leadBytes, hnone]
  rfl

theorem body_none {slot : Slot} (entry : Entry) (hnone : slot.value = .none) :
    slot.body entry = [] := by
  rw [body, hnone]
  rfl

def item (slot : Slot) (entry : Entry) (nested : Stencil) : Stencil :=
  if slot.nests entry then slot.own entry nested.length ++ nested else slot.own entry 0

end Slot

end Encoding

namespace Forest

open Encoding

def stencil : Forest Slot → Stencil
  | nil => []
  | node entry slot below next =>
    (if slot.suppressed then [] else slot.item entry below.stencil) ++ next.stencil

def encoding (forest : Forest Slot) : Bytes := forest.stencil.fill []

end Forest

end DerTemplate

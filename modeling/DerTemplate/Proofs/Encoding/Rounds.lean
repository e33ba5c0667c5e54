import DerTemplate.Proofs.Encoding.Placeholders

namespace DerTemplate

namespace Forest

open Encoding

variable {forest : Forest Slot} {start i : Nat}

end Forest

namespace Encoding

open Schema

variable {schema : Schema} {slots : List Slot} {sizing : Sizing} {written : Written} {buffer : Bytes}
variable {entry : Entry} {slot : Slot} {i : Nat}

structure Setting where
  value : Value
  suppressed : Bool
  tag : Option Tag
deriving DecidableEq, Repr

def Slot.given (slot : Slot) (setting : Setting) : Slot :=
  { slot with value := setting.value, suppressed := setting.suppressed, tag := setting.tag }

structure Round where
  settings : Nat → Setting
  buffer : Bytes

def Round.give (round : Round) (slots : List Slot) : List Slot :=
  slots.mapIdx fun i slot => slot.given (round.settings i)

def Round.run (round : Round) (schema : Schema) (slots : List Slot) : Attempt (List Slot) Written := do
  let sizing ← size schema (round.give slots)
  write schema sizing.slots round.buffer

section Round

variable (h : size schema slots = .ok sizing) (hwrite : write schema sizing.slots buffer = .ok written)
include h hwrite

end Round

end Encoding

end DerTemplate

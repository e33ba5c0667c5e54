import DerTemplate.Tag

/-!
A schema is a list of entries in pre-order. The depth of an entry gives its nesting level; only a
header-only entry has entries nested in it.
-/

namespace DerTemplate

inductive Presence where
  | required
  | optional
  /-- One of a run of siblings with the same group number, of which one is present. -/
  | choice (group : Nat)
deriving DecidableEq, Repr

structure Entry where
  depth : Nat
  tag : Tag
  constructed : Bool
  /-- The entry stands for the header alone; what the content holds follows in the schema. -/
  headerOnly : Bool
  presence : Presence
deriving DecidableEq, Repr

abbrev Schema := List Entry

namespace Entry

def ofTag (depth : Nat) (tag : Tag) (constructed headerOnly : Bool) (presence : Presence) : Entry :=
  ⟨depth, tag.base, constructed, headerOnly, presence⟩

def sequence (depth : Nat) : Entry := ofTag depth Tag.sequence true true .required

def set (depth : Nat) : Entry := ofTag depth Tag.set true true .required

def leaf (depth : Nat) (tag : Tag) : Entry := ofTag depth tag false false .required

def explicit (depth : Nat) (n : UInt8) : Entry := ofTag depth (Tag.context n) true true .required

def implicit (depth : Nat) (n : UInt8) : Entry := ofTag depth (Tag.context n) false false .required

def header (entry : Entry) : Entry := { entry with headerOnly := true }

def optional (entry : Entry) : Entry := { entry with presence := .optional }

def choice (entry : Entry) (group : Nat) : Entry := { entry with presence := .choice group }

def wireTag (entry : Entry) : Tag :=
  if entry.constructed then entry.tag.constructed else entry.tag

def choiceGroup (entry : Entry) : Option Nat :=
  match entry.presence with
  | .choice group => some group
  | _ => none

def isOptional (entry : Entry) : Bool := entry.presence == .optional

def describe (entry : Entry) : String :=
  "".pushn ' ' (entry.depth * 2) ++ entry.wireTag.name ++
    (if entry.constructed then " constructed" else "") ++
    (if entry.headerOnly then " header" else "") ++
    match entry.presence with
    | .required => ""
    | .optional => " optional"
    | .choice group => s!" choice({group})"

end Entry

def Schema.describe (schema : Schema) : String :=
  String.join (schema.mapIdx fun i entry =>
    let index := toString i
    "".pushn ' ' (3 - index.length) ++ index ++ ": " ++ entry.describe ++ "\n")

end DerTemplate

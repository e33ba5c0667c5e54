import DerTemplate.Decoding.Content

/-!
Decoding by a schema. The walk goes over the entries once, in order. It keeps the content end of
every open level in a table, and for every choice group whether the run last begun has a member.
-/

namespace DerTemplate.Decoding

structure Walk where
  slots : List Slot
  /-- Where the content of each level ends; level zero is the whole window. -/
  ends : List Nat
  /-- For each choice group, whether a member of the run has been found. -/
  met : List Bool
  idx : Nat
  level : Nat
deriving DecidableEq, Repr

def Walk.begin (slots : List Slot) (cursor stop : Nat) : Walk :=
  ⟨slots, List.replicate (depthLimit + 1) stop, List.replicate (choiceGroupLimit + 1) false,
    cursor, 0⟩

def closeLevels (ends : List Nat) (depth idx : Nat) : Nat → Outcome Unit
  | 0 => .ok ()
  | level + 1 =>
    if level < depth then .ok ()
    else do
      let stop ← fetch ends (level + 1)
      if idx = stop then closeLevels ends depth idx level
      else refuse (.trailingData stop idx)

def Destination.admits (destination : Destination) (entry : Entry) (tag : Tag) : Bool :=
  match destination with
  | .choice tags => tags.contains tag
  | _ => tag == entry.wireTag

def Destination.wrongForm (destination : Destination) (entry : Entry) (tag : Tag) : Bool :=
  match destination with
  | .choice _ => false
  | _ => tag.base == entry.tag && tag != entry.wireTag

def missing (destination : Destination) (entry : Entry) (index idx : Nat) : Option Tag → Error
  | none => .truncatedInput (.missingEntry index idx)
  | some tag =>
    match destination with
    | .oid _ => .expectedOid index idx
    | _ =>
      if entry.wireTag = Tag.objectIdentifier then .expectedOid index idx
      else if entry.wireTag = Tag.bitString then .expectedBitString index idx
      else .unexpectedTag index idx tag

def judge (destination : Destination) (entry : Entry) (index idx : Nat) (found : Option Tag)
    (taken : Bool) : Outcome (Option Tag) :=
  let otherwise : Outcome (Option Tag) :=
    if entry.presence = .required then refuse (missing destination entry index idx found)
    else .ok none
  match found with
  | none => otherwise
  | some tag =>
    if taken then otherwise
    else if destination.admits entry tag then .ok (some tag)
    else if destination.wrongForm entry tag then refuse (.unexpectedTag index idx tag)
    else otherwise

def Walk.ascend (walk : Walk) (depth : Nat) : Outcome Walk :=
  if depth < walk.level then do
    closeLevels walk.ends depth walk.idx walk.level
    return { walk with level := depth }
  else .ok walk

def Walk.setMet (walk : Walk) (group : Option Nat) (found : Bool) : Outcome Walk :=
  match group with
  | none => .ok walk
  | some g => do
    let met ← update walk.met g found
    return { walk with met := met }

def Walk.isMet (walk : Walk) (group : Option Nat) : Outcome Bool :=
  match group with
  | none => .ok false
  | some g => fetch walk.met g

def Walk.arrive (walk : Walk) (schema : Schema) (i : Nat) (entry : Entry) : Outcome Walk := do
  let walk ← walk.ascend entry.depth
  if schema.startsRun i then walk.setMet entry.choiceGroup false else return walk

def Walk.peek (walk : Walk) (input : Bytes) (depth : Nat) : Outcome (Option Tag) := do
  let stop ← fetch walk.ends depth
  if walk.idx < stop then
    let tag ← fetch input walk.idx
    return some tag
  else return none

def absentBetween (slots : List Slot) (first next idx : Nat) : List Slot :=
  slots.mapIdx fun j slot => if first ≤ j ∧ j < next then slot.markAbsent idx else slot

def markAbsent (slots : List Slot) (first next idx : Nat) : Outcome (List Slot) :=
  if first ≤ next ∧ next ≤ slots.length then .ok (absentBetween slots first next idx) else fault

theorem markAbsent_eq_ok_iff {slots marked : List Slot} {first next idx : Nat} :
    markAbsent slots first next idx = .ok marked ↔
      first ≤ next ∧ next ≤ slots.length ∧ absentBetween slots first next idx = marked := by
  unfold markAbsent fault
  split
  · simp_all
  · rename_i h
    simpa using fun hnext hslots => absurd ⟨hnext, hslots⟩ h

def Walk.pass (walk : Walk) (schema : Schema) (i : Nat) (entry : Entry) :
    Attempt (List Slot) Walk := do
  let next := schema.subtreeEnd i
  let slots ← (markAbsent walk.slots i next walk.idx).leaving walk.slots
  let found ← (walk.isMet entry.choiceGroup).leaving slots
  match entry.choiceGroup with
  | none => return { walk with slots := slots }
  | some group =>
    if schema.endsRun i next ∧ !found then
      (refuse (.missingChoice group)).leaving slots
    else return { walk with slots := slots }

def Walk.take (walk : Walk) (options : Options) (input : Bytes) (i : Nat) (entry : Entry)
    (slot : Slot) (tag : Tag) : Attempt (List Slot) Walk := do
  let bound ← (fetch walk.ends entry.depth).leaving walk.slots
  match slot.fill options entry input walk.idx bound tag i with
  | .error stop => .error ⟨stop.failure, walk.slots.set i stop.left⟩
  | .ok (slot, item) =>
    let slots := walk.slots.set i slot
    let walk ← (if entry.headerOnly then do
        let ends ← update walk.ends (entry.depth + 1) item.stop
        return ⟨slots, ends, walk.met, item.contentStart, entry.depth + 1⟩
      else return ⟨slots, walk.ends, walk.met, item.stop, entry.depth⟩ : Outcome Walk).leaving slots
    (walk.setMet entry.choiceGroup true).leaving slots

def Walk.visit (walk : Walk) (options : Options) (schema : Schema) (input : Bytes) (i : Nat)
    (entry : Entry) : Attempt (List Slot) (Walk × Bool) := do
  let walk ← (walk.arrive schema i entry).leaving walk.slots
  let slot ← (fetch walk.slots i).leaving walk.slots
  let found ← (walk.peek input entry.depth).leaving walk.slots
  let taken ← (walk.isMet entry.choiceGroup).leaving walk.slots
  match ← (judge slot.destination entry i walk.idx found taken).leaving walk.slots with
  | none => do
    let walk ← walk.pass schema i entry
    return (walk, false)
  | some tag => do
    let walk ← walk.take options input i entry slot tag
    return (walk, true)

def Walk.run (walk : Walk) (options : Options) (schema : Schema) (input : Bytes) (i : Nat) :
    Attempt (List Slot) Walk :=
  if h : i < schema.length then do
    let (next, found) ← walk.visit options schema input i schema[i]
    if found then next.run options schema input (i + 1)
    else next.run options schema input (schema.subtreeEnd i)
  else .ok walk
termination_by schema.length - i
decreasing_by
  · omega
  · have := schema.lt_subtreeEnd i
    omega

def Walk.finish (walk : Walk) (complete : Bool) (stop : Nat) : Outcome Unit :=
  if complete then do
    closeLevels walk.ends 0 walk.idx walk.level
    if walk.idx = stop then return ()
    else refuse (.trailingData stop walk.idx)
  else .ok ()

structure Session where
  cursor : Nat
  slots : List Slot
deriving DecidableEq, Repr

def Session.check (session : Session) (schema : Schema) (stop : Nat) : Outcome Unit := do
  schema.validate
  if session.slots.length ≠ schema.length then
    refuse (.internalError (.slotCount session.slots.length schema.length))
  else if stop < session.cursor then
    refuse (.truncatedInput (.cursorPastEnd session.cursor stop))
  else return ()

/-- Decodes the input from the cursor up to `maxIndex`. The cursor moves only on success; with
`complete`, everything up to `maxIndex` has to be taken. -/
def Session.decode (session : Session) (options : Options) (schema : Schema) (input : Bytes)
    (complete : Bool) (maxIndex : Nat) : Attempt Session Session := do
  let stop := min maxIndex input.length
  (session.check schema stop).leaving session
  let cleared := session.slots.map Slot.clear
  match (Walk.begin cleared session.cursor stop).run options schema input 0 with
  | .error interrupted => .error ⟨interrupted.failure, ⟨session.cursor, interrupted.left⟩⟩
  | .ok walk =>
    (walk.finish complete stop).leaving ⟨session.cursor, walk.slots⟩
    return ⟨walk.idx, walk.slots⟩

end DerTemplate.Decoding

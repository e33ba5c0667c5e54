import DerTemplate.Outcome
import DerTemplate.Schema.Entry

namespace DerTemplate

def depthLimit : Nat := 16

def choiceGroupLimit : Nat := 8

namespace Schema

def checkNesting (i : Nat) (entry : Entry) : Option Entry → Outcome Unit
  | none => if entry.depth = 0 then .ok () else refuse (.internalError .firstDepth)
  | some before =>
    if before.depth < entry.depth ∧ (entry.depth ≠ before.depth + 1 ∨ !before.headerOnly) then
      refuse (.internalError (.nesting i (i - 1)))
    else .ok ()

def checkGroup (i : Nat) (entry : Entry) : Outcome Unit :=
  match entry.choiceGroup with
  | none => .ok ()
  | some group =>
    if group = 0 ∨ choiceGroupLimit < group then
      refuse (.internalError (.choiceGroup i group))
    else .ok ()

def checkFrom (i : Nat) (before : Option Entry) : List Entry → Outcome Unit
  | [] => .ok ()
  | entry :: rest =>
    if depthLimit ≤ entry.depth then
      refuse (.internalError (.depth i entry.depth depthLimit))
    else do
      checkNesting i entry before
      checkGroup i entry
      checkFrom (i + 1) (some entry) rest

/-- The rules that every use of a schema relies on: depths grow by one at a time and only below a
header-only entry, they stay below `depthLimit`, and choice groups are in range. -/
def validate (schema : Schema) : Outcome Unit := checkFrom 0 none schema

def subtreeEnd (schema : Schema) (i : Nat) : Nat :=
  match schema[i]? with
  | none => i + 1
  | some entry =>
    i + 1 + ((schema.drop (i + 1)).takeWhile fun e => entry.depth < e.depth).length

theorem lt_subtreeEnd (schema : Schema) (i : Nat) : i < schema.subtreeEnd i := by
  unfold subtreeEnd
  split <;> omega

theorem subtreeEnd_le {schema : Schema} {i : Nat} (hi : i < schema.length) :
    schema.subtreeEnd i ≤ schema.length := by
  have hnested := fun (e : Entry) =>
    ((schema.drop (i + 1)).takeWhile_sublist fun d => e.depth < d.depth).length_le
  rw [List.length_drop] at hnested
  unfold subtreeEnd
  split
  · exact hi
  · rename_i entry _
    have := hnested entry
    omega

/-- The indices of the entries that get shallower, going up a reversed list from `depth`. -/
def climb (depth : Nat) : List Entry → List Nat
  | [] => []
  | entry :: above =>
    if entry.depth < depth then above.length :: climb entry.depth above else climb depth above

def ancestors (schema : Schema) (i : Nat) : List Nat :=
  match schema[i]? with
  | none => []
  | some entry => climb entry.depth (schema.take i).reverse

def startsRun (schema : Schema) (i : Nat) : Bool :=
  match schema[i]? with
  | none => true
  | some entry =>
    match (schema.take i).reverse.find? fun e => e.depth ≤ entry.depth with
    | none => true
    | some e => e.depth != entry.depth || e.presence != entry.presence

def endsRun (schema : Schema) (i next : Nat) : Bool :=
  match schema[i]?, schema[next]? with
  | some entry, some e => e.depth != entry.depth || e.presence != entry.presence
  | _, _ => true

end Schema

end DerTemplate

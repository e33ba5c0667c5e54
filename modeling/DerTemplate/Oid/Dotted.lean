import DerTemplate.Bytes

namespace DerTemplate.Oid

def checkGroups : Bool → Bytes → Outcome Unit
  | atStart, [] => if atStart then .ok () else refuse (.invalidEncoding .oidUnfinished)
  | atStart, b :: rest =>
    if atStart ∧ b = 0x80 then refuse (.invalidEncoding .oidLeadingGroup)
    else checkGroups (b &&& 0x80 == 0) rest

def checkContent (content : Bytes) : Outcome Unit :=
  if content = [] then refuse (.invalidEncoding .emptyOid) else checkGroups true content

def groupsBefore (n : Nat) (rest : Bytes) : Bytes :=
  if n = 0 then rest else groupsBefore (n / 128) (UInt8.ofNat (n % 128 + 128) :: rest)
termination_by n

def subidentifier (n : Nat) : Bytes := groupsBefore (n / 128) [UInt8.ofNat (n % 128)]

def fields : List Char → List (List Char)
  | [] => [[]]
  | c :: rest =>
    match fields rest with
    | [] => [[c]]
    | field :: more => if c = '.' then [] :: field :: more else (c :: field) :: more

def isNumeral (field : List Char) : Bool :=
  field.all Char.isDigit && (field.head?.any (· != '0') || field.length == 1)

def numeralValue (field : List Char) : Nat :=
  field.foldl (fun n c => n * 10 + (c.toNat - '0'.toNat)) 0

def isDotted : List (List Char) → Bool
  | root :: second :: more =>
    [['0'], ['1'], ['2']].contains root && (second :: more).all isNumeral
  | _ => false

def readArc (field : List Char) : Outcome Nat :=
  if numeralValue field < wordLimit then .ok (numeralValue field)
  else refuse (.invalidEncoding (.oidArcTooLarge (String.ofList field)))

def ofDotted (dotted : String) : Outcome Bytes :=
  if isDotted (fields dotted.toList) then do
    match ← (fields dotted.toList).mapM readArc with
    | root :: second :: more =>
      if root < 2 ∧ 40 ≤ second then refuse (.invalidEncoding (.oidSecondArc dotted))
      else if wordLimit ≤ root * 40 + second then
        refuse (.invalidEncoding (.oidArcTooLarge dotted))
      else return subidentifier (root * 40 + second) ++ more.flatMap subidentifier
    | _ => fault
  else refuse (.invalidEncoding (.oidFormat dotted))

def subidentifiers (value : Nat) : Bytes → Outcome (List Nat)
  | [] => .ok []
  | b :: rest =>
    if wordLimit ≤ value * 128 then refuse (.invalidEncoding .oidOverflow)
    else if b &&& 0x80 = 0 then do
      let more ← subidentifiers 0 rest
      return (value * 128 + b.toNat) :: more
    else subidentifiers (value * 128 + (b &&& 0x7F).toNat) rest

def arcs : List Nat → List Nat
  | [] => []
  | first :: more =>
    if first < 40 then 0 :: first :: more
    else if first < 80 then 1 :: (first - 40) :: more
    else 2 :: (first - 80) :: more

def joinFields : List (List Char) → List Char
  | [] => []
  | [field] => field
  | field :: more => field ++ '.' :: joinFields more

def toDotted (content : Bytes) : Outcome String := do
  checkContent content
  let found ← subidentifiers 0 content
  return String.ofList (joinFields ((arcs found).map (Nat.toDigits 10)))

end DerTemplate.Oid

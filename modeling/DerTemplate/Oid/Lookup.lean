import DerTemplate.Oid.Known

namespace DerTemplate.Oid

def octetSum (content : Bytes) : Outcome Nat :=
  let sum := content.foldl (fun n b => n + b.toNat) 0
  if sum < 0x100000000 then .ok sum else fault

def Category.known? (category : Category) (sum : Nat) (content : Bytes) : Option Known :=
  category.table.find? fun known => known.sum == sum && known.der == content

def Category.bySum? (category : Category) (sum : Nat) : Option Known :=
  category.table.find? fun known => known.sum == sum

def Category.verify (category : Category) (sum : Nat) (content : Bytes) : Outcome Unit :=
  if category = .ignore ∨ (category.known? sum content).isSome then .ok ()
  else refuse (.unknownOid category sum)

end DerTemplate.Oid

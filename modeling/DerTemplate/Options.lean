
namespace DerTemplate

inductive IntegerPolicy where
  | strict
  /-- Zero octets in front are accepted, and the first of them is dropped. -/
  | leadingZeros
deriving DecidableEq, Repr

structure Options where
  integerPolicy : IntegerPolicy
  verifyOids : Bool
deriving DecidableEq, Repr

namespace Options

def strict : Options := ⟨.strict, true⟩

def lenient : Options := ⟨.leadingZeros, false⟩

end Options

end DerTemplate

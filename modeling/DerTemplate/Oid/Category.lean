
namespace DerTemplate.Oid

inductive Category where
  | ignore
  | hash | sig | key | curve | certExt | extKeyUsage | authInfo | ocsp | name
deriving DecidableEq, Repr

def Category.label : Category → String
  | .ignore => "ignore"
  | .hash => "hash"
  | .sig => "signature"
  | .key => "key"
  | .curve => "curve"
  | .certExt => "certificate extension"
  | .extKeyUsage => "extended key usage"
  | .authInfo => "authority info access"
  | .ocsp => "ocsp"
  | .name => "name attribute"

end DerTemplate.Oid

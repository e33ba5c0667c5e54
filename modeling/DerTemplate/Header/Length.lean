import DerTemplate.Bytes

/-!
A length below 128 is one octet; a longer one is an octet `0x80 + count` and `count` octets that
hold the number. `0x80` alone is the indefinite form, whose content ends at an End-of-Content.
-/

namespace DerTemplate.Header

inductive Length where
  | definite (length : Nat)
  | indefinite
deriving DecidableEq, Repr

def lengthOctetLimit : Nat := 8

def readAnyLength (input : Bytes) (idx bound : Nat) : Outcome (Length × Nat) :=
  if min bound input.length ≤ idx then refuse (.truncatedInput (.noLength idx))
  else do
    let first ← fetch input idx
    if first &&& 0x80 = 0 then return (.definite first.toNat, idx + 1)
    else if first = 0x80 then return (.indefinite, idx + 1)
    else
      let count := (first &&& 0x7F).toNat
      if lengthOctetLimit < count then refuse (.invalidEncoding (.lengthFieldTooLong count idx))
      else if min bound input.length < idx + 1 + count then
        refuse (.truncatedInput (.lengthField (idx + 1)))
      else
        let digits ← input.slice (idx + 1) (idx + 1 + count)
        if lengthLimit ≤ digits.toNat then
          refuse (.invalidEncoding (.lengthOverflow digits.toNat idx))
        else return (.definite digits.toNat, idx + 1 + count)

theorem lt_of_readAnyLength {input : Bytes} {idx bound next : Nat} {length : Length}
    (h : readAnyLength input idx bound = .ok (length, next)) :
    idx < input.length ∧ idx < next := by
  unfold readAnyLength at h
  split at h
  · cases h
  · obtain ⟨first, hfirst, h⟩ := bind_eq_ok_iff.mp h
    refine ⟨lt_length_of_fetch hfirst, ?_⟩
    split at h
    · cases h; omega
    · split at h
      · cases h; omega
      · dsimp only at h
        split at h
        · cases h
        · split at h
          · cases h
          · obtain ⟨digits, _, h⟩ := bind_eq_ok_iff.mp h
            split at h
            · cases h
            · cases h; omega

/-- The definite length at `idx` and the position after it. With `check`, the content has to end
by `bound`. -/
def readLength (input : Bytes) (idx bound : Nat) (check : Bool) : Outcome (Nat × Nat) := do
  match ← readAnyLength input idx bound with
  | (.indefinite, _) => refuse (.invalidEncoding (.indefiniteLength idx))
  | (.definite length, next) =>
    if check ∧ min bound input.length < next + length then
      refuse (.truncatedInput (.pastBound length idx (min bound input.length)))
    else return (length, next)

def lengthOctets (length : Nat) : Bytes :=
  if length < 0x80 then [UInt8.ofNat length]
  else UInt8.ofNat (0x80 + octetCount length) :: Bytes.ofNat (octetCount length) length

def lengthSize (length : Nat) : Nat :=
  if length < 0x80 then 1 else 1 + octetCount length

theorem length_lengthOctets (length : Nat) : (lengthOctets length).length = lengthSize length := by
  unfold lengthOctets lengthSize
  split
  · rfl
  · simp [Bytes.length_ofNat, Nat.add_comm]

end DerTemplate.Header

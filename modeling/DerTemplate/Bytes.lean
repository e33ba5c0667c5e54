import DerTemplate.Outcome

namespace DerTemplate

abbrev Bytes := List UInt8

def bitLength (n : Nat) : Nat := if n = 0 then 0 else n.log2 + 1

def octetCount (n : Nat) : Nat := max 1 ((bitLength n + 7) / 8)

namespace Bytes

def toNat (bytes : Bytes) : Nat := bytes.foldl (fun n b => n * 256 + b.toNat) 0

def digitsBefore : Nat → Nat → Bytes → Bytes
  | 0, _, rest => rest
  | width + 1, n, rest => digitsBefore width (n / 256) (UInt8.ofNat (n % 256) :: rest)

def ofNat (width n : Nat) : Bytes := digitsBefore width n []

def toInt : Bytes → Int
  | [] => 0
  | b :: rest =>
    if b &&& 0x80 = 0 then toNat (b :: rest)
    else toNat (b :: rest) - Nat.pow 256 (rest.length + 1)

def intBefore (n : Int) (rest : Bytes) : Bytes :=
  if -128 ≤ n ∧ n < 128 then UInt8.ofNat (n % 256).toNat :: rest
  else intBefore (n / 256) (UInt8.ofNat (n % 256).toNat :: rest)
termination_by n.natAbs
decreasing_by omega

def ofInt (n : Int) : Bytes := intBefore n []

def slice (bytes : Bytes) (start stop : Nat) : Outcome Bytes :=
  if start ≤ stop ∧ stop ≤ bytes.length then .ok ((bytes.drop start).take (stop - start))
  else fault

/-- A buffer of zeros. No buffer takes more than half of the address space. -/
def zeros (length : Nat) : Outcome Bytes :=
  if length < lengthLimit then .ok (List.replicate length 0) else fault

def overlay (bytes : Bytes) (pos : Nat) (new : Bytes) : Bytes :=
  bytes.take pos ++ new ++ bytes.drop (pos + new.length)

theorem slice_eq_ok_iff {bytes part : Bytes} {start stop : Nat} :
    bytes.slice start stop = .ok part ↔
      start ≤ stop ∧ stop ≤ bytes.length ∧ (bytes.drop start).take (stop - start) = part := by
  unfold slice fault
  split
  · simp_all
  · rename_i h
    simpa using fun hstart hstop => absurd ⟨hstart, hstop⟩ h

theorem length_overlay {bytes new : Bytes} {pos : Nat} (h : pos + new.length ≤ bytes.length) :
    (bytes.overlay pos new).length = bytes.length := by
  simp only [overlay, List.length_append, List.length_take, List.length_drop]
  omega

theorem length_digitsBefore (width n : Nat) (rest : Bytes) :
    (digitsBefore width n rest).length = width + rest.length := by
  induction width generalizing n rest with
  | zero => simp [digitsBefore]
  | succ width ih => simp [digitsBefore, ih]; omega

theorem length_ofNat (width n : Nat) : (ofNat width n).length = width := by
  simp [ofNat, length_digitsBefore]

end Bytes

end DerTemplate

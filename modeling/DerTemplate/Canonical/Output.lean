import DerTemplate.Canonical.Survey

namespace DerTemplate.Canonical

open Header (Length)

structure Sink where
  buffer : Option Bytes
  pos : Nat
deriving DecidableEq, Repr

namespace Sink

def counting : Sink := ⟨none, 0⟩

def writing (buffer : Bytes) : Sink := ⟨some buffer, 0⟩

def put (sink : Sink) (bytes : Bytes) : Attempt Sink Sink := do
  let stop ← (Word.add sink.pos bytes.length).leaving sink
  match sink.buffer with
  | none => return ⟨none, stop⟩
  | some buffer =>
    if stop ≤ buffer.length then return ⟨some (buffer.overlay sink.pos bytes), stop⟩
    else (refuse (.bufferTooSmall stop buffer.length)).leaving sink

def copy (sink : Sink) (input : Bytes) (start stop : Nat) : Attempt Sink Sink := do
  let part ← (input.slice start stop).leaving sink
  sink.put part

end Sink

/-- A string whose fragments are put one after the other: the size of their lead octets, and its
content end unless it ends at an End-of-Content. -/
structure Merged where
  leadSize : Nat
  stop : Option Nat
deriving DecidableEq, Repr

namespace Merged

def endAt (string : Merged) (input : Bytes) (idx : Nat) : Outcome (Option Nat) :=
  match string.stop with
  | some stop => .ok (if idx = stop then some idx else none)
  | none => do
    let first ← fetch input idx
    return if first = Tag.endOfContent then some (idx + 2) else none

def copyFragment (string : Merged) (input : Bytes) (start : Nat) (sink : Sink) :
    Attempt Sink (Nat × Sink) := do
  match ← (Header.readAnyLength input (start + 1) input.length).leaving sink with
  | (.indefinite, _) => (refuse (.internalError (.indefiniteFragment start))).leaving sink
  | (.definite length, pos) =>
    let stop ← (Word.add pos length).leaving sink
    let sink ← sink.copy input (pos + string.leadSize) stop
    return (stop, sink)

theorem lt_of_copyFragment {string : Merged} {input : Bytes} {start next : Nat}
    {sink sink' : Sink} (h : string.copyFragment input start sink = .ok (next, sink')) :
    start < input.length ∧ start < next := by
  obtain ⟨⟨length, pos⟩, hread, h⟩ := bind_eq_ok_iff.mp h
  have hlt := Header.lt_of_readAnyLength (Outcome.leaving_eq_ok_iff.mp hread)
  cases length with
  | indefinite => cases h
  | definite n =>
    obtain ⟨stop, hstop, h⟩ := bind_eq_ok_iff.mp h
    obtain ⟨copied, _, h⟩ := bind_eq_ok_iff.mp h
    have := Word.add_eq_ok_iff.mp (Outcome.leaving_eq_ok_iff.mp hstop)
    cases h
    omega

def copyFragments (string : Merged) (input : Bytes) (idx : Nat) (sink : Sink) :
    Attempt Sink (Nat × Sink) :=
  match string.endAt input idx with
  | .error failure => .error ⟨failure, sink⟩
  | .ok (some next) => .ok (next, sink)
  | .ok none =>
    match _h : string.copyFragment input idx sink with
    | .error stop => .error stop
    | .ok (next, sink) => string.copyFragments input next sink
termination_by input.length - idx
decreasing_by
  have := lt_of_copyFragment _h
  omega

theorem le_of_copyFragments {string : Merged} {input : Bytes} {idx next : Nat}
    {sink sink' : Sink} (h : string.copyFragments input idx sink = .ok (next, sink')) :
    idx ≤ next := by
  fun_induction string.copyFragments input idx sink with
  | case1 => cases h
  | case2 idx sink next' hend =>
    cases h
    unfold endAt at hend
    split at hend
    · split at hend <;> cases hend
      omega
    · obtain ⟨first, _, hend⟩ := bind_eq_ok_iff.mp hend
      split at hend <;> cases hend
      omega
  | case3 => cases h
  | case4 idx sink _ next' sink1 hcopy ih =>
    have := (lt_of_copyFragment hcopy).2
    have := ih h
    omega

end Merged

def copyPrimitive (input : Bytes) (start pos : Nat) (length : Length) (sink : Sink) (next : Nat) :
    Attempt Sink (Nat × Sink) :=
  match length with
  | .indefinite => (refuse (.internalError (.indefinitePrimitive start))).leaving sink
  | .definite length => do
    let sink ← sink.copy input start next
    let sink ← sink.put (Header.lengthOctets length)
    let stop ← (Word.add pos length).leaving sink
    let sink ← sink.copy input pos stop
    return (stop, sink)

def copyUnchanged (input : Bytes) (start pos : Nat) (length : Length) (sink : Sink) :
    Attempt Sink (Nat × Sink) :=
  match length with
  | .indefinite => (refuse (.internalError (.noRecord start))).leaving sink
  | .definite length => do
    let stop ← (Word.add pos length).leaving sink
    let sink ← sink.copy input start stop
    return (stop, sink)

def contentStop (pos : Nat) : Length → Outcome (Option Nat)
  | .indefinite => .ok none
  | .definite length => do
    let stop ← Word.add pos length
    return some stop

def copyMerged (input : Bytes) (tag : Tag) (start contentStart : Nat) (length : Length)
    (pos : Nat) (record : Record) (sink : Sink) : Attempt Sink (Nat × Sink) := do
  let sink ← sink.put [tag.base]
  let sink ← sink.copy input (start + 1) contentStart
  let sink ← sink.put (Header.lengthOctets record.contentLength)
  let bits := tag.base == Tag.bitString
  let sink ← (if bits then sink.put [record.unusedBits] else .ok sink : Attempt Sink Sink)
  let stop ← (contentStop pos length).leaving sink
  Merged.copyFragments ⟨if bits then 1 else 0, stop⟩ input pos sink

def copyItem (input : Bytes) (ledger : Ledger) (idx : Nat) (sink : Sink) :
    Attempt Sink (Nat × Sink) := do
  let tag : Tag ← (fetch input idx).leaving sink
  if tag = Tag.endOfContent then return (idx + 2, sink)
  else
    let tagSize ← (Header.identifierSize input idx input.length).leaving sink
    let tagStop := idx + tagSize
    let (length, pos) ← (Header.readAnyLength input tagStop input.length).leaving sink
    if tag.isConstructed then
      match ledger.find? idx with
      | none => copyUnchanged input idx pos length sink
      | some record =>
        if tag.isFragmentable then copyMerged input tag idx tagStop length pos record sink
        else
          let sink ← sink.copy input idx tagStop
          let sink ← sink.put (Header.lengthOctets record.contentLength)
          return (pos, sink)
    else copyPrimitive input idx pos length sink tagStop

theorem le_of_copyPrimitive {input : Bytes} {start pos stop next : Nat} {length : Length}
    {sink sink' : Sink}
    (h : copyPrimitive input start pos length sink stop = .ok (next, sink')) : pos ≤ next := by
  cases length with
  | indefinite => cases h
  | definite n =>
    obtain ⟨_, _, h⟩ := bind_eq_ok_iff.mp h
    obtain ⟨_, _, h⟩ := bind_eq_ok_iff.mp h
    obtain ⟨_, hstop, h⟩ := bind_eq_ok_iff.mp h
    obtain ⟨_, _, h⟩ := bind_eq_ok_iff.mp h
    have := Word.add_eq_ok_iff.mp (Outcome.leaving_eq_ok_iff.mp hstop)
    cases h
    omega

theorem le_of_copyUnchanged {input : Bytes} {start pos next : Nat} {length : Length}
    {sink sink' : Sink} (h : copyUnchanged input start pos length sink = .ok (next, sink')) :
    pos ≤ next := by
  cases length with
  | indefinite => cases h
  | definite n =>
    obtain ⟨_, hstop, h⟩ := bind_eq_ok_iff.mp h
    obtain ⟨_, _, h⟩ := bind_eq_ok_iff.mp h
    have := Word.add_eq_ok_iff.mp (Outcome.leaving_eq_ok_iff.mp hstop)
    cases h
    omega

theorem le_of_copyMerged {input : Bytes} {tag : Tag} {start contentStart pos next : Nat}
    {length : Length} {record : Record} {sink sink' : Sink}
    (h : copyMerged input tag start contentStart length pos record sink = .ok (next, sink')) :
    pos ≤ next := by
  obtain ⟨_, _, h⟩ := bind_eq_ok_iff.mp h
  obtain ⟨_, _, h⟩ := bind_eq_ok_iff.mp h
  obtain ⟨_, _, h⟩ := bind_eq_ok_iff.mp h
  obtain ⟨_, _, h⟩ := bind_eq_ok_iff.mp h
  obtain ⟨_, _, h⟩ := bind_eq_ok_iff.mp h
  exact Merged.le_of_copyFragments h

theorem lt_of_copyItem {input : Bytes} {ledger : Ledger} {idx next : Nat} {sink sink' : Sink}
    (h : copyItem input ledger idx sink = .ok (next, sink')) : idx < next := by
  obtain ⟨tag, _, h⟩ := bind_eq_ok_iff.mp h
  split at h
  · cases h; omega
  · obtain ⟨tagSize, _, h⟩ := bind_eq_ok_iff.mp h
    obtain ⟨⟨length, pos⟩, hread, h⟩ := bind_eq_ok_iff.mp h
    have hlt := (Header.lt_of_readAnyLength (Outcome.leaving_eq_ok_iff.mp hread)).2
    dsimp only at h
    split at h
    · split at h
      · have := le_of_copyUnchanged h
        omega
      · split at h
        · have := le_of_copyMerged h
          omega
        · obtain ⟨_, _, h⟩ := bind_eq_ok_iff.mp h
          obtain ⟨_, _, h⟩ := bind_eq_ok_iff.mp h
          cases h
          omega
    · have := le_of_copyPrimitive h
      omega

def copyFrom (input : Bytes) (ledger : Ledger) (idx : Nat) (sink : Sink) : Attempt Sink Sink :=
  if idx < input.length then
    match _h : copyItem input ledger idx sink with
    | .error stop => .error stop
    | .ok (next, sink) => copyFrom input ledger next sink
  else .ok sink
termination_by input.length - idx
decreasing_by
  have := lt_of_copyItem _h
  omega

def count (input : Bytes) (ledger : Ledger) : Outcome Nat := do
  let sink ← (copyFrom input ledger 0 .counting).outcome
  return sink.pos

def size (input : Bytes) : Outcome Nat := do
  let ledger ← survey input
  count input ledger

def write (input buffer : Bytes) : Attempt Bytes (Nat × Bytes) := do
  let ledger ← (survey input).leaving buffer
  let need ← (count input ledger).leaving buffer
  if buffer.length < need then (refuse (.bufferTooSmall need buffer.length)).leaving buffer
  else
    match copyFrom input ledger 0 (.writing buffer) with
    | .error stop => .error ⟨stop.failure, stop.left.buffer.getD buffer⟩
    | .ok sink => return (need, sink.buffer.getD buffer)

def convert (input : Bytes) : Outcome Bytes := do
  let need ← size input
  let buffer ← Bytes.zeros need
  let (_, written) ← (write input buffer).outcome
  return written

end DerTemplate.Canonical

import DerTemplate.Canonical.Ledger
import DerTemplate.Content.BitString
import DerTemplate.Header.Identifier

namespace DerTemplate.Canonical

open Header (Length)

def atEndOfContent (input : Bytes) (idx limit : Nat) : Outcome Bool := do
  let first ← fetch input idx
  if first ≠ Tag.endOfContent then return false
  else if idx + 1 < limit then
    let second ← fetch input (idx + 1)
    if second = 0 then return true else refuse (.invalidEncoding (.badEndOfContent idx))
  else refuse (.invalidEncoding (.badEndOfContent idx))

/-- The length at `idx`, if it is definite, and the position after it. The content has to end by
`limit`; `start` is where the item begins. -/
def readContentLength (input : Bytes) (idx limit start : Nat) : Outcome (Option Nat × Nat) := do
  match ← Header.readAnyLength input idx limit with
  | (.indefinite, next) => return (none, next)
  | (.definite length, next) =>
    let room ← Word.sub limit next
    if room < length then refuse (.truncatedInput (.pastParent start length))
    else return (some length, next)

/-- A string whose fragments are gone over: its tag, its content end unless it ends at an
End-of-Content, and the bound of what is around it. -/
structure Fragmented where
  tag : Tag
  stop : Option Nat
  bound : Nat
deriving DecidableEq, Repr

namespace Fragmented

def limit (string : Fragmented) : Nat := string.stop.getD string.bound

def isBits (string : Fragmented) : Bool := string.tag.base == Tag.bitString

def addFragment (string : Fragmented) (content : Bytes) (start : Nat) (unused : UInt8)
    (ledger : Ledger) : Outcome (UInt8 × Ledger) :=
  if string.isBits then
    if unused ≠ 0 then refuse (.invalidEncoding (.fragmentAfterPartial start))
    else do
      let unused ← Content.unusedBitCount content
      let length ← Word.sub content.length 1
      let ledger ← ledger.add length true
      return (unused, ledger)
  else do
    let ledger ← ledger.add content.length true
    return (unused, ledger)

def readFragment (string : Fragmented) (input : Bytes) (start : Nat) (unused : UInt8)
    (ledger : Ledger) : Outcome (Nat × UInt8 × Ledger) := do
  let tag ← fetch input start
  -- One octet is compared, also where a tag number goes on behind it.
  if tag ≠ string.tag.base then
    refuse (.invalidEncoding (.fragmentTag tag start string.tag))
  else
    match ← readContentLength input (start + 1) string.limit start with
    | (none, _) => refuse (.invalidEncoding (.indefiniteFragment start))
    | (some length, next) =>
      let content ← input.slice next (next + length)
      let (unused, ledger) ← string.addFragment content start unused ledger
      return (next + length, unused, ledger)

def endAt (string : Fragmented) (input : Bytes) (idx : Nat) : Outcome (Option Nat) :=
  match string.stop with
  | some stop =>
    if stop = idx then .ok (some idx)
    else if string.limit ≤ idx then refuse (.invalidEncoding .unterminatedString)
    else .ok none
  | none =>
    if string.limit ≤ idx then refuse (.invalidEncoding .unterminatedString)
    else do
      let atEnd ← atEndOfContent input idx string.limit
      return if atEnd then some (idx + 2) else none

end Fragmented

theorem lt_of_readContentLength {input : Bytes} {idx limit start next : Nat}
    {length : Option Nat} (h : readContentLength input idx limit start = .ok (length, next)) :
    idx < input.length ∧ idx < next := by
  obtain ⟨⟨found, pos⟩, hread, h⟩ := bind_eq_ok_iff.mp h
  have hlt := Header.lt_of_readAnyLength hread
  cases found with
  | indefinite => cases h; exact hlt
  | definite n =>
    obtain ⟨room, _, h⟩ := bind_eq_ok_iff.mp h
    split at h
    · cases h
    · cases h; exact hlt

namespace Fragmented

theorem lt_of_readFragment {string : Fragmented} {input : Bytes} {start next : Nat}
    {unused unused' : UInt8} {ledger ledger' : Ledger}
    (h : string.readFragment input start unused ledger = .ok (next, unused', ledger')) :
    start < input.length ∧ start < next := by
  obtain ⟨tag, htag, h⟩ := bind_eq_ok_iff.mp h
  refine ⟨lt_length_of_fetch htag, ?_⟩
  split at h
  · cases h
  · obtain ⟨⟨length, pos⟩, hread, h⟩ := bind_eq_ok_iff.mp h
    have hlt := (lt_of_readContentLength hread).2
    cases length with
    | none => cases h
    | some n =>
      obtain ⟨content, _, h⟩ := bind_eq_ok_iff.mp h
      obtain ⟨⟨_, _⟩, _, h⟩ := bind_eq_ok_iff.mp h
      cases h
      omega

def readFragments (string : Fragmented) (input : Bytes) (idx : Nat) (unused : UInt8)
    (ledger : Ledger) : Outcome (Nat × UInt8 × Ledger) :=
  match string.endAt input idx with
  | .error failure => .error failure
  | .ok (some next) => .ok (next, unused, ledger)
  | .ok none =>
    match _h : string.readFragment input idx unused ledger with
    | .error failure => .error failure
    | .ok (next, unused, ledger) => string.readFragments input next unused ledger
termination_by input.length - idx
decreasing_by
  have := lt_of_readFragment _h
  omega

theorem le_of_endAt {string : Fragmented} {input : Bytes} {idx next : Nat}
    (h : string.endAt input idx = .ok (some next)) : idx ≤ next := by
  unfold endAt at h
  split at h
  · split at h
    · cases h; omega
    · split at h <;> cases h
  · split at h
    · cases h
    · obtain ⟨atEnd, _, h⟩ := bind_eq_ok_iff.mp h
      cases atEnd <;> cases h
      omega

theorem le_of_readFragments {string : Fragmented} {input : Bytes} {idx next : Nat}
    {unused unused' : UInt8} {ledger ledger' : Ledger}
    (h : string.readFragments input idx unused ledger = .ok (next, unused', ledger')) :
    idx ≤ next := by
  fun_induction string.readFragments input idx unused ledger with
  | case1 => cases h
  | case2 idx unused ledger next' hend =>
    cases h
    exact le_of_endAt hend
  | case3 => cases h
  | case4 idx unused ledger _ next' unused1 ledger1 hread ih =>
    have := (lt_of_readFragment hread).2
    have := ih h
    omega

def merge (string : Fragmented) (input : Bytes) (idx : Nat) (ledger : Ledger) :
    Outcome (Nat × Ledger) := do
  let (next, unused, ledger) ← string.readFragments input idx 0 ledger
  let ledger ← (if string.isBits then ledger.add 1 true else .ok ledger : Outcome Ledger)
  return (next, ledger.markMerged unused)

end Fragmented

def Ledger.openAt (ledger : Ledger) (start tagSize pos bound : Nat) (length : Option Nat) :
    Outcome Ledger :=
  match length with
  | some length => ledger.openDefinite start tagSize (pos - start) (pos + length)
  | none => ledger.openIndefinite start tagSize bound

def surveyItem (input : Bytes) (start bound : Nat) (ledger : Ledger) :
    Outcome (Nat × Ledger) := do
  let tag : Tag ← fetch input start
  let tagSize ← Header.identifierSize input start bound
  let (length, pos) ← readContentLength input (start + tagSize) bound start
  if tag.isConstructed then
    let ledger ← ledger.openAt start tagSize pos bound length
    if tag.isFragmentable then
      let string : Fragmented := ⟨tag, length.map (pos + ·), bound⟩
      let (next, ledger) ← string.merge input pos ledger
      let ledger ← ledger.close.outcome
      return (next, ledger)
    else return (pos, ledger)
  else
    match length with
    | none => refuse (.invalidEncoding (.indefinitePrimitive start))
    | some length =>
      let header := tagSize + Header.lengthSize length
      let size ← Word.add header length
      let ledger ← ledger.add size (header != pos - start)
      return (pos + length, ledger)

def surveyStep (input : Bytes) (idx : Nat) (ledger : Ledger) : Outcome (Option Nat × Ledger) := do
  let ledger ← (ledger.closeAt idx).outcome
  let bound := ledger.bound input.length
  if bound ≤ idx then
    if ledger.hasOpen then refuse (.invalidEncoding (.missingEndOfContent idx))
    else return (none, ledger)
  else
    let atEnd ← atEndOfContent input idx bound
    if atEnd then
      if ledger.insideIndefinite then
        let ledger ← ledger.close.outcome
        return (some (idx + 2), ledger)
      else refuse (.invalidEncoding (.strayEndOfContent idx))
    else
      let (next, ledger) ← surveyItem input idx bound ledger
      return (some next, ledger)

theorem lt_of_surveyItem {input : Bytes} {start bound next : Nat} {ledger ledger' : Ledger}
    (h : surveyItem input start bound ledger = .ok (next, ledger')) :
    start < input.length ∧ start < next := by
  obtain ⟨tag, htag, h⟩ := bind_eq_ok_iff.mp h
  refine ⟨lt_length_of_fetch htag, ?_⟩
  obtain ⟨tagSize, _, h⟩ := bind_eq_ok_iff.mp h
  obtain ⟨⟨length, pos⟩, hread, h⟩ := bind_eq_ok_iff.mp h
  have hpos := (lt_of_readContentLength hread).2
  dsimp only at h
  split at h
  · obtain ⟨opened, _, h⟩ := bind_eq_ok_iff.mp h
    split at h
    · obtain ⟨⟨next', merged⟩, hmerge, h⟩ := bind_eq_ok_iff.mp h
      obtain ⟨popped, _, h⟩ := bind_eq_ok_iff.mp h
      obtain ⟨⟨next'', unused, ledger''⟩, hread', hmerge⟩ := bind_eq_ok_iff.mp hmerge
      have hle := Fragmented.le_of_readFragments hread'
      obtain ⟨_, _, hmerge⟩ := bind_eq_ok_iff.mp hmerge
      cases hmerge
      cases h
      omega
    · cases h; omega
  · split at h
    · cases h
    · obtain ⟨size, _, h⟩ := bind_eq_ok_iff.mp h
      obtain ⟨added, _, h⟩ := bind_eq_ok_iff.mp h
      cases h
      omega

theorem lt_of_atEndOfContent {input : Bytes} {idx limit : Nat} {atEnd : Bool}
    (h : atEndOfContent input idx limit = .ok atEnd) : idx < input.length := by
  obtain ⟨first, hfirst, _⟩ := bind_eq_ok_iff.mp h
  exact lt_length_of_fetch hfirst

theorem lt_of_surveyStep {input : Bytes} {idx next : Nat} {ledger ledger' : Ledger}
    (h : surveyStep input idx ledger = .ok (some next, ledger')) :
    idx < input.length ∧ idx < next := by
  obtain ⟨closed, _, h⟩ := bind_eq_ok_iff.mp h
  dsimp only at h
  split at h
  · split at h <;> cases h
  · obtain ⟨atEnd, hend, h⟩ := bind_eq_ok_iff.mp h
    refine ⟨lt_of_atEndOfContent hend, ?_⟩
    split at h
    · split at h
      · obtain ⟨popped, _, h⟩ := bind_eq_ok_iff.mp h
        cases h
        omega
      · cases h
    · obtain ⟨⟨next', _⟩, hitem, h⟩ := bind_eq_ok_iff.mp h
      cases h
      exact (lt_of_surveyItem hitem).2

def surveyFrom (input : Bytes) (idx : Nat) (ledger : Ledger) : Outcome Ledger :=
  match _h : surveyStep input idx ledger with
  | .error failure => .error failure
  | .ok (none, ledger) => .ok ledger.sorted
  | .ok (some next, ledger) => surveyFrom input next ledger
termination_by input.length - idx
decreasing_by
  have := lt_of_surveyStep _h
  omega

def survey (input : Bytes) : Outcome Ledger := surveyFrom input 0 .empty

end DerTemplate.Canonical

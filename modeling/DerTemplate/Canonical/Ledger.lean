import DerTemplate.Header.Length

/-!
Every constructed item is open while its content is gone over. When it is closed, it leaves a
record if its canonical form differs from what was read.
-/

namespace DerTemplate.Canonical

def indefiniteLimit : Nat := 16
def recordLimit : Nat := 128
def nestingLimit : Nat := 64

structure Record where
  start : Nat
  tagSize : Nat
  depth : Nat
  contentLength : Nat
  unusedBits : UInt8
deriving DecidableEq, Repr

def Record.headerSize (record : Record) : Outcome Nat :=
  Word.add record.tagSize (Header.lengthSize record.contentLength)

structure OpenItem where
  start : Nat
  tagSize : Nat
  headerSize : Option Nat
  /-- Where the content ends, or has to end before. -/
  bound : Nat
  contentLength : Nat
  changed : Bool
  unusedBits : UInt8
deriving DecidableEq, Repr

structure Ledger where
  records : List Record
  opened : List OpenItem
  indefinite : Nat
deriving DecidableEq, Repr

namespace Ledger

def empty : Ledger := ⟨[], [], 0⟩

def enter (ledger : Ledger) (item : OpenItem) : Outcome Ledger :=
  if ledger.opened.length = nestingLimit then
    refuse (.resourceExhausted (.nesting nestingLimit))
  else .ok { ledger with opened := item :: ledger.opened }

def openIndefinite (ledger : Ledger) (start tagSize bound : Nat) : Outcome Ledger :=
  if ledger.indefinite = indefiniteLimit then
    refuse (.resourceExhausted (.indefiniteDepth indefiniteLimit))
  else do
    let ledger ← ledger.enter ⟨start, tagSize, none, bound, 0, true, 0⟩
    return { ledger with indefinite := ledger.indefinite + 1 }

def openDefinite (ledger : Ledger) (start tagSize headerSize stop : Nat) : Outcome Ledger :=
  ledger.enter ⟨start, tagSize, some headerSize, stop, 0, false, 0⟩

def bound (ledger : Ledger) (inputLength : Nat) : Nat :=
  match ledger.opened with
  | [] => inputLength
  | item :: _ => item.bound

def hasOpen (ledger : Ledger) : Bool := !ledger.opened.isEmpty

def insideIndefinite (ledger : Ledger) : Bool :=
  match ledger.opened with
  | [] => false
  | item :: _ => item.headerSize.isNone

def add (ledger : Ledger) (length : Nat) (changed : Bool) : Outcome Ledger :=
  match ledger.opened with
  | [] => .ok ledger
  | item :: around =>
    if item.contentLength + length < wordLimit then
      let item := { item with
        contentLength := item.contentLength + length, changed := item.changed || changed }
      .ok { ledger with opened := item :: around }
    else refuse (.resourceExhausted .contentLength)

def markMerged (ledger : Ledger) (unusedBits : UInt8) : Ledger :=
  match ledger.opened with
  | [] => ledger
  | item :: around =>
    { ledger with opened := { item with changed := true, unusedBits := unusedBits } :: around }

def takeTop (ledger : Ledger) : Outcome (OpenItem × Record × Ledger) :=
  match ledger.opened with
  | [] => refuse (.invalidEncoding .noOpenItem)
  | item :: around => do
    let indefinite ← (if item.headerSize.isNone then Word.sub ledger.indefinite 1
      else .ok ledger.indefinite : Outcome Nat)
    return (item, ⟨item.start, item.tagSize, around.length, item.contentLength, item.unusedBits⟩,
      ⟨ledger.records, around, indefinite⟩)

/-- Whether the canonical form of a closed item differs from what was read. -/
def differs (item : OpenItem) (record : Record) : Outcome Bool :=
  if item.changed then .ok true
  else do
    let headerSize ← record.headerSize
    return item.headerSize != some headerSize

def keepRecord (ledger : Ledger) (record : Record) : Outcome Ledger :=
  if ledger.records.length = recordLimit then
    refuse (.resourceExhausted (.records recordLimit))
  else .ok { ledger with records := ledger.records ++ [record] }

def close (ledger : Ledger) : Attempt Ledger Ledger := do
  let (item, record, ledger) ← ledger.takeTop.leaving ledger
  let changed ← (differs item record).leaving ledger
  let ledger ← (if changed then ledger.keepRecord record else .ok ledger : Outcome Ledger).leaving
    ledger
  let headerSize ← record.headerSize.leaving ledger
  let size ← (Word.add headerSize record.contentLength).leaving ledger
  (ledger.add size changed).leaving ledger

def endsAt (ledger : Ledger) (idx : Nat) : Bool :=
  match ledger.opened with
  | [] => false
  | item :: _ => item.headerSize.isSome && item.bound == idx

def closeUpTo (idx : Nat) : Nat → Ledger → Attempt Ledger Ledger
  | 0, ledger => .ok ledger
  | n + 1, ledger =>
    if ledger.endsAt idx then do
      let ledger ← ledger.close
      closeUpTo idx n ledger
    else .ok ledger

def closeAt (ledger : Ledger) (idx : Nat) : Attempt Ledger Ledger :=
  closeUpTo idx ledger.opened.length ledger

def sorted (ledger : Ledger) : Ledger :=
  { ledger with records := ledger.records.mergeSort fun a b => a.start ≤ b.start }

/-- Halves the `size` records from index `low` on until one is left that may begin at `start`. -/
def narrow (records : List Record) (start : Nat) (low size : Nat) : Nat :=
  if 1 < size then
    let mid := low + size / 2
    let low := if records[mid]?.any fun record => start < record.start then low else mid
    narrow records start low (size - size / 2)
  else low
termination_by size

def find? (ledger : Ledger) (start : Nat) : Option Record :=
  ledger.records[narrow ledger.records start 0 ledger.records.length]?.filter fun record =>
    record.start == start

end Ledger

end DerTemplate.Canonical

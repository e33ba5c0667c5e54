import DerTemplate.Canonical.Survey
import DerTemplate.Proofs.Canonical.Tree
import DerTemplate.Proofs.Decoding.Item
import DerTemplate.Proofs.Outcome

namespace DerTemplate.Canonical

open Header (Identifier lengthSize)

namespace Ledger

def grown (ledger : Ledger) (length : Nat) (changed : Bool) : Ledger :=
  match ledger.opened with
  | [] => ledger
  | item :: around =>
    { ledger with
      opened := { item with
        contentLength := item.contentLength + length
        changed := item.changed || changed } :: around }

def enclosed (ledger : Ledger) (item : OpenItem) : Ledger :=
  ⟨ledger.records, item :: ledger.opened,
    ledger.indefinite + if item.headerSize.isNone then 1 else 0⟩

theorem opened_enclosed (ledger : Ledger) (item : OpenItem) :
    (ledger.enclosed item).opened = item :: ledger.opened := rfl

def recordOf (item : OpenItem) (depth : Nat) : Record :=
  ⟨item.start, item.tagSize, depth, item.contentLength, item.unusedBits⟩

def sizeOf (item : OpenItem) : Nat :=
  item.tagSize + lengthSize item.contentLength + item.contentLength

def leavesRecord (item : OpenItem) : Bool :=
  item.changed || item.headerSize != some (item.tagSize + lengthSize item.contentLength)

variable {ledger : Ledger}

theorem add_eq {length : Nat} (changed : Bool)
    (h : ∀ item ∈ ledger.opened, item.contentLength + length < wordLimit) :
    ledger.add length changed = .ok (ledger.grown length changed) := by
  unfold add grown
  cases hopened : ledger.opened with
  | nil => rfl
  | cons item around => exact if_pos (h item (by simp [hopened]))

theorem meets_add (ledger : Ledger) (length : Nat) (changed : Bool) :
    (ledger.add length changed).Meets Error.BlamesInput (· = ledger.grown length changed) := by
  unfold add grown
  cases ledger.opened with
  | nil => exact Outcome.meets_ok rfl
  | cons item around =>
    dsimp only
    split
    · exact Outcome.meets_ok rfl
    · exact Outcome.meets_refuse (Error.blamesInput_exhausted _)

theorem grown_zero (ledger : Ledger) : ledger.grown 0 false = ledger := by
  obtain ⟨records, opened, indefinite⟩ := ledger
  cases opened with
  | nil => rfl
  | cons item around => simp [grown]

@[simp] theorem records_grown (length : Nat) (changed : Bool) :
    (ledger.grown length changed).records = ledger.records := by
  unfold grown
  split <;> rfl

@[simp] theorem indefinite_grown (length : Nat) (changed : Bool) :
    (ledger.grown length changed).indefinite = ledger.indefinite := by
  unfold grown
  split <;> rfl

theorem opened_grown (length : Nat) (changed : Bool) :
    (ledger.grown length changed).opened = ledger.opened.modifyHead fun item =>
      { item with
        contentLength := item.contentLength + length
        changed := item.changed || changed } := by
  unfold grown
  split <;> simp_all

@[simp] theorem length_opened_grown (length : Nat) (changed : Bool) :
    (ledger.grown length changed).opened.length = ledger.opened.length := by
  rw [opened_grown, List.length_modifyHead]

theorem outcome_close (ledger : Ledger) :
    ledger.close.outcome = (do
      let (item, record, rest) ← ledger.takeTop
      let changed ← differs item record
      let kept ← (if changed then rest.keepRecord record else .ok rest : Outcome Ledger)
      let headerSize ← record.headerSize
      let size ← Word.add headerSize record.contentLength
      kept.add size changed) := by
  unfold close
  simp only [Attempt.outcome_bind, Attempt.outcome_leaving]

def without (ledger : Ledger) (item : OpenItem) (around : List OpenItem) : Ledger :=
  ⟨ledger.records, around, ledger.indefinite - if item.headerSize.isNone then 1 else 0⟩

section

variable {item : OpenItem} {around : List OpenItem}

theorem takeTop_eq (hopened : ledger.opened = item :: around)
    (hindefinite : item.headerSize.isNone = true → 1 ≤ ledger.indefinite) :
    ledger.takeTop = .ok (item, recordOf item around.length, ledger.without item around) := by
  unfold takeTop without
  rw [hopened]
  dsimp only
  cases hnone : item.headerSize.isNone with
  | true =>
    rw [if_pos rfl, Word.sub, if_pos (hindefinite hnone)]
    rfl
  | false => rfl

theorem opened_of_takeTop {record : Record} {rest : Ledger}
    (h : ledger.takeTop = .ok (item, record, rest)) :
    ∃ around, ledger.opened = item :: around ∧
      (item.headerSize.isNone = true → 1 ≤ ledger.indefinite) := by
  unfold takeTop at h
  split at h
  · cases h
  · rename_i top around hopened
    obtain ⟨indefinite, hindefinite, h⟩ := bind_eq_ok_iff.mp h
    cases h
    refine ⟨around, hopened, fun hnone => ?_⟩
    rw [if_pos hnone] at hindefinite
    exact (Word.sub_eq_ok_iff.mp hindefinite).1

theorem headerSize_recordOf (hsize : sizeOf item < wordLimit) (depth : Nat) :
    (recordOf item depth).headerSize = .ok (item.tagSize + lengthSize item.contentLength) := by
  unfold sizeOf at hsize
  exact Word.add_eq_ok_iff.mpr ⟨show item.tagSize + lengthSize item.contentLength < _ by omega, rfl⟩

theorem differs_recordOf (hsize : sizeOf item < wordLimit) (depth : Nat) :
    differs item (recordOf item depth) = .ok (leavesRecord item) := by
  unfold differs leavesRecord
  cases item.changed with
  | true => rfl
  | false =>
    rw [if_neg Bool.false_ne_true, headerSize_recordOf hsize]
    rfl

theorem close_eq (hopened : ledger.opened = item :: around)
    (hindefinite : item.headerSize.isNone = true → 1 ≤ ledger.indefinite)
    (hsize : sizeOf item < wordLimit) :
    ledger.close.outcome =
      ((if leavesRecord item then
          (ledger.without item around).keepRecord (recordOf item around.length)
        else .ok (ledger.without item around)) >>= fun kept =>
          kept.add (sizeOf item) (leavesRecord item)) := by
  have hwhole : Word.add (item.tagSize + lengthSize item.contentLength)
      (recordOf item around.length).contentLength = .ok (sizeOf item) :=
    Word.add_eq_ok_iff.mpr ⟨hsize, rfl⟩
  rw [outcome_close, takeTop_eq hopened hindefinite, ok_bind]
  dsimp only
  rw [differs_recordOf hsize, ok_bind, headerSize_recordOf hsize]
  simp only [ok_bind, hwhole]

theorem eq_grown_of_close {ledger' : Ledger} (h : ledger.close.outcome = .ok ledger') :
    ∃ item around, ledger.opened = item :: around ∧
      ledger' = Ledger.grown
        ⟨ledger.records ++ (if leavesRecord item then [recordOf item around.length] else []),
          around, (ledger.without item around).indefinite⟩
        (sizeOf item) (leavesRecord item) := by
  have hclose := h
  rw [outcome_close] at h
  obtain ⟨⟨item, record, rest⟩, htop, h⟩ := bind_eq_ok_iff.mp h
  obtain ⟨around, hopened, hindefinite⟩ := opened_of_takeTop htop
  rw [takeTop_eq hopened hindefinite] at htop
  cases htop
  obtain ⟨_, _, h⟩ := bind_eq_ok_iff.mp h
  obtain ⟨_, _, h⟩ := bind_eq_ok_iff.mp h
  obtain ⟨headerSize, hheader, h⟩ := bind_eq_ok_iff.mp h
  obtain ⟨size, hsum, _⟩ := bind_eq_ok_iff.mp h
  have hsize : sizeOf item < wordLimit := by
    obtain ⟨_, rfl⟩ := Word.add_eq_ok_iff.mp hheader
    exact (Word.add_eq_ok_iff.mp hsum).1
  rw [close_eq hopened hindefinite hsize] at hclose
  obtain ⟨kept, hkept, hadd⟩ := bind_eq_ok_iff.mp hclose
  refine ⟨item, around, hopened, ?_⟩
  rw [(meets_add _ _ _).of_ok hadd]
  split at hkept
  · rename_i hleaves
    unfold keepRecord at hkept
    split at hkept <;> cases hkept
    rw [if_pos hleaves]
    rfl
  · rename_i hkeeps
    cases hkept
    rw [if_neg hkeeps, List.append_nil]
    rfl

theorem close_eq_ok_iff {ledger' : Ledger} (hopened : ledger.opened = item :: around)
    (hindefinite : item.headerSize.isNone = true → 1 ≤ ledger.indefinite)
    (hsize : sizeOf item < wordLimit)
    (hroom : ∀ outer ∈ around, outer.contentLength + sizeOf item < wordLimit) :
    ledger.close.outcome = .ok ledger' ↔
      (leavesRecord item = true → ledger.records.length ≠ recordLimit) ∧
        ledger' = Ledger.grown
          ⟨ledger.records ++ (if leavesRecord item then [recordOf item around.length] else []),
            around, ledger.indefinite - if item.headerSize.isNone then 1 else 0⟩
          (sizeOf item) (leavesRecord item) := by
  rw [close_eq hopened hindefinite hsize, without]
  generalize (ledger.indefinite - if item.headerSize.isNone = true then 1 else 0) = indefinite
  cases leavesRecord item with
  | false =>
    rw [if_neg Bool.false_ne_true, ok_bind, add_eq _ hroom, Except.ok.injEq,
      if_neg Bool.false_ne_true, List.append_nil]
    exact ⟨fun h => ⟨fun hchanged => absurd hchanged Bool.false_ne_true, h.symm⟩,
      fun h => h.2.symm⟩
  | true =>
    rw [if_pos rfl, if_pos rfl, keepRecord]
    dsimp only
    split
    · rename_i hfull
      refine ⟨fun h => ?_, fun h => absurd hfull (h.1 rfl)⟩
      cases h
    · rename_i hfree
      rw [ok_bind, add_eq _ hroom, Except.ok.injEq]
      exact ⟨fun h => ⟨fun _ => hfree, h.symm⟩, fun h => h.2.symm⟩

end

def itemOf (identifier : Identifier) (length : Option Bytes) (idx stop bound : Nat) : OpenItem :=
  match length with
  | some _ => ⟨idx, identifier.octets.length, some (header identifier length).length, stop, 0, false, 0⟩
  | none => ⟨idx, identifier.octets.length, none, bound, 0, true, 0⟩

variable {identifier : Identifier} {length : Option Bytes} {idx : Nat}

theorem contentLength_itemOf (stop bound : Nat) :
    (itemOf identifier length idx stop bound).contentLength = 0 := by
  cases length <;> rfl

theorem isNone_itemOf (stop bound : Nat) :
    (itemOf identifier length idx stop bound).headerSize.isNone = length.isNone := by
  cases length <;> rfl

theorem openDefinite_eq_ok_iff {ledger' : Ledger} {start tagSize headerSize stop : Nat} :
    ledger.openDefinite start tagSize headerSize stop = .ok ledger' ↔
      ledger.opened.length ≠ nestingLimit ∧
        ledger' = ledger.enclosed ⟨start, tagSize, some headerSize, stop, 0, false, 0⟩ := by
  rw [openDefinite, enter]
  split
  · rename_i hfull
    exact ⟨nofun, fun h => absurd hfull h.1⟩
  · rename_i hfree
    rw [Except.ok.injEq]
    exact ⟨fun h => ⟨hfree, h.symm⟩, fun h => h.2.symm⟩

theorem openIndefinite_eq_ok_iff {ledger' : Ledger} {start tagSize bound : Nat} :
    ledger.openIndefinite start tagSize bound = .ok ledger' ↔
      (ledger.opened.length ≠ nestingLimit ∧ ledger.indefinite ≠ indefiniteLimit) ∧
        ledger' = ledger.enclosed ⟨start, tagSize, none, bound, 0, true, 0⟩ := by
  rw [openIndefinite]
  split
  · rename_i hfull
    exact ⟨nofun, fun h => absurd hfull h.1.2⟩
  · rename_i hfree
    rw [enter]
    split
    · rename_i hfull
      exact ⟨nofun, fun h => absurd hfull h.1.1⟩
    · rename_i hroom
      rw [ok_bind]
      exact ⟨fun h => ⟨⟨hroom, hfree⟩, (Except.ok.inj h).symm⟩,
        fun h => congrArg Except.ok h.2.symm⟩

theorem openAt_eq_ok_iff {ledger' : Ledger} (bound size : Nat) :
    ledger.openAt idx identifier.octets.length (idx + (header identifier length).length) bound
        (length.map fun _ => size) = .ok ledger' ↔
      (ledger.opened.length ≠ nestingLimit ∧
        (length.isNone = true → ledger.indefinite ≠ indefiniteLimit)) ∧
        ledger' = ledger.enclosed
          (itemOf identifier length idx (idx + (header identifier length).length + size) bound) := by
  cases length with
  | some octets =>
    rw [Option.map_some, openAt, Nat.add_sub_cancel_left, openDefinite_eq_ok_iff]
    exact and_congr_left' (and_iff_left nofun).symm
  | none =>
    rw [Option.map_none, openAt, openIndefinite_eq_ok_iff]
    exact and_congr_left' (and_congr_right' ⟨fun h _ => h, fun h => h rfl⟩)

structure Sound (ledger : Ledger) (idx : Nat) : Prop where
  records : ledger.records.length ≤ recordLimit
  nesting : ledger.opened.length ≤ nestingLimit
  indefinite : ledger.indefinite = ledger.opened.countP fun item => item.headerSize.isNone
  indefinite_le : ledger.indefinite ≤ indefiniteLimit
  content : ∀ item ∈ ledger.opened, item.contentLength ≤ idx + 9 * ledger.records.length

structure Admits (ledger : Ledger) (tree : Ber) : Prop where
  records : ledger.records.length + tree.rewritten ≤ recordLimit
  nesting : ledger.opened.length + tree.nesting ≤ nestingLimit
  indefinite : ledger.indefinite + tree.indefiniteNesting ≤ indefiniteLimit

def absorbed (ledger : Ledger) (tree : Ber) (idx : Nat) : Ledger :=
  Ledger.grown ⟨ledger.records ++ tree.records idx ledger.opened.length, ledger.opened,
    ledger.indefinite⟩ tree.der.length (!tree.canonical)

theorem sound_empty : empty.Sound 0 :=
  ⟨Nat.zero_le _, Nat.zero_le _, rfl, Nat.zero_le _, nofun⟩

theorem sound_absorbed {tree : Ber} (hsound : ledger.Sound idx) (hadmits : ledger.Admits tree)
    (hvalid : tree.Valid) (hlimit : idx + tree.octets.length < lengthLimit) :
    (ledger.absorbed tree idx).Sound (idx + tree.octets.length) := by
  have hlimits : lengthLimit + 9 * recordLimit < wordLimit := by decide
  have hrecords := hadmits.records
  have hder := Ber.length_der_le hvalid (by omega)
  refine ⟨?_, ?_, ?_, ?_, ?_⟩
  · rw [absorbed, records_grown, List.length_append, Ber.length_records]
    exact hrecords
  · rw [absorbed, length_opened_grown]
    exact hsound.nesting
  · rw [absorbed, indefinite_grown, opened_grown]
    have hindefinite := hsound.indefinite
    cases hopened : ledger.opened with
    | nil => simpa [hopened] using hindefinite
    | cons item around => simpa [hopened, List.countP_cons] using hindefinite
  · rw [absorbed, indefinite_grown]
    exact hsound.indefinite_le
  · rw [absorbed, records_grown, opened_grown, List.length_append, Ber.length_records]
    have hcontent := hsound.content
    cases hopened : ledger.opened with
    | nil => exact nofun
    | cons item around =>
      rw [hopened] at hcontent
      intro other hother
      rcases List.mem_cons.mp hother with rfl | hother
      · have := hcontent item List.mem_cons_self
        dsimp only
        omega
      · have := hcontent other (List.mem_cons_of_mem _ hother)
        omega

theorem sound_enclosed {item : OpenItem} {pos : Nat} (hsound : ledger.Sound idx) (hpos : idx ≤ pos)
    (hnesting : ledger.opened.length ≠ nestingLimit)
    (hindefinite : item.headerSize.isNone = true → ledger.indefinite ≠ indefiniteLimit)
    (hcontent : item.contentLength = 0) : (ledger.enclosed item).Sound pos := by
  have hdepth := hsound.nesting
  have hopen := hsound.indefinite_le
  refine ⟨hsound.records, ?_, ?_, ?_, ?_⟩
  · rw [enclosed, List.length_cons]
    omega
  · rw [enclosed, List.countP_cons, hsound.indefinite]
  · rw [enclosed]
    dsimp only
    split
    · rename_i hnone
      have := hindefinite hnone
      omega
    · exact hopen
  · intro other hother
    rcases List.mem_cons.mp hother with rfl | hother
    · omega
    · have := hsound.content other hother
      exact Nat.le_trans this (Nat.add_le_add_right hpos _)

def filledWith (item : OpenItem) (size : Nat) (changed : Bool) (unused : UInt8) : OpenItem :=
  { item with
    contentLength := size
    changed := item.changed || changed
    unusedBits := unused }

theorem leavesRecord_filledWith (stop bound size : Nat) (changed : Bool) (unused : UInt8) :
    leavesRecord (filledWith (itemOf identifier length idx stop bound) size changed unused) =
      !kept length (!changed) size := by
  unfold leavesRecord kept filledWith itemOf
  cases length with
  | none => simp
  | some octets =>
    have hsize : (identifier.octets.length + octets.length ==
        identifier.octets.length + lengthSize size) = (octets.length == lengthSize size) :=
      Bool.eq_iff_iff.mpr (by simp only [beq_iff_eq]; omega)
    simp [length_header, opening, bne, hsize]

def concluded (ledger : Ledger) (identifier : Identifier) (length : Option Bytes) (idx : Nat)
    (records : List Record) (size : Nat) (changed : Bool) (unused : UInt8) : Ledger :=
  Ledger.grown
    ⟨ledger.records ++ (records ++ if kept length (!changed) size then []
      else [⟨idx, identifier.octets.length, ledger.opened.length, size, unused⟩]),
      ledger.opened, ledger.indefinite⟩
    (identifier.octets.length + lengthSize size + size) (!kept length (!changed) size)

theorem close_filledWith {ledger' closed : Ledger} {stop bound size : Nat} {changed : Bool}
    {unused : UInt8} {records : List Record} (hsound : ledger.Sound idx)
    (hrecords : ledger'.records = ledger.records ++ records)
    (hopened : ledger'.opened =
      filledWith (itemOf identifier length idx stop bound) size changed unused :: ledger.opened)
    (hindefinite : ledger'.indefinite = ledger.indefinite + if length.isNone then 1 else 0)
    (hcount : ledger'.records.length ≤ recordLimit)
    (hsmall : idx + (identifier.octets.length + lengthSize size + size) <
      lengthLimit + 9 * (recordLimit + 1)) :
    ledger'.close.outcome = .ok closed ↔
      (kept length (!changed) size = false → ledger'.records.length ≠ recordLimit) ∧
        closed = ledger.concluded identifier length idx records size changed unused := by
  have hlimits : lengthLimit + 9 * (recordLimit + 1) + 9 * recordLimit < wordLimit := by decide
  have hcountBefore := hsound.records
  have hnone : (itemOf identifier length idx stop bound).headerSize.isNone = length.isNone :=
    isNone_itemOf stop bound
  have hsizeOf : sizeOf (filledWith (itemOf identifier length idx stop bound) size changed unused) =
      identifier.octets.length + lengthSize size + size := by
    cases length <;> rfl
  have hrecordOf : recordOf
      (filledWith (itemOf identifier length idx stop bound) size changed unused)
        ledger.opened.length =
      ⟨idx, identifier.octets.length, ledger.opened.length, size, unused⟩ := by
    cases length <;> rfl
  rw [close_eq_ok_iff hopened, leavesRecord_filledWith, hsizeOf, hrecordOf, hrecords, hindefinite]
  · have hback : (ledger.indefinite + if length.isNone = true then 1 else 0) -
        (if (filledWith (itemOf identifier length idx stop bound) size changed
          unused).headerSize.isNone = true then 1 else 0) = ledger.indefinite := by
      rw [filledWith, hnone, Nat.add_sub_cancel]
    rw [hback, List.append_assoc, concluded]
    cases kept length (!changed) size <;> simp
  · intro h
    rw [filledWith, hnone] at h
    rw [hindefinite, h, if_pos rfl]
    omega
  · rw [hsizeOf]
    omega
  · intro outer houter
    have := hsound.content outer houter
    rw [hsizeOf]
    omega

end Ledger

def bookConstructed (identifier : Identifier) (length : Option Bytes) (size inputLength idx : Nat)
    (inside : Ledger → Outcome Ledger) (ledger : Ledger) : Outcome Ledger := do
  let opened ← ledger.openAt idx identifier.octets.length
    (idx + (header identifier length).length) (ledger.bound inputLength) (length.map fun _ => size)
  let filled ← inside opened
  filled.close.outcome

def bookMerged (bits : Bool) (fragments : List Fragment) (ledger : Ledger) : Outcome Ledger := do
  let ledger ← ledger.add (Fragment.merged bits fragments).length true
  return ledger.markMerged (Fragment.unused bits fragments)

def Ber.book (inputLength : Nat) : Ber → (idx : Nat) → Ledger → Outcome Ledger
  | nil, _, ledger => .ok ledger
  | primitive identifier length content next, idx, ledger =>
    ledger.add (shortest identifier.octets content).length (!kept (some length) true content.length)
      >>= next.book inputLength (idx + (whole identifier (some length) content).length)
  | nested identifier length inner next, idx, ledger =>
    bookConstructed identifier length inner.octets.length inputLength idx
      (inner.book inputLength (idx + (header identifier length).length)) ledger
      >>= next.book inputLength (idx + (whole identifier length inner.octets).length)
  | string identifier length fragments next, idx, ledger =>
    bookConstructed identifier length (Fragment.join identifier.first.base fragments).length
      inputLength idx (bookMerged (isBits identifier) fragments) ledger
      >>= next.book inputLength (idx + (whole identifier length
        (Fragment.join identifier.first.base fragments)).length)

namespace Ledger

variable {ledger closed filled : Ledger} {identifier : Identifier} {length : Option Bytes}
variable {inputLength idx : Nat}

theorem bookConstructed_eq_ok_iff {inside : Ledger → Outcome Ledger} {fits : Prop}
    {contentSize size : Nat} {changed : Bool} {unused : UInt8} {records : List Record}
    (hsound : ledger.Sound idx)
    (hinside : ledger.opened.length ≠ nestingLimit →
      (length.isNone = true → ledger.indefinite ≠ indefiniteLimit) → ∀ ledger',
        inside (ledger.enclosed (itemOf identifier length idx
          (idx + (header identifier length).length + contentSize) (ledger.bound inputLength))) =
            .ok ledger' ↔ fits ∧ ledger' = filled)
    (hrecords : filled.records = ledger.records ++ records)
    (hopened : filled.opened = filledWith (itemOf identifier length idx
      (idx + (header identifier length).length + contentSize) (ledger.bound inputLength)) size changed
        unused :: ledger.opened)
    (hindefinite : filled.indefinite = ledger.indefinite + if length.isNone then 1 else 0)
    (hcount : fits → filled.records.length ≤ recordLimit)
    (hsmall : fits → idx + (identifier.octets.length + lengthSize size + size) <
      lengthLimit + 9 * (recordLimit + 1)) :
    bookConstructed identifier length contentSize inputLength idx inside ledger = .ok closed ↔
      ((ledger.opened.length ≠ nestingLimit ∧
          (length.isNone = true → ledger.indefinite ≠ indefiniteLimit)) ∧ fits ∧
            (kept length (!changed) size = false → filled.records.length ≠ recordLimit)) ∧
        closed = ledger.concluded identifier length idx records size changed unused := by
  constructor
  · intro h
    obtain ⟨opened, hopen, h⟩ := bind_eq_ok_iff.mp h
    obtain ⟨hroom, rfl⟩ := (openAt_eq_ok_iff _ _).mp hopen
    obtain ⟨ledger', hin, hclose⟩ := bind_eq_ok_iff.mp h
    obtain ⟨hfits, rfl⟩ := (hinside hroom.1 hroom.2 _).mp hin
    obtain ⟨hfree, rfl⟩ := (close_filledWith hsound hrecords hopened hindefinite (hcount hfits)
      (hsmall hfits)).mp hclose
    exact ⟨⟨hroom, hfits, hfree⟩, rfl⟩
  · rintro ⟨⟨hroom, hfits, hfree⟩, rfl⟩
    refine bind_eq_ok_iff.mpr ⟨_, (openAt_eq_ok_iff _ _).mpr ⟨hroom, rfl⟩,
      bind_eq_ok_iff.mpr ⟨_, (hinside hroom.1 hroom.2 _).mpr ⟨hfits, rfl⟩, ?_⟩⟩
    exact (close_filledWith hsound hrecords hopened hindefinite (hcount hfits)
      (hsmall hfits)).mpr ⟨hfree, rfl⟩

theorem absorbed_join {first next tree : Ber} (h : Ber.Joins first next tree) :
    (ledger.absorbed first idx).absorbed next (idx + first.octets.length) =
      ledger.absorbed tree idx := by
  obtain ⟨records, opened, indefinite⟩ := ledger
  cases opened with
  | nil => simp [absorbed, grown, h.records]
  | cons item around =>
    simp [absorbed, grown, h.records, h.der, h.canonical, Nat.add_assoc, Bool.or_assoc]

theorem admits_join {first next tree : Ber} (h : Ber.Joins first next tree) :
    ledger.Admits tree ↔ ledger.Admits first ∧ (ledger.absorbed first idx).Admits next := by
  have hrecords : (ledger.absorbed first idx).records.length =
      ledger.records.length + first.rewritten := by
    rw [absorbed, records_grown, List.length_append, Ber.length_records]
  have hopened : (ledger.absorbed first idx).opened.length = ledger.opened.length :=
    length_opened_grown _ _
  have hindefinite : (ledger.absorbed first idx).indefinite = ledger.indefinite :=
    indefinite_grown _ _
  constructor
  · rintro ⟨hr, hn, hi⟩
    rw [h.rewritten] at hr
    rw [h.nesting] at hn
    rw [h.indefiniteNesting] at hi
    exact ⟨⟨by omega, by omega, by omega⟩, ⟨by omega, by omega, by omega⟩⟩
  · rintro ⟨⟨_, hn, hi⟩, ⟨hr', hn', hi'⟩⟩
    refine ⟨?_, ?_, ?_⟩
    · rw [h.rewritten]
      omega
    · rw [h.nesting]
      omega
    · rw [h.indefiniteNesting]
      omega

theorem book_join {first next tree : Ber} {booked : Outcome Ledger} {ledger' : Ledger}
    (h : Ber.Joins first next tree) (hsound : ledger.Sound idx) (hvalid : tree.Valid)
    (hlimit : idx + tree.octets.length < lengthLimit)
    (hfirst : ∀ ledger', booked = .ok ledger' ↔
      ledger.Admits first ∧ ledger' = ledger.absorbed first idx)
    (hnext : ∀ {between : Ledger} {pos : Nat}, between.Sound pos → next.Valid →
      pos + next.octets.length < lengthLimit → ∀ ledger',
        next.book inputLength pos between = .ok ledger' ↔
          between.Admits next ∧ ledger' = between.absorbed next pos) :
    (booked >>= next.book inputLength (idx + first.octets.length)) = .ok ledger' ↔
      ledger.Admits tree ∧ ledger' = ledger.absorbed tree idx := by
  obtain ⟨hvalidFirst, hvalidNext⟩ := h.valid.mp hvalid
  rw [h.octets, List.length_append] at hlimit
  have hgo (hadmits : ledger.Admits first) :=
    hnext (sound_absorbed hsound hadmits hvalidFirst (by omega)) hvalidNext (by omega) ledger'
  rw [bind_eq_ok_iff, admits_join h, ← absorbed_join h]
  constructor
  · rintro ⟨between, hbetween, hbook⟩
    obtain ⟨hadmits, rfl⟩ := (hfirst between).mp hbetween
    obtain ⟨hadmitsNext, rfl⟩ := (hgo hadmits).mp hbook
    exact ⟨⟨hadmits, hadmitsNext⟩, rfl⟩
  · rintro ⟨⟨hadmits, hadmitsNext⟩, rfl⟩
    exact ⟨_, (hfirst _).mpr ⟨hadmits, rfl⟩, (hgo hadmits).mpr ⟨hadmitsNext, rfl⟩⟩

theorem add_primitive_eq_ok_iff {octets content : Bytes} {ledger' : Ledger}
    (hsound : ledger.Sound idx) (hvalid : (Ber.primitive identifier octets content .nil).Valid)
    (hlimit : idx + (Ber.primitive identifier octets content .nil).octets.length < lengthLimit) :
    ledger.add (shortest identifier.octets content).length (!kept (some octets) true content.length) =
        .ok ledger' ↔
      ledger.Admits (.primitive identifier octets content .nil) ∧
        ledger' = ledger.absorbed (.primitive identifier octets content .nil) idx := by
  have hlimits : lengthLimit + 9 * recordLimit < wordLimit := by decide
  have hrewritten : (Ber.primitive identifier octets content .nil).rewritten = 0 := rfl
  have hcount := hsound.records
  have hder := Ber.length_der_le hvalid (by omega)
  have hbooked : ledger.grown (shortest identifier.octets content).length
      (!kept (some octets) true content.length) =
        ledger.absorbed (.primitive identifier octets content .nil) idx := by
    rw [absorbed, Ber.der_primitive, Ber.records, Ber.records, List.append_nil, Ber.canonical, Ber.canonical,
      Bool.and_true]
  rw [Ber.der_primitive] at hder
  rw [add_eq, hbooked, Except.ok.injEq]
  · exact ⟨fun h => ⟨⟨hcount, hsound.nesting, hsound.indefinite_le⟩, h.symm⟩, fun h => h.2.symm⟩
  · intro item hitem
    have := hsound.content item hitem
    omega

section Enclosed

variable {inner : Ber} {item : OpenItem} {fragments : List Fragment}

theorem records_absorbed_enclosed (pos : Nat) :
    ((ledger.enclosed item).absorbed inner pos).records =
      ledger.records ++ inner.records pos (ledger.opened.length + 1) := by
  rw [absorbed, records_grown]
  rfl

theorem opened_absorbed_enclosed (stop bound pos : Nat) :
    ((ledger.enclosed (itemOf identifier length idx stop bound)).absorbed inner pos).opened =
      filledWith (itemOf identifier length idx stop bound) inner.der.length (!inner.canonical) 0 ::
        ledger.opened := by
  rw [absorbed, opened_grown]
  cases length <;> simp [enclosed, filledWith, itemOf]

theorem indefinite_absorbed_enclosed (stop bound pos : Nat) :
    ((ledger.enclosed (itemOf identifier length idx stop bound)).absorbed inner pos).indefinite =
      ledger.indefinite + if length.isNone then 1 else 0 := by
  rw [absorbed, indefinite_grown, enclosed]
  dsimp only
  rw [isNone_itemOf]

theorem absorbed_nested : ledger.absorbed (.nested identifier length inner .nil) idx =
    ledger.concluded identifier length idx
      (inner.records (idx + (header identifier length).length) (ledger.opened.length + 1))
      inner.der.length (!inner.canonical) 0 := by
  rw [absorbed, Ber.der_nested, length_shortest, concluded, Bool.not_not]
  simp only [Ber.records, Ber.canonical, List.append_nil, Bool.and_true]

theorem absorbed_string : ledger.absorbed (.string identifier length fragments .nil) idx =
    ledger.concluded identifier length idx [] (Fragment.merged (isBits identifier) fragments).length
      true (Fragment.unused (isBits identifier) fragments) := by
  rw [absorbed, Ber.der_string, length_shortest]
  rfl

theorem admits_nested (hnone : item.headerSize.isNone = length.isNone) :
    ledger.Admits (.nested identifier length inner .nil) ↔
      (ledger.opened.length ≠ nestingLimit ∧
          (length.isNone = true → ledger.indefinite ≠ indefiniteLimit)) ∧
        (ledger.enclosed item).Admits inner ∧
          (kept length inner.canonical inner.der.length = false →
            ledger.records.length + inner.rewritten ≠ recordLimit) := by
  have hrewritten : (Ber.nested identifier length inner .nil).rewritten =
    inner.rewritten + (if kept length inner.canonical inner.der.length then 0 else 1) := rfl
  have hnesting : (Ber.nested identifier length inner .nil).nesting = 1 + inner.nesting :=
    Nat.max_eq_left (Nat.zero_le _)
  have hindefinite : (Ber.nested identifier length inner .nil).indefiniteNesting =
      (if length.isNone then 1 else 0) + inner.indefiniteNesting :=
    Nat.max_eq_left (Nat.zero_le _)
  have hinner : (ledger.enclosed item).Admits inner ↔
      ledger.records.length + inner.rewritten ≤ recordLimit ∧
        ledger.opened.length + 1 + inner.nesting ≤ nestingLimit ∧
          ledger.indefinite + (if length.isNone then 1 else 0) + inner.indefiniteNesting ≤
            indefiniteLimit := by
    rw [← hnone]
    exact ⟨fun h => ⟨h.records, h.nesting, h.indefinite⟩, fun h => ⟨h.1, h.2.1, h.2.2⟩⟩
  rw [hinner]
  constructor
  · rintro ⟨hr, hn, hi⟩
    rw [hrewritten] at hr
    refine ⟨⟨by omega, fun h => ?_⟩, ⟨by omega, by omega, by omega⟩, fun h => ?_⟩
    · rw [h, if_pos rfl] at hindefinite
      omega
    · rw [h, if_neg Bool.false_ne_true] at hr
      omega
  · rintro ⟨_, ⟨hr, hn, hi⟩, hfree⟩
    refine ⟨?_, by omega, by omega⟩
    rw [hrewritten]
    cases hkept : kept length inner.canonical inner.der.length with
    | true => exact hr
    | false =>
      have := hfree hkept
      rw [if_neg Bool.false_ne_true]
      omega

theorem admits_string (hsound : ledger.Sound idx) :
    ledger.Admits (.string identifier length fragments .nil) ↔
      (ledger.opened.length ≠ nestingLimit ∧
          (length.isNone = true → ledger.indefinite ≠ indefiniteLimit)) ∧
        ledger.records.length ≠ recordLimit := by
  have hrewritten : (Ber.string identifier length fragments .nil).rewritten = 1 := rfl
  have hnesting : (Ber.string identifier length fragments .nil).nesting = 1 := rfl
  have hindefinite : (Ber.string identifier length fragments .nil).indefiniteNesting =
    if length.isNone then 1 else 0 := Nat.max_eq_left (Nat.zero_le _)
  have hcount := hsound.records
  have hdepth := hsound.nesting
  have hopen := hsound.indefinite_le
  constructor
  · rintro ⟨hr, hn, hi⟩
    refine ⟨⟨by omega, fun h => ?_⟩, by omega⟩
    rw [hindefinite, if_pos h] at hi
    omega
  · rintro ⟨⟨hn, hi⟩, hr⟩
    refine ⟨by omega, by omega, ?_⟩
    rw [hindefinite]
    split
    · rename_i h
      have := hi h
      omega
    · omega

end Enclosed

theorem bookNested_eq_ok_iff {inner : Ber} {ledger' : Ledger} (hsound : ledger.Sound idx)
    (hvalid : (Ber.nested identifier length inner .nil).Valid)
    (hlimit : idx + (Ber.nested identifier length inner .nil).octets.length < lengthLimit)
    (hinner : ∀ {between : Ledger}, between.Sound (idx + (header identifier length).length) →
      ∀ ledger', inner.book inputLength (idx + (header identifier length).length) between =
        .ok ledger' ↔ between.Admits inner ∧
          ledger' = between.absorbed inner (idx + (header identifier length).length)) :
    bookConstructed identifier length inner.octets.length inputLength idx
        (inner.book inputLength (idx + (header identifier length).length)) ledger = .ok ledger' ↔
      ledger.Admits (.nested identifier length inner .nil) ∧
        ledger' = ledger.absorbed (.nested identifier length inner .nil) idx := by
  have hlimits : lengthLimit + 9 * (recordLimit + 1) < wordLimit := by decide
  have hrewritten : (Ber.nested identifier length inner .nil).rewritten ≤ inner.rewritten + 1 := by
    rw [show (Ber.nested identifier length inner .nil).rewritten =
      inner.rewritten + (if kept length inner.canonical inner.der.length then 0 else 1) from rfl]
    split <;> omega
  have hnone : (itemOf identifier length idx (idx + (header identifier length).length +
    inner.octets.length) (ledger.bound inputLength)).headerSize.isNone = length.isNone :=
      isNone_itemOf _ _
  have hlength := Ber.length_der_le hvalid
  rw [Ber.der_nested, length_shortest] at hlength
  rw [absorbed_nested, admits_nested hnone, bookConstructed_eq_ok_iff hsound
    (fun hnesting hindefinite ledger' => hinner (sound_enclosed hsound (Nat.le_add_right _ _) hnesting
      (hnone ▸ hindefinite) (contentLength_itemOf _ _)) ledger')
    (records_absorbed_enclosed _) (opened_absorbed_enclosed _ _ _)
    (indefinite_absorbed_enclosed _ _ _), Bool.not_not, records_absorbed_enclosed,
    List.length_append, Ber.length_records]
  · intro hadmits
    rw [records_absorbed_enclosed, List.length_append, Ber.length_records]
    exact hadmits.records
  · intro hadmits
    have : ledger.records.length + inner.rewritten ≤ recordLimit := hadmits.records
    omega

theorem bookString_eq_ok_iff {fragments : List Fragment} {ledger' : Ledger}
    (hsound : ledger.Sound idx) (hvalid : (Ber.string identifier length fragments .nil).Valid)
    (hlimit : idx + (Ber.string identifier length fragments .nil).octets.length < lengthLimit) :
    bookConstructed identifier length (Fragment.join identifier.first.base fragments).length
        inputLength idx (bookMerged (isBits identifier) fragments) ledger = .ok ledger' ↔
      ledger.Admits (.string identifier length fragments .nil) ∧
        ledger' = ledger.absorbed (.string identifier length fragments .nil) idx := by
  have hlimits : lengthLimit + 18 * (recordLimit + 1) < wordLimit := by decide
  have hcount := hsound.records
  have hrewritten : (Ber.string identifier length fragments .nil).rewritten = 1 := rfl
  have htag : (identifier.first.base :: identifier.number).length = identifier.octets.length := rfl
  have hlength := Ber.length_der_le hvalid (by omega)
  rw [Ber.der_string, length_shortest, htag] at hlength
  generalize hitem : itemOf identifier length idx (idx + (header identifier length).length +
    (Fragment.join identifier.first.base fragments).length) (ledger.bound inputLength) = item
  have hempty : item.contentLength = 0 := hitem ▸ contentLength_itemOf _ _
  have hadd : (ledger.enclosed item).add (Fragment.merged (isBits identifier) fragments).length
      true = .ok ((ledger.enclosed item).grown
        (Fragment.merged (isBits identifier) fragments).length true) := by
    refine add_eq true fun other hother => ?_
    rcases List.mem_cons.mp hother with rfl | hother
    · omega
    · have := hsound.content other hother
      omega
  have hfilled : filledWith item (Fragment.merged (isBits identifier) fragments).length true
      (Fragment.unused (isBits identifier) fragments) =
      { item with
        contentLength :=
          item.contentLength + (Fragment.merged (isBits identifier) fragments).length
        changed := true
        unusedBits := Fragment.unused (isBits identifier) fragments } := by
    rw [hempty, Nat.zero_add, filledWith, Bool.or_true]
  have hinside (ledger' : Ledger) :
      bookMerged (isBits identifier) fragments (ledger.enclosed item) = .ok ledger' ↔
        True ∧ ledger' = ledger.enclosed (filledWith item
          (Fragment.merged (isBits identifier) fragments).length true
          (Fragment.unused (isBits identifier) fragments)) := by
    rw [bookMerged, hadd, ok_bind, hfilled]
    exact ⟨fun h => ⟨trivial, (Except.ok.inj h).symm⟩, fun h => congrArg Except.ok h.2.symm⟩
  have hindefinite : (ledger.enclosed (filledWith item
      (Fragment.merged (isBits identifier) fragments).length true
      (Fragment.unused (isBits identifier) fragments))).indefinite =
        ledger.indefinite + if length.isNone then 1 else 0 := by
    rw [← isNone_itemOf, hitem]
    rfl
  subst hitem
  rw [absorbed_string, admits_string hsound, bookConstructed_eq_ok_iff hsound
    (fun _ _ => hinside) (List.append_nil _).symm rfl hindefinite (fun _ => hcount)
    (fun _ => by omega)]
  refine and_congr_left fun _ => and_congr_right fun _ => ?_
  exact ⟨fun h => h.2 rfl, fun h => ⟨trivial, fun _ => h⟩⟩

theorem book_eq_ok_iff {tree : Ber} {ledger' : Ledger} (hsound : ledger.Sound idx)
    (hvalid : tree.Valid) (hlimit : idx + tree.octets.length < lengthLimit) :
    tree.book inputLength idx ledger = .ok ledger' ↔
      ledger.Admits tree ∧ ledger' = ledger.absorbed tree idx := by
  -- in every case the first item is booked on its own, and `book_join` adds the items after it
  induction tree generalizing idx ledger ledger' with
  | nil =>
    have hnothing : ledger.absorbed .nil idx = ledger := by
      rw [absorbed, Ber.records, List.append_nil]
      exact grown_zero ledger
    rw [hnothing, Ber.book, Except.ok.injEq]
    exact ⟨fun h => ⟨⟨hsound.records, hsound.nesting, hsound.indefinite_le⟩, h.symm⟩,
      fun h => h.2.symm⟩
  | primitive identifier length content next ih =>
    have hjoin := Ber.joins_primitive identifier length content next
    rw [Ber.book, ← Ber.octets_primitive]
    refine book_join hjoin hsound hvalid hlimit (fun ledger' => ?_)
      fun hsound hvalid hlimit ledger' => ih hsound hvalid hlimit
    obtain ⟨hfirst, _⟩ := hjoin.valid.mp hvalid
    rw [hjoin.octets, List.length_append] at hlimit
    exact add_primitive_eq_ok_iff hsound hfirst (by omega)
  | nested identifier length inner next ihInner ihNext =>
    have hjoin := Ber.joins_nested identifier length inner next
    rw [Ber.book, ← Ber.octets_nested]
    refine book_join hjoin hsound hvalid hlimit (fun ledger' => ?_)
      fun hsound hvalid hlimit ledger' => ihNext hsound hvalid hlimit
    obtain ⟨hfirst, _⟩ := hjoin.valid.mp hvalid
    have hinner : inner.Valid := hvalid.2.2.1
    rw [hjoin.octets, List.length_append] at hlimit
    refine bookNested_eq_ok_iff hsound hfirst (by omega) fun hbetween ledger' =>
      ihInner hbetween hinner ?_
    rw [Ber.octets_nested, length_whole] at hlimit
    omega
  | string identifier length fragments next ih =>
    have hjoin := Ber.joins_string identifier length fragments next
    rw [Ber.book, ← Ber.octets_string]
    refine book_join hjoin hsound hvalid hlimit (fun ledger' => ?_)
      fun hsound hvalid hlimit ledger' => ih hsound hvalid hlimit
    obtain ⟨hfirst, _⟩ := hjoin.valid.mp hvalid
    rw [hjoin.octets, List.length_append] at hlimit
    exact bookString_eq_ok_iff hsound hfirst (by omega)

end Ledger

end DerTemplate.Canonical

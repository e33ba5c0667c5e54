import DerTemplate.Proofs.Decoding.Descent
import DerTemplate.Proofs.Header.Length

namespace DerTemplate

theorem Attempt.outcome_bind {σ α β : Type} (attempt : Attempt σ α) (f : α → Attempt σ β) :
    Attempt.outcome (attempt >>= f) =
      (Attempt.outcome attempt >>= fun a => Attempt.outcome (f a)) := by
  cases attempt <;> rfl

theorem Header.readLength_bounds {input : Bytes} {idx bound length next : Nat}
    (h : readLength input idx bound true = .ok (length, next)) :
    idx < next ∧ next + length ≤ min bound input.length := by
  obtain ⟨⟨form, after⟩, hany, h⟩ := bind_eq_ok_iff.mp h
  cases form with
  | indefinite => cases h
  | definite n =>
    dsimp only at h
    split at h
    · cases h
    · rename_i hfits
      cases h
      exact ⟨(lt_of_readAnyLength hany).2, Nat.not_lt.mp fun hlt => hfits ⟨rfl, hlt⟩⟩

theorem Header.holds_of_readLength {input : Bytes} {idx bound length next : Nat}
    (h : readLength input idx bound true = .ok (length, next)) :
    ∃ octets raw, IsLength octets raw.length ∧ input.Holds idx (octets ++ raw) ∧
      idx + octets.length + raw.length ≤ bound ∧ length = raw.length ∧
      next = idx + octets.length := by
  obtain ⟨_, hfits⟩ := readLength_bounds h
  obtain ⟨⟨form, after⟩, hany, h⟩ := bind_eq_ok_iff.mp h
  obtain ⟨octets, hoctets, rfl, _, hform⟩ := holds_of_readAnyLength hany
  cases form with
  | indefinite => cases h
  | definite n =>
    dsimp only at h
    split at h
    · cases h
    · cases h
      have hraw : ((input.drop (idx + octets.length)).take length).length = length := by
        rw [List.length_take, List.length_drop]
        omega
      refine ⟨octets, (input.drop (idx + octets.length)).take length, hraw.symm ▸ hform,
        Bytes.holds_append_iff.mpr ⟨hoctets, ?_, by rw [hraw]⟩, by omega, hraw.symm, rfl⟩
      omega

namespace Decoding

open Header (IsLength)

theorem Lead.size_le_of_ofContent {policy : IntegerPolicy} {tag : Tag} {raw : Bytes} {lead : Lead}
    (h : ofContent policy tag raw = .ok lead) : lead.size ≤ raw.length := by
  cases raw with
  | cons b rest => cases lead <;> simp [size]
  | nil =>
    unfold ofContent at h
    split at h
    · cases h
      exact Nat.le_refl 0
    · split at h
      · cases h
      · split at h
        · cases h
        · cases h
          exact Nat.le_refl 0

theorem outcome_fill (options : Options) (entry : Entry) (destination : Destination)
    {input : Bytes} (hinput : input.length < wordLimit) (start bound : Nat) (tag : Tag)
    (index : Nat) :
    Attempt.outcome
        ((Slot.ofDestination destination).fill options entry input start bound tag index) =
      readItem options entry destination input start bound tag index := by
  unfold Slot.fill readItem
  rw [Attempt.outcome_bind, Attempt.outcome_leaving]
  cases hlength : Header.readLength input (start + 1) bound true with
  | error failure => rfl
  | ok found =>
    obtain ⟨length, next⟩ := found
    obtain ⟨_, hfits⟩ := Header.readLength_bounds hlength
    have hstop : Word.add next length = .ok (next + length) := by
      rw [Word.add, if_pos (by omega)]
    have hraw : input.slice next (next + length) = .ok ((input.drop next).take length) := by
      rw [Bytes.slice, if_pos ⟨by omega, by omega⟩, Nat.add_sub_cancel_left]
    have hrawLength : ((input.drop next).take length).length = length := by
      rw [List.length_take, List.length_drop]
      omega
    simp only [ok_bind, hstop, hraw, Attempt.outcome_bind, Attempt.outcome_leaving]
    cases hlead : Lead.ofContent options.integerPolicy tag ((input.drop next).take length) with
    | error failure => rfl
    | ok lead =>
      have hsize := Lead.size_le_of_ofContent hlead
      rw [hrawLength] at hsize
      have hcontentLength : Word.sub (next + length) (next + lead.size) =
          .ok (length - lead.size) := by
        rw [Word.sub, if_pos (by omega), Nat.add_sub_add_left]
      have hcontent : input.slice (next + lead.size) (next + length) =
          .ok (((input.drop next).take length).drop lead.size) := by
        rw [Bytes.slice, if_pos ⟨by omega, by omega⟩, List.drop_take, List.drop_drop,
          Nat.add_sub_add_left]
      have hdropped : (((input.drop next).take length).drop lead.size).length =
          length - lead.size := by
        rw [List.length_drop, hrawLength]
      simp only [ok_bind, hcontentLength, hcontent, hdropped]
      rfl

def Item.holding (tag : Tag) (start : Nat) (octets raw : Bytes) (lead : Lead) : Item where
  tag := tag
  start := start
  contentStart := start + 1 + octets.length + lead.size
  stop := start + 1 + octets.length + raw.length
  lead := lead
  raw := raw
  content := raw.drop lead.size

def Slot.holding (destination : Destination) (value : Value) (item : Item) : Slot where
  destination := destination
  value := value
  present := true
  tag := item.tag
  offset := item.start
  contentOffset := item.contentStart
  length := item.content.length
  unusedBits := item.lead.unused
  zeroPadded := item.lead == .zeroPad

def readContent (options : Options) (entry : Entry) (destination : Destination) (item : Item)
    (index : Nat) : Outcome Value :=
  if entry.headerOnly then readHeader destination item index
  else readValue options destination item index

theorem readItem_eq_ok_iff {options : Options} {entry : Entry} {destination : Destination}
    {input : Bytes} {start bound : Nat} {tag : Tag} {index : Nat} {slot : Slot} {item : Item} :
    readItem options entry destination input start bound tag index = .ok (slot, item) ↔
      ∃ octets raw lead value, IsLength octets raw.length ∧
        input.Holds (start + 1) (octets ++ raw) ∧
        start + 1 + octets.length + raw.length ≤ bound ∧
        Lead.ofContent options.integerPolicy tag raw = .ok lead ∧
        item = .holding tag start octets raw lead ∧
        readContent options entry destination item index = .ok value ∧
        slot = .holding destination value item := by
  constructor
  · intro h
    obtain ⟨⟨length, next⟩, hlength, h⟩ := bind_eq_ok_iff.mp h
    obtain ⟨octets, raw, hoctets, hholds, hbound, rfl, rfl⟩ := Header.holds_of_readLength hlength
    have hraw := (Bytes.holds_append_iff.mp hholds).2.2
    dsimp only at h
    rw [hraw] at h
    obtain ⟨lead, hlead, h⟩ := bind_eq_ok_iff.mp h
    obtain ⟨value, hvalue, h⟩ := bind_eq_ok_iff.mp h
    cases h
    exact ⟨octets, raw, lead, value, hoctets, hholds, hbound, hlead, rfl, hvalue, rfl⟩
  · rintro ⟨octets, raw, lead, value, hoctets, hholds, hbound, hlead, rfl, hvalue, rfl⟩
    obtain ⟨hfront, hfits, hraw⟩ := Bytes.holds_append_iff.mp hholds
    have hlength : Header.readLength input (start + 1) bound true =
        .ok (raw.length, start + 1 + octets.length) :=
      Header.readLength_isLength hoctets hfront (by omega)
    rw [readItem, hlength, ok_bind]
    dsimp only
    rw [hraw, hlead, ok_bind]
    exact bind_eq_ok_iff.mpr ⟨value, hvalue, rfl⟩

end Decoding

end DerTemplate

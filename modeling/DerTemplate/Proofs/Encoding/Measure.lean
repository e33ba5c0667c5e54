import DerTemplate.Proofs.Encoding.Layout

namespace DerTemplate.Encoding

open Stencil Header

variable {schema : Schema} {entry : Entry} {slot : Slot}

def Slot.held (slot : Slot) (entry : Entry) (children : Nat) : Nat :=
  if slot.nests entry then children else 0

theorem Slot.held_eq {slot : Slot} {entry : Entry} {children : Nat}
    (h : slot.nests entry = false → children = 0) : slot.held entry children = children := by
  unfold held
  split
  · rfl
  · rename_i hnests
    exact (h (by simpa using hnests)).symm

def Slot.Writable (slot : Slot) (entry : Entry) : Prop :=
  slot.nests entry = false →
    (∃ encoded, slot.value = .replace encoded) ∨
      ∃ l, (∀ j, layout entry (slot.baseTag entry) slot.value j = .ok l) ∧
        l.size = .ok (slot.declared entry 0)

def HeaderKept (entry : Entry) (slot : Slot) : Prop :=
  entry.headerOnly = true → ∀ encoded, slot.value ≠ .replace encoded

def Slot.fits (slot : Slot) (entry : Entry) (children : Nat) : Bool :=
  match slot.value with
  | .replace _ => true
  | _ =>
    decide (slot.declared entry (slot.held entry children) < wordLimit) &&
      decide ((slot.own entry (slot.held entry children)).length + slot.held entry children <
        wordLimit)

structure Slot.Sound (slot : Slot) (entry : Entry) (children : Nat) : Prop where
  kept : HeaderKept entry slot
  alone : slot.nests entry = false → children = 0
  layout : slot.nests entry = false →
    ∃ l, ∀ index, layout entry (slot.baseTag entry) slot.value index = .ok l

def Slot.measured (slot : Slot) (entry : Entry) (children : Nat) : Measure :=
  let own := (slot.own entry (slot.held entry children)).length
  ⟨slot.declared entry (slot.held entry children), own, own + slot.held entry children⟩

theorem length_toList (lead : Option UInt8) : lead.toList.length = if lead.isSome then 1 else 0 := by
  cases lead <;> rfl

theorem length_leadBytes_none (entry : Entry) (hnone : slot.value = .none) :
    (slot.leadBytes entry).length = if isBits entry (slot.baseTag entry) then 1 else 0 := by
  rw [Slot.leadBytes_none entry hnone, length_toList, wholeBits]
  cases isBits entry (slot.baseTag entry) <;> rfl

theorem length_own (entry : Entry) (hvalue : ∀ encoded, slot.value ≠ .replace encoded) (nested : Nat) :
    (slot.own entry nested).length = 1 + lengthSize (slot.declared entry nested) +
      (slot.leadBytes entry).length + if entry.headerOnly then 0 else (slot.body entry).length := by
  unfold Slot.own
  split
  · rename_i encoded hreplace
    exact absurd hreplace (hvalue encoded)
  · cases entry.headerOnly <;>
      simp [length_lengthOctets, Nat.add_assoc, Nat.add_comm, Nat.add_left_comm]

theorem fits_iff {children : Nat} (hvalue : ∀ encoded, slot.value ≠ .replace encoded) :
    slot.fits entry children = true ↔
      slot.declared entry (slot.held entry children) < wordLimit ∧
        (slot.own entry (slot.held entry children)).length + slot.held entry children <
          wordLimit := by
  unfold Slot.fits
  split
  · rename_i encoded hreplace
    exact absurd hreplace (hvalue encoded)
  · rw [Bool.and_eq_true, decide_eq_true_iff, decide_eq_true_iff]

theorem sizes_of_layout {l : Layout} {index : Nat}
    (hl : layout entry (slot.baseTag entry) slot.value index = .ok l) :
    l.leadSize = (slot.leadBytes entry).length ∧ l.payload = (slot.body entry).length := by
  obtain ⟨_, hlead, hpayload⟩ := layout_eq_ok hl
  refine ⟨?_, hpayload⟩
  simp only [Layout.leadSize, Slot.leadBytes, hlead, length_toList]

theorem layout_size {l : Layout} {index : Nat}
    (hl : layout entry (slot.baseTag entry) slot.value index = .ok l)
    (hfits : (slot.leadBytes entry).length + (slot.body entry).length < wordLimit) :
    l.size = .ok (slot.declared entry 0) := by
  obtain ⟨hlead, hbody⟩ := sizes_of_layout hl
  rw [Layout.size, hlead, hbody]
  exact Word.add_eq_ok_iff.mpr ⟨hfits, rfl⟩

theorem measureHeader_eq (children : Nat) (hnests : slot.nests entry = true) :
    measureHeader entry (slot.baseTag entry) children =
      if slot.fits entry children then .ok (slot.measured entry children) else fault := by
  obtain ⟨hheader, hnone⟩ := Slot.nests_eq_true_iff.mp hnests
  have hvalue (encoded : Bytes) : slot.value ≠ .replace encoded := by simp [hnone]
  have hheld : slot.held entry children = children := if_pos hnests
  have hbody : (slot.body entry).length = 0 := by rw [Slot.body_none entry hnone, List.length_nil]
  have hlead := length_leadBytes_none entry hnone
  have hdeclared : slot.declared entry children =
      children + if isBits entry (slot.baseTag entry) then 1 else 0 := by
    rw [Slot.declared, hbody, hlead]
    omega
  have hown := length_own entry hvalue children
  rw [hheader, if_pos rfl, hlead] at hown
  have hfits := @fits_iff entry slot children hvalue
  rw [hheld] at hfits
  rw [measureHeader, Word.add_bind, ← hdeclared]
  split
  · rename_i hcontent
    rw [Word.add_bind]
    split
    · rename_i hlength
      rw [if_pos (hfits.mpr ⟨hcontent, by omega⟩), Slot.measured, hheld]
      refine congrArg Except.ok ?_
      rw [Measure.mk.injEq]
      exact ⟨rfl, by omega, by omega⟩
    · rename_i hlength
      rw [if_neg fun h => hlength (by have := (hfits.mp h).2; omega)]
  · rename_i hcontent
    rw [if_neg fun h => hcontent (hfits.mp h).1]

theorem measureItem_eq {l : Layout} {index : Nat}
    (hvalue : ∀ encoded, slot.value ≠ .replace encoded)
    (hl : layout entry (slot.baseTag entry) slot.value index = .ok l) :
    measureItem entry (slot.baseTag entry) slot.value index =
      if slot.fits entry 0 then .ok (slot.measured entry 0) else fault := by
  obtain ⟨hlead, hbody⟩ := sizes_of_layout hl
  have hheld : slot.held entry 0 = 0 := by rw [Slot.held, ite_self]
  have hdeclared : slot.declared entry 0 = l.leadSize + l.payload := by
    rw [Slot.declared, hlead, hbody, Nat.add_zero]
  have hown := length_own entry hvalue 0
  rw [← hlead, ← hbody] at hown
  have hfits := @fits_iff entry slot 0 hvalue
  rw [hheld, Nat.add_zero] at hfits
  have hsum : (slot.own entry 0).length = 1 + lengthSize (slot.declared entry 0) +
      if entry.headerOnly then l.leadSize else slot.declared entry 0 := by
    rw [hown, hdeclared]
    split <;> omega
  rw [measureItem, hl, ok_bind, Layout.size, Word.add_bind, ← hdeclared]
  split
  · rename_i hcontent
    rw [Word.add_bind, ← hsum]
    split
    · rename_i hlength
      rw [if_pos (hfits.mpr ⟨hcontent, hlength⟩), Slot.measured, hheld]
      rfl
    · rename_i hlength
      rw [if_neg fun h => hlength (hfits.mp h).2]
  · rename_i hcontent
    rw [if_neg fun h => hcontent (hfits.mp h).1]

section

variable {slots : List Slot} {i children : Nat}
variable (hbelow : (if entry.headerOnly then childLengths schema slots i entry.depth else .ok 0) =
  .ok children)
include hbelow

theorem measure_of_sound (hsound : slot.Sound entry children) :
    measure schema slots i entry slot =
      if slot.fits entry children then .ok (slot.measured entry children) else fault := by
  rw [measure, hbelow, ok_bind]
  split
  · rename_i encoded hvalue
    have hnests : slot.nests entry = false := by simp [Slot.nests, hvalue, Value.isNone]
    have hmeasured : slot.measured entry children =
        ⟨encoded.length, encoded.length, encoded.length⟩ := by
      simp [Slot.measured, Slot.held, hnests, Slot.declared, Slot.leadBytes, Slot.body, Slot.own,
        hvalue, Value.lead, Value.body]
    rw [if_neg fun hheader => hsound.kept hheader encoded hvalue, hmeasured, Slot.fits, hvalue]
    rfl
  · rename_i hvalue
    cases hnests : slot.nests entry with
    | true =>
      obtain ⟨hheader, hempty⟩ := Slot.nests_eq_true_iff.mp hnests
      rw [if_pos ⟨by rw [hempty, Value.isNone], hheader⟩]
      exact measureHeader_eq children hnests
    | false =>
      obtain ⟨l, hlayout⟩ := hsound.layout hnests
      obtain rfl := hsound.alone hnests
      rw [if_neg (fun hboth => by simp [Slot.nests, hboth.1, hboth.2] at hnests),
        if_neg (Nat.lt_irrefl 0)]
      exact measureItem_eq hvalue (hlayout i)

theorem measure_refused (hleaf : entry.headerOnly = false → children = 0)
    (hunsound : ¬slot.Sound entry children) :
    ∃ error, measure schema slots i entry slot = refuse error := by
  rw [measure, hbelow, ok_bind]
  split
  · rename_i encoded hvalue
    split
    · exact ⟨_, rfl⟩
    · rename_i hheader
      refine absurd ⟨fun h => absurd h hheader, fun _ => hleaf (by simpa using hheader), fun _ => ?_⟩
        hunsound
      rw [hvalue]
      exact ⟨_, fun _ => rfl⟩
  · rename_i hvalue
    split
    · rename_i hnests
      have hnests : slot.nests entry = true := Bool.and_eq_true_iff.mpr ⟨hnests.2, hnests.1⟩
      exact absurd ⟨fun _ => hvalue, fun h => by simp [hnests] at h, fun h => by simp [hnests] at h⟩
        hunsound
    · split
      · exact ⟨_, rfl⟩
      · rename_i hzero
        rcases layout_cases entry (slot.baseTag entry) slot.value i with
          ⟨error, hlayout⟩ | ⟨l, hlayout⟩
        · refine ⟨error, ?_⟩
          rw [measureItem, ← Slot.baseTag, hlayout]
          rfl
        · exact absurd ⟨fun _ => hvalue, fun _ => Nat.eq_zero_of_not_pos hzero,
            fun _ => ⟨l, (layout_eq_ok hlayout).1⟩⟩ hunsound

end

theorem Slot.Sound.writable {children : Nat} (h : slot.Sound entry children)
    (hfits : slot.fits entry children = true) : slot.Writable entry := by
  intro hnests
  by_cases hreplace : ∃ encoded, slot.value = .replace encoded
  · exact .inl hreplace
  · obtain ⟨l, hlayout⟩ := h.layout hnests
    have hcontent := ((fits_iff (not_exists.mp hreplace)).mp hfits).1
    rw [Slot.held, hnests, if_neg Bool.false_ne_true] at hcontent
    exact .inr ⟨l, hlayout, layout_size (hlayout 0) hcontent⟩

theorem Slot.Writable.sound {children : Nat} (h : slot.Writable entry)
    (hkept : HeaderKept entry slot) (halone : slot.nests entry = false → children = 0) :
    slot.Sound entry children := by
  refine ⟨hkept, halone, fun hnests => ?_⟩
  rcases h hnests with ⟨encoded, hvalue⟩ | ⟨l, hlayout, _⟩
  · rw [hvalue]
    exact ⟨_, fun _ => rfl⟩
  · exact ⟨l, hlayout⟩

theorem Slot.Writable.fits {children : Nat} (h : slot.Writable entry)
    (hlimit : (slot.own entry (slot.held entry children)).length + slot.held entry children <
      wordLimit) :
    slot.fits entry children = true := by
  by_cases hreplace : ∃ encoded, slot.value = .replace encoded
  · obtain ⟨encoded, hvalue⟩ := hreplace
    rw [Slot.fits, hvalue]
  · have hvalue := not_exists.mp hreplace
    refine (fits_iff hvalue).mpr ⟨?_, hlimit⟩
    cases hnests : slot.nests entry with
    | true =>
      obtain ⟨_, hnone⟩ := Slot.nests_eq_true_iff.mp hnests
      have hbody : (slot.body entry).length = 0 := by
        rw [Slot.body_none entry hnone, List.length_nil]
      rw [length_own entry hvalue] at hlimit
      rw [Slot.declared, hbody]
      omega
    | false =>
      rcases h hnests with ⟨encoded, hencoded⟩ | ⟨l, _, hsize⟩
      · exact absurd hencoded (hvalue encoded)
      · rw [Slot.held, hnests, if_neg Bool.false_ne_true]
        obtain ⟨hword, hsum⟩ := Word.add_eq_ok_iff.mp hsize
        exact hsum ▸ hword

end DerTemplate.Encoding

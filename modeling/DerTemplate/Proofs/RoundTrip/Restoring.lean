import DerTemplate.Proofs.RoundTrip.Item

namespace DerTemplate

namespace Decoding

def Slot.leadSize (slot : Slot) : Nat :=
  if slot.zeroPadded ∨ slot.tag = Tag.bitString then 1 else 0

theorem leadSize_holding {policy : IntegerPolicy} {tag : Tag} {raw : Bytes} {lead : Lead}
    (h : Lead.ofContent policy tag raw = .ok lead) (destination : Destination) (value : Value)
    (start : Nat) (octets : Bytes) :
    (Slot.holding destination value (.holding tag start octets raw lead)).leadSize = lead.size := by
  unfold Lead.ofContent at h
  simp only [Slot.leadSize, Slot.holding, Item.holding]
  split at h
  · rename_i hconstructed
    cases h
    have htag : tag ≠ Tag.bitString := by
      rintro rfl
      cases hconstructed
    simp [htag, Lead.size]
  · split at h
    · rename_i hinteger
      obtain ⟨padded, _, h⟩ := bind_eq_ok_iff.mp h
      have htag : tag ≠ Tag.bitString := by
        rintro rfl
        cases hinteger
      cases padded <;> cases h <;> simp [htag, Lead.size]
    · split at h
      · rename_i htag
        obtain ⟨unused, _, h⟩ := bind_eq_ok_iff.mp h
        cases h
        simp [htag, Lead.size]
      · rename_i htag
        cases h
        simp [htag, Lead.size]

end Decoding

namespace Encoding

theorem writable_of_layout {entry : Entry} {slot : Slot} {l : Layout}
    (hlayout : layout entry (slot.baseTag entry) slot.value 0 = .ok l)
    (hlimit : (slot.content entry []).length < wordLimit) : slot.Writable entry := by
  rw [← declared_content, Slot.declared, List.length_nil, Nat.add_zero] at hlimit
  exact fun _ => .inr ⟨l, (layout_eq_ok hlayout).1, layout_size hlayout hlimit⟩

end Encoding

namespace RoundTrip

open Encoding (Plain isBits isNumber wholeBits_number)
open Decoding (Destination Item Lead readContent)

def destinationFor (entry : Entry) : Destination :=
  if entry.headerOnly then .none
  else if isNumber entry entry.tag then .integer true
  else .content

def regivenValue (entry : Entry) (found : Decoding.Slot) : Encoding.Value :=
  if entry.headerOnly then .none
  else match found.value with
    | .integer n => .integer n
    | .bytes content =>
      if isBits entry entry.tag then .bits content found.unusedBits else .bytes content
    | _ => .none

def regiven (entry : Entry) (found : Decoding.Slot) : Encoding.Slot :=
  { Encoding.Slot.ofValue (regivenValue entry found) with suppressed := !found.present }

structure Restorable (entry : Entry) : Prop where
  base : entry.tag.base = entry.tag
  header : entry.headerOnly = true → isNumber entry entry.tag = false

variable {entry : Entry} {raw octets : Bytes} {lead : Lead} {value : Decoding.Value} {index pos : Nat}

theorem not_number_of_bits (h : isBits entry entry.tag = true) :
    isNumber entry entry.tag = false := by
  cases hnumber : isNumber entry entry.tag with
  | false => rfl
  | true =>
    have hwhole := wholeBits_number hnumber
    rw [Encoding.wholeBits, h] at hwhole
    cases hwhole

structure Writes (entry : Entry) (slot : Encoding.Slot) (front : Bytes) : Prop where
  plain : Plain entry slot
  writable : slot.Writable entry
  front : slot.value.content entry = front

section Writes

variable {slot : Encoding.Slot} (hentry : Restorable entry) (htag : slot.tag = none)
include hentry htag

theorem writes_value {layout : Encoding.Layout} (hheader : entry.headerOnly = false)
    (hreadable : slot.value.Readable entry)
    (hlayout : Encoding.layout entry entry.tag slot.value 0 = .ok layout)
    (hlimit : raw.length < wordLimit) (hcontent : slot.value.content entry = raw) :
    Writes entry slot raw := by
  have hplain : Plain entry slot :=
    ⟨hentry.base, htag, hreadable, fun h => absurd (hheader.symm.trans h) Bool.false_ne_true⟩
  have hraw : slot.content entry [] = raw := by
    rw [hplain.content, Encoding.Slot.raw, List.append_nil, hcontent]
  rw [← hplain.baseTag] at hlayout
  exact ⟨hplain, Encoding.writable_of_layout hlayout (by rwa [hraw]), hcontent⟩

theorem writes_integer (hheader : entry.headerOnly = false)
    (hnumber : isNumber entry entry.tag = true) (hraw : Content.Shortest raw)
    (hlimit : raw.length < wordLimit) (hvalue : slot.value = .integer raw.toInt) :
    Writes entry slot raw := by
  have hbits : isBits entry entry.tag = false := by
    rw [Bool.eq_false_iff]
    intro hbits
    rw [not_number_of_bits hbits] at hnumber
    cases hnumber
  refine writes_value hentry htag hheader ?_ (by rw [hvalue]; rfl) hlimit ?_
  · rw [hvalue]
    exact hbits
  · rw [hvalue]
    simp [Encoding.Value.content, Encoding.Value.lead, Encoding.Value.body,
      wholeBits_number hnumber, Content.ofInt_toInt hraw]

theorem writes_bits (hheader : entry.headerOnly = false) (hbits : isBits entry entry.tag = true)
    {unused : UInt8} (hraw : Content.unusedBitCount raw = .ok unused)
    (hlimit : raw.length < wordLimit) (hvalue : slot.value = .bits (raw.drop 1) unused) :
    Writes entry slot raw := by
  obtain ⟨bits, rfl, hrange, hempty, hcleared⟩ := Content.unusedBitCount_eq_ok hraw
  rw [List.drop_one, List.tail_cons] at hvalue
  have hlayout : Encoding.layout entry entry.tag slot.value 0 = .ok ⟨some unused, bits.length⟩ := by
    rw [hvalue]
    refine if_neg ?_
    rintro (hlarge | ⟨hnil, hzero⟩)
    · exact hrange hlarge
    · exact hzero (hempty hnil)
  refine writes_value hentry htag hheader ?_ hlayout hlimit ?_
  · rw [hvalue]
    exact hbits
  · rw [hvalue]
    simp [Encoding.Value.content, Encoding.Value.lead, Encoding.Value.body, hcleared]

theorem writes_bytes (hheader : entry.headerOnly = false)
    (hnumber : isNumber entry entry.tag = false) (hbits : isBits entry entry.tag = false)
    (hlimit : raw.length < wordLimit) (hvalue : slot.value = .bytes raw) :
    Writes entry slot raw := by
  have hwhole : Encoding.wholeBits entry entry.tag = none := by
    rw [Encoding.wholeBits, hbits, if_neg Bool.false_ne_true]
  have hlead : Encoding.Value.lead entry entry.tag (.bytes raw) = none := by
    rw [Encoding.Value.lead, hnumber, if_neg (by simp), hwhole]
  refine writes_value hentry htag hheader ?_
    (show _ = Except.ok (Encoding.Layout.mk none raw.length) from ?_) hlimit ?_
  · rw [hvalue]
    intro h
    rw [hnumber] at h
    cases h
  · rw [hvalue, Encoding.layout, hnumber, if_neg (by simp), hwhole]
  · rw [hvalue, Encoding.Value.content, hlead]
    simp [Encoding.Value.body]

theorem writes_none (hheader : entry.headerOnly = true) (hvalue : slot.value = .none) :
    Writes entry slot (Encoding.wholeBits entry entry.tag).toList := by
  refine ⟨⟨hentry.base, htag, ?_, fun _ => hvalue⟩, ?_, ?_⟩
  · rw [hvalue]
    exact hentry.header hheader
  · intro hnests
    rw [Encoding.Slot.nests, hheader, hvalue] at hnests
    cases hnests
  · rw [hvalue]
    simp [Encoding.Value.content, Encoding.Value.lead, Encoding.Value.body, Encoding.Stencil.fill]

end Writes

section Read

variable (hentry : Restorable entry)
  (hlead : Lead.ofContent .strict entry.wireTag raw = .ok lead)
  (hvalue : readContent .strict entry (destinationFor entry)
    (.holding entry.wireTag pos octets raw lead) index = .ok value)
include hentry hlead hvalue

theorem writes_leaf (hheader : entry.headerOnly = false) (hlimit : raw.length < wordLimit) :
    Writes entry (regiven entry (.holding (destinationFor entry) value
      (.holding entry.wireTag pos octets raw lead))) raw := by
  rw [Decoding.ofContent_wireTag hentry.base] at hlead
  rw [readContent, hheader, if_neg Bool.false_ne_true, destinationFor, hheader,
    if_neg Bool.false_ne_true] at hvalue
  cases hnumber : isNumber entry entry.tag with
  | true =>
    rw [hnumber, if_pos rfl] at hlead hvalue
    obtain ⟨padded, hpadded, _⟩ := bind_eq_ok_iff.mp hlead
    cases hvalue
    refine writes_integer hentry rfl hheader hnumber (Content.shortest_of_isPadded hpadded) hlimit ?_
    simp [regiven, regivenValue, Encoding.Slot.ofValue, hheader, Decoding.Slot.holding,
      Decoding.Item.holding]
  | false =>
    rw [hnumber, if_neg Bool.false_ne_true] at hlead hvalue
    cases hvalue
    cases hbits : isBits entry entry.tag with
    | true =>
      rw [hbits, if_pos rfl] at hlead
      obtain ⟨unused, hunused, hlead⟩ := bind_eq_ok_iff.mp hlead
      cases hlead
      refine writes_bits hentry rfl hheader hbits hunused hlimit ?_
      simp [regiven, regivenValue, Encoding.Slot.ofValue, hheader, hbits, Decoding.Slot.holding,
        Decoding.Item.holding, Lead.size, Lead.unused]
    | false =>
      rw [hbits, if_neg Bool.false_ne_true] at hlead
      cases hlead
      refine writes_bytes hentry rfl hheader hnumber hbits hlimit ?_
      simp [regiven, regivenValue, Encoding.Slot.ofValue, hheader, hbits, Decoding.Slot.holding,
        Decoding.Item.holding, Lead.size]

omit hvalue in
theorem writes_header (hheader : entry.headerOnly = true)
    (hwhole : isBits entry entry.tag = true → lead.unused = 0) :
    Writes entry (regiven entry (.holding (destinationFor entry) value
      (.holding entry.wireTag pos octets raw lead))) (raw.take lead.size) := by
  have hnone : regivenValue entry (.holding (destinationFor entry) value
      (.holding entry.wireTag pos octets raw lead)) = .none := by
    rw [regivenValue, hheader, if_pos rfl]
  have hwrites : Writes entry (regiven entry (.holding (destinationFor entry) value
      (.holding entry.wireTag pos octets raw lead))) (Encoding.wholeBits entry entry.tag).toList :=
    writes_none hentry rfl hheader hnone
  have hfront : (Encoding.wholeBits entry entry.tag).toList = raw.take lead.size := by
    rw [Decoding.ofContent_wireTag hentry.base, hentry.header hheader,
      if_neg Bool.false_ne_true] at hlead
    unfold Encoding.wholeBits
    cases hbits : isBits entry entry.tag with
    | true =>
      rw [hbits, if_pos rfl] at hlead
      obtain ⟨unused, hunused, hlead⟩ := bind_eq_ok_iff.mp hlead
      cases hlead
      obtain ⟨bits, rfl, _⟩ := Content.unusedBitCount_eq_ok hunused
      obtain rfl : unused = 0 := hwhole hbits
      rfl
    | false =>
      rw [hbits, if_neg Bool.false_ne_true] at hlead
      cases hlead
      rfl
  exact hfront ▸ hwrites

end Read

end RoundTrip

end DerTemplate

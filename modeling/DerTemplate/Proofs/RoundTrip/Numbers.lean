import DerTemplate.Proofs.Decoding.LeadingZeros
import DerTemplate.Proofs.Decoding.Safety
import DerTemplate.Proofs.Encoding.StrictContent
import DerTemplate.Proofs.RoundTrip.OneLeaf
import Mathlib.Algebra.Group.Int.Defs

namespace DerTemplate

namespace Bytes

theorem length_ofInt_toInt_le {bytes : Bytes} (h : bytes ≠ []) :
    (ofInt bytes.toInt).length ≤ bytes.length := by
  induction bytes using List.reverseRecOn with
  | nil => exact absurd rfl h
  | append_singleton init b ih =>
    have hb := b.toNat_lt
    by_cases hsmall : -128 ≤ toInt (init ++ [b]) ∧ toInt (init ++ [b]) < 128
    · simp [ofInt_small hsmall]
    · cases init with
      | nil =>
        refine absurd ?_ hsmall
        rw [List.nil_append, toInt_singleton]
        split <;> omega
      | cons c init =>
        have hinit := ih (List.cons_ne_nil c init)
        have hlast := toInt_append (List.cons_ne_nil c init) b
        have hquotient : toInt (c :: init ++ [b]) / 256 = toInt (c :: init) := by omega
        rw [ofInt_large hsmall, hquotient]
        simpa using hinit

theorem toInt_of_clear {bytes : Bytes} (h : Content.hasTopBit bytes = false) :
    toInt bytes = toNat bytes := by
  cases bytes with
  | nil => rfl
  | cons b rest =>
    have hb : b &&& 0x80 = 0 := by simpa [Content.hasTopBit] using h
    rw [toInt, if_pos hb]

theorem toInt_neg_of_set {bytes : Bytes} (h : Content.hasTopBit bytes = true) :
    toInt bytes < 0 := by
  cases bytes with
  | nil => cases h
  | cons b rest =>
    have hb : ¬(b &&& 0x80 = 0) := by simpa [Content.hasTopBit] using h
    have hlt := toNat_lt (b :: rest)
    have hpow : ((256 ^ (rest.length + 1) : Nat) : Int) = Nat.pow 256 (rest.length + 1) := rfl
    rw [List.length_cons] at hlt
    rw [toInt, if_neg hb]
    omega

theorem toInt_nonneg_iff {bytes : Bytes} : 0 ≤ toInt bytes ↔ Content.hasTopBit bytes = false := by
  cases h : Content.hasTopBit bytes with
  | false => simp [toInt_of_clear h]
  | true => simp [toInt_neg_of_set h]

end Bytes

namespace Content

theorem toInt_unsigned (n : Nat) : (Bytes.ofNat (unsignedSize n) n).toInt = n := by
  have hvalue := Bytes.toNat_ofNat_of_lt (lt_pow_octetCount n)
  rw [ofNat_unsignedSize]
  cases htop : hasTopBit (Bytes.ofNat (octetCount n) n) with
  | true => simp [Bytes.toInt_zero_cons, hvalue]
  | false => simp [Bytes.toInt_of_clear htop, hvalue]

theorem ofNat_eq_ofInt (n : Nat) : Bytes.ofNat (unsignedSize n) n = Bytes.ofInt n := by
  have hshort := ofInt_toInt (shortest_unsigned n).1
  rw [toInt_unsigned] at hshort
  exact hshort.symm

theorem unsignedSize_eq_integerSize (n : Nat) : unsignedSize n = integerSize n := by
  have hlength := congrArg List.length (ofNat_eq_ofInt n)
  rwa [Bytes.length_ofNat, Bytes.length_ofInt] at hlength

theorem length_magnitude_le_iff {content : Bytes} (h : Shortest content) (hsign : 0 ≤ content.toInt)
    {width : Nat} (hwidth : 1 ≤ width) :
    (magnitude content).length ≤ width ↔ content.toInt < 256 ^ width := by
  obtain ⟨n, hn⟩ := Int.eq_ofNat_of_zero_le hsign
  have hcontent : content = Bytes.ofNat (unsignedSize n) n := by
    rw [ofNat_eq_ofInt, ← hn, ofInt_toInt h]
  have hlength : (magnitude content).length = octetCount n := by
    rw [hcontent, (shortest_unsigned n).2, Bytes.length_ofNat]
  have hpow : ((256 ^ width : Nat) : Int) = 256 ^ width := by simp
  rw [hlength, octetCount_le_iff, hn]
  omega

end Content

namespace Encoding

open Stencil

variable {entry : Entry} {value : Value} {n : Int}

def Value.number? : Value → Option Int
  | .uint8 n => some n.toNat
  | .uint16 n => some n.toNat
  | .uint32 n => some n.toNat
  | .integer n => some n
  | _ => Option.none

theorem boolean_of_isNumber {tag : Tag} (hnumber : isNumber entry tag = true) :
    tag ≠ Tag.boolean := by
  rintro rfl
  simp [isNumber, Tag.isInteger, Tag.boolean, Tag.integer, Tag.enumerated] at hnumber

theorem smallLayout_number {tag : Tag} (hnumber : isNumber entry tag = true) (n index : Nat) :
    smallLayout entry tag n index = .ok ⟨none, Content.integerSize n⟩ := by
  rw [smallLayout, if_neg (boolean_of_isNumber hnumber), wholeBits_number hnumber, if_pos hnumber,
    Content.unsignedSize_eq_integerSize]

theorem layout_number {tag : Tag} (hnumber : isNumber entry tag = true)
    (hvalue : value.number? = some n) (index : Nat) :
    layout entry tag value index = .ok ⟨none, Content.integerSize n⟩ := by
  cases value with
  | uint8 k | uint16 k | uint32 k =>
    cases hvalue
    exact smallLayout_number hnumber _ index
  | integer k =>
    cases hvalue
    rw [layout, wholeBits_number hnumber]
  | none | bytes | bits | oid | replace | placeholder => cases hvalue

theorem numberOctets_number {tag : Tag} (hnumber : isNumber entry tag = true) (n : Nat) :
    numberOctets entry tag n = Bytes.ofInt n := by
  rw [numberOctets, if_neg (boolean_of_isNumber hnumber), if_pos hnumber, Content.ofNat_eq_ofInt]

theorem content_number {slot : Slot} (hnumber : isNumber entry (slot.baseTag entry) = true)
    (hvalue : slot.value.number? = some n) : slot.content entry [] = Bytes.ofInt n := by
  have hlead : slot.leadBytes entry = [] := by
    obtain ⟨_, hlead, _⟩ := layout_eq_ok (layout_number hnumber hvalue 0)
    rw [Slot.leadBytes, ← hlead]
    rfl
  have hbody : slot.body entry = solid (Bytes.ofInt n) := by
    rw [Slot.body]
    cases hslot : slot.value with
    | uint8 k | uint16 k | uint32 k =>
      rw [hslot] at hvalue
      cases hvalue
      exact congrArg solid (numberOctets_number hnumber _)
    | integer k =>
      rw [hslot] at hvalue
      cases hvalue
      rfl
    | none | bytes | bits | oid | replace | placeholder =>
      rw [hslot] at hvalue
      cases hvalue
  simp [Slot.content, hlead, hbody]

theorem isNumber_of_wireTag (hinteger : entry.wireTag.isInteger = true) (value : Value) :
    isNumber entry ((Slot.ofValue value).baseTag entry) = true := by
  have hbase : (Slot.ofValue value).baseTag entry = entry.wireTag := Tag.base_of_isInteger hinteger
  have hprimitive : entry.constructed = false := by
    cases hconstructed : entry.constructed with
    | false => rfl
    | true =>
      rw [Entry.wireTag, hconstructed, if_pos rfl, Tag.isInteger_constructed] at hinteger
      cases hinteger
  rw [hbase, isNumber, hprimitive, hinteger]
  rfl

theorem writeLeaf_number (hvalid : Schema.validate [entry] = .ok ())
    (hleaf : entry.headerOnly = false) (hinteger : entry.wireTag.isInteger = true)
    (hvalue : value.number? = some n) :
    writeLeaf entry value =
      if (entry.octets (Bytes.ofInt n)).length < lengthLimit then
        .ok (entry.octets (Bytes.ofInt n))
      else fault := by
  have hnumber := isNumber_of_wireTag hinteger value
  have hcontent : (Slot.ofValue value).content entry [] = Bytes.ofInt n :=
    content_number hnumber hvalue
  have hreplace : ∀ encoded, value ≠ .replace encoded := by
    rintro encoded rfl
    cases hvalue
  rw [writeLeaf_eq hvalid hleaf hreplace ⟨_, fun index => layout_number hnumber hvalue index⟩,
    hcontent]

end Encoding

namespace Decoding

open Content

variable {entry : Entry} {destination : Destination} {content : Bytes}

theorem readOctets_shortest (options : Options) (hvalid : Schema.validate [entry] = .ok ())
    (hleaf : entry.headerOnly = false) (hinteger : entry.wireTag.isInteger = true)
    (hchoice : ∀ tags, destination ≠ .choice tags)
    (hlimit : (entry.octets content).length < lengthLimit) (h : Shortest content) :
    readOctets entry destination options (entry.octets content) = List.singleton <$>
      readValue options destination (.tolerant entry.wireTag content) 0 := by
  rw [readOctets_eq options hvalid hleaf hchoice hlimit, ofContent_isInteger hinteger,
    isPadded_shortest h]
  rfl

theorem readOctets_signed (options : Options) (hvalid : Schema.validate [entry] = .ok ())
    (hleaf : entry.headerOnly = false) (hinteger : entry.wireTag.isInteger = true)
    (hlimit : (entry.octets content).length < lengthLimit) (h : Shortest content) :
    readOctets entry (.integer true) options (entry.octets content) =
      .ok [.integer content.toInt] := by
  have hchoice (tags : List Tag) : Destination.integer true ≠ .choice tags := nofun
  rw [readOctets_shortest options hvalid hleaf hinteger hchoice hlimit h]
  rfl

theorem negative_tolerant (tag : Tag) (content : Bytes) :
    ((Item.tolerant tag content).lead = .absent ∧
      hasTopBit (Item.tolerant tag content).content = true) ↔ content.toInt < 0 := by
  rw [← Int.not_le, Bytes.toInt_nonneg_iff, Item.tolerant_content]
  unfold Item.tolerant Item.holding magnitude
  cases hpad : hasPad content with
  | false => simp
  | true =>
    match content, hpad with
    | first :: next :: rest, hpad =>
      have hzero : first = 0 := by simpa [hasPad] using hpad
      simp [hasTopBit, hzero]

theorem toNat_tolerant (tag : Tag) {content : Bytes} (hsign : 0 ≤ content.toInt) :
    ((Item.tolerant tag content).content.toNat : Int) = content.toInt := by
  rw [Item.tolerant_content, toNat_magnitude,
    Bytes.toInt_of_clear (Bytes.toInt_nonneg_iff.mp hsign)]

theorem readOctets_unsigned (options : Options) (hvalid : Schema.validate [entry] = .ok ())
    (hleaf : entry.headerOnly = false) (hinteger : entry.wireTag.isInteger = true)
    (hlimit : (entry.octets content).length < lengthLimit) (h : Shortest content) :
    readOctets entry (.integer false) options (entry.octets content) =
      if 0 ≤ content.toInt then .ok [.integer content.toInt]
      else refuse (.invalidEncoding (.negativeEntry 0)) := by
  have hnegative := negative_tolerant entry.wireTag content
  have htag : (Item.tolerant entry.wireTag content).tag.isInteger = true := hinteger
  have hchoice (tags : List Tag) : Destination.integer false ≠ .choice tags := nofun
  rw [readOctets_shortest options hvalid hleaf hinteger hchoice hlimit h, readValue, readInteger,
    if_neg Bool.false_ne_true]
  split
  · rename_i hset
    rw [if_neg (Int.not_le.mpr (hnegative.mp hset.2))]
    rfl
  · rename_i hclear
    have hsign : 0 ≤ content.toInt := by
      by_contra hneg
      exact hclear ⟨htag, hnegative.mpr (Int.not_le.mp hneg)⟩
    rw [if_pos hsign, toNat_tolerant entry.wireTag hsign]
    rfl

end Decoding

namespace RoundTrip

open Content Decoding Encoding

variable {entry : Entry}

theorem integer_bijection (options : Options) (hvalid : Schema.validate [entry] = .ok ())
    (hleaf : entry.headerOnly = false) (hinteger : entry.wireTag.isInteger = true) :
    (∀ n : Int, integerSize n = (Bytes.ofInt n).length ∧ (Bytes.ofInt n).toInt = n ∧
      (∀ bytes : Bytes, bytes ≠ [] → bytes.toInt = n → integerSize n ≤ bytes.length) ∧
      (∃ padded, isPadded (Bytes.ofInt n) .strict = .ok padded) ∧
      writeLeaf entry (.integer n) =
        if (entry.octets (Bytes.ofInt n)).length < lengthLimit then
          .ok (entry.octets (Bytes.ofInt n))
        else fault) ∧
    (∀ (n : Int) (octets : Bytes), writeLeaf entry (.integer n) = .ok octets →
      readOctets entry (.integer true) options octets = .ok [.integer n] ∧
      readOctets entry (.integer false) options octets =
        if 0 ≤ n then .ok [.integer n] else refuse (.invalidEncoding (.negativeEntry 0))) ∧
    ∀ content : Bytes, (∃ padded, isPadded content .strict = .ok padded) →
      Bytes.ofInt content.toInt = content ∧
      ((entry.octets content).length < lengthLimit →
        readOctets entry (.integer true) options (entry.octets content) =
          .ok [.integer content.toInt]) := by
  refine ⟨fun n => ⟨(Bytes.length_ofInt n).symm, Bytes.toInt_ofInt n, ?_,
    isPadded_strict_iff.mpr (shortest_ofInt n), writeLeaf_number hvalid hleaf hinteger rfl⟩, ?_, ?_⟩
  · rintro bytes hbytes rfl
    rw [← Bytes.length_ofInt]
    exact Bytes.length_ofInt_toInt_le hbytes
  · intro n octets hwritten
    rw [writeLeaf_number hvalid hleaf hinteger rfl] at hwritten
    split at hwritten
    · rename_i hlimit
      obtain rfl := Except.ok.inj hwritten
      have hshort := shortest_ofInt n
      have hsigned := readOctets_signed options hvalid hleaf hinteger hlimit hshort
      have hunsigned := readOctets_unsigned options hvalid hleaf hinteger hlimit hshort
      rw [Bytes.toInt_ofInt] at hsigned hunsigned
      exact ⟨hsigned, hunsigned⟩
    · cases hwritten
  · intro content hstrict
    have hshort := isPadded_strict_iff.mp hstrict
    exact ⟨ofInt_toInt hshort, fun hlimit =>
      readOctets_signed options hvalid hleaf hinteger hlimit hshort⟩

theorem integer_bijection_negative :
    writeLeaf (.leaf 0 Tag.enumerated) (.integer (-129)) = .ok [0x0A, 0x02, 0xFF, 0x7F] ∧
      readOctets (.leaf 0 Tag.enumerated) (.integer true) .strict [0x0A, 0x02, 0xFF, 0x7F] =
        .ok [.integer (-129)] := by
  have hvalid : Schema.validate [.leaf 0 Tag.enumerated] = .ok () := rfl
  obtain ⟨hwrite, hread, hstrict⟩ := integer_bijection .strict hvalid rfl rfl
  obtain ⟨hcontent, _⟩ := hstrict [0xFF, 0x7F] ⟨false, rfl⟩
  rw [show Bytes.toInt [0xFF, 0x7F] = -129 by decide] at hcontent
  obtain ⟨_, _, _, _, hwritten⟩ := hwrite (-129)
  rw [hcontent, if_pos (by decide)] at hwritten
  exact ⟨hwritten, (hread _ _ hwritten).1⟩

end RoundTrip

end DerTemplate

import DerTemplate.Proofs.Encoding.Widening

namespace DerTemplate

namespace Content

def Spells (content : Bytes) (width n : Nat) : Prop :=
  (∃ padded, isPadded content .strict = .ok padded) ∧ content.toInt = n ∧ n < 256 ^ width

theorem length_ofInt_le {n : Nat} (h : n < 2 ^ 32) : (Bytes.ofInt n).length ≤ 5 := by
  have hcount : octetCount n ≤ 4 := octetCount_le_iff.mpr ⟨by decide, by omega⟩
  rw [← ofNat_eq_ofInt, Bytes.length_ofNat, unsignedSize]
  split <;> omega

end Content

namespace Decoding

open Content

variable {entry : Entry} {destination : Destination} {content : Bytes} {width : Nat}

theorem isUnsigned_of_width (hwidth : destination.width? = some width) :
    destination.isUnsigned = true ∧ 1 ≤ width ∧ ∀ n, destination.keeping n = .number n := by
  cases destination with
  | uint8 | uint16 | uint32 =>
    cases hwidth
    exact ⟨rfl, by decide, fun _ => rfl⟩
  | none | content | integer | choice | oid | expect | bounded => cases hwidth

theorem readValue_width {options : Options} (hinteger : entry.wireTag.isInteger = true)
    (hwidth : destination.width? = some width) (h : Shortest content) {value : Value} :
    readValue options destination (.tolerant entry.wireTag content) 0 = .ok value ↔
      ∃ n : Nat, value = .number n ∧ content.toInt = n ∧ n < 256 ^ width := by
  obtain ⟨hunsigned, hpos, hkeeping⟩ := isUnsigned_of_width hwidth
  have hcontent : (Item.tolerant entry.wireTag content).content ≠ [] := by
    rw [Item.tolerant_content]
    exact magnitude_ne_nil h.1
  have hpow : ((256 ^ width : Nat) : Int) = 256 ^ width := by simp
  rw [readValue_unsigned_iff options 0 hunsigned hinteger hcontent, negative_tolerant, hwidth,
    hkeeping]
  constructor
  · rintro ⟨hfits, hsign, rfl⟩
    have hsign := Int.not_lt.mp hsign
    have hlength := hfits width rfl
    rw [Item.tolerant_content, length_magnitude_le_iff h hsign hpos] at hlength
    have hvalue := toNat_tolerant entry.wireTag hsign
    exact ⟨_, rfl, hvalue.symm, by omega⟩
  · rintro ⟨n, rfl, hn, hlt⟩
    have hsign : 0 ≤ content.toInt := by omega
    have hvalue := toNat_tolerant entry.wireTag hsign
    refine ⟨?_, Int.not_lt.mpr hsign, congrArg Value.number (by omega)⟩
    rintro _ ⟨⟩
    rw [Item.tolerant_content, length_magnitude_le_iff h hsign hpos]
    omega

theorem safe_readOctets (options : Options) (hvalid : Schema.validate [entry] = .ok ())
    (hleaf : entry.headerOnly = false) (hwidth : destination.width? = some width)
    (hlimit : (entry.octets content).length < lengthLimit) :
    (readOctets entry destination options (entry.octets content)).Safe fun _ => True := by
  obtain ⟨hunsigned, _⟩ := isUnsigned_of_width hwidth
  have hvalue (item : Item) : (readValue options destination item 0).Safe fun _ => True := by
    cases destination with
    | uint8 | uint16 | uint32 => exact (safe_readSmall _ _ _).map _
    | none | content | integer | choice | oid | expect | bounded => cases hwidth
  rw [readOctets_eq options hvalid hleaf (choice_of_isUnsigned hunsigned) hlimit]
  exact ((safe_ofContent _ _ _).bind fun _ _ _ => hvalue _).map _

theorem shortest_of_readOctets {oids : Bool} {values : List Value}
    (hvalid : Schema.validate [entry] = .ok ()) (hleaf : entry.headerOnly = false)
    (hinteger : entry.wireTag.isInteger = true) (hchoice : ∀ tags, destination ≠ .choice tags)
    (hlimit : (entry.octets content).length < lengthLimit)
    (h : readOctets entry destination ⟨.strict, oids⟩ (entry.octets content) = .ok values) :
    Shortest content := by
  rw [readOctets_eq _ hvalid hleaf hchoice hlimit, ofContent_isInteger hinteger] at h
  obtain ⟨_, hread, _⟩ := Outcome.map_eq_ok_iff.mp h
  obtain ⟨_, hlead, _⟩ := bind_eq_ok_iff.mp hread
  obtain ⟨padded, hpadded, _⟩ := bind_eq_ok_iff.mp hlead
  exact isPadded_strict_iff.mp ⟨padded, hpadded⟩

theorem readOctets_width {oids : Bool} (hvalid : Schema.validate [entry] = .ok ())
    (hleaf : entry.headerOnly = false) (hinteger : entry.wireTag.isInteger = true)
    (hwidth : destination.width? = some width)
    (hlimit : (entry.octets content).length < lengthLimit) (values : List Value) :
    readOctets entry destination ⟨.strict, oids⟩ (entry.octets content) = .ok values ↔
      ∃ n, values = [.number n] ∧ Spells content width n := by
  obtain ⟨hunsigned, _⟩ := isUnsigned_of_width hwidth
  have hchoice := choice_of_isUnsigned hunsigned
  constructor
  · intro h
    have hshort := shortest_of_readOctets hvalid hleaf hinteger hchoice hlimit h
    rw [readOctets_shortest _ hvalid hleaf hinteger hchoice hlimit hshort] at h
    obtain ⟨value, hok, rfl⟩ := Outcome.map_eq_ok_iff.mp h
    obtain ⟨n, rfl, hn⟩ := (readValue_width hinteger hwidth hshort).mp hok
    exact ⟨n, rfl, isPadded_strict_iff.mpr hshort, hn⟩
  · rintro ⟨n, rfl, hstrict, hn⟩
    have hshort := isPadded_strict_iff.mp hstrict
    rw [readOctets_shortest _ hvalid hleaf hinteger hchoice hlimit hshort,
      (readValue_width hinteger hwidth hshort).mpr ⟨n, rfl, hn⟩]
    rfl

end Decoding

namespace RoundTrip

open Content Decoding Encoding
open Header (lengthSize_le_nine)

variable {entry : Entry}

theorem fixed_width (oids : Bool) (hvalid : Schema.validate [entry] = .ok ())
    (hleaf : entry.headerOnly = false) (hinteger : entry.wireTag.isInteger = true) :
    (∀ (schema : Schema) (slots other : List Encoding.Slot),
      widened schema slots = widened schema other → encoded schema slots = encoded schema other) ∧
    (∀ (n : Nat) (value : Encoding.Value), n < 2 ^ 32 → value.number? = some (n : Int) →
      writeLeaf entry value = .ok (entry.octets (Bytes.ofInt n))) ∧
    ∀ (destination : Destination) (width : Nat) (content : Bytes),
      destination.width? = some width → (entry.octets content).length < lengthLimit →
      (∀ values, readOctets entry destination ⟨.strict, oids⟩ (entry.octets content) = .ok values ↔
        ∃ n, values = [.number n] ∧ Spells content width n) ∧
      ((∃ n, Spells content width n) ∨
        ∃ error, readOctets entry destination ⟨.strict, oids⟩ (entry.octets content) =
          refuse error) := by
  refine ⟨fun schema slots other => encoded_congr, ?_, ?_⟩
  · intro n value hn hvalue
    have hfive := length_ofInt_le hn
    have hword : (Bytes.ofInt n).length < wordLimit := Nat.lt_of_le_of_lt hfive (by decide)
    have hnine := lengthSize_le_nine hword
    have hlimit : (entry.octets (Bytes.ofInt n)).length < lengthLimit := by
      rw [Entry.length_octets, lengthLimit]
      omega
    rw [writeLeaf_number hvalid hleaf hinteger hvalue, if_pos hlimit]
  · intro destination width content hwidth hlimit
    have hread (values : List Decoding.Value) :
        readOctets entry destination ⟨.strict, oids⟩ (entry.octets content) = .ok values ↔
          ∃ n, values = [.number n] ∧ Spells content width n :=
      readOctets_width hvalid hleaf hinteger hwidth hlimit values
    refine ⟨hread, ?_⟩
    cases hresult : readOctets entry destination ⟨.strict, oids⟩ (entry.octets content) with
    | ok values =>
      obtain ⟨n, _, hn⟩ := (hread values).mp hresult
      exact .inl ⟨n, hn⟩
    | error failure =>
      have hsafe := safe_readOctets ⟨.strict, oids⟩ hvalid hleaf hwidth hlimit
      obtain ⟨error, rfl, _⟩ := hsafe.refused hresult
      exact .inr ⟨error, rfl⟩

theorem fixed_width_padded :
    writeLeaf (.leaf 0 Tag.integer) (.uint8 0x80) = .ok [0x02, 0x02, 0x00, 0x80] ∧
      writeLeaf (.leaf 0 Tag.integer) (.integer 0x80) = .ok [0x02, 0x02, 0x00, 0x80] ∧
      readOctets (.leaf 0 Tag.integer) .uint8 .strict [0x02, 0x02, 0x00, 0x80] =
        .ok [.number 0x80] := by
  have hvalid : Schema.validate [.leaf 0 Tag.integer] = .ok () := rfl
  obtain ⟨_, hwrite, hread⟩ := fixed_width true hvalid rfl rfl
  have hstrict : ∃ padded, isPadded [0x00, 0x80] .strict = .ok padded := ⟨true, rfl⟩
  have hcontent : Bytes.ofInt (0x80 : Nat) = [0x00, 0x80] :=
    ofInt_toInt (isPadded_strict_iff.mp hstrict)
  have hsmall := hwrite 0x80 (.uint8 0x80) (by decide) rfl
  have hlarge := hwrite 0x80 (.integer 0x80) (by decide) rfl
  rw [hcontent] at hsmall hlarge
  have hspells : Spells [0x00, 0x80] 1 0x80 := ⟨hstrict, by decide, by decide⟩
  exact ⟨hsmall, hlarge, ((hread .uint8 1 [0x00, 0x80] rfl (by decide)).1 _).mpr ⟨_, rfl, hspells⟩⟩

end RoundTrip

end DerTemplate

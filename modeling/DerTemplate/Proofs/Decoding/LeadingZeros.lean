import DerTemplate.Proofs.Content.Integer
import DerTemplate.Proofs.Decoding.Leaf
import DerTemplate.Proofs.Outcome

namespace DerTemplate

theorem Bytes.toNat_zeros (k : Nat) (bytes : Bytes) :
    toNat (List.replicate k 0 ++ bytes) = toNat bytes := by
  induction k with
  | zero => rfl
  | succ k ih =>
    have hzero : (0 : UInt8).toNat = 0 := rfl
    rw [List.replicate_succ, List.cons_append, toNat_cons, ih, hzero, Nat.zero_mul, Nat.zero_add]

namespace Content

theorem isPadded_leadingZeros {content : Bytes} (h : content ≠ []) :
    isPadded content .leadingZeros = .ok (hasPad content) := by
  match content, h with
  | [_], _ => rfl
  | first :: next :: rest, _ =>
    unfold isPadded hasPad
    dsimp only
    by_cases hzero : first = 0x00
    · rw [if_pos hzero, if_neg fun hstrict => nomatch hstrict.2]
      exact congrArg Except.ok (beq_iff_eq.mpr hzero).symm
    · rw [if_neg hzero, if_neg fun hstrict => nomatch hstrict.2.2]
      exact congrArg Except.ok (beq_eq_false_iff_ne.mpr hzero).symm

theorem hasPad_zeros {content : Bytes} (h : content ≠ []) (k : Nat) :
    hasPad (List.replicate (k + 1) 0 ++ content) = true := by
  rw [List.replicate_succ, List.cons_append]
  cases hrest : List.replicate k 0 ++ content with
  | nil => exact absurd (List.append_eq_nil_iff.mp hrest).2 h
  | cons next rest => rfl

theorem magnitude_ne_nil {content : Bytes} (h : content ≠ []) : magnitude content ≠ [] := by
  match content, h with
  | [_], _ => exact List.cons_ne_nil _ _
  | first :: next :: rest, _ =>
    unfold magnitude
    cases hasPad (first :: next :: rest) <;> exact List.cons_ne_nil _ _

end Content

namespace Decoding

open Content Header

def Destination.isUnsigned : Destination → Bool
  | .uint8 | .uint16 | .uint32 | .integer false => true
  | _ => false

theorem choice_of_isUnsigned {destination : Destination} (h : destination.isUnsigned = true)
    (tags : List Tag) : destination ≠ .choice tags := by
  rintro rfl
  cases h

def Destination.width? : Destination → Option Nat
  | .uint8 => some 1
  | .uint16 => some 2
  | .uint32 => some 4
  | _ => Option.none

def Destination.keeping (destination : Destination) (n : Nat) : Value :=
  match destination with
  | .integer _ => .integer n
  | _ => .number n

section Reading

variable {item : Item} {destination : Destination} {options : Options} {index width : Nat}

theorem readSmall_eq_ok_iff (hinteger : item.tag.isInteger = true) (hcontent : item.content ≠ [])
    (hwidth : width ≤ 4) {n : Nat} :
    readSmall item width index = .ok n ↔ item.content.length ≤ width ∧
      ¬(item.lead = .absent ∧ hasTopBit item.content = true) ∧ n = item.content.toNat := by
  have htag : item.tag ≠ Tag.boolean := by
    intro hboolean
    rw [hboolean] at hinteger
    cases hinteger
  unfold readSmall
  simp only [htag, if_false, false_and, or_false, hinteger, true_and]
  split
  · rename_i hwide
    exact iff_of_false nofun fun h => Nat.not_lt.mpr h.1 hwide
  · rename_i hfits
    split
    · rename_i hnegative
      exact iff_of_false nofun fun h => h.2.1 hnegative
    · rename_i hsign
      have hlt : item.content.toNat < 0x100000000 :=
        Nat.lt_of_lt_of_le (Bytes.toNat_lt _) (Nat.pow_le_pow_right (by decide)
          (Nat.le_trans (Nat.not_lt.mp hfits) hwidth))
      rw [readUnsigned, if_neg hcontent, if_neg hfits, Nat.mod_eq_of_lt hlt]
      constructor
      · intro h
        exact ⟨Nat.not_lt.mp hfits, hsign, (Except.ok.inj h).symm⟩
      · rintro ⟨_, _, rfl⟩
        rfl

theorem number_readSmall_iff (hinteger : item.tag.isInteger = true) (hcontent : item.content ≠ [])
    (hwidth : width ≤ 4) {value : Value} :
    Value.number <$> readSmall item width index = .ok value ↔
      item.content.length ≤ width ∧ ¬(item.lead = .absent ∧ hasTopBit item.content = true) ∧
        value = .number item.content.toNat := by
  rw [Outcome.map_eq_ok_iff]
  constructor
  · rintro ⟨n, hread, rfl⟩
    obtain ⟨hfits, hsign, rfl⟩ := (readSmall_eq_ok_iff hinteger hcontent hwidth).mp hread
    exact ⟨hfits, hsign, rfl⟩
  · rintro ⟨hfits, hsign, rfl⟩
    exact ⟨_, (readSmall_eq_ok_iff hinteger hcontent hwidth).mpr ⟨hfits, hsign, rfl⟩, rfl⟩

theorem integer_readInteger_iff (hinteger : item.tag.isInteger = true) {value : Value} :
    Value.integer <$> readInteger item false index = .ok value ↔
      ¬(item.lead = .absent ∧ hasTopBit item.content = true) ∧
        value = .integer item.content.toNat := by
  rw [readInteger, if_neg Bool.false_ne_true]
  split
  · rename_i hnegative
    exact iff_of_false nofun fun h => h.1 hnegative.2
  · rename_i hsign
    constructor
    · intro h
      exact ⟨fun hnegative => hsign ⟨hinteger, hnegative⟩, (Except.ok.inj h).symm⟩
    · rintro ⟨_, rfl⟩
      rfl

theorem readValue_unsigned_iff (options : Options) (index : Nat)
    (hunsigned : destination.isUnsigned = true) (hinteger : item.tag.isInteger = true)
    (hcontent : item.content ≠ []) {value : Value} :
    readValue options destination item index = .ok value ↔
      (∀ width ∈ destination.width?, item.content.length ≤ width) ∧
        ¬(item.lead = .absent ∧ hasTopBit item.content = true) ∧
        value = destination.keeping item.content.toNat := by
  have hsome {w : Nat} : (∀ width ∈ some w, item.content.length ≤ width) ↔
      item.content.length ≤ w := by simp
  cases destination with
  | uint8 =>
    rw [readValue, Destination.width?, hsome]
    exact number_readSmall_iff hinteger hcontent (by decide)
  | uint16 =>
    rw [readValue, Destination.width?, hsome]
    exact number_readSmall_iff hinteger hcontent (by decide)
  | uint32 =>
    rw [readValue, Destination.width?, hsome]
    exact number_readSmall_iff hinteger hcontent (by decide)
  | integer signed =>
    cases signed with
    | true => cases hunsigned
    | false =>
      rw [readValue]
      exact (integer_readInteger_iff hinteger).trans ⟨fun h => ⟨nofun, h⟩, fun h => h.2⟩
  | none | content | choice | oid | expect | bounded => cases hunsigned

theorem readValue_wide (hinteger : item.tag.isInteger = true) (hwidth : width ∈ destination.width?)
    (hwide : width < item.content.length) :
    readValue options destination item index =
      refuse (.unexpectedTag index item.start item.tag) := by
  have htag : item.tag ≠ Tag.boolean := by
    intro hboolean
    rw [hboolean] at hinteger
    cases hinteger
  have hsmall : readSmall item width index =
      refuse (.unexpectedTag index item.start item.tag) := by
    unfold readSmall
    simp only [htag, if_false, false_and, or_false, if_pos hwide]
  cases destination with
  | uint8 | uint16 | uint32 =>
    cases hwidth
    rw [readValue, hsmall]
    rfl
  | none | content | integer | choice | oid | expect | bounded => cases hwidth

end Reading

theorem ofContent_isInteger {tag : Tag} (hinteger : tag.isInteger = true) (policy : IntegerPolicy)
    (raw : Bytes) :
    Lead.ofContent policy tag raw =
      (isPadded raw policy >>= fun padded => .ok (if padded then .zeroPad else .absent)) := by
  have hprimitive : tag.isConstructed = false := by
    rcases (Bool.or_eq_true _ _).mp hinteger with htag | htag
    · rw [beq_iff_eq.mp htag]
      rfl
    · rw [beq_iff_eq.mp htag]
      rfl
  rw [Lead.ofContent, if_neg (by simp [hprimitive]), if_pos hinteger]
  rfl

theorem ofContent_leadingZeros {tag : Tag} (hinteger : tag.isInteger = true) {raw : Bytes}
    (hraw : raw ≠ []) :
    Lead.ofContent .leadingZeros tag raw =
      .ok (if hasPad raw = true then .zeroPad else .absent) := by
  rw [ofContent_isInteger hinteger, isPadded_leadingZeros hraw, ok_bind]

def Item.tolerant (tag : Tag) (raw : Bytes) : Item :=
  .holding tag 0 (lengthOctets raw.length) raw (if hasPad raw = true then .zeroPad else .absent)

theorem Item.tolerant_tag (tag : Tag) (raw : Bytes) : (Item.tolerant tag raw).tag = tag := rfl

theorem Item.tolerant_content (tag : Tag) (raw : Bytes) :
    (Item.tolerant tag raw).content = magnitude raw := by
  unfold Item.tolerant Item.holding magnitude
  cases hasPad raw <;> rfl

theorem Item.tolerant_zeros (tag : Tag) {content : Bytes} (h : content ≠ []) (k : Nat) :
    (Item.tolerant tag (List.replicate (k + 1) 0 ++ content)).lead = .zeroPad ∧
      (Item.tolerant tag (List.replicate (k + 1) 0 ++ content)).content =
        List.replicate k 0 ++ content := by
  unfold Item.tolerant
  rw [hasPad_zeros h, if_pos rfl]
  exact ⟨rfl, rfl⟩

-- One more zero is a pad, and with it the sign is known: only the width can stand in the way.
theorem readValue_zeros {options : Options} {destination : Destination} {tag : Tag} {content : Bytes}
    {value : Value} (hunsigned : destination.isUnsigned = true) (hinteger : tag.isInteger = true)
    (hcontent : content ≠ [])
    (hread : readValue options destination (.tolerant tag content) 0 = .ok value) (k : Nat) :
    readValue options destination (.tolerant tag (List.replicate (k + 1) 0 ++ content)) 0 =
      if ∀ width ∈ destination.width?, k + content.length ≤ width then .ok value
      else refuse (.unexpectedTag 0 0 tag) := by
  have hmagnitude : (Item.tolerant tag content).content ≠ [] := by
    rw [Item.tolerant_content]
    exact magnitude_ne_nil hcontent
  obtain ⟨_, _, rfl⟩ := (readValue_unsigned_iff _ _ hunsigned hinteger hmagnitude).mp hread
  obtain ⟨hlead, hrest⟩ := Item.tolerant_zeros tag hcontent k
  have htag := Item.tolerant_tag tag (List.replicate (k + 1) 0 ++ content)
  have hstart : (Item.tolerant tag (List.replicate (k + 1) 0 ++ content)).start = 0 := rfl
  generalize Item.tolerant tag (List.replicate (k + 1) 0 ++ content) = item
    at hlead hrest htag hstart
  have hlength : item.content.length = k + content.length := by
    rw [hrest, List.length_append, List.length_replicate]
  have hnumber : item.content.toNat = (Item.tolerant tag content).content.toNat := by
    rw [hrest, Bytes.toNat_zeros, Item.tolerant_content, toNat_magnitude]
  have hsign : ¬(item.lead = .absent ∧ hasTopBit item.content = true) := fun hnegative =>
    nomatch hlead.symm.trans hnegative.1
  have hne : item.content ≠ [] := by
    rw [hrest]
    simp [hcontent]
  rw [← htag] at hinteger
  split
  · rename_i hfits
    rw [← hlength] at hfits
    rw [← hnumber]
    exact (readValue_unsigned_iff _ _ hunsigned hinteger hne).mpr ⟨hfits, hsign, rfl⟩
  · rename_i hwide
    obtain ⟨width, hwidth, hwide⟩ :
        ∃ width ∈ destination.width?, width < k + content.length := by
      simpa using hwide
    rw [readValue_wide hinteger hwidth (by omega), htag, hstart]

theorem values_tolerant {entry : Entry} {destination : Destination} (oids : Bool) {raw : Bytes}
    (hvalid : Schema.validate [entry] = .ok ()) (hleaf : entry.headerOnly = false)
    (hinteger : entry.wireTag.isInteger = true) (hunsigned : destination.isUnsigned = true)
    (hraw : raw ≠ []) (hlimit : 1 + lengthSize raw.length + raw.length < lengthLimit) :
    Session.values <$> (readLeaf entry destination ⟨.leadingZeros, oids⟩ raw).outcome =
      List.singleton <$>
        readValue ⟨.leadingZeros, oids⟩ destination (Item.tolerant entry.wireTag raw) 0 := by
  rw [values_readLeaf _ hvalid hleaf (choice_of_isUnsigned hunsigned) hlimit,
    ofContent_leadingZeros hinteger hraw, ok_bind]
  rfl

theorem values_nil {entry : Entry} {destination : Destination} (options : Options)
    (hvalid : Schema.validate [entry] = .ok ()) (hleaf : entry.headerOnly = false)
    (hinteger : entry.wireTag.isInteger = true) (hunsigned : destination.isUnsigned = true) :
    Session.values <$> (readLeaf entry destination options []).outcome =
      refuse (.invalidEncoding .emptyInteger) := by
  rw [values_readLeaf options hvalid hleaf (choice_of_isUnsigned hunsigned) (by decide),
    ofContent_isInteger hinteger]
  rfl

theorem decode_zeros {entry : Entry} {destination : Destination} {oids : Bool} {content : Bytes}
    {value : Value} (hvalid : Schema.validate [entry] = .ok ()) (hleaf : entry.headerOnly = false)
    (hinteger : entry.wireTag.isInteger = true) (hunsigned : destination.isUnsigned = true)
    (hvalue : Session.values <$> (readLeaf entry destination ⟨.leadingZeros, oids⟩ content).outcome =
      .ok [value])
    (k : Nat) (hlimit : 1 + lengthSize (k + content.length) + (k + content.length) < lengthLimit) :
    Session.values <$>
        (readLeaf entry destination ⟨.leadingZeros, oids⟩ (List.replicate k 0 ++ content)).outcome =
      if k = 0 ∨ ∀ width ∈ destination.width?, k + content.length ≤ width + 1 then .ok [value]
      else refuse (.unexpectedTag 0 0 entry.wireTag) := by
  have hcontent : content ≠ [] := by
    rintro rfl
    rw [values_nil _ hvalid hleaf hinteger hunsigned] at hvalue
    cases hvalue
  cases k with
  | zero => rwa [if_pos (.inl rfl)]
  | succ k =>
    have hlonger := lengthSize_mono (Nat.le_add_left content.length (k + 1))
    rw [values_tolerant oids hvalid hleaf hinteger hunsigned hcontent (by omega)] at hvalue
    obtain ⟨_, hread, hsame⟩ := Outcome.map_eq_ok_iff.mp hvalue
    obtain rfl := List.singleton_inj.mp hsame
    have hlength : (List.replicate (k + 1) 0 ++ content).length = k + 1 + content.length := by
      rw [List.length_append, List.length_replicate]
    have hpadded : List.replicate (k + 1) 0 ++ content ≠ [] := by simp
    rw [← hlength] at hlimit
    rw [values_tolerant oids hvalid hleaf hinteger hunsigned hpadded hlimit,
      readValue_zeros hunsigned hinteger hcontent hread]
    have hwidths : (k + 1 = 0 ∨ ∀ width ∈ destination.width?, k + 1 + content.length ≤ width + 1) ↔
        ∀ width ∈ destination.width?, k + content.length ≤ width := by
      simp [Nat.add_right_comm]
    rw [if_congr hwidths rfl rfl]
    split <;> rfl

theorem decode_zeros_three :
    Session.values <$> (readLeaf (.leaf 0 Tag.integer) .uint16 .lenient [0x05]).outcome =
        .ok [.number 5] ∧
      Session.values <$> (readLeaf (.leaf 0 Tag.integer) .uint16 .lenient [0, 0, 0x05]).outcome =
        .ok [.number 5] ∧
      Session.values <$> (readLeaf (.leaf 0 Tag.integer) .uint16 .lenient [0, 0, 0, 0x05]).outcome =
        refuse (.unexpectedTag 0 0 Tag.integer) := by
  have hread : Session.values <$> (readLeaf (.leaf 0 Tag.integer) .uint16 .lenient [0x05]).outcome =
      .ok [.number 5] :=
    (values_tolerant _ rfl rfl rfl rfl (List.cons_ne_nil _ _) (by decide)).trans rfl
  exact ⟨hread, decode_zeros rfl rfl rfl rfl hread 2 (by decide),
    decode_zeros rfl rfl rfl rfl hread 3 (by decide)⟩

theorem zeros_counted :
    Session.values <$> (readLeaf (.leaf 0 Tag.integer) .uint8 .lenient [0x05]).outcome =
        .ok [.number 5] ∧
      Session.values <$> (readLeaf (.leaf 0 Tag.integer) .uint8 .lenient [0, 0, 0x05]).outcome =
        refuse (.unexpectedTag 0 0 Tag.integer) :=
  ⟨(values_tolerant _ rfl rfl rfl rfl (List.cons_ne_nil _ _) (by decide)).trans rfl,
    (values_tolerant _ rfl rfl rfl rfl (List.cons_ne_nil _ _) (by decide)).trans rfl⟩

end Decoding

end DerTemplate

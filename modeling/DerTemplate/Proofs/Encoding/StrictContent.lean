import DerTemplate.Proofs.Encoding.Location
import DerTemplate.Proofs.RoundTrip.Value

namespace DerTemplate

namespace Content

def hasSpareZero : Bytes → Bool
  | first :: next :: _ => first == 0x00 && next &&& 0x80 == 0
  | _ => false

theorem isPadded_strict_iff {content : Bytes} :
    (∃ padded, isPadded content .strict = .ok padded) ↔ Shortest content :=
  ⟨fun ⟨_, h⟩ => shortest_of_isPadded h, fun h => ⟨_, isPadded_shortest h .strict⟩⟩

theorem shortest_cons_iff {first : UInt8} (hones : first ≠ 0xFF) (rest : Bytes) :
    Shortest (first :: rest) ↔ hasSpareZero (first :: rest) = false := by
  cases rest with
  | nil => exact ⟨fun _ => rfl, fun _ => shortest_of_isPadded rfl⟩
  | cons next rest =>
    constructor
    · intro h
      have htop := (h.2 first next rest rfl).1
      simpa [hasSpareZero] using htop
    · intro h
      refine ⟨by simp, fun a b more heq => ?_⟩
      obtain ⟨rfl, htail⟩ := List.cons.inj heq
      obtain ⟨rfl, _⟩ := List.cons.inj htail
      exact ⟨by simpa [hasSpareZero] using h, fun h => absurd h hones⟩

theorem shortest_signed_iff (data : Bytes) :
    Shortest ((if data = [] ∨ hasTopBit data then [0x00] else []) ++ data) ↔
      hasSpareZero data = false := by
  cases data with
  | nil => exact shortest_cons_iff (by decide) []
  | cons first rest =>
    cases htop : hasTopBit (first :: rest) with
    | true =>
      have hset : first &&& 0x80 ≠ 0 := by simpa [hasTopBit] using htop
      have hzero : first ≠ 0x00 := fun h => hset (by rw [h]; rfl)
      have hnone : hasSpareZero (first :: rest) = false := by
        cases rest <;> simp [hasSpareZero, hzero]
      rw [if_pos (.inr rfl), List.singleton_append, shortest_cons_iff (by decide), hnone]
      simpa [hasSpareZero] using hset
    | false =>
      have hclear : first &&& 0x80 = 0 := by simpa [hasTopBit] using htop
      rw [if_neg (by simp), List.nil_append]
      exact shortest_cons_iff (fun h => by rw [h] at hclear; cases hclear) rest

theorem cleared_zero (bits : Bytes) : cleared bits 0 = bits := by
  obtain ⟨_, hbits, _, _, hcleared⟩ := unusedBitCount_eq_ok (unusedBitCount_zero bits)
  rw [(List.cons.inj hbits).2, hcleared]

theorem hasSpareZero_cleared (data : Bytes) (unused : UInt8) :
    hasSpareZero (unused :: cleared data unused) = hasSpareZero (unused :: data) := by
  by_cases hzero : unused = 0
  · rw [hzero, cleared_zero]
  · have hnone (rest : Bytes) : hasSpareZero (unused :: rest) = false := by
      cases rest <;> simp [hasSpareZero, hzero]
    rw [hnone, hnone]

end Content

theorem Oid.shortest_der {category : Category} {sum : Nat} {known : Known}
    (h : category.bySum? sum = some known) : Content.Shortest known.der := by
  have hcheck : category.table.all (fun known =>
      (Content.isPadded known.der .strict).isOk) = true := by
    cases category <;> decide +kernel
  have hknown := List.all_eq_true.mp hcheck known (List.mem_of_find?_eq_some h)
  cases hpadded : Content.isPadded known.der .strict with
  | ok padded => exact Content.shortest_of_isPadded hpadded
  | error failure => rw [hpadded] at hknown; cases hknown

theorem Tag.base_of_isInteger {tag : Tag} (h : tag.isInteger = true) : tag.base = tag := by
  rcases Bool.or_eq_true_iff.mp h with h | h <;> rw [beq_iff_eq.mp h] <;> rfl

namespace Encoding

open RoundTrip

def Value.isShortest : Value → Bool
  | .none => false
  | .bytes data => !Content.hasSpareZero data
  | .bits data unused => !Content.hasSpareZero (unused :: data)
  | _ => true

variable {entry : Entry} {value : Value} {l : Layout} {index : Nat}

theorem shortest_small {n : Nat} (hnumber : isNumber entry entry.tag = true)
    (hlayout : smallLayout entry entry.tag n index = .ok l) :
    Content.Shortest ((wholeBits entry entry.tag).toList ++ numberOctets entry entry.tag n) := by
  rw [octets_number (boolean_of_smallLayout hlayout), wholeBits_number hnumber, if_pos hnumber]
  exact (Content.shortest_unsigned n).1

theorem shortest_content_iff (hnumber : isNumber entry entry.tag = true)
    (hlayout : layout entry entry.tag value index = .ok l)
    (hreplace : ∀ encoded, value ≠ .replace encoded)
    (hplaceholder : ∀ length, value ≠ .placeholder length) :
    Content.Shortest (value.content entry) ↔ value.isShortest = true := by
  have hwhole := wholeBits_number hnumber
  cases value with
  | none =>
    have hcontent : Value.none.content entry = [] := by
      rw [Value.content, show Value.none.lead entry entry.tag = Option.none from hwhole]
      rfl
    rw [hcontent]
    exact iff_of_false (fun h => h.1 rfl) Bool.false_ne_true
  | uint8 n | uint16 n | uint32 n =>
    rw [content_eq rfl]
    exact iff_of_true (shortest_small hnumber hlayout) rfl
  | integer n =>
    rw [content_eq rfl, show (Value.integer n).lead entry entry.tag = Option.none from hwhole]
    exact iff_of_true (Content.shortest_ofInt n) rfl
  | bytes data =>
    have hlead : ((Value.bytes data).lead entry entry.tag).toList =
        if data = [] ∨ Content.hasTopBit data then [0x00] else [] := by
      simp only [Value.lead, hnumber, true_and, hwhole]
      split <;> rfl
    rw [content_eq rfl, hlead, Content.shortest_signed_iff, Value.isShortest, Bool.not_eq_true']
  | bits data unused =>
    have hones : unused ≠ 0xFF := fun h => (unused_of_layout hlayout).1 (by rw [h]; decide)
    have hcontent : (Value.bits data unused).content entry =
        unused :: Content.cleared data unused := content_eq rfl
    rw [hcontent, Content.shortest_cons_iff hones, Content.hasSpareZero_cleared, Value.isShortest,
      Bool.not_eq_true']
  | oid category sum =>
    obtain ⟨known, hknown⟩ := known_of_layout hlayout
    have hcontent : (Value.oid category sum).content entry = known.der := by
      rw [content_eq rfl, hknown]
      rfl
    rw [hcontent]
    exact iff_of_true (Oid.shortest_der hknown) rfl
  | replace encoded => exact absurd rfl (hreplace encoded)
  | placeholder length => exact absurd rfl (hplaceholder length)

theorem unusedBitCount_content (hbits : isBits entry entry.tag = true)
    (hlayout : layout entry entry.tag value index = .ok l)
    (hreplace : ∀ encoded, value ≠ .replace encoded)
    (hoid : ∀ category sum, value ≠ .oid category sum) :
    ∃ unused, Content.unusedBitCount (value.content entry) = .ok unused := by
  have hwhole : wholeBits entry entry.tag = some 0 := if_pos hbits
  have hzero (h : value.lead entry entry.tag = some 0) :
      ∃ unused, Content.unusedBitCount (value.content entry) = .ok unused := by
    rw [Value.content, h]
    exact ⟨0, Content.unusedBitCount_zero _⟩
  cases value with
  | bytes data =>
    apply hzero
    rw [Value.lead, hwhole, ite_self]
  | bits data unused =>
    obtain ⟨hunused, hempty⟩ := unused_of_layout hlayout
    have hcontent : (Value.bits data unused).content entry =
        unused :: Content.cleared data unused := content_eq rfl
    exact ⟨unused, hcontent ▸ Content.unusedBitCount_cleared hunused hempty⟩
  | oid category sum => exact absurd rfl (hoid category sum)
  | replace encoded => exact absurd rfl (hreplace encoded)
  | _ => exact hzero hwhole

variable {schema : Schema} {slots : List Slot} {written : Written} {i : Nat} {slot : Slot}

theorem wireTag_primitive (hprimitive : entry.constructed = false) (htag : slot.tag = none) :
    slot.wireTag entry = entry.tag := by
  rw [Slot.wireTag, htag, Option.getD_none, Entry.wireTag, hprimitive, if_neg Bool.false_ne_true]

theorem content_primitive (hprimitive : entry.constructed = false) (htag : slot.tag = none)
    (hbase : entry.tag.base = entry.tag) :
    slot.baseTag entry = entry.tag ∧ slot.content entry [] = slot.value.content entry := by
  have hsame : slot.baseTag entry = entry.tag := by
    rw [Slot.baseTag, wireTag_primitive hprimitive htag, hbase]
  refine ⟨hsame, ?_⟩
  rw [Slot.content, Slot.leadBytes, Slot.body, hsame, List.append_nil, Value.content]

theorem leaf_accepted (hencode : encode schema slots = .ok written)
    (hentry : schema[i]? = some entry) (hslot : slots[i]? = some slot)
    (hshown : excluded schema slots i = false) (hleaf : entry.headerOnly = false)
    (hprimitive : entry.constructed = false) (htag : slot.tag = none)
    (hreplace : ∀ encoded, slot.value ≠ .replace encoded)
    (hplaceholder : ∀ length, slot.value ≠ .placeholder length) :
    ∃ content, written.HasItem i entry.tag content ∧
      (entry.tag.isInteger = true →
        ((∃ padded, Content.isPadded content .strict = .ok padded) ↔
          slot.value.isShortest = true)) ∧
      (entry.tag = Tag.bitString → (∀ category sum, slot.value ≠ .oid category sum) →
        ∃ unused, Content.unusedBitCount content = .ok unused) := by
  obtain ⟨hfits, hitem⟩ := hasItem_leaf hencode hentry hslot hshown hleaf hreplace
  rw [wireTag_primitive hprimitive htag] at hitem
  have hnests : slot.nests entry = false := by rw [Slot.nests, hleaf, Bool.false_and]
  rcases hfits hnests with ⟨encoded, h⟩ | ⟨l, hlayout, _⟩
  · exact absurd h (hreplace encoded)
  refine ⟨_, hitem, fun hinteger => ?_, fun hbits hoid => ?_⟩
  · obtain ⟨hsame, hcontent⟩ := content_primitive hprimitive htag (Tag.base_of_isInteger hinteger)
    have hnumber : isNumber entry entry.tag = true := by rw [isNumber, hprimitive, hinteger]; rfl
    rw [hcontent, Content.isPadded_strict_iff]
    exact shortest_content_iff hnumber (hsame ▸ hlayout 0) hreplace hplaceholder
  · obtain ⟨hsame, hcontent⟩ := content_primitive hprimitive htag (by rw [hbits]; rfl)
    have hbit : isBits entry entry.tag = true := by rw [isBits, hprimitive, hbits]; rfl
    rw [hcontent]
    exact unusedBitCount_content hbit (hsame ▸ hlayout 0) hreplace hoid

def flagsSchema : Schema := [.sequence 0, .leaf 1 Tag.enumerated, .leaf 1 Tag.bitString]

def flagsSlots : List Slot :=
  [.ofValue .none, .ofValue (.bytes [0x80]), .ofValue (.bits [0xAB, 0xFF] 7)]

theorem encode_flags :
    ∃ written, encode flagsSchema flagsSlots = .ok written ∧ written.output.buffer =
      [0x30, 0x09, 0x0A, 0x02, 0x00, 0x80, 0x03, 0x03, 0x07, 0xAB, 0x80] := by
  obtain ⟨sizing, hsize, htotal⟩ :
      ∃ sizing, size flagsSchema flagsSlots = .ok sizing ∧ sizing.total = 11 := ⟨_, rfl, rfl⟩
  have hencode := encode_of_size hsize
  rw [htotal, if_pos (by decide)] at hencode
  exact ⟨_, hencode, by decide +kernel⟩

theorem leaf_accepted_flags :
    ∃ written number bits, encode flagsSchema flagsSlots = .ok written ∧
      written.HasItem 1 Tag.enumerated number ∧ written.HasItem 2 Tag.bitString bits ∧
      (∃ padded, Content.isPadded number .strict = .ok padded) ∧
      ∃ unused, Content.unusedBitCount bits = .ok unused := by
  obtain ⟨written, hencode, _⟩ := encode_flags
  obtain ⟨number, hnumber, hpasses, _⟩ := leaf_accepted (i := 1) hencode rfl rfl (by decide) rfl rfl
    rfl nofun nofun
  obtain ⟨bits, hbits, _, hclear⟩ := leaf_accepted (i := 2) hencode rfl rfl (by decide) rfl rfl rfl
    nofun nofun
  exact ⟨written, number, bits, hencode, hnumber, hbits, (hpasses rfl).mpr rfl, hclear rfl nofun⟩

theorem spare_zero_written :
    ∃ written, encode [.leaf 0 Tag.integer] [.ofValue (.bytes [0x00, 0x01])] = .ok written ∧
      written.output.buffer = [0x02, 0x02, 0x00, 0x01] ∧
      written.HasItem 0 Tag.integer [0x00, 0x01] ∧
      Content.isPadded [0x00, 0x01] .strict =
        refuse (.invalidEncoding .integerLeadingZero) := by
  obtain ⟨sizing, hsize, htotal⟩ : ∃ sizing,
      size [.leaf 0 Tag.integer] [.ofValue (.bytes [0x00, 0x01])] = .ok sizing ∧
        sizing.total = 4 := ⟨_, rfl, rfl⟩
  have hencode := encode_of_size hsize
  rw [htotal, if_pos (by decide)] at hencode
  exact ⟨_, hencode, by decide +kernel,
    ⟨_, rfl, by decide +kernel, by decide +kernel, by decide +kernel, by decide +kernel⟩, rfl⟩

end Encoding

end DerTemplate

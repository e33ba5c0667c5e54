import DerTemplate.Proofs.Decoding.Leaf
import DerTemplate.Proofs.Encoding.ChoiceCheck
import DerTemplate.Proofs.Encoding.Sizable
import DerTemplate.Proofs.RoundTrip.Restoring

namespace DerTemplate

namespace Encoding

open Header

variable {entry : Entry} {slot : Slot}

def Slot.withTag (slot : Slot) (tag : Tag) : Slot := { slot with tag := some tag }

theorem checkChoices_leaf (entry : Entry) (slot : Slot) : checkChoices [entry] [slot] = .ok () := by
  simp only [checkChoices, checkChoicesFrom, Bool.false_and, Bool.false_eq_true, if_false]
  split
  · rfl
  · split <;> rfl

theorem encode_leaf (hvalid : Schema.validate [entry] = .ok ()) (hleaf : entry.headerOnly = false)
    (hshown : slot.suppressed = false) (hreplace : ∀ encoded, slot.value ≠ .replace encoded)
    {l : Layout} (hlayout : layout entry (slot.baseTag entry) slot.value 0 = .ok l)
    (hlimit : 1 + lengthSize (slot.content entry []).length + (slot.content entry []).length <
      lengthLimit) :
    ∃ written, encode [entry] [slot] = .ok written ∧ written.output.buffer =
      slot.wireTag entry :: (lengthOctets (slot.content entry []).length ++
        slot.content entry []) := by
  have hplant : Forest.plant [entry] [slot] = .node entry slot .nil .nil := rfl
  have hencoding := Forest.encoding_shown hshown hreplace
    (fun h => absurd (hleaf.symm.trans h) Bool.false_ne_true) (fun _ => rfl) .nil
  have hnil : (Forest.nil : Forest Slot).encoding = [] := rfl
  rw [hnil, List.append_nil] at hencoding
  have htotal : (Forest.node entry slot .nil .nil).stencil.length < lengthLimit := by
    rw [← Forest.length_encoding, hencoding, List.length_cons, List.length_append,
      length_lengthOctets]
    omega
  have hwritable : (Forest.node entry slot .nil .nil).Writable :=
    ⟨fun _ => ⟨writable_of_layout hlayout (lt_wordLimit (by omega)), fun _ => rfl, trivial⟩,
      trivial⟩
  have hkept : (Forest.node entry slot .nil .nil).Shown HeaderKept :=
    ⟨fun _ => ⟨fun _ => hreplace, trivial⟩, trivial⟩
  have hsize := size_of_writable hvalid rfl (checkChoices_leaf entry slot) hwritable hkept
    (lt_wordLimit htotal)
  have hencode := encode_of_size hsize
  rw [hplant, if_pos htotal] at hencode
  exact ⟨_, hencode, hencoding⟩

end Encoding

theorem Tag.base_of_isConstructed {tag : Tag} (h : tag.isConstructed = false) : tag.base = tag :=
  forall_octet (p := fun tag => Tag.isConstructed tag = false → Tag.base tag = tag)
    (by decide +kernel) tag h

namespace Bytes

theorem toInt_zero_cons (bytes : Bytes) : toInt (0 :: bytes) = toNat bytes := by
  have hzero : (0 : UInt8) &&& 0x80 = 0 := by decide
  rw [toInt, if_pos hzero, toNat_cons]
  simp

theorem toNat_ofInt_of_neg {n : Int} (h : n < 0) :
    (toNat (ofInt n) : Int) = n + (256 ^ Content.integerSize n : Nat) := by
  have hread := toInt_ofInt n
  have hlength := length_ofInt n
  cases hbytes : ofInt n with
  | nil => exact absurd hbytes (ofInt_ne_nil n)
  | cons b rest =>
    rw [hbytes, List.length_cons] at hlength
    rw [hbytes, toInt] at hread
    split at hread
    · omega
    · have hpow : ((256 ^ (rest.length + 1) : Nat) : Int) = Nat.pow 256 (rest.length + 1) := rfl
      rw [← hlength]
      omega

end Bytes

namespace RoundTrip

open Decoding (Lead Session readValue)
open Header (lengthSize)

section Signed

variable {tag : Tag}

theorem content_signed (hbase : tag.base = tag) (n : Int) :
    (Encoding.Slot.ofValue (.integer n)).content (.leaf 0 tag) [] =
      (if tag = Tag.bitString then [0x00] else []) ++ Bytes.ofInt n := by
  have hlead : (Encoding.Slot.ofValue (.integer n)).leadBytes (.leaf 0 tag) =
      if tag = Tag.bitString then [0x00] else [] := by
    have htag : (Encoding.Slot.ofValue (.integer n)).baseTag (.leaf 0 tag) = tag :=
      (congrArg Tag.base hbase).trans hbase
    rw [Encoding.Slot.leadBytes, htag]
    by_cases hbits : tag = Tag.bitString
    · rw [if_pos hbits, hbits]
      rfl
    · simp [Encoding.Slot.ofValue, Encoding.Value.lead, Encoding.wholeBits, Encoding.isBits, hbits]
  rw [Encoding.Slot.content, hlead, Encoding.Slot.body, List.append_nil]
  exact congrArg _ (Encoding.Stencil.fill_solid _ _)

theorem lead_signed (policy : IntegerPolicy) (hbase : tag.base = tag) (n : Int) :
    ∃ lead, Lead.ofContent policy tag
      ((if tag = Tag.bitString then [0x00] else []) ++ Bytes.ofInt n) = .ok lead := by
  unfold Lead.ofContent
  rw [Tag.isConstructed_of_base hbase, if_neg Bool.false_ne_true]
  cases hinteger : tag.isInteger with
  | true =>
    have htag : tag ≠ Tag.bitString := by
      rintro rfl
      cases hinteger
    rw [if_neg htag, List.nil_append, if_pos rfl,
      Content.isPadded_shortest (Content.shortest_ofInt n)]
    exact ⟨_, rfl⟩
  | false =>
    rw [if_neg Bool.false_ne_true]
    split
    · rw [List.singleton_append, Content.unusedBitCount_zero]
      exact ⟨_, rfl⟩
    · exact ⟨_, rfl⟩

theorem toInt_signed (tag : Tag) (n : Int) :
    Bytes.toInt ((if tag = Tag.bitString then [0x00] else []) ++ Bytes.ofInt n) =
      if tag = Tag.bitString ∧ n < 0 then n + (256 ^ Content.integerSize n : Nat) else n := by
  by_cases htag : tag = Tag.bitString
  · rw [if_pos htag, List.singleton_append, Bytes.toInt_zero_cons]
    rcases Int.lt_or_le n 0 with hn | hn
    · rw [if_pos ⟨htag, hn⟩, Bytes.toNat_ofInt_of_neg hn]
    · rw [if_neg (fun h => Int.not_lt.mpr hn h.2), Bytes.toNat_ofInt hn]
  · rw [if_neg htag, if_neg (fun h => htag h.1), List.nil_append, Bytes.toInt_ofInt]

theorem decode_signed (options : Options) (hprimitive : tag.isConstructed = false) (n : Int)
    {size : Nat} (hsize : size = (if tag = Tag.bitString then 1 else 0) + Content.integerSize n)
    (hlimit : 1 + lengthSize size + size < lengthLimit) :
    ∃ written, Encoding.encode [.leaf 0 tag] [.ofValue (.integer n)] = .ok written ∧
      ∃ got, Session.decode ⟨0, [.ofDestination (.integer true)]⟩ options [.leaf 0 tag]
          written.output.buffer true written.output.buffer.length =
            .ok ⟨written.output.buffer.length, [got]⟩ ∧
        got.present = true ∧ got.tag = tag ∧
        got.value = .integer
          (if tag = Tag.bitString ∧ n < 0 then n + (256 ^ Content.integerSize n : Nat) else n) := by
  have hbase := Tag.base_of_isConstructed hprimitive
  have hvalid : Schema.validate [.leaf 0 tag] = .ok () := rfl
  have hcontent := content_signed hbase n
  have hlength : ((if tag = Tag.bitString then [0x00] else []) ++ Bytes.ofInt n).length = size := by
    rw [List.length_append, Bytes.length_ofInt, hsize]
    split <;> rfl
  obtain ⟨lead, hlead⟩ := lead_signed options.integerPolicy hbase n
  have hinteger := toInt_signed tag n
  rw [← hlength, ← hcontent] at hlimit
  have hreplace (encoded : Bytes) :
    (Encoding.Slot.ofValue (.integer n)).value ≠ .replace encoded := nofun
  obtain ⟨written, hencode, hbuffer⟩ := Encoding.encode_leaf hvalid rfl rfl hreplace rfl hlimit
  have hwire : (Encoding.Slot.ofValue (.integer n)).wireTag (.leaf 0 tag) = tag := hbase
  rw [hwire, hcontent] at hbuffer
  rw [hcontent] at hlimit
  generalize (if tag = Tag.bitString then [0x00] else []) ++ Bytes.ofInt n = raw at *
  have hadmits : (Decoding.Destination.integer true).admits (.leaf 0 tag) tag = true :=
    beq_iff_eq.mpr hbase.symm
  have hwhole : written.output.buffer.length = 1 + lengthSize raw.length + raw.length := by
    rw [hbuffer, List.length_cons, List.length_append, Header.length_lengthOctets]
    omega
  refine ⟨written, hencode, .holding (.integer true) (.integer (Bytes.toInt raw))
    (.holding tag 0 (Header.lengthOctets raw.length) raw lead), ?_, rfl, rfl, congrArg _ hinteger⟩
  rw [hwhole, hbuffer]
  exact (Decoding.decode_leaf options true hvalid rfl rfl rfl hadmits hlimit (Nat.le_refl _) _).mpr
    ⟨lead, _, hlead, rfl, rfl⟩

theorem decode_signed_negative :
    ∃ written, Encoding.encode [.leaf 0 Tag.integer] [.ofValue (.integer (-129))] = .ok written ∧
      ∃ got, Session.decode ⟨0, [.ofDestination (.integer true)]⟩ .strict [.leaf 0 Tag.integer]
          written.output.buffer true written.output.buffer.length =
            .ok ⟨written.output.buffer.length, [got]⟩ ∧ got.value = .integer (-129) := by
  obtain ⟨written, hencode, got, hdecode, _, _, hvalue⟩ :=
    decode_signed .strict (show Tag.integer.isConstructed = false from rfl) (-129) rfl (by decide)
  exact ⟨written, hencode, got, hdecode, hvalue⟩

theorem negative_bits_unsigned :
    Tag.bitString.isConstructed = false ∧
      ∃ written, Encoding.encode [.leaf 0 Tag.bitString] [.ofValue (.integer (-1))] = .ok written ∧
        written.output.buffer = [0x03, 0x02, 0x00, 0xFF] ∧
        Session.decode ⟨0, [.ofDestination (.integer true)]⟩ .strict [.leaf 0 Tag.bitString]
          [0x03, 0x02, 0x00, 0xFF] true 4 =
            .ok ⟨4, [⟨.integer true, .integer 255, true, Tag.bitString, 0, 3, 1, 0, false⟩]⟩ := by
  obtain ⟨sizing, hsize, htotal⟩ : ∃ sizing, Encoding.size [.leaf 0 Tag.bitString]
      [.ofValue (.integer (-1))] = .ok sizing ∧ sizing.total = 4 := ⟨_, rfl, rfl⟩
  have hencode := Encoding.encode_of_size hsize
  rw [htotal, if_pos (by decide)] at hencode
  have hadmits : (Decoding.Destination.integer true).admits (.leaf 0 Tag.bitString) Tag.bitString =
    true := rfl
  have hraw : 1 + lengthSize ([0x00, 0xFF] : Bytes).length + ([0x00, 0xFF] : Bytes).length = 4 := rfl
  have hlimit : 4 < lengthLimit := by decide
  refine ⟨rfl, _, hencode, by decide +kernel, ?_⟩
  exact (Decoding.decode_leaf .strict true rfl rfl rfl rfl hadmits (hraw ▸ hlimit)
    (Nat.le_of_eq hraw) _).mpr ⟨.unusedBits 0, .integer 255, rfl, rfl, rfl⟩

end Signed

section Override

variable {entry : Entry} {tag : Tag} {tags : List Tag} {data : Bytes}

/-- The octets under a tag in place of the entry's own. The entry decides whether a BIT STRING gets
its lead octet, and not the tag. -/
def overridden (entry : Entry) (tag : Tag) (data : Bytes) : Bytes :=
  (if entry.constructed = false ∧ tag.base = Tag.bitString then [0x00] else []) ++ data

theorem content_overridden (entry : Entry) (data : Bytes) (hplain : tag.base.isInteger = false) :
    ((Encoding.Slot.ofValue (.bytes data)).withTag tag).content entry [] =
      overridden entry tag data := by
  have hlead : ((Encoding.Slot.ofValue (.bytes data)).withTag tag).leadBytes entry =
      if entry.constructed = false ∧ tag.base = Tag.bitString then [0x00] else [] := by
    have htag : ((Encoding.Slot.ofValue (.bytes data)).withTag tag).baseTag entry =
      tag.base := rfl
    have hnumber : Encoding.isNumber entry tag.base = false := by
      rw [Encoding.isNumber, hplain, Bool.and_false]
    have hvalue : ((Encoding.Slot.ofValue (.bytes data)).withTag tag).value = .bytes data := rfl
    rw [Encoding.Slot.leadBytes, htag, hvalue]
    simp only [Encoding.Value.lead, hnumber, Bool.false_eq_true, false_and, if_false,
      Encoding.wholeBits, Encoding.isBits, Bool.and_eq_true, Bool.not_eq_true', beq_iff_eq]
    split <;> rfl
  rw [Encoding.Slot.content, hlead, Encoding.Slot.body, List.append_nil, overridden]
  exact congrArg _ (Encoding.Stencil.fill_solid _ _)

theorem overridden_iff (policy : IntegerPolicy) (entry : Entry) (data : Bytes)
    (hplain : tag.base.isInteger = false) :
    (∃ lead, Lead.ofContent policy tag (overridden entry tag data) = .ok lead ∧
      (overridden entry tag data).drop lead.size = data) ↔
        (tag.base = Tag.bitString → entry.constructed = tag.isConstructed) := by
  unfold Lead.ofContent overridden
  cases hconstructed : tag.isConstructed with
  | true =>
    simp only [if_true, Except.ok.injEq, exists_eq_left', Lead.size, List.drop_zero]
    cases hentry : entry.constructed <;> simp
  | false =>
    have hbase := Tag.base_of_isConstructed hconstructed
    rw [hbase] at hplain ⊢
    rw [hplain, if_neg Bool.false_ne_true, if_neg Bool.false_ne_true]
    by_cases hbits : tag = Tag.bitString
    · simp only [hbits, if_true, and_true, true_implies]
      cases hentry : entry.constructed with
      | false =>
        rw [if_pos rfl, List.singleton_append, Content.unusedBitCount_zero]
        exact iff_of_true ⟨_, rfl, rfl⟩ rfl
      | true =>
        -- the first octet of the data is taken for the lead octet, so what is left is shorter
        rw [if_neg (by decide), List.nil_append]
        refine iff_of_false ?_ (by decide)
        rintro ⟨lead, hlead, hbehind⟩
        obtain ⟨unused, hcount, hlead⟩ := bind_eq_ok_iff.mp hlead
        cases hlead
        cases data with
        | nil => cases hcount
        | cons b rest =>
          have hlength := congrArg List.length hbehind
          simp [Lead.size] at hlength
    · simp [hbits, Lead.size]

theorem decode_override (options : Options) (hvalid : Schema.validate [entry] = .ok ())
    (hleaf : entry.headerOnly = false) (hplain : tag.base.isInteger = false)
    (htags : tags.contains tag = true)
    (hlimit : 1 + lengthSize (overridden entry tag data).length + (overridden entry tag data).length <
      lengthLimit) :
    ∃ written, Encoding.encode [entry]
        [(Encoding.Slot.ofValue (.bytes data)).withTag tag] = .ok written ∧
      ((∃ got, Session.decode ⟨0, [.ofDestination (.choice tags)]⟩ options [entry]
          written.output.buffer true written.output.buffer.length =
            .ok ⟨written.output.buffer.length, [got]⟩ ∧
          got.present = true ∧ got.tag = tag ∧ got.value = .bytes data) ↔
        (tag.base = Tag.bitString → entry.constructed = tag.isConstructed)) := by
  have hcontent := content_overridden entry data hplain
  rw [← hcontent] at hlimit
  have hreplace (encoded : Bytes) :
    ((Encoding.Slot.ofValue (.bytes data)).withTag tag).value ≠ .replace encoded := nofun
  obtain ⟨l, hlayout⟩ : ∃ l, Encoding.layout entry tag.base (.bytes data) 0 = .ok l := by
    rw [Encoding.layout]
    split <;> exact ⟨_, rfl⟩
  obtain ⟨written, hencode, hbuffer⟩ := Encoding.encode_leaf hvalid hleaf rfl hreplace hlayout hlimit
  refine ⟨written, hencode, ?_⟩
  have hwire : ((Encoding.Slot.ofValue (.bytes data)).withTag tag).wireTag entry = tag := rfl
  rw [hwire, hcontent] at hbuffer
  rw [hcontent] at hlimit
  have hwhole : written.output.buffer.length =
      1 + lengthSize (overridden entry tag data).length + (overridden entry tag data).length := by
    rw [hbuffer, List.length_cons, List.length_append, Header.length_lengthOctets]
    omega
  have hadmits : (Decoding.Destination.choice tags).admits entry tag = true := htags
  have hcursor : (⟨0, [.ofDestination (.choice tags)]⟩ : Session).cursor = 0 := rfl
  have hdecode :=
    Decoding.decode_leaf options true hvalid hleaf hcursor rfl hadmits hlimit (Nat.le_refl _)
  rw [hwhole, hbuffer, ← overridden_iff options.integerPolicy entry data hplain]
  constructor
  · rintro ⟨got, hgot, _, _, hvalue⟩
    obtain ⟨lead, value, hlead, hread, hfound⟩ := (hdecode _).mp hgot
    cases hread
    cases hfound
    exact ⟨lead, hlead, Decoding.Value.bytes.inj hvalue⟩
  · rintro ⟨lead, hlead, hbehind⟩
    exact ⟨_, (hdecode _).mpr ⟨lead, _, hlead, rfl, rfl⟩, rfl, rfl,
      congrArg Decoding.Value.bytes hbehind⟩

theorem decode_override_context :
    ∃ written, Encoding.encode [.leaf 0 0x04]
        [(Encoding.Slot.ofValue (.bytes [0xAA])).withTag 0xA1] = .ok written ∧
      ∃ got, Session.decode ⟨0, [.ofDestination (.choice [0x80, 0xA1])]⟩ .strict [.leaf 0 0x04]
          written.output.buffer true written.output.buffer.length =
            .ok ⟨written.output.buffer.length, [got]⟩ ∧
        got.tag = 0xA1 ∧ got.value = .bytes [0xAA] := by
  have hvalid : Schema.validate [.leaf 0 0x04] = .ok () := rfl
  have hplain : Tag.isInteger (Tag.base 0xA1) = false := rfl
  have htags : [0x80, 0xA1].contains (0xA1 : Tag) = true := rfl
  have hlimit : 1 + lengthSize (overridden (.leaf 0 0x04) 0xA1 [0xAA]).length +
    (overridden (.leaf 0 0x04) 0xA1 [0xAA]).length < lengthLimit := by decide
  obtain ⟨written, hencode, hread⟩ := decode_override .strict hvalid rfl hplain htags hlimit
  obtain ⟨got, hdecode, _, htag, hvalue⟩ := hread.mpr (by decide)
  exact ⟨written, hencode, got, hdecode, htag, hvalue⟩

theorem lead_missing :
    Tag.isInteger (Tag.base Tag.bitString) = false ∧
      ∃ written, Encoding.encode [.ofTag 0 Tag.sequence true false .required]
          [(Encoding.Slot.ofValue (.bytes [0xAA])).withTag Tag.bitString] = .ok written ∧
        written.output.buffer = [0x03, 0x01, 0xAA] ∧
        ∀ found, Session.decode ⟨0, [.ofDestination (.choice [Tag.bitString])]⟩ .strict
          [.ofTag 0 Tag.sequence true false .required] [0x03, 0x01, 0xAA] true 3 ≠ .ok found := by
  obtain ⟨sizing, hsize, htotal⟩ : ∃ sizing,
      Encoding.size [.ofTag 0 Tag.sequence true false .required]
        [(Encoding.Slot.ofValue (.bytes [0xAA])).withTag Tag.bitString] = .ok sizing ∧
      sizing.total = 3 := ⟨_, rfl, rfl⟩
  have hencode := Encoding.encode_of_size hsize
  rw [htotal, if_pos (by decide)] at hencode
  have hadmits : (Decoding.Destination.choice [Tag.bitString]).admits
    (.ofTag 0 Tag.sequence true false .required) Tag.bitString = true := rfl
  have hraw : 1 + lengthSize ([0xAA] : Bytes).length + ([0xAA] : Bytes).length = 3 := rfl
  have hlimit : 3 < lengthLimit := by decide
  refine ⟨rfl, _, hencode, by decide +kernel, ?_⟩
  intro found hdecode
  obtain ⟨lead, value, hlead, _⟩ := (Decoding.decode_leaf .strict true rfl rfl rfl rfl hadmits
    (hraw ▸ hlimit) (Nat.le_of_eq hraw) found).mp hdecode
  cases hlead

end Override

end RoundTrip

end DerTemplate

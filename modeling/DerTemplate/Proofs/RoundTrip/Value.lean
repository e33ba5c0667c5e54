import DerTemplate.Decoding.Content
import DerTemplate.Proofs.Encoding.Layout
import DerTemplate.Proofs.Oid.Known

namespace DerTemplate

theorem Tag.base_constructed (tag : Tag) : tag.constructed.base = tag.base :=
  forall_octet (p := fun tag => Tag.base (Tag.constructed tag) = Tag.base tag) (by decide +kernel)
    tag

theorem Tag.isConstructed_constructed (tag : Tag) : tag.constructed.isConstructed = true :=
  forall_octet (p := fun tag => Tag.isConstructed (Tag.constructed tag) = true)
    (by decide +kernel) tag

theorem Tag.isConstructed_of_base {tag : Tag} (h : tag.base = tag) : tag.isConstructed = false :=
  forall_octet (p := fun tag => Tag.base tag = tag → Tag.isConstructed tag = false)
    (by decide +kernel) tag h

theorem Tag.isInteger_constructed (tag : Tag) : tag.constructed.isInteger = false :=
  forall_octet (p := fun tag => Tag.isInteger (Tag.constructed tag) = false) (by decide +kernel) tag

namespace Entry

variable {entry : Entry}

theorem base_wireTag (hbase : entry.tag.base = entry.tag) : entry.wireTag.base = entry.tag := by
  unfold wireTag
  split
  · rw [Tag.base_constructed, hbase]
  · exact hbase

theorem isConstructed_wireTag (hbase : entry.tag.base = entry.tag) :
    entry.wireTag.isConstructed = entry.constructed := by
  unfold wireTag
  cases hconstructed : entry.constructed with
  | true => exact Tag.isConstructed_constructed entry.tag
  | false => exact Tag.isConstructed_of_base hbase

theorem isInteger_wireTag : entry.wireTag.isInteger = Encoding.isNumber entry entry.tag := by
  unfold wireTag Encoding.isNumber
  cases hconstructed : entry.constructed with
  | true => exact Tag.isInteger_constructed entry.tag
  | false => rfl

theorem tag_of_wireTag (hbase : entry.tag.base = entry.tag) {tag : Tag} (htag : tag.base = tag)
    (h : entry.wireTag = tag) : entry.tag = tag := by
  rw [← base_wireTag hbase, h, htag]

end Entry

namespace Decoding

open Encoding (isNumber isBits)

theorem ofContent_wireTag {entry : Entry} (hbase : entry.tag.base = entry.tag)
    (policy : IntegerPolicy) (raw : Bytes) :
    Lead.ofContent policy entry.wireTag raw =
      if isNumber entry entry.tag then
        Content.isPadded raw policy >>= fun padded =>
          .ok (if padded then .zeroPad else .absent)
      else if isBits entry entry.tag then
        Content.unusedBitCount raw >>= fun unused => .ok (.unusedBits unused)
      else .ok .absent := by
  unfold Lead.ofContent
  rw [Entry.isConstructed_wireTag hbase, Entry.isInteger_wireTag]
  cases hconstructed : entry.constructed with
  | true => simp [isNumber, isBits, hconstructed]
  | false =>
    have hwire : entry.wireTag = entry.tag := by simp [Entry.wireTag, hconstructed]
    rw [hwire]
    simp [isNumber, isBits, hconstructed]
    rfl

end Decoding

namespace Encoding

def Value.Readable (entry : Entry) : Value → Prop
  | .none => isNumber entry entry.tag = false
  | .uint8 _ | .uint16 _ | .uint32 _ => True
  | .integer _ => isBits entry entry.tag = false
  | .bytes data => isNumber entry entry.tag = true →
    ∃ first rest, data = first :: rest ∧ (first = 0x00 → rest = [])
  | .bits _ _ => isBits entry entry.tag = true
  | .oid _ _ => isNumber entry entry.tag = false ∧ isBits entry entry.tag = false
  | .replace _ | .placeholder _ => False

def Value.returned (nested : Bytes) : Value → Decoding.Destination → Option Decoding.Value
  | _, .none => some .nothing
  | .none, .content => some (.bytes nested)
  | .uint8 n, .uint8 => some (.number n.toNat)
  | .uint16 n, .uint16 => some (.number n.toNat)
  | .uint32 n, .uint32 => some (.number n.toNat)
  | .integer n, .integer signed => if signed ∨ 0 ≤ n then some (.integer n) else Option.none
  | .bytes data, .content => some (.bytes data)
  | .bits data unused, .content => some (.bytes (Content.cleared data unused))
  | .oid category sum, .oid other =>
    if category = other then
      (category.bySum? sum).map fun known => .oid sum known.der
    else Option.none
  | _, _ => Option.none

def Value.unusedBits : Value → UInt8
  | .bits _ unused => unused
  | _ => 0

def Value.content (entry : Entry) (value : Value) : Bytes :=
  (value.lead entry entry.tag).toList ++ (value.body entry entry.tag).fill []

end Encoding

namespace RoundTrip

open Encoding (isNumber isBits Layout layout Value wholeBits_number)
open Decoding (Lead Item Destination readSmall readInteger readValue)

structure Splits (entry : Entry) (policy : IntegerPolicy) (raw : Bytes) (lead : Lead)
    (content : Bytes) : Prop where
  read : Lead.ofContent policy entry.wireTag raw = .ok lead
  behind : raw.drop lead.size = content
  plain : isNumber entry entry.tag = true → lead = .absent → content = raw

variable {entry : Entry} (policy : IntegerPolicy) {raw : Bytes} {value : Value}

theorem splits_number (hbase : entry.tag.base = entry.tag)
    (hnumber : isNumber entry entry.tag = true) (h : Content.Shortest raw) :
    ∃ lead, Splits entry policy raw lead (Content.magnitude raw) ∧ lead.unused = 0 := by
  refine ⟨if Content.hasPad raw then .zeroPad else .absent, ⟨?_, ?_, ?_⟩, ?_⟩
  · rw [Decoding.ofContent_wireTag hbase, if_pos hnumber, Content.isPadded_shortest h]
    rfl
  · unfold Content.magnitude
    cases Content.hasPad raw <;> rfl
  · intro _ habsent
    unfold Content.magnitude
    cases hpad : Content.hasPad raw with
    | false => rfl
    | true => rw [hpad] at habsent; cases habsent
  · cases Content.hasPad raw <;> rfl

theorem splits_bits (hbase : entry.tag.base = entry.tag) (hbits : isBits entry entry.tag = true)
    {unused : UInt8} {rest : Bytes} (h : Content.unusedBitCount (unused :: rest) = .ok unused) :
    Splits entry policy (unused :: rest) (.unusedBits unused) rest := by
  have hnumber : isNumber entry entry.tag = false := by
    obtain ⟨hconstructed, htag⟩ := Bool.and_eq_true_iff.mp hbits
    rw [beq_iff_eq.mp htag, isNumber]
    exact Bool.and_false _
  refine ⟨?_, rfl, fun h => absurd (hnumber ▸ h) Bool.false_ne_true⟩
  rw [Decoding.ofContent_wireTag hbase, hnumber, if_neg Bool.false_ne_true, if_pos hbits, h]
  rfl

theorem splits_other (hbase : entry.tag.base = entry.tag)
    (hnumber : isNumber entry entry.tag = false) (hbits : isBits entry entry.tag = false)
    (raw : Bytes) : Splits entry policy raw .absent raw := by
  refine ⟨?_, rfl, fun _ _ => rfl⟩
  rw [Decoding.ofContent_wireTag hbase, hnumber, hbits]
  rfl

theorem splits_whole (hbase : entry.tag.base = entry.tag)
    (hnumber : isNumber entry entry.tag = false) (content : Bytes) :
    ∃ lead, Splits entry policy
      ((Encoding.wholeBits entry entry.tag).toList ++ content) lead content ∧ lead.unused = 0 := by
  unfold Encoding.wholeBits
  cases hbits : isBits entry entry.tag with
  | true =>
    exact ⟨_, splits_bits policy hbase hbits (Content.unusedBitCount_zero content), rfl⟩
  | false => exact ⟨_, splits_other policy hbase hnumber hbits content, rfl⟩

theorem octets_number {n : Nat} (hlayout : entry.tag = Tag.boolean → n ≤ 0xFF) :
    Encoding.numberOctets entry entry.tag n =
      Bytes.ofNat (if isNumber entry entry.tag then Content.unsignedSize n else octetCount n) n := by
  unfold Encoding.numberOctets
  split
  · rename_i hboolean
    have hn := hlayout hboolean
    have hcount : octetCount n = 1 :=
      Nat.le_antisymm (octetCount_le_iff.mpr ⟨Nat.le_refl 1, by omega⟩) (octetCount_pos n)
    have hnumber : isNumber entry entry.tag = false := by
      rw [hboolean, isNumber]
      exact Bool.and_false _
    rw [hnumber, if_neg Bool.false_ne_true, hcount, Bytes.ofNat_succ, Bytes.ofNat_zero,
      Nat.mod_eq_of_lt (by omega)]
    rfl
  · rfl

theorem splits_small (hbase : entry.tag.base = entry.tag) {n : Nat}
    (hlayout : entry.tag = Tag.boolean → n ≤ 0xFF) :
    ∃ lead, Splits entry policy
      ((Encoding.wholeBits entry entry.tag).toList ++ Encoding.numberOctets entry entry.tag n) lead
        (Bytes.ofNat (octetCount n) n) ∧ lead.unused = 0 := by
  rw [octets_number hlayout]
  cases hnumber : isNumber entry entry.tag with
  | false => exact splits_whole policy hbase hnumber _
  | true =>
    obtain ⟨hshort, hmagnitude⟩ := Content.shortest_unsigned n
    rw [wholeBits_number hnumber, if_pos rfl]
    obtain ⟨lead, hsplits, hunused⟩ := splits_number policy hbase hnumber hshort
    rw [hmagnitude] at hsplits
    exact ⟨lead, hsplits, hunused⟩

variable {item : Item} {index : Nat}

theorem readSmall_split (hbase : entry.tag.base = entry.tag) {n width : Nat}
    (htag : item.tag = entry.wireTag) (hcontent : item.content = Bytes.ofNat (octetCount n) n)
    (hlayout : entry.tag = Tag.boolean → n ≤ 0xFF) (hwidth : n < 256 ^ width)
    (hwidthPos : 1 ≤ width) (hword : n < 0x100000000)
    (hclear : isNumber entry entry.tag = true → item.lead = .absent →
      Content.hasTopBit item.content = false) :
    readSmall item width index = .ok n := by
  have hboolean : item.tag = Tag.boolean → octetCount n = 1 := by
    intro hwire
    have hn := hlayout (Entry.tag_of_wireTag hbase rfl (htag ▸ hwire))
    exact Nat.le_antisymm (octetCount_le_iff.mpr ⟨Nat.le_refl 1, by omega⟩) (octetCount_pos n)
  have hlength : item.content.length = octetCount n := by rw [hcontent, Bytes.length_ofNat]
  have hne : item.content ≠ [] := by
    have := octetCount_pos n
    exact List.length_pos_iff.mp (by omega)
  have hvalue : item.content.toNat = n := by
    rw [hcontent, Bytes.toNat_ofNat_of_lt (lt_pow_octetCount n)]
  have hnarrow : octetCount n ≤ if item.tag = Tag.boolean then 1 else width := by
    split
    · rename_i hwire
      exact Nat.le_of_eq (hboolean hwire)
    · exact octetCount_le_iff.mpr ⟨hwidthPos, hwidth⟩
  have hpositive : ¬(item.tag.isInteger ∧ item.lead = .absent ∧
      Content.hasTopBit item.content) := by
    rintro ⟨hinteger, habsent, htop⟩
    rw [htag, Entry.isInteger_wireTag] at hinteger
    rw [hclear hinteger habsent] at htop
    cases htop
  unfold readSmall
  dsimp only
  rw [if_neg, if_neg hpositive, Content.readUnsigned, if_neg hne, hlength, if_neg (by omega),
    hvalue, Nat.mod_eq_of_lt hword]
  rintro (hwide | ⟨hwire, hone⟩)
  · omega
  · exact hone (hlength.trans (hboolean hwire))

theorem readInteger_split {n : Int} {signed : Bool} (htag : item.tag = entry.wireTag)
    (hraw : item.raw = Bytes.ofInt n) (hcontent : item.content.toNat = (Bytes.ofInt n).toNat)
    (hsigned : signed = true ∨ 0 ≤ n)
    (hplain : isNumber entry entry.tag = true → item.lead = .absent →
      item.content = Bytes.ofInt n) :
    readInteger item signed index = .ok n := by
  unfold readInteger
  cases signed with
  | true => rw [if_pos rfl, hraw, Bytes.toInt_ofInt]
  | false =>
    have hn : 0 ≤ n := by simpa using hsigned
    rw [if_neg Bool.false_ne_true, if_neg, hcontent, Bytes.toNat_ofInt hn]
    rintro ⟨hinteger, habsent, htop⟩
    rw [htag, Entry.isInteger_wireTag] at hinteger
    rw [hplain hinteger habsent, Bytes.topBit_ofInt hn] at htop
    cases htop

theorem readOid_split (options : Options) {category : Oid.Category} {sum : Nat} {known : Oid.Known}
    (hknown : category.bySum? sum = some known) (hcontent : item.content = known.der) :
    Decoding.readOid options category item = .ok (.oid sum known.der) := by
  obtain ⟨rfl, hsum, hwhole⟩ := Oid.bySum_eq_some hknown
  have hcheck : (if item.tag = Tag.objectIdentifier then Oid.checkContent item.content
      else .ok ()) = .ok () := by
    rw [hcontent, hwhole]
    split <;> rfl
  have hverify : (if options.verifyOids then category.verify known.sum item.content else .ok ()) =
      .ok () := by
    rw [hcontent, Oid.verify_bySum hknown]
    split <;> rfl
  rw [Decoding.readOid, hcheck, ok_bind, hcontent, hsum, ok_bind, ← hcontent, hverify, hcontent]
  rfl

def ReadsBack (entry : Entry) (policy : IntegerPolicy) (value : Value) : Prop :=
  ∃ lead content, Splits entry policy (value.content entry) lead content ∧
    lead.unused = value.unusedBits ∧
    ∀ (options : Options) (item : Item) (index : Nat) (destination : Destination)
      (got : Decoding.Value), item.tag = entry.wireTag → item.lead = lead →
        item.raw = value.content entry → item.content = content →
        value.returned [] destination = some got →
        readValue options destination item index = .ok got

theorem boolean_of_smallLayout {n : Nat} {l : Layout}
    (h : Encoding.smallLayout entry entry.tag n index = .ok l) :
    entry.tag = Tag.boolean → n ≤ 0xFF := by
  intro hboolean
  rw [Encoding.smallLayout, if_pos hboolean] at h
  split at h
  · cases h
  · omega

theorem clear_small {n : Nat} (hlayout : entry.tag = Tag.boolean → n ≤ 0xFF)
    (hnumber : isNumber entry entry.tag = true)
    (hplain : Bytes.ofNat (octetCount n) n =
      (Encoding.wholeBits entry entry.tag).toList ++ Encoding.numberOctets entry entry.tag n) :
    Content.hasTopBit (Bytes.ofNat (octetCount n) n) = false := by
  rw [octets_number hlayout, wholeBits_number hnumber, if_pos hnumber,
    Content.ofNat_unsignedSize] at hplain
  have hlength := congrArg List.length hplain
  cases htop : Content.hasTopBit (Bytes.ofNat (octetCount n) n) with
  | false => rfl
  | true => simp [htop] at hlength

theorem reads_small (width : Nat) (hbase : entry.tag.base = entry.tag) {n : Nat}
    (hlayout : entry.tag = Tag.boolean → n ≤ 0xFF) (hwidth : n < 256 ^ width)
    (hwidthPos : 1 ≤ width) (hword : n < 0x100000000) :
    ∃ lead, Splits entry policy
      ((Encoding.wholeBits entry entry.tag).toList ++ Encoding.numberOctets entry entry.tag n) lead
        (Bytes.ofNat (octetCount n) n) ∧ lead.unused = 0 ∧
      ∀ (item : Item) (index : Nat), item.tag = entry.wireTag → item.lead = lead →
        item.content = Bytes.ofNat (octetCount n) n → readSmall item width index = .ok n := by
  obtain ⟨lead, hsplits, hunused⟩ := splits_small policy hbase hlayout
  refine ⟨lead, hsplits, hunused, fun item index htag hlead hcontent => ?_⟩
  refine readSmall_split hbase htag hcontent hlayout hwidth hwidthPos hword fun hnumber habsent => ?_
  rw [hcontent]
  exact clear_small hlayout hnumber (hsplits.plain hnumber (hlead ▸ habsent))

theorem reads_integer (hbase : entry.tag.base = entry.tag) {n : Int}
    (hbits : isBits entry entry.tag = false) :
    ∃ lead content, Splits entry policy (Bytes.ofInt n) lead content ∧ lead.unused = 0 ∧
      content.toNat = (Bytes.ofInt n).toNat := by
  cases hnumber : isNumber entry entry.tag with
  | false => exact ⟨_, _, splits_other policy hbase hnumber hbits _, rfl, rfl⟩
  | true =>
    obtain ⟨lead, hsplits, hunused⟩ :=
      splits_number policy hbase hnumber (Content.shortest_ofInt n)
    exact ⟨lead, _, hsplits, hunused, Content.toNat_magnitude _⟩

theorem reads_bytes (hbase : entry.tag.base = entry.tag) {data : Bytes}
    (hreadable : (Value.bytes data).Readable entry) :
    ∃ lead, Splits entry policy ((Value.bytes data).content entry) lead data ∧
      lead.unused = 0 := by
  have hbody : (Value.bytes data).content entry =
      ((Value.bytes data).lead entry entry.tag).toList ++ data := by
    simp [Value.content, Value.body]
  rw [hbody, Value.lead]
  cases hnumber : isNumber entry entry.tag with
  | false =>
    rw [if_neg (by simp)]
    exact splits_whole policy hbase hnumber data
  | true =>
    obtain ⟨first, rest, rfl, hzero⟩ := hreadable hnumber
    obtain ⟨hshort, hmagnitude, _⟩ := Content.shortest_padded ⟨first, rest, rfl, hzero⟩
    obtain ⟨lead, hsplits, hunused⟩ := splits_number policy hbase hnumber hshort
    rw [hmagnitude] at hsplits
    refine ⟨lead, ?_, hunused⟩
    rw [wholeBits_number hnumber]
    cases htop : Content.hasTopBit (first :: rest) with
    | true => simpa [htop] using hsplits
    | false => simpa [htop] using hsplits

theorem readsBack_number (kind : Destination) (hbase : entry.tag.base = entry.tag) {width n : Nat}
    (hcontent : value.content entry = (Encoding.wholeBits entry entry.tag).toList ++
      Encoding.numberOctets entry entry.tag n) (hunusedBits : value.unusedBits = 0)
    (hkind : ∀ destination got, value.returned [] destination = some got →
      destination = .none ∧ got = .nothing ∨ destination = kind ∧ got = .number n)
    (hread : ∀ options item index, readValue options kind item index =
      Decoding.Value.number <$> readSmall item width index)
    (hlayout : entry.tag = Tag.boolean → n ≤ 0xFF) (hwidth : n < 256 ^ width)
    (hwidthPos : 1 ≤ width) (hword : n < 0x100000000) : ReadsBack entry policy value := by
  obtain ⟨lead, hsplits, hunused, hreads⟩ :=
    reads_small policy width hbase hlayout hwidth hwidthPos hword
  refine ⟨lead, _, hcontent ▸ hsplits, hunused.trans hunusedBits.symm,
    fun options item index destination got htag hlead _ hitem hgot => ?_⟩
  rcases hkind destination got hgot with ⟨rfl, rfl⟩ | ⟨rfl, rfl⟩
  · rfl
  · rw [hread, hreads item index htag hlead hitem]
    rfl

theorem unused_of_layout {data : Bytes} {unused : UInt8} {tag : Tag} {l : Layout}
    (h : layout entry tag (.bits data unused) index = .ok l) :
    ¬7 < unused ∧ (data = [] → unused = 0) := by
  simp only [layout] at h
  split at h
  · cases h
  · rename_i hbits
    exact ⟨fun hlarge => hbits (.inl hlarge),
      fun hempty => Classical.not_not.mp fun hne => hbits (.inr ⟨hempty, hne⟩)⟩

theorem known_of_layout {category : Oid.Category} {sum : Nat} {tag : Tag} {l : Layout}
    (h : layout entry tag (.oid category sum) index = .ok l) :
    ∃ known, category.bySum? sum = some known := by
  simp only [layout] at h
  split at h
  · rename_i known hknown
    exact ⟨known, hknown⟩
  · cases h

theorem content_eq {octets : Bytes} (h : value.body entry entry.tag = Encoding.Stencil.solid octets) :
    value.content entry = (value.lead entry entry.tag).toList ++ octets := by
  rw [Value.content, h, Encoding.Stencil.fill_solid]

theorem readsBack_content {lead : Decoding.Lead} {content : Bytes}
    (hsplits : Splits entry policy (value.content entry) lead content)
    (hunused : lead.unused = value.unusedBits)
    (hkind : ∀ destination got, value.returned [] destination = some got →
      (destination = .none ∧ got = .nothing) ∨ (destination = .content ∧ got = .bytes content)) :
    ReadsBack entry policy value := by
  refine ⟨lead, content, hsplits, hunused,
    fun options item index destination got _ _ _ hitem hgot => ?_⟩
  rcases hkind destination got hgot with ⟨rfl, rfl⟩ | ⟨rfl, rfl⟩
  · rfl
  · exact congrArg (fun content => Except.ok (Decoding.Value.bytes content)) hitem

theorem readsBack_integer (n : Int) (hbase : entry.tag.base = entry.tag)
    (hreadable : (Value.integer n).Readable entry) : ReadsBack entry policy (.integer n) := by
  obtain ⟨lead, content, hsplits, hunused, hvalue⟩ := reads_integer policy hbase hreadable
  have hcontent : (Value.integer n).content entry = Bytes.ofInt n := by
    have hbits : isBits entry entry.tag = false := hreadable
    rw [content_eq rfl]
    simp [Value.lead, Encoding.wholeBits, hbits]
  refine ⟨lead, content, hcontent ▸ hsplits, hunused,
    fun options item index destination got htag hlead hraw hitem hgot => ?_⟩
  cases destination with
  | none =>
    cases hgot
    rfl
  | integer signed =>
    rw [Value.returned] at hgot
    split at hgot
    · rename_i hsigned
      cases hgot
      rw [readValue, readInteger_split htag (hraw.trans hcontent) (hitem ▸ hvalue) hsigned
        fun hnumber habsent => hitem.trans (hsplits.plain hnumber (hlead ▸ habsent))]
      rfl
    · cases hgot
  | _ => cases hgot

theorem readsBack_oid {category : Oid.Category} {sum : Nat} {known : Oid.Known}
    (hbase : entry.tag.base = entry.tag) (hreadable : (Value.oid category sum).Readable entry)
    (hknown : category.bySum? sum = some known) :
    ReadsBack entry policy (.oid category sum) := by
  obtain ⟨hnumber, hbits⟩ := hreadable
  have hcontent : (Value.oid category sum).content entry = known.der := by
    rw [content_eq rfl, hknown]
    rfl
  refine ⟨_, _, hcontent ▸ splits_other policy hbase hnumber hbits known.der, rfl,
    fun options item index destination got htag _ _ hitem hgot => ?_⟩
  cases destination with
  | none =>
    cases hgot
    rfl
  | oid other =>
    rw [Value.returned] at hgot
    split at hgot
    · rename_i hsame
      rw [hknown] at hgot
      cases hgot
      exact hsame ▸ readOid_split options hknown (hitem.trans hcontent)
    · cases hgot
  | _ => cases hgot

theorem readsBack (hbase : entry.tag.base = entry.tag) (hreadable : value.Readable entry)
    {l : Layout} (hlayout : layout entry entry.tag value index = .ok l) :
    ReadsBack entry policy value := by
  cases value with
  | none =>
    obtain ⟨lead, hsplits, hunused⟩ := splits_whole policy hbase hreadable []
    refine readsBack_content policy hsplits hunused fun destination got hgot => ?_
    cases destination <;> cases hgot <;> simp
  | uint8 n =>
    have hn := n.toNat_lt
    refine readsBack_number policy .uint8 hbase (content_eq rfl) rfl ?_ (fun _ _ _ => rfl)
      (boolean_of_smallLayout hlayout) (by omega) (Nat.le_refl 1) (by omega)
    intro destination got hgot
    cases destination <;> cases hgot <;> simp
  | uint16 n =>
    have hn := n.toNat_lt
    refine readsBack_number policy .uint16 hbase (content_eq rfl) rfl ?_ (fun _ _ _ => rfl)
      (boolean_of_smallLayout hlayout) (by omega) (by decide) (by omega)
    intro destination got hgot
    cases destination <;> cases hgot <;> simp
  | uint32 n =>
    have hn := n.toNat_lt
    refine readsBack_number policy .uint32 hbase (content_eq rfl) rfl ?_ (fun _ _ _ => rfl)
      (boolean_of_smallLayout hlayout) (by omega) (by decide) (by omega)
    intro destination got hgot
    cases destination <;> cases hgot <;> simp
  | integer n => exact readsBack_integer policy n hbase hreadable
  | bytes data =>
    obtain ⟨lead, hsplits, hunused⟩ := reads_bytes policy hbase hreadable
    refine readsBack_content policy hsplits hunused fun destination got hgot => ?_
    cases destination <;> cases hgot <;> simp
  | bits data unused =>
    obtain ⟨hunused, hempty⟩ := unused_of_layout hlayout
    have hsplits := splits_bits policy hbase hreadable
      (Content.unusedBitCount_cleared hunused hempty)
    have hcontent : (Value.bits data unused).content entry =
        unused :: Content.cleared data unused := content_eq rfl
    refine readsBack_content policy (hcontent ▸ hsplits) rfl fun destination got hgot => ?_
    cases destination <;> cases hgot <;> simp
  | oid category sum =>
    obtain ⟨known, hknown⟩ := known_of_layout hlayout
    exact readsBack_oid policy hbase hreadable hknown
  | replace _ => exact absurd hreadable id
  | placeholder _ => exact absurd hreadable id

end RoundTrip

end DerTemplate

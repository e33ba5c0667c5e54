import DerTemplate.Proofs.Decoding.OidSum
import DerTemplate.Proofs.RoundTrip.OneLeaf

namespace DerTemplate

open Header (lengthOctets)

variable {entry : Entry} {category : Oid.Category} {known : Oid.Known}

namespace Encoding

open Stencil

theorem content_oid (hmem : known ∈ category.table) :
    (Slot.ofValue (.oid category known.sum)).content entry [] = known.der := by
  have hlead : (Slot.ofValue (.oid category known.sum)).leadBytes entry = [] := rfl
  have hbody : (Slot.ofValue (.oid category known.sum)).body entry = solid known.der := by
    simp [Slot.body, Slot.ofValue, Value.body, Oid.bySum_of_mem hmem]
  simp [Slot.content, hlead, hbody]

theorem writeLeaf_oid (hvalid : Schema.validate [entry] = .ok ())
    (hleaf : entry.headerOnly = false) (hmem : known ∈ category.table)
    (hlimit : (entry.octets known.der).length < lengthLimit) :
    writeLeaf entry (.oid category known.sum) = .ok (entry.octets known.der) := by
  have hreplace (encoded : Bytes) : Value.oid category known.sum ≠ .replace encoded := nofun
  have hlayout (tag : Tag) (index : Nat) :
      layout entry tag (.oid category known.sum) index = .ok ⟨none, known.der.length⟩ := by
    rw [layout, Oid.bySum_of_mem hmem]
  rw [writeLeaf_eq hvalid hleaf hreplace ⟨_, hlayout _⟩, content_oid hmem, if_pos hlimit]

end Encoding

namespace Decoding

variable {options : Options} {content : Bytes} {item : Item}

theorem readOid_known {value : Value} (hoids : options.verifyOids = true)
    (hknown : category ≠ .ignore) (htag : item.tag = Tag.objectIdentifier) :
    readOid options category item = .ok value ↔
      ∃ known ∈ category.table, known.der = item.content ∧
        value = .oid known.sum item.content := by
  constructor
  · intro h
    obtain ⟨_, hcontent, _⟩ := bind_eq_ok_iff.mp h
    rw [if_pos htag] at hcontent
    rw [readOid_total htag hcontent] at h
    split at h
    · cases h
    · split at h
      · cases h
      · rename_i hunknown
        have hfound : ∃ known ∈ category.table, known.der = item.content := by
          simpa [hoids, hknown] using hunknown
        obtain ⟨known, hmem, hsame⟩ := hfound
        refine ⟨known, hmem, hsame, ?_⟩
        rw [← (Oid.total_der hmem).1, hsame]
        exact (Except.ok.inj h).symm
  · rintro ⟨known, hmem, hsame, rfl⟩
    have hcontent := (Oid.table_sound category known hmem).2
    obtain ⟨hsum, hlt⟩ := Oid.total_der hmem
    rw [hsame] at hcontent hsum hlt
    rw [readOid_total htag hcontent, if_neg (Nat.not_le.mpr hlt), if_neg, hsum]
    exact fun hunknown => hunknown.2.2 known hmem hsame

theorem readOctets_oid (options : Options) (hvalid : Schema.validate [entry] = .ok ())
    (hleaf : entry.headerOnly = false) (htag : entry.wireTag = Tag.objectIdentifier)
    (hlimit : (entry.octets content).length < lengthLimit) :
    readOctets entry (.oid category) options (entry.octets content) =
      List.singleton <$> readOid options category
        (.holding entry.wireTag 0 (lengthOctets content.length) content .absent) := by
  have hchoice (tags : List Tag) : Destination.oid category ≠ .choice tags := nofun
  have hlead : Lead.ofContent options.integerPolicy entry.wireTag content = .ok .absent := by
    rw [htag]
    rfl
  rw [readOctets_eq options hvalid hleaf hchoice hlimit, hlead, ok_bind]
  rfl

theorem readOctets_known (hoids : options.verifyOids = true) (hknown : category ≠ .ignore)
    (hvalid : Schema.validate [entry] = .ok ()) (hleaf : entry.headerOnly = false)
    (htag : entry.wireTag = Tag.objectIdentifier)
    (hlimit : (entry.octets content).length < lengthLimit) (values : List Value) :
    readOctets entry (.oid category) options (entry.octets content) = .ok values ↔
      ∃ known ∈ category.table, known.der = content ∧ values = [.oid known.sum content] := by
  have hread (value : Value) :
      readOid options category (.holding entry.wireTag 0 (lengthOctets content.length) content
        .absent) = .ok value ↔
        ∃ known ∈ category.table, known.der = content ∧ value = .oid known.sum content :=
    readOid_known hoids hknown htag
  rw [readOctets_oid options hvalid hleaf htag hlimit, Outcome.map_eq_ok_iff]
  constructor
  · rintro ⟨value, hok, rfl⟩
    obtain ⟨known, hmem, hsame, rfl⟩ := (hread value).mp hok
    exact ⟨known, hmem, hsame, rfl⟩
  · rintro ⟨known, hmem, hsame, rfl⟩
    exact ⟨_, (hread _).mpr ⟨known, hmem, hsame, rfl⟩, rfl⟩

end Decoding

namespace RoundTrip

open Decoding Encoding

theorem known_oid {options : Options} (hoids : options.verifyOids = true)
    (hknown : category ≠ .ignore) (hvalid : Schema.validate [entry] = .ok ())
    (hleaf : entry.headerOnly = false) (htag : entry.wireTag = Tag.objectIdentifier)
    (content : Bytes) (hlimit : (entry.octets content).length < lengthLimit) :
    ((∃ values, readOctets entry (.oid category) options (entry.octets content) = .ok values) ↔
      ∃ known ∈ category.table, known.der = content) ∧
    ∀ values, readOctets entry (.oid category) options (entry.octets content) = .ok values →
      ∃ sum, values = [.oid sum content] ∧ Oid.octetSum content = .ok sum ∧
        writeLeaf entry (.oid category sum) = .ok (entry.octets content) := by
  have hread := readOctets_known hoids hknown hvalid hleaf htag hlimit
  constructor
  · constructor
    · rintro ⟨values, hok⟩
      obtain ⟨known, hmem, hsame, _⟩ := (hread values).mp hok
      exact ⟨known, hmem, hsame⟩
    · rintro ⟨known, hmem, hsame⟩
      exact ⟨_, (hread _).mpr ⟨known, hmem, hsame, rfl⟩⟩
  · intro values hok
    obtain ⟨known, hmem, rfl, rfl⟩ := (hread values).mp hok
    exact ⟨known.sum, rfl, (Oid.table_sound category known hmem).1,
      writeLeaf_oid hvalid hleaf hmem hlimit⟩

theorem known_oid_collision :
    Oid.octetSum [0x55, 0x1E, 0x12] = Oid.octetSum [0x55, 0x1D, 0x13] ∧
      (∀ values, readOctets (.leaf 0 Tag.objectIdentifier) (.oid .certExt) .strict
        [0x06, 0x03, 0x55, 0x1E, 0x12] ≠ .ok values) ∧
      ∃ sum, readOctets (.leaf 0 Tag.objectIdentifier) (.oid .certExt) .strict
          [0x06, 0x03, 0x55, 0x1D, 0x13] = .ok [.oid sum [0x55, 0x1D, 0x13]] ∧
        writeLeaf (.leaf 0 Tag.objectIdentifier) (.oid .certExt sum) =
          .ok [0x06, 0x03, 0x55, 0x1D, 0x13] := by
  have hvalid : Schema.validate [.leaf 0 Tag.objectIdentifier] = .ok () := rfl
  have hoids : Options.strict.verifyOids = true := rfl
  have hknown : Oid.Category.certExt ≠ .ignore := by decide
  obtain ⟨hother, _⟩ := known_oid hoids hknown hvalid rfl rfl [0x55, 0x1E, 0x12] (by decide)
  obtain ⟨hlisted, hagain⟩ := known_oid hoids hknown hvalid rfl rfl [0x55, 0x1D, 0x13] (by decide)
  obtain ⟨values, hvalues⟩ := hlisted.mpr (by decide)
  obtain ⟨sum, rfl, _, hwrite⟩ := hagain values hvalues
  exact ⟨rfl, fun values hok => absurd (hother.mp ⟨values, hok⟩) (by decide), sum, hvalues, hwrite⟩

end RoundTrip

end DerTemplate

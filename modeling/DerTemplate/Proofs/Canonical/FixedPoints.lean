import DerTemplate.Proofs.Canonical.Conversion

namespace DerTemplate

theorem Tag.isConstructed_base (tag : Tag) : tag.base.isConstructed = false :=
  forall_octet (p := fun tag => Tag.isConstructed (Tag.base tag) = false) (by decide +kernel) tag

theorem Tag.hasLongNumber_base (tag : Tag) : tag.base.hasLongNumber = tag.hasLongNumber :=
  forall_octet (p := fun tag => Tag.hasLongNumber (Tag.base tag) = Tag.hasLongNumber tag)
    (by decide +kernel) tag

namespace Canonical

open Header (Identifier lengthOctets)

/-- Items of the shortest definite length, none of them a constructed string, with at most `limit`
constructed items around one another. -/
inductive Der : Nat → Bytes → Prop where
  | nil {limit : Nat} : Der limit []
  | primitive {limit : Nat} (identifier : Identifier) (content : Bytes) {next : Bytes}
    (hprimitive : identifier.first.isConstructed = false) (hnext : Der limit next) :
    Der limit (shortest identifier.octets content ++ next)
  | nested {limit : Nat} (identifier : Identifier) {inner next : Bytes}
    (hconstructed : identifier.first.isConstructed = true)
    (hfragmentable : identifier.first.isFragmentable = false) (hinner : Der limit inner)
    (hnext : Der (limit + 1) next) :
    Der (limit + 1) (shortest identifier.octets inner ++ next)

def mergedIdentifier (identifier : Identifier) (h : identifier.first.isFragmentable = true) :
    Identifier where
  first := identifier.first.base
  number := identifier.number
  first_ne := base_ne_of_isFragmentable h
  number_of_long := fun hlong =>
    identifier.number_of_long (Tag.hasLongNumber_base identifier.first ▸ hlong)
  number_of_short := fun hshort =>
    identifier.number_of_short (Tag.hasLongNumber_base identifier.first ▸ hshort)
  length_number := identifier.length_number

namespace Ber

theorem der_of_nesting {tree : Ber} (hvalid : tree.Valid) {limit : Nat}
    (hnesting : tree.nesting ≤ limit) : Der limit tree.der := by
  induction tree generalizing limit with
  | nil => exact .nil
  | primitive identifier length content next ih =>
    obtain ⟨hprimitive, _, hnext⟩ := hvalid
    exact .primitive identifier content hprimitive (ih hnext hnesting)
  | nested identifier length inner next ihInner ihNext =>
    obtain ⟨⟨hconstructed, hfragmentable⟩, _, hinner, hnext⟩ := hvalid
    rw [nesting] at hnesting
    cases limit with
    | zero => omega
    | succ limit =>
      have hbelow : inner.nesting ≤ limit := by omega
      have hbeside : next.nesting ≤ limit + 1 := by omega
      exact .nested identifier hconstructed hfragmentable (ihInner hinner hbelow)
        (ihNext hnext hbeside)
  | string identifier length fragments next ih =>
    obtain ⟨⟨_, hfragmentable⟩, _, _, hnext⟩ := hvalid
    have hbeside : next.nesting ≤ limit := Nat.le_trans (Nat.le_max_right _ _) hnesting
    exact .primitive (mergedIdentifier identifier hfragmentable) _
      (Tag.isConstructed_base identifier.first) (ih hnext hbeside)

theorem rewritten_of_canonical {tree : Ber} (h : tree.canonical = true) : tree.rewritten = 0 := by
  induction tree with
  | nil => rfl
  | primitive identifier length content next ih =>
    obtain ⟨_, hnext⟩ := Bool.and_eq_true_iff.mp h
    exact ih hnext
  | nested identifier length inner next ihInner ihNext =>
    obtain ⟨hkept, hnext⟩ := Bool.and_eq_true_iff.mp h
    have hinner := ihInner (kept_eq_true hkept).1
    simp only [rewritten, hkept, hinner, ihNext hnext, if_true]
  | string identifier length fragments next ih => cases h

theorem indefiniteNesting_of_canonical {tree : Ber} (h : tree.canonical = true) :
    tree.indefiniteNesting = 0 := by
  induction tree with
  | nil => rfl
  | primitive identifier length content next ih =>
    obtain ⟨_, hnext⟩ := Bool.and_eq_true_iff.mp h
    exact ih hnext
  | nested identifier length inner next ihInner ihNext =>
    obtain ⟨hkept, hnext⟩ := Bool.and_eq_true_iff.mp h
    obtain ⟨hinner, octets, rfl, _⟩ := kept_eq_true hkept
    simp [indefiniteNesting, ihInner hinner, ihNext hnext]
  | string identifier length fragments next ih => cases h

theorem exists_canonical {limit : Nat} {octets : Bytes} (h : Der limit octets)
    (hsmall : octets.length < lengthLimit) :
    ∃ tree : Ber, tree.Valid ∧ tree.canonical = true ∧ tree.nesting ≤ limit ∧
      tree.octets = octets := by
  induction h with
  | nil => exact ⟨.nil, trivial, rfl, Nat.zero_le _, rfl⟩
  | primitive identifier content hprimitive hnext ih =>
    rw [List.length_append, length_shortest] at hsmall
    obtain ⟨next, hvalid, hcanonical, hnesting, rfl⟩ := ih (by omega)
    have hlength := Header.isLength_lengthOctets (show content.length < lengthLimit by omega)
    refine ⟨.primitive identifier (lengthOctets content.length) content next,
      ⟨hprimitive, hlength, hvalid⟩, ?_, hnesting, ?_⟩
    · simp [canonical, kept, Header.length_lengthOctets, hcanonical]
    · rw [Ber.octets, whole_definite, shortest]
  | nested identifier hconstructed hfragmentable hinner hnext ihInner ihNext =>
    rename_i limit' content behind
    rw [List.length_append, length_shortest] at hsmall
    obtain ⟨inner, hvalid, hcanonical, hnesting, rfl⟩ := ihInner (by omega)
    obtain ⟨next, hvalidNext, hcanonicalNext, hnestingNext, rfl⟩ := ihNext (by omega)
    have hlength := Header.isLength_lengthOctets (show inner.octets.length < lengthLimit by omega)
    have hsame := der_of_canonical hvalid hcanonical
    refine ⟨.nested identifier (some (lengthOctets inner.octets.length)) inner next,
      ⟨⟨hconstructed, hfragmentable⟩, ?_, hvalid, hvalidNext⟩, ?_, ?_, ?_⟩
    · rintro octets ⟨⟩
      exact hlength
    · simp [canonical, kept, hsame, Header.length_lengthOctets, hcanonical, hcanonicalNext]
    · rw [nesting]
      omega
    · rw [Ber.octets, whole_definite, shortest]

end Ber

theorem convert_of_der {octets : Bytes} (h : Der nestingLimit octets)
    (hsmall : octets.length < lengthLimit) : convert octets = .ok octets := by
  obtain ⟨tree, hvalid, hcanonical, hnesting, rfl⟩ := Ber.exists_canonical h hsmall
  have hlimited : tree.Limited := by
    constructor
    · exact hnesting
    · rw [Ber.indefiniteNesting_of_canonical hcanonical]
      exact Nat.zero_le _
    · rw [Ber.rewritten_of_canonical hcanonical]
      exact Nat.zero_le _
  rw [convert_octets hvalid hsmall hlimited, Ber.der_of_canonical hvalid hcanonical, if_pos hsmall]

theorem der_of_convert {input output : Bytes} (hsmall : input.length < lengthLimit)
    (h : convert input = .ok output) : Der nestingLimit output := by
  obtain ⟨tree, hvalid, _, hlimited, _, rfl⟩ := tree_of_convert hsmall h
  exact Ber.der_of_nesting hvalid hlimited.nesting

theorem canonical_iff_fixed :
    (∀ octets : Bytes, octets.length < lengthLimit →
      (Der nestingLimit octets ↔ convert octets = .ok octets)) ∧
    ∀ input output : Bytes, input.length < lengthLimit → convert input = .ok output →
      Der nestingLimit output ∧ convert output = .ok output := by
  constructor
  · intro octets hsmall
    exact ⟨fun h => convert_of_der h hsmall, der_of_convert hsmall⟩
  · intro input output hsmall h
    have hder := der_of_convert hsmall h
    obtain ⟨_, _, _, _, hfits, _⟩ := tree_of_convert hsmall h
    exact ⟨hder, convert_of_der hder hfits⟩

theorem canonical_envelope :
    (Der nestingLimit [0x30, 0x05, 0x04, 0x03, 0xAA, 0xBB, 0xCC] ↔
      convert [0x30, 0x05, 0x04, 0x03, 0xAA, 0xBB, 0xCC] =
        .ok [0x30, 0x05, 0x04, 0x03, 0xAA, 0xBB, 0xCC]) ∧
    convert [0x30, 0x80, 0x24, 0x80, 0x04, 0x01, 0xAA, 0x04, 0x81, 0x02, 0xBB, 0xCC, 0x00, 0x00,
      0x00, 0x00] = .ok [0x30, 0x05, 0x04, 0x03, 0xAA, 0xBB, 0xCC] ∧
    Der nestingLimit [0x30, 0x05, 0x04, 0x03, 0xAA, 0xBB, 0xCC] ∧
    convert [0x30, 0x05, 0x04, 0x03, 0xAA, 0xBB, 0xCC] =
      .ok [0x30, 0x05, 0x04, 0x03, 0xAA, 0xBB, 0xCC] := by
  have hlimited : envelope.Limited := ⟨by decide, by decide, by decide⟩
  have hconvert : convert envelope.octets = .ok envelope.der :=
    (convert_octets valid_envelope (by decide) hlimited).trans (if_pos (by decide))
  obtain ⟨hder, hfixed⟩ := canonical_iff_fixed.2 _ _ (by decide) hconvert
  exact ⟨canonical_iff_fixed.1 _ (by decide), hconvert, hder, hfixed⟩

end Canonical

end DerTemplate

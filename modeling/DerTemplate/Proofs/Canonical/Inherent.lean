import DerTemplate.Proofs.Canonical.FixedPoints
import DerTemplate.Proofs.Canonical.Merging

namespace DerTemplate.Canonical

open Header (Identifier IsLength lengthOctets lengthSize)

theorem exists_leading {tag : Tag} (hprimitive : tag.isConstructed = false)
    (hshort : tag.hasLongNumber = false) {limit : Nat} {content : Bytes} (h : Der limit content) :
    ∃ (members : List Bytes) (rest : Bytes), content = members.flatMap (shortest [tag]) ++ rest ∧
      ∀ first ∈ rest.head?, first ≠ tag ∧ first ≠ Tag.endOfContent := by
  induction h with
  | nil => exact ⟨[], [], rfl, nofun⟩
  | primitive identifier member _ _ ih =>
    by_cases hsame : identifier.first = tag
    · obtain ⟨members, rest, hnext, hrest⟩ := ih
      have hoctets : identifier.octets = [tag] := by
        rw [Identifier.octets, identifier.number_of_short (hsame ▸ hshort), hsame]
      refine ⟨member :: members, rest, ?_, hrest⟩
      rw [hoctets, hnext, List.flatMap_cons, List.append_assoc]
    · refine ⟨[], _, rfl, ?_⟩
      rintro _ ⟨⟩
      exact ⟨hsame, identifier.first_ne⟩
  | nested identifier hconstructed _ _ _ _ _ =>
    refine ⟨[], _, rfl, ?_⟩
    rintro _ ⟨⟩
    refine ⟨fun hsame => ?_, identifier.first_ne⟩
    rw [hsame, hprimitive] at hconstructed
    exact Bool.false_ne_true hconstructed

def fragmentsOf (members : List Bytes) : List Fragment :=
  members.map fun member => ⟨lengthOctets member.length, member⟩

theorem join_fragmentsOf (tag : Tag) (members : List Bytes) :
    Fragment.join tag (fragmentsOf members) = members.flatMap (shortest [tag]) := by
  rw [Fragment.join, fragmentsOf, List.flatMap_map]
  rfl

theorem merged_fragmentsOf (members : List Bytes) :
    Fragment.merged false (fragmentsOf members) = members.flatten := by
  rw [Fragment.merged, if_neg Bool.false_ne_true, List.nil_append, Fragment.contents, fragmentsOf,
    List.flatMap_map]
  exact List.flatMap_id'

theorem valid_fragmentsOf (tag : Tag) {members : List Bytes}
    (hsmall : (members.flatMap (shortest [tag])).length < lengthLimit) :
    Fragment.Valid false (fragmentsOf members) := by
  induction members with
  | nil => trivial
  | cons member members ih =>
    rw [List.flatMap_cons, List.length_append, length_shortest] at hsmall
    exact ⟨Header.isLength_lengthOctets (by omega), nofun, ih (by omega)⟩

variable {identifier : Identifier} {length : Option Bytes}

theorem readFragments_foreign {string : Fragmented} {input : Bytes} {idx stop next : Nat}
    {fragments : List Fragment} {first : UInt8} {rest : Bytes} {ledger ledger' : Ledger}
    (hvalid : Fragment.Valid string.isBits fragments)
    (htag : string.tag.base ≠ Tag.endOfContent)
    (hinput : input.Holds idx (Fragment.join string.tag.base fragments ++ first :: rest))
    (hstop : idx + (Fragment.join string.tag.base fragments).length < stop)
    (hend : string.Ends input stop next)
    (hbooks : Ledger.addContents string.isBits fragments ledger = .ok ledger')
    (hfirst : first ≠ string.tag.base) (hne : first ≠ Tag.endOfContent) :
    string.readFragments input idx 0 ledger =
      refuse (.invalidEncoding (.fragmentTag first
        (idx + (Fragment.join string.tag.base fragments).length) string.tag)) := by
  obtain ⟨hbefore, hforeign⟩ := Bytes.holds_append_iff.mp hinput
  rw [Fragmented.readFragments_ahead ledger hvalid htag hbefore (Nat.le_of_lt hstop) hend
    (fun _ _ => rfl), hbooks, ok_bind, Fragmented.readFragments_eq,
    Fragmented.endAt_fragment hend hforeign hne hstop, ok_bind]
  dsimp only
  rw [Fragmented.readFragment, hforeign.fetch, ok_bind, if_pos hfirst]
  rfl

theorem addContents_begun (identifier : Identifier) (length : Option Bytes) (content : Bytes)
    (bits : Bool) (fragments : List Fragment)
    (hsmall : (Fragment.contents bits fragments).length < wordLimit) :
    ∃ ledger, Ledger.addContents bits fragments (begun identifier length content) = .ok ledger := by
  cases fragments with
  | nil => exact ⟨_, rfl⟩
  | cons fragment rest =>
    rw [Ledger.addContents_cons]
    refine ⟨_, Ledger.add_eq true fun item hitem => ?_⟩
    rw [List.mem_singleton.mp hitem, Ledger.contentLength_itemOf, Nat.zero_add]
    exact hsmall

theorem convert_foreign {fragments : List Fragment} {content : Bytes} {first : UInt8} {rest : Bytes}
    (htag : identifier.first.isConstructed = true ∧ identifier.first.isFragmentable = true)
    (hlength : ∀ octets, length = some octets → IsLength octets content.length)
    (hcontent : content = Fragment.join identifier.first.base fragments ++ first :: rest)
    (hfragments : Fragment.Valid (isBits identifier) fragments)
    (hfirst : first ≠ identifier.first.base) (hne : first ≠ Tag.endOfContent)
    (hsmall : content.length < wordLimit) :
    convert (whole identifier length content) =
      .error (.refused (.invalidEncoding (.fragmentTag first
        ((header identifier length).length + (Fragment.join identifier.first.base fragments).length)
        identifier.first))) := by
  have hlengths : content.length =
      (Fragment.join identifier.first.base fragments).length + (rest.length + 1) := by
    rw [hcontent, List.length_append, List.length_cons]
  obtain ⟨hinside, hends⟩ := outermost_ends identifier length content
  have hmembers : (whole identifier length content).Holds (header identifier length).length
      (Fragment.join identifier.first.base fragments ++ first :: rest) := by
    rw [← hcontent]
    exact hinside
  have hcontents := Fragment.length_contents_le identifier.first.base (isBits identifier) fragments
  obtain ⟨ledger, hledger⟩ :=
    addContents_begun identifier length content (isBits identifier) fragments (by omega)
  have hwithin : (header identifier length).length +
      (Fragment.join identifier.first.base fragments).length <
        (header identifier length).length + content.length := by omega
  have hread : (outermost identifier length content).readFragments
      (whole identifier length content) (header identifier length).length 0
      (begun identifier length content) = _ :=
    readFragments_foreign hfragments (base_ne_of_isFragmentable htag.2) hmembers hwithin hends hledger
      hfirst hne
  refine convert_of_merge htag hlength ?_
  rw [Fragmented.merge, hread]
  rfl

/-- The tag octets of EXTERNAL, EMBEDDED PDV and CHARACTER STRING. -/
def inherent : List Tag := [0x28, 0x2B, 0x3D]

section

variable {tag : Tag} {members : List Bytes}

theorem eq_of_inherent (h : tag ∈ inherent) : tag = 0x28 ∨ tag = 0x2B ∨ tag = 0x3D := by
  simpa [inherent] using h

theorem constructed_of_inherent (h : tag ∈ inherent) :
    tag.isConstructed = true ∧ tag.isFragmentable = true := by
  rcases eq_of_inherent h with rfl | rfl | rfl <;> decide

theorem hasLongNumber_of_inherent (h : tag ∈ inherent) : tag.hasLongNumber = false := by
  rcases eq_of_inherent h with rfl | rfl | rfl <;> rfl

theorem isBits_of_inherent (h : tag ∈ inherent) : (tag.base == Tag.bitString) = false := by
  rcases eq_of_inherent h with rfl | rfl | rfl <;> rfl

theorem ne_endOfContent_of_inherent (h : tag ∈ inherent) : tag ≠ Tag.endOfContent := by
  rcases eq_of_inherent h with rfl | rfl | rfl <;> decide

def identifierOf (h : tag ∈ inherent) : Identifier :=
  .single tag (ne_endOfContent_of_inherent h) (hasLongNumber_of_inherent h)

theorem whole_identifierOf (h : tag ∈ inherent) (content : Bytes) :
    whole (identifierOf h) (some (lengthOctets content.length)) content = shortest [tag] content :=
  whole_definite _ _ _

theorem valid_identifierOf (h : tag ∈ inherent)
    (hsmall : (members.flatMap (shortest [tag.base])).length < lengthLimit) :
    Fragment.Valid (isBits (identifierOf h)) (fragmentsOf members) := by
  rw [show isBits (identifierOf h) = false from isBits_of_inherent h]
  exact valid_fragmentsOf tag.base hsmall

theorem length_lt_of_shortest {tag content : Bytes}
    (h : (shortest tag content).length < lengthLimit) : content.length < lengthLimit := by
  rw [length_shortest] at h
  omega

theorem isLength_of_eq_some {n : Nat} (h : n < lengthLimit) :
    ∀ octets, some (lengthOctets n) = some octets → IsLength octets n := by
  rintro _ ⟨⟩
  exact Header.isLength_lengthOctets h

theorem convert_members (h : tag ∈ inherent)
    (hsmall : (shortest [tag] (members.flatMap (shortest [tag.base]))).length < lengthLimit) :
    convert (shortest [tag] (members.flatMap (shortest [tag.base]))) =
      .ok (shortest [tag.base] members.flatten) := by
  have hcontent := length_lt_of_shortest hsmall
  have hvalid := valid_identifierOf h hcontent
  have hjoin : members.flatMap (shortest [tag.base]) =
    Fragment.join (identifierOf h).first.base (fragmentsOf members) :=
      (join_fragmentsOf tag.base members).symm
  have hmerged : Fragment.merged (isBits (identifierOf h)) (fragmentsOf members) =
      members.flatten := by
    rw [show isBits (identifierOf h) = false from isBits_of_inherent h]
    exact merged_fragmentsOf members
  rw [← whole_identifierOf h] at hsmall ⊢
  rw [hjoin] at hsmall hcontent ⊢
  rw [← Ber.octets_string] at hsmall ⊢
  rw [convert_string ⟨constructed_of_inherent h, isLength_of_eq_some hcontent, hvalid, trivial⟩
    hsmall, Ber.der_string, hmerged]
  rfl

theorem convert_member (h : tag ∈ inherent) (members : List Bytes) {first : UInt8} {rest : Bytes}
    (hfirst : first ≠ tag.base) (hne : first ≠ Tag.endOfContent)
    (hsmall : (members.flatMap (shortest [tag.base]) ++ first :: rest).length < lengthLimit) :
    convert (shortest [tag] (members.flatMap (shortest [tag.base]) ++ first :: rest)) =
      .error (.refused (.invalidEncoding (.fragmentTag first
        (1 + lengthSize (members.flatMap (shortest [tag.base]) ++ first :: rest).length +
          (members.flatMap (shortest [tag.base])).length) tag))) := by
  have hlengths : (members.flatMap (shortest [tag.base]) ++ first :: rest).length = _ :=
    List.length_append
  have hjoin : Fragment.join (identifierOf h).first.base (fragmentsOf members) =
    members.flatMap (shortest [tag.base]) := join_fragmentsOf tag.base members
  rw [← whole_identifierOf h, convert_foreign (constructed_of_inherent h)
    (isLength_of_eq_some hsmall) (by rw [hjoin]) (valid_identifierOf h (by omega)) hfirst hne
    (lt_wordLimit hsmall), length_header, hjoin]
  rw [opening, Option.getD_some, Header.length_lengthOctets]
  rfl

theorem convert_inherent (h : tag ∈ inherent) {limit : Nat} {content : Bytes}
    (hcontent : Der limit content) (hsmall : (shortest [tag] content).length < lengthLimit) :
    convert (shortest [tag] content) ≠ .ok (shortest [tag] content) ∧
      ∃ members rest, content = List.flatMap (shortest [tag.base]) members ++ rest ∧
        ((rest = [] ∧
            convert (shortest [tag] content) = .ok (shortest [tag.base] members.flatten)) ∨
          ∃ first, rest.head? = some first ∧ first ≠ tag.base ∧
            convert (shortest [tag] content) =
              .error (.refused (.invalidEncoding (.fragmentTag first
                (1 + lengthSize content.length +
                  (List.flatMap (shortest [tag.base]) members).length) tag)))) := by
  obtain ⟨members, rest, rfl, hrest⟩ := exists_leading (Tag.isConstructed_base tag)
    ((Tag.hasLongNumber_base tag).trans (hasLongNumber_of_inherent h)) hcontent
  cases rest with
  | nil =>
    rw [List.append_nil] at hsmall ⊢
    have hmerged := convert_members h hsmall
    refine ⟨fun hsame => ?_, members, [], (List.append_nil _).symm, .inl ⟨rfl, hmerged⟩⟩
    rw [hmerged] at hsame
    have hbase : tag.base = tag := (List.cons.inj (Except.ok.inj hsame)).1
    have hconstructed := (constructed_of_inherent h).1
    rw [← hbase, Tag.isConstructed_base] at hconstructed
    exact Bool.false_ne_true hconstructed
  | cons first rest =>
    obtain ⟨hfirst, hne⟩ := hrest first rfl
    have hrefused := convert_member h members hfirst hne (length_lt_of_shortest hsmall)
    refine ⟨fun hsame => ?_, members, first :: rest, rfl, .inr ⟨first, rfl, hfirst, hrefused⟩⟩
    rw [hrefused] at hsame
    cases hsame

end

def associated : Bytes := [0x06, 0x02, 0x2A, 0x03, 0x81, 0x01, 0xAA]

theorem der_associated : Der nestingLimit associated :=
  .primitive (.single 0x06 (by decide) rfl) [0x2A, 0x03] rfl
    (.primitive (.single 0x81 (by decide) rfl) [0xAA] rfl .nil)

theorem convert_inherent_associated :
    0x28 ∈ inherent ∧ Der nestingLimit associated ∧
      (shortest [0x28] associated).length < lengthLimit ∧
      convert (shortest [0x28] associated) ≠ .ok (shortest [0x28] associated) :=
  ⟨by decide, der_associated, by decide,
    (convert_inherent (by decide) der_associated (by decide)).1⟩

theorem external_not_kept :
    Der nestingLimit associated ∧ shortest [0x28] associated =
        [0x28, 0x07, 0x06, 0x02, 0x2A, 0x03, 0x81, 0x01, 0xAA] ∧
      convert [0x28, 0x07, 0x06, 0x02, 0x2A, 0x03, 0x81, 0x01, 0xAA] =
        .error (.refused (.invalidEncoding (.fragmentTag 0x06 2 0x28))) ∧
      convert [0x28, 0x07, 0x06, 0x02, 0x2A, 0x03, 0x81, 0x01, 0xAA] ≠
        .ok [0x28, 0x07, 0x06, 0x02, 0x2A, 0x03, 0x81, 0x01, 0xAA] := by
  have hrefused : convert [0x28, 0x07, 0x06, 0x02, 0x2A, 0x03, 0x81, 0x01, 0xAA] =
      .error (.refused (.invalidEncoding (.fragmentTag 0x06 2 0x28))) :=
    @convert_member 0x28 (by decide) [] 0x06 [0x02, 0x2A, 0x03, 0x81, 0x01, 0xAA] (by decide)
      (by decide) (by decide)
  refine ⟨der_associated, rfl, hrefused, ?_⟩
  rw [hrefused]
  exact nofun

end DerTemplate.Canonical

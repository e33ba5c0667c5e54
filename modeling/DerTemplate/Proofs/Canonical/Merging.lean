import DerTemplate.Proofs.Canonical.Agreement

namespace DerTemplate.Canonical

open Header (Identifier IsLength numberOctetLimit)

variable {identifier : Identifier} {length : Option Bytes}

theorem limited_string (identifier : Identifier) (length : Option Bytes)
    (fragments : List Fragment) : (Ber.string identifier length fragments .nil).Limited := by
  refine ⟨show max 1 0 ≤ nestingLimit by decide, ?_, show 1 + 0 ≤ recordLimit by decide⟩
  rw [Ber.indefiniteNesting, Ber.indefiniteNesting]
  split <;> decide

theorem length_der_string {fragments : List Fragment}
    (hvalid : (Ber.string identifier length fragments .nil).Valid)
    (hsmall : (Ber.string identifier length fragments .nil).octets.length < lengthLimit) :
    (Ber.string identifier length fragments .nil).der.length < lengthLimit := by
  obtain ⟨_, hlength, hfragments, _⟩ := hvalid
  have hnumber := identifier.length_number
  have hmerged := Fragment.length_merged_le identifier.first.base hfragments
  rw [Ber.der_string, length_shortest, List.length_cons]
  rw [Ber.octets_string, length_whole, length_header, Identifier.length_octets] at hsmall
  cases length with
  | none =>
    have hindefinite : (opening none).length + (closing none).length = 3 := rfl
    omega
  | some octets =>
    have hlimits : 128 + 2 + numberOctetLimit + 1 < lengthLimit := by decide
    have hdefinite : (opening (some octets)).length = octets.length := rfl
    rw [hdefinite] at hsmall
    generalize hjoined : (Fragment.join identifier.first.base fragments).length = joined at *
    cases hlength octets rfl with
    | short first hfirst => omega
    | long first digits _ hdigits =>
      have hpos := List.length_pos_iff.mpr hdigits
      rw [List.length_cons] at hsmall
      omega

theorem convert_string {fragments : List Fragment}
    (hvalid : (Ber.string identifier length fragments .nil).Valid)
    (hsmall : (Ber.string identifier length fragments .nil).octets.length < lengthLimit) :
    convert (Ber.string identifier length fragments .nil).octets =
      .ok (Ber.string identifier length fragments .nil).der := by
  rw [convert_octets hvalid hsmall (limited_string _ _ _),
    if_pos (length_der_string hvalid hsmall)]

theorem convert_fragments (identifier : Identifier) (length : Option Bytes)
    (fragments : List Fragment)
    (htag : identifier.first.isConstructed = true ∧ identifier.first.isFragmentable = true)
    (hlength : ∀ octets, length = some octets →
      IsLength octets (Fragment.join identifier.first.base fragments).length)
    (hfragments : Fragment.Valid (isBits identifier) fragments)
    (hsmall : (whole identifier length
      (Fragment.join identifier.first.base fragments)).length < lengthLimit) :
    convert (whole identifier length (Fragment.join identifier.first.base fragments)) =
      .ok (shortest (identifier.first.base :: identifier.number)
        (Fragment.merged (isBits identifier) fragments)) := by
  have hvalid : (Ber.string identifier length fragments .nil).Valid :=
    ⟨htag, hlength, hfragments, trivial⟩
  rw [← Ber.octets_string] at hsmall ⊢
  rw [convert_string hvalid hsmall, Ber.der_string]

theorem convert_fragments_bits :
    convert [0x23, 0x80, 0x03, 0x02, 0x00, 0xAA, 0x03, 0x81, 0x02, 0x04, 0xB0, 0x00, 0x00] =
      .ok [0x03, 0x03, 0x04, 0xAA, 0xB0] := by
  have hfirst : IsLength [0x02] 2 := .short 0x02 (by decide)
  have hsecond : IsLength [0x81, 0x02] 2 := .long 0x81 [0x02] rfl (by decide) (by decide) (by decide)
  exact convert_fragments (.single 0x23 (by decide) rfl) none
    [⟨[0x02], [0x00, 0xAA]⟩, ⟨[0x81, 0x02], [0x04, 0xB0]⟩] (by decide) nofun
    ⟨hfirst, fun _ => ⟨0, rfl, fun _ => rfl⟩, hsecond, fun _ => ⟨4, rfl, fun h => absurd rfl h⟩,
      trivial⟩ (by decide)

theorem readFragment_number {string : Fragmented} {input : Bytes} {start : Nat} {number : UInt8}
    {rest : Bytes} (unused : UInt8) (ledger : Ledger)
    (hinput : input.Holds start (string.tag.base :: number :: rest)) (hnumber : number.toNat < 0x80)
    (hlimit : start + 2 ≤ string.limit) (hroom : string.limit < start + 2 + number.toNat) :
    string.readFragment input start unused ledger =
      refuse (.truncatedInput (.pastParent start number.toNat)) := by
  obtain ⟨_, hbehind⟩ := Bytes.holds_cons_iff.mp hinput
  have hlength : Header.readAnyLength input (start + 1) string.limit =
      .ok (.definite number.toNat, start + 1 + 1) :=
    Header.readAnyLength_isLength (.short number hnumber)
      (Bytes.holds_append_iff.mp (show input.Holds (start + 1) ([number] ++ rest) from hbehind)).1
      hlimit
  rw [Fragmented.readFragment, hinput.fetch, ok_bind, if_neg (fun h => h rfl), readContentLength,
    hlength, ok_bind]
  dsimp only
  rw [Word.sub, if_pos hlimit, ok_bind, if_pos (by omega)]
  rfl

def outermost (identifier : Identifier) (length : Option Bytes) (content : Bytes) : Fragmented :=
  ⟨identifier.first, length.map fun _ => (header identifier length).length + content.length,
    (whole identifier length content).length⟩

theorem limit_outermost (identifier : Identifier) (length : Option Bytes) (content : Bytes) :
    (outermost identifier length content).limit = (whole identifier length content).length := by
  cases length with
  | none => rfl
  | some octets => rw [length_whole]; rfl

theorem outermost_ends (identifier : Identifier) (length : Option Bytes) (content : Bytes) :
    (whole identifier length content).Holds (header identifier length).length content ∧
      (outermost identifier length content).Ends (whole identifier length content)
        ((header identifier length).length + content.length)
        (whole identifier length content).length := by
  obtain ⟨_, hinside⟩ := Bytes.holds_append_iff.mp
    (Bytes.holds_self (whole identifier length content))
  obtain ⟨hcontent, hclosing⟩ := Bytes.holds_append_iff.mp hinside
  have hends := fragments_end identifier.first hclosing (Nat.le_of_eq (Nat.zero_add _))
  rw [Nat.zero_add] at hcontent hends
  rw [Nat.zero_add] at hends
  exact ⟨hcontent, hends⟩

def begun (identifier : Identifier) (length : Option Bytes) (content : Bytes) : Ledger :=
  Ledger.empty.enclosed (Ledger.itemOf identifier length 0
    ((header identifier length).length + content.length) (whole identifier length content).length)

theorem convert_of_merge {content : Bytes} {failure : Failure}
    (htag : identifier.first.isConstructed = true ∧ identifier.first.isFragmentable = true)
    (hlength : ∀ octets, length = some octets → IsLength octets content.length)
    (hmerge : (outermost identifier length content).merge (whole identifier length content)
      (header identifier length).length (begun identifier length content) = .error failure) :
    convert (whole identifier length content) = .error failure := by
  have hwhole := length_whole identifier length content
  have hpos := length_header_pos identifier length
  have hempty : Ledger.empty.bound (whole identifier length content).length =
    (whole identifier length content).length := rfl
  obtain ⟨hheader, _⟩ := Bytes.holds_append_iff.mp
    (Bytes.holds_self (whole identifier length content))
  have hopened : Ledger.empty.openAt 0 identifier.octets.length
      (0 + (header identifier length).length) (whole identifier length content).length
      (length.map fun _ => content.length) = .ok (begun identifier length content) := by
    refine (Ledger.openAt_eq_ok_iff _ _).mpr ⟨⟨by decide, fun _ => by decide⟩, ?_⟩
    rw [Nat.zero_add]
    rfl
  have hrefused : Fragmented.merge ⟨identifier.first, length.map fun _ =>
      0 + (header identifier length).length + content.length,
      (whole identifier length content).length⟩ (whole identifier length content)
      (0 + (header identifier length).length) (begun identifier length content) =
        .error failure := by
    rw [Nat.zero_add]
    exact hmerge
  rw [convert, size, survey, surveyFrom_identifier hheader (by omega), hempty,
    surveyItem_header hlength hheader (by omega), htag.1, if_pos rfl, hopened, ok_bind, htag.2,
    if_pos rfl]
  dsimp only
  rw [hrefused]
  rfl

theorem number_lt {number : UInt8} (h : identifier.number = [number]) : number.toNat < 0x80 := by
  cases hlong : identifier.first.hasLongNumber with
  | true =>
    have hoctets := identifier.number_of_long hlong
    rw [h] at hoctets
    cases hoctets with
    | last _ hb => exact (topBit_clear_iff number).mp hb
    | more _ hb hrest => cases hrest
  | false =>
    rw [identifier.number_of_short hlong] at h
    cases h

theorem convert_number {number : UInt8} {rest : Bytes}
    (htag : identifier.first.isConstructed = true ∧ identifier.first.isFragmentable = true)
    (hnumber : identifier.number = [number])
    (hlength : ∀ octets, length = some octets →
      IsLength octets (identifier.first.base :: number :: rest).length)
    (hroom : rest.length + (closing length).length < number.toNat) :
    convert (whole identifier length (identifier.first.base :: number :: rest)) =
      .error (.refused
        (.truncatedInput (.pastParent (header identifier length).length number.toNat))) := by
  apply convert_of_merge htag hlength
  have hlimit : (outermost identifier length (identifier.first.base :: number :: rest)).limit =
      (header identifier length).length + (rest.length + 2) + (closing length).length := by
    rw [limit_outermost, length_whole]
    rfl
  obtain ⟨hfragments, hends⟩ :=
    outermost_ends identifier length (identifier.first.base :: number :: rest)
  rw [Fragmented.merge, Fragmented.readFragments_eq, Fragmented.endAt_fragment hends hfragments
    (base_ne_of_isFragmentable htag.2) (by simp), ok_bind]
  dsimp only
  rw [readFragment_number 0 _ hfragments (number_lt hnumber) (by omega) (by omega)]
  rfl

def dated : Identifier :=
  ⟨0x3F, [0x1F], by decide, fun _ => .last 0x1F rfl, fun h => absurd h (by decide), by decide⟩

theorem dated_not_merged :
    dated.first.isConstructed = true ∧ dated.first.isFragmentable = true ∧
      Fragment.Valid (isBits dated) [⟨[0x01], [0xAA]⟩] ∧
      convert (whole dated none (dated.first.base :: (dated.number ++ [0x01, 0xAA]))) =
        .error (.refused (.truncatedInput (.pastParent 3 31))) ∧
      convert (whole dated none (dated.first.base :: (dated.number ++ [0x01, 0xAA]))) ≠
        .ok (shortest (dated.first.base :: dated.number)
          (Fragment.merged (isBits dated) [⟨[0x01], [0xAA]⟩])) := by
  have hrefused : convert (whole dated none (dated.first.base :: (dated.number ++ [0x01, 0xAA]))) =
      .error (.refused (.truncatedInput (.pastParent 3 31))) :=
    convert_number ⟨by decide, by decide⟩ rfl nofun (by decide)
  refine ⟨by decide, by decide, ⟨.short 0x01 (by decide), nofun, trivial⟩, hrefused, ?_⟩
  rw [hrefused]
  exact nofun

end DerTemplate.Canonical

import DerTemplate.Proofs.Canonical.Copying
import DerTemplate.Proofs.Canonical.Lookup
import DerTemplate.Proofs.Canonical.Parsing
import DerTemplate.Proofs.Canonical.Reading

namespace DerTemplate.Canonical

open Header (Identifier IsLength)

variable {input : Bytes} {idx : Nat} {sink : Sink} {ledger : Ledger}
variable {identifier : Identifier} {length : Option Bytes}

def Ledger.Covers (ledger : Ledger) (tree : Ber) (idx depth : Nat) : Prop :=
  ∀ start, idx ≤ start → start < idx + tree.octets.length → ∀ record,
    ledger.find? start = some record ↔ record ∈ tree.records idx depth ∧ record.start = start

namespace Ber

variable {first tree inner : Ber} {behind : Ber} {depth : Nat}

theorem Joins.covers_first (hjoin : Joins first behind tree) (h : ledger.Covers tree idx depth) :
    ledger.Covers first idx depth := by
  intro start hlo hhi record
  have hlength := congrArg List.length hjoin.octets
  rw [List.length_append] at hlength
  rw [h start hlo (by omega), hjoin.records, List.mem_append, or_and_right]
  refine or_iff_left fun hbehind => ?_
  have := start_of_mem_records hbehind.1
  omega

theorem Joins.covers_next (hjoin : Joins first behind tree) (h : ledger.Covers tree idx depth) :
    ledger.Covers behind (idx + first.octets.length) depth := by
  intro start hlo hhi record
  have hlength := congrArg List.length hjoin.octets
  rw [List.length_append] at hlength
  rw [h start (by omega) (by omega), hjoin.records, List.mem_append, or_and_right]
  refine or_iff_right fun hfirst => ?_
  have := start_of_mem_records hfirst.1
  omega

theorem covers_inner (h : ledger.Covers (nested identifier length inner nil) idx depth) :
    ledger.Covers inner (idx + (header identifier length).length) (depth + 1) := by
  intro start hlo hhi record
  have hpos := length_header_pos identifier length
  have hwhole := length_whole identifier length inner.octets
  rw [h start (by omega) (by rw [octets, List.length_append]; omega), records, List.mem_append,
    or_and_right]
  refine or_iff_left fun hown => ?_
  obtain ⟨hmem, hstart⟩ := hown
  rw [records, List.append_nil] at hmem
  split at hmem
  · cases hmem
  · rw [List.mem_singleton.mp hmem] at hstart
    dsimp only at hstart
    omega

def Copied (input : Bytes) (ledger : Ledger) (tree : Ber) : Prop :=
  ∀ idx depth sink, tree.Valid → input.Holds idx tree.octets → ledger.Covers tree idx depth →
    Sink.Fits sink tree.der.length →
      copyFrom input ledger idx sink =
        copyFrom input ledger (idx + tree.octets.length) (sink.append tree.der)

theorem Joins.copied (hjoin : Joins first behind tree) (hfirst : Copied input ledger first)
    (hnext : Copied input ledger behind) : Copied input ledger tree := by
  intro idx depth sink hvalid hinput hcovers hfits
  obtain ⟨hvalidFirst, hvalidNext⟩ := hjoin.valid.mp hvalid
  rw [hjoin.octets] at hinput ⊢
  rw [hjoin.der] at hfits ⊢
  obtain ⟨hinputFirst, hinputNext⟩ := Bytes.holds_append_iff.mp hinput
  obtain ⟨hfitsFirst, hfitsNext⟩ := hfits.split
  rw [hfirst idx depth sink hvalidFirst hinputFirst (hjoin.covers_first hcovers) hfitsFirst,
    hnext _ depth _ hvalidNext hinputNext (hjoin.covers_next hcovers) hfitsNext,
    Sink.append_append hfitsFirst, List.length_append, Nat.add_assoc]

theorem copied_primitive (hsmall : input.length < wordLimit) (identifier : Identifier)
    (octets content : Bytes) : Copied input ledger (primitive identifier octets content nil) := by
  intro idx depth sink hvalid hinput hcovers hfits
  obtain ⟨hconstructed, hlength, _⟩ := hvalid
  rw [octets_primitive] at hinput ⊢
  rw [der_primitive] at hfits ⊢
  exact copyFrom_item (copyItem_primitive hsmall hconstructed hlength hinput hfits)

theorem copied_nested (hsmall : input.length < wordLimit) (identifier : Identifier)
    (length : Option Bytes) (hinner : Copied input ledger inner) :
    Copied input ledger (nested identifier length inner nil) := by
  intro idx depth sink hvalid hinput hcovers hfits
  have hsame := der_of_canonical hvalid
  have hinnerCovers := covers_inner hcovers
  have hwhole := length_whole identifier length inner.octets
  obtain ⟨⟨hconstructed, hfragmentable⟩, hlength, hinnerValid, _⟩ := hvalid
  have hpos := length_header_pos identifier length
  have hfind := hcovers idx (Nat.le_refl idx) (by
    rw [octets, List.length_append]
    omega)
  rw [octets_nested] at hinput ⊢ hsame
  rw [der_nested] at hfits ⊢ hsame
  rw [canonical, canonical, Bool.and_true] at hsame
  cases hkept : kept length inner.canonical inner.der.length with
  | true =>
    obtain ⟨_, octets, rfl, _⟩ := kept_eq_true hkept
    rw [hsame hkept] at hfits ⊢
    refine copyFrom_item (copyItem_kept hsmall hconstructed (hlength octets rfl) ?_ hinput hfits)
    refine Option.eq_none_iff_forall_ne_some.mpr fun record hrecord => ?_
    obtain ⟨hmem, hstart⟩ := (hfind record).mp hrecord
    rw [records, records, hkept, if_pos rfl, List.append_nil, List.append_nil] at hmem
    have := start_of_mem_records hmem
    omega
  | false =>
    have hrecord := (hfind ⟨idx, identifier.octets.length, depth, inner.der.length, 0⟩).mpr
      ⟨by rw [records, hkept, records]; simp, rfl⟩
    obtain ⟨hheader, hcontent⟩ := Bytes.holds_append_iff.mp hinput
    obtain ⟨hinnerInput, hclosing⟩ := Bytes.holds_append_iff.mp hcontent
    rw [shortest, ← List.append_assoc] at hfits ⊢
    obtain ⟨hfitsHeader, hfitsInner⟩ := hfits.split
    rw [copyFrom_item (copyItem_rewritten hconstructed hfragmentable hlength hrecord hheader
        hfitsHeader), hinner _ _ _ hinnerValid hinnerInput hinnerCovers hfitsInner,
      copyFrom_closing hclosing, Sink.append_append hfitsHeader, hwhole, Nat.add_assoc,
      Nat.add_assoc, Nat.add_assoc]

theorem copied_string (hsmall : input.length < wordLimit) (identifier : Identifier)
    (length : Option Bytes) (fragments : List Fragment) :
    Copied input ledger (string identifier length fragments nil) := by
  intro idx depth sink hvalid hinput hcovers hfits
  obtain ⟨⟨hconstructed, hfragmentable⟩, hlength, hfragments, _⟩ := hvalid
  have hpos := length_header_pos identifier length
  have hwhole := length_whole identifier length (Fragment.join identifier.first.base fragments)
  have hrecord := (hcovers idx (Nat.le_refl idx) (by
    rw [octets, List.length_append]
    omega) _).mpr ⟨List.mem_cons_self, rfl⟩
  rw [octets_string] at hinput ⊢
  rw [der_string] at hfits ⊢
  exact copyFrom_item (copyItem_string hsmall hconstructed hfragmentable hlength hfragments hrecord
    rfl rfl hinput hfits)

theorem copied (hsmall : input.length < wordLimit) (ledger : Ledger) (tree : Ber) :
    Copied input ledger tree := by
  induction tree with
  | nil =>
    intro idx depth sink _ _ _ _
    rw [der, Sink.append_nil]
    rfl
  | primitive identifier length content next ih =>
    exact (joins_primitive _ _ _ _).copied (copied_primitive hsmall _ _ _) ih
  | nested identifier length inner next ihInner ihNext =>
    exact (joins_nested _ _ _ _).copied (copied_nested hsmall _ _ ihInner) ihNext
  | string identifier length fragments next ih =>
    exact (joins_string _ _ _ _).copied (copied_string hsmall _ _ _) ih

structure Limited (tree : Ber) : Prop where
  nesting : tree.nesting ≤ nestingLimit
  indefinite : tree.indefiniteNesting ≤ indefiniteLimit
  records : tree.rewritten ≤ recordLimit

end Ber

variable {tree : Ber}

def Ber.books (tree : Ber) : Ledger := (Ledger.mk (tree.records 0 0) [] 0).sorted

theorem covers_books (tree : Ber) : tree.books.Covers tree 0 0 := fun _ _ _ _ =>
  Ledger.find?_sorted (tree.nodup_records 0 0)

theorem admits_empty : Ledger.empty.Admits tree ↔ tree.Limited := by
  constructor
  · rintro ⟨hrecords, hnesting, hindefinite⟩
    simp only [Ledger.empty, List.length_nil, Nat.zero_add] at hrecords hnesting hindefinite
    exact ⟨hnesting, hindefinite, hrecords⟩
  · rintro ⟨hnesting, hindefinite, hrecords⟩
    constructor <;> simpa only [Ledger.empty, List.length_nil, Nat.zero_add]

theorem survey_octets_eq_ok_iff (hvalid : tree.Valid) (hsmall : tree.octets.length < lengthLimit) :
    survey tree.octets = .ok ledger ↔ tree.Limited ∧ ledger = tree.books := by
  have hbound : 0 + tree.octets.length ≤ Ledger.empty.bound tree.octets.length :=
    Nat.le_of_eq (Nat.zero_add _)
  have hlimit : 0 + tree.octets.length < lengthLimit := by rwa [Nat.zero_add]
  have habsorbed : Ledger.empty.absorbed tree 0 = ⟨tree.records 0 0, [], 0⟩ := rfl
  have hend : surveyFrom tree.octets (0 + tree.octets.length) ⟨tree.records 0 0, [], 0⟩ =
    .ok tree.books := surveyFrom_end rfl (Nat.le_of_eq (Nat.zero_add _).symm)
  rw [survey, surveyFrom_tree hvalid (Bytes.holds_self tree.octets) hbound, bind_eq_ok_iff]
  constructor
  · rintro ⟨booked, hbook, h⟩
    obtain ⟨hadmits, rfl⟩ := (Ledger.book_eq_ok_iff Ledger.sound_empty hvalid hlimit).mp hbook
    rw [habsorbed, hend] at h
    cases h
    exact ⟨admits_empty.mp hadmits, rfl⟩
  · rintro ⟨hlimited, rfl⟩
    exact ⟨_, (Ledger.book_eq_ok_iff Ledger.sound_empty hvalid hlimit).mpr
      ⟨admits_empty.mpr hlimited, rfl⟩, habsorbed ▸ hend⟩

theorem length_der_lt (hvalid : tree.Valid) (hsmall : tree.octets.length < lengthLimit)
    (hlimited : tree.Limited) : tree.der.length < wordLimit := by
  have hlimits : lengthLimit + 9 * recordLimit < wordLimit := by decide
  have hrecords := hlimited.records
  have := Ber.length_der_le hvalid (by omega)
  omega

theorem copyFrom_octets (hvalid : tree.Valid) (hsmall : tree.octets.length < lengthLimit)
    (hfits : sink.Fits tree.der.length) :
    copyFrom tree.octets tree.books 0 sink = .ok (sink.append tree.der) := by
  have hword := Nat.lt_trans hsmall (show lengthLimit < wordLimit by decide)
  rw [Ber.copied hword tree.books tree 0 0 sink hvalid (Bytes.holds_self _) (covers_books tree)
    hfits, copyFrom_eq, if_neg (by omega)]

theorem count_octets (hvalid : tree.Valid) (hsmall : tree.octets.length < lengthLimit)
    (hlimited : tree.Limited) : count tree.octets tree.books = .ok tree.der.length := by
  have hder := length_der_lt hvalid hsmall hlimited
  have hfits : Sink.counting.Fits tree.der.length := by
    refine ⟨?_, nofun⟩
    rwa [Sink.counting, Nat.zero_add]
  rw [count, copyFrom_octets hvalid hsmall hfits]
  exact congrArg Except.ok (Nat.zero_add _)

theorem size_octets (hvalid : tree.Valid) (hsmall : tree.octets.length < lengthLimit)
    (hlimited : tree.Limited) : size tree.octets = .ok tree.der.length := by
  rw [size, (survey_octets_eq_ok_iff hvalid hsmall).mpr ⟨hlimited, rfl⟩, ok_bind,
    count_octets hvalid hsmall hlimited]

theorem write_octets {buffer : Bytes} (hvalid : tree.Valid)
    (hsmall : tree.octets.length < lengthLimit) (hlimited : tree.Limited)
    (hroom : tree.der.length ≤ buffer.length) :
    write tree.octets buffer =
      .ok (tree.der.length, tree.der ++ buffer.drop tree.der.length) := by
  have hder := length_der_lt hvalid hsmall hlimited
  have hfits : (Sink.writing buffer).Fits tree.der.length := by
    refine ⟨by rwa [Sink.writing, Nat.zero_add], fun other hother => ?_⟩
    cases hother
    rwa [Sink.writing, Nat.zero_add]
  rw [write, (survey_octets_eq_ok_iff hvalid hsmall).mpr ⟨hlimited, rfl⟩, Outcome.leaving_ok,
    ok_bind, count_octets hvalid hsmall hlimited, Outcome.leaving_ok, ok_bind, if_neg (by omega),
    copyFrom_octets hvalid hsmall hfits]
  refine congrArg Except.ok (Prod.ext rfl ?_)
  simp [Sink.append, Sink.writing, Bytes.overlay]

-- The form is longer than the input by nine octets for every record at most (`Ber.length_der_le`), so
-- that a buffer for it is wanting only where the input is nearly as long as a buffer can be.
theorem convert_octets (hvalid : tree.Valid) (hsmall : tree.octets.length < lengthLimit)
    (hlimited : tree.Limited) :
    convert tree.octets = if tree.der.length < lengthLimit then .ok tree.der else fault := by
  rw [convert, size_octets hvalid hsmall hlimited, ok_bind, Bytes.zeros]
  split
  · have hroom : (List.replicate tree.der.length (0 : UInt8)).length = tree.der.length :=
      List.length_replicate
    rw [ok_bind, write_octets hvalid hsmall hlimited (Nat.le_of_eq hroom.symm),
      Attempt.outcome_ok, ok_bind]
    refine congrArg Except.ok ?_
    rw [List.drop_eq_nil_of_le (Nat.le_of_eq hroom), List.append_nil]
  · rfl

theorem tree_of_convert {output : Bytes} (hsmall : input.length < lengthLimit)
    (h : convert input = .ok output) :
    ∃ tree : Ber, tree.Valid ∧ tree.octets = input ∧ tree.Limited ∧
      output.length < lengthLimit ∧ output = tree.der := by
  obtain ⟨need, hsize, h'⟩ := bind_eq_ok_iff.mp h
  obtain ⟨ledger, hsurvey, _⟩ := bind_eq_ok_iff.mp hsize
  obtain ⟨tree, hvalid, rfl⟩ := tree_of_survey hsurvey
  obtain ⟨hlimited, _⟩ := (survey_octets_eq_ok_iff hvalid hsmall).mp hsurvey
  rw [convert_octets hvalid hsmall hlimited] at h
  split at h
  · rename_i hfits
    obtain rfl := Except.ok.inj h
    exact ⟨tree, hvalid, rfl, hlimited, hfits, rfl⟩
  · cases h

theorem convert_eq_ok_iff {output : Bytes} (hsmall : input.length < lengthLimit) :
    convert input = .ok output ↔
      ∃ tree : Ber, tree.Valid ∧ tree.octets = input ∧ tree.Limited ∧
        output.length < lengthLimit ∧ output = tree.der := by
  constructor
  · exact tree_of_convert hsmall
  · rintro ⟨tree, hvalid, rfl, hlimited, hfits, rfl⟩
    rw [convert_octets hvalid hsmall hlimited, if_pos hfits]

def envelope : Ber :=
  .nested (.single 0x30 (by decide) rfl) none
    (.string (.single 0x24 (by decide) rfl) none
      [⟨[0x01], [0xAA]⟩, ⟨[0x81, 0x02], [0xBB, 0xCC]⟩] .nil) .nil

theorem valid_envelope : envelope.Valid := by
  have hfirst : IsLength [0x01] 1 := .short 0x01 (by decide)
  have hsecond : IsLength [0x81, 0x02] 2 := .long 0x81 [0x02] rfl (by decide) (by decide) (by decide)
  exact ⟨by decide, nofun, ⟨by decide, nofun, ⟨hfirst, nofun, hsecond, nofun, trivial⟩, trivial⟩,
    trivial⟩

theorem convert_envelope :
    List.length ([0x30, 0x80, 0x24, 0x80, 0x04, 0x01, 0xAA, 0x04, 0x81, 0x02, 0xBB, 0xCC, 0x00,
      0x00, 0x00, 0x00] : Bytes) < lengthLimit ∧
    convert [0x30, 0x80, 0x24, 0x80, 0x04, 0x01, 0xAA, 0x04, 0x81, 0x02, 0xBB, 0xCC, 0x00, 0x00,
      0x00, 0x00] = .ok [0x30, 0x05, 0x04, 0x03, 0xAA, 0xBB, 0xCC] := by
  have hlimited : envelope.Limited := ⟨by decide, by decide, by decide⟩
  exact ⟨by decide, (convert_eq_ok_iff (by decide)).mpr
    ⟨envelope, valid_envelope, rfl, hlimited, by decide, rfl⟩⟩

end DerTemplate.Canonical

import DerTemplate.Proofs.Decoding.Simulation
import DerTemplate.Proofs.Decoding.Steps
import DerTemplate.Proofs.Schema.Roots

namespace DerTemplate

namespace Decoding

open Header (IsLength)

def Slot.stop (slot : Slot) : Nat := slot.contentOffset + slot.length

-- The octet of the content that stands in front of what is kept of it.
def Slot.dropped (slot : Slot) : Bytes :=
  if slot.tag = Tag.bitString then [slot.unusedBits]
  else if slot.zeroPadded then [0x00]
  else []

structure Delimits (input : Bytes) (slot : Slot) (octets : Bytes) : Prop where
  tag : input[slot.offset]? = some slot.tag
  header : input.Holds (slot.offset + 1) octets
  length : IsLength octets (slot.stop - (slot.offset + 1 + octets.length))
  dropped : input.Holds (slot.offset + 1 + octets.length) slot.dropped
  contentOffset : slot.contentOffset = slot.offset + 1 + octets.length + slot.dropped.length
  padded : slot.zeroPadded = true ↔ slot.tag.isInteger = true ∧
    slot.offset + 1 + octets.length + 1 < slot.stop ∧
      input[slot.offset + 1 + octets.length]? = some 0x00
  within : slot.stop ≤ input.length

def Slot.AbsentAt (pos : Nat) (slot : Slot) : Prop :=
  slot.present = false ∧ slot.offset = pos ∧ slot.length = 0

variable {options : Options} {input raw octets : Bytes} {entry : Entry} {destination : Destination}
variable {index stop pos reached : Nat} {tag : Tag} {lead : Lead} {value : Value}

theorem padded_of_isPadded {policy : IntegerPolicy} {padded : Bool}
    (h : Content.isPadded raw policy = .ok padded) :
    padded = true ↔ 1 < raw.length ∧ raw[0]? = some 0x00 := by
  rcases raw with _ | ⟨first, _ | ⟨second, rest⟩⟩
  · cases h
  · cases h
    simp
  · simp only [Content.isPadded, refuse] at h
    split at h
    · rename_i hfirst
      split at h
      · cases h
      · cases h
        simp [hfirst]
    · rename_i hfirst
      split at h
      · cases h
      · cases h
        simp [hfirst]

theorem unused_of_unusedBitCount {unused : UInt8} (h : Content.unusedBitCount raw = .ok unused) :
    raw.take 1 = [unused] := by
  rcases raw with _ | ⟨first, bits⟩
  · cases h
  · simp only [Content.unusedBitCount, refuse] at h
    split at h
    · cases h
    · split at h
      · split at h
        · rename_i hzero
          cases h
          rw [hzero]
          rfl
        · cases h
      · obtain ⟨mask, _, h⟩ := bind_eq_ok_iff.mp h
        split at h
        · cases h
          rfl
        · cases h

theorem dropped_holding {policy : IntegerPolicy} (h : Lead.ofContent policy tag raw = .ok lead)
    (destination : Destination) (value : Value) (start : Nat) (octets : Bytes) :
    (Slot.holding destination value (.holding tag start octets raw lead)).dropped =
        raw.take lead.size ∧
      ((lead == .zeroPad) = true ↔
        tag.isInteger = true ∧ 1 < raw.length ∧ raw[0]? = some 0x00) := by
  unfold Lead.ofContent at h
  simp only [Slot.dropped, Slot.holding, Item.holding]
  split at h
  · rename_i hconstructed
    cases h
    have htag : tag ≠ Tag.bitString := by
      rintro rfl
      cases hconstructed
    have hnumber : tag.isInteger ≠ true := by
      intro hnumber
      rcases Bool.or_eq_true_iff.mp hnumber with h | h <;> cases eq_of_beq h <;> cases hconstructed
    simp [htag, hnumber, Lead.size]
  · split at h
    · rename_i hinteger
      obtain ⟨padded, hpadded, h⟩ := bind_eq_ok_iff.mp h
      have hiff := padded_of_isPadded hpadded
      have htag : tag ≠ Tag.bitString := by
        rintro rfl
        cases hinteger
      cases padded with
      | false =>
        cases h
        simpa [htag, hinteger, Lead.size] using hiff
      | true =>
        cases h
        obtain ⟨hlong, hfirst⟩ := hiff.mp rfl
        refine ⟨?_, iff_of_true rfl ⟨hinteger, hlong, hfirst⟩⟩
        rcases raw with _ | ⟨first, rest⟩
        · cases hfirst
        · cases hfirst
          simp [htag, Lead.size]
    · rename_i hinteger
      split at h
      · rename_i htag
        obtain ⟨unused, hunused, h⟩ := bind_eq_ok_iff.mp h
        cases h
        refine ⟨?_, iff_of_false Bool.false_ne_true fun h => hinteger h.1⟩
        exact (if_pos htag).trans (unused_of_unusedBitCount hunused).symm
      · rename_i htag
        cases h
        simp [htag, Lead.size, hinteger]

theorem delimits_of_readItem {slot : Slot} {item : Item} (htag : input[pos]? = some tag)
    (h : readItem options entry destination input pos stop tag index = .ok (slot, item)) :
    (∃ octets, Delimits input slot octets) ∧ slot.present = true ∧ slot.offset = pos ∧
      slot.contentOffset = item.contentStart ∧ slot.stop = item.stop := by
  obtain ⟨octets, raw, lead, value, hlength, hholds, _, hlead, rfl, _, rfl⟩ :=
    readItem_eq_ok_iff.mp h
  have hsize := Lead.size_le_of_ofContent hlead
  obtain ⟨hdropped, hpadded⟩ := dropped_holding hlead destination value pos octets
  obtain ⟨hoctets, hraw⟩ := Bytes.holds_append_iff.mp hholds
  have hcut := hraw
  rw [← List.take_append_drop lead.size raw] at hcut
  have hfirst (hlong : 1 < raw.length) : input[pos + 1 + octets.length]? = raw[0]? := by
    cases raw with
    | nil => cases hlong
    | cons first rest => exact (Bytes.holds_cons_iff.mp hraw).1
  have hstop : (Slot.holding destination value (.holding tag pos octets raw lead)).stop =
      pos + 1 + octets.length + raw.length := by
    simp only [Slot.stop, Slot.holding, Item.holding, List.length_drop]
    omega
  refine ⟨⟨octets, htag, hoctets, ?_, ?_, ?_, ?_, ?_⟩, rfl, rfl, rfl, hstop⟩
  · rw [hstop]
    simpa [Slot.holding, Item.holding] using hlength
  · rw [hdropped]
    exact (Bytes.holds_append_iff.mp hcut).1
  · rw [hdropped, List.length_take, Nat.min_eq_left hsize]
    rfl
  · rw [hstop]
    refine hpadded.trans (and_congr_right fun _ => ?_)
    have hlong : pos + 1 + octets.length + 1 < pos + 1 + octets.length + raw.length ↔
        1 < raw.length := by omega
    constructor
    · rintro ⟨hraw, hzero⟩
      exact ⟨hlong.mpr hraw, (hfirst hraw).trans hzero⟩
    · rintro ⟨hraw, hzero⟩
      exact ⟨hlong.mp hraw, (hfirst (hlong.mp hraw)).symm.trans hzero⟩
  · rw [hstop]
    exact hraw.1

/-- `Arranged input forest stop more met pos reached`: the slots are those of a descent that begins
at `pos` and comes to `reached`. -/
inductive Arranged (input : Bytes) : Forest Slot → Nat → Bool → Option Nat → Nat → Nat → Prop where
  | nil {stop : Nat} {more : Bool} {met : Option Nat} {pos : Nat} :
    Arranged input .nil stop more met pos pos
  | absent {entry : Entry} {slot : Slot} {below next : Forest Slot} {stop : Nat} {more : Bool}
    {met : Option Nat} {pos reached : Nat}
    (hslot : slot.AbsentAt pos)
    (hbelow : below.All fun _ s => s.AbsentAt pos)
    (hrequired : entry.presence ≠ .required)
    (hrun : checkRun entry next.firstPresence (isTaken met entry) = .ok ())
    (hnext : Arranged input next stop more (if isTaken met entry then met else none) pos reached) :
    Arranged input (.node entry slot below next) stop more met pos reached
  | present {entry : Entry} {slot : Slot} {below next : Forest Slot} {stop : Nat} {more : Bool}
    {met : Option Nat} {pos inner last reached : Nat}
    (hpresent : slot.present = true)
    (hoffset : slot.offset = pos)
    (hdelimits : ∃ octets, Delimits input slot octets)
    (htaken : isTaken met entry = false)
    (hbelow : Arranged input below slot.stop (more || next.size != 0) none slot.contentOffset inner)
    (hleaf : entry.headerOnly = false → below = .nil ∧ last = slot.stop)
    (hheader : entry.headerOnly = true →
      last = inner ∧ ((more || next.size != 0) = true → inner = slot.stop))
    (hnext : Arranged input next stop more entry.choiceGroup last reached) :
    Arranged input (.node entry slot below next) stop more met pos reached

theorem isTaken_eq_true {met : Option Nat} :
    isTaken met entry = true ↔ ∃ group, met = some group ∧ entry.presence = .choice group := by
  simp only [isTaken, Bool.and_eq_true, beq_iff_eq, ← Entry.choiceGroup_eq_some]
  constructor
  · rintro ⟨hsome, rfl⟩
    obtain ⟨group, hgroup⟩ := Option.isSome_iff_exists.mp hsome
    exact ⟨group, hgroup, hgroup⟩
  · rintro ⟨group, rfl, hgroup⟩
    exact ⟨rfl, hgroup.symm⟩

theorem not_required_of_seek {met : Option Nat}
    (h : seek entry destination input index stop (isTaken met entry) pos = .ok none) :
    entry.presence ≠ .required := by
  intro hrequired
  have hfree : isTaken met entry ≠ true := by
    rw [ne_eq, isTaken_eq_true]
    rintro ⟨group, _, hgroup⟩
    rw [hrequired] at hgroup
    cases hgroup
  unfold seek at h
  split at h
  · rw [if_pos hrequired] at h
    cases h
  · rw [if_neg hfree] at h
    split at h
    · cases h
    · split at h
      · cases h
      · cases h

theorem absentAt_markAbsent (slot : Slot) (pos : Nat) : (slot.markAbsent pos).AbsentAt pos :=
  ⟨rfl, rfl, rfl⟩

theorem arranged_of_descends {forest : Forest Slot} {more : Bool} {met : Option Nat}
    {slots : List Slot} {depth : Nat} (hnested : forest.Nested depth)
    (h : Descends options input forest index stop more met pos slots reached) :
    ∃ filled : Forest Slot, filled.schema = forest.schema ∧ filled.slots = slots ∧
      filled.Nested depth ∧ Arranged input filled stop more met pos reached := by
  induction h generalizing depth with
  | nil => exact ⟨.nil, rfl, rfl, trivial, .nil⟩
  | @passed entry slot below next _ _ _ _ pos _ _ hseek hrun hnext ih =>
    obtain ⟨hdepth, hleaf, hbelow, hsiblings⟩ := hnested
    obtain ⟨filled, hschema, rfl, hfilled, harranged⟩ := ih hsiblings
    refine ⟨.node entry (slot.markAbsent pos) (below.map fun s => s.markAbsent pos) filled,
      ?_, ?_, ⟨hdepth, ?_, Forest.nested_map _ hbelow, hfilled⟩, ?_⟩
    · simp [Forest.schema, hschema]
    · simp [Forest.slots, Forest.slots_map]
    · intro hheader
      rw [hleaf hheader]
      rfl
    · refine .absent (absentAt_markAbsent slot pos)
        (Forest.all_map (fun _ s => absentAt_markAbsent s pos) below)
        (not_required_of_seek hseek) ?_ harranged
      rw [Forest.firstPresence_eq, hschema, ← Forest.firstPresence_eq]
      exact hrun
  | @leaf entry slot below next _ _ _ _ pos _ _ tag read item hseek hread hheader hnext ih =>
    obtain ⟨hdepth, hleaf, hbelow, hsiblings⟩ := hnested
    obtain ⟨filled, hschema, rfl, hfilled, harranged⟩ := ih hsiblings
    obtain ⟨hpeek, htaken, _⟩ := seek_eq_some hseek
    obtain ⟨hdelimits, hpresent, hoffset, hcontent, hstop⟩ :=
      delimits_of_readItem (peekAt_eq_some_iff.mp hpeek).2 hread
    have hnil := hleaf hheader
    subst hnil
    refine ⟨.node entry read .nil filled, ?_, rfl, ⟨hdepth, fun _ => rfl, trivial, hfilled⟩, ?_⟩
    · simp [Forest.schema, hschema]
    · refine .present hpresent hoffset hdelimits htaken .nil (fun _ => ⟨rfl, rfl⟩) ?_
        (hstop ▸ harranged)
      intro h
      rw [hheader] at h
      cases h
  | @header entry slot below next _ _ _ _ pos _ _ _ _ tag read item hseek hread hheader hinner hend
      hnext ihInner ihNext =>
    obtain ⟨hdepth, _, hbelow, hsiblings⟩ := hnested
    obtain ⟨inside, hinsideSchema, rfl, hinside, hinsideArranged⟩ := ihInner hbelow
    obtain ⟨filled, hschema, rfl, hfilled, harranged⟩ := ihNext hsiblings
    obtain ⟨hpeek, htaken, _⟩ := seek_eq_some hseek
    obtain ⟨hdelimits, hpresent, hoffset, hcontent, hstop⟩ :=
      delimits_of_readItem (peekAt_eq_some_iff.mp hpeek).2 hread
    have hsize : filled.size = next.size := by
      rw [← Forest.length_schema, hschema, Forest.length_schema]
    rw [← hsize, ← hcontent, ← hstop] at hinsideArranged
    rw [← hsize, ← hstop] at hend
    refine ⟨.node entry read inside filled, ?_, rfl, ⟨hdepth, ?_, hinside, hfilled⟩, ?_⟩
    · simp [Forest.schema, hschema, hinsideSchema]
    · intro h
      rw [hheader] at h
      cases h
    · refine .present hpresent hoffset hdelimits htaken hinsideArranged ?_
        (fun _ => ⟨rfl, checkEnd_eq_ok_iff.mp hend⟩) harranged
      intro h
      rw [hheader] at h
      cases h

theorem arranged_of_decode {schema : Schema} {session found : Session} {complete : Bool}
    {maxIndex : Nat} (hinput : input.length < wordLimit)
    (h : session.decode options schema input complete maxIndex = .ok found) :
    ∃ filled : Forest Slot, Schema.Place.root.Holds schema found.slots filled ∧
      Arranged input filled (min maxIndex input.length) complete none session.cursor found.cursor ∧
      (complete = true → found.cursor = min maxIndex input.length) := by
  obtain ⟨hcheck, hdescend, hend⟩ := (decode_eq_ok_iff hinput).mp h
  obtain ⟨hvalid, hlength⟩ := check_eq_ok hcheck
  have hnested := Schema.nested_plant hvalid (session.slots.map Slot.clear)
  obtain ⟨filled, hschema, hslots, hfilled, harranged⟩ :=
    arranged_of_descends hnested (descends_of_descend hdescend)
  rw [Forest.schema_plant (by simpa using hlength)] at hschema
  refine ⟨filled, ⟨hfilled, ?_, rfl, rfl, ?_, ?_⟩, harranged, checkEnd_eq_ok_iff.mp hend⟩
  · simp [Schema.Place.root]
  · simp [Schema.Place.root, hschema]
  · simp [Schema.Place.root, hslots]

end Decoding

end DerTemplate

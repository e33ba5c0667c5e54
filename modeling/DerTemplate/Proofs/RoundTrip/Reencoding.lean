import DerTemplate.Proofs.Bytes.Edits
import DerTemplate.Proofs.Canonical.Relength
import DerTemplate.Proofs.Decoding.Simulation
import DerTemplate.Proofs.Decoding.Steps
import DerTemplate.Proofs.Encoding.Choices
import DerTemplate.Proofs.Encoding.Sizable
import DerTemplate.Proofs.RoundTrip.Restoring

namespace DerTemplate

open Header (IsLength lengthOctets)

namespace Decoding

def Slot.lengthStop (slot : Slot) : Nat := slot.contentOffset - slot.leadSize

def Slot.HasShortestLength (input : Bytes) (slot : Slot) : Prop :=
  input.between (slot.offset + 1) slot.lengthStop = lengthOctets (slot.leadSize + slot.length)

instance (input : Bytes) (slot : Slot) : Decidable (slot.HasShortestLength input) :=
  inferInstanceAs (Decidable (_ = _))

end Decoding

namespace Encoding

theorem Plain.nests {entry : Entry} {slot : Slot} (h : Plain entry slot) :
    slot.nests entry = entry.headerOnly := by
  cases hheader : entry.headerOnly with
  | true => rw [Slot.nests, hheader, h.header hheader]; rfl
  | false => rw [Slot.nests, hheader]; rfl

end Encoding

namespace Forest

open Encoding

variable {entry : Entry} {slot : Slot} {below : Forest Slot}

def reported (after start : Nat) (forest : Forest Slot) : List Slot :=
  ((forest.sized false after).marked start).slots

theorem reported_suppressed (entry : Entry) (hslot : slot.suppressed = true) (after start : Nat)
    (below next : Forest Slot) :
    ∃ inner, inner.length = below.size ∧
      (node entry slot below next).reported after start =
        slot.blank :: (inner ++ next.reported after start) := by
  refine ⟨(below.sized true (after + next.extent false)).slots, by simp, ?_⟩
  rw [reported, sized_node_hidden (by rw [hslot, Bool.true_or]), marked,
    if_pos (show slot.blank.suppressed = true from hslot)]
  rfl

theorem reported_written (hslot : slot.suppressed = false) (hplain : Plain entry slot)
    (hleaf : entry.headerOnly = false → below = nil) (after start : Nat) (next : Forest Slot) :
    ∃ written first middle last,
      (node entry slot below next).reported after start =
        written :: (below.reported first middle ++ next.reported after last) ∧
      written.contentLength = (slot.raw entry below.encoding).length := by
  have hheld : slot.held entry below.stencil.length = below.encoding.length := by
    rw [length_encoding]
    apply Slot.held_eq
    rw [hplain.nests]
    intro hheader
    rw [hleaf hheader]
    rfl
  rw [reported, sized_node_shown (by rw [hslot]; rfl), marked,
    if_neg (show ¬(slot.placed entry below.stencil.length _).suppressed = true by simp [Slot.placed, hslot])]
  refine ⟨_, _, _, _, rfl, ?_⟩
  rw [← hplain.content, ← declared_content, ← hheld]
  rfl

theorem encode_eq {forest : Forest Slot} (hvalid : forest.schema.validate = .ok ())
    (hnested : forest.Nested 0) (hone : forest.OneOfRun none) (hwritable : forest.Writable)
    (hkept : forest.Shown HeaderKept) (hlimit : forest.encoding.length < lengthLimit) :
    encode forest.schema forest.slots =
      .ok ⟨forest.reported 0 0, forest.encoding, forest.encoding.length⟩ := by
  have hplant := plant_of_nested hnested
  have hlength : forest.slots.length = forest.schema.length := by
    rw [length_slots, length_schema]
  have hchoices := checkChoices_ok hvalid hlength (hplant.symm ▸ hone)
  rw [length_encoding] at hlimit ⊢
  have hsize := size_of_writable hvalid hlength hchoices (hplant.symm ▸ hwritable)
    (hplant.symm ▸ hkept) (hplant.symm ▸ lt_wordLimit hlimit)
  have hencode := encode_of_size hsize
  rw [hplant, if_pos hlimit] at hencode
  exact hencode

end Forest

namespace RoundTrip

open Encoding (Plain isBits)
open Decoding (Descends Lead Session isTaken)

def lengthEdit (found : Decoding.Slot) (written : Encoding.Slot) : Option Edit :=
  if found.present then
    some ⟨found.offset + 1, found.lengthStop, lengthOctets written.contentLength⟩
  else none

def lengthEdits (found : List Decoding.Slot) (written : List Encoding.Slot) : List Edit :=
  (found.zip written).filterMap fun pair => lengthEdit pair.1 pair.2

variable {input : Bytes} {pos reached : Nat} {found inner rest : List Decoding.Slot}
variable {met : Option Nat}

theorem lengthEdits_append {writtenInner writtenRest : List Encoding.Slot}
    (h : inner.length = writtenInner.length) :
    lengthEdits (inner ++ rest) (writtenInner ++ writtenRest) =
      lengthEdits inner writtenInner ++ lengthEdits rest writtenRest := by
  rw [lengthEdits, List.zip_append h, List.filterMap_append]
  rfl

theorem lengthEdits_absent (h : ∀ slot ∈ found, slot.present = false)
    (written : List Encoding.Slot) : lengthEdits found written = [] := by
  rw [lengthEdits, List.filterMap_eq_nil_iff]
  intro pair hpair
  rw [lengthEdit, h pair.1 (List.of_mem_zip hpair).1, if_neg Bool.false_ne_true]

/-- What was found from `pos` to `reached` is written by `back` as it stands there, up to length
octets. -/
structure Restores (input : Bytes) (pos reached : Nat) (found : List Decoding.Slot)
    (met : Option Nat) (back : Forest Encoding.Slot) : Prop where
  length : found.length = back.size
  slots : back.slots = List.zipWith regiven back.schema found
  writable : back.Writable
  kept : back.Shown Encoding.HeaderKept
  members : back.OneOfRun met
  room : pos + back.encoding.length ≤ reached
  inOrder : ∀ after start, InOrder pos reached (lengthEdits found (back.reported after start))
  edited : ∀ after start,
    input.edited pos reached (lengthEdits found (back.reported after start)) = back.encoding
  exact : (∀ slot ∈ found, slot.present = true → slot.HasShortestLength input) →
    back.encoding = input.between pos reached

theorem restores_nil (input : Bytes) (pos : Nat) (met : Option Nat) :
    Restores input pos pos [] met .nil where
  length := rfl
  slots := rfl
  writable := trivial
  kept := trivial
  members := trivial
  room := Nat.le_refl _
  inOrder _ _ := Nat.le_refl _
  edited _ _ := Bytes.between_self input pos
  exact _ := (Bytes.between_self input pos).symm

variable {entry : Entry} {next : Forest Encoding.Slot}

theorem restores_passed {slot : Decoding.Slot} {below : Forest Decoding.Slot}
    (hnext : Restores input pos reached found (if isTaken met entry then met else none) next) :
    Restores input pos reached
      (slot.markAbsent pos :: (below.slots.map (fun s => s.markAbsent pos) ++ found)) met
      (.node entry (regiven entry (slot.markAbsent pos))
        (below.mapEntries fun entry slot => regiven entry (slot.markAbsent pos)) next) := by
  have hslot : (regiven entry (slot.markAbsent pos)).suppressed = true := rfl
  have hedits (after start : Nat) :
      lengthEdits (slot.markAbsent pos :: (below.slots.map (fun s => s.markAbsent pos) ++ found))
          ((Forest.node entry (regiven entry (slot.markAbsent pos))
            (below.mapEntries fun entry slot => regiven entry (slot.markAbsent pos)) next).reported
              after start) =
        lengthEdits found (next.reported after start) := by
    obtain ⟨inner, hinner, hreported⟩ := Forest.reported_suppressed entry hslot after start
      (below.mapEntries fun entry slot => regiven entry (slot.markAbsent pos)) next
    rw [Forest.size_mapEntries] at hinner
    rw [hreported, ← List.cons_append, ← List.cons_append, lengthEdits_append (by simp [hinner]),
      lengthEdits_absent, List.nil_append]
    simp [Decoding.Slot.markAbsent]
  refine ⟨?_, ?_, ⟨fun h => ?_, hnext.writable⟩, ⟨fun h => ?_, hnext.kept⟩, ?_, ?_, ?_, ?_, ?_⟩
  · simp only [List.length_cons, List.length_append, List.length_map, Forest.length_slots,
      hnext.length, Forest.size, Forest.size_mapEntries]
    omega
  · rw [Forest.slots, Forest.schema, Forest.slots_mapEntries, Forest.schema_mapEntries,
      List.zipWith_cons_cons, List.zipWith_append (by simp), List.zipWith_map_right, hnext.slots]
  · rw [hslot] at h
    cases h
  · rw [hslot] at h
    cases h
  · rw [Forest.OneOfRun, hslot]
    exact hnext.members
  · rw [Forest.encoding_suppressed hslot]
    exact hnext.room
  · intro after start
    rw [hedits]
    exact hnext.inOrder after start
  · intro after start
    rw [hedits, Forest.encoding_suppressed hslot]
    exact hnext.edited after start
  · intro hshortest
    rw [Forest.encoding_suppressed hslot]
    apply hnext.exact
    intro s hs
    exact hshortest s (List.mem_cons_of_mem _ (List.mem_append_right _ hs))

structure Found (input : Bytes) (pos : Nat) (entry : Entry) (octets front behind : Bytes)
    (first : Decoding.Slot) : Prop where
  holds : input.Holds pos (entry.wireTag :: (octets ++ (front ++ behind)))
  isLength : IsLength octets (front ++ behind).length
  present : first.present = true
  offset : first.offset = pos
  lengthStop : first.lengthStop = pos + 1 + octets.length
  declared : first.leadSize + first.length = (front ++ behind).length
  writes : Writes entry (regiven entry first) front

section Found

variable {octets front behind : Bytes} {first : Decoding.Slot} {below : Forest Encoding.Slot}
variable (h : Found input pos entry octets front behind first)
include h

theorem Found.suppressed : (regiven entry first).suppressed = false := by
  rw [regiven, h.present]
  rfl

theorem Found.holds_octets : input.Holds (pos + 1) octets :=
  (Bytes.holds_append_iff.mp (Bytes.holds_cons_iff.mp h.holds).2).1

theorem Found.holds_front : input.Holds (pos + 1 + octets.length) front :=
  (Bytes.holds_append_iff.mp
    (Bytes.holds_append_iff.mp (Bytes.holds_cons_iff.mp h.holds).2).2).1

theorem Found.holds_behind : input.Holds (pos + 1 + octets.length + front.length) behind :=
  (Bytes.holds_append_iff.mp
    (Bytes.holds_append_iff.mp (Bytes.holds_cons_iff.mp h.holds).2).2).2

theorem Found.encoding_eq (hleaf : entry.headerOnly = false → below = .nil)
    (next : Forest Encoding.Slot) :
    (Forest.node entry (regiven entry first) below next).encoding =
      entry.wireTag :: (lengthOctets (front ++ below.encoding).length ++
        (front ++ (below.encoding ++ next.encoding))) := by
  rw [Forest.encoding_written h.suppressed h.writes.plain hleaf, Encoding.Slot.raw, h.writes.front]
  simp only [List.cons_append, List.append_assoc]

theorem Found.lengthEdits_eq (hleaf : entry.headerOnly = false → below = .nil)
    (hinner : inner.length = below.size) (after start : Nat) :
    ∃ behindBelow middle last,
      lengthEdits (first :: (inner ++ rest))
          ((Forest.node entry (regiven entry first) below next).reported after start) =
        ⟨pos + 1, pos + 1 + octets.length, lengthOctets (front ++ below.encoding).length⟩ ::
          (lengthEdits inner (below.reported behindBelow middle) ++
            lengthEdits rest (next.reported after last)) := by
  obtain ⟨written, behindBelow, middle, last, hreported, hcontent⟩ :=
    Forest.reported_written h.suppressed h.writes.plain hleaf after start next
  rw [Encoding.Slot.raw, h.writes.front] at hcontent
  refine ⟨behindBelow, middle, last, ?_⟩
  rw [hreported, ← lengthEdits_append (by simp [hinner, Forest.reported]), lengthEdits,
    List.zip_cons_cons, List.filterMap_cons_some]
  · rfl
  · rw [lengthEdit, h.present, if_pos rfl, h.offset, h.lengthStop, hcontent]

variable (hinner : Restores input (pos + 1 + octets.length + front.length)
    (pos + 1 + octets.length + front.length + behind.length) inner none below)
  (hnext : Restores input (pos + 1 + octets.length + front.length + behind.length) reached rest
    entry.choiceGroup next)
  (hleaf : entry.headerOnly = false → below = .nil)
include hinner hnext hleaf

theorem Found.room :
    pos + (Forest.node entry (regiven entry first) below next).encoding.length ≤ reached := by
  have hbelow := hinner.room
  have hlast := hnext.room
  have hsize := Header.lengthSize_le h.isLength
  have hmono := Header.lengthSize_mono
    (show (front ++ below.encoding).length ≤ (front ++ behind).length by
      rw [List.length_append, List.length_append]
      omega)
  rw [h.encoding_eq hleaf]
  simp only [List.length_cons, List.length_append, Header.length_lengthOctets] at hsize hmono ⊢
  omega

theorem Found.inOrder (after start : Nat) :
    InOrder pos reached (lengthEdits (first :: (inner ++ rest))
      ((Forest.node entry (regiven entry first) below next).reported after start)) := by
  obtain ⟨behindBelow, middle, last, hedits⟩ := h.lengthEdits_eq hleaf hinner.length after start
  rw [hedits]
  have hfront := (hinner.inOrder behindBelow middle).widen (Nat.le_add_right _ front.length)
  exact ⟨Nat.le_add_right _ _, Nat.le_add_right _ _, hfront.append (hnext.inOrder after last)⟩

theorem Found.edited (after start : Nat) :
    input.edited pos reached (lengthEdits (first :: (inner ++ rest))
        ((Forest.node entry (regiven entry first) below next).reported after start)) =
      (Forest.node entry (regiven entry first) below next).encoding := by
  obtain ⟨behindBelow, middle, last, hedits⟩ := h.lengthEdits_eq hleaf hinner.length after start
  have hbelow := hinner.inOrder behindBelow middle
  have hlast := hnext.inOrder after last
  have htag : input.between pos (pos + 1) = [entry.wireTag] :=
    (Bytes.holds_append_iff.mp (List.singleton_append ▸ h.holds)).1.between
  rw [hedits, Bytes.edited, htag, Bytes.edited_from (hbelow.append hlast) (Nat.le_add_right _ _),
    h.holds_front.between, Bytes.edited_append hbelow hlast, hinner.edited, hnext.edited,
    h.encoding_eq hleaf]
  rfl

theorem Found.exact (hshortest : ∀ slot ∈ first :: (inner ++ rest), slot.present = true →
      slot.HasShortestLength input) :
    (Forest.node entry (regiven entry first) below next).encoding = input.between pos reached := by
  have hbelow : below.encoding = behind := by
    rw [hinner.exact fun slot hslot =>
      hshortest slot (List.mem_cons_of_mem _ (List.mem_append_left _ hslot))]
    exact h.holds_behind.between
  have hlast : next.encoding = _ := hnext.exact fun slot hslot =>
    hshortest slot (List.mem_cons_of_mem _ (List.mem_append_right _ hslot))
  have hlength := hshortest first List.mem_cons_self h.present
  rw [Decoding.Slot.HasShortestLength, h.offset, h.lengthStop, h.declared,
    h.holds_octets.between] at hlength
  have hitem : input.between pos (pos + 1 + octets.length + front.length + behind.length) =
      entry.wireTag :: (octets ++ (front ++ behind)) := by
    rw [← h.holds.between, List.length_cons, List.length_append, List.length_append]
    congr 1
    omega
  have hsplit : input.between pos _ ++ input.between _ reached = input.between pos reached :=
    Bytes.between_append
      (show pos ≤ pos + 1 + octets.length + front.length + behind.length by omega)
      (Nat.le_trans (Nat.le_add_right _ _) hnext.room)
  rw [h.encoding_eq hleaf, hbelow, ← hlength, hlast, ← hsplit, hitem]
  simp only [List.cons_append, List.append_assoc]

theorem Found.restores (htaken : isTaken met entry = false) :
    Restores input pos reached (first :: (inner ++ rest)) met
      (.node entry (regiven entry first) below next) := by
  have hplain := h.writes.plain
  refine ⟨?_, ?_, ⟨fun _ => ⟨h.writes.writable, fun hnests => ?_, hinner.writable⟩, hnext.writable⟩,
    ⟨fun _ => ⟨fun _ => hplain.ne_replace, hinner.kept⟩, hnext.kept⟩, ?_, h.room hinner hnext hleaf,
    h.inOrder hinner hnext hleaf, h.edited hinner hnext hleaf, h.exact hinner hnext hleaf⟩
  · simp only [List.length_cons, List.length_append, hinner.length, hnext.length, Forest.size]
    omega
  · rw [Forest.slots, Forest.schema, List.zipWith_cons_cons,
      List.zipWith_append (by rw [Forest.length_schema, hinner.length]), hinner.slots, hnext.slots]
  · rw [hplain.nests] at hnests
    rw [hleaf hnests]
    rfl
  · rw [Forest.OneOfRun, h.suppressed]
    exact ⟨htaken, hinner.members, hnext.members⟩

end Found

section Reading

open Decoding (Item Slot.holding readItem readItem_eq_ok_iff)

variable {policy : IntegerPolicy} {raw octets front behind : Bytes} {lead : Lead}
variable {value : Decoding.Value} {read : Decoding.Slot} {item : Decoding.Item}
variable {stop index : Nat}

theorem found_holding (htag : input[pos]? = some entry.wireTag) (hlength : IsLength octets raw.length)
    (hraw : input.Holds (pos + 1) (octets ++ raw))
    (hlead : Lead.ofContent policy entry.wireTag raw = .ok lead) (hsplit : raw = front ++ behind)
    (hwrites : Writes entry (regiven entry (.holding (destinationFor entry) value
      (.holding entry.wireTag pos octets raw lead))) front) :
    Found input pos entry octets front behind (.holding (destinationFor entry) value
      (.holding entry.wireTag pos octets raw lead)) := by
  have hsize := Decoding.leadSize_holding hlead (destinationFor entry) value pos octets
  have hle := Decoding.Lead.size_le_of_ofContent hlead
  refine ⟨Bytes.holds_cons_iff.mpr ⟨htag, hsplit ▸ hraw⟩, hsplit ▸ hlength, rfl, rfl, ?_, ?_, hwrites⟩
  · rw [Decoding.Slot.lengthStop, hsize]
    exact Nat.add_sub_cancel _ _
  · rw [hsize, ← hsplit]
    simp only [Slot.holding, Item.holding, List.length_drop]
    omega

variable (hentry : Restorable entry) (htag : input[pos]? = some entry.wireTag)
  (hread : readItem .strict entry (destinationFor entry) input pos stop entry.wireTag index =
    .ok (read, item))
include hentry htag hread

theorem found_leaf (hheader : entry.headerOnly = false) :
    ∃ octets raw, Found input pos entry octets raw [] read ∧
      item.stop = pos + 1 + octets.length + raw.length := by
  obtain ⟨octets, raw, lead, value, hlength, hraw, _, hlead, rfl, hvalue, rfl⟩ :=
    readItem_eq_ok_iff.mp hread
  have hlimit : raw.length < wordLimit := lt_wordLimit (Header.lt_of_isLength hlength)
  exact ⟨octets, raw, found_holding htag hlength hraw hlead (List.append_nil raw).symm
    (writes_leaf hentry hlead hvalue hheader hlimit), rfl⟩

theorem found_header (hheader : entry.headerOnly = true)
    (hwhole : isBits entry entry.tag = true → read.present = true → read.unusedBits = 0) :
    ∃ octets front behind, Found input pos entry octets front behind read ∧
      item.contentStart = pos + 1 + octets.length + front.length ∧
      item.stop = item.contentStart + behind.length := by
  obtain ⟨octets, raw, lead, value, hlength, hraw, _, hlead, rfl, hvalue, rfl⟩ :=
    readItem_eq_ok_iff.mp hread
  have hsize := Decoding.Lead.size_le_of_ofContent hlead
  refine ⟨octets, raw.take lead.size, raw.drop lead.size, found_holding htag hlength hraw hlead
    (List.take_append_drop _ _).symm (writes_header hentry hlead hheader fun hbits => hwhole hbits rfl), ?_, ?_⟩
  · rw [List.length_take, Nat.min_eq_left hsize]
    rfl
  · simp only [Item.holding, List.length_drop]
    omega

end Reading

def Asked (entry : Entry) (slot : Decoding.Slot) : Prop :=
  Restorable entry ∧ slot.destination = destinationFor entry

def Whole (entry : Entry) (found : Decoding.Slot) : Prop :=
  entry.headerOnly = true → isBits entry entry.tag = true → found.present = true →
    found.unusedBits = 0

theorem destinationFor_ne_choice (entry : Entry) (tags : List Tag) :
    destinationFor entry ≠ .choice tags := by
  unfold destinationFor
  split
  · nofun
  · split <;> nofun

theorem whole_node {slot : Decoding.Slot} {below next : Forest Decoding.Slot}
    {first : Decoding.Slot} (hinner : inner.length = below.size)
    (h : ∀ pair ∈ (Forest.node entry slot below next).schema.zip (first :: (inner ++ rest)),
      Whole pair.1 pair.2) :
    Whole entry first ∧ (∀ pair ∈ below.schema.zip inner, Whole pair.1 pair.2) ∧
      ∀ pair ∈ next.schema.zip rest, Whole pair.1 pair.2 := by
  rw [Forest.schema, List.zip_cons_cons, List.zip_append (by simp [hinner]), List.forall_mem_cons,
    List.forall_mem_append] at h
  exact h

theorem restores_of_descends {forest : Forest Decoding.Slot} {index stop depth : Nat} {more : Bool}
    (h : Descends .strict input forest index stop more met pos found reached) (hmore : more = true)
    (hnested : forest.Nested depth) (hasked : forest.All Asked)
    (hwhole : ∀ pair ∈ forest.schema.zip found, Whole pair.1 pair.2) :
    ∃ back : Forest Encoding.Slot, back.schema = forest.schema ∧ back.Nested depth ∧
      Restores input pos reached found met back := by
  -- on the descent: an item is written around what is written again of its content
  induction h generalizing depth with
  | nil => exact ⟨.nil, rfl, trivial, restores_nil input _ _⟩
  | passed hseek hrun hnext ih =>
    obtain ⟨hdepth, hleaf, hnestedBelow, hnestedNext⟩ := hnested
    obtain ⟨_, _, hwholeNext⟩ := whole_node (by simp) hwhole
    obtain ⟨back, hschema, hback, hrestores⟩ := ih hmore hnestedNext hasked.2.2 hwholeNext
    refine ⟨_, ?_, ?_, restores_passed hrestores⟩
    · rw [Forest.schema, Forest.schema, Forest.schema_mapEntries, hschema]
    · refine ⟨hdepth, fun hheader => ?_, Forest.nested_mapEntries _ hnestedBelow, hback⟩
      rw [hleaf hheader]
      rfl
  | leaf hseek hread hheader hnext ih =>
    -- nothing is nested in a leaf, so that its content is all in front
    obtain ⟨hdepth, hleaf, _, hnestedNext⟩ := hnested
    obtain ⟨⟨hentry, hdestination⟩, _, haskedNext⟩ := hasked
    obtain rfl := hleaf hheader
    obtain ⟨_, _, hwholeNext⟩ := whole_node (by simp) hwhole
    obtain ⟨back, hschema, hback, hrestores⟩ := ih hmore hnestedNext haskedNext hwholeNext
    rw [hdestination] at hseek hread
    obtain ⟨hpeek, htaken, _⟩ := Decoding.seek_eq_some hseek
    obtain rfl := Decoding.tag_of_seek (destinationFor_ne_choice _) hseek
    obtain ⟨octets, raw, hfound, hstop⟩ :=
      found_leaf hentry (Decoding.peekAt_eq_some_iff.mp hpeek).2 hread hheader
    rw [hstop] at hrestores
    refine ⟨_, ?_, ?_,
      hfound.restores (restores_nil input _ _) hrestores (fun _ => rfl) htaken⟩
    · rw [Forest.schema, Forest.schema, hschema]
      rfl
    · exact ⟨hdepth, fun _ => rfl, trivial, hback⟩
  | header hseek hread hheader hinner hend hnext ihInner ihNext =>
    obtain ⟨hdepth, _, hnestedBelow, hnestedNext⟩ := hnested
    obtain ⟨⟨hentry, hdestination⟩, haskedBelow, haskedNext⟩ := hasked
    obtain ⟨hwholeFirst, hwholeBelow, hwholeNext⟩ := whole_node hinner.length_eq hwhole
    obtain ⟨below, hschemaBelow, hbelow, hrestoresBelow⟩ :=
      ihInner (by rw [hmore]; rfl) hnestedBelow haskedBelow hwholeBelow
    obtain ⟨back, hschema, hback, hrestores⟩ := ihNext hmore hnestedNext haskedNext hwholeNext
    rw [hdestination] at hseek hread
    obtain ⟨hpeek, htaken, _⟩ := Decoding.seek_eq_some hseek
    obtain rfl := Decoding.tag_of_seek (destinationFor_ne_choice _) hseek
    obtain ⟨octets, front, behind, hfound, hstart, hstop⟩ := found_header hentry
      (Decoding.peekAt_eq_some_iff.mp hpeek).2 hread hheader (hwholeFirst hheader)
    obtain rfl := Decoding.checkEnd_eq_ok_iff.mp hend (by rw [hmore]; rfl)
    rw [hstop, hstart] at hrestoresBelow hrestores
    refine ⟨_, ?_, ?_, hfound.restores hrestoresBelow hrestores
      (fun hleaf => Bool.noConfusion (hheader.symm.trans hleaf)) htaken⟩
    · rw [Forest.schema, Forest.schema, hschemaBelow, hschema]
    · exact ⟨hdepth, fun hleaf => Bool.noConfusion (hheader.symm.trans hleaf), hbelow, hback⟩

theorem asked_plant {schema : Schema} {slots : List Decoding.Slot}
    (hlength : slots.length = schema.length) (hentries : ∀ entry ∈ schema, Restorable entry)
    (hslots : slots.map Decoding.Slot.destination = schema.map destinationFor) :
    (Forest.plant schema (slots.map Decoding.Slot.clear)).All Asked := by
  apply Forest.all_of_forall
  rw [Forest.schema_plant (by simpa using hlength), Forest.slots_plant (by simpa using hlength)]
  rintro ⟨entry, cleared⟩ hpair
  refine ⟨hentries entry (List.of_mem_zip hpair).1, ?_⟩
  obtain ⟨i, hi⟩ := List.mem_iff_getElem?.mp hpair
  obtain ⟨hentry, hcleared⟩ := List.getElem?_zip_eq_some.mp hi
  rw [List.getElem?_map, Option.map_eq_some_iff] at hcleared
  obtain ⟨slot, hslot, rfl⟩ := hcleared
  have hsame := congrArg (·[i]?) hslots
  simp only [List.getElem?_map, hslot, hentry, Option.map_some] at hsame
  exact Option.some.inj hsame

theorem encode_decode {schema : Schema} {session found : Session} {maxIndex : Nat}
    (hinput : input.length < lengthLimit) (hentries : ∀ entry ∈ schema, Restorable entry)
    (hslots : session.slots.map Decoding.Slot.destination = schema.map destinationFor)
    (hdecode : session.decode .strict schema input true maxIndex = .ok found)
    (hwhole : ∀ pair ∈ schema.zip found.slots, Whole pair.1 pair.2) :
    ∃ written,
      Encoding.encode schema (List.zipWith regiven schema found.slots) = .ok written ∧
      InOrder session.cursor (min maxIndex input.length)
        (lengthEdits found.slots written.slots) ∧
      written.output.buffer = input.edited session.cursor (min maxIndex input.length)
        (lengthEdits found.slots written.slots) ∧
      ((∀ slot ∈ found.slots, slot.present = true → slot.HasShortestLength input) →
        written.output.buffer = input.between session.cursor (min maxIndex input.length)) := by
  obtain ⟨hcheck, hdescend, hend⟩ :=
    (Decoding.decode_eq_ok_iff (lt_wordLimit hinput)).mp hdecode
  obtain ⟨hvalid, hlength⟩ := Decoding.check_eq_ok hcheck
  have hcursor : found.cursor = min maxIndex input.length :=
    Decoding.checkEnd_eq_ok_iff.mp hend rfl
  have hplanted : (Forest.plant schema (session.slots.map Decoding.Slot.clear)).schema = schema :=
    Forest.schema_plant (by simpa using hlength)
  rw [hcursor] at hdescend
  obtain ⟨back, hschema, hnested, hback⟩ := restores_of_descends
    (Decoding.descends_of_descend hdescend) rfl (Schema.nested_plant hvalid _)
    (asked_plant hlength hentries hslots) (hplanted.symm ▸ hwhole)
  rw [hplanted] at hschema
  have hroom := hback.room
  have hencode := Forest.encode_eq (hschema.symm ▸ hvalid) hnested hback.members hback.writable
    hback.kept (by omega)
  rw [hback.slots, hschema] at hencode
  exact ⟨_, hencode, hback.inOrder 0 0, (hback.edited 0 0).symm, hback.exact⟩

def noticeSchema : Schema :=
  [.sequence 0, .leaf 1 Tag.integer, (Entry.leaf 1 Tag.boolean).optional,
    (Entry.leaf 1 Tag.objectIdentifier).choice 1, (Entry.explicit 1 0).choice 1,
    .leaf 2 Tag.bitString]

def noticeSession (cursor : Nat) : Session :=
  ⟨cursor, noticeSchema.map fun entry => .ofDestination (destinationFor entry)⟩

def looseNotice : Bytes :=
  [0xFF, 0x30, 0x81, 0x0D, 0x02, 0x81, 0x02, 0xFF, 0x7F, 0xA0, 0x82, 0x00, 0x04, 0x03, 0x02, 0x03,
    0xA8, 0xEE]

def looseSlots : List Decoding.Slot :=
  [⟨.none, .nothing, true, 0x30, 1, 4, 13, 0, false⟩,
    ⟨.integer true, .integer (-129), true, 0x02, 4, 7, 2, 0, false⟩,
    ⟨.content, .bytes [], false, 0, 9, 9, 0, 0, false⟩,
    ⟨.content, .bytes [], false, 0, 9, 9, 0, 0, false⟩,
    ⟨.none, .nothing, true, 0xA0, 9, 13, 4, 0, false⟩,
    ⟨.content, .bytes [0xA8], true, 0x03, 13, 16, 1, 3, false⟩]

def tightNotice : Bytes :=
  [0x30, 0x0A, 0x02, 0x02, 0xFF, 0x7F, 0xA0, 0x04, 0x03, 0x02, 0x03, 0xA8]

def tightSlots : List Decoding.Slot :=
  [⟨.none, .nothing, true, 0x30, 0, 2, 10, 0, false⟩,
    ⟨.integer true, .integer (-129), true, 0x02, 2, 4, 2, 0, false⟩,
    ⟨.content, .bytes [], false, 0, 6, 6, 0, 0, false⟩,
    ⟨.content, .bytes [], false, 0, 6, 6, 0, 0, false⟩,
    ⟨.none, .nothing, true, 0xA0, 6, 8, 4, 0, false⟩,
    ⟨.content, .bytes [0xA8], true, 0x03, 8, 11, 1, 3, false⟩]

theorem restorable_notice : ∀ entry ∈ noticeSchema, Restorable entry := by
  simp only [noticeSchema, List.forall_mem_cons]
  exact ⟨⟨by decide, by decide⟩, ⟨by decide, by decide⟩, ⟨by decide, by decide⟩,
    ⟨by decide, by decide⟩, ⟨by decide, by decide⟩, ⟨by decide, by decide⟩, nofun⟩

theorem whole_notice (slots : List Decoding.Slot) :
    ∀ pair ∈ noticeSchema.zip slots, Whole pair.1 pair.2 := by
  have hbits : ∀ entry ∈ noticeSchema, entry.headerOnly = true →
      isBits entry entry.tag = false := by decide
  intro pair hpair hheader hholds
  rw [hbits pair.1 (List.of_mem_zip hpair).1 hheader] at hholds
  cases hholds

theorem decode_loose :
    (noticeSession 1).decode .strict noticeSchema looseNotice true 17 = .ok ⟨17, looseSlots⟩ :=
  (Decoding.decode_eq_ok_iff (by decide)).mpr ⟨rfl, by decide +kernel, rfl⟩

theorem decode_tight :
    (noticeSession 0).decode .strict noticeSchema tightNotice true 12 = .ok ⟨12, tightSlots⟩ :=
  (Decoding.decode_eq_ok_iff (by decide)).mpr ⟨rfl, by decide +kernel, rfl⟩

theorem encode_decode_notice :
    (noticeSession 1).decode .strict noticeSchema looseNotice true 17 = .ok ⟨17, looseSlots⟩ ∧
      (noticeSession 0).decode .strict noticeSchema tightNotice true 12 = .ok ⟨12, tightSlots⟩ ∧
      ∃ written,
        Encoding.encode noticeSchema (List.zipWith regiven noticeSchema looseSlots) = .ok written ∧
        written.output.buffer = tightNotice ∧
        written.output.buffer = looseNotice.edited 1 17 (lengthEdits looseSlots written.slots) := by
  have hasked (cursor : Nat) : (noticeSession cursor).slots.map Decoding.Slot.destination =
      noticeSchema.map destinationFor := rfl
  have hshortest : ∀ slot ∈ tightSlots, slot.present = true → slot.HasShortestLength tightNotice := by
    decide
  have hsame : List.zipWith regiven noticeSchema tightSlots =
      List.zipWith regiven noticeSchema looseSlots := rfl
  obtain ⟨written, hencode, _, hedited, _⟩ := encode_decode (by decide) restorable_notice (hasked 1)
    decode_loose (whole_notice looseSlots)
  obtain ⟨again, hagain, _, _, hexact⟩ := encode_decode (by decide) restorable_notice (hasked 0)
    decode_tight (whole_notice tightSlots)
  rw [hsame, hencode] at hagain
  cases hagain
  exact ⟨decode_loose, decode_tight, written, hencode, hexact hshortest, hedited⟩

end RoundTrip

end DerTemplate

import DerTemplate.Proofs.Canonical.FixedPoints
import DerTemplate.Proofs.Encoding.Items

namespace DerTemplate

namespace Encoding

/-- A written entry whose item the conversion takes as one item: a leaf is primitive, and what holds
other items is no string in fragments. -/
structure Regular (entry : Entry) (slot : Slot) : Prop where
  value : ∀ encoded, slot.value ≠ .replace encoded
  nests : entry.headerOnly = true → slot.value = .none
  first : slot.wireTag entry ≠ Tag.endOfContent
  number : (slot.wireTag entry).hasLongNumber = false
  leaf : entry.headerOnly = false → (slot.wireTag entry).isConstructed = false
  holder : entry.headerOnly = true → (slot.wireTag entry).isConstructed = true →
    (slot.wireTag entry).isFragmentable = false

theorem Regular.leadBytes {entry : Entry} {slot : Slot} (h : Regular entry slot)
    (hheader : entry.headerOnly = true) (hconstructed : (slot.wireTag entry).isConstructed = true) :
    slot.leadBytes entry = [] := by
  have hfragmentable := h.holder hheader hconstructed
  have hbits : slot.baseTag entry ≠ Tag.bitString := by
    intro hbase
    rw [Slot.baseTag] at hbase
    rw [Tag.isFragmentable, hbase] at hfragmentable
    exact absurd hfragmentable (by decide)
  rw [Slot.leadBytes, h.nests hheader]
  simp [Value.lead, wholeBits, isBits, hbits]

end Encoding

namespace Forest

open Encoding Canonical Header

theorem der_encoding {forest : Forest Slot} {depth limit : Nat} (hnested : forest.Nested depth)
    (hdepth : ∀ entry ∈ forest.schema, entry.depth < depthLimit)
    (hlimit : depthLimit ≤ depth + limit) (h : forest.Shown Regular) :
    Der limit forest.encoding := by
  induction forest generalizing depth limit with
  | nil => exact .nil
  | node entry slot below next ihBelow ihNext =>
    obtain ⟨rfl, hleaf, hnestedBelow, hnestedNext⟩ := hnested
    obtain ⟨hshown, hshownNext⟩ := h
    have hentry : entry.depth < depthLimit := hdepth entry List.mem_cons_self
    have hnext : Der limit next.encoding := by
      apply ihNext hnestedNext _ hlimit hshownNext
      intro e he
      exact hdepth e (List.mem_cons_of_mem _ (List.mem_append_right _ he))
    cases hslot : slot.suppressed with
    | true =>
      rw [encoding_suppressed hslot]
      exact hnext
    | false =>
      obtain ⟨hregular, hshownBelow⟩ := hshown hslot
      let identifier := Identifier.single (slot.wireTag entry) hregular.first hregular.number
      rw [encoding_shown hslot hregular.value hregular.nests hleaf]
      cases hconstructed : (slot.wireTag entry).isConstructed with
      | false => exact .primitive identifier _ hconstructed hnext
      | true =>
        have hheader : entry.headerOnly = true := by
          by_contra hno
          have hprimitive := hregular.leaf (Bool.eq_false_iff.mpr hno)
          rw [hconstructed] at hprimitive
          cases hprimitive
        obtain ⟨limit, rfl⟩ := Nat.exists_eq_add_of_lt (show 0 < limit by omega)
        have hbelow : Der limit below.encoding := by
          apply ihBelow hnestedBelow _ (by omega) hshownBelow
          intro e he
          exact hdepth e (List.mem_cons_of_mem _ (List.mem_append_left _ he))
        rw [content_nests (hregular.nests hheader), hregular.leadBytes hheader hconstructed]
        rw [Nat.zero_add] at hnext ⊢
        exact .nested identifier hconstructed (hregular.holder hheader hconstructed) hbelow hnext

end Forest

namespace Encoding

open Canonical

theorem convert_encode {schema : Schema} {slots : List Slot} {written : Written}
    (hencode : encode schema slots = .ok written)
    (hregular : ∀ i entry slot, schema[i]? = some entry → slots[i]? = some slot →
      excluded schema slots i = false → Regular entry slot) :
    convert written.output.buffer = .ok written.output.buffer := by
  obtain ⟨hvalid, hlength, _, hsmall, hbuffer⟩ := encode_eq_ok hencode
  have hshown := shown_of_excluded hvalid hlength hregular
  have hnested := Schema.nested_plant hvalid slots
  have hder : Der nestingLimit (Forest.plant schema slots).encoding := by
    apply Forest.der_encoding hnested _ (by decide) hshown
    intro entry hentry
    rw [Forest.schema_plant hlength] at hentry
    exact (Schema.bounded_of_validate hvalid entry hentry).1
  rw [hbuffer]
  exact convert_of_der hder hsmall

def retaggedSlots : List Slot :=
  [.ofValue .none, { Slot.ofValue (.replace [0x05, 0x00]) with suppressed := true },
    { Slot.ofValue .none with tag := some 0x80 }, .ofValue (.bits [0xA8] 3)]

theorem convert_encode_record :
    ∃ written, encode recordSchema retaggedSlots = .ok written ∧
      written.output.buffer = [0x30, 0x06, 0x80, 0x04, 0x03, 0x02, 0x03, 0xA8] ∧
      (∀ i entry slot, recordSchema[i]? = some entry → retaggedSlots[i]? = some slot →
        excluded recordSchema retaggedSlots i = false → Regular entry slot) ∧
      convert written.output.buffer = .ok written.output.buffer := by
  obtain ⟨sizing, hsize, htotal⟩ :
      ∃ sizing, size recordSchema retaggedSlots = .ok sizing ∧ sizing.total = 8 := ⟨_, rfl, rfl⟩
  have hencode := encode_of_size hsize
  rw [htotal, if_pos (by decide)] at hencode
  have hregular : ∀ i entry slot, recordSchema[i]? = some entry → retaggedSlots[i]? = some slot →
      excluded recordSchema retaggedSlots i = false → Regular entry slot := by
    intro i entry slot hentry hslot hshown
    match i with
    | 0 =>
      cases hentry
      cases hslot
      exact ⟨nofun, fun _ => rfl, by decide, by decide, by decide, by decide⟩
    | 1 => exact absurd hshown (by decide)
    | 2 =>
      cases hentry
      cases hslot
      exact ⟨nofun, fun _ => rfl, by decide, by decide, by decide, by decide⟩
    | 3 =>
      cases hentry
      cases hslot
      exact ⟨nofun, nofun, by decide, by decide, by decide, by decide⟩
    | _ + 4 => cases hentry
  exact ⟨_, hencode, by decide, hregular, convert_encode hencode hregular⟩

end Encoding

end DerTemplate

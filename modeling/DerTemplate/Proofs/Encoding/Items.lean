import DerTemplate.Proofs.Encoding.TwoPass

namespace DerTemplate

namespace Encoding

open Stencil Header

variable {entry : Entry} {slot : Slot}

def Slot.content (slot : Slot) (entry : Entry) (nested : Bytes) : Bytes :=
  slot.leadBytes entry ++ ((slot.body entry).fill [] ++ nested)

theorem declared_content (entry : Entry) (slot : Slot) (nested : Bytes) :
    slot.declared entry nested.length = (slot.content entry nested).length := by
  simp only [Slot.declared, Slot.content, List.length_append, length_fill, Nat.add_assoc]

theorem content_nests (hnone : slot.value = .none) (nested : Bytes) :
    slot.content entry nested = slot.leadBytes entry ++ nested := by
  simp [Slot.content, Slot.body, hnone, Value.body, fill]

end Encoding

namespace Forest

open Encoding Stencil Header

variable {entry : Entry} {slot : Slot} {below : Forest Slot}

theorem encoding_suppressed (hslot : slot.suppressed = true) (below next : Forest Slot) :
    (node entry slot below next).encoding = next.encoding := by
  rw [encoding, stencil, hslot]
  rfl

theorem encoding_shown (hslot : slot.suppressed = false)
    (hvalue : ∀ encoded, slot.value ≠ .replace encoded)
    (hnone : entry.headerOnly = true → slot.value = .none)
    (hleaf : entry.headerOnly = false → below = nil) (next : Forest Slot) :
    (node entry slot below next).encoding =
      (slot.wireTag entry :: (lengthOctets (slot.content entry below.encoding).length ++
        slot.content entry below.encoding)) ++ next.encoding := by
  have hdeclared := declared_content entry slot below.encoding
  have hown := own_eq_head entry hvalue below.encoding.length
  rw [Slot.head, hdeclared] at hown
  rw [encoding, stencil, hslot, if_neg Bool.false_ne_true, fill_append, List.drop_nil]
  refine congrArg (· ++ next.encoding) ?_
  cases hheader : entry.headerOnly with
  | true =>
    have hnests : slot.nests entry = true := by
      simp [Slot.nests, hheader, hnone hheader, Value.isNone]
    rw [hheader, if_pos rfl, List.append_nil, length_encoding] at hown
    rw [Slot.item, if_pos hnests, hown, fill_append, fill_solid, List.drop_nil, ← encoding,
      content_nests (hnone hheader)]
    simp only [List.cons_append, List.append_assoc]
  | false =>
    have hnests : slot.nests entry = false := by simp [Slot.nests, hheader]
    have hbelow : below.encoding = [] := by
      rw [hleaf hheader]
      rfl
    rw [hheader, if_neg Bool.false_ne_true, hbelow, List.length_nil] at hown
    rw [Slot.item, hnests, if_neg Bool.false_ne_true, hown, fill_append, fill_solid, List.drop_nil,
      hbelow]
    simp only [Slot.content, List.append_nil, List.cons_append, List.append_assoc]

def Shown (property : Entry → Slot → Prop) : Forest Slot → Prop
  | nil => True
  | node entry slot below next =>
    (slot.suppressed = false → property entry slot ∧ below.Shown property) ∧ next.Shown property

theorem shown_of_excludes {property : Entry → Slot → Prop} {forest : Forest Slot}
    (h : ∀ i entry slot, forest.schema[i]? = some entry → forest.slots[i]? = some slot →
      forest.excludes false i = false → property entry slot) : forest.Shown property := by
  induction forest with
  | nil => trivial
  | node entry slot below next ihb ihn =>
    refine ⟨fun hslot => ⟨?_, ihb ?_⟩, ihn ?_⟩
    · exact h 0 entry slot rfl rfl (by simp [excludes, hslot])
    · intro i e s he hs hexcludes
      have hi := lt_size he
      apply h (i + 1) e s
      · rwa [getElem?_schema_below hi]
      · rwa [getElem?_slots_below hi]
      · rwa [excludes_below hi, hslot]
    · intro i e s he hs hexcludes
      apply h (i + below.size + 1) e s
      · rwa [getElem?_schema_next]
      · rwa [getElem?_slots_next]
      · rwa [excludes_next]

end Forest

namespace Encoding

variable {schema : Schema} {slots : List Slot}

theorem encode_eq_ok {written : Written} (h : encode schema slots = .ok written) :
    schema.validate = .ok () ∧ slots.length = schema.length ∧
      (Forest.plant schema slots).Writable ∧
      (Forest.plant schema slots).encoding.length < lengthLimit ∧
      written.output.buffer = (Forest.plant schema slots).encoding := by
  obtain ⟨sizing, hsize, _⟩ := bind_eq_ok_iff.mp h
  obtain ⟨hvalid, hslots, hsizing, hwritable, _⟩ := size_eq_ok hsize
  have htotal : sizing.total = (Forest.plant schema slots).encoding.length := by
    rw [hsizing, Forest.length_encoding]
  rw [encode_of_size hsize, htotal] at h
  split at h
  · rename_i hlimit
    cases h
    exact ⟨hvalid, hslots, hwritable, hlimit, rfl⟩
  · cases h

theorem shown_of_excluded {property : Entry → Slot → Prop} (hvalid : schema.validate = .ok ())
    (hlength : slots.length = schema.length)
    (h : ∀ i entry slot, schema[i]? = some entry → slots[i]? = some slot →
      excluded schema slots i = false → property entry slot) :
    (Forest.plant schema slots).Shown property := by
  apply Forest.shown_of_excludes
  intro i entry slot hentry hslot hexcludes
  rw [Forest.schema_plant hlength] at hentry
  rw [Forest.slots_plant hlength] at hslot
  have hi := (List.getElem?_eq_some_iff.mp hentry).1
  exact h i entry slot hentry hslot (excluded_plant hvalid hlength hi ▸ hexcludes)

end Encoding

end DerTemplate

import DerTemplate.Proofs.Bytes.Window
import DerTemplate.Proofs.Encoding.Items

namespace DerTemplate

namespace Forest

open Encoding

theorem subtree_written {forest : Forest Slot} {depth : Nat} (hnested : forest.Nested depth)
    (hwritable : forest.Writable) {i : Nat} {entry : Entry} {slot : Slot}
    (hentry : forest.schema[i]? = some entry) (hslot : forest.slots[i]? = some slot)
    (h : forest.excludes false i = false) :
    ∃ below, forest.subtree i = node entry slot below nil ∧ slot.suppressed = false ∧
      slot.Writable entry ∧ (entry.headerOnly = false → below = nil) := by
  induction forest generalizing depth i with
  | nil => exact nomatch hentry
  | node root rootSlot below next ihb ihn =>
    obtain ⟨_, hleaf, hnestedBelow, hnestedNext⟩ := hnested
    obtain ⟨hroot, hnext⟩ := hwritable
    cases i with
    | zero =>
      cases hentry
      cases hslot
      have hsuppressed : slot.suppressed = false := by simpa [excludes] using h
      exact ⟨below, rfl, hsuppressed, (hroot hsuppressed).1, hleaf⟩
    | succ i =>
      rw [schema, List.getElem?_cons_succ] at hentry
      rw [slots, List.getElem?_cons_succ] at hslot
      simp only [excludes, Bool.or_false] at h
      simp only [subtree]
      split at h
      · rename_i hlt
        have hsuppressed := not_hidden_of_excludes hlt h
        rw [List.getElem?_append_left (by simpa using hlt)] at hentry hslot
        rw [if_pos hlt]
        exact ihb hnestedBelow (hroot hsuppressed).2.2 hentry hslot (hsuppressed ▸ h)
      · rename_i hle
        rw [List.getElem?_append_right (by simpa using hle), length_schema] at hentry
        rw [List.getElem?_append_right (by simpa using hle), length_slots] at hslot
        rw [if_neg hle]
        exact ihn hnestedNext hnext hentry hslot h

theorem map_marked {α : Type} {f : Slot → α}
    (hf : ∀ slot mark, f { slot with placeholderAt := mark } = f slot) (start : Nat)
    (forest : Forest Slot) : (forest.marked start).slots.map f = forest.slots.map f := by
  induction forest generalizing start with
  | nil => rfl
  | node entry slot below next ihb ihn =>
    unfold marked
    split
    · simp only [slots, List.map_cons, List.map_append, ihn]
    · simp only [slots, List.map_cons, List.map_append, ihb, ihn, hf]

theorem holds_subtree {forest : Forest Slot} (hnested : forest.Nested 0)
    (hwritable : forest.Writable) {i : Nat} {entry : Entry} {slot : Slot}
    (hentry : forest.schema[i]? = some entry) (hslot : forest.slots[i]? = some slot)
    (h : forest.excludes false i = false) :
    ∃ below kept, (slot.suppressed = false ∧ slot.Writable entry ∧
        (entry.headerOnly = false → below = nil)) ∧
      ((forest.sized false 0).marked 0).slots[i]? = some kept ∧
      kept.contentLength = slot.declared entry (slot.held entry below.encoding.length) ∧
      kept.offset ≤ forest.encoding.length ∧
      forest.encoding.Holds (forest.encoding.length - kept.offset)
        (node entry slot below nil).encoding := by
  have hi : i < forest.size := by simpa using (List.getElem?_eq_some_iff.mp hentry).1
  obtain ⟨below, hsubtree, hwrites⟩ := subtree_written hnested hwritable hentry hslot h
  obtain ⟨e, s, b, front, back, hsame, hstencil, hget, hitem⟩ :=
    slots_sized_written hwritable 0 hi h
  obtain ⟨rfl, rfl, rfl⟩ : entry = e ∧ slot = s ∧ below = b := by
    simpa using hsubtree.symm.trans hsame
  have hmarked := congrArg (fun kept => kept[i]?) (map_marked
    (f := fun slot => (slot.contentLength, slot.offset)) (fun _ _ => rfl) 0 (forest.sized false 0))
  simp only [List.getElem?_map, hget, Option.map_some, Option.map_eq_some_iff] at hmarked
  obtain ⟨kept, hkept, hsizes⟩ := hmarked
  obtain ⟨hcontent, hoffset⟩ := Prod.mk.inj hsizes
  have hencoding := encoding_eq_append hstencil
  rw [hsubtree] at hencoding hitem
  have hdistance : kept.offset = back.length + (node entry slot below nil).encoding.length := by
    rw [hoffset, length_encoding, ← hitem, Nat.zero_add]
    rfl
  have htotal : forest.encoding.length = (front.fill []).length +
      ((node entry slot below nil).encoding.length + back.length) := by
    rw [hencoding, List.length_append, List.length_append, Stencil.length_fill back]
  refine ⟨below, kept, hwrites, hkept, ?_, by omega, ?_⟩
  · rw [hcontent, length_encoding]
    rfl
  · rw [show forest.encoding.length - kept.offset = (front.fill []).length by omega]
    rw [hencoding]
    exact Bytes.holds_inside _ _ _

end Forest

namespace Encoding

open Header (lengthOctets)

variable {schema : Schema} {slots : List Slot} {written : Written} {i : Nat} {entry : Entry}
variable {slot : Slot}

def Written.HasItem (written : Written) (i : Nat) (tag : Tag) (content : Bytes) : Prop :=
  ∃ kept, written.slots[i]? = some kept ∧ kept.contentLength = content.length ∧
    kept.offset ≤ written.output.buffer.length ∧
    written.output.buffer.Holds (written.output.buffer.length - kept.offset)
      (tag :: (lengthOctets content.length ++ content))

theorem hasItem_leaf (hencode : encode schema slots = .ok written)
    (hentry : schema[i]? = some entry) (hslot : slots[i]? = some slot)
    (hshown : excluded schema slots i = false) (hleaf : entry.headerOnly = false)
    (hreplace : ∀ encoded, slot.value ≠ .replace encoded) :
    slot.Writable entry ∧ written.HasItem i (slot.wireTag entry) (slot.content entry []) := by
  obtain ⟨sizing, hsize, _⟩ := bind_eq_ok_iff.mp hencode
  obtain ⟨hvalid, hlength, _, hwritable, _⟩ := size_eq_ok hsize
  have hwritten := encode_of_size hsize
  rw [hencode] at hwritten
  split at hwritten
  · obtain rfl := Except.ok.inj hwritten
    rw [excluded_plant hvalid hlength (List.getElem?_eq_some_iff.mp hentry).1] at hshown
    obtain ⟨below, kept, ⟨hsuppressed, hfits, hbelow⟩, hkept, hcontent, hoffset, hholds⟩ :=
      Forest.holds_subtree (Schema.nested_plant hvalid slots) hwritable
        (Forest.schema_plant hlength ▸ hentry) (Forest.slots_plant hlength ▸ hslot) hshown
    obtain rfl := hbelow hleaf
    have hnests : slot.nests entry = false := by rw [Slot.nests, hleaf, Bool.false_and]
    rw [Forest.encoding_shown hsuppressed hreplace (fun h => absurd (hleaf ▸ h) Bool.false_ne_true)
      hbelow] at hholds
    have hnil : (Forest.nil : Forest Slot).encoding = [] := rfl
    rw [hnil, List.append_nil] at hholds
    refine ⟨hfits, kept, hkept, ?_, hoffset, hholds⟩
    rw [hcontent, Slot.held, hnests, ← declared_content]
    rfl
  · cases hwritten

end Encoding

end DerTemplate

import DerTemplate.Proofs.Encoding.Measure
import DerTemplate.Proofs.Schema.Place

namespace DerTemplate

namespace Encoding

def Slot.blank (slot : Slot) : Slot :=
  { slot with length := 0, contentLength := 0, offset := 0, sized := true }

def Slot.placed (slot : Slot) (entry : Entry) (children after : Nat) : Slot :=
  let length := (slot.own entry (slot.held entry children)).length + slot.held entry children
  { slot with
    length := length
    contentLength := slot.declared entry (slot.held entry children)
    offset := after + length
    sized := true }

end Encoding

namespace Forest

open Encoding

def extent (hidden : Bool) (forest : Forest Slot) : Nat :=
  if hidden then 0 else forest.stencil.length

def sized : Bool → Nat → Forest Slot → Forest Slot
  | _, _, nil => nil
  | hidden, after, node entry slot below next =>
    let behind := after + next.extent hidden
    if slot.suppressed || hidden then
      node entry slot.blank (below.sized true behind) (next.sized hidden after)
    else
      node entry (slot.placed entry below.stencil.length behind) (below.sized false behind)
        (next.sized hidden after)

def Writable : Forest Slot → Prop
  | nil => True
  | node entry slot below next =>
    (slot.suppressed = false → slot.Writable entry ∧
      (slot.nests entry = false → below.stencil = []) ∧ below.Writable) ∧ next.Writable

def rootLength : Forest Slot → Nat
  | nil => 0
  | node _ slot _ next => slot.length + next.rootLength

@[simp] theorem schema_sized (hidden : Bool) (after : Nat) (forest : Forest Slot) :
    (forest.sized hidden after).schema = forest.schema := by
  induction forest generalizing hidden after with
  | nil => rfl
  | node entry slot below next ihb ihn =>
    simp only [sized]
    split <;> simp only [schema, ihb, ihn]

@[simp] theorem size_sized (hidden : Bool) (after : Nat) (forest : Forest Slot) :
    (forest.sized hidden after).size = forest.size := by
  rw [← length_schema, schema_sized, length_schema]

theorem nested_sized {hidden : Bool} {after depth : Nat} {forest : Forest Slot}
    (h : forest.Nested depth) : (forest.sized hidden after).Nested depth := by
  induction forest generalizing hidden after depth with
  | nil => trivial
  | node entry slot below next ihb ihn =>
    obtain ⟨hdepth, hleaf, hb, hn⟩ := h
    simp only [sized]
    split <;> exact ⟨hdepth, fun hh => by rw [hleaf hh]; rfl, ihb hb, ihn hn⟩

theorem length_item (entry : Entry) (slot : Slot) (nested : Stencil) :
    (slot.item entry nested).length =
      (slot.own entry (slot.held entry nested.length)).length + slot.held entry nested.length := by
  unfold Slot.item Slot.held
  split <;> simp

theorem rootLength_sized (hidden : Bool) (after : Nat) (forest : Forest Slot) :
    (forest.sized hidden after).rootLength = forest.extent hidden := by
  induction forest generalizing hidden after with
  | nil => simp [sized, rootLength, extent, stencil]
  | node entry slot below next _ ihn =>
    unfold sized
    cases hidden <;> cases hslot : slot.suppressed <;>
      simp [rootLength, extent, stencil, ihn, hslot, Slot.blank, Slot.placed, length_item]

theorem map_sized {α : Type} {f : Slot → α}
    (hf : ∀ slot length contentLength offset,
      f ⟨slot.value, slot.suppressed, slot.tag, length, contentLength, offset, true,
        slot.placeholderAt⟩ = f slot) (hidden : Bool) (after : Nat) (forest : Forest Slot) :
    (forest.sized hidden after).slots.map f = forest.slots.map f := by
  induction forest generalizing hidden after with
  | nil => rfl
  | node entry slot below next ihb ihn =>
    simp only [sized]
    split <;> simp only [slots, List.map_cons, List.map_append, ihb, ihn, Slot.blank, Slot.placed, hf]

theorem sized_node_hidden {hidden : Bool} {entry : Entry} {slot : Slot}
    (h : (slot.suppressed || hidden) = true) (after : Nat) (below next : Forest Slot) :
    (node entry slot below next).sized hidden after =
      node entry slot.blank (below.sized true (after + next.extent hidden))
        (next.sized hidden after) := by
  rw [sized, if_pos h]

theorem sized_node_shown {hidden : Bool} {entry : Entry} {slot : Slot}
    (h : (slot.suppressed || hidden) = false) (after : Nat) (below next : Forest Slot) :
    (node entry slot below next).sized hidden after =
      node entry (slot.placed entry below.stencil.length (after + next.extent hidden))
        (below.sized false (after + next.extent hidden)) (next.sized hidden after) := by
  rw [sized, if_neg (by simp [h])]

theorem getElem_sized_below {hidden : Bool} {entry : Entry} {slot : Slot} {below next : Forest Slot}
    {i : Nat} (h : i < below.size) (after : Nat) :
    ((node entry slot below next).sized hidden after).slots[i + 1]? =
      (below.sized (slot.suppressed || hidden) (after + next.extent hidden)).slots[i]? := by
  cases hhidden : slot.suppressed || hidden with
  | true => rw [sized_node_hidden hhidden, getElem?_slots_below (by simpa using h)]
  | false => rw [sized_node_shown hhidden, getElem?_slots_below (by simpa using h)]

theorem getElem_sized_next {hidden : Bool} {entry : Entry} {slot : Slot} {below next : Forest Slot}
    {i : Nat} (h : ¬i < below.size) (after : Nat) :
    ((node entry slot below next).sized hidden after).slots[i + 1]? =
      (next.sized hidden after).slots[i - below.size]? := by
  cases hhidden : slot.suppressed || hidden with
  | true =>
    rw [sized_node_hidden hhidden, slots, List.getElem?_cons_succ,
      List.getElem?_append_right (by simpa using h), length_slots, size_sized]
  | false =>
    rw [sized_node_shown hhidden, slots, List.getElem?_cons_succ,
      List.getElem?_append_right (by simpa using h), length_slots, size_sized]

theorem extent_shown (forest : Forest Slot) : forest.extent false = forest.stencil.length := rfl

theorem extent_node_hidden {hidden : Bool} {entry : Entry} {slot : Slot}
    (h : (slot.suppressed || hidden) = true) (below next : Forest Slot) :
    (node entry slot below next).extent hidden = next.extent hidden := by
  cases hidden with
  | true => rfl
  | false => simp [extent, stencil, show slot.suppressed = true by simpa using h]

theorem foldl_rootLength {forest : Forest Slot} {depth : Nat} (h : forest.Nested depth)
    (n : Nat) :
    ((forest.schema.zip forest.slots).filter fun p => p.1.depth == depth).foldl
      (fun n p => n + p.2.length) n = n + forest.rootLength := by
  induction forest generalizing n with
  | nil => rfl
  | node entry slot below next _ ihn =>
    obtain ⟨hdepth, _, hb, hn⟩ := h
    have hbelow : (below.schema.zip below.slots).filter (fun p => p.1.depth == depth) = [] := by
      rw [List.filter_eq_nil_iff]
      intro p hp
      have := le_depth_of_nested hb p.1 (List.of_mem_zip hp).1
      simp only [beq_iff_eq]
      omega
    rw [schema, slots, List.zip_cons_cons, List.zip_append (by simp),
      List.filter_cons_of_pos (by simpa using hdepth), List.filter_append, hbelow,
      List.nil_append, List.foldl_cons, ihn hn, rootLength, Nat.add_assoc]

end Forest

namespace Encoding

open Schema

variable {pre rest : List Entry} {preSlots restSlots : List Slot}
variable {entry : Entry} {slot : Slot} {below : Forest Slot}

theorem childLengths_append (hpre : preSlots.length = pre.length)
    (hbelow : below.Nested (entry.depth + 1)) (hrest : Leaves entry.depth rest) :
    childLengths (pre ++ entry :: (below.schema ++ rest))
        (preSlots ++ slot :: (below.slots ++ restSlots)) pre.length entry.depth =
      if below.rootLength < wordLimit then .ok below.rootLength else fault := by
  have hdrop : ((pre ++ entry :: (below.schema ++ rest)).zip
      (preSlots ++ slot :: (below.slots ++ restSlots))).drop (pre.length + 1) =
        below.schema.zip below.slots ++ rest.zip restSlots := by
    rw [List.zip_append hpre.symm, List.zip_cons_cons, List.zip_append (by simp),
      ← List.drop_drop, List.drop_left' (by simp [hpre]), List.drop_succ_cons, List.drop_zero]
  have htake : (below.schema.zip below.slots ++ rest.zip restSlots).takeWhile
      (fun p => entry.depth < p.1.depth) = below.schema.zip below.slots := by
    rw [List.takeWhile_append_of_pos (by
      intro p hp
      have := Forest.le_depth_of_nested hbelow p.1 (List.of_mem_zip hp).1
      simp only [decide_eq_true_eq]
      omega)]
    cases hzip : rest.zip restSlots with
    | nil => simp
    | cons p ps =>
      cases rest with
      | nil => simp at hzip
      | cons e rest =>
        cases restSlots with
        | nil => simp at hzip
        | cons s restSlots =>
          have hle : e.depth ≤ entry.depth := hrest e rfl
          rw [List.zip_cons_cons, List.cons.injEq] at hzip
          rw [← hzip.1, List.takeWhile_cons_of_neg (by simp only [decide_eq_true_eq]; omega),
            List.append_nil]
  simp only [childLengths, hdrop, htake, Forest.foldl_rootLength hbelow, Nat.zero_add]

theorem any_getElem_append {indices : List Nat} (h : ∀ j ∈ indices, j < preSlots.length) :
    (indices.any fun j => (preSlots ++ restSlots)[j]?.any Slot.suppressed) =
      indices.any fun j => preSlots[j]?.any Slot.suppressed := by
  induction indices with
  | nil => rfl
  | cons j indices ih =>
    rw [List.any_cons, List.any_cons, ih fun i hi => h i (List.mem_cons_of_mem _ hi),
      List.getElem?_append_left (h j List.mem_cons_self)]

end Encoding

namespace Schema.Place

open Encoding

variable {schema : Schema} {slots : List Slot} {place : Place Slot}
variable {entry : Entry} {slot : Slot} {below next : Forest Slot}

def hidden (place : Place Slot) : Bool :=
  (around place.depth place.pre).any fun j => place.preSlots[j]?.any Slot.suppressed

theorem Holds.excluded (h : place.Holds schema slots (.node entry slot below next)) :
    Encoding.excluded schema slots place.index = (slot.suppressed || place.hidden) := by
  rw [Encoding.excluded, List.any_cons, h.getElem_slots, h.schema_cut, h.index, ancestors_append,
    h.depth, h.slots_cut, any_getElem_append fun j hj => h.aligned ▸ lt_of_mem_around hj]
  rfl

theorem Holds.hidden_next (h : place.Holds schema slots (.node entry slot below next))
    (mine : List Slot) : (place.next entry below mine).hidden = place.hidden := by
  simp only [Place.hidden, Place.next]
  rw [around_next h.depth h.nested_below,
    any_getElem_append fun j hj => h.aligned ▸ lt_of_mem_around hj]

theorem Holds.hidden_below (h : place.Holds schema slots (.node entry slot below next))
    (after : Forest Slot) :
    (place.below entry slot after).hidden = (slot.suppressed || place.hidden) := by
  have hget : (place.preSlots ++ [slot])[place.pre.length]? = some slot := by
    rw [← h.aligned]
    simp
  simp only [Place.hidden, Place.below]
  rw [around_below h.depth, List.any_cons, hget,
    any_getElem_append fun j hj => h.aligned ▸ lt_of_mem_around hj]
  rfl

theorem Holds.childLengths (h : place.Holds schema slots (.node entry slot below next)) :
    Encoding.childLengths schema slots place.index entry.depth =
      if below.rootLength < wordLimit then .ok below.rootLength else fault := by
  rw [h.schema_cut, h.slots_cut, h.index]
  exact childLengths_append h.aligned (h.depth ▸ h.nested_below) h.leaves

theorem Holds.resized (h : place.Holds schema slots (.node entry slot below next))
    (hiddenBelow hiddenNext : Bool) (behind after : Nat) :
    place.Holds schema
      (place.preSlots ++ ((Forest.node entry slot (below.sized hiddenBelow behind)
        (next.sized hiddenNext after)).slots ++ place.postSlots))
      (.node entry slot (below.sized hiddenBelow behind) (next.sized hiddenNext after)) :=
  h.replace ⟨h.depth, fun hheader => by rw [h.leaf hheader]; rfl,
    Forest.nested_sized h.nested_below, Forest.nested_sized h.nested_next⟩ (by simp [Forest.schema])

end Schema.Place

end DerTemplate

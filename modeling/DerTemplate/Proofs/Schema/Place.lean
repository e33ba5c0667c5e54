import DerTemplate.Proofs.Schema.Position

namespace DerTemplate.Schema

structure Place (σ : Type) where
  index : Nat
  depth : Nat
  pre : List Entry
  post : List Entry
  preSlots : List σ
  postSlots : List σ

namespace Place

variable {σ : Type}

def root : Place σ := ⟨0, 0, [], [], [], []⟩

def below (place : Place σ) (entry : Entry) (slot : σ) (next : Forest σ) : Place σ :=
  ⟨place.index + 1, place.depth + 1, place.pre ++ [entry], next.schema ++ place.post,
    place.preSlots ++ [slot], next.slots ++ place.postSlots⟩

def next (place : Place σ) (entry : Entry) (below : Forest σ) (mine : List σ) : Place σ :=
  ⟨place.index + 1 + below.size, place.depth, place.pre ++ entry :: below.schema, place.post,
    place.preSlots ++ mine, place.postSlots⟩

theorem index_node (place : Place σ) (entry : Entry) (slot : σ) (below next : Forest σ)
    (mine : List σ) :
    place.index + (Forest.node entry slot below next).size =
      (place.next entry below mine).index + next.size := by
  simp [Forest.size, Place.next, Nat.add_assoc]

structure Holds (place : Place σ) (schema : Schema) (slots : List σ) (forest : Forest σ) :
    Prop where
  nested : forest.Nested place.depth
  outside : ∀ e ∈ place.post.head?, e.depth < place.depth
  index : place.index = place.pre.length
  aligned : place.preSlots.length = place.pre.length
  schema : schema = place.pre ++ (forest.schema ++ place.post)
  slots : slots = place.preSlots ++ (forest.slots ++ place.postSlots)

variable {schema : Schema} {slots : List σ} {place : Place σ}
variable {entry : Entry} {slot : σ} {below next : Forest σ}

theorem holds_root (hvalid : schema.validate = .ok ()) (hlength : slots.length = schema.length) :
    root.Holds schema slots (Forest.plant schema slots) where
  nested := nested_plant hvalid slots
  outside := by simp [root]
  index := rfl
  aligned := rfl
  schema := by simp [root, Forest.schema_plant hlength]
  slots := by simp [root, Forest.slots_plant hlength]

namespace Holds

theorem replace {forest forest' : Forest σ} (h : place.Holds schema slots forest)
    (hnested : forest'.Nested place.depth) (hschema : forest'.schema = forest.schema) :
    place.Holds schema (place.preSlots ++ (forest'.slots ++ place.postSlots)) forest' where
  nested := hnested
  outside := h.outside
  index := h.index
  aligned := h.aligned
  schema := by rw [hschema, h.schema]
  slots := rfl

variable (h : place.Holds schema slots (.node entry slot below next))
include h

theorem depth : entry.depth = place.depth := h.nested.1

theorem leaf (hleaf : entry.headerOnly = false) : below = .nil := h.nested.2.1 hleaf

theorem nested_below : below.Nested (place.depth + 1) := h.nested.2.2.1

theorem nested_next : next.Nested place.depth := h.nested.2.2.2

theorem leaves : Leaves entry.depth (next.schema ++ place.post) :=
  leaves_append (h.depth ▸ h.nested_next) (h.depth ▸ h.outside)

theorem schema_cut :
    schema = place.pre ++ entry :: (below.schema ++ (next.schema ++ place.post)) := by
  simpa [Forest.schema] using h.schema

theorem slots_cut :
    slots = place.preSlots ++ slot :: (below.slots ++ (next.slots ++ place.postSlots)) := by
  simpa [Forest.slots] using h.slots

theorem getElem_schema : schema[place.index]? = some entry := by
  rw [h.schema_cut, h.index]
  simp

theorem getElem_slots : slots[place.index]? = some slot := by
  rw [h.slots_cut, h.index, ← h.aligned]
  simp

theorem set_slots (filled : σ) :
    slots.set place.index filled =
      place.preSlots ++ filled :: (below.slots ++ (next.slots ++ place.postSlots)) := by
  rw [h.slots_cut, h.index, ← h.aligned]
  simp

theorem holds_mark (mark : σ) :
    place.Holds schema (place.preSlots ++ mark :: (below.slots ++ (next.slots ++ place.postSlots)))
      (.node entry mark below next) where
  nested := h.nested
  outside := h.outside
  index := h.index
  aligned := h.aligned
  schema := h.schema
  slots := by simp [Forest.slots]

theorem index_next_le : place.index + 1 + below.size ≤ slots.length := by
  rw [h.slots, Forest.slots, List.length_append, h.aligned, ← h.index]
  simp only [List.cons_append, List.length_cons, List.length_append, Forest.length_slots]
  omega

theorem subtreeEnd : schema.subtreeEnd place.index = place.index + 1 + below.size := by
  rw [h.schema_cut, h.index]
  exact subtreeEnd_append (h.depth ▸ h.nested_below) h.leaves

theorem endsRun : schema.endsRun place.index (place.index + 1 + below.size) =
    (next.firstPresence != some entry.presence) := by
  rw [h.schema_cut, h.index]
  exact endsRun_append (h.depth ▸ h.nested_next) (h.depth ▸ h.outside)

theorem follows : decide (place.index + 1 + below.size < schema.length) =
    !(next.schema ++ place.post).isEmpty := by
  rw [h.schema_cut, h.index]
  cases next.schema ++ place.post <;> simp <;> omega

theorem holds_below (filled : σ) {after : Forest σ} (hafter : after.schema = next.schema) :
    (place.below entry filled after).Holds schema
      (place.preSlots ++ filled :: (below.slots ++ (after.slots ++ place.postSlots))) below where
  nested := h.nested_below
  outside := fun e he => Nat.lt_succ_of_le (h.depth ▸ h.leaves e (hafter ▸ he))
  index := by simp [Place.below, h.index]
  aligned := by simp [Place.below, h.aligned]
  schema := by simp [Place.below, h.schema_cut, hafter]
  slots := by simp [Place.below]

theorem holds_next {mine : List σ} (hmine : mine.length = 1 + below.size) :
    (place.next entry below mine).Holds schema
      (place.preSlots ++ (mine ++ (next.slots ++ place.postSlots))) next where
  nested := h.nested_next
  outside := h.outside
  index := by
    simp [Place.next, h.index]
    omega
  aligned := by
    simp [Place.next, h.aligned, hmine]
    omega
  schema := by simp [Place.next, h.schema_cut]
  slots := by simp [Place.next]

theorem holds_enter : (place.below entry slot next).Holds schema slots below := by
  have hholds := h.holds_below slot rfl
  rwa [← h.slots_cut] at hholds

theorem holds_skip : (place.next entry below (slot :: below.slots)).Holds schema slots next := by
  have hmine : (slot :: below.slots).length = 1 + below.size := by simp [Nat.add_comm]
  have hholds := h.holds_next hmine
  rwa [List.cons_append, ← h.slots_cut] at hholds

end Holds

end Place

end DerTemplate.Schema

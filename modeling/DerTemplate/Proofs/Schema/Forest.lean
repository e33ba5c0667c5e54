import DerTemplate.Schema.Structure

namespace DerTemplate

inductive Forest (σ : Type) where
  | nil
  | node (entry : Entry) (slot : σ) (below next : Forest σ)
deriving DecidableEq, Repr

namespace Forest

variable {σ τ : Type}

def schema : Forest σ → Schema
  | nil => []
  | node entry _ below next => entry :: (below.schema ++ next.schema)

def slots : Forest σ → List σ
  | nil => []
  | node _ slot below next => slot :: (below.slots ++ next.slots)

def size : Forest σ → Nat
  | nil => 0
  | node _ _ below next => 1 + below.size + next.size

def Nested : Nat → Forest σ → Prop
  | _, nil => True
  | depth, node entry _ below next =>
    entry.depth = depth ∧ (entry.headerOnly = false → below = nil) ∧
      Nested (depth + 1) below ∧ Nested depth next

def subtree : Forest σ → Nat → Forest σ
  | nil, _ => nil
  | node entry slot below _, 0 => node entry slot below nil
  | node _ _ below next, i + 1 =>
    if i < below.size then below.subtree i else next.subtree (i - below.size)

def map (f : σ → τ) : Forest σ → Forest τ
  | nil => nil
  | node entry slot below next => node entry (f slot) (below.map f) (next.map f)

def mapEntries (f : Entry → σ → τ) : Forest σ → Forest τ
  | nil => nil
  | node entry slot below next =>
    node entry (f entry slot) (below.mapEntries f) (next.mapEntries f)

def firstPresence : Forest σ → Option Presence
  | nil => none
  | node entry _ _ _ => some entry.presence

def split (depth : Nat) : Forest σ → Forest σ × Forest σ
  | nil => (nil, nil)
  | node entry slot below next =>
    if depth < entry.depth then
      (node entry slot below (next.split depth).1, (next.split depth).2)
    else (nil, node entry slot below next)

def plant : Schema → List σ → Forest σ
  | entry :: entries, slot :: slots =>
    let rest := plant entries slots
    node entry slot (rest.split entry.depth).1 (rest.split entry.depth).2
  | _, _ => nil

@[simp] theorem length_schema (forest : Forest σ) : forest.schema.length = forest.size := by
  induction forest with
  | nil => rfl
  | node entry slot below next ihb ihn =>
    simp only [schema, size, List.length_cons, List.length_append, ihb, ihn]
    omega

@[simp] theorem length_slots (forest : Forest σ) : forest.slots.length = forest.size := by
  induction forest with
  | nil => rfl
  | node entry slot below next ihb ihn =>
    simp only [slots, size, List.length_cons, List.length_append, ihb, ihn]
    omega

@[simp] theorem schema_map (f : σ → τ) (forest : Forest σ) :
    (forest.map f).schema = forest.schema := by
  induction forest with
  | nil => rfl
  | node entry slot below next ihb ihn => simp only [map, schema, ihb, ihn]

@[simp] theorem size_map (f : σ → τ) (forest : Forest σ) : (forest.map f).size = forest.size := by
  rw [← length_schema, schema_map, length_schema]

theorem slots_map (f : σ → τ) (forest : Forest σ) : (forest.map f).slots = forest.slots.map f := by
  induction forest with
  | nil => rfl
  | node entry slot below next ihb ihn =>
    simp only [map, slots, ihb, ihn, List.map_cons, List.map_append]

@[simp] theorem schema_mapEntries (f : Entry → σ → τ) (forest : Forest σ) :
    (forest.mapEntries f).schema = forest.schema := by
  induction forest with
  | nil => rfl
  | node entry slot below next ihb ihn => simp only [mapEntries, schema, ihb, ihn]

@[simp] theorem size_mapEntries (f : Entry → σ → τ) (forest : Forest σ) :
    (forest.mapEntries f).size = forest.size := by
  rw [← length_schema, schema_mapEntries, length_schema]

theorem slots_mapEntries (f : Entry → σ → τ) (forest : Forest σ) :
    (forest.mapEntries f).slots = List.zipWith f forest.schema forest.slots := by
  induction forest with
  | nil => rfl
  | node entry slot below next ihb ihn =>
    rw [mapEntries, slots, ihb, ihn, schema, slots, List.zipWith_cons_cons,
      List.zipWith_append (by simp)]

section Index

variable {entry : Entry} {slot : σ} {below next : Forest σ} {i : Nat}

theorem lt_size {forest : Forest σ} (h : forest.schema[i]? = some entry) : i < forest.size := by
  rw [← length_schema]
  exact (List.getElem?_eq_some_iff.mp h).1

theorem getElem?_schema_below (h : i < below.size) :
    (node entry slot below next).schema[i + 1]? = below.schema[i]? := by
  rw [schema, List.getElem?_cons_succ, List.getElem?_append_left (by simpa using h)]

theorem getElem?_slots_below (h : i < below.size) :
    (node entry slot below next).slots[i + 1]? = below.slots[i]? := by
  rw [slots, List.getElem?_cons_succ, List.getElem?_append_left (by simpa using h)]

theorem getElem?_schema_next :
    (node entry slot below next).schema[i + below.size + 1]? = next.schema[i]? := by
  rw [schema, List.getElem?_cons_succ, List.getElem?_append_right (by simp), length_schema,
    Nat.add_sub_cancel]

theorem getElem?_slots_next :
    (node entry slot below next).slots[i + below.size + 1]? = next.slots[i]? := by
  rw [slots, List.getElem?_cons_succ, List.getElem?_append_right (by simp), length_slots,
    Nat.add_sub_cancel]

theorem index_cases (size i : Nat) :
    i = 0 ∨ (∃ j < size, i = j + 1) ∨ ∃ j, i = j + size + 1 := by
  rcases Nat.eq_zero_or_pos i with h | h
  · exact .inl h
  · by_cases hlt : i - 1 < size
    · exact .inr (.inl ⟨i - 1, hlt, by omega⟩)
    · exact .inr (.inr ⟨i - 1 - size, by omega⟩)

end Index

theorem nested_map (f : σ → τ) {forest : Forest σ} {depth : Nat} (h : forest.Nested depth) :
    (forest.map f).Nested depth := by
  induction forest generalizing depth with
  | nil => trivial
  | node entry slot below next ihb ihn =>
    obtain ⟨hdepth, hleaf, hb, hn⟩ := h
    refine ⟨hdepth, ?_, ihb hb, ihn hn⟩
    intro hheader
    rw [hleaf hheader]
    rfl

theorem nested_mapEntries (f : Entry → σ → τ) {forest : Forest σ} {depth : Nat}
    (h : forest.Nested depth) : (forest.mapEntries f).Nested depth := by
  induction forest generalizing depth with
  | nil => trivial
  | node entry slot below next ihb ihn =>
    obtain ⟨hdepth, hleaf, hb, hn⟩ := h
    refine ⟨hdepth, fun hheader => ?_, ihb hb, ihn hn⟩
    rw [hleaf hheader]
    rfl

theorem firstPresence_eq (forest : Forest σ) :
    forest.firstPresence = forest.schema.head?.map Entry.presence := by
  cases forest <;> rfl

theorem firstPresence_map (f : σ → τ) (forest : Forest σ) :
    (forest.map f).firstPresence = forest.firstPresence := by
  cases forest <;> rfl

def All (property : Entry → σ → Prop) : Forest σ → Prop
  | nil => True
  | node entry slot below next => property entry slot ∧ below.All property ∧ next.All property

theorem all_of_forall {property : Entry → σ → Prop} {forest : Forest σ}
    (h : ∀ pair ∈ forest.schema.zip forest.slots, property pair.1 pair.2) : forest.All property := by
  induction forest with
  | nil => trivial
  | node entry slot below next ihb ihn =>
    rw [schema, slots, List.zip_cons_cons, List.zip_append (by simp)] at h
    refine ⟨h (entry, slot) List.mem_cons_self, ihb ?_, ihn ?_⟩
    · intro pair hpair
      exact h pair (List.mem_cons_of_mem _ (List.mem_append_left _ hpair))
    · intro pair hpair
      exact h pair (List.mem_cons_of_mem _ (List.mem_append_right _ hpair))

theorem all_map {property : Entry → τ → Prop} {f : σ → τ} (h : ∀ entry slot, property entry (f slot))
    (forest : Forest σ) : (forest.map f).All property := by
  induction forest with
  | nil => trivial
  | node entry slot below next ihb ihn => exact ⟨h entry slot, ihb, ihn⟩

theorem le_depth_of_nested {forest : Forest σ} {depth : Nat} (h : forest.Nested depth) :
    ∀ entry ∈ forest.schema, depth ≤ entry.depth := by
  induction forest generalizing depth with
  | nil => simp [schema]
  | node entry slot below next ihb ihn =>
    obtain ⟨hdepth, _, hb, hn⟩ := h
    intro e he
    simp only [schema, List.mem_cons, List.mem_append] at he
    rcases he with rfl | he | he
    · exact Nat.le_of_eq hdepth.symm
    · exact Nat.le_of_succ_le (ihb hb e he)
    · exact ihn hn e he

theorem schema_split (depth : Nat) (forest : Forest σ) :
    (forest.split depth).1.schema ++ (forest.split depth).2.schema = forest.schema := by
  induction forest with
  | nil => rfl
  | node entry slot below next _ ihn =>
    unfold split
    split
    · simp only [schema, List.cons_append, List.append_assoc, ihn]
    · rfl

theorem slots_split (depth : Nat) (forest : Forest σ) :
    (forest.split depth).1.slots ++ (forest.split depth).2.slots = forest.slots := by
  induction forest with
  | nil => rfl
  | node entry slot below next _ ihn =>
    unfold split
    split
    · simp only [slots, List.cons_append, List.append_assoc, ihn]
    · rfl

theorem schema_plant {schema : Schema} {slots : List σ} (h : slots.length = schema.length) :
    (plant schema slots).schema = schema := by
  induction schema generalizing slots with
  | nil => cases slots <;> rfl
  | cons entry entries ih =>
    cases slots with
    | nil => simp at h
    | cons slot slots =>
      have hrest : (plant entries slots).schema = entries := ih (by simpa using h)
      simp only [plant, Forest.schema, schema_split, hrest]

theorem slots_plant {schema : Schema} {slots : List σ} (h : slots.length = schema.length) :
    (plant schema slots).slots = slots := by
  induction schema generalizing slots with
  | nil =>
    cases slots with
    | nil => rfl
    | cons slot slots => simp at h
  | cons entry entries ih =>
    cases slots with
    | nil => simp at h
    | cons slot slots =>
      have hrest : (plant entries slots).slots = slots := ih (by simpa using h)
      simp only [plant, Forest.slots, slots_split, hrest]

theorem split_map (f : σ → τ) (depth : Nat) (forest : Forest σ) :
    (forest.map f).split depth = ((forest.split depth).1.map f, (forest.split depth).2.map f) := by
  induction forest with
  | nil => rfl
  | node entry slot below next _ ihn =>
    simp only [map, split]
    split
    · simp only [ihn, map]
    · rfl

theorem plant_map (f : σ → τ) (schema : Schema) (slots : List σ) :
    plant schema (slots.map f) = (plant schema slots).map f := by
  induction schema generalizing slots with
  | nil => cases slots <;> rfl
  | cons entry entries ih =>
    cases slots with
    | nil => rfl
    | cons slot slots => simp only [List.map_cons, plant, map, ih, split_map]

def Falling : Nat → Forest σ → Prop
  | _, nil => True
  | limit, node entry _ below next =>
    entry.depth ≤ limit ∧ (entry.headerOnly = false → below = nil) ∧
      Nested (entry.depth + 1) below ∧ Falling entry.depth next

theorem nested_of_falling_zero {forest : Forest σ} (h : forest.Falling 0) : forest.Nested 0 := by
  induction forest with
  | nil => trivial
  | node entry slot below next _ ihn =>
    obtain ⟨hle, hleaf, hb, hn⟩ := h
    have hdepth : entry.depth = 0 := Nat.le_zero.mp hle
    rw [hdepth] at hb hn
    exact ⟨hdepth, hleaf, hb, ihn hn⟩

theorem split_of_falling {forest : Forest σ} {depth : Nat} (h : forest.Falling depth) :
    forest.split depth = (nil, forest) := by
  cases forest with
  | nil => rfl
  | node entry slot below next =>
    unfold split
    rw [if_neg (by have := h.1; omega)]

theorem falling_split {forest : Forest σ} {limit depth : Nat} (h : forest.Falling limit)
    (hlimit : limit ≤ depth + 1) :
    (forest.split depth).1.Nested (depth + 1) ∧ (forest.split depth).2.Falling depth := by
  induction forest generalizing limit with
  | nil => exact ⟨trivial, trivial⟩
  | node entry slot below next _ ihn =>
    obtain ⟨hle, hleaf, hb, hn⟩ := h
    unfold split
    split
    · have hdepth : entry.depth = depth + 1 := by omega
      have hsplit := ihn hn (Nat.le_of_eq hdepth)
      rw [hdepth] at hb
      exact ⟨⟨hdepth, hleaf, hb, hsplit.1⟩, hsplit.2⟩
    · exact ⟨trivial, by omega, hleaf, hb, hn⟩

def append : Forest σ → Forest σ → Forest σ
  | nil, other => other
  | node entry slot below next, other => node entry slot below (next.append other)

theorem append_nil (forest : Forest σ) : forest.append nil = forest := by
  induction forest with
  | nil => rfl
  | node entry slot below next _ ihn => rw [append, ihn]

theorem Falling.mono {forest : Forest σ} {limit depth : Nat} (h : forest.Falling limit)
    (hle : limit ≤ depth) : forest.Falling depth := by
  cases forest with
  | nil => trivial
  | node entry slot below next =>
    obtain ⟨hdepth, hrest⟩ := h
    exact ⟨Nat.le_trans hdepth hle, hrest⟩

theorem falling_append {forest other : Forest σ} {depth : Nat} (h : forest.Nested depth)
    (hother : other.Falling depth) : (forest.append other).Falling depth := by
  induction forest with
  | nil => exact hother
  | node entry slot below next _ ihn =>
    obtain ⟨rfl, hleaf, hb, hn⟩ := h
    exact ⟨Nat.le_refl _, hleaf, hb, ihn hn⟩

theorem split_append {forest other : Forest σ} {depth : Nat} (h : forest.Nested (depth + 1))
    (hother : other.Falling depth) : (forest.append other).split depth = (forest, other) := by
  induction forest with
  | nil => exact split_of_falling hother
  | node entry slot below next _ ihn =>
    obtain ⟨hdepth, _, _, hn⟩ := h
    rw [append, split, if_pos (by omega), ihn hn]

theorem plant_append {forest : Forest σ} {depth : Nat} {rest : Schema} {restSlots : List σ}
    (h : forest.Nested depth) (hrest : (plant rest restSlots).Falling depth) :
    plant (forest.schema ++ rest) (forest.slots ++ restSlots) =
      forest.append (plant rest restSlots) := by
  induction forest generalizing depth rest restSlots with
  | nil => rfl
  | node entry slot below next ihb ihn =>
    obtain ⟨rfl, _, hb, hn⟩ := h
    have hnext := ihn hn hrest
    have hfalling := falling_append hn hrest
    have hbelow := ihb hb (hnext ▸ hfalling.mono (Nat.le_succ entry.depth))
    rw [schema, slots, List.cons_append, List.cons_append, List.append_assoc, List.append_assoc,
      plant, hbelow, hnext, split_append hb hfalling]
    rfl

theorem plant_of_nested {forest : Forest σ} {depth : Nat} (h : forest.Nested depth) :
    plant forest.schema forest.slots = forest := by
  have hplant := plant_append h (show (plant [] ([] : List σ)).Falling depth from trivial)
  rwa [List.append_nil, List.append_nil, show plant [] ([] : List σ) = nil from rfl,
    append_nil] at hplant

end Forest

namespace Schema

def depthAfter : Option Entry → Nat
  | none => 0
  | some before => if before.headerOnly then before.depth + 1 else before.depth

def Bounded (entry : Entry) : Prop :=
  entry.depth < depthLimit ∧
    ∀ group, entry.presence = .choice group → group ≠ 0 ∧ group ≤ choiceGroupLimit

theorem depth_le_of_checkNesting {i : Nat} {entry : Entry} {before : Option Entry}
    (h : checkNesting i entry before = .ok ()) : entry.depth ≤ depthAfter before := by
  cases before with
  | none =>
    simp only [checkNesting, refuse] at h
    split at h
    · simp only [depthAfter]
      omega
    · cases h
  | some before =>
    simp only [checkNesting, refuse] at h
    split at h
    · cases h
    · rename_i hnest
      simp only [depthAfter]
      cases hheader : before.headerOnly <;> simp [hheader] at hnest ⊢ <;> omega

theorem bounded_of_checkGroup {i : Nat} {entry : Entry} (hdepth : ¬depthLimit ≤ entry.depth)
    (h : checkGroup i entry = .ok ()) : Bounded entry := by
  refine ⟨Nat.lt_of_not_le hdepth, fun group hgroup => ?_⟩
  simp only [checkGroup, Entry.choiceGroup, hgroup, refuse] at h
  split at h
  · cases h
  · rename_i hrange
    exact ⟨fun hzero => hrange (.inl hzero), by omega⟩

theorem checkFrom_cons {i : Nat} {before : Option Entry} {entry : Entry} {rest : List Entry}
    (h : checkFrom i before (entry :: rest) = .ok ()) :
    entry.depth ≤ depthAfter before ∧ Bounded entry ∧
      checkFrom (i + 1) (some entry) rest = .ok () := by
  unfold checkFrom at h
  split at h
  · cases h
  · rename_i hdepth
    obtain ⟨_, hnest, h⟩ := bind_eq_ok_iff.mp h
    obtain ⟨_, hgroup, h⟩ := bind_eq_ok_iff.mp h
    exact ⟨depth_le_of_checkNesting hnest, bounded_of_checkGroup hdepth hgroup, h⟩

theorem bounded_of_checkFrom {i : Nat} {before : Option Entry} {entries : List Entry}
    (h : checkFrom i before entries = .ok ()) : ∀ entry ∈ entries, Bounded entry := by
  induction entries generalizing i before with
  | nil => simp
  | cons entry entries ih =>
    obtain ⟨_, hentry, hrest⟩ := checkFrom_cons h
    intro e he
    rcases List.mem_cons.mp he with rfl | he
    · exact hentry
    · exact ih hrest e he

theorem bounded_of_validate {schema : Schema} (h : schema.validate = .ok ()) :
    ∀ entry ∈ schema, Bounded entry := bounded_of_checkFrom h

theorem falling_plant {σ : Type} {i : Nat} {before : Option Entry} {entries : List Entry}
    {slots : List σ} (h : checkFrom i before entries = .ok ()) :
    (Forest.plant entries slots).Falling (depthAfter before) := by
  induction entries generalizing i before slots with
  | nil => cases slots <;> trivial
  | cons entry entries ih =>
    cases slots with
    | nil => trivial
    | cons slot slots =>
      obtain ⟨hdepth, _, hrest⟩ := checkFrom_cons h
      have hfall : (Forest.plant entries slots).Falling (depthAfter (some entry)) := ih hrest
      simp only [depthAfter] at hfall
      cases hheader : entry.headerOnly with
      | false =>
        simp only [hheader, Bool.false_eq_true, if_false] at hfall
        simp only [Forest.plant, Forest.split_of_falling hfall]
        exact ⟨hdepth, fun _ => rfl, trivial, hfall⟩
      | true =>
        simp only [hheader, if_true] at hfall
        have hsplit := Forest.falling_split hfall (Nat.le_refl _)
        exact ⟨hdepth, by simp [hheader], hsplit.1, hsplit.2⟩

theorem nested_plant {σ : Type} {schema : Schema} (h : schema.validate = .ok ())
    (slots : List σ) : (Forest.plant schema slots).Nested 0 :=
  Forest.nested_of_falling_zero (falling_plant h)

theorem depth_le_of_checkFrom {i j : Nat} {before : Option Entry} {entries : List Entry}
    {entry : Entry} (h : checkFrom i before entries = .ok ()) (hentry : entries[j]? = some entry) :
    entry.depth ≤ depthAfter (if j = 0 then before else entries[j - 1]?) := by
  induction entries generalizing i j before with
  | nil => cases hentry
  | cons first rest ih =>
    obtain ⟨hdepth, _, hrest⟩ := checkFrom_cons h
    cases j with
    | zero =>
      cases hentry
      exact hdepth
    | succ j =>
      have hle := ih hrest hentry
      cases j <;> exact hle

theorem depth_succ_le {schema : Schema} {i : Nat} {before entry : Entry}
    (h : schema.validate = .ok ()) (hbefore : schema[i]? = some before)
    (hentry : schema[i + 1]? = some entry) : entry.depth ≤ depthAfter (some before) := by
  have hle := depth_le_of_checkFrom h hentry
  rwa [if_neg (Nat.succ_ne_zero i), Nat.add_sub_cancel, hbefore] at hle

theorem depth_subtreeEnd_le {schema : Schema} {i : Nat} {before entry : Entry}
    (hbefore : schema[i]? = some before) (hentry : schema[schema.subtreeEnd i]? = some entry) :
    entry.depth ≤ before.depth := by
  simp only [subtreeEnd, hbefore] at hentry
  rw [← List.getElem?_drop] at hentry
  generalize schema.drop (i + 1) = rest at hentry
  have hfirst := List.head?_dropWhile_not (fun e => decide (before.depth < e.depth)) rest
  generalize hnested : rest.takeWhile (fun e => decide (before.depth < e.depth)) = nested at hentry
  rw [← List.takeWhile_append_dropWhile (p := fun e => decide (before.depth < e.depth)) (l := rest),
    hnested, List.getElem?_append_right (Nat.le_refl _), Nat.sub_self,
    ← List.head?_eq_getElem?] at hentry
  rw [hentry] at hfirst
  simpa using hfirst

end Schema

end DerTemplate

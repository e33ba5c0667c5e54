import DerTemplate.Proofs.Schema.Place

namespace DerTemplate

namespace Forest

variable {σ : Type}

structure Legal (forest : Forest σ) : Prop where
  nested : forest.Nested 0
  bounded : forest.All fun entry _ => Schema.Bounded entry

def first : Forest σ → Option Entry
  | nil => none
  | node entry _ _ _ => some entry

def above : Forest σ → Nat → List Nat
  | nil, _ => []
  | node _ _ _ _, 0 => []
  | node _ _ below next, i + 1 =>
    if i < below.size then (below.above i).map (1 + ·) ++ [0]
    else (next.above (i - below.size)).map (1 + below.size + ·)

def previous : Option Entry → Forest σ → Nat → Option Entry
  | _, nil, _ => none
  | before, node _ _ _ _, 0 => before
  | _, node entry _ below next, i + 1 =>
    if i < below.size then below.previous none i
    else next.previous (some entry) (i - below.size)

def following : Forest σ → Nat → Option Entry
  | nil, _ => none
  | node _ _ _ next, 0 => next.first
  | node _ _ below next, i + 1 =>
    if i < below.size then below.following i else next.following (i - below.size)

theorem map_first (forest : Forest σ) : forest.first.map Entry.presence = forest.firstPresence := by
  cases forest <;> rfl

end Forest

namespace Schema

variable {σ : Type} {entry : Entry} {before : Option Entry} {rest : List Entry} {i : Nat}

section Validity

theorem checkNesting_of_le (hdepth : entry.depth ≤ depthAfter before) :
    checkNesting i entry before = .ok () := by
  cases before with
  | none => exact if_pos (Nat.le_zero.mp hdepth)
  | some outer =>
    refine if_neg ?_
    rintro ⟨hdeeper, hnest⟩
    unfold depthAfter at hdepth
    cases hheader : outer.headerOnly <;> simp [hheader] at hdepth hnest <;> omega

theorem checkGroup_of_bounded (h : Bounded entry) : checkGroup i entry = .ok () := by
  unfold checkGroup
  cases hgroup : entry.choiceGroup with
  | none => rfl
  | some group =>
    obtain ⟨hzero, hlimit⟩ := h.2 group (Entry.choiceGroup_eq_some.mp hgroup)
    exact if_neg (by omega)

theorem checkFrom_cons_of (hdepth : entry.depth ≤ depthAfter before) (hbounded : Bounded entry)
    (hrest : checkFrom (i + 1) (some entry) rest = .ok ()) :
    checkFrom i before (entry :: rest) = .ok () := by
  rw [checkFrom, if_neg (Nat.not_le.mpr hbounded.1), checkNesting_of_le hdepth, ok_bind,
    checkGroup_of_bounded hbounded, ok_bind, hrest]

theorem checkFrom_schema {forest : Forest σ} {depth : Nat} (hnested : forest.Nested depth)
    (hbounded : forest.All fun entry _ => Bounded entry) (hdepth : depth ≤ depthAfter before)
    (hrest : ∀ i before, depth ≤ depthAfter before → checkFrom i before rest = .ok ()) :
    checkFrom i before (forest.schema ++ rest) = .ok () := by
  induction forest generalizing depth i before rest with
  | nil => exact hrest i before hdepth
  | node entry slot below next ihb ihn =>
    obtain ⟨rfl, hleaf, hnestedBelow, hnestedNext⟩ := hnested
    obtain ⟨hentry, hboundedBelow, hboundedNext⟩ := hbounded
    have hnext (i : Nat) (before : Option Entry) (hbefore : entry.depth ≤ depthAfter before) :
        checkFrom i before (next.schema ++ rest) = .ok () :=
      ihn hnestedNext hboundedNext hbefore hrest
    rw [Forest.schema, List.cons_append, List.append_assoc]
    refine checkFrom_cons_of hdepth hentry ?_
    cases hheader : entry.headerOnly with
    | true =>
      have hinside : depthAfter (some entry) = entry.depth + 1 := by simp [depthAfter, hheader]
      exact ihb hnestedBelow hboundedBelow (Nat.le_of_eq hinside.symm) fun i before hbefore =>
        hnext i before (Nat.le_of_succ_le hbefore)
    | false =>
      have hbeside : depthAfter (some entry) = entry.depth := by simp [depthAfter, hheader]
      rw [hleaf hheader]
      exact hnext _ _ (Nat.le_of_eq hbeside.symm)

theorem validate_of_legal {forest : Forest σ} (h : forest.Legal) :
    forest.schema.validate = .ok () := by
  have hchecked : checkFrom 0 none (forest.schema ++ []) = .ok () :=
    checkFrom_schema h.nested h.bounded (Nat.le_refl 0) fun _ _ _ => rfl
  rwa [List.append_nil] at hchecked

theorem legal_plant {schema : Schema} {slots : List σ} (h : schema.validate = .ok ())
    (hlength : slots.length = schema.length) : (Forest.plant schema slots).Legal where
  nested := nested_plant h slots
  bounded := by
    refine Forest.all_of_forall fun pair hpair => bounded_of_validate h pair.1 ?_
    rw [Forest.schema_plant hlength] at hpair
    exact (List.of_mem_zip hpair).1

end Validity

structure Located (schema : Schema) (slots : List σ) (place : Place σ) (before : Option Entry)
    (forest : Forest σ) (i : Nat) (inner : Place σ) (entry : Entry) (slot : σ)
    (below next : Forest σ) : Prop where
  index : inner.index = place.index + i
  holds : inner.Holds schema slots (.node entry slot below next)
  subtree : forest.subtree i = .node entry slot below .nil
  above : around inner.depth inner.pre =
    (forest.above i).map (place.index + ·) ++ around place.depth place.pre
  previous : siblingBefore inner.depth inner.pre = (forest.previous before i).map Entry.presence
  following : forest.following i = next.first

theorem exists_located {schema : Schema} {slots : List σ} {place : Place σ} {forest : Forest σ}
    (h : place.Holds schema slots forest)
    (hbefore : siblingBefore place.depth place.pre = before.map Entry.presence)
    (hi : i < forest.size) :
    ∃ inner entry slot below next,
      Located schema slots place before forest i inner entry slot below next := by
  induction forest generalizing place before i with
  | nil => exact absurd hi (Nat.not_lt_zero i)
  | node root rootSlot below next ihb ihn =>
    rcases Forest.index_cases below.size i with rfl | ⟨j, hj, rfl⟩ | ⟨j, rfl⟩
    · exact ⟨place, root, rootSlot, below, next, rfl, h, rfl, rfl, hbefore, rfl⟩
    · have hfirst : siblingBefore (place.depth + 1) (place.pre ++ [root]) =
        Option.map Entry.presence none := siblingBefore_below h.depth
      obtain ⟨inner, entry, slot, inside, behind, hlocated⟩ := ihb h.holds_enter hfirst hj
      refine ⟨inner, entry, slot, inside, behind, ?_, hlocated.holds, ?_, ?_, ?_, ?_⟩
      · rw [hlocated.index, Place.below]
        dsimp only
        omega
      · rw [Forest.subtree, if_pos hj, hlocated.subtree]
      · have houter : around (place.depth + 1) (place.pre ++ [root]) =
            place.index :: around place.depth place.pre := by
          rw [around_below h.depth, h.index]
        rw [hlocated.above, Forest.above, if_pos hj, Place.below]
        dsimp only
        rw [houter]
        simp [Nat.add_assoc]
      · rw [hlocated.previous, Forest.previous, if_pos hj]
      · rw [Forest.following, if_pos hj, hlocated.following]
    · have hnot : ¬j + below.size < below.size := by omega
      have hbeside : siblingBefore place.depth (place.pre ++ root :: below.schema) =
          Option.map Entry.presence (some root) :=
        siblingBefore_next h.depth h.nested_below
      have hbehind : j < next.size := by
        rw [Forest.size] at hi
        omega
      obtain ⟨inner, entry, slot, inside, behind, hlocated⟩ := ihn h.holds_skip hbeside hbehind
      refine ⟨inner, entry, slot, inside, behind, ?_, hlocated.holds, ?_, ?_, ?_, ?_⟩
      · rw [hlocated.index, Place.next]
        dsimp only
        omega
      · rw [Forest.subtree, if_neg hnot, Nat.add_sub_cancel, hlocated.subtree]
      · rw [hlocated.above, Forest.above, if_neg hnot, Nat.add_sub_cancel, Place.next]
        dsimp only
        rw [around_next h.depth h.nested_below]
        simp [Nat.add_assoc]
      · rw [hlocated.previous, Forest.previous, if_neg hnot, Nat.add_sub_cancel]
      · rw [Forest.following, if_neg hnot, Nat.add_sub_cancel, hlocated.following]

theorem map_presence_ne_iff {sibling : Option Entry} {presence : Presence} :
    (sibling.map Entry.presence != some presence) = true ↔
      ∀ e ∈ sibling, e.presence ≠ presence := by
  cases sibling <;> simp

theorem validate_iff_spells (schema : Schema) :
    (schema.validate = .ok () ↔ ∃ forest : Forest Unit, forest.Legal ∧ forest.schema = schema) ∧
    ∀ forest : Forest Unit, forest.Legal → forest.schema = schema →
      ∀ i entry, schema[i]? = some entry →
        schema.subtreeEnd i = i + (forest.subtree i).size ∧
        schema.ancestors i = forest.above i ∧
        (schema.startsRun i = true ↔
          ∀ sibling ∈ forest.previous none i, sibling.presence ≠ entry.presence) ∧
        (schema.endsRun i (schema.subtreeEnd i) = true ↔
          ∀ sibling ∈ forest.following i, sibling.presence ≠ entry.presence) := by
  constructor
  · constructor
    · intro hvalid
      have hlength : (List.replicate schema.length ()).length = schema.length :=
        List.length_replicate
      exact ⟨_, legal_plant hvalid hlength, Forest.schema_plant hlength⟩
    · rintro ⟨forest, hlegal, rfl⟩
      exact validate_of_legal hlegal
  · rintro forest hlegal rfl i entry hentry
    have hroot : Place.root.Holds forest.schema forest.slots forest :=
      ⟨hlegal.nested, nofun, rfl, rfl, (List.append_nil _).symm, (List.append_nil _).symm⟩
    have hfirst : siblingBefore 0 [] = Option.map Entry.presence none := siblingBefore_nil 0
    obtain ⟨inner, found, slot, below, next, hindex, hholds, hsubtree, habove, hprevious,
      hfollowing⟩ := exists_located hroot hfirst (Forest.lt_size hentry)
    rw [Place.root, Nat.zero_add] at hindex
    subst hindex
    have hsame : found = entry := Option.some.inj (hholds.getElem_schema.symm.trans hentry)
    subst hsame
    have hat : inner.pre.length = inner.index := hholds.index.symm
    refine ⟨?_, ?_, ?_, ?_⟩
    · rw [hholds.subtreeEnd, hsubtree, Forest.size, Forest.size]
      omega
    · have hancestors := ancestors_append inner.pre
        (below.schema ++ (next.schema ++ inner.post)) found
      rw [← hholds.schema_cut, hat, hholds.depth, habove] at hancestors
      simpa [Place.root, around, climb] using hancestors
    · have hstarts := startsRun_append inner.pre
        (below.schema ++ (next.schema ++ inner.post)) found
      rw [← hholds.schema_cut, hat, hholds.depth, hprevious] at hstarts
      rw [hstarts, map_presence_ne_iff]
    · rw [hholds.subtreeEnd, hholds.endsRun, ← Forest.map_first, map_presence_ne_iff, hfollowing]

def alternatives : Forest Unit :=
  .node (.sequence 0) ()
    (.node ((Entry.leaf 1 Tag.integer).choice 1) () .nil
      (.node ((Entry.explicit 1 0).choice 1) () (.node (.leaf 2 0x05) () .nil .nil)
        (.node ((Entry.leaf 1 0x05).choice 1) () .nil
          (.node (.leaf 1 Tag.boolean) () .nil .nil))))
    .nil

theorem validate_iff_spells_alternatives :
    alternatives.Legal ∧ alternatives.schema.validate = .ok () ∧
    alternatives.schema.subtreeEnd 2 = 4 ∧ alternatives.schema.ancestors 3 = [2, 0] ∧
    alternatives.schema.startsRun 1 = true ∧ ¬alternatives.schema.startsRun 4 = true ∧
    alternatives.schema.endsRun 4 (alternatives.schema.subtreeEnd 4) = true := by
  have hplanted : (Forest.plant alternatives.schema alternatives.slots).Legal :=
    legal_plant rfl rfl
  have hlegal : alternatives.Legal := hplanted
  obtain ⟨hvalid, hkin⟩ := validate_iff_spells alternatives.schema
  obtain ⟨_, _, hfirst, _⟩ := hkin alternatives hlegal rfl 1 _ rfl
  obtain ⟨hsubtree, _⟩ := hkin alternatives hlegal rfl 2 _ rfl
  obtain ⟨_, habove, _⟩ := hkin alternatives hlegal rfl 3 _ rfl
  obtain ⟨_, _, hinside, hlast⟩ := hkin alternatives hlegal rfl 4 _ rfl
  exact ⟨hlegal, hvalid.mpr ⟨alternatives, hlegal, rfl⟩, hsubtree, habove, hfirst.mpr nofun,
    fun hstarts => hinside.mp hstarts _ rfl rfl, hlast.mpr (by decide)⟩

end Schema

end DerTemplate

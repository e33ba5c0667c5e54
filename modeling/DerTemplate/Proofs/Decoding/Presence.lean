import DerTemplate.Proofs.Decoding.Arrangement

namespace DerTemplate.Decoding

open Schema

variable {input : Bytes} {schema : Schema} {slots : List Slot} {place : Place Slot}
variable {forest : Forest Slot} {stop pos reached : Nat} {more : Bool} {met : Option Nat}
variable {parent : Option Nat} {i j group : Nat}

def isPresent (slots : List Slot) (i : Nat) : Bool := slots[i]?.any Slot.present

theorem isPresent_eq {slot : Slot} (h : slots[i]? = some slot) :
    isPresent slots i = slot.present := by
  rw [isPresent, h, Option.any_some]

theorem isPresent_iff :
    isPresent slots i = true ↔ ∃ slot, slots[i]? = some slot ∧ slot.present = true := by
  simp only [isPresent, Option.any_eq_true]

theorem lt_of_isPresent (h : isPresent slots i = true) : i < slots.length := by
  obtain ⟨slot, hslot, _⟩ := isPresent_iff.mp h
  exact (List.getElem?_eq_some_iff.mp hslot).1

-- A part of an arranged forest, or of what an absent entry nests.
def Part (input : Bytes) (more : Bool) (forest : Forest Slot) : Prop :=
  (∃ stop closed met pos reached, (more = true → closed = true) ∧
    Arranged input forest stop closed met pos reached) ∨
  ∃ pos, forest.All fun _ s => s.AbsentAt pos

theorem part_parts (entry : Entry) (slot : Slot) (below next : Forest Slot)
    (h : Part input more (.node entry slot below next)) :
    Part input more below ∧ Part input more next := by
  rcases h with ⟨stop, closed, met, pos, reached, hclosed, harranged⟩ | ⟨pos, _, hbelow, hnext⟩
  · cases harranged with
    | absent _ hbelow _ _ hnext =>
      exact ⟨.inr ⟨_, hbelow⟩, .inl ⟨_, _, _, _, _, hclosed, hnext⟩⟩
    | present _ _ _ _ hbelow _ _ hnext =>
      refine ⟨.inl ⟨_, _, _, _, _, ?_, hbelow⟩, .inl ⟨_, _, _, _, _, hclosed, hnext⟩⟩
      intro hmore
      rw [hclosed hmore, Bool.true_or]
  · exact ⟨.inr ⟨pos, hbelow⟩, .inr ⟨pos, hnext⟩⟩

theorem absent_of_all (h : place.Holds schema slots forest)
    (habsent : forest.All fun _ s => s.AbsentAt pos) (hfirst : place.index ≤ i)
    (hlast : i < place.index + forest.size) :
    ∃ slot, slots[i]? = some slot ∧ slot.AbsentAt pos := by
  obtain ⟨inner, entry, slot, below, next, rfl, hinner, hslot, _⟩ :=
    h.locate habsent (fun _ _ _ _ hall => hall.2) hfirst hlast
  exact ⟨slot, hinner.getElem_slots, hslot⟩

section Whole

variable (h : Place.root.Holds schema slots forest)
variable (harranged : Arranged input forest stop more met pos reached)
include h harranged

theorem part_at (hi : i < slots.length) :
    ∃ (inner : Place Slot) (entry : Entry) (slot : Slot) (below next : Forest Slot),
      inner.index = i ∧ inner.Holds schema slots (.node entry slot below next) ∧
        Part input more (.node entry slot below next) := by
  refine h.locate (.inl ⟨_, _, _, _, _, id, harranged⟩) part_parts (Nat.zero_le i) ?_
  rw [h.slots] at hi
  simpa [Place.root] using hi

theorem inside_present {slot : Slot} (hslot : slots[i]? = some slot)
    (hpresent : slot.present = true) :
    ∃ (inner : Place Slot) (entry : Entry) (below next : Forest Slot) (closed : Bool) (last : Nat),
      inner.index = i ∧ inner.Holds schema slots (.node entry slot below next) ∧
        (∃ octets, Delimits input slot octets) ∧
        Arranged input below slot.stop closed none slot.contentOffset last ∧
        (more = true → closed = true ∧ (entry.headerOnly = true → last = slot.stop)) := by
  obtain ⟨inner, entry, found, below, next, rfl, hinner, hpart⟩ :=
    part_at h harranged (List.getElem?_eq_some_iff.mp hslot).1
  obtain rfl := Option.some.inj (hslot.symm.trans hinner.getElem_slots)
  rcases hpart with ⟨_, _, _, _, _, hclosed, hpart⟩ | ⟨_, habsent, _⟩
  · cases hpart with
    | absent habsent =>
      rw [habsent.1] at hpresent
      cases hpresent
    | present _ _ hdelimits _ hbelow _ hheader _ =>
      refine ⟨inner, entry, below, next, _, _, rfl, hinner, hdelimits, hbelow, ?_⟩
      intro hmore
      rw [hclosed hmore, Bool.true_or] at hheader ⊢
      exact ⟨rfl, fun hh => (hheader hh).2 rfl⟩
  · rw [habsent.1] at hpresent
    cases hpresent

theorem present_of_nests (hnests : schema.Nests i j) (hj : isPresent slots j = true) :
    isPresent slots i = true := by
  have hlength := lt_of_isPresent hj
  obtain ⟨inner, entry, slot, below, next, rfl, hinner, hpart⟩ :=
    part_at h harranged (Nat.lt_trans hnests.1 hlength)
  have hend := hnests.2
  rw [hinner.subtreeEnd] at hend
  have habsent {pos : Nat} (hbelow : below.All fun _ s => s.AbsentAt pos) : False := by
    obtain ⟨found, hfound, habsent⟩ := absent_of_all hinner.holds_enter hbelow hnests.1 hend
    rw [isPresent_eq hfound, habsent.1] at hj
    cases hj
  rw [isPresent_eq hinner.getElem_slots]
  rcases hpart with ⟨_, _, _, _, _, _, hpart⟩ | ⟨_, _, hbelow, _⟩
  · cases hpart with
    | absent _ hbelow => exact (habsent hbelow).elim
    | present hpresent => exact hpresent
  · exact (habsent hbelow).elim

theorem arranged_siblings (hmet : met = none) (hparent : ∀ p ∈ parent, isPresent slots p = true) :
    ∃ (inner : Place Slot) (below : Forest Slot) (stop : Nat) (closed : Bool) (start last : Nat),
      inner.Holds schema slots below ∧ Arranged input below stop closed none start last ∧
        schema.siblings parent = below.rootIndices inner.index := by
  cases parent with
  | none =>
    exact ⟨Place.root, forest, stop, more, pos, reached, h, hmet ▸ harranged, h.siblings_root⟩
  | some p =>
    obtain ⟨slot, hslot, hpresent⟩ := isPresent_iff.mp (hparent p rfl)
    obtain ⟨inner, entry, below, next, closed, last, rfl, hinner, _, hbelow, _⟩ :=
      inside_present h harranged hslot hpresent
    exact ⟨_, below, slot.stop, closed, slot.contentOffset, last, hinner.holds_enter, hbelow,
      hinner.siblings_below⟩

end Whole

theorem required_present (h : place.Holds schema slots forest)
    (harranged : Arranged input forest stop more met pos reached)
    (hi : i ∈ forest.rootIndices place.index) {entry : Entry} (hentry : schema[i]? = some entry)
    (hrequired : entry.presence = .required) : isPresent slots i = true := by
  induction forest generalizing place met pos with
  | nil => cases hi
  | node root slot below next _ ihn =>
    rcases List.mem_cons.mp hi with rfl | hi
    · obtain rfl := Option.some.inj (hentry.symm.trans h.getElem_schema)
      rw [isPresent_eq h.getElem_slots]
      cases harranged with
      | absent _ _ hfree => exact absurd hrequired hfree
      | present hpresent => exact hpresent
    · cases harranged with
      | absent _ _ _ _ hnext => exact ihn h.holds_skip hnext hi
      | present _ _ _ _ _ _ _ hnext => exact ihn h.holds_skip hnext hi

theorem follows_of_checkRun {entry : Entry} {after : Option Presence}
    (h : checkRun entry after false = .ok ()) (hgroup : entry.presence = .choice group) :
    after = some (.choice group) := by
  simp only [checkRun, hgroup, refuse] at h
  split at h
  · cases h
  · rename_i hgoes
    simpa using hgoes

theorem present_in_run (h : place.Holds schema slots forest)
    (harranged : Arranged input forest stop more met pos reached) {run after : List Nat}
    (hroots : forest.rootIndices place.index = run ++ after)
    (hmembers : ∀ i ∈ run, schema.InGroup group i)
    (hlast : ∀ i ∈ after.head?, ¬schema.InGroup group i) :
    (run.filter (isPresent slots)).length = if met = some group ∨ run = [] then 0 else 1 := by
  induction forest generalizing place met pos run with
  | nil =>
    obtain ⟨rfl, _⟩ := List.append_eq_nil_iff.mp hroots.symm
    simp
  | node entry slot below next _ ihn =>
    cases run with
    | nil => simp
    | cons i run =>
      obtain ⟨rfl, hnext⟩ := List.cons.inj hroots
      obtain ⟨e, he, hgroup⟩ := hmembers place.index List.mem_cons_self
      obtain rfl := Option.some.inj (h.getElem_schema.symm.trans he)
      have hmembers (i : Nat) (hi : i ∈ run) : schema.InGroup group i :=
        hmembers i (List.mem_cons_of_mem _ hi)
      have htaken : isTaken met entry = true ↔ met = some group := by
        rw [isTaken_eq_true, hgroup]
        constructor
        · rintro ⟨_, hmet, ⟨⟩⟩
          exact hmet
        · intro hmet
          exact ⟨group, hmet, rfl⟩
      cases harranged with
      | present hpresent _ _ hfree _ _ _ hlater =>
        have hopen : met ≠ some group := fun hmet => by rw [htaken.mpr hmet] at hfree; cases hfree
        have hcount := ihn h.holds_skip hlater hnext hmembers
        rw [if_pos (.inl (Entry.choiceGroup_eq_some.mpr hgroup))] at hcount
        rw [List.filter_cons_of_pos (by rw [isPresent_eq h.getElem_slots, hpresent]),
          List.length_cons, hcount, if_neg (by simp [hopen])]
      | absent habsent _ _ hrun hlater =>
        have hcount := ihn h.holds_skip hlater hnext hmembers
        rw [List.filter_cons_of_neg (by rw [isPresent_eq h.getElem_slots, habsent.1]; nofun)]
        by_cases hmet : met = some group
        · rw [htaken.mpr hmet, if_pos rfl, if_pos (.inl hmet)] at hcount
          rw [hcount, if_pos (.inl hmet)]
        · have hfree := Bool.eq_false_iff.mpr fun h => hmet (htaken.mp h)
          -- the descent has not left the last of a run that is without a member
          have hgoes : run ≠ [] := by
            rintro rfl
            rw [hfree] at hrun
            have hfollows := follows_of_checkRun hrun hgroup
            cases next with
            | nil => cases hfollows
            | node e s b n =>
              refine hlast (place.index + 1 + below.size) ?_ ⟨e, h.holds_skip.getElem_schema, ?_⟩
              · have hafter : (Forest.node e s b n).rootIndices _ = after := hnext
                rw [← hafter]
                rfl
              · exact Option.some.inj hfollows
          rw [hfree, if_neg Bool.false_ne_true, if_neg (by simp [hgoes])] at hcount
          rw [hcount, if_neg (by simp [hmet])]

theorem present_in_siblings (h : place.Holds schema slots forest)
    (harranged : Arranged input forest stop more met pos reached) {before run after : List Nat}
    (hroots : forest.rootIndices place.index = before ++ (run ++ after)) (hrun : run ≠ [])
    (hmembers : ∀ i ∈ run, schema.InGroup group i)
    (hfirst : ∀ i ∈ before.getLast?, ¬schema.InGroup group i)
    (hlast : ∀ i ∈ after.head?, ¬schema.InGroup group i)
    (hmet : before = [] → met ≠ some group) :
    (run.filter (isPresent slots)).length = 1 := by
  induction before generalizing forest place met pos with
  | nil =>
    rw [List.nil_append] at hroots
    have hcount := present_in_run h harranged hroots hmembers hlast
    rwa [if_neg (by simp [hmet rfl, hrun])] at hcount
  | cons i before ih =>
    cases forest with
    | nil => cases hroots
    | node entry slot below next =>
      obtain ⟨rfl, hnext⟩ := List.cons.inj hroots
      have hother (hend : before = []) : entry.presence ≠ .choice group := by
        subst hend
        intro hgroup
        exact hfirst place.index rfl ⟨entry, h.getElem_schema, hgroup⟩
      have hfirst (i : Nat) (hi : i ∈ before.getLast?) : ¬schema.InGroup group i := by
        refine hfirst i ?_
        cases before with
        | nil => cases hi
        | cons b before => rwa [List.getLast?_cons_cons]
      cases harranged with
      | present _ _ _ _ _ _ _ hlater =>
        refine ih h.holds_skip hlater hnext hfirst ?_
        intro hend hgroup
        exact hother hend (Entry.choiceGroup_eq_some.mp hgroup)
      | absent _ _ _ _ hlater =>
        refine ih h.holds_skip hlater hnext hfirst ?_
        intro hend hgroup
        split at hgroup
        · rename_i htaken
          obtain ⟨_, hmet, hchoice⟩ := isTaken_eq_true.mp htaken
          rw [hgroup] at hmet
          cases hmet
          exact hother hend hchoice
        · cases hgroup

theorem presence_of_decode {session found : Session} {options : Options} {complete : Bool}
    {maxIndex : Nat} (hinput : input.length < wordLimit)
    (h : session.decode options schema input complete maxIndex = .ok found) :
    (∀ i j, schema.Nests i j → isPresent found.slots j = true → isPresent found.slots i = true) ∧
      ∀ parent : Option Nat, (∀ p ∈ parent, isPresent found.slots p = true) →
        (∀ i ∈ schema.siblings parent, ∀ entry, schema[i]? = some entry →
          entry.presence = .required → isPresent found.slots i = true) ∧
        ∀ group before run after, schema.Run parent group before run after →
          (run.filter (isPresent found.slots)).length = 1 := by
  obtain ⟨filled, hholds, harranged, _⟩ := arranged_of_decode hinput h
  refine ⟨fun i j => present_of_nests hholds harranged, ?_⟩
  intro parent hparent
  obtain ⟨inner, below, stop, closed, start, last, hinner, hbelow, hsiblings⟩ :=
    arranged_siblings hholds harranged rfl hparent
  rw [hsiblings]
  refine ⟨?_, ?_⟩
  · intro i hi entry hentry hrequired
    exact required_present hinner hbelow hi hentry hrequired
  · intro group before run after hrun
    exact present_in_siblings hinner hbelow (hsiblings.symm.trans hrun.siblings) hrun.nonempty
      hrun.members hrun.first hrun.last (fun _ => nofun)

def reusedSchema : Schema :=
  [.sequence 0, (Entry.explicit 1 0).choice 1, (Entry.leaf 2 Tag.boolean).choice 1,
    (Entry.leaf 2 Tag.integer).choice 1, (Entry.leaf 1 Tag.integer).choice 1,
    .leaf 1 Tag.bitString, (Entry.leaf 1 Tag.boolean).choice 1, (Entry.implicit 1 4).choice 1]

def reusedSession : Session :=
  ⟨1, reusedSchema.map fun entry => .ofDestination (if entry.headerOnly then .none else .content)⟩

def reusedInput : Bytes :=
  [0xFF, 0x30, 0x0D, 0xA0, 0x04, 0x02, 0x02, 0x00, 0x80, 0x03, 0x02, 0x03, 0xA8, 0x84, 0x01, 0xAA]

def reusedSlots : List Slot :=
  [⟨.none, .nothing, true, 0x30, 1, 3, 13, 0, false⟩,
    ⟨.none, .nothing, true, 0xA0, 3, 5, 4, 0, false⟩,
    ⟨.content, .bytes [], false, 0, 5, 5, 0, 0, false⟩,
    ⟨.content, .bytes [0x80], true, 0x02, 5, 8, 1, 0, true⟩,
    ⟨.content, .bytes [], false, 0, 9, 9, 0, 0, false⟩,
    ⟨.content, .bytes [0xA8], true, 0x03, 9, 12, 1, 3, false⟩,
    ⟨.content, .bytes [], false, 0, 13, 13, 0, 0, false⟩,
    ⟨.content, .bytes [0xAA], true, 0x84, 13, 15, 1, 0, false⟩]

theorem decode_reused :
    reusedSession.decode .strict reusedSchema reusedInput true 20 = .ok ⟨16, reusedSlots⟩ :=
  (decode_eq_ok_iff (by decide)).mpr ⟨rfl, by decide +kernel, rfl⟩

theorem presence_of_decode_reused :
    reusedSession.decode .strict reusedSchema reusedInput true 20 = .ok ⟨16, reusedSlots⟩ ∧
      (∀ i j, reusedSchema.Nests i j → isPresent reusedSlots j = true →
        isPresent reusedSlots i = true) ∧
      ([1, 4].filter (isPresent reusedSlots)).length = 1 ∧
      ([2, 3].filter (isPresent reusedSlots)).length = 1 ∧
      ([6, 7].filter (isPresent reusedSlots)).length = 1 := by
  obtain ⟨hnests, hopen⟩ := presence_of_decode (by decide) decode_reused
  have houter := (hopen (some 0) (by decide)).2 1
  have hinner := (hopen (some 1) (by decide)).2 1
  exact ⟨decode_reused, hnests, houter [] [1, 4] [5, 6, 7] (by decide),
    hinner [] [2, 3] [] (by decide), houter [1, 4, 5] [6, 7] [] (by decide)⟩

end DerTemplate.Decoding

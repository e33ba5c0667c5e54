import DerTemplate.Proofs.Decoding.Standing
import DerTemplate.Proofs.Schema.Place

namespace DerTemplate.Decoding

open Schema

structure Fresh (forest : Forest Slot) : Prop where
  bounded : ∀ e ∈ forest.schema, Bounded e
  blank : ∀ slot ∈ forest.slots, slot = .ofDestination slot.destination

variable {options : Options} {schema : Schema} {input : Bytes} {complete : Bool} {window : Nat}
variable {place : Place Slot} {entry : Entry} {slot : Slot} {below next : Forest Slot}

section

variable (h : Fresh (.node entry slot below next))
include h

theorem Fresh.bounded_entry : Bounded entry := h.bounded entry (by simp [Forest.schema])

theorem Fresh.blank_slot : slot = .ofDestination slot.destination :=
  h.blank slot (by simp [Forest.slots])

theorem Fresh.nested : Fresh below :=
  ⟨fun e he => h.bounded e (by simp [Forest.schema, he]),
    fun s hs => h.blank s (by simp [Forest.slots, hs])⟩

theorem Fresh.siblings : Fresh next :=
  ⟨fun e he => h.bounded e (by simp [Forest.schema, he]),
    fun s hs => h.blank s (by simp [Forest.slots, hs])⟩

end

theorem absentBetween_place {slots : List Slot}
    (h : place.Holds schema slots (.node entry slot below next)) (idx : Nat) :
    absentBetween slots place.index (place.index + 1 + below.size) idx =
      place.preSlots ++ ((slot :: below.slots).map (fun s => s.markAbsent idx) ++
        (next.slots ++ place.postSlots)) := by
  rw [← absentBetween_append, h.slots_cut, h.aligned, h.index, List.length_cons, Forest.length_slots]
  congr 1
  omega

def Continues (place : Place Slot) (options : Options) (schema : Schema) (input : Bytes)
    (complete : Bool) (window : Nat) (walk : Walk) (forest : Forest Slot)
    (resume : List Slot → Nat → Outcome (List Slot × Nat)) : Prop :=
  ∀ later found, found.length = forest.size →
    walk.Resumes place.depth forest.firstPresence later →
    later.slots = place.preSlots ++ (found ++ place.postSlots) →
    later.conclude options schema input complete window (place.index + forest.size) =
      resume found later.idx

def Concludes (options : Options) (schema : Schema) (input : Bytes) (complete : Bool) (window : Nat)
    (forest : Forest Slot) : Prop :=
  ∀ (place : Place Slot) (walk : Walk) (stop : Nat) (met : Option Nat)
    (resume : List Slot → Nat → Outcome (List Slot × Nat)),
    walk.Stands input place.depth stop (siblingBefore place.depth place.pre) met →
    place.Holds schema walk.slots forest → Fresh forest →
    Continues place options schema input complete window walk forest resume →
    walk.conclude options schema input complete window place.index =
      (descend options input forest place.index stop (complete || !place.post.isEmpty) met walk.idx
        >>= fun found => resume found.1 found.2)

section Node

variable {walk : Walk} {stop : Nat} {met : Option Nat}
variable {resume : List Slot → Nat → Outcome (List Slot × Nat)}
variable (hnext : Concludes options schema input complete window next)
variable (hstands : walk.Stands input place.depth stop (siblingBefore place.depth place.pre) met)
variable (hholds : place.Holds schema walk.slots (.node entry slot below next))
variable (hfresh : Fresh (.node entry slot below next))
variable (hcontinues : Continues place options schema input complete window walk
  (.node entry slot below next) resume)
include hnext hholds hfresh hcontinues

theorem conclude_next {mine : List Slot} {last : Walk} {member : Option Nat}
    (hmine : mine.length = 1 + below.size)
    (hlast : last.Stands input place.depth stop (some entry.presence) member)
    (hslots : last.slots = place.preSlots ++ (mine ++ (next.slots ++ place.postSlots)))
    (hback : ∀ later, last.Resumes place.depth next.firstPresence later →
      walk.Resumes place.depth (some entry.presence) later) :
    last.conclude options schema input complete window (place.index + 1 + below.size) =
      (descend options input next (place.index + 1 + below.size) stop
        (complete || !place.post.isEmpty) member last.idx >>= fun found =>
          resume (mine ++ found.1) found.2) := by
  have hbefore : siblingBefore place.depth (place.pre ++ entry :: below.schema) =
    some entry.presence := siblingBefore_next hholds.depth hholds.nested_below
  refine hnext (place.next entry below mine) last stop member
    (fun found pos => resume (mine ++ found) pos) (hbefore ▸ hlast)
    (hslots ▸ hholds.holds_next hmine) hfresh.siblings fun later found hfound hlater hlaterSlots => ?_
  have hindex : (place.next entry below mine).index + next.size =
      place.index + (Forest.node entry slot below next).size := by
    simp only [Forest.size, Place.next]
    omega
  rw [hindex]
  exact hcontinues later (mine ++ found) (by simp [Forest.size, hfound, hmine])
    (hback later hlater) (by simpa [Place.next] using hlaterSlots)

include hstands

theorem conclude_passed
    (hrun : checkRun entry next.firstPresence (met.isSome && met == entry.choiceGroup) = .ok ()) :
    ({ walk.arrived schema place.index entry with
        slots := absentBetween walk.slots place.index (place.index + 1 + below.size) walk.idx } :
      Walk).conclude options schema input complete window (place.index + 1 + below.size) =
      (descend options input next (place.index + 1 + below.size) stop
        (complete || !place.post.isEmpty)
        (if met.isSome && met == entry.choiceGroup then met else none) walk.idx >>= fun found =>
          resume ((slot :: below.slots).map (fun s => s.markAbsent walk.idx) ++ found.1)
            found.2) := by
  refine conclude_next hnext hholds hfresh hcontinues (by simp; omega) ?_
    (absentBetween_place hholds walk.idx) ?_
  · rw [hholds.schema_cut, hholds.index]
    exact stands_passed hstands hholds.depth hfresh.bounded_entry _
  · rw [hholds.schema_cut, hholds.index]
    exact fun later hlater => resumes_passed hstands hholds.depth hfresh.bounded_entry hrun hlater

theorem conclude_leaf (hleaf : entry.headerOnly = false) (filled : Slot) (item : Item) :
    ((walk.arrived schema place.index entry).received place.index entry filled item).conclude options
        schema input complete window (place.index + 1) =
      (descend options input next (place.index + 1) stop (complete || !place.post.isEmpty)
        entry.choiceGroup item.stop >>= fun found => resume (filled :: found.1) found.2) := by
  have hbelow : below = .nil := hholds.leaf hleaf
  have hidx : ((walk.arrived schema place.index entry).received place.index entry filled item).idx =
    item.stop := by simp [Walk.received, hleaf]
  subst hbelow
  have hslots : ((walk.arrived schema place.index entry).received place.index entry filled
      item).slots = place.preSlots ++ ([filled] ++ (next.slots ++ place.postSlots)) :=
    hholds.set_slots filled
  rw [← hidx]
  refine conclude_next hnext hholds hfresh hcontinues rfl ?_ hslots ?_
  · rw [hholds.schema_cut, hholds.index]
    exact stands_received hstands hholds.depth hfresh.bounded_entry hleaf
  · rw [hholds.schema_cut, hholds.index]
    exact fun later hlater =>
      resumes_received hstands hholds.depth hfresh.bounded_entry hleaf hlater

theorem conclude_opened (hbelow : Concludes options schema input complete window below)
    (hheader : entry.headerOnly = true) (filled : Slot) {item : Item}
    (hitem : item.stop ≤ input.length) :
    ((walk.arrived schema place.index entry).received place.index entry filled item).conclude options
        schema input complete window (place.index + 1) =
      (descend options input below (place.index + 1) item.stop
        (complete || !place.post.isEmpty || next.size != 0) none item.contentStart >>= fun inner =>
          checkEnd (complete || !place.post.isEmpty || next.size != 0) item.stop inner.2 >>= fun _ =>
            descend options input next (place.index + 1 + below.size) stop
              (complete || !place.post.isEmpty) entry.choiceGroup inner.2 >>= fun found =>
                resume (filled :: (inner.1 ++ found.1)) found.2) := by
  have hidx : ((walk.arrived schema place.index entry).received place.index entry filled item).idx =
    item.contentStart := by simp [Walk.received, hheader]
  have hmore : (complete || !(next.schema ++ place.post).isEmpty) =
      (complete || !place.post.isEmpty || next.size != 0) := by
    cases next <;> cases place.post <;> simp [Forest.schema, Forest.size]
  have hopen : ((walk.arrived schema place.index entry).received place.index entry filled
      item).Stands input (place.depth + 1) item.stop
        (siblingBefore (place.depth + 1) (place.pre ++ [entry])) none := by
    rw [hholds.schema_cut, hholds.index]
    exact stands_opened hstands hholds.depth hfresh.bounded_entry hheader hitem
  have hfilled : ((walk.arrived schema place.index entry).received place.index entry filled
      item).slots = place.preSlots ++ filled :: (below.slots ++ (next.slots ++ place.postSlots)) :=
    hholds.set_slots filled
  rw [← hmore, ← hidx]
  refine hbelow (place.below entry filled next) _ item.stop none
    (fun inner pos => checkEnd (complete || !(next.schema ++ place.post).isEmpty) item.stop pos
      >>= fun _ => descend options input next (place.index + 1 + below.size) stop
        (complete || !place.post.isEmpty) entry.choiceGroup pos >>= fun found =>
          resume (filled :: (inner ++ found.1)) found.2) hopen
    (hfilled ▸ hholds.holds_below filled rfl) hfresh.nested ?_
  intro later inner hinner hlater hslots
  have hlast : ∀ e ∈ schema[place.index + 1 + below.size]?, e.depth ≤ place.depth := by
    rw [hholds.schema_cut, hholds.index, getElem_after]
    exact fun e he => hholds.depth ▸ hholds.leaves e he
  have hfollows : (complete || decide (place.index + 1 + below.size < schema.length)) =
      (complete || !(next.schema ++ place.post).isEmpty) := by rw [hholds.follows]
  have hlevel : later.level = place.depth + 1 := hlater.level
  rw [hholds.schema_cut, hholds.index] at hlater
  have hlimit := hholds.depth ▸ (hstands.facing hholds.depth hfresh.bounded_entry).depth
  have hregion := (ends_opened hholds.depth hlimit hheader hlater).2.1
  have hmine : (filled :: inner).length = 1 + below.size := by
    rw [List.length_cons, hinner, Nat.add_comm]
  have hsettled := conclude_next hnext hholds hfresh hcontinues hmine
    (stands_closed hstands hholds.depth hfresh.bounded_entry hheader hlater)
    (by simpa [Place.below] using hslots)
    fun last hlast => resumes_closed hstands hholds.depth hfresh.bounded_entry hheader hlater hlast
  refine (conclude_settle hlevel hregion hlast).trans ?_
  rw [hfollows, hsettled]
  rfl

end Node

theorem concludes (hword : input.length < wordLimit) (forest : Forest Slot) :
    Concludes options schema input complete window forest := by
  induction forest with
  | nil =>
    intro place walk stop met resume hstands hholds hfresh hcontinues
    exact hcontinues walk [] rfl
      ⟨hstands.level, rfl, rfl, fun _ _ => rfl, by simp [Forest.firstPresence]⟩
      (by simpa [Forest.slots] using hholds.slots)
  | node entry slot below next ihb ihn =>
    -- both look for the item of the root first; what is left has a place below it or beside it
    intro place walk stop met resume hstands hholds hfresh hcontinues
    have htaken : ∀ g ∈ entry.choiceGroup, (walk.arrivedMet schema place.index entry)[g]? =
        some (met.isSome && met == entry.choiceGroup) := by
      rw [hholds.schema_cut, hholds.index]
      exact hstands.taken_eq hholds.depth hfresh.bounded_entry
    have hnone : entry.choiceGroup = none → (met.isSome && met == entry.choiceGroup) = false := by
      intro h
      rw [h]
      cases met <;> rfl
    have hslot : walk.slots[place.index]? = some (.ofDestination slot.destination) :=
      hholds.getElem_slots.trans (congrArg some hfresh.blank_slot)
    rw [conclude_visit hholds.getElem_schema, visit_eq (hstands.facing hholds.depth hfresh.bounded_entry)
      hword hstands.within hslot hholds.subtreeEnd hholds.index_next_le hholds.endsRun htaken hnone]
    cases hseek : seek entry slot.destination input place.index stop
        (met.isSome && met == entry.choiceGroup) walk.idx with
    | error failure => simp only [descend, hseek, error_bind]
    | ok found =>
      cases found with
      | none =>
        simp only [descend, hseek, ok_bind]
        cases hrun : checkRun entry next.firstPresence (met.isSome && met == entry.choiceGroup) with
        | error failure => rfl
        | ok _ =>
          simp only [ok_bind, Bool.false_eq_true, if_false, hholds.subtreeEnd]
          rw [conclude_passed ihn hstands hholds hfresh hcontinues hrun, bind_assoc]
          rfl
      | some tag =>
        simp only [descend, hseek, ok_bind]
        cases hread : readItem options entry slot.destination input walk.idx stop tag place.index with
        | error failure => rfl
        | ok read =>
          obtain ⟨filled, item⟩ := read
          simp only [ok_bind, if_true]
          cases hheader : entry.headerOnly with
          | false =>
            rw [conclude_leaf ihn hstands hholds hfresh hcontinues hheader filled item]
            have hbelow : below = .nil := hholds.leaf hheader
            simp only [hbelow, Forest.size, Forest.slots, Nat.add_zero, Bool.false_eq_true, if_false,
              ok_bind, bind_assoc]
            rfl
          | true =>
            rw [conclude_opened ihn hstands hholds hfresh hcontinues ihb hheader filled
              (stop_le_of_readItem hread)]
            simp only [if_true, bind_assoc]
            rfl

theorem finish_eq {walk : Walk} (hlevel : walk.level = 0) :
    walk.finish complete window = checkEnd complete window walk.idx := by
  unfold Walk.finish checkEnd
  cases complete with
  | false => rfl
  | true =>
    rw [hlevel, closeLevels_self, ok_bind, if_pos rfl]
    by_cases hidx : walk.idx = window
    · rw [if_pos hidx, if_neg fun h => h.2 hidx]
      rfl
    · rw [if_neg hidx, if_pos ⟨rfl, hidx⟩]

theorem check_eq_ok_iff {session : Session} {stop : Nat} :
    session.check schema stop = .ok () ↔
      schema.validate = .ok () ∧ session.slots.length = schema.length ∧ session.cursor ≤ stop := by
  rw [Session.check, bind_eq_ok_iff]
  constructor
  · rintro ⟨_, hvalid, h⟩
    split at h
    · cases h
    · rename_i hlength
      split at h
      · cases h
      · rename_i hcursor
        exact ⟨hvalid, Classical.not_not.mp hlength, Nat.not_lt.mp hcursor⟩
  · rintro ⟨hvalid, hlength, hcursor⟩
    exact ⟨(), hvalid, by
      rw [if_neg (fun h => h hlength), if_neg (Nat.not_lt.mpr hcursor)]
      rfl⟩

theorem check_eq_ok {session : Session} {stop : Nat} (h : session.check schema stop = .ok ()) :
    schema.validate = .ok () ∧ session.slots.length = schema.length := by
  obtain ⟨hvalid, hlength, _⟩ := check_eq_ok_iff.mp h
  exact ⟨hvalid, hlength⟩

theorem check_ok {session : Session} {stop : Nat} (hvalid : schema.validate = .ok ())
    (hlength : session.slots.length = schema.length) (hcursor : session.cursor ≤ stop) :
    session.check schema stop = .ok () :=
  check_eq_ok_iff.mpr ⟨hvalid, hlength, hcursor⟩

theorem conclude_begin {slots : List Slot} {stop : Nat} (hvalid : schema.validate = .ok ())
    (hlength : slots.length = schema.length)
    (hblank : ∀ slot ∈ slots, slot = .ofDestination slot.destination)
    (hword : input.length < wordLimit) (hstop : stop ≤ input.length) (cursor : Nat) :
    (Walk.begin slots cursor stop).conclude options schema input complete stop 0 =
      (descend options input (Forest.plant schema slots) 0 stop complete none cursor >>= fun found =>
        checkEnd complete stop found.2 >>= fun _ => .ok found) := by
  have hsize : (Forest.plant schema slots).size = schema.length := by
    rw [← Forest.length_schema, Forest.schema_plant hlength]
  have hstands : (Walk.begin slots cursor stop).Stands input 0 stop (siblingBefore 0 []) none := by
    refine ⟨rfl, by simp [Walk.begin], hstop, by simp [Walk.begin], by simp [Walk.begin], by simp,
      fun g hg => ?_⟩
    rw [siblingBefore_nil] at hg
    cases hg
  have hfresh : Fresh (Forest.plant schema slots) := by
    refine ⟨?_, ?_⟩
    · rw [Forest.schema_plant hlength]
      exact bounded_of_validate hvalid
    · rwa [Forest.slots_plant hlength]
  refine (concludes hword (Forest.plant schema slots) .root (Walk.begin slots cursor stop) stop none
    (fun found pos => checkEnd complete stop pos >>= fun _ => .ok (found, pos)) hstands
    (Place.holds_root hvalid hlength) hfresh ?_).trans (by simp [Walk.begin, Place.root])
  intro later found _ hlater hslots
  rw [hsize, Place.root, Nat.zero_add, conclude_end (Nat.le_refl _), finish_eq hlater.level, hslots]
  simp [Place.root]

theorem outcome_decode {session : Session} {maxIndex : Nat}
    (hcheck : session.check schema (min maxIndex input.length) = .ok ()) :
    Attempt.outcome (session.decode options schema input complete maxIndex) =
      ((Walk.begin (session.slots.map Slot.clear) session.cursor
          (min maxIndex input.length)).conclude options schema input complete
            (min maxIndex input.length) 0 >>= fun found => .ok ⟨found.2, found.1⟩) := by
  rw [Session.decode, hcheck, Outcome.leaving_ok, ok_bind, Walk.conclude]
  dsimp only
  cases (Walk.begin (session.slots.map Slot.clear) session.cursor
    (min maxIndex input.length)).run options schema input 0 with
  | error interrupted => rfl
  | ok walk =>
    rw [Attempt.outcome_ok, ok_bind]
    dsimp only
    cases walk.finish complete (min maxIndex input.length) <;> rfl

theorem outcome_decode_checked {session : Session} {maxIndex : Nat}
    (hinput : input.length < wordLimit)
    (hcheck : session.check schema (min maxIndex input.length) = .ok ()) :
    Attempt.outcome (session.decode options schema input complete maxIndex) =
      (descend options input (Forest.plant schema (session.slots.map Slot.clear)) 0
          (min maxIndex input.length) complete none session.cursor >>= fun found =>
        checkEnd complete (min maxIndex input.length) found.2 >>= fun _ =>
          .ok ⟨found.2, found.1⟩) := by
  obtain ⟨hvalid, hlength⟩ := check_eq_ok hcheck
  rw [outcome_decode hcheck, conclude_begin hvalid (by simpa using hlength)
    (by simp [Slot.clear, Slot.ofDestination]) hinput (Nat.min_le_right _ _), bind_assoc]
  simp only [bind_assoc, ok_bind]

theorem decode_eq_ok_iff {session found : Session} {maxIndex : Nat}
    (hinput : input.length < wordLimit) :
    session.decode options schema input complete maxIndex = .ok found ↔
      session.check schema (min maxIndex input.length) = .ok () ∧
      descend options input (Forest.plant schema (session.slots.map Slot.clear)) 0
        (min maxIndex input.length) complete none session.cursor =
          .ok (found.slots, found.cursor) ∧
      checkEnd complete (min maxIndex input.length) found.cursor = .ok () := by
  cases hcheck : session.check schema (min maxIndex input.length) with
  | error failure =>
    rw [Session.decode, hcheck]
    constructor
    · nofun
    · rintro ⟨⟨⟩, _⟩
  | ok _ =>
    rw [← Attempt.outcome_eq_ok_iff, outcome_decode_checked hinput hcheck]
    constructor
    · intro h
      obtain ⟨⟨slots, cursor⟩, hdescend, h⟩ := bind_eq_ok_iff.mp h
      obtain ⟨_, hend, h⟩ := bind_eq_ok_iff.mp h
      cases h
      exact ⟨rfl, hdescend, hend⟩
    · rintro ⟨_, hdescend, hend⟩
      rw [hdescend, ok_bind, hend]
      rfl

theorem decode_eq_descend (session : Session) (options : Options) (schema : Schema)
    {input : Bytes} (complete : Bool) (maxIndex : Nat) (hinput : input.length < wordLimit) :
    Attempt.outcome (session.decode options schema input complete maxIndex) =
      session.descend options schema input complete maxIndex := by
  rw [Session.descend]
  cases hcheck : session.check schema (min maxIndex input.length) with
  | error failure =>
    rw [Session.decode, hcheck]
    rfl
  | ok _ =>
    obtain ⟨hvalid, hlength⟩ := check_eq_ok hcheck
    rw [outcome_decode hcheck, conclude_begin hvalid (by simpa using hlength)
      (by simp [Slot.clear, Slot.ofDestination]) hinput (Nat.min_le_right _ _), bind_assoc, ok_bind]
    congr 1
    funext ⟨slots, cursor⟩
    dsimp only
    cases checkEnd complete (min maxIndex input.length) cursor <;> rfl

def choiceSchema : Schema :=
  [.sequence 0, (Entry.leaf 1 Tag.boolean).choice 1, (Entry.leaf 1 Tag.integer).choice 1,
    .leaf 1 Tag.bitString]

def choiceSession : Session :=
  ⟨0, [.ofDestination .none, .ofDestination .uint8, .ofDestination .uint16,
    .ofDestination .content]⟩

def choiceInput : Bytes := [0x30, 0x07, 0x02, 0x01, 0x05, 0x03, 0x02, 0x03, 0xA8]

theorem decode_eq_descend_choice :
    choiceInput.length < wordLimit ∧
      Attempt.outcome (choiceSession.decode .strict choiceSchema choiceInput true 9) =
        .ok ⟨9, [⟨.none, .nothing, true, 0x30, 0, 2, 7, 0, false⟩,
          ⟨.uint8, .number 0, false, 0, 2, 2, 0, 0, false⟩,
          ⟨.uint16, .number 5, true, 0x02, 2, 4, 1, 0, false⟩,
          ⟨.content, .bytes [0xA8], true, 0x03, 5, 8, 1, 3, false⟩]⟩ :=
  ⟨by decide, (decode_eq_descend choiceSession .strict choiceSchema true 9 (by decide)).trans rfl⟩

end DerTemplate.Decoding

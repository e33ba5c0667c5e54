import DerTemplate.Proofs.Encoding.Sizing

namespace DerTemplate

namespace Encoding

open Schema

variable {schema : Schema} {slots : List Slot} {place : Place Slot}
variable {entry : Entry} {slot : Slot} {below next : Forest Slot}

theorem placed_of_measured {children : Nat} (halone : slot.nests entry = false → children = 0)
    (behind : Nat) :
    { slot with
      length := (slot.measured entry children).length
      contentLength := (slot.measured entry children).contentLength
      offset := behind + children + (slot.measured entry children).own
      sized := true } = slot.placed entry children behind := by
  have hheld := Slot.held_eq halone
  simp only [Slot.placed, Slot.measured, Slot.mk.injEq, true_and, and_true]
  omega

theorem children_place (h : place.Holds schema slots (.node entry slot below next))
    (hword : below.rootLength < wordLimit) :
    (if entry.headerOnly then childLengths schema slots place.index entry.depth else .ok 0) =
      .ok below.rootLength := by
  cases hheader : entry.headerOnly with
  | true => rw [if_pos rfl, h.childLengths, if_pos hword]
  | false => rw [h.leaf hheader, Forest.rootLength, if_neg Bool.false_ne_true]

theorem sizeEntry_hidden (total : Nat) (h : place.Holds schema slots (.node entry slot below next))
    (hhidden : (slot.suppressed || place.hidden) = true) :
    sizeEntry schema ⟨slots, total⟩ place.index =
      .ok ⟨place.preSlots ++ slot.blank :: (below.slots ++ (next.slots ++ place.postSlots)),
        total⟩ := by
  simp only [sizeEntry, h.getElem_schema, h.getElem_slots, h.excluded, h.set_slots, hhidden,
    if_true]
  rfl

section Entry

variable (h : place.Holds schema slots (.node entry slot below next))
variable (hshown : (slot.suppressed || place.hidden) = false) (hword : below.rootLength < wordLimit)
include h hshown hword

theorem sizeEntry_of_sound (behind : Nat) (hsound : slot.Sound entry below.rootLength) :
    sizeEntry schema ⟨slots, behind + below.rootLength⟩ place.index =
      if slot.fits entry below.rootLength then
        if (slot.placed entry below.rootLength behind).offset < wordLimit then
          .ok ⟨place.preSlots ++ slot.placed entry below.rootLength behind ::
              (below.slots ++ (next.slots ++ place.postSlots)),
            (slot.placed entry below.rootLength behind).offset⟩
        else refuse (.resourceExhausted .encodedSize)
      else fault := by
  have hplaced := placed_of_measured hsound.alone behind
  have htotal : behind + below.rootLength + (slot.measured entry below.rootLength).own =
    (slot.placed entry below.rootLength behind).offset := congrArg Slot.offset hplaced
  simp only [sizeEntry, h.getElem_schema, h.getElem_slots, h.excluded, h.set_slots, hshown,
    Bool.false_eq_true, if_false, measure_of_sound (children_place h hword) hsound]
  cases slot.fits entry below.rootLength with
  | true =>
    rw [if_pos rfl, if_pos rfl, ok_bind, hplaced, htotal]
    rfl
  | false => rfl

theorem sizeEntry_refused (total : Nat) (hunsound : ¬slot.Sound entry below.rootLength) :
    ∃ error, sizeEntry schema ⟨slots, total⟩ place.index = refuse error := by
  have hleaf (hheader : entry.headerOnly = false) : below.rootLength = 0 := by
    rw [h.leaf hheader, Forest.rootLength]
  obtain ⟨error, hmeasure⟩ := measure_refused (children_place h hword) hleaf hunsound
  refine ⟨error, ?_⟩
  simp only [sizeEntry, h.getElem_schema, h.getElem_slots, h.excluded, hshown, Bool.false_eq_true,
    if_false, hmeasure]
  rfl

end Entry

theorem offset_placed {after : Nat} (hslot : slot.suppressed = false) :
    (slot.placed entry below.stencil.length (after + next.stencil.length)).offset =
      after + (Forest.node entry slot below next).stencil.length := by
  rw [Forest.stencil, hslot, if_neg Bool.false_ne_true, List.length_append, Forest.length_item]
  simp only [Slot.placed]
  omega

end Encoding

namespace Forest

open Encoding

/-- Some written entry does not fit, and what the first pass has counted before it, with `after`
octets behind the forest, is still a word. -/
def overflows : Nat → Forest Slot → Bool
  | _, nil => false
  | after, node entry slot below next =>
    next.overflows after ||
      (!slot.suppressed && (below.overflows (after + next.stencil.length) ||
        (!slot.fits entry below.stencil.length &&
          decide (after + next.stencil.length + below.stencil.length < wordLimit))))

def Sound : Forest Slot → Prop
  | nil => True
  | node entry slot below next =>
    (slot.suppressed = false → slot.Sound entry below.stencil.length ∧ below.Sound) ∧ next.Sound

structure Sizable (forest : Forest Slot) (after : Nat) : Prop where
  sound : forest.Sound
  fits : forest.overflows after = false
  limit : after + forest.stencil.length < wordLimit

inductive Stops (forest : Forest Slot) (after : Nat) : Failure → Prop where
  | fault (hoverflows : forest.overflows after = true) : Stops forest after .fault
  | exhausted (hfits : forest.overflows after = false)
    (hlimit : wordLimit ≤ after + forest.stencil.length) :
    Stops forest after (.refused (.resourceExhausted .encodedSize))
  | unsound (error : Error) (hunsound : ¬forest.Sound) : Stops forest after (.refused error)

variable {entry : Entry} {slot : Slot} {below next : Forest Slot} {after : Nat} {failure : Failure}

theorem Stops.not_sizable {forest : Forest Slot} (h : forest.Stops after failure) :
    ¬forest.Sizable after := by
  intro hsizable
  cases h with
  | fault hoverflows =>
    rw [hsizable.fits] at hoverflows
    cases hoverflows
  | exhausted hfits hlimit => exact absurd hsizable.limit (Nat.not_lt.mpr hlimit)
  | unsound error hunsound => exact hunsound hsizable.sound

-- What is no word any more has been turned down.
theorem overflows_of_le {forest : Forest Slot} {after : Nat} (h : wordLimit ≤ after) :
    forest.overflows after = false := by
  induction forest generalizing after with
  | nil => rfl
  | node entry slot below next ihb ihn =>
    have hentry : ¬after + next.stencil.length + below.stencil.length < wordLimit := by omega
    rw [overflows, ihn h, ihb (Nat.le_trans h (Nat.le_add_right _ _)), decide_eq_false hentry]
    simp

theorem Stops.of_next (h : next.Stops after failure) :
    (node entry slot below next).Stops after failure := by
  cases h with
  | fault hoverflows => exact .fault (by rw [overflows, hoverflows, Bool.true_or])
  | exhausted hfits hlimit =>
    have hentry : ¬after + next.stencil.length + below.stencil.length < wordLimit := by omega
    refine .exhausted ?_ ?_
    · rw [overflows, hfits, overflows_of_le hlimit, decide_eq_false hentry]
      simp
    · rw [stencil, List.length_append]
      omega
  | unsound error hunsound => exact .unsound error fun h => hunsound h.2

theorem Stops.of_below (hslot : slot.suppressed = false) (hnext : next.Sizable after)
    (h : below.Stops (after + next.stencil.length) failure) :
    (node entry slot below next).Stops after failure := by
  cases h with
  | fault hoverflows =>
    exact .fault (by rw [overflows, hslot, hoverflows]; simp)
  | exhausted hfits hlimit =>
    by_cases halone : slot.nests entry = false → below.stencil.length = 0
    · have hentry : ¬after + next.stencil.length + below.stencil.length < wordLimit := by omega
      refine .exhausted ?_ ?_
      · rw [overflows, hnext.fits, hfits, decide_eq_false hentry]
        simp
      · rw [stencil, hslot, if_neg Bool.false_ne_true, List.length_append, length_item,
          Slot.held_eq halone]
        omega
    · exact .unsound _ fun h => halone (h.1 hslot).1.alone
  | unsound error hunsound => exact .unsound error fun h => hunsound (h.1 hslot).2

namespace Sizable

theorem suppressed (hslot : slot.suppressed = true) (hnext : next.Sizable after) :
    (node entry slot below next).Sizable after where
  sound := ⟨fun hshown => absurd (hslot.symm.trans hshown) (by decide), hnext.sound⟩
  fits := by rw [overflows, hnext.fits, hslot]; rfl
  limit := by rw [stencil, hslot]; exact hnext.limit

theorem shown (hnext : next.Sizable after) (hbelow : below.Sizable (after + next.stencil.length))
    (hsound : slot.Sound entry below.stencil.length)
    (hfits : slot.fits entry below.stencil.length = true)
    (hlimit : after + (node entry slot below next).stencil.length < wordLimit) :
    (node entry slot below next).Sizable after where
  sound := ⟨fun _ => ⟨hsound, hbelow.sound⟩, hnext.sound⟩
  fits := by rw [overflows, hnext.fits, hbelow.fits, hfits]; simp
  limit := hlimit

theorem siblings (h : (node entry slot below next).Sizable after) : next.Sizable after := by
  obtain ⟨hsound, hfits, hlimit⟩ := h
  rw [overflows, Bool.or_eq_false_iff] at hfits
  rw [stencil, List.length_append] at hlimit
  exact ⟨hsound.2, hfits.1, by omega⟩

theorem nested (h : (node entry slot below next).Sizable after) (hslot : slot.suppressed = false) :
    below.Sizable (after + next.stencil.length) ∧ slot.Sound entry below.stencil.length ∧
      slot.fits entry below.stencil.length = true := by
  obtain ⟨hsound, hfits, hlimit⟩ := h
  obtain ⟨hentry, hbelow⟩ := hsound.1 hslot
  rw [overflows, hslot, Bool.not_false, Bool.true_and, Bool.or_eq_false_iff,
    Bool.or_eq_false_iff] at hfits
  rw [stencil, hslot, if_neg Bool.false_ne_true, List.length_append, length_item,
    Slot.held_eq hentry.alone] at hlimit
  have hcounted : after + next.stencil.length + below.stencil.length < wordLimit := by omega
  have hfit := hfits.2.2
  rw [decide_eq_true hcounted, Bool.and_true, Bool.not_eq_false'] at hfit
  exact ⟨⟨hbelow, hfits.2.1, hcounted⟩, hentry, hfit⟩

theorem writable {forest : Forest Slot} (h : forest.Sizable after) : forest.Writable := by
  induction forest generalizing after with
  | nil => trivial
  | node entry slot below next ihb ihn =>
    refine ⟨fun hslot => ?_, ihn h.siblings⟩
    obtain ⟨hbelow, hsound, hfits⟩ := h.nested hslot
    exact ⟨hsound.writable hfits, fun hnests => List.length_eq_zero_iff.mp (hsound.alone hnests),
      ihb hbelow⟩

theorem limit_extent {forest : Forest Slot} {hidden : Bool} (hafter : after < wordLimit)
    (h : hidden = false → forest.Sizable after) : after + forest.extent hidden < wordLimit := by
  cases hidden with
  | true => exact hafter
  | false => exact (h rfl).limit

end Sizable

end Forest

namespace Encoding

open Schema

variable {schema : Schema} {slots : List Slot} {place : Place Slot} {after : Nat}

section Entry

variable {entry : Entry} {slot : Slot} {below next : Forest Slot}

theorem sizeEntry_cases (h : place.Holds schema slots (.node entry slot below next))
    (hslot : slot.suppressed = false) (hshown : place.hidden = false)
    (hnext : next.Sizable after) (hbelow : below.Sizable (after + next.stencil.length)) :
    ((Forest.node entry slot below next).Sizable after ∧
      sizeEntry schema ⟨place.preSlots ++ ((Forest.node entry slot
          (below.sized false (after + next.stencil.length)) (next.sized false after)).slots ++
            place.postSlots), after + next.stencil.length + below.stencil.length⟩ place.index =
        .ok ⟨place.preSlots ++ (((Forest.node entry slot below next).sized false after).slots ++
          place.postSlots), after + (Forest.node entry slot below next).stencil.length⟩) ∨
    ∃ failure, sizeEntry schema ⟨place.preSlots ++ ((Forest.node entry slot
          (below.sized false (after + next.stencil.length)) (next.sized false after)).slots ++
            place.postSlots), after + next.stencil.length + below.stencil.length⟩ place.index =
        .error failure ∧ (Forest.node entry slot below next).Stops after failure := by
  have hroot := h.resized false false (after + next.stencil.length) after
  have hhid : (slot.suppressed || place.hidden) = false := by rw [hslot, hshown]; rfl
  have hchildren : (below.sized false (after + next.stencil.length)).rootLength =
      below.stencil.length := Forest.rootLength_sized false _ below
  have hword : (below.sized false (after + next.stencil.length)).rootLength < wordLimit := by
    have := hbelow.limit
    omega
  by_cases hsound : slot.Sound entry below.stencil.length
  · have hentry := sizeEntry_of_sound hroot hhid hword (after + next.stencil.length)
      (hchildren.symm ▸ hsound)
    rw [hchildren, offset_placed hslot] at hentry
    rw [hentry]
    cases hfits : slot.fits entry below.stencil.length with
    | true =>
      have hoverflows : (Forest.node entry slot below next).overflows after = false := by
        rw [Forest.overflows, hnext.fits, hbelow.fits, hfits]
        simp
      rw [if_pos rfl]
      split
      · rename_i hlimit
        refine .inl ⟨hnext.shown hbelow hsound hfits hlimit, ?_⟩
        rw [Forest.sized_node_shown (by rw [hslot]; rfl)]
        simp [Forest.slots, Forest.extent]
      · rename_i hlimit
        exact .inr ⟨_, rfl, .exhausted hoverflows (Nat.not_lt.mp hlimit)⟩
    | false =>
      refine .inr ⟨_, rfl, .fault ?_⟩
      rw [Forest.overflows, hslot, hfits, decide_eq_true hbelow.limit]
      simp
  · have hunsound : ¬(Forest.node entry slot below next).Sound := fun hforest =>
      hsound (hforest.1 hslot).1
    rw [← hchildren] at hsound
    obtain ⟨error, hentry⟩ := sizeEntry_refused hroot hhid hword _ hsound
    exact .inr ⟨_, hentry, .unsound error hunsound⟩

theorem sizeBelow_enter (place : Place Slot) (entry : Entry) (slot : Slot) (below next : Forest Slot)
    (total : Nat) :
    sizeBelow schema (place.next entry below (slot :: below.slots)).index
        ⟨(place.next entry below (slot :: below.slots)).preSlots ++
          (next.slots ++ (place.next entry below (slot :: below.slots)).postSlots), total⟩ =
      sizeBelow schema ((place.below entry slot next).index + below.size)
        ⟨place.preSlots ++ slot :: (below.slots ++ (next.slots ++ place.postSlots)), total⟩ := by
  simp [Place.next, Place.below]

theorem sizeBelow_leave (place : Place Slot) (entry : Entry) (slot : Slot) (below next : Forest Slot)
    (total : Nat) :
    sizeBelow schema (place.below entry slot next).index
        ⟨(place.below entry slot next).preSlots ++
          (below.slots ++ (place.below entry slot next).postSlots), total⟩ =
      ((sizeEntry schema ⟨place.preSlots ++ ((Forest.node entry slot below next).slots ++
          place.postSlots), total⟩ place.index).leaving
        (place.preSlots ++ ((Forest.node entry slot below next).slots ++ place.postSlots)) >>=
          sizeBelow schema place.index) := by
  rw [show (place.below entry slot next).index = place.index + 1 from rfl, sizeBelow]
  simp [Place.below, Forest.slots]

end Entry

theorem sizeBelow_cases {forest : Forest Slot} (h : place.Holds schema slots forest)
    (hafter : after < wordLimit) :
    ((place.hidden = false → forest.Sizable after) ∧
      sizeBelow schema (place.index + forest.size) ⟨slots, after⟩ =
        sizeBelow schema place.index
          ⟨place.preSlots ++ ((forest.sized place.hidden after).slots ++ place.postSlots),
            after + forest.extent place.hidden⟩) ∨
    ∃ stop, sizeBelow schema (place.index + forest.size) ⟨slots, after⟩ = .error stop ∧
      place.hidden = false ∧ forest.Stops after stop.failure := by
  induction forest generalizing place slots after with
  | nil =>
    have hextent : Forest.nil.extent place.hidden = 0 := by simp [Forest.extent, Forest.stencil]
    refine .inl ⟨fun _ => ⟨trivial, rfl, hafter⟩, ?_⟩
    rw [hextent, Forest.sized, ← h.slots]
    rfl
  | node entry slot below next ihb ihn =>
    -- as in the pass, the siblings after the entry come first, then what is below it
    rw [Place.index_node _ _ _ _ _ (slot :: below.slots)]
    have hnext := ihn h.holds_skip hafter
    rw [h.hidden_next] at hnext
    rcases hnext with ⟨hnext, hpass⟩ | ⟨stop, hstop, hshown, hwhy⟩
    · have hbelow := ihb (h.holds_below slot (Forest.schema_sized place.hidden after next))
        (Forest.Sizable.limit_extent hafter hnext)
      rw [h.hidden_below] at hbelow
      rw [hpass, sizeBelow_enter]
      rcases hbelow with ⟨hbelow, hinner⟩ | ⟨stop, hstop, hhid, hwhy⟩
      · rw [hinner, sizeBelow_leave]
        cases hhid : slot.suppressed || place.hidden with
        | true =>
          have hextent : below.extent true = 0 := rfl
          have hroot := h.resized true place.hidden (after + next.extent place.hidden) after
          refine .inl ⟨fun hshown => ?_, ?_⟩
          · rw [hshown, Bool.or_false] at hhid
            exact (hnext hshown).suppressed hhid
          · rw [sizeEntry_hidden _ hroot hhid, Forest.sized_node_hidden hhid,
              Forest.extent_node_hidden hhid, hextent, Nat.add_zero]
            simp [Forest.slots]
        | false =>
          obtain ⟨hslot, hshown⟩ := Bool.or_eq_false_iff.mp hhid
          rw [hhid] at hbelow
          rw [hshown] at hnext hbelow ⊢
          simp only [Forest.extent_shown]
          rcases sizeEntry_cases h hslot hshown (hnext rfl) (hbelow rfl) with
            ⟨hsizable, hentry⟩ | ⟨failure, hentry, hwhy⟩
          · exact .inl ⟨fun _ => hsizable, by rw [hentry]; rfl⟩
          · exact .inr ⟨_, by rw [hentry]; rfl, trivial, hwhy⟩
      · obtain ⟨hslot, hshown⟩ := Bool.or_eq_false_iff.mp hhid
        rw [hshown] at hnext hwhy
        exact .inr ⟨stop, hstop, hshown, hwhy.of_below hslot (hnext rfl)⟩
    · exact .inr ⟨stop, hstop, hshown, hwhy.of_next⟩

theorem size_cases (hvalid : schema.validate = .ok ()) (hlength : slots.length = schema.length)
    (hchoices : checkChoices schema slots = .ok ()) :
    ((Forest.plant schema slots).Sizable 0 ∧
      size schema slots = .ok ⟨((Forest.plant schema slots).sized false 0).slots,
        (Forest.plant schema slots).stencil.length⟩) ∨
    ∃ stop, size schema slots = .error stop ∧ (Forest.plant schema slots).Stops 0 stop.failure := by
  have hsize : (Forest.plant schema slots).size = schema.length := by
    rw [← Forest.length_schema, Forest.schema_plant hlength]
  have hhidden : Place.root.hidden = false := rfl
  have hpass : size schema slots = sizeBelow schema schema.length ⟨slots, 0⟩ := by
    rw [size, checkSlots, hvalid, ok_bind, if_pos hlength, hchoices]
    rfl
  have hcases := sizeBelow_cases (Place.holds_root hvalid hlength) (show 0 < wordLimit by decide)
  rw [hsize, hhidden] at hcases
  simp only [Place.root, List.nil_append, List.append_nil, Nat.zero_add, forall_const,
    true_and] at hcases
  rw [hpass]
  exact hcases

theorem sizable_of_size {sizing : Sizing} (h : size schema slots = .ok sizing) :
    schema.validate = .ok () ∧ slots.length = schema.length ∧
      sizing = ⟨((Forest.plant schema slots).sized false 0).slots,
        (Forest.plant schema slots).stencil.length⟩ ∧
      (Forest.plant schema slots).Sizable 0 := by
  obtain ⟨_, hcheck, _⟩ := bind_eq_ok_iff.mp h
  obtain ⟨_, hvalid, hcheck⟩ := bind_eq_ok_iff.mp (Outcome.leaving_eq_ok_iff.mp hcheck)
  split at hcheck
  · rename_i hlength
    rcases size_cases hvalid hlength hcheck with ⟨hsizable, hsize⟩ | ⟨stop, hstop, _⟩
    · rw [hsize] at h
      exact ⟨hvalid, hlength, (Except.ok.inj h).symm, hsizable⟩
    · rw [hstop] at h
      cases h
  · cases hcheck

theorem size_eq_ok {sizing : Sizing} (h : size schema slots = .ok sizing) :
    schema.validate = .ok () ∧ slots.length = schema.length ∧
      sizing = ⟨((Forest.plant schema slots).sized false 0).slots,
        (Forest.plant schema slots).stencil.length⟩ ∧
      (Forest.plant schema slots).Writable ∧ sizing.total < wordLimit := by
  obtain ⟨hvalid, hlength, hsizing, hsizable⟩ := sizable_of_size h
  have hlimit := hsizable.limit
  rw [Nat.zero_add] at hlimit
  exact ⟨hvalid, hlength, hsizing, hsizable.writable, hsizing ▸ hlimit⟩

end Encoding

end DerTemplate

import DerTemplate.Proofs.Encoding.Sizing

namespace DerTemplate

namespace Forest

open Encoding

def OneOfRun : Option Nat → Forest Slot → Prop
  | _, nil => True
  | met, node entry slot below next =>
    let taken := met.isSome && met == entry.choiceGroup
    if slot.suppressed then OneOfRun (if taken then met else none) next
    else taken = false ∧ OneOfRun none below ∧ OneOfRun entry.choiceGroup next

end Forest

namespace Encoding

open Schema

variable {schema : Schema} {slots : List Slot} {place : Place Slot} {forest : Forest Slot}
variable {entry : Entry} {slot : Slot} {below next : Forest Slot}

theorem startsRun_holds (h : place.Holds schema slots (.node entry slot below next)) :
    schema.startsRun place.index = (siblingBefore place.depth place.pre != some entry.presence) := by
  rw [h.schema_cut, h.index, startsRun_append, h.depth]

theorem checkChoices_excluded (entry : Entry) {i : Nat} (hexcluded : excluded schema slots i = true)
    (written : Bool) (rest : List Entry) :
    ∃ later, checkChoicesFrom schema slots i written (entry :: rest) =
        checkChoicesFrom schema slots (i + 1) later rest ∧
      (later = true → written = true ∧
        ∀ group, entry.presence = .choice group → schema.startsRun i = false) := by
  cases hgroup : entry.choiceGroup with
  | none =>
    refine ⟨written, by simp only [checkChoicesFrom, hgroup], fun hwritten => ⟨hwritten, ?_⟩⟩
    intro group hpresence
    rw [Entry.choiceGroup_eq_some.mpr hpresence] at hgroup
    cases hgroup
  | some group =>
    refine ⟨written && !schema.startsRun i, ?_, fun hlater => ?_⟩
    · simp only [checkChoicesFrom, hgroup, hexcluded, if_true]
    · obtain ⟨hwritten, hruns⟩ := Bool.and_eq_true_iff.mp hlater
      exact ⟨hwritten, fun _ _ => by simpa using hruns⟩

theorem checkChoices_node {i : Nat} {start first second later : Bool} {rest : List Entry}
    (hentry : checkChoicesFrom schema slots i start (entry :: (below.schema ++ (next.schema ++ rest))) =
      checkChoicesFrom schema slots (i + 1) first (below.schema ++ (next.schema ++ rest)))
    (hbelow : checkChoicesFrom schema slots (i + 1) first (below.schema ++ (next.schema ++ rest)) =
      checkChoicesFrom schema slots (i + 1 + below.size) second (next.schema ++ rest))
    (hnext : checkChoicesFrom schema slots (i + 1 + below.size) second (next.schema ++ rest) =
      checkChoicesFrom schema slots (i + 1 + below.size + next.size) later rest) :
    checkChoicesFrom schema slots i start ((Forest.node entry slot below next).schema ++ rest) =
      checkChoicesFrom schema slots (i + (Forest.node entry slot below next).size) later rest := by
  rw [Forest.schema, List.cons_append, List.append_assoc, hentry, hbelow, hnext, Forest.size]
  simp only [Nat.add_assoc]

theorem checkChoices_hidden (h : place.Holds schema slots forest) (hhidden : place.hidden = true)
    (written : Bool) (rest : List Entry) :
    ∃ later, checkChoicesFrom schema slots place.index written (forest.schema ++ rest) =
        checkChoicesFrom schema slots (place.index + forest.size) later rest ∧
      (later = true → written = true) := by
  induction forest generalizing place written rest with
  | nil => exact ⟨written, rfl, id⟩
  | node entry slot below next ihb ihn =>
    have hexcluded : excluded schema slots place.index = true := by
      rw [h.excluded, hhidden, Bool.or_true]
    obtain ⟨first, hfirst, hfirstWritten⟩ := checkChoices_excluded entry hexcluded
      written (below.schema ++ (next.schema ++ rest))
    obtain ⟨second, hsecond, hsecondWritten⟩ := ihb h.holds_enter
      (by rw [h.hidden_below, hhidden, Bool.or_true]) first (next.schema ++ rest)
    obtain ⟨later, hlater, hlaterWritten⟩ := ihn h.holds_skip
      (by rw [h.hidden_next, hhidden]) second rest
    exact ⟨later, checkChoices_node hfirst hsecond hlater,
      fun hlast => (hfirstWritten (hsecondWritten (hlaterWritten hlast))).1⟩

def Flags (place : Place Slot) (met : Option Nat) (written : Bool) : Prop :=
  written = true → ∀ group, siblingBefore place.depth place.pre = some (.choice group) →
    met = some group

section Flags

variable {met : Option Nat} {written : Bool}
variable (h : place.Holds schema slots (.node entry slot below next))
include h

theorem flags_below (written : Bool) : Flags (place.below entry slot next) none written := by
  intro _ group hpresence
  rw [show siblingBefore (place.below entry slot next).depth
    (place.below entry slot next).pre = none from siblingBefore_below h.depth] at hpresence
  cases hpresence

theorem siblingBefore_after (mine : List Slot) :
    siblingBefore (place.next entry below mine).depth (place.next entry below mine).pre =
      some entry.presence := siblingBefore_next h.depth h.nested_below

theorem flags_written (mine : List Slot) (written : Bool) :
    Flags (place.next entry below mine) entry.choiceGroup written := by
  intro _ group hpresence
  rw [siblingBefore_after h] at hpresence
  exact Entry.choiceGroup_eq_some.mpr (Option.some.inj hpresence)

theorem flags_suppressed (hmet : Flags place met written) (mine : List Slot) {later : Bool}
    (hlater : later = true → written = true ∧
      ∀ group, entry.presence = .choice group → schema.startsRun place.index = false) :
    Flags (place.next entry below mine)
      (if met.isSome && met == entry.choiceGroup then met else none) later := by
  intro hflag group hpresence
  rw [siblingBefore_after h] at hpresence
  have hchoice := Option.some.inj hpresence
  obtain ⟨hwritten, hcontinues⟩ := hlater hflag
  have hsame := hcontinues group hchoice
  rw [startsRun_holds h, bne_eq_false_iff_eq, hchoice] at hsame
  rw [hmet hwritten group hsame, Entry.choiceGroup_eq_some.mpr hchoice]
  simp

theorem checkChoices_member (hmet : Flags place met written)
    (hexcluded : excluded schema slots place.index = false)
    (htaken : (met.isSome && met == entry.choiceGroup) = false) (rest : List Entry) :
    ∃ later, checkChoicesFrom schema slots place.index written (entry :: rest) =
      checkChoicesFrom schema slots (place.index + 1) later rest := by
  cases hgroup : entry.choiceGroup with
  | none => exact ⟨written, by simp only [checkChoicesFrom, hgroup]⟩
  | some group =>
    have hflag : (written && !schema.startsRun place.index) = false := by
      rw [Bool.eq_false_iff]
      intro hboth
      obtain ⟨hwritten, hcontinues⟩ := Bool.and_eq_true_iff.mp hboth
      have hpresence := Entry.choiceGroup_eq_some.mp hgroup
      rw [startsRun_holds h, Bool.not_eq_true', bne_eq_false_iff_eq, hpresence] at hcontinues
      rw [hmet hwritten group hcontinues, hgroup] at htaken
      simp at htaken
    refine ⟨true, ?_⟩
    simp only [checkChoicesFrom, hgroup, hexcluded, hflag, Bool.false_eq_true, if_false]

end Flags

theorem checkChoices_forest {met : Option Nat} (h : place.Holds schema slots forest)
    (hshown : place.hidden = false) (hone : forest.OneOfRun met) {written : Bool}
    (hmet : Flags place met written) (rest : List Entry) :
    ∃ later, checkChoicesFrom schema slots place.index written (forest.schema ++ rest) =
      checkChoicesFrom schema slots (place.index + forest.size) later rest := by
  induction forest generalizing place met written rest with
  | nil => exact ⟨written, rfl⟩
  | node entry slot below next ihb ihn =>
    have hexcluded := h.excluded
    have hnext := (h.hidden_next (slot :: below.slots)).trans hshown
    rw [hshown, Bool.or_false] at hexcluded
    rw [Forest.OneOfRun] at hone
    cases hslot : slot.suppressed with
    | true =>
      rw [hslot] at hexcluded hone
      have hbelow : (place.below entry slot next).hidden = true := by
        rw [h.hidden_below, hslot, Bool.true_or]
      obtain ⟨first, hfirst, hfirstWritten⟩ := checkChoices_excluded entry hexcluded
        written (below.schema ++ (next.schema ++ rest))
      obtain ⟨second, hsecond, hsecondWritten⟩ := checkChoices_hidden h.holds_enter hbelow first
        (next.schema ++ rest)
      have hflags := flags_suppressed h hmet (slot :: below.slots) fun hsecond =>
        hfirstWritten (hsecondWritten hsecond)
      obtain ⟨later, hlater⟩ := ihn h.holds_skip hnext hone hflags rest
      exact ⟨later, checkChoices_node hfirst hsecond hlater⟩
    | false =>
      rw [hslot] at hexcluded hone
      obtain ⟨htaken, honeBelow, honeNext⟩ := hone
      have hbelow : (place.below entry slot next).hidden = false := by
        rw [h.hidden_below, hslot, hshown]
        rfl
      obtain ⟨first, hfirst⟩ := checkChoices_member h hmet hexcluded htaken
        (below.schema ++ (next.schema ++ rest))
      obtain ⟨second, hsecond⟩ := ihb h.holds_enter hbelow honeBelow (flags_below h first)
        (next.schema ++ rest)
      obtain ⟨later, hlater⟩ := ihn h.holds_skip hnext honeNext
        (flags_written h (slot :: below.slots) second) rest
      exact ⟨later, checkChoices_node hfirst hsecond hlater⟩

theorem checkChoices_ok (hvalid : schema.validate = .ok ()) (hlength : slots.length = schema.length)
    (hone : (Forest.plant schema slots).OneOfRun none) : checkChoices schema slots = .ok () := by
  have hflags : Flags Place.root none false := nofun
  obtain ⟨later, hcheck⟩ := checkChoices_forest (Place.holds_root hvalid hlength) rfl hone hflags []
  rw [List.append_nil, Forest.schema_plant hlength] at hcheck
  exact hcheck

end Encoding

end DerTemplate

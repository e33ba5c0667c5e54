import DerTemplate.Proofs.Decoding.Simulation
import DerTemplate.Proofs.Decoding.Steps
import DerTemplate.Proofs.RoundTrip.Item

namespace DerTemplate

namespace RoundTrip

open Encoding (Plain)
open Decoding (Destination descend seek readItem checkRun checkEnd)

abbrev Pair := Encoding.Slot × Destination

def given (forest : Forest Pair) : Forest Encoding.Slot := forest.map Prod.fst

def asked (forest : Forest Pair) : Forest Decoding.Slot :=
  forest.map fun pair => Decoding.Slot.ofDestination pair.2

def firstTag : Forest Pair → Option Tag
  | .nil => none
  | .node entry (slot, _) _ next => if slot.suppressed then firstTag next else some entry.tag

/-- What may be suppressed before `next`, where `taken` says that the run has its member: nothing
required; and unless it is taken, no entry whose tag number is that of the item that comes next,
nor the last of a run. -/
structure Omitted (entry : Entry) (taken : Bool) (next : Forest Pair) : Prop where
  presence : entry.presence ≠ .required
  distinct : taken = false → ∀ tag ∈ firstTag next, tag ≠ entry.tag
  member : taken = false → entry.presence ≠ .optional →
    next.firstPresence = some entry.presence

/-- Every suppressed entry can be told from what is written after it, and every choice run has one
member. `met` is the choice group of the sibling before, if its run has its member. -/
def Distinct : Option Nat → Forest Pair → Prop
  | _, .nil => True
  | met, .node entry (slot, _) below next =>
    let taken := met.isSome && met == entry.choiceGroup
    if slot.suppressed then
      Omitted entry taken next ∧ Distinct (if taken then met else none) next
    else taken = false ∧ Distinct none below ∧ Distinct entry.choiceGroup next

def Suited : Forest Pair → Prop
  | .nil => True
  | .node entry (slot, destination) below next =>
    (if slot.suppressed then
        entry.tag.base = entry.tag ∧ ∀ tags, destination ≠ .choice tags
      else Suits entry slot destination ∧ Suited below) ∧ Suited next

def Recovered : Forest Pair → List Decoding.Slot → Prop
  | .nil, found => found = []
  | .node entry (slot, destination) below next, found =>
    ∃ first inner rest, found = first :: (inner ++ rest) ∧ inner.length = below.size ∧
      (if slot.suppressed then ∀ s ∈ first :: inner, s.present = false
        else Recovers entry slot (given below).encoding destination first ∧
          Recovered below inner) ∧
      Recovered next rest

variable {entry : Entry} {destination : Destination} {slot : Encoding.Slot}
variable {below next : Forest Pair} {input : Bytes} {pos : Nat}

theorem encoding_head {forest : Forest Pair} {depth : Nat} (hnested : forest.Nested depth)
    (hsuited : Suited forest) :
    (firstTag forest = none → (given forest).encoding = []) ∧
      ∀ tag, firstTag forest = some tag →
        ∃ (octet : Tag) (rest : Bytes), (given forest).encoding = octet :: rest ∧
          octet.base = tag := by
  induction forest with
  | nil =>
    refine ⟨fun _ => rfl, fun _ h => ?_⟩
    cases h
  | node entry pair below next _ ihn =>
    obtain ⟨slot, destination⟩ := pair
    obtain ⟨_, hleaf, _, hn⟩ := hnested
    obtain ⟨hhere, hnext⟩ := hsuited
    rw [given, Forest.map]
    cases hslot : slot.suppressed with
    | true =>
      rw [Forest.encoding_suppressed hslot, firstTag, hslot, if_pos rfl]
      exact ihn hn hnext
    | false =>
      rw [hslot, if_neg Bool.false_ne_true] at hhere
      have hplain : Plain entry slot := hhere.1.1
      rw [Forest.encoding_written hslot hplain (fun h => by rw [hleaf h]; rfl), firstTag, hslot,
        if_neg Bool.false_ne_true]
      refine ⟨fun h => ?_, fun tag htag => ?_⟩
      · cases h
      · rw [← Option.some.inj htag]
        exact ⟨entry.wireTag, _, rfl, Entry.base_wireTag hplain.base⟩

theorem not_choice_of_returned {value : Encoding.Value} {nested : Bytes}
    (h : (value.returned nested destination).isSome) (tags : List Tag) :
    destination ≠ .choice tags := by
  rintro rfl
  cases value <;> cases h

theorem seek_written (hchoice : ∀ tags, destination ≠ .choice tags) {rest : Bytes}
    {stop : Nat} (index : Nat) (hinput : input.Holds pos (entry.wireTag :: rest))
    (hstop : pos < stop) :
    seek entry destination input index stop false pos = .ok (some entry.wireTag) := by
  rw [seek, if_pos hstop, (Bytes.holds_cons_iff.mp hinput).1]
  dsimp only
  rw [if_neg Bool.false_ne_true, if_pos ((Destination.admits_iff hchoice _).mpr rfl)]

theorem seek_omitted {taken : Bool} {depth : Nat} (index : Nat)
    (hbase : entry.tag.base = entry.tag) (hchoice : ∀ tags, destination ≠ .choice tags)
    (homitted : Omitted entry taken next) (hnested : next.Nested depth) (hsuited : Suited next)
    (hinput : input.Holds pos (given next).encoding) :
    seek entry destination input index (pos + (given next).encoding.length) taken pos =
      .ok none := by
  obtain ⟨hnone, hsome⟩ := encoding_head hnested hsuited
  unfold seek
  cases hfirst : firstTag next with
  | none =>
    rw [hnone hfirst, List.length_nil, if_neg (by omega)]
    exact if_neg homitted.presence
  | some tag =>
    obtain ⟨octet, rest, hencoding, htag⟩ := hsome tag hfirst
    rw [hencoding] at hinput ⊢
    rw [if_pos (by simp), (Bytes.holds_cons_iff.mp hinput).1]
    cases taken with
    | true => rfl
    | false =>
      have hdistinct : octet.base ≠ entry.tag := htag ▸ homitted.distinct rfl tag hfirst
      have hadmits : ¬destination.admits entry octet = true := by
        rw [Destination.admits_iff hchoice]
        rintro rfl
        exact hdistinct (Entry.base_wireTag hbase)
      have hform : ¬destination.wrongForm entry octet = true := by
        rw [Destination.wrongForm_iff hchoice]
        exact fun h => hdistinct h.1
      dsimp only
      rw [if_neg Bool.false_ne_true, if_neg hadmits, if_neg hform, if_neg homitted.presence]

theorem checkRun_omitted {taken : Bool} (h : Omitted entry taken next) :
    checkRun entry (asked next).firstPresence taken = .ok () := by
  unfold checkRun
  cases hpresence : entry.presence with
  | required => rfl
  | optional => rfl
  | choice group =>
    refine if_neg ?_
    rintro ⟨hafter, htaken⟩
    refine hafter ?_
    rw [asked, Forest.firstPresence_map, ← hpresence]
    exact h.member (by simpa using htaken) (by simp [hpresence])

theorem size_asked (forest : Forest Pair) : (asked forest).size = forest.size :=
  Forest.size_map _ forest

theorem length_recovered {forest : Forest Pair} {found : List Decoding.Slot}
    (h : Recovered forest found) : found.length = forest.size := by
  induction forest generalizing found with
  | nil => rw [h, Forest.size, List.length_nil]
  | node entry pair below next _ ihn =>
    obtain ⟨first, inner, rest, rfl, hinner, _, hrest⟩ := h
    rw [List.length_cons, List.length_append, hinner, ihn hrest, Forest.size]
    omega

def Regained (options : Options) (input : Bytes) (forest : Forest Pair) : Prop :=
  ∀ (depth index pos : Nat) (more : Bool) (met : Option Nat), forest.Nested depth →
    (given forest).Writable → Suited forest → Distinct met forest →
    input.Holds pos (given forest).encoding → (given forest).encoding.length < lengthLimit →
      ∃ found, descend options input (asked forest) index (pos + (given forest).encoding.length) more
          met pos = .ok (found, pos + (given forest).encoding.length) ∧
        Recovered forest found

section Node

variable {options : Options} {slot : Encoding.Slot} {below : Forest Pair}
variable (hnext : Regained options input next)
include hnext

theorem regained_omitted (hslot : slot.suppressed = true) :
    Regained options input (.node entry (slot, destination) below next) := by
  intro depth index pos more met hnested hwritable hsuited hdistinct hinput hlimit
  obtain ⟨_, _, _, hnestedNext⟩ := hnested
  obtain ⟨hhere, hsuitedNext⟩ := hsuited
  rw [Distinct, hslot, if_pos rfl] at hdistinct
  rw [hslot, if_pos rfl] at hhere
  obtain ⟨homitted, hdistinctNext⟩ := hdistinct
  have hgiven : given (.node entry (slot, destination) below next) =
    .node entry slot (given below) (given next) := rfl
  rw [hgiven, Forest.encoding_suppressed hslot] at hinput hlimit ⊢
  obtain ⟨found, hfound, hrecovered⟩ := hnext depth (index + 1 + below.size) pos more _ hnestedNext
    hwritable.2 hsuitedNext hdistinctNext hinput hlimit
  have hseek := seek_omitted index hhere.1 hhere.2 homitted hnestedNext hsuitedNext hinput
  have hrun := checkRun_omitted homitted
  rw [← size_asked below] at hfound
  refine ⟨_, Decoding.descend_of_descends (.passed hseek hrun (Decoding.descends_of_descend hfound)),
    (Decoding.Slot.ofDestination destination).markAbsent pos,
    (asked below).slots.map fun s => s.markAbsent pos, found, rfl, ?_, ?_, hrecovered⟩
  · simp [asked]
  · rw [hslot, if_pos rfl]
    simp [Decoding.Slot.markAbsent]

omit hnext in
theorem regained_inner (hbelow : Regained options input below) {depth index contentStart stop : Nat}
    {more : Bool} (hleaf : entry.headerOnly = false → below = .nil)
    (hnested : below.Nested depth) (hwritable : (given below).Writable) (hsuited : Suited below)
    (hdistinct : Distinct none below) (hlimit : (given below).encoding.length < lengthLimit)
    (hcontent : entry.headerOnly = true → input.Holds contentStart (given below).encoding ∧
      stop = contentStart + (given below).encoding.length) :
    ∃ inner, inner.length = below.size ∧ Recovered below inner ∧
      (entry.headerOnly = true →
        descend options input (asked below) index stop more none contentStart = .ok (inner, stop)) ∧
      (entry.headerOnly = false → (asked below).slots = inner) := by
  cases hheader : entry.headerOnly with
  | true =>
    obtain ⟨hinput, rfl⟩ := hcontent hheader
    obtain ⟨inner, hinner, hrecovered⟩ :=
      hbelow depth index contentStart more none hnested hwritable hsuited hdistinct hinput hlimit
    exact ⟨inner, length_recovered hrecovered, hrecovered, fun _ => hinner,
      fun h => absurd h.symm Bool.false_ne_true⟩
  | false =>
    rw [hleaf hheader]
    exact ⟨[], rfl, rfl, fun h => absurd h Bool.false_ne_true, fun _ => rfl⟩

theorem regained_written (hbelow : Regained options input below) (hslot : slot.suppressed = false) :
    Regained options input (.node entry (slot, destination) below next) := by
  intro depth index pos more met hnested hwritable hsuited hdistinct hinput hlimit
  obtain ⟨_, hleaf, hnestedBelow, hnestedNext⟩ := hnested
  obtain ⟨hhere, hsuitedNext⟩ := hsuited
  rw [Distinct, hslot, if_neg Bool.false_ne_true] at hdistinct
  rw [hslot, if_neg Bool.false_ne_true] at hhere
  obtain ⟨htaken, hdistinctBelow, hdistinctNext⟩ := hdistinct
  obtain ⟨hsuits, hsuitedBelow⟩ := hhere
  obtain ⟨hslotWritable, _, hwritableBelow⟩ := hwritable.1 hslot
  have hleafGiven : entry.headerOnly = false → given below = .nil := fun h => by
    rw [hleaf h]
    rfl
  have hnil : entry.headerOnly = false → (given below).encoding = [] := fun h => by
    rw [hleafGiven h]
    rfl
  have hgiven : given (.node entry (slot, destination) below next) =
    .node entry slot (given below) (given next) := rfl
  rw [hgiven, Forest.encoding_written hslot hsuits.1 hleafGiven] at hinput hlimit ⊢
  obtain ⟨hitem, hrest⟩ := Bytes.holds_append_iff.mp hinput
  rw [List.length_append, List.length_cons, List.length_append] at hlimit ⊢
  rw [List.length_cons, List.length_append] at hrest
  -- the item is read whole: what is below it stands inside, and what is beside it behind
  generalize hend : pos + ((Header.lengthOctets (slot.raw entry
    (given below).encoding).length).length + (slot.raw entry (given below).encoding).length + 1 +
      (given next).encoding.length) = stop
  have hheld : (given below).encoding.length ≤ (slot.raw entry (given below).encoding).length := by
    rw [Encoding.Slot.raw, List.length_append]
    omega
  obtain ⟨filled, item, hread, hrecovers, hstop, hcontent⟩ :=
    readItem_encoding options index hsuits hslotWritable hnil hitem (by omega) (show _ ≤ stop by omega)
  have hseek := seek_written (not_choice_of_returned hsuits.2) index hitem (show pos < stop by omega)
  have hafter : input.Holds item.stop (given next).encoding := by
    rw [hstop]
    exact Nat.add_comm 1 _ ▸ hrest
  obtain ⟨found, hfound, hrecovered⟩ := hnext depth (index + 1 + below.size) item.stop more _
    hnestedNext hwritable.2 hsuitedNext hdistinctNext hafter (by omega)
  rw [show item.stop + (given next).encoding.length = stop by omega] at hfound
  obtain ⟨inner, hlength, hinnerRecovered, hinside, hleafSlots⟩ := regained_inner hbelow hleaf
    hnestedBelow hwritableBelow hsuitedBelow hdistinctBelow (by omega) hcontent
  rw [← size_asked below] at hfound
  refine ⟨filled :: (inner ++ found), Decoding.descend_of_descends ?_, filled, inner, found, rfl,
    hlength, ?_, hrecovered⟩
  · have hrest := Decoding.descends_of_descend hfound
    rw [← htaken] at hseek
    cases hheader : entry.headerOnly with
    | true =>
      exact .header hseek hread hheader (Decoding.descends_of_descend (hinside hheader))
        (Decoding.checkEnd_eq_ok_iff.mpr fun _ => rfl) hrest
    | false =>
      rw [← hleafSlots hheader]
      exact .leaf hseek hread hheader hrest
  · rw [hslot, if_neg Bool.false_ne_true]
    exact ⟨hrecovers, hinnerRecovered⟩

end Node

theorem regained (options : Options) (input : Bytes) (forest : Forest Pair) :
    Regained options input forest := by
  induction forest with
  | nil =>
    intro depth index pos more met _ _ _ _ _ _
    exact ⟨[], rfl, rfl⟩
  | node entry pair below next ihb ihn =>
    obtain ⟨slot, destination⟩ := pair
    cases hslot : slot.suppressed with
    | true => exact regained_omitted ihn hslot
    | false => exact regained_written ihn ihb hslot

end RoundTrip

end DerTemplate

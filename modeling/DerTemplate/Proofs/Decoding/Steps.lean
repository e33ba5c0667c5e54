import DerTemplate.Proofs.Decoding.Item

namespace DerTemplate.Decoding

variable {options : Options} {input : Bytes} {entry : Entry} {destination : Destination}
variable {index stop pos : Nat} {taken : Bool} {tag : Tag}

theorem Destination.admits_iff (hchoice : ∀ tags, destination ≠ .choice tags) (tag : Tag) :
    destination.admits entry tag = true ↔ tag = entry.wireTag := by
  cases destination <;> first
    | exact absurd rfl (hchoice _)
    | exact beq_iff_eq

theorem Destination.wrongForm_iff (hchoice : ∀ tags, destination ≠ .choice tags) (tag : Tag) :
    destination.wrongForm entry tag = true ↔ tag.base = entry.tag ∧ tag ≠ entry.wireTag := by
  cases destination <;> first
    | exact absurd rfl (hchoice _)
    | simp [Destination.wrongForm]

def peekAt (input : Bytes) (stop pos : Nat) : Option Tag := if pos < stop then input[pos]? else none

theorem peekAt_eq_some_iff :
    peekAt input stop pos = some tag ↔ pos < stop ∧ input[pos]? = some tag := by
  unfold peekAt
  split
  · rename_i hlt
    exact (and_iff_right hlt).symm
  · rename_i hle
    exact iff_of_false nofun fun h => hle h.1

theorem seek_eq_some (h : seek entry destination input index stop taken pos = .ok (some tag)) :
    peekAt input stop pos = some tag ∧ taken = false ∧ destination.admits entry tag = true := by
  unfold seek at h
  rw [← peekAt] at h
  split at h
  · split at h <;> cases h
  · rename_i found hfound
    split at h
    · cases h
    · rename_i htaken
      split at h
      · rename_i hadmits
        cases h
        exact ⟨hfound, Bool.eq_false_iff.mpr htaken, hadmits⟩
      · split at h
        · cases h
        · split at h <;> cases h

theorem tag_of_seek {taken : Bool} (hchoice : ∀ tags, destination ≠ .choice tags)
    (h : seek entry destination input index stop taken pos = .ok (some tag)) :
    tag = entry.wireTag :=
  (Destination.admits_iff hchoice tag).mp (seek_eq_some h).2.2

theorem seek_congr {other : Bytes} {otherStop otherPos : Nat} {found : Option Tag}
    (hpeek : peekAt other otherStop otherPos = peekAt input stop pos)
    (h : seek entry destination input index stop taken pos = .ok found) :
    seek entry destination other index otherStop taken otherPos = .ok found := by
  unfold seek at h ⊢
  rw [← peekAt] at h ⊢
  rw [hpeek]
  split at h
  · split at h
    · cases h
    · rename_i hrequired
      exact (if_neg hrequired).trans h
  · split at h
    · rename_i htaken
      exact (if_pos htaken).trans h
    · rename_i htaken
      rw [if_neg htaken]
      split at h
      · rename_i hadmits
        exact (if_pos hadmits).trans h
      · rename_i hadmits
        rw [if_neg hadmits]
        split at h
        · cases h
        · rename_i hform
          rw [if_neg hform]
          split at h
          · cases h
          · rename_i hrequired
            exact (if_neg hrequired).trans h

def isTaken (met : Option Nat) (entry : Entry) : Bool := met.isSome && met == entry.choiceGroup

inductive Descends (options : Options) (input : Bytes) :
    Forest Slot → Nat → Nat → Bool → Option Nat → Nat → List Slot → Nat → Prop where
  | nil {index stop : Nat} {more : Bool} {met : Option Nat} {pos : Nat} :
    Descends options input .nil index stop more met pos [] pos
  | passed {entry : Entry} {slot : Slot} {below next : Forest Slot} {index stop : Nat} {more : Bool}
    {met : Option Nat} {pos : Nat} {slots : List Slot} {reached : Nat}
    (hseek : seek entry slot.destination input index stop (isTaken met entry) pos = .ok none)
    (hrun : checkRun entry next.firstPresence (isTaken met entry) = .ok ())
    (hnext : Descends options input next (index + 1 + below.size) stop more
      (if isTaken met entry then met else none) pos slots reached) :
    Descends options input (.node entry slot below next) index stop more met pos
      (slot.markAbsent pos :: (below.slots.map (fun s => s.markAbsent pos) ++ slots)) reached
  | leaf {entry : Entry} {slot : Slot} {below next : Forest Slot} {index stop : Nat} {more : Bool}
    {met : Option Nat} {pos : Nat} {slots : List Slot} {reached : Nat} {tag : Tag} {read : Slot}
    {item : Item}
    (hseek : seek entry slot.destination input index stop (isTaken met entry) pos = .ok (some tag))
    (hread : readItem options entry slot.destination input pos stop tag index = .ok (read, item))
    (hheader : entry.headerOnly = false)
    (hnext : Descends options input next (index + 1 + below.size) stop more entry.choiceGroup
      item.stop slots reached) :
    Descends options input (.node entry slot below next) index stop more met pos
      (read :: (below.slots ++ slots)) reached
  | header {entry : Entry} {slot : Slot} {below next : Forest Slot} {index stop : Nat} {more : Bool}
    {met : Option Nat} {pos : Nat} {inner slots : List Slot} {last reached : Nat} {tag : Tag}
    {read : Slot} {item : Item}
    (hseek : seek entry slot.destination input index stop (isTaken met entry) pos = .ok (some tag))
    (hread : readItem options entry slot.destination input pos stop tag index = .ok (read, item))
    (hheader : entry.headerOnly = true)
    (hinner : Descends options input below (index + 1) item.stop (more || next.size != 0) none
      item.contentStart inner last)
    (hend : checkEnd (more || next.size != 0) item.stop last = .ok ())
    (hnext : Descends options input next (index + 1 + below.size) stop more entry.choiceGroup last
      slots reached) :
    Descends options input (.node entry slot below next) index stop more met pos
      (read :: (inner ++ slots)) reached

theorem descend_of_descends {forest : Forest Slot} {more : Bool} {met : Option Nat}
    {slots : List Slot} {reached : Nat}
    (h : Descends options input forest index stop more met pos slots reached) :
    descend options input forest index stop more met pos = .ok (slots, reached) := by
  induction h with
  | nil => rfl
  | passed hseek hrun hnext ih =>
    rw [isTaken] at hseek hrun ih
    rw [descend, hseek, ok_bind]
    dsimp only
    rw [hrun, ok_bind, ih]
    rfl
  | leaf hseek hread hheader hnext ih =>
    rw [isTaken] at hseek
    rw [descend, hseek, ok_bind]
    dsimp only
    rw [hread, ok_bind]
    dsimp only
    rw [hheader, if_neg Bool.false_ne_true, ok_bind]
    dsimp only
    rw [ih]
    rfl
  | header hseek hread hheader hinner hend hnext ihInner ihNext =>
    rw [isTaken] at hseek
    rw [descend, hseek, ok_bind]
    dsimp only
    rw [hread, ok_bind]
    dsimp only
    rw [hheader, if_pos rfl, ihInner, ok_bind]
    dsimp only
    rw [hend, ok_bind, pure_bind]
    dsimp only
    rw [ihNext]
    rfl

theorem descends_of_descend {forest : Forest Slot} {more : Bool} {met : Option Nat}
    {slots : List Slot} {reached : Nat}
    (h : descend options input forest index stop more met pos = .ok (slots, reached)) :
    Descends options input forest index stop more met pos slots reached := by
  induction forest generalizing index stop more met pos slots reached with
  | nil =>
    cases h
    exact .nil
  | node entry slot below next ihBelow ihNext =>
    rw [descend] at h
    obtain ⟨found, hseek, h⟩ := bind_eq_ok_iff.mp h
    cases found with
    | none =>
      obtain ⟨_, hrun, h⟩ := bind_eq_ok_iff.mp h
      obtain ⟨_, hnext, h⟩ := bind_eq_ok_iff.mp h
      cases h
      exact .passed hseek hrun (ihNext hnext)
    | some tag =>
      obtain ⟨⟨read, item⟩, hread, h⟩ := bind_eq_ok_iff.mp h
      obtain ⟨⟨inner, last⟩, hinside, h⟩ := bind_eq_ok_iff.mp h
      obtain ⟨_, hnext, h⟩ := bind_eq_ok_iff.mp h
      cases h
      cases hheader : entry.headerOnly with
      | false =>
        rw [hheader, if_neg Bool.false_ne_true] at hinside
        cases hinside
        exact .leaf hseek hread hheader (ihNext hnext)
      | true =>
        rw [hheader, if_pos rfl] at hinside
        obtain ⟨_, hinner, hinside⟩ := bind_eq_ok_iff.mp hinside
        obtain ⟨_, hend, hinside⟩ := bind_eq_ok_iff.mp hinside
        cases hinside
        exact .header hseek hread hheader (ihBelow hinner) hend (ihNext hnext)

theorem Descends.length_eq {forest : Forest Slot} {more : Bool} {met : Option Nat} {slots : List Slot}
    {reached : Nat} (h : Descends options input forest index stop more met pos slots reached) :
    slots.length = forest.size := by
  induction h with
  | nil => rfl
  | passed hseek hrun hnext ih | leaf hseek hread hheader hnext ih =>
    simp only [List.length_cons, List.length_append, List.length_map, Forest.length_slots, ih,
      Forest.size]
    omega
  | header hseek hread hheader hinner hend hnext ihInner ihNext =>
    simp only [List.length_cons, List.length_append, ihInner, ihNext, Forest.size]
    omega

theorem checkEnd_eq_ok_iff {closed : Bool} :
    checkEnd closed stop pos = .ok () ↔ (closed = true → pos = stop) := by
  unfold checkEnd refuse
  split
  · rename_i h
    simpa using h
  · rename_i h
    simpa using h

end DerTemplate.Decoding

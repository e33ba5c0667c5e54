import DerTemplate.Proofs.Decoding.Item
import DerTemplate.Proofs.Schema.Position

namespace DerTemplate.Decoding

open Schema

variable {options : Options} {schema : Schema} {input : Bytes} {entry : Entry} {walk : Walk}
variable {i stop : Nat} {taken : Bool}

def markMet (met : List Bool) (group : Option Nat) (found : Bool) : List Bool :=
  group.elim met fun g => met.set g found

@[simp] theorem length_markMet (met : List Bool) (group : Option Nat) (found : Bool) :
    (markMet met group found).length = met.length := by
  cases group <;> simp [markMet]

theorem getElem_markMet {met : List Bool} {g : Nat} (hg : g < met.length) (found : Bool) :
    (markMet met (some g) found)[g]? = some found := by
  simp [markMet, hg]

theorem getElem_markMet_ne {met : List Bool} {group : Option Nat} {g : Nat} (hg : group ≠ some g)
    (found : Bool) : (markMet met group found)[g]? = met[g]? := by
  cases group with
  | none => rfl
  | some n => exact List.getElem?_set_ne (by simpa using hg)

theorem setMet_eq (walk : Walk) {group : Option Nat} (h : ∀ g ∈ group, g < walk.met.length)
    (found : Bool) :
    walk.setMet group found = .ok { walk with met := markMet walk.met group found } := by
  cases group with
  | none => rfl
  | some g =>
    rw [Walk.setMet, update, if_pos (h g rfl)]
    rfl

theorem setMet_eq_ok {next : Walk} {group : Option Nat} {found : Bool}
    (h : walk.setMet group found = .ok next) : ∃ met, next = { walk with met := met } := by
  cases group with
  | none =>
    cases h
    exact ⟨walk.met, rfl⟩
  | some g =>
    obtain ⟨met, _, h⟩ := bind_eq_ok_iff.mp h
    cases h
    exact ⟨met, rfl⟩

theorem arrive_eq_ok {next : Walk} (h : walk.arrive schema i entry = .ok next) :
    ∃ met, next = { walk with level := min entry.depth walk.level, met := met } := by
  obtain ⟨above, habove, h⟩ := bind_eq_ok_iff.mp h
  have hlevel : above = { walk with level := min entry.depth walk.level } := by
    unfold Walk.ascend at habove
    split at habove
    · rename_i hdepth
      obtain ⟨_, _, habove⟩ := bind_eq_ok_iff.mp habove
      cases habove
      rw [Nat.min_eq_left (Nat.le_of_lt hdepth)]
    · rename_i hdepth
      cases habove
      rw [Nat.min_eq_right (Nat.not_lt.mp hdepth)]
  subst hlevel
  split at h
  · obtain ⟨met, rfl⟩ := setMet_eq_ok h
    exact ⟨met, rfl⟩
  · cases h
    exact ⟨walk.met, rfl⟩

def Walk.arrivedMet (walk : Walk) (schema : Schema) (i : Nat) (entry : Entry) : List Bool :=
  if schema.startsRun i then markMet walk.met entry.choiceGroup false else walk.met

def Walk.arrived (walk : Walk) (schema : Schema) (i : Nat) (entry : Entry) : Walk :=
  { walk with met := walk.arrivedMet schema i entry }

theorem arrive_eq (hlevel : walk.level = entry.depth)
    (hgroup : ∀ g ∈ entry.choiceGroup, g < walk.met.length) :
    walk.arrive schema i entry = .ok (walk.arrived schema i entry) := by
  rw [Walk.arrive, Walk.ascend, if_neg (by omega), ok_bind]
  unfold Walk.arrived Walk.arrivedMet
  split
  · exact setMet_eq walk hgroup false
  · rfl

theorem isMet_eq {group : Option Nat} (htaken : ∀ g ∈ group, walk.met[g]? = some taken)
    (hnone : group = none → taken = false) : walk.isMet group = .ok taken := by
  cases group with
  | none =>
    rw [hnone rfl]
    rfl
  | some g => exact fetch_eq_ok_iff.mpr (htaken g rfl)

theorem peek_eq {depth : Nat} (hstop : walk.ends[depth]? = some stop)
    (hinput : stop ≤ input.length) :
    walk.peek input depth = .ok (if walk.idx < stop then input[walk.idx]? else none) := by
  rw [Walk.peek, fetch_eq_ok_iff.mpr hstop, ok_bind]
  split
  · rename_i hidx
    have hlt : walk.idx < input.length := Nat.lt_of_lt_of_le hidx hinput
    rw [fetch_eq_ok_iff.mpr (List.getElem?_eq_getElem hlt), List.getElem?_eq_getElem hlt]
    rfl
  · rfl

theorem judge_eq (destination : Destination) (index pos : Nat)
    (htaken : taken = true → entry.presence ≠ .required) :
    judge destination entry index pos (if pos < stop then input[pos]? else none) taken =
      seek entry destination input index stop taken pos := by
  unfold judge seek
  cases (if pos < stop then input[pos]? else none) with
  | none => rfl
  | some tag =>
    cases htake : taken with
    | true => simp [htaken htake]
    | false => rfl

theorem pass_eq {next : Nat} {after : Option Presence} (hnext : schema.subtreeEnd i = next)
    (hslots : next ≤ walk.slots.length)
    (hends : schema.endsRun i next = (after != some entry.presence))
    (htaken : ∀ g ∈ entry.choiceGroup, walk.met[g]? = some taken) :
    Attempt.outcome (walk.pass schema i entry) =
      (checkRun entry after taken >>= fun _ =>
        .ok { walk with slots := absentBetween walk.slots i next walk.idx }) := by
  have hi : i ≤ next := hnext ▸ Nat.le_of_lt (schema.lt_subtreeEnd i)
  rw [Walk.pass, hnext, markAbsent_eq_ok_iff.mpr ⟨hi, hslots, rfl⟩, Outcome.leaving_ok, ok_bind]
  unfold checkRun
  cases hpresence : entry.presence with
  | choice g =>
    have hgroup : entry.choiceGroup = some g := Entry.choiceGroup_eq_some.mpr hpresence
    have hmet : walk.isMet (some g) = .ok taken :=
      isMet_eq (by simpa [hgroup] using htaken) (by simp)
    rw [hgroup, hmet, hends, hpresence]
    simp only [Outcome.leaving_ok, ok_bind, bne_iff_ne]
    split <;> rfl
  | required =>
    have hgroup : entry.choiceGroup = none := by simp [Entry.choiceGroup, hpresence]
    rw [hgroup]
    rfl
  | optional =>
    have hgroup : entry.choiceGroup = none := by simp [Entry.choiceGroup, hpresence]
    rw [hgroup]
    rfl

theorem pass_eq_ok {next : Walk} (h : walk.pass schema i entry = .ok next) :
    ∃ slots, next = { walk with slots := slots } := by
  obtain ⟨slots, _, h⟩ := bind_eq_ok_iff.mp h
  obtain ⟨found, _, h⟩ := bind_eq_ok_iff.mp h
  split at h
  · cases h
    exact ⟨_, rfl⟩
  · split at h
    · cases h
    · cases h
      exact ⟨_, rfl⟩

def Walk.received (walk : Walk) (i : Nat) (entry : Entry) (slot : Slot) (item : Item) : Walk :=
  ⟨walk.slots.set i slot,
    if entry.headerOnly then walk.ends.set (entry.depth + 1) item.stop else walk.ends,
    markMet walk.met entry.choiceGroup true,
    if entry.headerOnly then item.contentStart else item.stop,
    if entry.headerOnly then entry.depth + 1 else entry.depth⟩

theorem take_eq_ok {next : Walk} {slot : Slot} {tag : Tag}
    (h : walk.take options input i entry slot tag = .ok next) :
    ∃ bound filled item met, walk.ends[entry.depth]? = some bound ∧
      slot.fill options entry input walk.idx bound tag i = .ok (filled, item) ∧
      (entry.headerOnly = true → entry.depth + 1 < walk.ends.length) ∧
      next = { walk.received i entry filled item with met := met } := by
  obtain ⟨bound, hbound, h⟩ := bind_eq_ok_iff.mp h
  have hbound := fetch_eq_ok_iff.mp (Outcome.leaving_eq_ok_iff.mp hbound)
  split at h
  · cases h
  · rename_i filled item hfill
    obtain ⟨taken, htaken, h⟩ := bind_eq_ok_iff.mp h
    obtain ⟨met, rfl⟩ := setMet_eq_ok (Outcome.leaving_eq_ok_iff.mp h)
    refine ⟨bound, filled, item, met, hbound, hfill, ?_⟩
    have htaken := Outcome.leaving_eq_ok_iff.mp htaken
    unfold Walk.received
    split at htaken
    · rename_i hheader
      obtain ⟨ends, hends, htaken⟩ := bind_eq_ok_iff.mp htaken
      cases htaken
      unfold update fault at hends
      split at hends
      · rename_i hroom
        cases hends
        exact ⟨fun _ => hroom, by simp [hheader]⟩
      · cases hends
    · rename_i hheader
      cases htaken
      exact ⟨fun h => absurd h hheader, by simp [hheader]⟩

theorem take_eq (hinput : input.length < wordLimit) (destination : Destination) (tag : Tag)
    (hstop : walk.ends[entry.depth]? = some stop) (hdepth : entry.depth + 1 < walk.ends.length)
    (hgroup : ∀ g ∈ entry.choiceGroup, g < walk.met.length) :
    Attempt.outcome (walk.take options input i entry (.ofDestination destination) tag) =
      (readItem options entry destination input walk.idx stop tag i >>= fun found =>
        .ok (walk.received i entry found.1 found.2)) := by
  have hfill := outcome_fill options entry destination hinput walk.idx stop tag i
  rw [Walk.take, fetch_eq_ok_iff.mpr hstop, Outcome.leaving_ok, ok_bind, ← hfill]
  cases (Slot.ofDestination destination).fill options entry input walk.idx stop tag i with
  | error interrupted => rfl
  | ok found =>
    obtain ⟨slot, item⟩ := found
    simp only [Attempt.outcome_ok, ok_bind]
    unfold Walk.received
    cases entry.headerOnly with
    | true =>
      have hends : update walk.ends (entry.depth + 1) item.stop =
          .ok (walk.ends.set (entry.depth + 1) item.stop) := by rw [update, if_pos hdepth]
      simp only [if_true, hends, ok_bind, pure, Except.pure, Outcome.leaving_ok,
        Attempt.outcome_leaving]
      apply setMet_eq
      exact hgroup
    | false =>
      simp only [Bool.false_eq_true, if_false, ok_bind, pure, Except.pure, Outcome.leaving_ok,
        Attempt.outcome_leaving]
      apply setMet_eq
      exact hgroup

structure Walk.Facing (walk : Walk) (entry : Entry) (stop : Nat) : Prop where
  level : walk.level = entry.depth
  stop : walk.ends[entry.depth]? = some stop
  depth : entry.depth + 1 < walk.ends.length
  group : ∀ g ∈ entry.choiceGroup, g < walk.met.length

theorem visit_eq {next : Nat} {after : Option Presence} {destination : Destination}
    (hfacing : walk.Facing entry stop) (hword : input.length < wordLimit)
    (hinput : stop ≤ input.length) (hslot : walk.slots[i]? = some (.ofDestination destination))
    (hnext : schema.subtreeEnd i = next) (hslots : next ≤ walk.slots.length)
    (hends : schema.endsRun i next = (after != some entry.presence))
    (htaken : ∀ g ∈ entry.choiceGroup, (walk.arrivedMet schema i entry)[g]? = some taken)
    (hnone : entry.choiceGroup = none → taken = false) :
    Attempt.outcome (walk.visit options schema input i entry) =
      (seek entry destination input i stop taken walk.idx >>= fun found =>
        match found with
        | none => checkRun entry after taken >>= fun _ =>
          .ok ({ walk.arrived schema i entry with
            slots := absentBetween walk.slots i next walk.idx }, false)
        | some tag =>
          readItem options entry destination input walk.idx stop tag i >>= fun read =>
            .ok ((walk.arrived schema i entry).received i entry read.1 read.2, true)) := by
  have hpresence : taken = true → entry.presence ≠ .required := by
    intro htake hrequired
    rw [hnone (by simp [Entry.choiceGroup, hrequired])] at htake
    cases htake
  have hgroup : ∀ g ∈ entry.choiceGroup, g < (walk.arrivedMet schema i entry).length := by
    intro g hg
    exact (List.getElem?_eq_some_iff.mp (htaken g hg)).1
  rw [Walk.visit, arrive_eq hfacing.level hfacing.group, Outcome.leaving_ok, ok_bind]
  generalize hwalk : walk.arrived schema i entry = arrived
  have harrived : arrived.slots = walk.slots := by
    rw [← hwalk]
    rfl
  have hidx : arrived.idx = walk.idx := by
    rw [← hwalk]
    rfl
  have hlevel : arrived.ends[entry.depth]? = some stop := by
    rw [← hwalk]
    exact hfacing.stop
  have hmet : arrived.met = walk.arrivedMet schema i entry := by
    rw [← hwalk]
    rfl
  rw [harrived, fetch_eq_ok_iff.mpr hslot, Outcome.leaving_ok, ok_bind, peek_eq hlevel hinput,
    Outcome.leaving_ok, ok_bind, isMet_eq (hmet ▸ htaken) hnone, Outcome.leaving_ok, ok_bind]
  rw [show (Slot.ofDestination destination).destination = destination from rfl, hidx,
    judge_eq destination i walk.idx hpresence, Attempt.outcome_bind, Attempt.outcome_leaving]
  cases seek entry destination input i stop taken walk.idx with
  | error failure => rfl
  | ok found =>
    cases found with
    | none =>
      rw [ok_bind, ok_bind, Attempt.outcome_bind, pass_eq hnext (harrived ▸ hslots) hends
        (hmet ▸ htaken), harrived, hidx]
      subst hwalk
      cases checkRun entry after taken <;> rfl
    | some tag =>
      rw [ok_bind, ok_bind, Attempt.outcome_bind, take_eq hword destination tag hlevel
        (by rw [← hwalk]; exact hfacing.depth) (hmet ▸ hgroup), hidx]
      dsimp only
      cases readItem options entry destination input walk.idx stop tag i <;> rfl

end DerTemplate.Decoding

import DerTemplate.Proofs.Decoding.Simulation
import DerTemplate.Proofs.Outcome

namespace DerTemplate.Decoding

open Attempt

variable {options : Options} {schema : Schema} {input : Bytes} {entry : Entry} {walk : Walk}
variable {asked : List Destination} {i : Nat}

def Asks (asked : List Destination) (slots : List Slot) : Prop :=
  slots.map Slot.destination = asked

theorem Asks.set {slots : List Slot} {slot new : Slot} (h : Asks asked slots)
    (hget : slots[i]? = some slot) (hnew : new.destination = slot.destination) :
    Asks asked (slots.set i new) :=
  (map_set_of_eq hget hnew).trans h

theorem Asks.absentBetween {slots : List Slot} (h : Asks asked slots) (first next idx : Nat) :
    Asks asked (absentBetween slots first next idx) := by
  rw [← h]
  refine List.ext_getElem (by simp [Decoding.absentBetween]) fun j hj hj' => ?_
  simp only [Decoding.absentBetween, List.getElem_map, List.getElem_mapIdx]
  split <;> rfl

theorem ends_fill (slot : Slot) (options : Options) (entry : Entry) (input : Bytes)
    (start bound : Nat) (tag : Tag) (index : Nat) :
    (slot.fill options entry input start bound tag index).Ends
      (fun left => left.destination = slot.destination)
      fun (filled, _) => filled.destination = slot.destination := by
  unfold Slot.fill
  refine .of_leaving rfl fun (length, next) _ => ?_
  refine .of_leaving rfl fun stop _ => ?_
  refine .of_leaving rfl fun raw _ => ?_
  refine .of_leaving rfl fun lead _ => ?_
  refine .of_leaving rfl fun length _ => ?_
  refine .of_leaving rfl fun content _ => ?_
  exact .of_leaving rfl fun value _ => rfl

theorem ends_pass (h : Asks asked walk.slots) (schema : Schema) (i : Nat) (entry : Entry) :
    (walk.pass schema i entry).Ends (Asks asked) fun next => Asks asked next.slots := by
  have hmarked := h.absentBetween i (schema.subtreeEnd i) walk.idx
  unfold Walk.pass
  refine .of_leaving h fun slots hslots => ?_
  obtain ⟨_, _, rfl⟩ := markAbsent_eq_ok_iff.mp hslots
  refine .of_leaving hmarked fun found _ => ?_
  split
  · exact hmarked
  · split <;> exact hmarked

theorem ends_take (h : Asks asked walk.slots) {slot : Slot} (hslot : walk.slots[i]? = some slot)
    (options : Options) (input : Bytes) (entry : Entry) (tag : Tag) :
    (walk.take options input i entry slot tag).Ends (Asks asked) fun next =>
      Asks asked next.slots := by
  unfold Walk.take
  refine .of_leaving h fun bound _ => ?_
  have hfill := ends_fill slot options entry input walk.idx bound tag i
  cases hfound : slot.fill options entry input walk.idx bound tag i with
  | error stop =>
    rw [hfound] at hfill
    exact h.set hslot hfill
  | ok found =>
    rw [hfound] at hfill
    have hset := h.set hslot hfill
    refine .of_leaving hset fun taken htaken => ?_
    have hslots : taken.slots = walk.slots.set i found.1 := by
      split at htaken
      · obtain ⟨ends, _, htaken⟩ := bind_eq_ok_iff.mp htaken
        cases htaken
        rfl
      · cases htaken
        rfl
    refine ends_leaving hset fun next hnext => ?_
    obtain ⟨met, rfl⟩ := setMet_eq_ok hnext
    exact hslots ▸ hset

theorem ends_visit (h : Asks asked walk.slots) (options : Options) (schema : Schema) (input : Bytes)
    (i : Nat) (entry : Entry) :
    (walk.visit options schema input i entry).Ends (Asks asked) fun (next, _) =>
      Asks asked next.slots := by
  unfold Walk.visit
  refine .of_leaving h fun arrived harrived => ?_
  have h : Asks asked arrived.slots := by
    obtain ⟨met, rfl⟩ := arrive_eq_ok harrived
    exact h
  refine .of_leaving h fun slot hslot => ?_
  refine .of_leaving h fun found _ => ?_
  refine .of_leaving h fun taken _ => ?_
  refine .of_leaving h fun judged _ => ?_
  cases judged with
  | none => exact (ends_pass h schema i entry).bind fun next _ hnext => hnext
  | some tag =>
    exact (ends_take h (fetch_eq_ok_iff.mp hslot) options input entry tag).bind
      fun next _ hnext => hnext

theorem ends_run (h : Asks asked walk.slots) (options : Options) (schema : Schema) (input : Bytes)
    (i : Nat) :
    (walk.run options schema input i).Ends (Asks asked) fun next => Asks asked next.slots := by
  fun_induction walk.run options schema input i with
  | case1 walk i hi ihFound ihAbsent =>
    refine (ends_visit h options schema input i schema[i]).bind fun (next, found) _ hnext => ?_
    cases found with
    | true => exact ihFound next hnext
    | false => exact ihAbsent next hnext
  | case2 walk i hi => exact h

def blank (asked : List Destination) : List Slot := asked.map .ofDestination

theorem asks_blank (asked : List Destination) : Asks asked (blank asked) := by
  have hsame : Slot.destination ∘ Slot.ofDestination = id := rfl
  rw [Asks, blank, List.map_map, hsame, List.map_id]

theorem clear_eq_blank {slots : List Slot} (h : Asks asked slots) :
    slots.map Slot.clear = blank asked := by
  rw [← h, blank, List.map_map]
  rfl

structure Call where
  options : Options
  schema : Schema
  input : Bytes
  complete : Bool
  maxIndex : Nat
deriving DecidableEq, Repr

def Session.call (session : Session) (call : Call) : Attempt Session Session :=
  session.decode call.options call.schema call.input call.complete call.maxIndex

def Session.after (session : Session) (calls : List Call) : Session :=
  calls.foldl (fun session call => (session.call call).final) session

theorem ends_call {session : Session} (h : Asks asked session.slots) (call : Call) :
    (session.call call).Ends
      (fun left => left.cursor = session.cursor ∧ Asks asked left.slots)
      fun done => Asks asked done.slots := by
  unfold Session.call Session.decode
  refine .of_leaving ⟨rfl, h⟩ fun _ _ => ?_
  rw [clear_eq_blank h]
  dsimp only
  have hbegin : Asks asked (Walk.begin (blank asked) session.cursor
      (min call.maxIndex call.input.length)).slots := asks_blank asked
  have hrun := ends_run hbegin call.options call.schema call.input 0
  generalize Walk.run _ call.options call.schema call.input 0 = ran at hrun
  cases ran with
  | error stop => exact ⟨rfl, hrun⟩
  | ok walk => exact .of_leaving ⟨rfl, hrun⟩ fun _ _ => hrun

theorem asks_after {session : Session} (h : Asks asked session.slots) (calls : List Call) :
    Asks asked (session.after calls).slots := by
  induction calls generalizing session with
  | nil => exact h
  | cons call calls ih =>
    have hends := (ends_call h call).mono (fun _ hleft => hleft.2) fun _ hdone => hdone
    exact ih hends.final

theorem outcome_call {session : Session} (h : Asks asked session.slots) (call : Call) :
    (session.call call).outcome = (Session.call ⟨session.cursor, blank asked⟩ call).outcome := by
  have hlength : session.slots.length = (blank asked).length := by
    rw [blank, ← h, List.length_map, List.length_map]
  have hcheck (stop : Nat) : session.check call.schema stop =
      Session.check ⟨session.cursor, blank asked⟩ call.schema stop := by
    simp only [Session.check, hlength]
  unfold Session.call Session.decode
  dsimp only
  rw [clear_eq_blank h, clear_eq_blank (asks_blank asked), hcheck]
  cases Session.check ⟨session.cursor, blank asked⟩ call.schema
    (min call.maxIndex call.input.length) <;> rfl

theorem outcome_call_after (session : Session) (calls : List Call) (call : Call) :
    let used := session.after calls
    let fresh := session.slots.map fun slot => Slot.ofDestination slot.destination
    (used.call call).outcome = (Session.call ⟨used.cursor, fresh⟩ call).outcome ∧
      ∀ stop, used.call call = .error stop → stop.left.cursor = used.cursor := by
  intro used fresh
  have hasks : Asks (session.slots.map Slot.destination) used.slots := asks_after rfl calls
  refine ⟨?_, fun stop hstop => ?_⟩
  · have hfresh : fresh = blank (session.slots.map Slot.destination) := by
      rw [blank, List.map_map]
      rfl
    rw [hfresh]
    exact outcome_call hasks call
  · have hends := ends_call hasks call
    rw [hstop] at hends
    exact hends.1

def smallSession : Session := ⟨0, [.ofDestination .uint8]⟩

def wideCall : Call := ⟨.strict, [.leaf 0 Tag.integer], [0x02, 0x02, 0x01, 0x02], true, 4⟩

def narrowCall : Call := ⟨.strict, [.leaf 0 Tag.integer], [0x02, 0x01, 0x05], true, 3⟩

theorem outcome_call_after_wide :
    Attempt.outcome (smallSession.call wideCall) =
        .error (.refused (.unexpectedTag 0 0 Tag.integer)) ∧
      Attempt.outcome ((smallSession.after [wideCall]).call narrowCall) =
        .ok ⟨3, [⟨.uint8, .number 5, true, Tag.integer, 0, 2, 1, 0, false⟩]⟩ := by
  have hwide : Attempt.outcome (smallSession.call wideCall) =
      .error (.refused (.unexpectedTag 0 0 Tag.integer)) :=
    (outcome_decode_checked (by decide) rfl).trans (by decide +kernel)
  have hcursor : (smallSession.after [wideCall]).cursor = 0 := by
    have hstays := (outcome_call_after smallSession [] wideCall).2
    change ((smallSession.call wideCall).final).cursor = 0
    cases hcall : smallSession.call wideCall with
    | ok done =>
      rw [hcall] at hwide
      cases hwide
    | error stop => exact hstays stop hcall
  have hafter := (outcome_call_after smallSession [wideCall] narrowCall).1
  rw [hcursor] at hafter
  refine ⟨hwide, hafter.trans ?_⟩
  exact (outcome_decode_checked (by decide) rfl).trans (by decide +kernel)

end DerTemplate.Decoding

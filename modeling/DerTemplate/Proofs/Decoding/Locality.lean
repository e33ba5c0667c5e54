import DerTemplate.Proofs.Decoding.Shift
import DerTemplate.Proofs.Decoding.Simulation

namespace DerTemplate.Decoding

open Outcome

variable {options : Options} {wide input : Bytes} {n : Nat}

def Slot.moved (n : Nat) (slot : Slot) : Slot :=
  { slot with offset := slot.offset + n, contentOffset := slot.contentOffset + n }

def Item.moved (n : Nat) (item : Item) : Item :=
  { item with
    start := item.start + n, contentStart := item.contentStart + n, stop := item.stop + n }

def Session.moved (n : Nat) (session : Session) : Session :=
  ⟨session.cursor + n, session.slots.map (Slot.moved n)⟩

theorem placeless_ofContent (policy : IntegerPolicy) (tag : Tag) (raw : Bytes) :
    (Lead.ofContent policy tag raw).Placeless := by
  unfold Lead.ofContent
  split
  · exact placeless_ok _
  · split
    · exact (Content.placeless_isPadded raw policy).bind fun _ => placeless_ok _
    · split
      · exact (Content.placeless_unusedBitCount raw).bind fun _ => placeless_ok _
      · exact placeless_ok _

theorem placeless_readInteger (item : Item) (signed : Bool) (index : Nat) :
    (readInteger item signed index).Placeless := by
  unfold readInteger
  split
  · exact placeless_ok _
  · split
    · exact placeless_refuse fun _ => rfl
    · exact placeless_ok _

theorem placeless_readOid (options : Options) (category : Oid.Category) (item : Item) :
    (readOid options category item).Placeless := by
  refine .bind ?_ fun _ => (Oid.placeless_octetSum _).bind fun sum => .bind ?_ fun _ => placeless_ok _
  · split
    · exact Oid.placeless_checkContent _
    · exact placeless_ok ()
  · split
    · exact Oid.placeless_verify category sum _
    · exact placeless_ok ()

theorem readSmall_moved (n : Nat) (item : Item) (width index : Nat) :
    readSmall (item.moved n) width index = (readSmall item width index).moved n id := by
  unfold readSmall Item.moved
  dsimp only
  generalize (if item.tag = Tag.boolean then 1 else width) = room
  split
  · rfl
  · split
    · rfl
    · exact (Content.placeless_readUnsigned item.content room n).symm

theorem readValue_moved (n : Nat) (options : Options) (destination : Destination) (item : Item)
    (index : Nat) :
    readValue options destination (item.moved n) index =
      (readValue options destination item index).moved n id := by
  have hsmall (width : Nat) : Value.number <$> readSmall (item.moved n) width index =
      (Value.number <$> readSmall item width index).moved n id := by
    rw [readSmall_moved]
    cases readSmall item width index <;> rfl
  cases destination with
  | none => rfl
  | content => rfl
  | choice tags => rfl
  | uint8 => exact hsmall 1
  | uint16 => exact hsmall 2
  | uint32 => exact hsmall 4
  | integer signed =>
    exact ((placeless_readInteger item signed index).bind fun _ => placeless_ok _) n |>.symm
  | oid category => exact (placeless_readOid options category item n).symm
  | expect bytes =>
    unfold readValue Item.moved
    dsimp only
    split <;> rfl
  | bounded capacity =>
    unfold readValue Item.moved
    dsimp only
    split <;> rfl

theorem readHeader_moved (n : Nat) (destination : Destination) (item : Item) (index : Nat) :
    readHeader destination (item.moved n) index =
      (readHeader destination item index).moved n id := by
  cases destination <;> rfl

theorem readContent_moved (n : Nat) (options : Options) (entry : Entry) (destination : Destination)
    (item : Item) (index : Nat) :
    readContent options entry destination (item.moved n) index =
      (readContent options entry destination item index).moved n id := by
  unfold readContent
  split
  · exact readHeader_moved n destination item index
  · exact readValue_moved n options destination item index

theorem readItem_moved (h : wide.Holds n input) {bound : Nat} (hbound : bound ≤ input.length)
    (options : Options) (entry : Entry) (destination : Destination) (start : Nat) (tag : Tag)
    (index : Nat) :
    readItem options entry destination wide (start + n) (bound + n) tag index =
      (readItem options entry destination input start bound tag index).moved n
        fun (slot, item) => (slot.moved n, item.moved n) := by
  unfold readItem
  rw [Nat.add_right_comm start n]
  refine moved_bind (Header.readLength_moved h hbound (start + 1) true) fun (length, next) hread => ?_
  have hfits := (Header.readLength_bounds hread).2
  dsimp only
  rw [h.take_drop_add (by omega)]
  refine (placeless_ofContent _ _ _).moved_bind fun lead _ => ?_
  rw [Nat.add_right_comm next n, Nat.add_right_comm next n]
  exact moved_bind (readContent_moved n options entry destination ⟨tag, start, next + lead.size,
    next + length, lead, _, _⟩ index) fun value _ => rfl

theorem missing_moved (n : Nat) (destination : Destination) (entry : Entry) (index idx : Nat)
    (found : Option Tag) :
    missing destination entry index (idx + n) found =
      (missing destination entry index idx found).moved n := by
  cases found with
  | none => rfl
  | some tag =>
    unfold missing
    dsimp only
    split
    · rfl
    · split
      · rfl
      · split <;> rfl

theorem seek_moved (h : wide.Holds n input) {stop : Nat} (hstop : stop ≤ input.length)
    (entry : Entry) (destination : Destination) (index : Nat) (taken : Bool) (pos : Nat) :
    seek entry destination wide index (stop + n) taken (pos + n) =
      (seek entry destination input index stop taken pos).moved n id := by
  have hfound : (if pos + n < stop + n then wide[pos + n]? else none) =
      if pos < stop then input[pos]? else none := by
    by_cases hpos : pos < stop
    · rw [if_pos (Nat.add_lt_add_right hpos n), if_pos hpos, h.getElem?_add (by omega)]
    · rw [if_neg (by omega), if_neg hpos]
  unfold seek
  rw [hfound]
  cases (if pos < stop then input[pos]? else none) with
  | none =>
    dsimp only
    split
    · rw [missing_moved]
      rfl
    · rfl
  | some tag =>
    dsimp only
    split
    · rfl
    · split
      · rfl
      · split
        · rfl
        · split
          · rw [missing_moved]
            rfl
          · rfl

theorem placeless_checkRun (entry : Entry) (after : Option Presence) (taken : Bool) :
    (checkRun entry after taken).Placeless := by
  unfold checkRun
  split
  · split
    · exact placeless_refuse fun _ => rfl
    · exact placeless_ok ()
  · exact placeless_ok ()

theorem checkEnd_moved (n : Nat) (closed : Bool) (stop pos : Nat) :
    checkEnd closed (stop + n) (pos + n) = (checkEnd closed stop pos).moved n id := by
  unfold checkEnd
  simp only [ne_eq, Nat.add_right_cancel_iff]
  split <;> rfl

def movedFound (n : Nat) (found : List Slot × Nat) : List Slot × Nat :=
  (found.1.map (Slot.moved n), found.2 + n)

theorem descend_moved (h : wide.Holds n input) (options : Options) {forest : Forest Slot}
    {depth : Nat} (hnested : forest.Nested depth) (index : Nat) {stop : Nat}
    (hstop : stop ≤ input.length) (more : Bool) (met : Option Nat) (pos : Nat) :
    descend options wide forest index (stop + n) more met (pos + n) =
      (descend options input forest index stop more met pos).moved n (movedFound n) := by
  induction forest generalizing depth index stop more met pos with
  | nil => rfl
  | node entry slot below next ihb ihn =>
    obtain ⟨_, hleaf, hb, hn⟩ := hnested
    unfold descend
    dsimp only
    refine moved_bind (seek_moved h hstop entry slot.destination index _ pos) fun found _ => ?_
    cases found with
    | none =>
      refine (placeless_checkRun entry _ _).moved_bind fun _ _ => ?_
      refine moved_bind (ihn hn _ hstop more _ pos) fun _ _ => ?_
      simp only [movedFound, Outcome.moved, pure, Except.pure, List.map_cons, List.map_append,
        List.map_map]
      rfl
    | some tag =>
      refine moved_bind (readItem_moved h hstop options entry slot.destination pos tag index)
        fun read hread => ?_
      obtain ⟨filled, item⟩ := read
      have hitem := stop_le_of_readItem hread
      refine moved_bind (f := movedFound n) ?_ fun inner _ => ?_
      · split
        · refine moved_bind (ihb hb _ hitem _ none item.contentStart) fun inner _ => ?_
          exact moved_bind (checkEnd_moved n _ item.stop inner.2) fun _ _ => rfl
        · rename_i hheader
          rw [hleaf (by simpa using hheader)]
          rfl
      · refine moved_bind (ihn hn _ hstop more _ inner.2) fun _ _ => ?_
        simp only [movedFound, Outcome.moved, pure, Except.pure, List.map_cons, List.map_append]

theorem check_moved (n : Nat) (session : Session) (schema : Schema) (stop : Nat) :
    Session.check ⟨session.cursor + n, session.slots⟩ schema (stop + n) =
      (session.check schema stop).moved n id := by
  refine (Schema.placeless_validate schema).moved_bind fun _ _ => ?_
  simp only [Nat.add_lt_add_iff_right]
  split
  · rfl
  · split <;> rfl

theorem outcome_decode_moved (h : wide.Holds n input) (hword : wide.length < wordLimit)
    (slots : List Slot) (options : Options) (schema : Schema) (complete : Bool) :
    Attempt.outcome (Session.decode ⟨n, slots⟩ options schema wide complete (n + input.length)) =
      (Attempt.outcome (Session.decode ⟨0, slots⟩ options schema input complete
        input.length)).moved n (Session.moved n) := by
  have hinside := h.1
  have hwide : min (n + input.length) wide.length = input.length + n := by omega
  have hmoved : Session.check ⟨n, slots⟩ schema (min (n + input.length) wide.length) =
      (Session.check ⟨0, slots⟩ schema (min input.length input.length)).moved n id := by
    have hmoved := check_moved n ⟨0, slots⟩ schema input.length
    rw [Nat.zero_add] at hmoved
    rw [hwide, Nat.min_self]
    exact hmoved
  cases hcheck : Session.check ⟨0, slots⟩ schema (min input.length input.length) with
  | error failure =>
    rw [hcheck] at hmoved
    rw [Session.decode, Session.decode, hmoved, hcheck]
    rfl
  | ok _ =>
    rw [hcheck] at hmoved
    have hnested := Schema.nested_plant (check_eq_ok hcheck).1 (slots.map Slot.clear)
    have hdescend := descend_moved h options hnested 0 (Nat.le_refl input.length) complete none 0
    rw [Nat.zero_add] at hdescend
    rw [outcome_decode_checked hword hmoved, outcome_decode_checked (by omega) hcheck, hwide,
      Nat.min_self]
    refine moved_bind hdescend fun found _ => ?_
    exact moved_bind (checkEnd_moved n complete input.length found.2) fun _ _ => rfl

theorem decode_window {before input after : Bytes}
    (hword : (before ++ input ++ after).length < wordLimit) (slots : List Slot) (options : Options)
    (schema : Schema) (complete : Bool) :
    let n := before.length
    let decodeIn (wide : Bytes) :=
      Session.decode ⟨n, slots⟩ options schema wide complete (n + input.length)
    (match Session.decode ⟨0, slots⟩ options schema input complete input.length,
        decodeIn (before ++ input ++ after) with
      | .ok alone, .ok found => found = alone.moved n
      | .error alone, .error stopped => stopped.failure = alone.failure.moved n ∧
          stopped.failure.SameVariant alone.failure
      | _, _ => False) ∧
    ∀ before' after' : Bytes, before'.length = n →
      (before' ++ input ++ after').length < wordLimit →
      (decodeIn (before' ++ input ++ after')).outcome =
        (decodeIn (before ++ input ++ after)).outcome := by
  intro n decodeIn
  have hholds (before after : Bytes) : Bytes.Holds (before ++ input ++ after) before.length input := by
    rw [List.append_assoc]
    exact Bytes.holds_inside before input after
  have hmoved := outcome_decode_moved (hholds before after) hword slots options schema complete
  refine ⟨?_, fun before' after' hlength hword' => ?_⟩
  · change (decodeIn (before ++ input ++ after)).outcome = _ at hmoved
    generalize decodeIn (before ++ input ++ after) = there at hmoved ⊢
    generalize Session.decode ⟨0, slots⟩ options schema input complete input.length = here at hmoved ⊢
    match here, there with
    | .ok alone, .ok found => exact Except.ok.inj hmoved
    | .error alone, .error stopped =>
      have hfailure : stopped.failure = alone.failure.moved n := Except.error.inj hmoved
      exact ⟨hfailure, hfailure ▸ Failure.sameVariant_moved n alone.failure⟩
    | .ok _, .error _ => cases hmoved
    | .error _, .ok _ => cases hmoved
  · have hmoved' := outcome_decode_moved (hholds before' after') hword' slots options schema complete
    rw [hlength] at hmoved'
    exact hmoved'.trans hmoved.symm

theorem decode_window_choice :
    ([0x05, 0x00] ++ choiceInput ++ [0x02, 0x01]).length < wordLimit ∧
      Session.decode ⟨2, choiceSession.slots⟩ .strict choiceSchema
        ([0x05, 0x00] ++ choiceInput ++ [0x02, 0x01]) true 11 =
        .ok ⟨11, [⟨.none, .nothing, true, 0x30, 2, 4, 7, 0, false⟩,
          ⟨.uint8, .number 0, false, 0, 4, 4, 0, 0, false⟩,
          ⟨.uint16, .number 5, true, 0x02, 4, 6, 1, 0, false⟩,
          ⟨.content, .bytes [0xA8], true, 0x03, 7, 10, 1, 3, false⟩]⟩ := by
  have hword : ([0x05, 0x00] ++ choiceInput ++ [0x02, 0x01]).length < wordLimit := by decide
  have halone : Session.decode ⟨0, choiceSession.slots⟩ .strict choiceSchema choiceInput true 9 =
      .ok ⟨9, [⟨.none, .nothing, true, 0x30, 0, 2, 7, 0, false⟩,
        ⟨.uint8, .number 0, false, 0, 2, 2, 0, 0, false⟩,
        ⟨.uint16, .number 5, true, 0x02, 2, 4, 1, 0, false⟩,
        ⟨.content, .bytes [0xA8], true, 0x03, 5, 8, 1, 3, false⟩]⟩ :=
    (decode_eq_ok_iff (by decide)).mpr ⟨rfl, by decide +kernel, rfl⟩
  have hwindow := (decode_window hword choiceSession.slots .strict choiceSchema true).1
  refine ⟨hword, ?_⟩
  rw [show choiceInput.length = 9 from rfl, halone] at hwindow
  split at hwindow
  · rename_i alone found hsame hfound
    cases hsame
    exact hfound.trans (congrArg Except.ok hwindow)
  · rename_i hfailed _
    cases hfailed
  · exact hwindow.elim

end DerTemplate.Decoding

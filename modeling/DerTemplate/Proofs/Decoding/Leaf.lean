import DerTemplate.Proofs.Decoding.Simulation
import DerTemplate.Proofs.Decoding.Steps

namespace DerTemplate.Decoding

open Header

variable {entry : Entry} {slot : Slot} {tag : Tag} {raw : Bytes}

theorem readItem_holding (options : Options) (entry : Entry) (destination : Destination)
    {input : Bytes} {start bound : Nat} (tag : Tag) (index : Nat) (hlimit : raw.length < lengthLimit)
    (hinput : input.Holds (start + 1) (lengthOctets raw.length ++ raw))
    (hbound : start + 1 + (lengthOctets raw.length).length + raw.length ≤ bound) :
    readItem options entry destination input start bound tag index = (do
      let lead ← Lead.ofContent options.integerPolicy tag raw
      let item := Item.holding tag start (lengthOctets raw.length) raw lead
      let value ← readContent options entry destination item index
      return (.holding destination value item, item)) := by
  obtain ⟨hfront, hfits, hraw⟩ := Bytes.holds_append_iff.mp hinput
  have hlength : Header.readLength input (start + 1) bound true =
      .ok (raw.length, start + 1 + (lengthOctets raw.length).length) :=
    Header.readLength_isLength (isLength_lengthOctets hlimit) hfront (by omega)
  rw [readItem, hlength, ok_bind]
  dsimp only
  rw [hraw]
  rfl

theorem descend_leaf {options : Options} {destination : Destination} {input : Bytes}
    {complete : Bool} {pos stop : Nat} (hleaf : entry.headerOnly = false)
    (hseek : seek entry destination input 0 stop false pos = .ok (some tag)) :
    descend options input (.node entry (.ofDestination destination) .nil .nil) 0 stop complete none
        pos =
      (readItem options entry destination input pos stop tag 0 >>= fun found =>
        .ok ([found.1], found.2.stop)) := by
  rw [descend]
  simp only [Option.isSome_none, Bool.false_and, Slot.ofDestination]
  rw [hseek, ok_bind]
  dsimp only
  congr 1
  funext found
  rw [hleaf, if_neg Bool.false_ne_true]
  rfl

theorem outcome_decode_leaf {session : Session} (options : Options) (complete : Bool) {maxIndex : Nat}
    (hvalid : Schema.validate [entry] = .ok ()) (hleaf : entry.headerOnly = false)
    (hcursor : session.cursor = 0) (hslots : session.slots = [slot])
    (hadmits : slot.destination.admits entry tag = true)
    (hlimit : 1 + lengthSize raw.length + raw.length < lengthLimit)
    (hmax : 1 + lengthSize raw.length + raw.length ≤ maxIndex) :
    Attempt.outcome (session.decode options [entry] (tag :: (lengthOctets raw.length ++ raw)) complete
        maxIndex) = (do
      let lead ← Lead.ofContent options.integerPolicy tag raw
      let item := Item.holding tag 0 (lengthOctets raw.length) raw lead
      let value ← readValue options slot.destination item 0
      return ⟨1 + lengthSize raw.length + raw.length, [.holding slot.destination value item]⟩) := by
  have hsize : (tag :: (lengthOctets raw.length ++ raw)).length =
      1 + lengthSize raw.length + raw.length := by
    rw [List.length_cons, List.length_append, length_lengthOctets]
    omega
  obtain ⟨input, hinput⟩ : ∃ input : Bytes, tag :: (lengthOctets raw.length ++ raw) = input :=
    ⟨_, rfl⟩
  have hholds : input.Holds 0 (tag :: (lengthOctets raw.length ++ raw)) := by
    rw [hinput]
    exact Bytes.holds_self input
  rw [hinput] at hsize ⊢
  obtain ⟨hfirst, hbehind⟩ := Bytes.holds_cons_iff.mp hholds
  generalize hwhole : 1 + lengthSize raw.length + raw.length = stop at *
  have hstop : min maxIndex input.length = stop := by omega
  have hseek : seek entry slot.destination input 0 stop false 0 = .ok (some tag) := by
    rw [seek, if_pos (by omega), hfirst]
    dsimp only
    rw [if_neg Bool.false_ne_true, if_pos hadmits]
  have hread := readItem_holding options entry slot.destination tag 0 (by omega) hbehind
    (show 0 + 1 + (lengthOctets raw.length).length + raw.length ≤ stop by
      rw [length_lengthOctets]; omega)
  have hplant : Forest.plant [entry] ([slot].map Slot.clear) =
    .node entry (Slot.ofDestination slot.destination) .nil .nil := rfl
  have hitem (lead : Lead) : (Item.holding tag 0 (lengthOctets raw.length) raw lead).stop = stop := by
    simp only [Item.holding, length_lengthOctets]
    omega
  have hcheck : session.check [entry] stop = .ok () :=
    check_ok hvalid (by rw [hslots]; rfl) (by omega)
  have hend : checkEnd complete stop stop = .ok () := checkEnd_eq_ok_iff.mpr fun _ => rfl
  have hvalue (item : Item) : readContent options entry slot.destination item 0 =
      readValue options slot.destination item 0 := by
    rw [readContent, hleaf, if_neg Bool.false_ne_true]
  rw [outcome_decode_checked (lt_wordLimit (by omega)) (hstop.symm ▸ hcheck), hstop, hslots, hcursor,
    hplant, descend_leaf hleaf hseek, hread]
  simp only [hvalue, bind_assoc, pure_bind, ok_bind, hitem, hend]
  rfl

theorem decode_leaf {session : Session} (options : Options) (complete : Bool) {maxIndex : Nat}
    (hvalid : Schema.validate [entry] = .ok ()) (hleaf : entry.headerOnly = false)
    (hcursor : session.cursor = 0) (hslots : session.slots = [slot])
    (hadmits : slot.destination.admits entry tag = true)
    (hlimit : 1 + lengthSize raw.length + raw.length < lengthLimit)
    (hmax : 1 + lengthSize raw.length + raw.length ≤ maxIndex) (found : Session) :
    session.decode options [entry] (tag :: (lengthOctets raw.length ++ raw)) complete maxIndex =
        .ok found ↔
      ∃ lead value, Lead.ofContent options.integerPolicy tag raw = .ok lead ∧
        readValue options slot.destination
          (.holding tag 0 (lengthOctets raw.length) raw lead) 0 = .ok value ∧
        found = ⟨1 + lengthSize raw.length + raw.length, [.holding slot.destination value
          (.holding tag 0 (lengthOctets raw.length) raw lead)]⟩ := by
  rw [← Attempt.outcome_eq_ok_iff,
    outcome_decode_leaf options complete hvalid hleaf hcursor hslots hadmits hlimit hmax]
  constructor
  · intro h
    obtain ⟨lead, hlead, h⟩ := bind_eq_ok_iff.mp h
    obtain ⟨value, hvalue, h⟩ := bind_eq_ok_iff.mp h
    cases h
    exact ⟨lead, value, hlead, hvalue, rfl⟩
  · rintro ⟨lead, value, hlead, hvalue, rfl⟩
    exact bind_eq_ok_iff.mpr ⟨lead, hlead, bind_eq_ok_iff.mpr ⟨value, hvalue, rfl⟩⟩

def readLeaf (entry : Entry) (destination : Destination) (options : Options) (content : Bytes) :
    Attempt Session Session :=
  Session.decode ⟨0, [.ofDestination destination]⟩ options [entry]
    (entry.wireTag :: (lengthOctets content.length ++ content)) true
    (1 + lengthSize content.length + content.length)

theorem outcome_readLeaf {destination : Destination} (options : Options)
    (hvalid : Schema.validate [entry] = .ok ()) (hleaf : entry.headerOnly = false)
    (hchoice : ∀ tags, destination ≠ .choice tags)
    (hlimit : 1 + lengthSize raw.length + raw.length < lengthLimit) :
    (readLeaf entry destination options raw).outcome = (do
      let lead ← Lead.ofContent options.integerPolicy entry.wireTag raw
      let item := Item.holding entry.wireTag 0 (lengthOctets raw.length) raw lead
      let value ← readValue options destination item 0
      return ⟨1 + lengthSize raw.length + raw.length, [.holding destination value item]⟩) := by
  have hadmits : (Slot.ofDestination destination).destination.admits entry entry.wireTag = true :=
    (Destination.admits_iff hchoice _).mpr rfl
  exact outcome_decode_leaf options true hvalid hleaf rfl rfl hadmits hlimit (Nat.le_refl _)

def Session.values (session : Session) : List Value := session.slots.map Slot.value

theorem values_readLeaf {destination : Destination} (options : Options)
    (hvalid : Schema.validate [entry] = .ok ()) (hleaf : entry.headerOnly = false)
    (hchoice : ∀ tags, destination ≠ .choice tags)
    (hlimit : 1 + lengthSize raw.length + raw.length < lengthLimit) :
    Session.values <$> (readLeaf entry destination options raw).outcome = List.singleton <$> (do
      let lead ← Lead.ofContent options.integerPolicy entry.wireTag raw
      readValue options destination
        (.holding entry.wireTag 0 (lengthOctets raw.length) raw lead) 0) := by
  rw [outcome_readLeaf options hvalid hleaf hchoice hlimit]
  cases Lead.ofContent options.integerPolicy entry.wireTag raw with
  | error failure => rfl
  | ok lead =>
    rw [ok_bind, ok_bind]
    dsimp only
    cases readValue options destination
      (.holding entry.wireTag 0 (lengthOctets raw.length) raw lead) 0 <;> rfl

end DerTemplate.Decoding

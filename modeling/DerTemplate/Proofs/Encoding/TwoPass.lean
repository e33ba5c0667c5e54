import DerTemplate.Proofs.Encoding.Writing

namespace DerTemplate

namespace Forest

open Encoding

def excludes : Bool → Forest Slot → Nat → Bool
  | hidden, nil, _ => hidden
  | hidden, node _ slot _ _, 0 => slot.suppressed || hidden
  | hidden, node _ slot below next, i + 1 =>
    if i < below.size then below.excludes (slot.suppressed || hidden) i
    else next.excludes hidden (i - below.size)

@[simp] theorem stencil_sized (hidden : Bool) (after : Nat) (forest : Forest Slot) :
    (forest.sized hidden after).stencil = forest.stencil := by
  induction forest generalizing hidden after with
  | nil => rfl
  | node entry slot below next ihb ihn =>
    simp only [sized]
    split <;> simp only [stencil, ihb, ihn] <;> rfl

@[simp] theorem length_encoding (forest : Forest Slot) :
    forest.encoding.length = forest.stencil.length := Stencil.length_fill _ _

theorem encoding_eq_append {forest part : Forest Slot} {front back : Stencil}
    (h : forest.stencil = front ++ (part.stencil ++ back)) :
    forest.encoding = front.fill [] ++ (part.encoding ++ back.fill []) := by
  simp only [encoding, h, Stencil.fill_append, List.drop_nil]

theorem ready_sized {forest : Forest Slot} (h : forest.Writable) (after : Nat) :
    (forest.sized false after).Ready after := by
  induction forest generalizing after with
  | nil => trivial
  | node entry slot below next ihb ihn =>
    obtain ⟨hentry, hnext⟩ := h
    cases hslot : slot.suppressed with
    | true =>
      rw [sized_node_hidden (by simp [hslot])]
      exact ⟨fun hshown => absurd hshown (by simp [Slot.blank, hslot]), ihn hnext after⟩
    | false =>
      obtain ⟨hwritable, hheld, hbelow⟩ := hentry hslot
      rw [sized_node_shown (by simp [hslot])]
      refine ⟨fun _ => ⟨?_, ?_, ?_⟩, ihn hnext after⟩
      · rw [stencil_sized, stencil_sized]
        exact ⟨hwritable, fun _ => rfl, rfl, rfl⟩
      · rw [stencil_sized]
        exact hheld
      · rw [stencil_sized]
        exact ihb hbelow _

theorem all_sized (hidden : Bool) (after : Nat) (forest : Forest Slot) :
    (forest.sized hidden after).slots.all Slot.sized = true := by
  induction forest generalizing hidden after with
  | nil => rfl
  | node entry slot below next ihb ihn =>
    simp only [sized]
    split <;> simp only [slots, List.all_cons, List.all_append, ihb, ihn] <;> rfl

theorem excludes_hidden {forest : Forest Slot} {i : Nat} (h : i < forest.size) :
    forest.excludes true i = true := by
  induction forest generalizing i with
  | nil => rfl
  | node entry slot below next ihb ihn =>
    cases i with
    | zero => simp [excludes]
    | succ i =>
      simp only [size] at h
      simp only [excludes, Bool.or_true]
      split
      · exact ihb (by assumption)
      · exact ihn (by omega)

theorem not_hidden_of_excludes {forest : Forest Slot} {hidden : Bool} {i : Nat}
    (hi : i < forest.size) (h : forest.excludes hidden i = false) : hidden = false := by
  cases hidden with
  | false => rfl
  | true => exact absurd ((excludes_hidden hi).symm.trans h) (by decide)

theorem excludes_below {entry : Entry} {slot : Slot} {below next : Forest Slot} {i : Nat}
    (h : i < below.size) (hidden : Bool) :
    (node entry slot below next).excludes hidden (i + 1) =
      below.excludes (slot.suppressed || hidden) i := by
  rw [excludes, if_pos h]

theorem excludes_next {entry : Entry} {slot : Slot} {below next : Forest Slot} (hidden : Bool)
    (i : Nat) :
    (node entry slot below next).excludes hidden (i + below.size + 1) = next.excludes hidden i := by
  rw [excludes, if_neg (by omega), Nat.add_sub_cancel]

theorem slots_sized_excluded {forest : Forest Slot} {hidden : Bool} {i : Nat} (after : Nat)
    (hi : i < forest.size) (h : forest.excludes hidden i = true) :
    (forest.sized hidden after).slots[i]? = forest.slots[i]?.map Slot.blank := by
  induction forest generalizing hidden after i with
  | nil => exact absurd hi (Nat.not_lt_zero i)
  | node entry slot below next ihb ihn =>
    simp only [size] at hi
    cases i with
    | zero =>
      rw [sized_node_hidden h]
      rfl
    | succ i =>
      rw [slots, List.getElem?_cons_succ]
      simp only [excludes] at h
      split at h
      · rename_i hlt
        rw [getElem_sized_below hlt, List.getElem?_append_left (by simpa using hlt)]
        exact ihb _ hlt h
      · rename_i hle
        rw [getElem_sized_next hle, List.getElem?_append_right (by simpa using hle), length_slots]
        exact ihn after (by omega) h

theorem slots_sized_written {forest : Forest Slot} {i : Nat} (hwritable : forest.Writable)
    (after : Nat) (hi : i < forest.size) (h : forest.excludes false i = false) :
    ∃ entry slot below front back, forest.subtree i = node entry slot below nil ∧
      forest.stencil = front ++ ((forest.subtree i).stencil ++ back) ∧
      (forest.sized false after).slots[i]? =
        some (slot.placed entry below.stencil.length (after + back.length)) ∧
      (slot.placed entry below.stencil.length (after + back.length)).length =
        (forest.subtree i).stencil.length := by
  induction forest generalizing after i with
  | nil => exact absurd hi (Nat.not_lt_zero i)
  | node entry slot below next ihb ihn =>
    simp only [size] at hi
    obtain ⟨hentry, hnext⟩ := hwritable
    cases i with
    | zero =>
      have hslot : slot.suppressed = false := by simpa [excludes] using h
      refine ⟨entry, slot, below, [], next.stencil, rfl, ?_, ?_, ?_⟩
      · simp [subtree, stencil, hslot]
      · rw [sized_node_shown (by simp [hslot])]
        rfl
      · simp [subtree, stencil, hslot, length_item, Slot.placed]
    | succ i =>
      simp only [excludes, Bool.or_false] at h
      simp only [subtree]
      split at h
      · rename_i hlt
        have hslot := not_hidden_of_excludes hlt h
        obtain ⟨_, hheld, hbelow⟩ := hentry hslot
        rw [hslot] at h
        obtain ⟨e, s, b, front, back, hsub, hstencil, hget, hlength⟩ :=
          ihb hbelow (after + next.stencil.length) hlt h
        have hback : after + next.stencil.length + back.length =
            after + (back ++ next.stencil).length := by
          rw [List.length_append]
          omega
        rw [hback] at hget hlength
        rw [if_pos hlt]
        refine ⟨e, s, b, slot.own entry (slot.held entry below.stencil.length) ++ front,
          back ++ next.stencil, hsub, ?_, ?_, hlength⟩
        · rw [stencil_node hslot hheld, hstencil]
          simp only [List.append_assoc]
        · rw [getElem_sized_below hlt, hslot]
          exact hget
      · rename_i hle
        obtain ⟨e, s, b, front, back, hsub, hstencil, hget, hlength⟩ := ihn hnext after (by omega) h
        rw [if_neg hle]
        refine ⟨e, s, b, (if slot.suppressed then [] else slot.item entry below.stencil) ++ front,
          back, hsub, ?_, ?_, hlength⟩
        · rw [stencil, hstencil, List.append_assoc]
        · rw [getElem_sized_next hle]
          exact hget

end Forest

namespace Encoding

open Stencil Schema

theorem sizedTotal_cons (slot : Slot) (slots : List Slot) :
    sizedTotal (slot :: slots) = max slot.offset (sizedTotal slots) := rfl

theorem sizedTotal_append (a b : List Slot) :
    sizedTotal (a ++ b) = max (sizedTotal a) (sizedTotal b) := by
  induction a with
  | nil => simp [sizedTotal]
  | cons slot a ih => rw [List.cons_append, sizedTotal_cons, ih, sizedTotal_cons, Nat.max_assoc]

theorem sizedTotal_hidden (after : Nat) (forest : Forest Slot) :
    sizedTotal (forest.sized true after).slots = 0 := by
  induction forest generalizing after with
  | nil => rfl
  | node entry slot below next ihb ihn =>
    rw [Forest.sized_node_hidden (by simp), Forest.slots, sizedTotal_cons, sizedTotal_append, ihb,
      ihn]
    rfl

theorem sizedTotal_sized {forest : Forest Slot} (h : forest.Writable) (after : Nat) :
    max (sizedTotal (forest.sized false after).slots) after = after + forest.stencil.length := by
  induction forest generalizing after with
  | nil => simp [Forest.sized, Forest.slots, sizedTotal, Forest.stencil]
  | node entry slot below next ihb ihn =>
    obtain ⟨hentry, hnext⟩ := h
    have hmaxNext := ihn hnext after
    cases hslot : slot.suppressed with
    | true =>
      rw [Forest.sized_node_hidden (by simp [hslot]), Forest.slots, sizedTotal_cons,
        sizedTotal_append, sizedTotal_hidden]
      have hblank : slot.blank.offset = 0 := rfl
      have hstencil : (Forest.node entry slot below next).stencil = next.stencil := by
        simp [Forest.stencil, hslot]
      rw [hblank, hstencil]
      omega
    | false =>
      obtain ⟨_, hheld, hbelow⟩ := hentry hslot
      have hmaxBelow := ihb hbelow (after + next.stencil.length)
      have hchildren : slot.held entry below.stencil.length = below.stencil.length :=
        Slot.held_eq fun h => List.length_eq_zero_iff.mpr (hheld h)
      rw [Forest.sized_node_shown (by simp [hslot]), Forest.slots, sizedTotal_cons,
        sizedTotal_append, Forest.stencil_node hslot hheld]
      simp only [Slot.placed, Forest.extent, Bool.false_eq_true, if_false, List.length_append]
      omega

theorem plant_sized {schema : Schema} {slots : List Slot} {sizing : Sizing}
    (h : size schema slots = .ok sizing) :
    Forest.plant schema sizing.slots = (Forest.plant schema slots).sized false 0 := by
  obtain ⟨hvalid, hlength, rfl, _⟩ := size_eq_ok h
  have hnested : ((Forest.plant schema slots).sized false 0).Nested 0 :=
    Forest.nested_sized (Schema.nested_plant hvalid slots)
  have hplant := Forest.plant_of_nested hnested
  rwa [Forest.schema_sized, Forest.schema_plant hlength] at hplant

theorem length_sizing {schema : Schema} {slots : List Slot} {sizing : Sizing}
    (h : size schema slots = .ok sizing) : sizing.slots.length = schema.length := by
  obtain ⟨_, hlength, rfl, _⟩ := size_eq_ok h
  rw [Forest.length_slots, Forest.size_sized, ← Forest.length_schema, Forest.schema_plant hlength]

theorem sizedTotal_sizing {schema : Schema} {slots : List Slot} {sizing : Sizing}
    (h : size schema slots = .ok sizing) : sizedTotal sizing.slots = sizing.total := by
  obtain ⟨_, _, rfl, hwritable, _⟩ := size_eq_ok h
  have := sizedTotal_sized hwritable 0
  dsimp only
  omega

theorem write_of_ready {schema : Schema} {slots : List Slot} (hvalid : schema.validate = .ok ())
    (hlength : slots.length = schema.length) (hsized : slots.all Slot.sized = true)
    (hready : (Forest.plant schema slots).Ready 0)
    (htotal : sizedTotal slots = (Forest.plant schema slots).stencil.length) {buffer : Bytes}
    (hbuffer : sizedTotal slots ≤ buffer.length) :
    write schema slots buffer =
      .ok ⟨((Forest.plant schema slots).marked 0).slots,
        ⟨(Forest.plant schema slots).stencil.onto buffer, sizedTotal slots⟩⟩ := by
  have hholds := Place.holds_root hvalid hlength
  have hsize : (Forest.plant schema slots).size = schema.length := by
    rw [← Forest.length_schema, Forest.schema_plant hlength]
  rw [write, if_pos ⟨hlength, hsized⟩, if_pos hbuffer]
  have hrun := writeFrom_forest hholds hready
    (show ([] : Bytes).length + (Forest.plant schema slots).stencil.length + 0 =
      sizedTotal slots by simp [htotal]) (by simpa using hbuffer)
  simp only [Place.root, List.nil_append, List.append_nil, List.length_nil, Nat.zero_add] at hrun
  rw [hrun, writeFrom_length (by simp [hsize])]

theorem write_of_size {schema : Schema} {slots : List Slot} {sizing : Sizing}
    (h : size schema slots = .ok sizing) {buffer : Bytes} (hbuffer : sizing.total ≤ buffer.length) :
    write schema sizing.slots buffer =
      .ok ⟨(((Forest.plant schema slots).sized false 0).marked 0).slots,
        ⟨(Forest.plant schema slots).stencil.onto buffer, sizing.total⟩⟩ := by
  obtain ⟨hvalid, _, hsizing, hwritable, _⟩ := size_eq_ok h
  have hplant := plant_sized h
  have htotal := sizedTotal_sizing h
  have hall : sizing.slots.all Slot.sized = true := by
    rw [hsizing]
    exact Forest.all_sized false 0 (Forest.plant schema slots)
  have hrun := write_of_ready hvalid (length_sizing h) hall
    (hplant ▸ Forest.ready_sized hwritable 0)
    (by rw [htotal, hplant, Forest.stencil_sized, hsizing]) (htotal.symm ▸ hbuffer)
  rwa [hplant, Forest.stencil_sized, htotal] at hrun

theorem encode_of_size {schema : Schema} {slots : List Slot} {sizing : Sizing}
    (h : size schema slots = .ok sizing) :
    encode schema slots =
      if sizing.total < lengthLimit then
        .ok ⟨(((Forest.plant schema slots).sized false 0).marked 0).slots,
          ⟨(Forest.plant schema slots).encoding, sizing.total⟩⟩
      else Outcome.leaving fault sizing.slots := by
  have htotal : sizing.total = (Forest.plant schema slots).stencil.length := by
    rw [(size_eq_ok h).2.2.1]
  rw [encode, h, ok_bind, Bytes.zeros]
  split
  · rw [Outcome.leaving_ok, ok_bind, write_of_size h (by simp), htotal, onto_zeros]
    rfl
  · rfl

theorem excluded_forest {schema : Schema} {slots : List Slot} {place : Place Slot}
    {forest : Forest Slot} {i : Nat} (h : place.Holds schema slots forest) (hi : i < forest.size) :
    excluded schema slots (place.index + i) = forest.excludes place.hidden i := by
  induction forest generalizing place slots i with
  | nil => exact absurd hi (Nat.not_lt_zero i)
  | node entry slot below next ihb ihn =>
    simp only [Forest.size] at hi
    cases i with
    | zero => exact h.excluded
    | succ i =>
      rw [Forest.excludes]
      split
      · rename_i hlt
        rw [← h.hidden_below next, ← ihb h.holds_enter hlt]
        simp [Place.below, Nat.add_assoc, Nat.add_comm 1 i]
      · rename_i hle
        rw [← h.hidden_next (slot :: below.slots), ← ihn h.holds_skip (by omega)]
        simp only [Place.next]
        congr 1
        omega

theorem excluded_plant {schema : Schema} {slots : List Slot} {i : Nat}
    (hvalid : schema.validate = .ok ()) (hlength : slots.length = schema.length)
    (hi : i < schema.length) :
    excluded schema slots i = (Forest.plant schema slots).excludes false i := by
  rw [← Forest.schema_plant hlength, Forest.length_schema] at hi
  have hexcluded := excluded_forest (Place.holds_root hvalid hlength) hi
  rwa [show Place.root.index + i = i from Nat.zero_add i] at hexcluded

theorem two_pass_encoding {schema : Schema} {slots : List Slot} {sizing : Sizing}
    (h : size schema slots = .ok sizing) :
    let forest := Forest.plant schema slots
    (forest.schema = schema ∧ forest.slots = slots ∧ forest.Nested 0) ∧
      (sizing.total = forest.encoding.length ∧ sizing.total < wordLimit) ∧
      (∀ buffer : Bytes, sizing.total ≤ buffer.length → ∃ written,
        write schema sizing.slots buffer = .ok written ∧
          written.output = ⟨forest.stencil.onto buffer, sizing.total⟩) ∧
      (if sizing.total < lengthLimit then
        ∃ written, encode schema slots = .ok written ∧
          written.output = ⟨forest.encoding, sizing.total⟩
      else encode schema slots = Outcome.leaving fault sizing.slots) ∧
      ∀ i < schema.length, ∃ slot, sizing.slots[i]? = some slot ∧
        if excluded schema slots i then
          slot.length = 0 ∧ slot.contentLength = 0 ∧ slot.offset = 0
        else ∃ entry given below,
          forest.subtree i = .node entry given below .nil ∧
            slot.length = (forest.subtree i).encoding.length ∧
            slot.length ≤ slot.offset ∧ slot.offset ≤ sizing.total ∧
            (forest.encoding.drop (sizing.total - slot.offset)).take slot.length =
              (forest.subtree i).encoding ∧
            slot.contentLength = given.declared entry (given.held entry below.encoding.length) := by
  intro forest
  obtain ⟨hvalid, hlength, hsizing, hfits, hlimit⟩ := size_eq_ok h
  have hwritable : forest.Writable := hfits
  have hschema : forest.schema = schema := Forest.schema_plant hlength
  have hslots : forest.slots = slots := Forest.slots_plant hlength
  have hnested : forest.Nested 0 := Schema.nested_plant hvalid slots
  have htotal : sizing.total = forest.stencil.length := by rw [hsizing]
  have hsized : sizing.slots = (forest.sized false 0).slots := by rw [hsizing]
  refine ⟨⟨hschema, hslots, hnested⟩, ⟨?_, hlimit⟩, ?_, ?_, ?_⟩
  · rw [htotal, Forest.length_encoding]
  · intro buffer hbuffer
    exact ⟨_, write_of_size h hbuffer, rfl⟩
  · have hencode := encode_of_size h
    split
    · rename_i hfits
      rw [if_pos hfits] at hencode
      exact ⟨_, hencode, rfl⟩
    · rename_i hfits
      rw [if_neg hfits] at hencode
      exact hencode
  · intro i hi
    have hexcluded : excluded schema slots i = forest.excludes false i :=
      excluded_plant hvalid hlength hi
    clear_value forest
    rw [← hschema, Forest.length_schema] at hi
    rw [hexcluded, hsized]
    cases hhidden : forest.excludes false i with
    | true =>
      have hget := Forest.slots_sized_excluded 0 hi hhidden
      rw [List.getElem?_eq_getElem (l := forest.slots) (by simpa using hi), Option.map_some] at hget
      exact ⟨_, hget, rfl, rfl, rfl⟩
    | false =>
      obtain ⟨entry, given, below, front, back, hsubtree, hstencil, hget, hsubLength⟩ :=
        Forest.slots_sized_written hwritable 0 hi hhidden
      have hencoding := Forest.encoding_eq_append hstencil
      have hitem : (given.placed entry below.stencil.length (0 + back.length)).length =
          (forest.subtree i).encoding.length := by
        rw [hsubLength, Forest.length_encoding]
      have hoffset : (given.placed entry below.stencil.length (0 + back.length)).offset =
          back.length + (forest.subtree i).encoding.length := by
        rw [← hitem, Nat.zero_add]
        rfl
      have hwhole : sizing.total =
          front.length + ((forest.subtree i).encoding.length + back.length) := by
        rw [htotal, ← Forest.length_encoding, hencoding]
        simp
      refine ⟨_, hget, entry, given, below, hsubtree, hitem, by omega, by omega, ?_, ?_⟩
      · rw [hencoding, hitem, List.drop_left' (by rw [length_fill]; omega), List.take_left]
      · rw [Forest.length_encoding]
        rfl

def recordSchema : Schema :=
  [.sequence 0, (Entry.leaf 1 Tag.integer).optional, .explicit 1 0, .leaf 2 Tag.bitString]

def recordSlots : List Slot :=
  [.ofValue .none, { Slot.ofValue (.uint8 5) with suppressed := true }, .ofValue .none,
    .ofValue (.bits [0xA8] 3)]

theorem two_pass_encoding_record :
    ∃ sizing, size recordSchema recordSlots = .ok sizing ∧ sizing.total = 8 ∧
      ∃ written, encode recordSchema recordSlots = .ok written ∧
        written.output = ⟨[0x30, 0x06, 0xA0, 0x04, 0x03, 0x02, 0x03, 0xA8], 8⟩ := by
  obtain ⟨sizing, h, htotal⟩ :
      ∃ sizing, size recordSchema recordSlots = .ok sizing ∧ sizing.total = 8 := ⟨_, rfl, rfl⟩
  have hencode := (two_pass_encoding h).2.2.2.1
  rw [htotal, if_pos (by decide)] at hencode
  obtain ⟨written, hwritten, houtput⟩ := hencode
  exact ⟨sizing, h, htotal, written, hwritten, houtput.trans (by decide)⟩

end Encoding

end DerTemplate

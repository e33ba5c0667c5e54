import DerTemplate.Proofs.Encoding.FirstPass
import DerTemplate.Proofs.Header.Length

/-!
The first pass adds up the octets of the encoding under a check, and an encoding that is too long
is turned down. It does not check the sums for one item, its content length and its size.
-/

namespace DerTemplate

namespace Encoding

open Stencil Header

variable {entry : Entry} {slot : Slot}

theorem fits_of_lt {children : Nat}
    (h : slot.declared entry (slot.held entry children) < lengthLimit) :
    slot.fits entry children = true := by
  by_cases hreplace : ∃ encoded, slot.value = .replace encoded
  · obtain ⟨encoded, hvalue⟩ := hreplace
    rw [Slot.fits, hvalue]
  · have hvalue := not_exists.mp hreplace
    -- the header takes ten octets at most
    have hnine := lengthSize_le_nine (lt_wordLimit h)
    have hbody : (if entry.headerOnly then 0 else (slot.body entry).length) ≤
        (slot.body entry).length := by
      split <;> omega
    have hlimits : lengthLimit + 10 ≤ wordLimit := by decide
    rw [fits_iff hvalue, length_own entry hvalue]
    refine ⟨lt_wordLimit h, ?_⟩
    unfold Slot.declared at h hnine ⊢
    omega

end Encoding

namespace Forest

open Encoding

def Declarable : Forest Slot → Prop
  | nil => True
  | node entry slot below next =>
    (slot.suppressed = false →
      slot.declared entry (slot.held entry below.stencil.length) < lengthLimit ∧
        below.Declarable) ∧ next.Declarable

theorem overflows_of_declarable {forest : Forest Slot} {after : Nat} (h : forest.Declarable) :
    forest.overflows after = false := by
  induction forest generalizing after with
  | nil => rfl
  | node entry slot below next ihb ihn =>
    obtain ⟨hentry, hnext⟩ := h
    rw [overflows, ihn hnext]
    cases hslot : slot.suppressed with
    | true => rfl
    | false =>
      obtain ⟨hdeclared, hbelow⟩ := hentry hslot
      rw [ihb hbelow, fits_of_lt hdeclared]
      rfl

end Forest

namespace Encoding

open Schema

variable {schema : Schema} {slots : List Slot}

theorem checkChoicesFrom_cases (schema : Schema) (slots : List Slot) (i : Nat) (written : Bool)
    (rest : List Entry) :
    checkChoicesFrom schema slots i written rest = .ok () ∨
      ∃ error, checkChoicesFrom schema slots i written rest = refuse error := by
  induction rest generalizing i written with
  | nil => exact .inl rfl
  | cons entry rest ih =>
    unfold checkChoicesFrom
    split
    · exact ih _ _
    · dsimp only
      split
      · exact ih _ _
      · split
        · exact .inr ⟨_, rfl⟩
        · exact ih _ _

theorem fault_of_size (hvalid : schema.validate = .ok ()) (hlength : slots.length = schema.length)
    (hfault : (size schema slots).outcome = fault) :
    (Forest.plant schema slots).overflows 0 = true := by
  rcases checkChoicesFrom_cases schema slots 0 false schema with hchoices | ⟨error, hchoices⟩
  · rcases size_cases hvalid hlength hchoices with ⟨_, hsize⟩ | ⟨⟨failure, left⟩, hsize, hwhy⟩
    · rw [hsize] at hfault
      cases hfault
    · rw [hsize] at hfault
      cases hfault
      cases hwhy with
      | fault hoverflows => exact hoverflows
  · have hsize : size schema slots = .error ⟨.refused error, slots⟩ := by
      rw [size, checkSlots, hvalid, ok_bind, if_pos hlength, checkChoices, hchoices]
      rfl
    rw [hsize] at hfault
    cases hfault

theorem size_ne_fault (hvalid : schema.validate = .ok ()) (hlength : slots.length = schema.length)
    (hdeclarable : (Forest.plant schema slots).Declarable) :
    (size schema slots).outcome ≠ fault := by
  intro hfault
  have hoverflows := fault_of_size hvalid hlength hfault
  rw [Forest.overflows_of_declarable hdeclarable] at hoverflows
  cases hoverflows

theorem size_overflow (hvalid : schema.validate = .ok ()) (hlength : slots.length = schema.length) :
    (∀ sizing, size schema slots = .ok sizing →
      sizing = ⟨((Forest.plant schema slots).sized false 0).slots,
        (Forest.plant schema slots).stencil.length⟩ ∧
      (Forest.plant schema slots).stencil.length < wordLimit) ∧
    ((size schema slots).outcome = fault → (Forest.plant schema slots).overflows 0 = true) ∧
    (checkChoices schema slots = .ok () → (Forest.plant schema slots).Sound →
      (size schema slots).outcome =
        if (Forest.plant schema slots).overflows 0 then fault
        else if (Forest.plant schema slots).stencil.length < wordLimit then
          .ok ⟨((Forest.plant schema slots).sized false 0).slots,
            (Forest.plant schema slots).stencil.length⟩
        else refuse (.resourceExhausted .encodedSize)) := by
  refine ⟨fun sizing hsize => ?_, fault_of_size hvalid hlength, fun hchoices hsound => ?_⟩
  · obtain ⟨_, _, rfl, _, hlimit⟩ := size_eq_ok hsize
    exact ⟨rfl, hlimit⟩
  · rcases size_cases hvalid hlength hchoices with
      ⟨hsizable, hsize⟩ | ⟨⟨failure, left⟩, hsize, hwhy⟩
    · have hlimit := hsizable.limit
      rw [Nat.zero_add] at hlimit
      rw [hsize, hsizable.fits, if_neg Bool.false_ne_true, if_pos hlimit]
      rfl
    · rw [hsize]
      cases hwhy with
      | fault hoverflows =>
        rw [hoverflows, if_pos rfl]
        rfl
      | exhausted hfits hlimit =>
        rw [hfits, if_neg Bool.false_ne_true, if_neg (Nat.not_lt.mpr (by omega))]
        rfl
      | unsound error hunsound => exact absurd hsound hunsound

def boxedSchema : Schema := [.sequence 0, .leaf 1 0x04]

def boxedSlots : List Slot := [.ofValue .none, .ofValue (.bytes [0xAA, 0xBB])]

theorem size_overflow_boxed :
    (size boxedSchema boxedSlots).outcome =
      .ok ⟨[⟨.none, false, none, 6, 4, 6, true, none⟩,
        ⟨.bytes [0xAA, 0xBB], false, none, 4, 2, 4, true, none⟩], 6⟩ := by
  have hsound : (Forest.plant boxedSchema boxedSlots).Sound := by
    have houter : (boxedSlots[0]).Sound (.sequence 0) 4 := ⟨fun _ => nofun, nofun, nofun⟩
    have hinner : (boxedSlots[1]).Sound (.leaf 1 0x04) 0 :=
      ⟨nofun, fun _ => rfl, fun _ => ⟨_, fun _ => rfl⟩⟩
    exact ⟨fun _ => ⟨houter, fun _ => ⟨hinner, trivial⟩, trivial⟩, trivial⟩
  exact ((size_overflow rfl rfl).2.2 rfl hsound).trans (by decide)

def longSlots : List Slot := [.ofValue (.placeholder (wordLimit - 1))]

theorem header_overflows :
    Schema.validate [.leaf 0 0x04] = .ok () ∧ checkChoices [.leaf 0 0x04] longSlots = .ok () ∧
      (Forest.plant [.leaf 0 0x04] longSlots).Sound ∧
      wordLimit ≤ (Forest.plant [.leaf 0 0x04] longSlots).stencil.length ∧
      (size [.leaf 0 0x04] longSlots).outcome = fault := by
  refine ⟨rfl, rfl, ?_, ?_, by decide +kernel⟩
  · exact ⟨fun _ => ⟨⟨nofun, fun _ => rfl, fun _ => ⟨_, fun _ => rfl⟩⟩, trivial⟩, trivial⟩
  · have hplant : Forest.plant [.leaf 0 0x04] longSlots =
        .node (.leaf 0 0x04) longSlots[0] .nil .nil := rfl
    have hshown : (longSlots[0]).suppressed = false := rfl
    have hbody : ((longSlots[0]).body (.leaf 0 0x04)).length = wordLimit - 1 :=
      Stencil.length_gap _
    have hvalue (encoded : Bytes) : (longSlots[0]).value ≠ .replace encoded := nofun
    have hown := length_own (.leaf 0 0x04) hvalue ((longSlots[0]).held (.leaf 0 0x04) 0)
    rw [if_neg (by decide), hbody] at hown
    rw [hplant, Forest.stencil, hshown, if_neg Bool.false_ne_true, List.length_append,
      Forest.length_item]
    have hnil : (Forest.nil : Forest Slot).stencil.length = 0 := rfl
    rw [hnil]
    omega

end Encoding

end DerTemplate

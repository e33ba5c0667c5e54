import DerTemplate.Proofs.Encoding.Items

namespace DerTemplate

namespace Forest

open Encoding

theorem sizable_of_writable {forest : Forest Slot} {after : Nat} (hwritable : forest.Writable)
    (hkept : forest.Shown HeaderKept) (hlimit : after + forest.stencil.length < wordLimit) :
    forest.Sizable after := by
  induction forest generalizing after with
  | nil => exact ⟨trivial, rfl, hlimit⟩
  | node entry slot below next ihb ihn =>
    obtain ⟨hshown, hwritableNext⟩ := hwritable
    obtain ⟨hkeptShown, hkeptNext⟩ := hkept
    have hlengths := hlimit
    rw [stencil, List.length_append] at hlengths
    have hnext : next.Sizable after := ihn hwritableNext hkeptNext (by omega)
    cases hslot : slot.suppressed with
    | true => exact hnext.suppressed hslot
    | false =>
      obtain ⟨hentry, hheld, hbelow⟩ := hshown hslot
      obtain ⟨hheader, hkeptBelow⟩ := hkeptShown hslot
      have halone : slot.nests entry = false → below.stencil.length = 0 := fun hnests =>
        List.length_eq_zero_iff.mpr (hheld hnests)
      rw [hslot, if_neg Bool.false_ne_true, length_item] at hlengths
      have hfits : slot.fits entry below.stencil.length = true := hentry.fits (by omega)
      rw [Slot.held_eq halone] at hlengths
      exact hnext.shown (ihb hbelow hkeptBelow (by omega)) (hentry.sound hheader halone) hfits hlimit

theorem kept_of_sound {forest : Forest Slot} (h : forest.Sound) : forest.Shown HeaderKept := by
  induction forest with
  | nil => trivial
  | node entry slot below next ihb ihn =>
    obtain ⟨hshown, hnext⟩ := h
    refine ⟨fun hslot => ?_, ihn hnext⟩
    obtain ⟨hsound, hbelow⟩ := hshown hslot
    exact ⟨hsound.kept, ihb hbelow⟩

end Forest

namespace Encoding

variable {schema : Schema} {slots : List Slot}

theorem size_of_writable (hvalid : schema.validate = .ok ()) (hlength : slots.length = schema.length)
    (hchoices : checkChoices schema slots = .ok ())
    (hwritable : (Forest.plant schema slots).Writable)
    (hkept : (Forest.plant schema slots).Shown HeaderKept)
    (hlimit : (Forest.plant schema slots).stencil.length < wordLimit) :
    size schema slots = .ok ⟨((Forest.plant schema slots).sized false 0).slots,
      (Forest.plant schema slots).stencil.length⟩ := by
  have hsizable := Forest.sizable_of_writable hwritable hkept (by rwa [Nat.zero_add])
  rcases size_cases hvalid hlength hchoices with ⟨_, hsize⟩ | ⟨stop, _, hwhy⟩
  · exact hsize
  · exact absurd hsizable hwhy.not_sizable

theorem shown_kept_of_size {sizing : Sizing} (h : size schema slots = .ok sizing) :
    (Forest.plant schema slots).Shown HeaderKept :=
  Forest.kept_of_sound (sizable_of_size h).2.2.2.sound

end Encoding

end DerTemplate

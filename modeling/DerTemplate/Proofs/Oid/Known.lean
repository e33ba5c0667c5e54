import DerTemplate.Oid.Dotted
import DerTemplate.Oid.Lookup
import Mathlib.Data.List.Nodup

namespace DerTemplate.Oid

def Known.Sound (known : Known) : Prop :=
  octetSum known.der = .ok known.sum ∧ checkContent known.der = .ok ()

def Known.check (known : Known) : Bool :=
  known.der.foldl (fun n b => n + b.toNat) 0 == known.sum && decide (known.sum < 0x100000000) &&
    (checkContent known.der).isOk

theorem sound_of_check {known : Known} (h : known.check = true) : known.Sound := by
  obtain ⟨h, hcontent⟩ := Bool.and_eq_true_iff.mp h
  obtain ⟨hsum, hlt⟩ := Bool.and_eq_true_iff.mp h
  rw [beq_iff_eq] at hsum
  constructor
  · rw [octetSum, hsum]
    exact if_pos (of_decide_eq_true hlt)
  · cases hresult : checkContent known.der with
    | ok _ => rfl
    | error failure => rw [hresult] at hcontent; cases hcontent

theorem table_sound (category : Category) : ∀ known ∈ category.table, known.Sound := by
  have hcheck : category.table.all Known.check = true := by cases category <;> decide +kernel
  intro known hknown
  exact sound_of_check (List.all_eq_true.mp hcheck known hknown)

theorem sums_nodup (category : Category) : (category.table.map Known.sum).Nodup := by
  cases category <;> decide +kernel

theorem bySum_of_mem {category : Category} {known : Known} (h : known ∈ category.table) :
    category.bySum? known.sum = some known := by
  have hsome : (category.bySum? known.sum).isSome = true := by
    rw [Category.bySum?, List.find?_isSome]
    exact ⟨known, h, beq_self_eq_true _⟩
  obtain ⟨found, hfound⟩ := Option.isSome_iff_exists.mp hsome
  have hmem := List.mem_of_find?_eq_some hfound
  have hsum : found.sum = known.sum := by simpa using List.find?_some hfound
  rw [hfound, List.inj_on_of_nodup_map (sums_nodup category) hmem h hsum]

theorem bySum_eq_some {category : Category} {sum : Nat} {known : Known}
    (h : category.bySum? sum = some known) : known.sum = sum ∧ known.Sound :=
  ⟨by simpa using List.find?_some h, table_sound category known (List.mem_of_find?_eq_some h)⟩

theorem verify_bySum {category : Category} {sum : Nat} {known : Known}
    (h : category.bySum? sum = some known) : category.verify sum known.der = .ok () := by
  have hfound : (category.known? sum known.der).isSome = true := by
    rw [Category.known?, List.find?_isSome]
    exact ⟨known, List.mem_of_find?_eq_some h, by simpa using List.find?_some h⟩
  rw [Category.verify, if_pos (.inr hfound)]

end DerTemplate.Oid

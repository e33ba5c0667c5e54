import DerTemplate.Proofs.Schema.Siblings

namespace DerTemplate

namespace Forest

variable {σ : Type}

def rootIndices : Forest σ → Nat → List Nat
  | nil, _ => []
  | node _ _ below next, first => first :: next.rootIndices (first + 1 + below.size)

end Forest

namespace Schema.Place.Holds

variable {σ : Type} {schema : Schema} {slots : List σ} {place : Place σ} {forest : Forest σ}
variable {entry : Entry} {slot : σ} {below next : Forest σ} {i : Nat}

theorem indicesAt (h : place.Holds schema slots forest) :
    schema.indicesAt place.depth place.index forest.size = forest.rootIndices place.index := by
  induction forest generalizing place with
  | nil => rfl
  | node entry slot below next _ ihn =>
    have hroot : schema.indicesAt place.depth place.index 1 = [place.index] := by
      simp [Schema.indicesAt, h.getElem_schema, h.depth]
    have hinner : schema.indicesAt place.depth (place.index + 1) below.size = [] := by
      rw [List.eq_nil_iff_forall_not_mem]
      intro i hi
      obtain ⟨hfirst, hlast, e, he, hdepth⟩ := mem_indicesAt.mp hi
      have hnests : schema.Nests place.index i := ⟨hfirst, by rw [h.subtreeEnd]; omega⟩
      have := depth_lt_of_nests hnests h.getElem_schema he
      have := h.depth
      omega
    have hnext := ihn h.holds_skip
    simp only [Place.next] at hnext
    rw [Forest.size, indicesAt_add, indicesAt_add, hroot, hinner, List.append_nil,
      ← Nat.add_assoc, hnext]
    rfl

theorem siblings_root (h : root.Holds schema slots forest) :
    schema.siblings none = forest.rootIndices 0 := by
  have hsize : schema.length = forest.size := by
    rw [h.schema]
    simp [root]
  rw [siblings, hsize]
  exact h.indicesAt

theorem siblings_below (h : place.Holds schema slots (.node entry slot below next)) :
    schema.siblings (some place.index) = below.rootIndices (place.index + 1) := by
  have hinner := h.holds_enter.indicesAt
  simp only [Place.below] at hinner
  rw [siblings, h.getElem_schema, Option.elim_some, h.subtreeEnd, h.depth, ← hinner]
  congr 1
  omega

theorem locate {property : Forest σ → Prop} (h : place.Holds schema slots forest)
    (hproperty : property forest)
    (hinherit : ∀ entry slot below next, property (.node entry slot below next) →
      property below ∧ property next)
    (hfirst : place.index ≤ i) (hlast : i < place.index + forest.size) :
    ∃ (inner : Place σ) (entry : Entry) (slot : σ) (below next : Forest σ), inner.index = i ∧
      inner.Holds schema slots (.node entry slot below next) ∧
      property (.node entry slot below next) := by
  induction forest generalizing place with
  | nil => exact absurd hlast (by simp [Forest.size]; omega)
  | node entry slot below next ihb ihn =>
    obtain ⟨hbelow, hnext⟩ := hinherit entry slot below next hproperty
    rw [Forest.size] at hlast
    rcases Nat.eq_or_lt_of_le hfirst with hroot | hpast
    · exact ⟨place, entry, slot, below, next, hroot, h, hproperty⟩
    · by_cases hinside : i < place.index + 1 + below.size
      · exact ihb h.holds_enter hbelow hpast hinside
      · refine ihn h.holds_skip hnext (Nat.not_lt.mp hinside) ?_
        simp only [Place.next]
        omega

end Schema.Place.Holds

end DerTemplate

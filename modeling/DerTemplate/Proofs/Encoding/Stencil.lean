import DerTemplate.Bytes

namespace DerTemplate.Encoding

abbrev Stencil := List (Option UInt8)

namespace Stencil

def solid (bytes : Bytes) : Stencil := bytes.map some

def gap (length : Nat) : Stencil := List.replicate length none

/-- The octets that stand in the place of the stencil once it lies over `under`. Where `under` is
too short, a gap is zero. -/
def fill : Stencil → Bytes → Bytes
  | [], _ => []
  | mark :: marks, under => mark.getD (under.headD 0) :: fill marks under.tail

def onto (stencil : Stencil) (under : Bytes) : Bytes :=
  stencil.fill under ++ under.drop stencil.length

@[simp] theorem length_solid (bytes : Bytes) : (solid bytes).length = bytes.length := by
  simp [solid]

@[simp] theorem length_gap (length : Nat) : (gap length).length = length := by simp [gap]

@[simp] theorem length_fill (stencil : Stencil) (under : Bytes) :
    (stencil.fill under).length = stencil.length := by
  induction stencil generalizing under with
  | nil => rfl
  | cons mark marks ih => simp only [fill, List.length_cons, ih]

@[simp] theorem fill_solid (bytes under : Bytes) : (solid bytes).fill under = bytes := by
  induction bytes generalizing under with
  | nil => rfl
  | cons b bytes ih =>
    simp only [solid, List.map_cons, fill, Option.getD_some]
    exact congrArg (List.cons b) (ih under.tail)

theorem fill_append (a b : Stencil) (under : Bytes) :
    (a ++ b).fill under = a.fill under ++ b.fill (under.drop a.length) := by
  induction a generalizing under with
  | nil => rfl
  | cons mark marks ih =>
    simp only [List.cons_append, fill, ih, List.length_cons, List.drop_tail]

theorem fill_gap {length : Nat} {under : Bytes} (h : length ≤ under.length) :
    (gap length).fill under = under.take length := by
  induction length generalizing under with
  | zero => simp [gap, fill]
  | succ length ih =>
    cases under with
    | nil => simp at h
    | cons b under =>
      simp only [gap, List.replicate_succ, fill, Option.getD_none, List.headD_cons, List.tail_cons,
        List.take_succ_cons]
      exact congrArg (List.cons b) (ih (Nat.le_of_succ_le_succ h))

theorem fill_zeros (stencil : Stencil) (length : Nat) :
    stencil.fill (List.replicate length 0) = stencil.fill [] := by
  induction stencil generalizing length with
  | nil => rfl
  | cons mark marks ih =>
    cases length with
    | zero => rfl
    | succ length =>
      simp only [List.replicate_succ, fill, List.headD_cons, List.tail_cons, List.headD_nil,
        List.tail_nil, ih]

theorem onto_zeros (stencil : Stencil) :
    stencil.onto (List.replicate stencil.length 0) = stencil.fill [] := by
  rw [onto, fill_zeros, List.drop_eq_nil_of_le (by simp), List.append_nil]

end Stencil

end DerTemplate.Encoding

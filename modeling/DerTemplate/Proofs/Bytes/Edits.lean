import DerTemplate.Proofs.Bytes.Window

namespace DerTemplate

structure Edit where
  start : Nat
  stop : Nat
  octets : Bytes
deriving DecidableEq, Repr

def InOrder : Nat → Nat → List Edit → Prop
  | start, stop, [] => start ≤ stop
  | start, stop, edit :: edits =>
    start ≤ edit.start ∧ edit.start ≤ edit.stop ∧ InOrder edit.stop stop edits

namespace Bytes

variable {bytes part : Bytes} {idx : Nat}

def between (bytes : Bytes) (start stop : Nat) : Bytes := (bytes.take stop).drop start

theorem between_self (bytes : Bytes) (idx : Nat) : bytes.between idx idx = [] :=
  List.drop_eq_nil_of_le (List.length_take_le idx bytes)

theorem between_append {start middle stop : Nat} (hstart : start ≤ middle) (hmiddle : middle ≤ stop) :
    bytes.between start middle ++ bytes.between middle stop = bytes.between start stop := by
  have hfront : bytes.between start middle = (bytes.between start stop).take (middle - start) := by
    rw [between, between, List.take_drop, List.take_take, Nat.add_sub_cancel' hstart,
      Nat.min_eq_left hmiddle]
  have hback : bytes.between middle stop = (bytes.between start stop).drop (middle - start) := by
    rw [between, between, List.drop_drop, Nat.add_sub_cancel' hstart]
  rw [hfront, hback, List.take_append_drop]

theorem Holds.between (h : bytes.Holds idx part) : bytes.between idx (idx + part.length) = part := by
  rw [Bytes.between, List.drop_take, Nat.add_sub_cancel_left]
  exact h.2

def edited (bytes : Bytes) : Nat → Nat → List Edit → Bytes
  | start, stop, [] => bytes.between start stop
  | start, stop, edit :: edits =>
    bytes.between start edit.start ++ (edit.octets ++ bytes.edited edit.stop stop edits)

end Bytes

variable {bytes : Bytes} {start middle stop : Nat} {edits others : List Edit}

theorem InOrder.widen (h : InOrder middle stop edits) (hstart : start ≤ middle) :
    InOrder start stop edits := by
  cases edits with
  | nil => exact Nat.le_trans hstart h
  | cons edit edits => exact ⟨Nat.le_trans hstart h.1, h.2⟩

theorem InOrder.append (h : InOrder start middle edits) (hothers : InOrder middle stop others) :
    InOrder start stop (edits ++ others) := by
  induction edits generalizing start with
  | nil => exact hothers.widen h
  | cons edit edits ih =>
    obtain ⟨hstart, hedit, hrest⟩ := h
    exact ⟨hstart, hedit, ih hrest⟩

namespace Bytes

theorem edited_from (h : InOrder middle stop edits) (hstart : start ≤ middle) :
    bytes.edited start stop edits = bytes.between start middle ++ bytes.edited middle stop edits := by
  cases edits with
  | nil => exact (between_append hstart h).symm
  | cons edit edits => rw [edited, edited, ← between_append hstart h.1, List.append_assoc]

theorem edited_append (h : InOrder start middle edits) (hothers : InOrder middle stop others) :
    bytes.edited start stop (edits ++ others) =
      bytes.edited start middle edits ++ bytes.edited middle stop others := by
  induction edits generalizing start with
  | nil => exact edited_from hothers h
  | cons edit edits ih =>
    obtain ⟨_, _, hrest⟩ := h
    rw [List.cons_append, edited, edited, ih hrest, List.append_assoc, List.append_assoc]

end Bytes

end DerTemplate

import DerTemplate.Bytes

namespace DerTemplate.Bytes

def Holds (bytes : Bytes) (idx : Nat) (part : Bytes) : Prop :=
  idx + part.length ≤ bytes.length ∧ (bytes.drop idx).take part.length = part

variable {bytes part : Bytes} {idx : Nat}

theorem Holds.slice (h : bytes.Holds idx part) : bytes.slice idx (idx + part.length) = .ok part :=
  slice_eq_ok_iff.mpr ⟨Nat.le_add_right _ _, h.1, by rw [Nat.add_sub_cancel_left]; exact h.2⟩

theorem holds_of_slice {stop : Nat} (h : bytes.slice idx stop = .ok part) :
    bytes.Holds idx part ∧ stop = idx + part.length := by
  obtain ⟨hle, hstop, rfl⟩ := slice_eq_ok_iff.mp h
  have hlength : ((bytes.drop idx).take (stop - idx)).length = stop - idx := by
    rw [List.length_take, List.length_drop]
    omega
  exact ⟨⟨by omega, by rw [hlength]⟩, by omega⟩

theorem holds_self (bytes : Bytes) : bytes.Holds 0 bytes := ⟨by simp, by simp⟩

theorem holds_nil (h : idx ≤ bytes.length) : bytes.Holds idx [] := ⟨by simpa using h, by simp⟩

theorem holds_append_iff {a b : Bytes} :
    bytes.Holds idx (a ++ b) ↔ bytes.Holds idx a ∧ bytes.Holds (idx + a.length) b := by
  unfold Holds
  rw [List.length_append, List.take_add, List.drop_drop]
  constructor
  · rintro ⟨hle, h⟩
    have hlength : ((bytes.drop idx).take a.length).length = a.length := by
      rw [List.length_take, List.length_drop]
      omega
    obtain ⟨ha, hb⟩ := List.append_inj h hlength
    exact ⟨⟨by omega, ha⟩, by omega, hb⟩
  · rintro ⟨⟨_, ha⟩, hle, hb⟩
    exact ⟨by omega, by rw [ha, hb]⟩

theorem holds_inside (before part after : Bytes) :
    Holds (before ++ (part ++ after)) before.length part := by
  have hall := holds_self (before ++ (part ++ after))
  rw [holds_append_iff, holds_append_iff, Nat.zero_add] at hall
  exact hall.2.1

theorem holds_singleton_iff {b : UInt8} : bytes.Holds idx [b] ↔ bytes[idx]? = some b := by
  unfold Holds
  rw [List.length_singleton, List.getElem?_eq_some_iff]
  constructor
  · rintro ⟨hle, h⟩
    refine ⟨hle, ?_⟩
    rw [List.drop_eq_getElem_cons hle, List.take_succ_cons] at h
    exact (List.cons.inj h).1
  · rintro ⟨hlt, h⟩
    refine ⟨hlt, ?_⟩
    rw [List.drop_eq_getElem_cons hlt, h]
    rfl

theorem holds_cons_iff {b : UInt8} {rest : Bytes} :
    bytes.Holds idx (b :: rest) ↔ bytes[idx]? = some b ∧ bytes.Holds (idx + 1) rest := by
  rw [← List.singleton_append, holds_append_iff, holds_singleton_iff, List.length_singleton]

theorem Holds.fetch {b : UInt8} {rest : Bytes} (h : bytes.Holds idx (b :: rest)) :
    fetch bytes idx = .ok b := fetch_eq_ok_iff.mpr (holds_cons_iff.mp h).1

theorem Holds.unique {other : Bytes} (h : bytes.Holds idx part) (hother : bytes.Holds idx other)
    (hlength : part.length = other.length) : part = other := by
  rw [← h.2, ← hother.2, hlength]

theorem Holds.exists_append {whole front : Bytes} (hwhole : bytes.Holds idx whole)
    (hfront : bytes.Holds idx front) (hle : front.length ≤ whole.length) :
    ∃ behind, whole = front ++ behind := by
  refine ⟨whole.drop front.length, ?_⟩
  rw [← List.take_append_drop front.length whole, holds_append_iff] at hwhole
  have hlength : (whole.take front.length).length = front.length := by
    rw [List.length_take]
    omega
  rw [← hwhole.1.unique hfront hlength, hlength, List.take_append_drop]

theorem Holds.drop {k : Nat} (h : bytes.Holds idx part) (hk : k ≤ part.length) :
    bytes.Holds (idx + k) (part.drop k) := by
  rw [← List.take_append_drop k part, holds_append_iff] at h
  rw [List.length_take, Nat.min_eq_left hk] at h
  exact h.2

end DerTemplate.Bytes

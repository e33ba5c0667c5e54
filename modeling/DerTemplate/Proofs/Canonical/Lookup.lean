import DerTemplate.Canonical.Ledger
import Mathlib.Data.List.Pairwise

namespace DerTemplate.Canonical.Ledger

def Ordered (records : List Record) : Prop := records.Pairwise fun a b => a.start < b.start

variable {records : List Record} {record other : Record} {start low size k : Nat}

theorem Ordered.lt {i j : Nat} (h : Ordered records) (hi : records[i]? = some record)
    (hj : records[j]? = some other) (hlt : i < j) : record.start < other.start := by
  obtain ⟨hiLength, hiGet⟩ := List.getElem?_eq_some_iff.mp hi
  obtain ⟨hjLength, hjGet⟩ := List.getElem?_eq_some_iff.mp hj
  have hlt := List.pairwise_iff_getElem.mp h i j hiLength hjLength hlt
  rwa [hiGet, hjGet] at hlt

theorem narrow_eq (h : Ordered records) (hk : records[k]? = some record) (hlow : low ≤ k)
    (hsize : k < low + size) (hroom : low + size ≤ records.length) :
    narrow records record.start low size = k := by
  induction size using Nat.strongRecOn generalizing low with
  | ind size ih =>
    rw [narrow]
    split
    · rename_i hmany
      have hmid : low + size / 2 < records.length := by omega
      -- the record in the middle begins past `start` just if index `k` is in the lower half
      obtain ⟨middle, hget⟩ : ∃ middle, records[low + size / 2]? = some middle :=
        ⟨_, List.getElem?_eq_getElem hmid⟩
      dsimp only
      rw [hget, Option.any_some]
      split
      · rename_i hpast
        have hbefore : k < low + size / 2 := by
          by_contra hle
          have hpast := of_decide_eq_true hpast
          rcases Nat.lt_or_eq_of_le (Nat.not_lt.mp hle) with hlt | heq
          · have := h.lt hget hk hlt
            omega
          · rw [heq, hk] at hget
            cases hget
            omega
        exact ih _ (by omega) hlow (by omega) (by omega)
      · rename_i hpast
        have hbehind : low + size / 2 ≤ k := by
          by_contra hlt
          have := h.lt hk hget (Nat.not_le.mp hlt)
          exact hpast (decide_eq_true this)
        exact ih _ (by omega) hbehind (by omega) (by omega)
    · omega

theorem find?_eq_some_iff {ledger : Ledger} (h : Ordered ledger.records) :
    ledger.find? start = some record ↔ record ∈ ledger.records ∧ record.start = start := by
  unfold find?
  constructor
  · intro hfind
    obtain ⟨hget, hstart⟩ := Option.filter_eq_some_iff.mp hfind
    exact ⟨List.mem_of_getElem? hget, beq_iff_eq.mp hstart⟩
  · rintro ⟨hmem, rfl⟩
    obtain ⟨k, hk⟩ := List.mem_iff_getElem?.mp hmem
    have hlt := (List.getElem?_eq_some_iff.mp hk).1
    rw [narrow_eq h hk (Nat.zero_le k) (by omega) (by omega), hk]
    exact Option.filter_eq_some_iff.mpr ⟨rfl, beq_iff_eq.mpr rfl⟩

theorem ordered_sorted {ledger : Ledger} (h : (ledger.records.map Record.start).Nodup) :
    Ordered ledger.sorted.records := by
  have hperm := List.mergeSort_perm ledger.records fun a b => a.start ≤ b.start
  have hle : ledger.sorted.records.Pairwise fun a b => a.start ≤ b.start := by
    have htrans : ∀ a b c : Record, decide (a.start ≤ b.start) → decide (b.start ≤ c.start) →
        decide (a.start ≤ c.start) := by
      intro a b c hab hbc
      exact decide_eq_true (Nat.le_trans (of_decide_eq_true hab) (of_decide_eq_true hbc))
    have htotal : ∀ a b : Record, decide (a.start ≤ b.start) || decide (b.start ≤ a.start) := by
      intro a b
      rw [Bool.or_eq_true, decide_eq_true_eq, decide_eq_true_eq]
      exact Nat.le_total _ _
    exact (List.pairwise_mergeSort htrans htotal ledger.records).imp of_decide_eq_true
  have hne : ledger.sorted.records.Pairwise fun a b => a.start ≠ b.start :=
    List.pairwise_map.mp ((hperm.map Record.start).nodup_iff.mpr h)
  exact (hle.and hne).imp fun hab => Nat.lt_of_le_of_ne hab.1 hab.2

theorem find?_sorted {ledger : Ledger} (h : (ledger.records.map Record.start).Nodup) :
    ledger.sorted.find? start = some record ↔ record ∈ ledger.records ∧ record.start = start := by
  rw [find?_eq_some_iff (ordered_sorted h), sorted, (List.mergeSort_perm _ _).mem_iff]

end DerTemplate.Canonical.Ledger

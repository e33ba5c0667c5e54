import DerTemplate.Proofs.Canonical.Frames
import DerTemplate.Proofs.Header.Safety

/-!
What is open weighs no more, in canonical form, than the octets that were gone over and nine more
for every record, so no size in the books comes near the end of the machine word.
-/

namespace DerTemplate.Canonical

open Header (lengthSize)
open Error

/-- The size of an open item so far, with the header as read, or the least header if that is of the
indefinite form. -/
def OpenItem.weight (item : OpenItem) : Nat :=
  item.headerSize.getD (item.tagSize + 1) + item.contentLength

namespace Ledger

def weigh : List OpenItem → Nat
  | [] => 0
  | item :: around => item.weight + weigh around

def weight (ledger : Ledger) : Nat := weigh ledger.opened

structure Counted (ledger : Ledger) : Prop where
  records : ledger.records.length ≤ recordLimit
  indefinite : ledger.indefinite = ledger.opened.countP fun item => item.headerSize.isNone
  headers : ∀ item ∈ ledger.opened, item.tagSize < item.headerSize.getD (item.tagSize + 1)

structure Steady (ledger : Ledger) (size : Nat) : Prop extends ledger.Counted where
  weight : ledger.weight ≤ size + 9 * ledger.records.length

variable {ledger : Ledger} {item : OpenItem} {around : List OpenItem} {idx size : Nat}

theorem steady_empty : empty.Steady 0 := ⟨⟨Nat.zero_le _, rfl, nofun⟩, Nat.le_refl 0⟩

theorem Steady.mono {more : Nat} (h : ledger.Steady size) (hle : size ≤ more) :
    ledger.Steady more :=
  { h with weight := Nat.le_trans h.weight (Nat.add_le_add_right hle _) }

theorem weight_cons (hopened : ledger.opened = item :: around) :
    ledger.weight = item.weight + weigh around := by
  rw [weight, hopened, weigh]

theorem weight_grown_le (length : Nat) (changed : Bool) :
    (ledger.grown length changed).weight ≤ ledger.weight + length := by
  rw [weight, weight, opened_grown]
  cases ledger.opened with
  | nil => exact Nat.zero_le _
  | cons item around =>
    simp only [List.modifyHead_cons, weigh, OpenItem.weight]
    omega

theorem Counted.grown (h : ledger.Counted) (length : Nat) (changed : Bool) :
    (ledger.grown length changed).Counted := by
  have hindefinite := h.indefinite
  have hheaders := h.headers
  refine ⟨by rw [records_grown]; exact h.records, ?_, ?_⟩
  · rw [indefinite_grown, opened_grown]
    cases hopened : ledger.opened with
    | nil => simpa [hopened] using hindefinite
    | cons item around => simpa [hopened, List.countP_cons] using hindefinite
  · rw [opened_grown]
    cases hopened : ledger.opened with
    | nil => exact nofun
    | cons item around =>
      rw [hopened] at hheaders
      intro other hother
      rcases List.mem_cons.mp hother with rfl | hother
      · exact hheaders item List.mem_cons_self
      · exact hheaders other (List.mem_cons_of_mem _ hother)

theorem Steady.grown (h : ledger.Steady size) (length : Nat) (changed : Bool) :
    (ledger.grown length changed).Steady (size + length) := by
  have hweight := h.weight
  have hgrown : (ledger.grown length changed).weight ≤ ledger.weight + length :=
    weight_grown_le length changed
  refine ⟨h.toCounted.grown length changed, ?_⟩
  rw [records_grown]
  omega

theorem steady_markMerged (h : ledger.Steady size) (unused : UInt8) :
    (ledger.markMerged unused).Steady size := by
  obtain ⟨⟨hrecords, hindefinite, hheaders⟩, hweight⟩ := h
  unfold markMerged
  cases hopened : ledger.opened with
  | nil => exact ⟨⟨hrecords, hindefinite, hheaders⟩, hweight⟩
  | cons item around =>
    rw [hopened] at hindefinite hheaders
    rw [weight_cons hopened] at hweight
    refine ⟨⟨hrecords, ?_, fun other hother => ?_⟩, hweight⟩
    · simpa [List.countP_cons] using hindefinite
    · rcases List.mem_cons.mp hother with rfl | hother
      · exact hheaders item List.mem_cons_self
      · exact hheaders other (List.mem_cons_of_mem _ hother)

theorem changed_markMerged (ledger : Ledger) (unused : UInt8) :
    ∀ item ∈ (ledger.markMerged unused).opened.head?, item.changed = true := by
  unfold markMerged
  intro item hitem
  split at hitem
  · rename_i hopened
    rw [hopened] at hitem
    cases hitem
  · cases hitem
    rfl

theorem meets_openAt {start tagSize pos bound : Nat} (h : ledger.Steady start)
    (hpos : start + tagSize < pos) (length : Option Nat) :
    (ledger.openAt start tagSize pos bound length).Meets BlamesInput fun opened =>
      opened.Steady pos := by
  have hweight := h.weight
  have henclosed (item : OpenItem) (hheader : item.tagSize < item.headerSize.getD (item.tagSize + 1))
      (hitem : item.weight ≤ pos - start) : (ledger.enclosed item).Steady pos := by
    refine ⟨⟨h.records, ?_, fun other hother => ?_⟩, ?_⟩
    · rw [enclosed, List.countP_cons, h.indefinite]
    · rcases List.mem_cons.mp hother with rfl | hother
      · exact hheader
      · exact h.headers other hother
    · rw [weight_cons (opened_enclosed ledger item)]
      rw [weight] at hweight
      show _ ≤ pos + 9 * ledger.records.length
      omega
  have hexhausted (cause : Exhaustion) :
      (refuse (.resourceExhausted cause) : Outcome Ledger).Meets BlamesInput fun opened =>
        opened.Steady pos := Outcome.meets_refuse (blamesInput_exhausted cause)
  cases length with
  | some n =>
    rw [openAt, openDefinite, enter]
    split
    · exact hexhausted _
    · refine henclosed ⟨start, tagSize, some (pos - start), pos + n, 0, false, 0⟩ ?_ (Nat.le_refl _)
      show tagSize < pos - start
      omega
  | none =>
    rw [openAt, openIndefinite]
    split
    · exact hexhausted _
    · rw [enter]
      split
      · exact hexhausted _
      · refine henclosed ⟨start, tagSize, none, bound, 0, true, 0⟩ (Nat.lt_succ_self _) ?_
        show tagSize + 1 ≤ pos - start
        omega

theorem sizeOf_le_weight (hheader : item.tagSize < item.headerSize.getD (item.tagSize + 1))
    (hcontent : item.contentLength < wordLimit) : sizeOf item ≤ item.weight + 8 := by
  have hnine := Header.lengthSize_le_nine hcontent
  rw [sizeOf, OpenItem.weight]
  omega

theorem sizeOf_eq_weight (h : leavesRecord item = false) :
    item.changed = false ∧ sizeOf item = item.weight := by
  obtain ⟨hchanged, hheader⟩ := Bool.or_eq_false_iff.mp h
  rw [bne_eq_false_iff_eq] at hheader
  exact ⟨hchanged, by rw [sizeOf, OpenItem.weight, hheader, Option.getD_some]⟩

theorem meets_close {extra : Nat} (h : ledger.Steady (size + extra)) (hextra : extra ≤ 1)
    (hmerged : extra ≠ 0 → ∀ item ∈ ledger.opened.head?, item.changed = true)
    (hsize : size < lengthLimit) :
    ledger.close.outcome.Meets BlamesInput fun closed => closed.Steady size := by
  have hlimits : lengthLimit + 9 * (recordLimit + 2) < wordLimit := by decide
  have hrecords := h.records
  have hweight := h.weight
  cases hopened : ledger.opened with
  | nil =>
    rw [outcome_close, takeTop, hopened]
    exact Outcome.meets_refuse (blamesInput_invalid _)
  | cons item around =>
    have hcount := h.indefinite
    rw [hopened, List.countP_cons] at hcount
    rw [weight_cons hopened] at hweight
    have hheader : item.tagSize < item.headerSize.getD (item.tagSize + 1) :=
      h.headers item (hopened ▸ List.mem_cons_self)
    have hcontent : item.contentLength ≤ item.weight := Nat.le_add_left _ _
    have hgrows : sizeOf item ≤ item.weight + 8 := sizeOf_le_weight hheader (by omega)
    have hrest (records : List Record) (hlimit : records.length ≤ recordLimit) :
        (Ledger.mk records around
          (ledger.indefinite - if item.headerSize.isNone then 1 else 0)).Counted := by
      refine ⟨hlimit, ?_, fun other hother => h.headers other (hopened ▸ List.mem_cons_of_mem _ hother)⟩
      rw [hcount]
      exact Nat.add_sub_cancel _ _
    rw [close_eq hopened (fun hnone => by rw [hcount, if_pos hnone]; exact Nat.le_add_left 1 _)
      (by omega), without]
    cases hleaves : leavesRecord item with
    | false =>
      -- nothing was merged in an item that stays as it was, and its size is its weight
      obtain ⟨hchanged, hsame⟩ := sizeOf_eq_weight hleaves
      have hnothing : extra = 0 := by
        refine Classical.byContradiction fun hne => ?_
        have := hmerged hne item (by rw [hopened]; rfl)
        rw [hchanged] at this
        cases this
      rw [if_neg Bool.false_ne_true, ok_bind]
      refine (meets_add _ _ _).imp fun closed hclosed => ?_
      subst hclosed
      refine ⟨(hrest _ hrecords).grown _ _, Nat.le_trans (weight_grown_le _ _) ?_⟩
      rw [records_grown, weight]
      dsimp only
      omega
    | true =>
      -- the nine octets for its record pay for eight of length and one for unused bits
      rw [if_pos rfl, keepRecord]
      dsimp only
      split
      · exact Outcome.meets_refuse (blamesInput_exhausted _)
      · rename_i hfree
        rw [ok_bind]
        refine (meets_add _ _ _).imp fun closed hclosed => ?_
        subst hclosed
        have hlength : (ledger.records ++ [recordOf item around.length]).length =
          ledger.records.length + 1 := by rw [List.length_append, List.length_singleton]
        refine ⟨(hrest _ (by omega)).grown _ _, Nat.le_trans (weight_grown_le _ _) ?_⟩
        rw [records_grown, weight]
        dsimp only
        omega

theorem meets_closeUpTo (hsize : idx < lengthLimit) (n : Nat) (h : ledger.Steady idx) :
    (closeUpTo idx n ledger).outcome.Meets BlamesInput fun closed => closed.Steady idx := by
  induction n generalizing ledger with
  | zero => exact h
  | succ n ih =>
    rw [closeUpTo]
    split
    · rw [Attempt.outcome_bind]
      exact (meets_close h (Nat.zero_le 1) (fun hne => absurd rfl hne) hsize).bind
        fun _ _ hclosed => ih hclosed
    · exact h

theorem meets_closeAt (h : ledger.Steady idx) (hsize : idx < lengthLimit) :
    (ledger.closeAt idx).outcome.Meets BlamesInput fun closed => closed.Steady idx :=
  meets_closeUpTo hsize _ h

end Ledger

end DerTemplate.Canonical

import DerTemplate.Proofs.Canonical.Frames
import Mathlib.Algebra.GroupWithZero.Nat

namespace DerTemplate.Canonical

open Header (lengthSize lengthSize_le_nine)

inductive Call where
  | openIndefinite (start tagSize bound : Nat)
  | openDefinite (start tagSize headerSize stop : Nat)
  | add (length : Nat) (changed : Bool)
  | markMerged (unusedBits : UInt8)
  | closeAt (idx : Nat)
  | close
deriving DecidableEq, Repr

def Call.size : Call → Nat
  | .openIndefinite _ tagSize _ | .openDefinite _ tagSize _ _ => tagSize + 9
  | .add length _ => length
  | .markMerged _ | .closeAt _ | .close => 0

namespace Ledger

def perform (ledger : Ledger) : Call → Attempt Ledger Ledger
  | .openIndefinite start tagSize bound =>
    (ledger.openIndefinite start tagSize bound).leaving ledger
  | .openDefinite start tagSize headerSize stop =>
    (ledger.openDefinite start tagSize headerSize stop).leaving ledger
  | .add length changed => (ledger.add length changed).leaving ledger
  | .markMerged unusedBits => .ok (ledger.markMerged unusedBits)
  | .closeAt idx => ledger.closeAt idx
  | .close => ledger.close

def after (calls : List Call) : Ledger :=
  calls.foldl (fun ledger call => (ledger.perform call).final) empty

def run (calls : List Call) : Attempt Ledger Ledger := calls.foldlM perform empty

structure Balanced (ledger : Ledger) : Prop where
  nesting : ledger.opened.length ≤ nestingLimit
  records : ledger.records.length ≤ recordLimit
  indefinite : ledger.indefinite = ledger.opened.countP fun item => item.headerSize.isNone
  indefinite_le : ledger.indefinite ≤ indefiniteLimit
  content : ∀ item ∈ ledger.opened, item.contentLength < wordLimit

def reachOf (item : OpenItem) : Nat := item.tagSize + 9 + item.contentLength

def reach (ledger : Ledger) : Nat := (ledger.opened.map reachOf).sum

/-- The books are in balance, and what is open may come to `limit` octets at most. -/
structure Within (limit : Nat) (ledger : Ledger) : Prop where
  balanced : ledger.Balanced
  reach_le : ledger.reach ≤ limit

variable {ledger ledger' : Ledger} {item : OpenItem} {around : List OpenItem} {limit limit' : Nat}

theorem sizeOf_le_reachOf (h : item.contentLength < wordLimit) : sizeOf item ≤ reachOf item := by
  have := lengthSize_le_nine h
  unfold sizeOf reachOf
  omega

theorem reach_eq (hopened : ledger.opened = item :: around) :
    ledger.reach = reachOf item + (ledger.without item around).reach := by
  rw [reach, hopened]
  rfl

theorem within_empty : Within 0 empty :=
  ⟨⟨Nat.zero_le _, Nat.zero_le _, rfl, Nat.zero_le _, nofun⟩, Nat.le_refl 0⟩

theorem Within.mono (h : ledger.Within limit) (hlimit : limit ≤ limit') : ledger.Within limit' :=
  ⟨h.balanced, Nat.le_trans h.reach_le hlimit⟩

theorem Within.replace (h : ledger.Within limit) (hopened : ledger.opened = item :: around)
    {other : OpenItem} (length : Nat) (hheader : other.headerSize = item.headerSize)
    (hword : other.contentLength < wordLimit) (hreach : reachOf other ≤ reachOf item + length) :
    Within (limit + length) { ledger with opened := other :: around } := by
  have hbefore := reach_eq hopened
  have hafter : Ledger.reach { ledger with opened := other :: around } =
    reachOf other + (ledger.without item around).reach := rfl
  have hlimit := h.reach_le
  obtain ⟨⟨hnesting, hrecords, hindefinite, hopen, hcontent⟩, -⟩ := h
  rw [hopened] at hnesting hindefinite hcontent
  refine ⟨⟨hnesting, hrecords, ?_, hopen, ?_⟩, by omega⟩
  · rw [hindefinite, List.countP_cons, List.countP_cons, hheader]
  · intro inside hinside
    rcases List.mem_cons.mp hinside with rfl | hinside
    · exact hword
    · exact hcontent inside (List.mem_cons_of_mem _ hinside)

theorem Within.add (h : ledger.Within limit) {length : Nat} {changed : Bool}
    (hadd : ledger.add length changed = .ok ledger') : ledger'.Within (limit + length) := by
  unfold Ledger.add at hadd
  split at hadd
  · cases hadd
    exact h.mono (Nat.le_add_right _ _)
  · rename_i item around hopened
    split at hadd
    · rename_i hword
      cases hadd
      exact h.replace hopened length rfl hword (Nat.le_of_eq (Nat.add_assoc _ _ _).symm)
    · cases hadd

theorem Within.markMerged (h : ledger.Within limit) (unusedBits : UInt8) :
    (ledger.markMerged unusedBits).Within limit := by
  unfold Ledger.markMerged
  split
  · exact h
  · rename_i item around hopened
    have hword := h.balanced.content item (hopened ▸ List.mem_cons_self)
    exact h.replace hopened 0 rfl hword (Nat.le_refl _)

theorem Within.enclosed (h : ledger.Within limit) (item : OpenItem)
    (hnesting : ledger.opened.length ≠ nestingLimit)
    (hindefinite : item.headerSize.isNone = true → ledger.indefinite ≠ indefiniteLimit)
    (hcontent : item.contentLength = 0) :
    (ledger.enclosed item).Within (limit + (item.tagSize + 9)) := by
  have hdepth := h.balanced.nesting
  have hopen := h.balanced.indefinite_le
  have hreach := h.reach_le
  refine ⟨⟨?_, h.balanced.records, ?_, ?_, ?_⟩, ?_⟩
  · rw [opened_enclosed, List.length_cons]
    omega
  · rw [opened_enclosed, List.countP_cons, Ledger.enclosed, h.balanced.indefinite]
  · rw [Ledger.enclosed]
    dsimp only
    split
    · rename_i hnone
      have := hindefinite hnone
      omega
    · exact hopen
  · intro other hother
    rcases List.mem_cons.mp hother with rfl | hother
    · rw [hcontent]
      decide
    · exact h.balanced.content other hother
  · rw [reach_eq (opened_enclosed ledger item), reachOf, hcontent]
    have : ((ledger.enclosed item).without item ledger.opened).reach = ledger.reach := rfl
    omega

theorem Within.without (h : ledger.Within limit) (hopened : ledger.opened = item :: around) :
    (ledger.without item around).Within (limit - reachOf item) := by
  have hreach := reach_eq hopened
  have hle := h.reach_le
  obtain ⟨⟨hnesting, hrecords, hindefinite, hopen, hcontent⟩, -⟩ := h
  rw [hopened, List.length_cons] at hnesting
  rw [hopened, List.countP_cons] at hindefinite
  have hcount : (ledger.without item around).indefinite =
      around.countP fun item => item.headerSize.isNone := by
    rw [Ledger.without, hindefinite]
    exact Nat.add_sub_cancel _ _
  refine ⟨⟨Nat.le_of_succ_le hnesting, hrecords, hcount, ?_, fun other hother => ?_⟩, by omega⟩
  · rw [hcount]
    omega
  · exact hcontent other (hopened ▸ List.mem_cons_of_mem _ hother)

theorem Within.keepRecord (h : ledger.Within limit) {record : Record}
    (hkeep : ledger.keepRecord record = .ok ledger') : ledger'.Within limit := by
  unfold Ledger.keepRecord at hkeep
  split at hkeep
  · cases hkeep
  · rename_i hfree
    cases hkeep
    obtain ⟨⟨hnesting, hrecords, hindefinite, hopen, hcontent⟩, hreach⟩ := h
    refine ⟨⟨hnesting, ?_, hindefinite, hopen, hcontent⟩, hreach⟩
    rw [List.length_append, List.length_singleton]
    omega

theorem Balanced.indefinite_pos (h : ledger.Balanced) (hopened : ledger.opened = item :: around)
    (hnone : item.headerSize.isNone = true) : 1 ≤ ledger.indefinite := by
  rw [h.indefinite, hopened, List.countP_cons, if_pos hnone]
  exact Nat.le_add_left _ _

theorem Balanced.takeTop (h : ledger.Balanced) :
    ledger.takeTop = refuse (.invalidEncoding .noOpenItem) ∨
      ∃ item around, ledger.opened = item :: around ∧
        ledger.takeTop = .ok (item, recordOf item around.length, ledger.without item around) := by
  cases hopened : ledger.opened with
  | nil =>
    left
    rw [Ledger.takeTop, hopened]
  | cons item around =>
    exact .inr ⟨item, around, rfl, takeTop_eq hopened (h.indefinite_pos hopened)⟩

theorem ends_close (h : ledger.Within limit) :
    ledger.close.Ends (Within limit) (Within limit) := by
  unfold close
  obtain hnone | ⟨item, around, hopened, htop⟩ := h.balanced.takeTop
  · rw [hnone]
    exact h
  · have hreach := reach_eq hopened
    have hle := h.reach_le
    have hword := h.balanced.content item (hopened ▸ List.mem_cons_self)
    have hsize := sizeOf_le_reachOf hword
    have hrest := h.without hopened
    have hloose : (ledger.without item around).Within limit := hrest.mono (Nat.sub_le _ _)
    rw [htop, Outcome.leaving_ok, ok_bind]
    refine Attempt.Ends.of_leaving hloose fun changed _ => Attempt.Ends.of_leaving hloose
      fun kept hkept => ?_
    have hkept : kept.Within (limit - reachOf item) := by
      split at hkept
      · exact hrest.keepRecord hkept
      · cases hkept
        exact hrest
    have hloose := hkept.mono (Nat.sub_le limit (reachOf item))
    refine Attempt.Ends.of_leaving hloose fun headerSize hheader => Attempt.Ends.of_leaving hloose
      fun size hsum => ?_
    have hheader := (Word.add_eq_ok_iff.mp hheader).2
    have hsum := (Word.add_eq_ok_iff.mp hsum).2
    have hsizeOf : size = sizeOf item := by rw [← hsum, ← hheader]; rfl
    -- The item has left behind room for all that it could come to, and its size is no more.
    refine Attempt.ends_leaving hloose fun added hadd => (hkept.add hadd).mono ?_
    omega

theorem safe_add (ledger : Ledger) (length : Nat) (changed : Bool) :
    (ledger.add length changed).Safe fun _ => True :=
  (meets_add ledger length changed).safe.imp fun _ _ => trivial

theorem safe_keepRecord (ledger : Ledger) (record : Record) :
    (ledger.keepRecord record).Safe fun _ => True := by
  unfold keepRecord
  split <;> trivial

theorem safe_close (h : ledger.Within limit) (hlimit : limit < wordLimit) :
    ledger.close.outcome.Safe fun _ => True := by
  cases hopened : ledger.opened with
  | nil =>
    rw [outcome_close, Ledger.takeTop, hopened]
    trivial
  | cons item around =>
    have hsize := sizeOf_le_reachOf (h.balanced.content item (hopened ▸ List.mem_cons_self))
    have hreach := reach_eq hopened
    have hle := h.reach_le
    rw [close_eq hopened (h.balanced.indefinite_pos hopened) (by omega)]
    have hkept : Outcome.Safe (if leavesRecord item then
        (ledger.without item around).keepRecord (recordOf item around.length)
        else .ok (ledger.without item around)) fun _ => True := by
      split
      · exact safe_keepRecord _ _
      · trivial
    exact hkept.bind fun kept _ _ => safe_add _ _ _

theorem ends_closeUpTo (h : ledger.Within limit) (idx n : Nat) :
    (closeUpTo idx n ledger).Ends (Within limit) (Within limit) := by
  induction n generalizing ledger with
  | zero => exact h
  | succ n ih =>
    rw [closeUpTo]
    split
    · exact (ends_close h).bind fun closed _ hclosed => ih hclosed
    · exact h

theorem safe_closeUpTo (h : ledger.Within limit) (hlimit : limit < wordLimit) (idx n : Nat) :
    (closeUpTo idx n ledger).outcome.Safe fun _ => True := by
  induction n generalizing ledger with
  | zero => trivial
  | succ n ih =>
    rw [closeUpTo]
    split
    · rw [Attempt.outcome_bind]
      refine (safe_close h hlimit).bind fun closed hclosed _ => ih ?_
      have hends := ends_close h
      rw [Attempt.outcome_eq_ok_iff.mp hclosed] at hends
      exact hends
    · trivial

theorem safe_enter (ledger : Ledger) (item : OpenItem) :
    (ledger.enter item).Safe fun _ => True := by
  unfold enter
  split <;> trivial

theorem ends_perform (h : ledger.Within limit) (call : Call) :
    (ledger.perform call).Ends (Within (limit + call.size)) (Within (limit + call.size)) := by
  have hleft : ledger.Within (limit + call.size) := h.mono (Nat.le_add_right _ _)
  cases call with
  | openIndefinite start tagSize bound =>
    refine Attempt.ends_leaving hleft fun opened hopened => ?_
    obtain ⟨⟨hnesting, hindefinite⟩, rfl⟩ := openIndefinite_eq_ok_iff.mp hopened
    exact h.enclosed ⟨start, tagSize, none, bound, 0, true, 0⟩ hnesting (fun _ => hindefinite) rfl
  | openDefinite start tagSize headerSize stop =>
    refine Attempt.ends_leaving hleft fun opened hopened => ?_
    obtain ⟨hnesting, rfl⟩ := openDefinite_eq_ok_iff.mp hopened
    exact h.enclosed ⟨start, tagSize, some headerSize, stop, 0, false, 0⟩ hnesting nofun rfl
  | add length changed => exact Attempt.ends_leaving hleft fun added hadd => h.add hadd
  | markMerged unusedBits => exact h.markMerged unusedBits
  | closeAt idx => exact ends_closeUpTo hleft idx _
  | close => exact ends_close hleft

theorem safe_perform (h : ledger.Within limit) (call : Call) (hlimit : limit < wordLimit) :
    (ledger.perform call).outcome.Safe fun _ => True := by
  cases call with
  | openIndefinite start tagSize bound =>
    rw [perform, Attempt.outcome_leaving, openIndefinite]
    split
    · trivial
    · exact (safe_enter _ _).bind fun _ _ _ => trivial
  | openDefinite start tagSize headerSize stop =>
    rw [perform, Attempt.outcome_leaving]
    exact safe_enter _ _
  | add length changed =>
    rw [perform, Attempt.outcome_leaving]
    exact safe_add _ _ _
  | markMerged unusedBits => trivial
  | closeAt idx => exact safe_closeUpTo h hlimit idx _
  | close => exact safe_close h hlimit

theorem within_foldl (h : ledger.Within limit) (calls : List Call) :
    (calls.foldl (fun ledger call => (ledger.perform call).final) ledger).Within
      (limit + (calls.map Call.size).sum) := by
  induction calls generalizing ledger limit with
  | nil => exact h
  | cons call calls ih =>
    rw [List.foldl_cons, List.map_cons, List.sum_cons, ← Nat.add_assoc]
    exact ih (ends_perform h call).final

theorem within_after (calls : List Call) : (after calls).Within (calls.map Call.size).sum := by
  have h := within_foldl within_empty calls
  rwa [Nat.zero_add] at h

end Ledger

end DerTemplate.Canonical

import DerTemplate.Proofs.Canonical.Books

namespace DerTemplate

theorem bind_congr_ok {ε α β : Type} {x : Except ε α} {f g : α → Except ε β}
    (h : ∀ a, x = .ok a → f a = g a) : x >>= f = x >>= g := by
  cases x with
  | error e => rfl
  | ok a => exact h a rfl

namespace Canonical

structure Frame where
  indefinite : Bool
  bound : Nat

namespace Ledger

def frames (ledger : Ledger) : List Frame :=
  ledger.opened.map fun item => ⟨item.headerSize.isNone, item.bound⟩

variable {ledger ledger' : Ledger} {idx : Nat} {frame : Frame} {around : List Frame}

theorem frames_of_add {length : Nat} {changed : Bool} (h : ledger.add length changed = .ok ledger') :
    ledger'.frames = ledger.frames := by
  rw [(meets_add _ _ _).of_ok h, frames, frames, opened_grown]
  cases ledger.opened <;> rfl

theorem frames_markMerged (ledger : Ledger) (unused : UInt8) :
    (ledger.markMerged unused).frames = ledger.frames := by
  unfold markMerged
  split
  · rfl
  · rename_i hopened
    rw [frames, frames, hopened]
    rfl

theorem frames_of_openAt {start tagSize pos bound : Nat} {length : Option Nat}
    (h : ledger.openAt start tagSize pos bound length = .ok ledger') :
    ledger'.frames = ⟨length.isNone, length.elim bound (pos + ·)⟩ :: ledger.frames := by
  cases length with
  | some n =>
    obtain ⟨_, rfl⟩ := openDefinite_eq_ok_iff.mp h
    rfl
  | none =>
    obtain ⟨_, rfl⟩ := openIndefinite_eq_ok_iff.mp h
    rfl

theorem frames_of_close (h : ledger.close.outcome = .ok ledger') :
    ∃ frame, ledger.frames = frame :: ledger'.frames := by
  obtain ⟨item, around, hopened, rfl⟩ := eq_grown_of_close h
  refine ⟨⟨item.headerSize.isNone, item.bound⟩, ?_⟩
  rw [frames, hopened, List.map_cons, frames, opened_grown]
  cases around <;> rfl

theorem length_frames (ledger : Ledger) : ledger.frames.length = ledger.opened.length :=
  List.length_map _

theorem bound_frames (ledger : Ledger) (inputLength : Nat) :
    ledger.bound inputLength = (ledger.frames.head?.elim inputLength Frame.bound) := by
  rw [bound, frames]
  cases ledger.opened <;> rfl

theorem endsAt_frames (ledger : Ledger) (idx : Nat) :
    ledger.endsAt idx = ledger.frames.head?.any fun frame => !frame.indefinite && frame.bound == idx := by
  rw [endsAt, frames]
  cases ledger.opened with
  | nil => rfl
  | cons item rest => simp

theorem endsAt_of_lt_bound {inputLength : Nat} (h : idx < ledger.bound inputLength) :
    ledger.endsAt idx = false := by
  unfold endsAt
  unfold bound at h
  cases hopened : ledger.opened with
  | nil => rfl
  | cons item rest =>
    rw [hopened] at h
    have hne : (item.bound == idx) = false := beq_eq_false_iff_ne.mpr (by dsimp only at h; omega)
    simp only [hne, Bool.and_false]

theorem insideIndefinite_frames (ledger : Ledger) :
    ledger.insideIndefinite = ledger.frames.head?.any Frame.indefinite := by
  rw [insideIndefinite, frames]
  cases ledger.opened with
  | nil => rfl
  | cons item rest => simp

theorem hasOpen_frames (ledger : Ledger) : ledger.hasOpen = !ledger.frames.isEmpty := by
  rw [hasOpen, frames]
  cases ledger.opened <;> rfl

theorem closeAt_eq (h : ledger.endsAt idx = false) : ledger.closeAt idx = .ok ledger := by
  unfold closeAt
  cases ledger.opened.length with
  | zero => rfl
  | succ n => rw [closeUpTo, h, if_neg Bool.false_ne_true]

theorem closeAt_endsAt (h : ledger.endsAt idx = true) :
    (ledger.closeAt idx).outcome =
      (ledger.close.outcome >>= fun ledger => (ledger.closeAt idx).outcome) := by
  have hlength : ∃ n, ledger.opened.length = n + 1 := by
    rw [endsAt] at h
    cases hopened : ledger.opened with
    | nil => rw [hopened] at h; cases h
    | cons item rest => exact ⟨rest.length, rfl⟩
  obtain ⟨n, hn⟩ := hlength
  rw [closeAt, hn, closeUpTo, if_pos h, Attempt.outcome_bind]
  refine bind_congr_ok fun closed hclosed => ?_
  obtain ⟨frame, hframes⟩ := frames_of_close hclosed
  have hclosedLength := congrArg List.length hframes
  rw [List.length_cons, length_frames, length_frames, hn] at hclosedLength
  rw [closeAt, ← Nat.succ.inj hclosedLength]

end Ledger

variable {input : Bytes} {idx : Nat} {ledger : Ledger}

theorem surveyFrom_eq (input : Bytes) (idx : Nat) (ledger : Ledger) :
    surveyFrom input idx ledger = (surveyStep input idx ledger >>= fun (next, ledger) =>
      match next with
      | none => .ok ledger.sorted
      | some next => surveyFrom input next ledger) := by
  rw [surveyFrom]
  split
  · rename_i h
    rw [h]
    rfl
  · rename_i h
    rw [h]
    rfl
  · rename_i h
    rw [h]
    rfl

theorem surveyFrom_endsAt (h : ledger.endsAt idx = true) :
    surveyFrom input idx ledger = ledger.close.outcome >>= surveyFrom input idx := by
  rw [surveyFrom_eq, surveyStep, Ledger.closeAt_endsAt h, bind_assoc, bind_assoc]
  refine bind_congr_ok fun closed _ => ?_
  rw [surveyFrom_eq, surveyStep, bind_assoc]

theorem surveyFrom_item (hends : ledger.endsAt idx = false) (hbound : idx < ledger.bound input.length)
    (hcontent : atEndOfContent input idx (ledger.bound input.length) = .ok false) :
    surveyFrom input idx ledger =
      (surveyItem input idx (ledger.bound input.length) ledger >>= fun (next, ledger) =>
        surveyFrom input next ledger) := by
  rw [surveyFrom_eq, surveyStep, Ledger.closeAt_eq hends, Attempt.outcome_ok, ok_bind]
  dsimp only
  rw [if_neg (by omega), hcontent, ok_bind, if_neg Bool.false_ne_true, bind_assoc]
  rfl

theorem surveyFrom_endOfContent (hends : ledger.endsAt idx = false)
    (hbound : idx < ledger.bound input.length)
    (hcontent : atEndOfContent input idx (ledger.bound input.length) = .ok true)
    (hinside : ledger.insideIndefinite = true) :
    surveyFrom input idx ledger = ledger.close.outcome >>= surveyFrom input (idx + 2) := by
  rw [surveyFrom_eq, surveyStep, Ledger.closeAt_eq hends, Attempt.outcome_ok, ok_bind]
  dsimp only
  rw [if_neg (by omega), hcontent, ok_bind, if_pos rfl, if_pos hinside, bind_assoc]
  rfl

theorem surveyFrom_end (hframes : ledger.frames = []) (hidx : input.length ≤ idx) :
    surveyFrom input idx ledger = .ok ledger.sorted := by
  have hends : ledger.endsAt idx = false := by rw [Ledger.endsAt_frames, hframes]; rfl
  have hbound : ledger.bound input.length = input.length := by
    rw [Ledger.bound_frames, hframes]
    rfl
  have hopen : ledger.hasOpen = false := by rw [Ledger.hasOpen_frames, hframes]; rfl
  rw [surveyFrom_eq, surveyStep, Ledger.closeAt_eq hends, Attempt.outcome_ok, ok_bind]
  dsimp only
  rw [hbound, if_pos hidx, hopen]
  rfl

end Canonical

end DerTemplate

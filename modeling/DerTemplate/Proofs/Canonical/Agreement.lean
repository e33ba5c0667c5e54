import DerTemplate.Proofs.Canonical.Conversion
import DerTemplate.Proofs.Canonical.Weight

namespace DerTemplate.Canonical

open Header (IsLength)
open Error

variable {input : Bytes} {idx limit start bound : Nat} {ledger : Ledger}

theorem meets_atEndOfContent (hidx : idx < limit) (hlimit : limit ≤ input.length) :
    (atEndOfContent input idx limit).Meets BlamesInput fun atEnd => atEnd = true → idx + 2 ≤ limit := by
  refine (meets_fetch (by omega)).bind fun first _ _ => ?_
  split
  · exact Outcome.meets_ok nofun
  · split
    · rename_i hroom
      refine (meets_fetch (by omega)).bind fun second _ _ => ?_
      split
      · exact Outcome.meets_ok fun _ => hroom
      · exact Outcome.meets_refuse (blamesInput_invalid _)
    · exact Outcome.meets_refuse (blamesInput_invalid _)

theorem meets_readContentLength (input : Bytes) (idx limit start : Nat) :
    (readContentLength input idx limit start).Meets BlamesInput fun (length, next) =>
      idx < next ∧ next + length.getD 0 ≤ limit := by
  refine (Header.meets_readAnyLength input idx limit).bind fun (form, next) _ hnext => ?_
  dsimp only at hnext
  cases form with
  | indefinite =>
    refine Outcome.meets_ok ?_
    simp only [Option.getD_none]
    omega
  | definite n =>
    refine (Word.meets_sub (by omega)).bind fun room _ hroom => ?_
    subst hroom
    split
    · exact Outcome.meets_refuse (blamesInput_truncated _)
    · refine Outcome.meets_ok ?_
      simp only [Option.getD_some]
      omega

namespace Fragmented

variable {string : Fragmented}

theorem meets_endAt (input : Bytes) (idx : Nat) (hlimit : string.limit ≤ input.length) :
    (string.endAt input idx).Meets BlamesInput fun found =>
      match found with
      | some next => idx ≤ next ∧ next ≤ string.limit
      | none => idx < string.limit := by
  unfold endAt
  split
  · rename_i stop hstop
    split
    · rename_i hidx
      have hlast : idx = string.limit := by rw [limit, hstop, Option.getD_some, hidx]
      exact Outcome.meets_ok ⟨Nat.le_refl idx, Nat.le_of_eq hlast⟩
    · split
      · exact Outcome.meets_refuse (blamesInput_invalid _)
      · rename_i hidx
        exact Outcome.meets_ok (Nat.lt_of_not_le hidx)
  · split
    · exact Outcome.meets_refuse (blamesInput_invalid _)
    · rename_i hidx
      refine (meets_atEndOfContent (by omega) hlimit).bind fun atEnd _ hroom => ?_
      cases atEnd with
      | true => exact Outcome.meets_ok ⟨Nat.le_add_right _ _, hroom rfl⟩
      | false => exact Outcome.meets_ok (Nat.lt_of_not_le hidx)

theorem meets_addFragment (string : Fragmented) (content : Bytes) (start : Nat) (unused : UInt8)
    {size : Nat} (h : ledger.Steady size) :
    (string.addFragment content start unused ledger).Meets BlamesInput fun (_, ledger) =>
      ledger.Steady (size + content.length) := by
  unfold addFragment
  split
  · split
    · exact Outcome.meets_refuse (blamesInput_invalid _)
    · refine (Content.meets_unusedBitCount content).bind fun found _ hpos => ?_
      refine (Word.meets_sub hpos).bind fun length _ hlength => ?_
      refine (Ledger.meets_add _ _ _).bind fun added _ hadded => Outcome.meets_ok ?_
      subst hadded
      exact (h.grown length true).mono (by omega)
  · refine (Ledger.meets_add _ _ _).bind fun added _ hadded => Outcome.meets_ok ?_
    subst hadded
    exact h.grown content.length true

theorem meets_readFragment (unused : UInt8) (hlimit : string.limit ≤ input.length)
    (hstart : start < string.limit) (h : ledger.Steady start) :
    (string.readFragment input start unused ledger).Meets BlamesInput fun (next, _, ledger) =>
      ledger.Steady next := by
  refine (meets_fetch (by omega)).bind fun tag _ _ => ?_
  split
  · exact Outcome.meets_refuse (blamesInput_invalid _)
  · refine (meets_readContentLength input (start + 1) string.limit start).bind
      fun (length, next) _ hnext => ?_
    cases length with
    | none => exact Outcome.meets_refuse (blamesInput_invalid _)
    | some length =>
      simp only [Option.getD_some] at hnext
      refine (Bytes.meets_slice (by omega) (by omega)).bind fun content _ hcontent => ?_
      refine (meets_addFragment string content start unused h).bind fun (_, added) _ hadded => ?_
      exact Outcome.meets_ok (hadded.mono (by omega))

theorem meets_readFragments (unused : UInt8) (hlimit : string.limit ≤ input.length)
    (h : ledger.Steady idx) :
    (string.readFragments input idx unused ledger).Meets BlamesInput fun (next, _, ledger) =>
      next ≤ string.limit ∧ ledger.Steady next := by
  fun_induction string.readFragments input idx unused ledger with
  | case1 idx unused ledger failure hend =>
    obtain ⟨error, rfl, herror⟩ := (meets_endAt input idx hlimit).refused hend
    exact herror
  | case2 idx unused ledger next hend =>
    obtain ⟨hle, hnext⟩ := (meets_endAt input idx hlimit).of_ok hend
    exact ⟨hnext, h.mono hle⟩
  | case3 idx unused ledger hend failure hread =>
    have hidx := (meets_endAt input idx hlimit).of_ok hend
    obtain ⟨error, rfl, herror⟩ := (meets_readFragment unused hlimit hidx h).refused hread
    exact herror
  | case4 idx unused ledger hend next found added hread ih =>
    have hidx := (meets_endAt input idx hlimit).of_ok hend
    exact ih ((meets_readFragment unused hlimit hidx h).of_ok hread)

theorem meets_merge (hlimit : string.limit ≤ input.length) (h : ledger.Steady idx) :
    (string.merge input idx ledger).Meets BlamesInput fun (next, ledger) =>
      next ≤ string.limit ∧ ledger.Steady (next + 1) ∧
        ∀ item ∈ ledger.opened.head?, item.changed = true := by
  refine (meets_readFragments 0 hlimit h).bind fun (next, unused, read) _ hread => ?_
  obtain ⟨hnext, hsteady⟩ := hread
  have hlead : Outcome.Meets (if string.isBits then read.add 1 true else .ok read : Outcome Ledger)
      BlamesInput fun ledger => ledger.Steady (next + 1) := by
    split
    · refine (Ledger.meets_add _ _ _).imp fun added hadded => ?_
      subst hadded
      exact hsteady.grown 1 true
    · exact hsteady.mono (Nat.le_succ next)
  refine hlead.bind fun counted _ hcounted => Outcome.meets_ok ⟨hnext, ?_, ?_⟩
  · exact Ledger.steady_markMerged hcounted unused
  · exact Ledger.changed_markMerged counted unused

end Fragmented

theorem meets_surveyItem (hsmall : input.length < lengthLimit) (hstart : start < bound)
    (hbound : bound ≤ input.length) (h : ledger.Steady start) :
    (surveyItem input start bound ledger).Meets BlamesInput fun (next, ledger) =>
      ledger.Steady next := by
  refine (meets_fetch (by omega)).bind fun tag _ _ => ?_
  refine (Header.meets_identifierSize input start bound).bind fun tagSize _ htag => ?_
  refine (meets_readContentLength input (start + tagSize) bound start).bind
    fun (length, pos) hread hpos => ?_
  dsimp only at hpos ⊢
  split
  · refine (Ledger.meets_openAt h hpos.1 length).bind fun opened _ hopened => ?_
    split
    · have hlimit : Fragmented.limit ⟨tag, length.map (pos + ·), bound⟩ ≤ bound := by
        cases length with
        | none => exact Nat.le_refl bound
        | some n => exact hpos.2
      refine (Fragmented.meets_merge (Nat.le_trans hlimit hbound) hopened).bind
        fun (next, merged) _ hmerge => ?_
      obtain ⟨hnext, hmerged, hchanged⟩ := hmerge
      refine (Ledger.meets_close hmerged (Nat.le_refl 1) (fun _ => hchanged) (by omega)).bind
        fun closed _ hclosed => Outcome.meets_ok hclosed
    · exact Outcome.meets_ok hopened
  · cases length with
    | none => exact Outcome.meets_refuse (blamesInput_invalid _)
    | some n =>
      obtain ⟨_, _, hopening, _, octets, rfl, hoctets⟩ := holds_of_readContentLength hread
      -- the header that is written is no longer than the one that was read
      have hshortest := Header.lengthSize_le hoctets
      have hlimits : lengthLimit + lengthLimit ≤ wordLimit := by decide
      rw [opening, Option.getD_some] at hopening
      rw [Option.getD_some] at hpos
      refine (Word.meets_add (by omega)).bind fun size _ hsize => ?_
      refine (Ledger.meets_add _ _ _).bind fun added _ hadded => Outcome.meets_ok ?_
      subst hsize hadded
      exact (h.grown _ _).mono (by omega)

theorem meets_surveyStep (hsmall : input.length < lengthLimit)
    (hwithin : Within input.length ledger.frames idx) (h : ledger.Steady idx) :
    (surveyStep input idx ledger).Meets BlamesInput fun (found, ledger) =>
      ∀ next ∈ found, ledger.Steady next := by
  have hidx := hwithin.le_length
  refine (Ledger.meets_closeAt h (by omega)).bind fun closed hclosed hsteady => ?_
  obtain ⟨hinside, _⟩ := of_closeAt rfl hwithin hclosed
  have hbound := hinside.bound.le_length
  dsimp only
  split
  · split
    · exact Outcome.meets_refuse (blamesInput_invalid _)
    · exact Outcome.meets_ok nofun
  · refine (meets_atEndOfContent (by omega) hbound).bind fun atEnd _ _ => ?_
    split
    · split
      · refine (Ledger.meets_close hsteady (Nat.zero_le 1) (fun hne => absurd rfl hne)
          (by omega)).bind fun popped _ hpopped => Outcome.meets_ok fun next hnext => ?_
        cases hnext
        exact hpopped.mono (Nat.le_add_right idx 2)
      · exact Outcome.meets_refuse (blamesInput_invalid _)
    · refine (meets_surveyItem hsmall (by omega) hbound hsteady).bind
        fun (next, surveyed) _ hnext => Outcome.meets_ok fun other hother => ?_
      cases hother
      exact hnext

theorem meets_surveyFrom (hsmall : input.length < lengthLimit)
    (hwithin : Within input.length ledger.frames idx) (h : ledger.Steady idx) :
    (surveyFrom input idx ledger).Meets BlamesInput fun _ => True := by
  fun_induction surveyFrom input idx ledger with
  | case1 idx ledger failure hstep =>
    obtain ⟨error, rfl, herror⟩ := (meets_surveyStep hsmall hwithin h).refused hstep
    exact herror
  | case2 => trivial
  | case3 idx ledger next surveyed hstep ih =>
    exact ih (of_surveyStep hwithin hstep).1
      ((meets_surveyStep hsmall hwithin h).of_ok hstep next rfl)

theorem meets_survey (hsmall : input.length < lengthLimit) :
    (survey input).Meets BlamesInput fun _ => True :=
  meets_surveyFrom hsmall (show Within input.length Ledger.empty.frames 0 from Nat.zero_le _)
    Ledger.steady_empty

theorem convert_error {failure : Failure} (h : size input = .error failure) :
    convert input = .error failure := by
  rw [convert, h]
  rfl

theorem write_agrees_with_size (input : Bytes) (hsmall : input.length < lengthLimit) :
    match size input with
    | .error failure => ∃ error, failure = .refused error ∧
        (∀ cause, error ≠ .internalError cause) ∧ (∀ need got, error ≠ .bufferTooSmall need got) ∧
        convert input = .error (.refused error) ∧
        ∀ buffer, write input buffer = .error ⟨.refused error, buffer⟩
    | .ok n => ∃ output, output.length = n ∧
        convert input = (if n < lengthLimit then .ok output else fault) ∧
        ∀ buffer, (n ≤ buffer.length → write input buffer = .ok (n, output ++ buffer.drop n)) ∧
          (buffer.length < n → write input buffer =
            .error ⟨.refused (.bufferTooSmall n buffer.length), buffer⟩) := by
  cases hsurvey : survey input with
  | error failure =>
    obtain ⟨error, rfl, hcall, hbuffer⟩ := (meets_survey hsmall).refused hsurvey
    have hsize : size input = .error (.refused error) := by
      rw [size, hsurvey]
      rfl
    rw [hsize]
    refine ⟨error, rfl, hcall, hbuffer, convert_error hsize, fun buffer => ?_⟩
    rw [write, hsurvey]
    rfl
  | ok ledger =>
    obtain ⟨tree, hvalid, rfl⟩ := tree_of_survey hsurvey
    obtain ⟨hlimited, rfl⟩ := (survey_octets_eq_ok_iff hvalid hsmall).mp hsurvey
    rw [size_octets hvalid hsmall hlimited]
    refine ⟨tree.der, rfl, convert_octets hvalid hsmall hlimited, fun buffer => ⟨fun hroom => ?_,
      fun hshort => ?_⟩⟩
    · exact write_octets hvalid hsmall hlimited hroom
    · rw [write, hsurvey, Outcome.leaving_ok, ok_bind, count_octets hvalid hsmall hlimited,
        Outcome.leaving_ok, ok_bind, if_pos hshort]
      rfl

theorem write_agrees_with_size_empty :
    ([0x23, 0x00] : Bytes).length < lengthLimit ∧ size [0x23, 0x00] = .ok 3 ∧
      ∃ output, output.length = 3 ∧ convert [0x23, 0x00] = .ok output ∧
        ∀ buffer,
          (3 ≤ buffer.length → write [0x23, 0x00] buffer = .ok (3, output ++ buffer.drop 3)) ∧
          (buffer.length < 3 → write [0x23, 0x00] buffer =
            .error ⟨.refused (.bufferTooSmall 3 buffer.length), buffer⟩) := by
  have hlength (octets : Bytes) (h : some [0x00] = some octets) : IsLength octets 0 :=
    Option.some.inj h ▸ .short 0x00 (by decide)
  have hvalid : (Ber.string (.single 0x23 (by decide) rfl) (some [0x00]) [] .nil).Valid :=
    ⟨by decide, hlength, trivial, trivial⟩
  have hsize : size [0x23, 0x00] = .ok 3 :=
    size_octets hvalid (by decide) ⟨by decide, by decide, by decide⟩
  have h := write_agrees_with_size [0x23, 0x00] (by decide)
  rw [hsize] at h
  exact ⟨by decide, hsize, h⟩

end DerTemplate.Canonical

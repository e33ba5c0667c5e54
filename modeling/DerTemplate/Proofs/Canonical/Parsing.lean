import DerTemplate.Proofs.Canonical.Fragments

namespace DerTemplate

theorem Bytes.holds_take {bytes : Bytes} {idx n : Nat} (h : idx + n ≤ bytes.length) :
    bytes.Holds idx ((bytes.drop idx).take n) ∧ ((bytes.drop idx).take n).length = n := by
  have hlength : ((bytes.drop idx).take n).length = n := by
    rw [List.length_take, List.length_drop]
    omega
  exact ⟨⟨by omega, by rw [hlength]⟩, hlength⟩

namespace Canonical

open Header (Identifier IsLength)

variable {input : Bytes} {idx next : Nat} {ledger ledger' : Ledger}

theorem holds_of_atEndOfContent {limit : Nat} (h : atEndOfContent input idx limit = .ok true) :
    input.Holds idx [0x00, 0x00] ∧ idx + 2 ≤ limit := by
  obtain ⟨first, hfirst, h⟩ := bind_eq_ok_iff.mp h
  split at h
  · cases h
  · rename_i hzero
    split at h
    · rename_i hlimit
      obtain ⟨second, hsecond, h⟩ := bind_eq_ok_iff.mp h
      split at h
      · rename_i hsecondZero
        rw [Classical.not_not.mp hzero] at hfirst
        rw [hsecondZero] at hsecond
        exact ⟨Bytes.holds_cons_iff.mpr ⟨fetch_eq_ok_iff.mp hfirst,
          Bytes.holds_singleton_iff.mpr (fetch_eq_ok_iff.mp hsecond)⟩, by omega⟩
      · cases h
    · cases h

theorem fetch_of_atEndOfContent {limit : Nat} (h : atEndOfContent input idx limit = .ok false) :
    ∃ first, fetch input idx = .ok first ∧ first ≠ Tag.endOfContent := by
  obtain ⟨first, hfirst, h⟩ := bind_eq_ok_iff.mp h
  split at h
  · rename_i hne
    exact ⟨first, hfirst, hne⟩
  · split at h
    · obtain ⟨second, _, h⟩ := bind_eq_ok_iff.mp h
      split at h <;> cases h
    · cases h

def Declares (length : Option Bytes) : Option Nat → Prop
  | some n => ∃ octets, length = some octets ∧ IsLength octets n
  | none => length = none

theorem holds_of_readContentLength {limit start : Nat} {size : Option Nat}
    (h : readContentLength input idx limit start = .ok (size, next)) :
    ∃ length : Option Bytes, input.Holds idx (opening length) ∧
      next = idx + (opening length).length ∧ next + size.getD 0 ≤ limit ∧ Declares length size := by
  obtain ⟨⟨found, pos⟩, hread, h⟩ := bind_eq_ok_iff.mp h
  obtain ⟨octets, hholds, hpos, hlimit, hoctets⟩ := Header.holds_of_readAnyLength hread
  cases found with
  | indefinite =>
    cases h
    obtain rfl : octets = [0x80] := hoctets
    exact ⟨none, hholds, hpos, hlimit, rfl⟩
  | definite n =>
    obtain ⟨room, hroom, h⟩ := bind_eq_ok_iff.mp h
    obtain ⟨_, rfl⟩ := Word.sub_eq_ok_iff.mp hroom
    split at h
    · cases h
    · cases h
      exact ⟨some octets, hholds, hpos, by rw [Option.getD_some]; omega, octets, rfl, hoctets⟩

namespace Fragmented

variable {string : Fragmented} {unused unused' : UInt8}

theorem of_addFragment {content : Bytes} {start : Nat}
    (h : string.addFragment content start unused ledger = .ok (unused', ledger')) :
    ledger'.frames = ledger.frames ∧
      (string.isBits = true → unused = 0 ∧ Content.unusedBitCount content = .ok unused') := by
  unfold addFragment at h
  split at h
  · split at h
    · cases h
    · rename_i hzero
      obtain ⟨found, hfound, h⟩ := bind_eq_ok_iff.mp h
      obtain ⟨length, _, h⟩ := bind_eq_ok_iff.mp h
      obtain ⟨added, hadd, h⟩ := bind_eq_ok_iff.mp h
      cases h
      exact ⟨Ledger.frames_of_add hadd, fun _ => ⟨Classical.not_not.mp hzero, hfound⟩⟩
  · rename_i hbits
    obtain ⟨added, hadd, h⟩ := bind_eq_ok_iff.mp h
    cases h
    exact ⟨Ledger.frames_of_add hadd, fun h => absurd h hbits⟩

theorem of_endAt (h : string.endAt input idx = .ok (some next)) : string.Ends input idx next := by
  unfold endAt at h
  split at h
  · rename_i stop hstop
    split at h
    · rename_i hidx
      cases h
      exact .inl ⟨hidx ▸ hstop, rfl⟩
    · split at h <;> cases h
  · rename_i hstop
    have hlimit : string.limit = string.bound := by rw [limit, hstop]; rfl
    split at h
    · cases h
    · obtain ⟨atEnd, hatEnd, h⟩ := bind_eq_ok_iff.mp h
      cases atEnd with
      | false => cases h
      | true =>
        cases h
        obtain ⟨hzeros, hroom⟩ := holds_of_atEndOfContent hatEnd
        exact .inr ⟨hstop, hzeros, hlimit ▸ hroom, rfl⟩

theorem of_readFragment (h : string.readFragment input idx unused ledger =
      .ok (next, unused', ledger')) :
    ∃ fragment : Fragment, input.Holds idx (fragment.octets string.tag.base) ∧
      next = idx + (fragment.octets string.tag.base).length ∧
      IsLength fragment.length fragment.content.length ∧ ledger'.frames = ledger.frames ∧
      (string.isBits = true → unused = 0 ∧
        Content.unusedBitCount fragment.content = .ok unused') := by
  obtain ⟨tag, htag, h⟩ := bind_eq_ok_iff.mp h
  split at h
  · cases h
  · rename_i hsame
    obtain ⟨⟨size, pos⟩, hread, h⟩ := bind_eq_ok_iff.mp h
    obtain ⟨length, hholds, hpos, _, hsize⟩ := holds_of_readContentLength hread
    cases size with
    | none => cases h
    | some n =>
      obtain ⟨octets, rfl, hoctets⟩ := hsize
      obtain ⟨content, hcontent, h⟩ := bind_eq_ok_iff.mp h
      obtain ⟨⟨found, added⟩, hadd, h⟩ := bind_eq_ok_iff.mp h
      obtain ⟨hslice, hn⟩ := Bytes.holds_of_slice hcontent
      obtain ⟨hframes, hunused⟩ := of_addFragment hadd
      cases h
      have hn : n = content.length := Nat.add_left_cancel hn
      have hopening : opening (some octets) = octets := rfl
      rw [hopening] at hholds hpos
      refine ⟨⟨octets, content⟩, Bytes.holds_cons_iff.mpr ⟨?_, Bytes.holds_append_iff.mpr
        ⟨hholds, hpos ▸ hslice⟩⟩, ?_, hn ▸ hoctets, hframes, hunused⟩
      · rw [← Classical.not_not.mp hsame]
        exact fetch_eq_ok_iff.mp htag
      · rw [Fragment.octets, List.length_cons, List.length_append]
        dsimp only
        omega

theorem of_readFragments (hidx : idx ≤ input.length)
    (h : string.readFragments input idx unused ledger = .ok (next, unused', ledger')) :
    ∃ fragments, Fragment.Valid string.isBits fragments ∧
      input.Holds idx (Fragment.join string.tag.base fragments) ∧
      string.Ends input (idx + (Fragment.join string.tag.base fragments).length) next ∧
      ledger'.frames = ledger.frames ∧
      (string.isBits = true → fragments ≠ [] → unused = 0) := by
  fun_induction string.readFragments input idx unused ledger with
  | case1 => cases h
  | case2 idx unused ledger stop hend =>
    cases h
    exact ⟨[], trivial, Bytes.holds_nil hidx, of_endAt hend, rfl, fun _ hne => absurd rfl hne⟩
  | case3 => cases h
  | case4 idx unused ledger hend pos found added hread ih =>
    obtain ⟨fragment, hfragment, rfl, hlength, hframes, hunused⟩ := of_readFragment hread
    obtain ⟨rest, hvalid, hrest, hends, hrestFrames, hrestUnused⟩ := ih hfragment.1 h
    have hjoin : Fragment.join string.tag.base (fragment :: rest) =
      fragment.octets string.tag.base ++ Fragment.join string.tag.base rest := rfl
    refine ⟨fragment :: rest, ⟨hlength, fun hbits => ?_, hvalid⟩, ?_, ?_, hrestFrames.trans hframes,
      fun hbits _ => (hunused hbits).1⟩
    · exact ⟨found, (hunused hbits).2, hrestUnused hbits⟩
    · rw [hjoin]
      exact Bytes.holds_append_iff.mpr ⟨hfragment, hrest⟩
    · rw [hjoin, List.length_append, ← Nat.add_assoc]
      exact hends

end Fragmented

def Within (inputLength : Nat) : List Frame → Nat → Prop
  | [], idx => idx ≤ inputLength
  | frame :: around, idx => idx ≤ frame.bound ∧ Within inputLength around frame.bound

/-- What is left from `idx` on are items for the rest of every open item and of the input. -/
def Finishes (input : Bytes) : List Frame → Nat → Prop
  | [], idx => ∃ tree : Ber, tree.Valid ∧ input.Holds idx tree.octets ∧
    idx + tree.octets.length = input.length
  | frame :: around, idx => ∃ tree : Ber, tree.Valid ∧ input.Holds idx tree.octets ∧
    if frame.indefinite then
      input.Holds (idx + tree.octets.length) [0x00, 0x00] ∧
        Finishes input around (idx + tree.octets.length + 2)
    else idx + tree.octets.length = frame.bound ∧ Finishes input around frame.bound

variable {frames : List Frame}

theorem Within.mono {inputLength : Nat} {frames : List Frame} (h : Within inputLength frames next)
    (hle : idx ≤ next) : Within inputLength frames idx := by
  cases frames with
  | nil => exact Nat.le_trans hle h
  | cons frame around => exact ⟨Nat.le_trans hle h.1, h.2⟩

theorem Within.le_length {inputLength : Nat} {frames : List Frame}
    (h : Within inputLength frames idx) : idx ≤ inputLength := by
  induction frames generalizing idx with
  | nil => exact h
  | cons frame around ih => exact Nat.le_trans h.1 (ih h.2)

theorem Within.bound {inputLength : Nat} (h : Within inputLength ledger.frames idx) :
    Within inputLength ledger.frames (ledger.bound inputLength) := by
  rw [Ledger.bound_frames]
  cases hframes : ledger.frames with
  | nil => exact Nat.le_refl _
  | cons frame around =>
    rw [hframes] at h
    exact ⟨Nat.le_refl _, h.2⟩

theorem Finishes.prepend {first : Ber} {join : Ber → Ber} (hjoin : ∀ tree, Ber.Joins first tree (join tree))
    (hvalid : first.Valid) (hinput : input.Holds idx first.octets)
    (h : Finishes input frames (idx + first.octets.length)) : Finishes input frames idx := by
  cases frames with
  | nil =>
    obtain ⟨tree, htree, hholds, hend⟩ := h
    have hoctets := (hjoin tree).octets
    refine ⟨join tree, (hjoin tree).valid.mpr ⟨hvalid, htree⟩, ?_, ?_⟩
    · rw [hoctets]
      exact Bytes.holds_append_iff.mpr ⟨hinput, hholds⟩
    · rw [hoctets, List.length_append]
      omega
  | cons frame around =>
    obtain ⟨tree, htree, hholds, hend⟩ := h
    have hoctets := (hjoin tree).octets
    refine ⟨join tree, (hjoin tree).valid.mpr ⟨hvalid, htree⟩, ?_, ?_⟩
    · rw [hoctets]
      exact Bytes.holds_append_iff.mpr ⟨hinput, hholds⟩
    · rw [hoctets, List.length_append, ← Nat.add_assoc]
      exact hend

variable {identifier : Identifier} {length : Option Bytes}

theorem Finishes.primitive {octets content : Bytes}
    (hconstructed : identifier.first.isConstructed = false)
    (hlength : IsLength octets content.length)
    (hinput : input.Holds idx (whole identifier (some octets) content))
    (h : Finishes input frames (idx + (whole identifier (some octets) content).length)) :
    Finishes input frames idx := by
  refine Finishes.prepend (Ber.joins_primitive identifier octets content)
    ⟨hconstructed, hlength, trivial⟩ ?_ ?_
  · rwa [Ber.octets_primitive]
  · rwa [Ber.octets_primitive]

theorem Finishes.string {fragments : List Fragment}
    (hconstructed : identifier.first.isConstructed = true)
    (hfragmentable : identifier.first.isFragmentable = true)
    (hlength : ∀ octets, length = some octets →
      IsLength octets (Fragment.join identifier.first.base fragments).length)
    (hvalid : Fragment.Valid (isBits identifier) fragments)
    (hinput : input.Holds idx
      (whole identifier length (Fragment.join identifier.first.base fragments)))
    (h : Finishes input frames
      (idx + (whole identifier length (Fragment.join identifier.first.base fragments)).length)) :
    Finishes input frames idx := by
  refine Finishes.prepend (Ber.joins_string identifier length fragments)
    ⟨⟨hconstructed, hfragmentable⟩, hlength, hvalid, trivial⟩ ?_ ?_
  · rwa [Ber.octets_string]
  · rwa [Ber.octets_string]

theorem Finishes.nested {stop bound : Nat} (hconstructed : identifier.first.isConstructed = true)
    (hfragmentable : identifier.first.isFragmentable = false)
    (hlength : ∀ octets, length = some octets →
      ∃ n, IsLength octets n ∧ stop = idx + (header identifier length).length + n)
    (hinput : input.Holds idx (header identifier length))
    (h : Finishes input (⟨length.isNone, if length.isNone then bound else stop⟩ :: frames)
      (idx + (header identifier length).length)) : Finishes input frames idx := by
  obtain ⟨inner, hinner, hholds, hend⟩ := h
  have hwhole := length_whole identifier length inner.octets
  refine Finishes.prepend (Ber.joins_nested identifier length inner)
    ⟨⟨hconstructed, hfragmentable⟩, ?_, hinner, trivial⟩ ?_ ?_
  · intro octets hsome
    obtain ⟨n, hn, hstop⟩ := hlength octets hsome
    rw [hsome] at hend hstop
    have hstop' : idx + (header identifier (some octets)).length + inner.octets.length = stop :=
      hend.1
    have hsize : n = inner.octets.length := by omega
    exact hsize ▸ hn
  · rw [Ber.octets_nested]
    refine Bytes.holds_append_iff.mpr ⟨hinput, Bytes.holds_append_iff.mpr ⟨hholds, ?_⟩⟩
    cases length with
    | some octets => exact Bytes.holds_nil hholds.1
    | none => exact hend.1
  · rw [Ber.octets_nested, hwhole]
    cases length with
    | some octets =>
      obtain ⟨hstop, hrest⟩ := hend
      have hclosing : (closing (some octets)).length = 0 := rfl
      rw [hclosing, Nat.add_zero, ← Nat.add_assoc, hstop]
      exact hrest
    | none =>
      have hclosing : (closing none).length = 2 := rfl
      rw [hclosing, ← Nat.add_assoc, ← Nat.add_assoc]
      exact hend.2

theorem of_merge {string : Fragmented} (hidx : idx ≤ input.length)
    (h : string.merge input idx ledger = .ok (next, ledger')) :
    ∃ fragments, Fragment.Valid string.isBits fragments ∧
      input.Holds idx (Fragment.join string.tag.base fragments) ∧
      string.Ends input (idx + (Fragment.join string.tag.base fragments).length) next ∧
      ledger'.frames = ledger.frames := by
  obtain ⟨⟨stop, unused, read⟩, hread, h⟩ := bind_eq_ok_iff.mp h
  obtain ⟨added, hadd, h⟩ := bind_eq_ok_iff.mp h
  obtain ⟨fragments, hvalid, hholds, hends, hframes, _⟩ := Fragmented.of_readFragments hidx hread
  cases h
  refine ⟨fragments, hvalid, hholds, hends, ?_⟩
  rw [Ledger.frames_markMerged, ← hframes]
  split at hadd
  · exact Ledger.frames_of_add hadd
  · cases hadd
    rfl

theorem Finishes.string_of_declares {size : Option Nat} {fragments : List Fragment} {bound : Nat}
    (hconstructed : identifier.first.isConstructed = true)
    (hfragmentable : identifier.first.isFragmentable = true)
    (hheader : input.Holds idx (header identifier length))
    (hsize : Declares length size)
    (hvalid : Fragment.Valid (isBits identifier) fragments)
    (hholds : input.Holds (idx + (header identifier length).length)
      (Fragment.join identifier.first.base fragments))
    (hends : Fragmented.Ends ⟨identifier.first,
      size.map (idx + (header identifier length).length + ·), bound⟩ input
        (idx + (header identifier length).length +
          (Fragment.join identifier.first.base fragments).length) next)
    (h : Finishes input frames next) : Finishes input frames idx := by
  have hwhole := length_whole identifier length (Fragment.join identifier.first.base fragments)
  cases size with
  | some n =>
    obtain ⟨octets, rfl, hn⟩ := hsize
    rcases hends with ⟨hstop, rfl⟩ | ⟨hstop, _⟩
    · have hjoin : n = (Fragment.join identifier.first.base fragments).length :=
        Nat.add_left_cancel (Option.some.inj hstop)
      have hclosing : (closing (some octets)).length = 0 := rfl
      refine Finishes.string hconstructed hfragmentable
        (fun _ h => Option.some.inj h ▸ hjoin ▸ hn) hvalid ?_ ?_
      · exact Bytes.holds_append_iff.mpr ⟨hheader,
          Bytes.holds_append_iff.mpr ⟨hholds, Bytes.holds_nil hholds.1⟩⟩
      · rwa [hwhole, hclosing, Nat.add_zero, ← Nat.add_assoc]
    · cases hstop
  | none =>
    obtain rfl : length = none := hsize
    rcases hends with ⟨hstop, _⟩ | ⟨_, hzeros, _, rfl⟩
    · cases hstop
    · have hlength (octets : Bytes) (h : none = some octets) :
        IsLength octets (Fragment.join identifier.first.base fragments).length := nomatch h
      refine Finishes.string hconstructed hfragmentable hlength hvalid ?_ ?_
      · exact Bytes.holds_append_iff.mpr ⟨hheader, Bytes.holds_append_iff.mpr ⟨hholds, hzeros⟩⟩
      · have hclosing : (closing none).length = 2 := rfl
        rwa [hwhole, hclosing, ← Nat.add_assoc, ← Nat.add_assoc]

theorem Fragmented.Ends.le {tag : Tag} {size : Option Nat} {pos stop bound : Nat}
    (h : Fragmented.Ends ⟨tag, size.map (pos + ·), bound⟩ input stop next)
    (hbound : pos + size.getD 0 ≤ bound) : next ≤ bound := by
  rcases h with ⟨hstop, rfl⟩ | ⟨_, _, hroom, rfl⟩
  · cases size with
    | none => cases hstop
    | some n =>
      cases hstop
      exact hbound
  · exact hroom

theorem Finishes.nested_of_declares {size : Option Nat} {bound : Nat}
    (hconstructed : identifier.first.isConstructed = true)
    (hfragmentable : identifier.first.isFragmentable = false)
    (hheader : input.Holds idx (header identifier length)) (hsize : Declares length size)
    (h : Finishes input
      (⟨size.isNone, size.elim bound (idx + (header identifier length).length + ·)⟩ :: frames)
      (idx + (header identifier length).length)) : Finishes input frames idx := by
  cases size with
  | none =>
    obtain rfl : length = none := hsize
    have hframe : Finishes input (⟨true, if true then bound else idx⟩ :: frames)
      (idx + (header identifier none).length) := h
    refine Finishes.nested hconstructed hfragmentable (fun octets hsome => ?_) hheader hframe
    cases hsome
  | some n =>
    obtain ⟨octets, rfl, hn⟩ := hsize
    have hframe : Finishes input (⟨false, if false then bound else
      idx + (header identifier (some octets)).length + n⟩ :: frames)
        (idx + (header identifier (some octets)).length) := h
    refine Finishes.nested hconstructed hfragmentable (fun other hsome => ?_) hheader hframe
    cases hsome
    exact ⟨n, hn, rfl⟩

theorem Finishes.primitive_of_declares {octets : Bytes} {n : Nat}
    (hconstructed : identifier.first.isConstructed = false)
    (hheader : input.Holds idx (header identifier (some octets))) (hn : IsLength octets n)
    (hroom : idx + (header identifier (some octets)).length + n ≤ input.length)
    (h : Finishes input frames (idx + (header identifier (some octets)).length + n)) :
    Finishes input frames idx := by
  obtain ⟨hcontent, hsize⟩ := Bytes.holds_take hroom
  generalize (input.drop _).take n = content at hcontent hsize
  have hwhole := length_whole identifier (some octets) content
  have hclosing : (closing (some octets)).length = 0 := rfl
  refine Finishes.primitive hconstructed (hsize ▸ hn) (Bytes.holds_append_iff.mpr ⟨hheader,
    Bytes.holds_append_iff.mpr ⟨hcontent, Bytes.holds_nil hcontent.1⟩⟩) ?_
  rwa [hwhole, hclosing, hsize, Nat.add_zero, ← Nat.add_assoc]

theorem of_surveyItem {first : Tag} (hwithin : Within input.length ledger.frames idx)
    (hfirst : fetch input idx = .ok first) (hne : first ≠ Tag.endOfContent)
    (h : surveyItem input idx (ledger.bound input.length) ledger = .ok (next, ledger')) :
    Within input.length ledger'.frames next ∧
      (Finishes input ledger'.frames next → Finishes input ledger.frames idx) := by
  obtain ⟨tag, htag, h⟩ := bind_eq_ok_iff.mp h
  rw [hfirst] at htag
  obtain rfl := Except.ok.inj htag
  obtain ⟨tagSize, htagSize, h⟩ := bind_eq_ok_iff.mp h
  obtain ⟨identifier, rfl, hidentifier, rfl, _⟩ := Header.holds_of_identifierSize hfirst hne htagSize
  obtain ⟨⟨size, pos⟩, hread, h⟩ := bind_eq_ok_iff.mp h
  obtain ⟨length, hopening, hpos, hroom, hsize⟩ := holds_of_readContentLength hread
  have hheader : input.Holds idx (header identifier length) :=
    Bytes.holds_append_iff.mpr ⟨hidentifier, hopening⟩
  rw [Nat.add_assoc, ← length_header] at hpos
  subst hpos
  have hbound := hwithin.bound
  have hlength := hbound.le_length
  dsimp only at h
  split at h
  · rename_i hconstructed
    obtain ⟨opened, hopen, h⟩ := bind_eq_ok_iff.mp h
    have hopened := Ledger.frames_of_openAt hopen
    split at h
    · rename_i hfragmentable
      -- a string is opened and closed in one step, so the frames around it stay
      obtain ⟨⟨stop, filled⟩, hmerge, h⟩ := bind_eq_ok_iff.mp h
      obtain ⟨closed, hclose, h⟩ := bind_eq_ok_iff.mp h
      obtain ⟨fragments, hvalid, hholds, hends, hfilled⟩ := of_merge hheader.1 hmerge
      obtain ⟨frame, hclosed⟩ := Ledger.frames_of_close hclose
      rw [hfilled, hopened] at hclosed
      cases h
      rw [← (List.cons.inj hclosed).2]
      exact ⟨hbound.mono (hends.le hroom), Finishes.string_of_declares hconstructed hfragmentable hheader
        hsize hvalid hholds hends⟩
    · rename_i hfragmentable
      cases h
      rw [hopened]
      refine ⟨?_, fun hrest => ?_⟩
      · cases size with
        | none => exact ⟨hroom, hbound⟩
        | some n => exact ⟨Nat.le_add_right _ _, hbound.mono hroom⟩
      · exact Finishes.nested_of_declares hconstructed (by simpa using hfragmentable) hheader hsize
          hrest
  · rename_i hprimitive
    cases size with
    | none => cases h
    | some n =>
      obtain ⟨octets, rfl, hn⟩ := hsize
      obtain ⟨total, _, h⟩ := bind_eq_ok_iff.mp h
      obtain ⟨added, hadd, h⟩ := bind_eq_ok_iff.mp h
      cases h
      rw [Ledger.frames_of_add hadd]
      rw [Option.getD_some] at hroom
      refine ⟨hbound.mono hroom, fun hrest => ?_⟩
      exact Finishes.primitive_of_declares (by simpa using hprimitive) hheader hn
        (Nat.le_trans hroom hlength) hrest

theorem of_closeAt {frames : List Frame} (hframes : ledger.frames = frames)
    (hwithin : Within input.length frames idx)
    (h : (ledger.closeAt idx).outcome = .ok ledger') :
    Within input.length ledger'.frames idx ∧
      (Finishes input ledger'.frames idx → Finishes input frames idx) := by
  induction frames generalizing ledger with
  | nil =>
    rw [Ledger.closeAt_eq (by rw [Ledger.endsAt_frames, hframes]; rfl)] at h
    cases h
    rw [hframes]
    exact ⟨hwithin, id⟩
  | cons frame around ih =>
    cases hends : ledger.endsAt idx with
    | false =>
      rw [Ledger.closeAt_eq hends] at h
      cases h
      rw [hframes]
      exact ⟨hwithin, id⟩
    | true =>
      rw [Ledger.closeAt_endsAt hends] at h
      obtain ⟨closed, hclose, h⟩ := bind_eq_ok_iff.mp h
      obtain ⟨top, htop⟩ := Ledger.frames_of_close hclose
      rw [hframes] at htop
      obtain ⟨rfl, haround⟩ := List.cons.inj htop
      obtain ⟨hinside, hback⟩ := ih haround.symm (hwithin.2.mono hwithin.1) h
      rw [Ledger.endsAt_frames, hframes] at hends
      simp only [List.head?_cons, Option.any_some, Bool.and_eq_true, Bool.not_eq_true',
        beq_iff_eq] at hends
      obtain ⟨hdefinite, hbound⟩ := hends
      refine ⟨hinside, fun hrest => ⟨.nil, trivial, Bytes.holds_nil ?_, ?_⟩⟩
      · exact hwithin.le_length
      · rw [hdefinite, if_neg Bool.false_ne_true]
        exact ⟨hbound.symm, hbound ▸ hback hrest⟩

theorem of_surveyStep {found : Option Nat} (hwithin : Within input.length ledger.frames idx)
    (h : surveyStep input idx ledger = .ok (found, ledger')) :
    match found with
    | none => Finishes input ledger.frames idx
    | some next => Within input.length ledger'.frames next ∧
      (Finishes input ledger'.frames next → Finishes input ledger.frames idx) := by
  obtain ⟨closed, hclosed, h⟩ := bind_eq_ok_iff.mp h
  obtain ⟨hinside, hback⟩ := of_closeAt rfl hwithin hclosed
  dsimp only at h
  split at h
  · rename_i hend
    split at h
    · cases h
    · rename_i hopen
      cases h
      have hframes : ledger'.frames = [] := by
        rw [Ledger.hasOpen_frames] at hopen
        simpa using hopen
      refine hback ?_
      rw [hframes] at hinside ⊢
      rw [Ledger.bound_frames, hframes] at hend
      exact ⟨.nil, trivial, Bytes.holds_nil hinside, Nat.le_antisymm hinside hend⟩
  · obtain ⟨atEnd, hatEnd, h⟩ := bind_eq_ok_iff.mp h
    split at h
    · rename_i hcontent
      split at h
      · rename_i hindefinite
        obtain ⟨popped, hpop, h⟩ := bind_eq_ok_iff.mp h
        cases h
        rw [hcontent] at hatEnd
        obtain ⟨hzeros, hroom⟩ := holds_of_atEndOfContent hatEnd
        obtain ⟨frame, hframes⟩ := Ledger.frames_of_close hpop
        rw [Ledger.insideIndefinite_frames, hframes] at hindefinite
        rw [Ledger.bound_frames, hframes] at hroom
        rw [hframes] at hinside hback
        refine ⟨hinside.2.mono hroom, fun hrest => hback ⟨.nil, trivial, ?_, ?_⟩⟩
        · exact Bytes.holds_nil hinside.le_length
        · rw [if_pos (show frame.indefinite = true from hindefinite)]
          exact ⟨hzeros, hrest⟩
      · cases h
    · rename_i hcontent
      obtain ⟨⟨stop, surveyed⟩, hitem, h⟩ := bind_eq_ok_iff.mp h
      cases h
      rw [Bool.not_eq_true] at hcontent
      rw [hcontent] at hatEnd
      obtain ⟨first, hfirst, hne⟩ := fetch_of_atEndOfContent hatEnd
      obtain ⟨hnext, hgo⟩ := of_surveyItem hinside hfirst hne hitem
      exact ⟨hnext, fun hrest => hback (hgo hrest)⟩

theorem finishes_of_surveyFrom {surveyed : Ledger} (hwithin : Within input.length ledger.frames idx)
    (h : surveyFrom input idx ledger = .ok surveyed) : Finishes input ledger.frames idx := by
  fun_induction surveyFrom input idx ledger with
  | case1 => cases h
  | case2 idx ledger ledger' hstep => exact of_surveyStep hwithin hstep
  | case3 idx ledger next ledger' hstep ih =>
    obtain ⟨hnext, hback⟩ := of_surveyStep hwithin hstep
    exact hback (ih hnext h)

theorem tree_of_survey {surveyed : Ledger} (h : survey input = .ok surveyed) :
    ∃ tree : Ber, tree.Valid ∧ tree.octets = input := by
  obtain ⟨tree, hvalid, hholds, hlength⟩ :=
    finishes_of_surveyFrom (show Within input.length Ledger.empty.frames 0 from Nat.zero_le _) h
  rw [Nat.zero_add] at hlength
  exact ⟨tree, hvalid, hholds.unique (Bytes.holds_self input) hlength⟩

end Canonical

end DerTemplate

import DerTemplate.Proofs.Canonical.Fragments

namespace DerTemplate.Canonical

open Header (Identifier IsLength)

variable {input : Bytes} {idx : Nat} {ledger : Ledger}
variable {identifier : Identifier} {length : Option Bytes}

theorem readContentLength_header {size bound start : Nat}
    (hlength : ∀ octets, length = some octets → IsLength octets size)
    (hinput : input.Holds idx (opening length))
    (hbound : idx + (opening length).length + size ≤ bound) :
    readContentLength input idx bound start =
      .ok (length.map fun _ => size, idx + (opening length).length) := by
  cases length with
  | some octets => exact readContentLength_definite (hlength octets rfl) hinput hbound
  | none => exact readContentLength_indefinite hinput (Nat.lt_of_lt_of_le (Nat.lt_succ_self idx)
      (Nat.le_of_add_right_le hbound))

theorem surveyItem_header {size bound : Nat}
    (hlength : ∀ octets, length = some octets → IsLength octets size)
    (hinput : input.Holds idx (header identifier length))
    (hbound : idx + (header identifier length).length + size ≤ bound) :
    surveyItem input idx bound ledger =
      if identifier.first.isConstructed then do
        let opened ← ledger.openAt idx identifier.octets.length
          (idx + (header identifier length).length) bound (length.map fun _ => size)
        if identifier.first.isFragmentable then
          let string : Fragmented := ⟨identifier.first,
            length.map fun _ => idx + (header identifier length).length + size, bound⟩
          let (next, filled) ← string.merge input (idx + (header identifier length).length) opened
          let closed ← filled.close.outcome
          return (next, closed)
        else return (idx + (header identifier length).length, opened)
      else
        match length with
        | none => refuse (.invalidEncoding (.indefinitePrimitive idx))
        | some _ => do
          let own := identifier.octets.length + Header.lengthSize size
          let total ← Word.add own size
          let ledger ← ledger.add total (own != (header identifier length).length)
          return (idx + (header identifier length).length + size, ledger) := by
  obtain ⟨hidentifier, hopening⟩ := Bytes.holds_append_iff.mp hinput
  rw [length_header] at hbound
  have hread : readContentLength input (idx + identifier.octets.length) bound idx =
      .ok (length.map fun _ => size, idx + identifier.octets.length + (opening length).length) :=
    readContentLength_header hlength hopening (by omega)
  rw [Nat.add_assoc, ← length_header] at hread
  rw [surveyItem, (show input.Holds idx (identifier.first :: identifier.number) from
    hidentifier).fetch, ok_bind, Header.identifierSize_octets identifier hidentifier (by omega),
    ok_bind, hread, ok_bind]
  dsimp only
  cases length with
  | none => rfl
  | some octets => simp only [Option.map_some, Nat.add_sub_cancel_left]

theorem surveyItem_primitive {octets content : Bytes} {bound : Nat}
    (hconstructed : identifier.first.isConstructed = false)
    (hlength : IsLength octets content.length)
    (hinput : input.Holds idx (header identifier (some octets)))
    (hbound : idx + (header identifier (some octets)).length + content.length ≤ bound) :
    surveyItem input idx bound ledger =
      (ledger.add (shortest identifier.octets content).length
        (!kept (some octets) true content.length) >>= fun ledger =>
          .ok (idx + (whole identifier (some octets) content).length, ledger)) := by
  have hlimits : lengthLimit + 15 < wordLimit := by decide
  have hsize := Header.lt_of_isLength hlength
  have hnine := Header.lengthSize_le_nine (Nat.lt_trans hsize (by decide))
  have hnumber : identifier.octets.length ≤ 6 := Nat.succ_le_succ identifier.length_number
  have hheader := length_header identifier (some octets)
  have hopening : (opening (some octets)).length = octets.length := rfl
  have hadd : Word.add (identifier.octets.length + Header.lengthSize content.length) content.length =
      .ok (shortest identifier.octets content).length := by
    rw [Word.add, if_pos (by omega), length_shortest]
  have hflag : (identifier.octets.length + Header.lengthSize content.length !=
      (header identifier (some octets)).length) = !kept (some octets) true content.length := by
    rw [kept, Bool.true_and, bne, hheader, hopening]
    refine congrArg Bool.not (Bool.eq_iff_iff.mpr ?_)
    simp only [beq_iff_eq, Option.map_some, Option.some.injEq]
    omega
  have hstop : idx + (header identifier (some octets)).length + content.length =
      idx + (whole identifier (some octets) content).length := by
    rw [length_whole]
    exact Nat.add_assoc _ _ _
  rw [surveyItem_header (fun _ h => Option.some.inj h ▸ hlength) hinput hbound, hconstructed,
    if_neg Bool.false_ne_true]
  dsimp only
  rw [hadd, ok_bind, hflag, hstop]
  rfl

theorem surveyItem_nested {size bound : Nat} (hconstructed : identifier.first.isConstructed = true)
    (hfragmentable : identifier.first.isFragmentable = false)
    (hlength : ∀ octets, length = some octets → IsLength octets size)
    (hinput : input.Holds idx (header identifier length))
    (hbound : idx + (header identifier length).length + size ≤ bound) :
    surveyItem input idx bound ledger =
      (ledger.openAt idx identifier.octets.length (idx + (header identifier length).length) bound
        (length.map fun _ => size) >>= fun opened =>
          .ok (idx + (header identifier length).length, opened)) := by
  rw [surveyItem_header hlength hinput hbound, hconstructed, if_pos rfl, hfragmentable]
  rfl

theorem merge_eq (string : Fragmented) {fragments : List Fragment} {opened : Ledger} {pos next : Nat}
    {item : OpenItem} {around : List OpenItem} (hopened : opened.opened = item :: around)
    (hfresh : item.contentLength = 0) (hvalid : Fragment.Valid string.isBits fragments)
    (htag : string.tag.base ≠ Tag.endOfContent)
    (hinput : input.Holds pos (Fragment.join string.tag.base fragments))
    (hend : string.Ends input (pos + (Fragment.join string.tag.base fragments).length) next) :
    string.merge input pos opened =
      (bookMerged string.isBits fragments opened >>= fun filled => .ok (next, filled)) := by
  have hunused : Fragmented.unusedAfter string.isBits 0 fragments =
    Fragment.unused string.isBits fragments := rfl
  rw [Fragmented.merge, Fragmented.readFragments_join opened hvalid htag hinput rfl hend
    (fun _ _ => rfl), ← Ledger.addContents_merged hopened hfresh, bind_assoc, bind_assoc]
  refine bind_congr_ok fun ledger _ => ?_
  rw [ok_bind, bind_assoc]
  rfl

theorem fragments_end {content : Bytes} {limit : Nat} (first : Tag)
    (hclosing : input.Holds (idx + (header identifier length).length + content.length)
      (closing length))
    (hlimit : idx + (whole identifier length content).length ≤ limit) :
    Fragmented.Ends ⟨first, length.map fun _ =>
        idx + (header identifier length).length + content.length, limit⟩ input
      (idx + (header identifier length).length + content.length)
      (idx + (whole identifier length content).length) := by
  have hwhole := length_whole identifier length content
  cases length with
  | some octets =>
    have hnothing : (closing (some octets)).length = 0 := rfl
    exact .inl ⟨rfl, by omega⟩
  | none =>
    have hzeros : (closing none).length = 2 := rfl
    exact .inr ⟨rfl, hclosing, by dsimp only; omega, by omega⟩

theorem surveyItem_string {fragments : List Fragment}
    (hconstructed : identifier.first.isConstructed = true)
    (hfragmentable : identifier.first.isFragmentable = true)
    (hlength : ∀ octets, length = some octets →
      IsLength octets (Fragment.join identifier.first.base fragments).length)
    (hvalid : Fragment.Valid (isBits identifier) fragments)
    (hinput : input.Holds idx
      (whole identifier length (Fragment.join identifier.first.base fragments)))
    (hbound : idx + (whole identifier length
      (Fragment.join identifier.first.base fragments)).length ≤ ledger.bound input.length) :
    surveyItem input idx (ledger.bound input.length) ledger =
      (bookConstructed identifier length (Fragment.join identifier.first.base fragments).length
        input.length idx (bookMerged (isBits identifier) fragments) ledger >>= fun ledger =>
          .ok (idx + (whole identifier length
            (Fragment.join identifier.first.base fragments)).length, ledger)) := by
  have hwhole := length_whole identifier length (Fragment.join identifier.first.base fragments)
  obtain ⟨hheader, hcontent⟩ := Bytes.holds_append_iff.mp hinput
  obtain ⟨hfragments, hclosing⟩ := Bytes.holds_append_iff.mp hcontent
  rw [surveyItem_header hlength hheader (by omega), hconstructed, if_pos rfl, hfragmentable,
    bookConstructed, bind_assoc]
  refine bind_congr_ok fun opened hopen => ?_
  obtain ⟨_, hopened⟩ := (Ledger.openAt_eq_ok_iff _ _).mp hopen
  generalize hitem : Ledger.itemOf identifier length idx (idx + (header identifier length).length +
    (Fragment.join identifier.first.base fragments).length) (ledger.bound input.length) = item
      at hopened
  have hfresh : item.contentLength = 0 := hitem ▸ Ledger.contentLength_itemOf _ _
  subst hopened
  have hends := fragments_end identifier.first hclosing hbound
  rw [if_pos rfl]
  dsimp only
  generalize hstring : (⟨identifier.first, length.map fun _ =>
      idx + (header identifier length).length +
        (Fragment.join identifier.first.base fragments).length, ledger.bound input.length⟩ :
    Fragmented) = string at hends ⊢
  have htag : string.tag = identifier.first := by rw [← hstring]
  have hbits : string.isBits = isBits identifier := by rw [Fragmented.isBits, htag, isBits]
  rw [← hbits] at hvalid
  rw [← htag] at hfragments hends
  have hmerge := merge_eq string (ledger.opened_enclosed item) hfresh hvalid
    (htag ▸ base_ne_of_isFragmentable hfragmentable) hfragments hends
  rw [htag] at hmerge
  rw [hmerge, hbits, bind_assoc, bind_assoc]
  refine bind_congr_ok fun filled _ => ?_
  rw [ok_bind]
  rfl

theorem frames_of_bookConstructed {size inputLength : Nat} {inside : Ledger → Outcome Ledger}
    {ledger' : Ledger}
    (hinside : ∀ {a b : Ledger}, inside a = .ok b → b.frames = a.frames)
    (h : bookConstructed identifier length size inputLength idx inside ledger = .ok ledger') :
    ledger'.frames = ledger.frames := by
  obtain ⟨opened, hopen, h⟩ := bind_eq_ok_iff.mp h
  obtain ⟨filled, hfilled, hclose⟩ := bind_eq_ok_iff.mp h
  obtain ⟨frame, hframes⟩ := Ledger.frames_of_close hclose
  rw [hinside hfilled, Ledger.frames_of_openAt hopen] at hframes
  exact (List.cons.inj hframes).2.symm

theorem frames_of_bookMerged {bits : Bool} {fragments : List Fragment} {ledger' : Ledger}
    (h : bookMerged bits fragments ledger = .ok ledger') : ledger'.frames = ledger.frames := by
  obtain ⟨added, hadd, h⟩ := bind_eq_ok_iff.mp h
  cases h
  rw [Ledger.frames_markMerged, Ledger.frames_of_add hadd]

theorem frames_of_book {tree : Ber} {inputLength : Nat} {ledger' : Ledger}
    (h : tree.book inputLength idx ledger = .ok ledger') : ledger'.frames = ledger.frames := by
  induction tree generalizing idx ledger ledger' with
  | nil =>
    cases h
    rfl
  | primitive identifier length content next ih =>
    obtain ⟨added, hadd, h⟩ := bind_eq_ok_iff.mp h
    rw [ih h, Ledger.frames_of_add hadd]
  | nested identifier length inner next ihInner ihNext =>
    obtain ⟨closed, hclosed, h⟩ := bind_eq_ok_iff.mp h
    rw [ihNext h, frames_of_bookConstructed ihInner hclosed]
  | string identifier length fragments next ih =>
    obtain ⟨closed, hclosed, h⟩ := bind_eq_ok_iff.mp h
    rw [ih h, frames_of_bookConstructed frames_of_bookMerged hclosed]

theorem surveyFrom_identifier {rest : Bytes} (hinput : input.Holds idx (identifier.octets ++ rest))
    (hbound : idx < ledger.bound input.length) :
    surveyFrom input idx ledger =
      (surveyItem input idx (ledger.bound input.length) ledger >>= fun (next, ledger) =>
        surveyFrom input next ledger) :=
  surveyFrom_item (Ledger.endsAt_of_lt_bound hbound) hbound
    (atEndOfContent_other (show input.Holds idx (identifier.first :: (identifier.number ++ rest)) from
      hinput) identifier.first_ne)

theorem surveyFrom_closing {stop bound : Nat} {around : List Frame}
    (hframes : ledger.frames = ⟨length.isNone, if length.isNone then bound else stop⟩ :: around)
    (hinput : input.Holds stop (closing length))
    (hbound : stop + (closing length).length ≤ bound) :
    surveyFrom input stop ledger =
      ledger.close.outcome >>= surveyFrom input (stop + (closing length).length) := by
  cases length with
  | some octets =>
    refine surveyFrom_endsAt ?_
    rw [Ledger.endsAt_frames, hframes]
    simp
  | none =>
    have hclosing : (closing none).length = 2 := rfl
    have hledger : ledger.bound input.length = bound := by
      rw [Ledger.bound_frames, hframes]
      rfl
    have hstop : stop < ledger.bound input.length := by omega
    refine surveyFrom_endOfContent (Ledger.endsAt_of_lt_bound hstop) hstop
      (atEndOfContent_zeros hinput (by omega)) ?_
    · rw [Ledger.insideIndefinite_frames, hframes]
      rfl

theorem surveyFrom_nested {content : Bytes} {inside : Ledger → Outcome Ledger}
    (hconstructed : identifier.first.isConstructed = true)
    (hfragmentable : identifier.first.isFragmentable = false)
    (hlength : ∀ octets, length = some octets → IsLength octets content.length)
    (hinput : input.Holds idx (whole identifier length content))
    (hbound : idx + (whole identifier length content).length ≤ ledger.bound input.length)
    (hinside : ∀ {opened : Ledger}, idx + (header identifier length).length + content.length ≤
        opened.bound input.length →
      surveyFrom input (idx + (header identifier length).length) opened =
        inside opened >>= surveyFrom input (idx + (header identifier length).length + content.length))
    (hframes : ∀ {a b : Ledger}, inside a = .ok b → b.frames = a.frames) :
    surveyFrom input idx ledger =
      bookConstructed identifier length content.length input.length idx inside ledger >>=
        surveyFrom input (idx + (whole identifier length content).length) := by
  have hwhole := length_whole identifier length content
  have hpos := length_header_pos identifier length
  obtain ⟨hheader, hcontent⟩ := Bytes.holds_append_iff.mp hinput
  obtain ⟨_, hclosing⟩ := Bytes.holds_append_iff.mp hcontent
  rw [surveyFrom_identifier hheader (by omega),
    surveyItem_nested hconstructed hfragmentable hlength hheader (by omega), bookConstructed,
    bind_assoc, bind_assoc]
  refine bind_congr_ok fun opened hopen => ?_
  have hopened : opened.frames = ⟨length.isNone, if length.isNone then ledger.bound input.length
      else idx + (header identifier length).length + content.length⟩ :: ledger.frames := by
    rw [Ledger.frames_of_openAt hopen]
    cases length <;> rfl
  have hroom : idx + (header identifier length).length + content.length ≤
      opened.bound input.length := by
    rw [Ledger.bound_frames, hopened, List.head?_cons, Option.elim_some]
    dsimp only
    split <;> omega
  rw [ok_bind, bind_assoc]
  dsimp only
  rw [hinside hroom]
  refine bind_congr_ok fun filled hfilled => ?_
  rw [surveyFrom_closing ((hframes hfilled).trans hopened) hclosing (by omega), hwhole,
    Nat.add_assoc, Nat.add_assoc, Nat.add_assoc]

theorem surveyFrom_tree {tree : Ber} (hvalid : tree.Valid) (hinput : input.Holds idx tree.octets)
    (hbound : idx + tree.octets.length ≤ ledger.bound input.length) :
    surveyFrom input idx ledger =
      tree.book input.length idx ledger >>= surveyFrom input (idx + tree.octets.length) := by
  induction tree generalizing idx ledger with
  | nil => rfl
  | primitive identifier length content next ih =>
    obtain ⟨hconstructed, hlength, hnext⟩ := hvalid
    rw [Ber.octets, List.length_append] at hbound ⊢
    obtain ⟨hitem, hrest⟩ := Bytes.holds_append_iff.mp hinput
    obtain ⟨hheader, _⟩ := Bytes.holds_append_iff.mp hitem
    have hwhole := length_whole identifier (some length) content
    have hpos := length_header_pos identifier (some length)
    rw [surveyFrom_identifier hheader (by omega),
      surveyItem_primitive hconstructed hlength hheader (by omega), bind_assoc, Ber.book, bind_assoc]
    refine bind_congr_ok fun added hadd => ?_
    have hsame : added.bound input.length = ledger.bound input.length := by
      rw [Ledger.bound_frames, Ledger.bound_frames, Ledger.frames_of_add hadd]
    rw [ok_bind]
    dsimp only
    rw [ih hnext hrest (by omega), Nat.add_assoc]
  | nested identifier length inner next ihInner ihNext =>
    obtain ⟨⟨hconstructed, hfragmentable⟩, hlength, hinner, hnext⟩ := hvalid
    rw [Ber.octets, List.length_append] at hbound ⊢
    obtain ⟨hitem, hrest⟩ := Bytes.holds_append_iff.mp hinput
    obtain ⟨_, hcontent⟩ := Bytes.holds_append_iff.mp hitem
    obtain ⟨hcontent, _⟩ := Bytes.holds_append_iff.mp hcontent
    rw [surveyFrom_nested hconstructed hfragmentable hlength hitem (by omega)
      (fun hopened => ihInner hinner hcontent hopened) frames_of_book, Ber.book, bind_assoc]
    refine bind_congr_ok fun closed hclosed => ?_
    have hsame : closed.bound input.length = ledger.bound input.length := by
      rw [Ledger.bound_frames, Ledger.bound_frames,
        frames_of_bookConstructed frames_of_book hclosed]
    rw [ihNext hnext hrest (by omega), Nat.add_assoc]
  | string identifier length fragments next ih =>
    obtain ⟨⟨hconstructed, hfragmentable⟩, hlength, hfragments, hnext⟩ := hvalid
    rw [Ber.octets, List.length_append] at hbound ⊢
    obtain ⟨hitem, hrest⟩ := Bytes.holds_append_iff.mp hinput
    obtain ⟨hheader, _⟩ := Bytes.holds_append_iff.mp hitem
    have hwhole := length_whole identifier length (Fragment.join identifier.first.base fragments)
    have hpos := length_header_pos identifier length
    rw [surveyFrom_identifier hheader (by omega),
      surveyItem_string hconstructed hfragmentable hlength hfragments hitem (by omega), bind_assoc,
      Ber.book, bind_assoc]
    refine bind_congr_ok fun closed hclosed => ?_
    have hsame : closed.bound input.length = ledger.bound input.length := by
      rw [Ledger.bound_frames, Ledger.bound_frames,
        frames_of_bookConstructed frames_of_bookMerged hclosed]
    rw [ok_bind]
    dsimp only
    rw [ih hnext hrest (by omega), Nat.add_assoc]

end DerTemplate.Canonical

import Mathlib.Data.List.Forall2
import DerTemplate.Proofs.Encoding.ChoiceCheck
import DerTemplate.Proofs.Encoding.Recheck

namespace DerTemplate

namespace Forest

open Encoding

theorem suppressed_sized (hidden : Bool) (after : Nat) (forest : Forest Slot) :
    (forest.sized hidden after).slots.map Slot.suppressed = forest.slots.map Slot.suppressed :=
  map_sized (fun _ _ _ _ => rfl) hidden after forest

end Forest

namespace Encoding

open Schema Stencil

variable {schema : Schema} {slots current : List Slot} {sizing : Sizing}

inductive Change where
  | value (i : Nat) (new : Value)
  | tag (i : Nat) (new : Option Tag)

def Change.apply (slots : List Slot) : Change → List Slot
  | .value i new => slots.modify i fun slot => { slot with value := new }
  | .tag i new => slots.modify i fun slot => { slot with tag := new }

def changed (slots : List Slot) (changes : List Change) : List Slot :=
  changes.foldl Change.apply slots

theorem Slot.Revised.refl (slot : Slot) : slot.Revised slot := ⟨rfl, rfl, rfl, rfl, rfl⟩

theorem Slot.Revised.trans {first second third : Slot} (h : first.Revised second)
    (hnext : second.Revised third) : first.Revised third where
  suppressed := hnext.suppressed.trans h.suppressed
  length := hnext.length.trans h.length
  contentLength := hnext.contentLength.trans h.contentLength
  offset := hnext.offset.trans h.offset
  sized := hnext.sized.trans h.sized

theorem revised_modify {f : Slot → Slot} (hf : ∀ slot, Slot.Revised slot (f slot))
    (slots : List Slot) (i : Nat) : List.Forall₂ Slot.Revised slots (slots.modify i f) := by
  induction slots generalizing i with
  | nil => cases i <;> exact .nil
  | cons slot slots ih =>
    cases i with
    | zero => exact .cons (hf slot) (List.forall₂_same.mpr fun slot _ => .refl slot)
    | succ i => exact .cons (.refl slot) (ih i)

theorem revised_apply (slots : List Slot) (change : Change) :
    List.Forall₂ Slot.Revised slots (change.apply slots) := by
  cases change with
  | value i new =>
    have hnew (slot : Slot) : slot.Revised { slot with value := new } := ⟨rfl, rfl, rfl, rfl, rfl⟩
    exact revised_modify hnew slots i
  | tag i new =>
    have hnew (slot : Slot) : slot.Revised { slot with tag := new } := ⟨rfl, rfl, rfl, rfl, rfl⟩
    exact revised_modify hnew slots i

theorem forall₂_trans {first second third : List Slot} (h : List.Forall₂ Slot.Revised first second)
    (hnext : List.Forall₂ Slot.Revised second third) : List.Forall₂ Slot.Revised first third := by
  induction h generalizing third with
  | nil => exact hnext
  | cons hslot _ ih =>
    cases hnext with
    | cons hlater hrest => exact .cons (hslot.trans hlater) (ih hrest)

theorem revised_changed (slots : List Slot) (changes : List Change) :
    List.Forall₂ Slot.Revised slots (changed slots changes) := by
  induction changes generalizing slots with
  | nil => exact List.forall₂_same.mpr fun slot _ => .refl slot
  | cons change changes ih => exact forall₂_trans (revised_apply slots change) (ih _)

theorem map_eq_of_revised {α : Type} {f : Slot → α}
    (hf : ∀ before now, Slot.Revised before now → f now = f before)
    (h : List.Forall₂ Slot.Revised slots current) : current.map f = slots.map f := by
  induction h with
  | nil => rfl
  | cons hslot _ ih => rw [List.map_cons, List.map_cons, hf _ _ hslot, ih]

theorem excluded_congr (h : current.map Slot.suppressed = slots.map Slot.suppressed) (i : Nat) :
    excluded schema current i = excluded schema slots i := by
  have hsame (j : Nat) : current[j]?.any Slot.suppressed = slots[j]?.any Slot.suppressed := by
    have hget := congrArg (fun list => list[j]?.any id) h
    simpa [List.getElem?_map, Option.any_map] using hget
  simp only [excluded, hsame]

theorem checkChoices_congr (h : current.map Slot.suppressed = slots.map Slot.suppressed)
    (hok : checkChoices schema slots = .ok ()) : checkChoices schema current = .ok () := by
  rw [checkChoices_eq_ok_iff] at hok ⊢
  simpa only [ChoiceWritten, excluded_congr h] using hok

theorem snd_zip_revised (schema : Schema) (hrevised : List.Forall₂ Slot.Revised slots current) :
    (Forest.plant schema (slots.zip current)).map Prod.snd = Forest.plant schema current := by
  rw [← Forest.plant_map, List.map_snd_zip hrevised.length_eq.ge]

section Revised

variable (h : size schema slots = .ok sizing)
variable (hrevised : List.Forall₂ Slot.Revised sizing.slots current)
include h hrevised

theorem length_revised : current.length = schema.length :=
  hrevised.length_eq ▸ length_sizing h

theorem suppressed_revised : current.map Slot.suppressed = slots.map Slot.suppressed := by
  obtain ⟨_, hlength, hsizing, _⟩ := size_eq_ok h
  rw [map_eq_of_revised (fun _ _ hslot => hslot.suppressed) hrevised, hsizing,
    Forest.suppressed_sized, Forest.slots_plant hlength]

theorem all_sized_revised : current.all Slot.sized = true := by
  obtain ⟨_, _, hsizing, _⟩ := size_eq_ok h
  have hflags := map_eq_of_revised (fun _ _ hslot => hslot.sized) hrevised
  have hsized := Forest.all_sized false 0 (Forest.plant schema slots)
  rw [hsizing] at hflags
  rw [← Function.id_comp Slot.sized, ← List.all_map] at hsized ⊢
  rwa [hflags]

theorem sizedTotal_revised : sizedTotal current = sizing.total := by
  have hoffsets := map_eq_of_revised (fun _ _ hslot => hslot.offset) hrevised
  rw [sizedTotal, hoffsets, ← sizedTotal, sizedTotal_sizing h]

theorem fst_zip_revised :
    (Forest.plant schema (sizing.slots.zip current)).map Prod.fst =
      (Forest.plant schema slots).sized false 0 := by
  rw [← Forest.plant_map, List.map_fst_zip hrevised.length_eq.le, plant_sized h]

theorem kept_zip_revised (hkind : ∀ i entry before now, schema[i]? = some entry →
      sizing.slots[i]? = some before → current[i]? = some now → excluded schema slots i = false →
        before.KeepsKind entry now) :
    (Forest.plant schema (sizing.slots.zip current)).Kept := by
  have hzip : (sizing.slots.zip current).length = schema.length := by
    rw [List.length_zip, length_sizing h, length_revised h hrevised, Nat.min_self]
  refine Forest.kept_of_excludes ?_
  intro i entry before now hentry hpair
  rw [Forest.schema_plant hzip] at hentry
  rw [Forest.slots_plant hzip] at hpair
  obtain ⟨hbefore, hnow⟩ := List.getElem?_zip_eq_some.mp hpair
  refine ⟨(List.forall₂_iff_zip.mp hrevised).2 (List.mem_of_getElem? hpair), ?_⟩
  intro hshown
  have hi := (List.getElem?_eq_some_iff.mp hentry).1
  rw [snd_zip_revised schema hrevised, ← excluded_plant (size_eq_ok h).1 (length_revised h hrevised) hi,
    excluded_congr (suppressed_revised h hrevised)] at hshown
  exact hkind i entry before now hentry hbefore hnow hshown

end Revised

theorem write_changed (h : size schema slots = .ok sizing) (changes : List Change)
    (hkind : ∀ i entry before now, schema[i]? = some entry → sizing.slots[i]? = some before →
      (changed sizing.slots changes)[i]? = some now → excluded schema slots i = false →
        before.KeepsKind entry now)
    (buffer : Bytes) :
    (∃ error left, write schema (changed sizing.slots changes) buffer =
      .error ⟨.refused error, left⟩) ∨
    ∃ written again, write schema (changed sizing.slots changes) buffer = .ok written ∧
      size schema (changed sizing.slots changes) = .ok again ∧ again.total = sizing.total ∧
      written.output = ⟨(Forest.plant schema (changed sizing.slots changes)).stencil.onto buffer,
        again.total⟩ ∧
      (again.total < lengthLimit → ∃ fresh,
        encode schema (changed sizing.slots changes) = .ok fresh ∧
        fresh.output = ⟨(Forest.plant schema (changed sizing.slots changes)).stencil.fill [],
          again.total⟩) := by
  have hrevised := revised_changed sizing.slots changes
  generalize changed sizing.slots changes = current at hkind hrevised ⊢
  obtain ⟨hvalid, _, hsizing, hwritable, hlimit⟩ := size_eq_ok h
  have hcurrent := length_revised h hrevised
  have hall := all_sized_revised h hrevised
  have htotal := sizedTotal_revised h hrevised
  have hkept := kept_zip_revised h hrevised hkind
  have hfst := fst_zip_revised h hrevised
  have hsnd := snd_zip_revised schema hrevised
  by_cases hbuffer : sizing.total ≤ buffer.length
  · have hready : ((Forest.plant schema (sizing.slots.zip current)).map Prod.fst).Ready 0 :=
      hfst ▸ Forest.ready_sized hwritable 0
    have hlength : ((Forest.plant schema
        (sizing.slots.zip current)).map Prod.fst).stencil.length = sizing.total := by
      rw [hfst, Forest.stencil_sized, hsizing]
    have hrest : sizing.total ≤ ([] : Bytes).length + buffer.length := by simpa using hbuffer
    rcases rechecked _ _ _ _ _ _ _ 0 (hsnd ▸ Place.holds_root hvalid hcurrent) hready hkept
      (by simpa using hlength) hrest with ⟨error, left, hrefused⟩ | ⟨hreadyNow, hsame⟩
    · refine .inl ⟨error, left, ?_⟩
      rwa [write, if_pos ⟨hcurrent, hall⟩, htotal, if_pos hbuffer]
    · have hshown := Forest.shown_of_kept hkept
      rw [hsnd] at hreadyNow hsame hshown
      rw [hlength] at hsame
      have hwrite := write_of_ready hvalid hcurrent hall hreadyNow (htotal.trans hsame.symm)
        (htotal.symm ▸ hbuffer)
      have hchoices := checkChoices_congr (suppressed_revised h hrevised) (checkChoices_of_size h)
      have hagain := size_of_writable hvalid hcurrent hchoices
        (Forest.writable_of_ready hreadyNow) hshown (hsame ▸ hlimit)
      refine .inr ⟨_, _, hwrite, hagain, hsame, ?_, ?_⟩
      · rw [htotal, hsame]
      · intro hfits
        have hencode := encode_of_size hagain
        rw [if_pos hfits] at hencode
        exact ⟨_, hencode, rfl⟩
  · refine .inl ⟨.bufferTooSmall sizing.total buffer.length, current, ?_⟩
    rw [write, if_pos ⟨hcurrent, hall⟩, htotal, if_neg hbuffer]
    rfl

def pair : Schema := [.leaf 0 0x04, .leaf 0 0x05]

def pairSlots : List Slot := [.ofValue (.replace [0x04, 0x01, 0xAA]), .ofValue (.bytes [0xBB])]

def pairSized : List Slot :=
  [⟨.replace [0x04, 0x01, 0xAA], false, none, 3, 3, 6, true, none⟩,
    ⟨.bytes [0xBB], false, none, 3, 1, 3, true, none⟩]

theorem size_pair : size pair pairSlots = .ok ⟨pairSized, 6⟩ := rfl

theorem write_pair {first second : Slot} {buffer : Bytes} {next last : Written}
    (hready : first.suppressed = false ∧ second.suppressed = false ∧
      first.sized = true ∧ second.sized = true)
    (hbuffer : sizedTotal [first, second] ≤ buffer.length)
    (hfirst : writeEntry ⟨[first, second], ⟨buffer, sizedTotal [first, second]⟩⟩ 0 (.leaf 0 0x04)
      first = .ok next)
    (hslot : next.slots[1]? = some second)
    (hsecond : writeEntry next 1 (.leaf 0 0x05) second = .ok last) :
    write pair [first, second] buffer = .ok last := by
  obtain ⟨hfirstShown, hsecondShown, hfirstSized, hsecondSized⟩ := hready
  have hall : [first, second].all Slot.sized = true := by simp [hfirstSized, hsecondSized]
  rw [write, if_pos ⟨rfl, hall⟩, if_pos hbuffer, writeFrom_eq rfl rfl, hfirstShown, hfirst]
  simp only [Bool.false_eq_true, if_false, Outcome.leaving_ok, ok_bind]
  rw [writeFrom_eq rfl hslot, hsecondShown, hsecond]
  exact writeFrom_length (Nat.le_refl 2)

def pairRevised : List Change := [.value 0 (.replace [0x04, 0x01, 0xDD]), .tag 1 (some 0x85)]

theorem write_pairRevised :
    ∃ fresh, encode pair (changed pairSized pairRevised) = .ok fresh ∧
      fresh.output = ⟨[0x04, 0x01, 0xDD, 0x85, 0x01, 0xBB], 6⟩ := by
  have hwritten : ∃ written, write pair (changed pairSized pairRevised) (List.replicate 6 0) =
      .ok written := ⟨_, write_pair ⟨rfl, rfl, rfl, rfl⟩ (by decide) rfl rfl rfl⟩
  have hkind : ∀ i entry before now, pair[i]? = some entry → pairSized[i]? = some before →
      (changed pairSized pairRevised)[i]? = some now → excluded pair pairSlots i = false →
        before.KeepsKind entry now := by
    intro i entry before now hentry hbefore hnow _
    match i with
    | 0 =>
      cases hentry
      cases hbefore
      cases hnow
      exact ⟨fun _ _ => ⟨_, rfl⟩, nofun, rfl, nofun, by decide⟩
    | 1 =>
      cases hentry
      cases hbefore
      cases hnow
      exact ⟨nofun, nofun, rfl, nofun, by decide⟩
    | i + 2 => cases hentry
  rcases write_changed size_pair pairRevised hkind (List.replicate 6 0) with
    ⟨error, left, hrefused⟩ | ⟨written, again, hwrite, hagain, htotal, houtput, hfresh⟩
  · obtain ⟨written, hwrite⟩ := hwritten
    rw [hrefused] at hwrite
    cases hwrite
  · obtain ⟨fresh, hencode, hbytes⟩ := hfresh (htotal ▸ by decide)
    refine ⟨fresh, hencode, ?_⟩
    rw [hbytes, htotal]
    rfl

theorem stale_size_written :
    ¬∀ (schema : Schema) (slots : List Slot) (sizing : Sizing) (changes : List Change)
      (buffer : Bytes) (written : Written), size schema slots = .ok sizing →
        write schema (changed sizing.slots changes) buffer = .ok written →
          ∃ again, size schema (changed sizing.slots changes) = .ok again ∧
            again.total = written.output.limit := by
  intro h
  have hwrite : write pair (changed pairSized [.value 0 (.bytes [0xC1, 0xC2, 0xC3])])
      (List.replicate 8 0xEE) = .ok ⟨changed pairSized [.value 0 (.bytes [0xC1, 0xC2, 0xC3])],
        ⟨[0x04, 0x03, 0xC1, 0x05, 0x01, 0xBB, 0xEE, 0xEE], 6⟩⟩ :=
    write_pair ⟨rfl, rfl, rfl, rfl⟩ (by decide) rfl rfl rfl
  obtain ⟨again, hagain, htotal⟩ := h pair pairSlots ⟨pairSized, 6⟩
    [.value 0 (.bytes [0xC1, 0xC2, 0xC3])] (List.replicate 8 0xEE) _ size_pair hwrite
  cases hagain
  revert htotal
  decide

inductive Call where
  | size
  | change (made : Change)

def Call.run (schema : Schema) (slots : List Slot) : Call → List Slot
  | .size =>
    match Encoding.size schema slots with
    | .ok sizing => sizing.slots
    | .error stop => stop.left
  | .change made => made.apply slots

def session (schema : Schema) (slots : List Slot) (calls : List Call) : List Slot :=
  calls.foldl (Call.run schema) slots

theorem session_concat (schema : Schema) (slots : List Slot) (calls : List Call) (call : Call) :
    session schema slots (calls ++ [call]) = call.run schema (session schema slots calls) :=
  List.foldl_concat ..

def FirstUnsized (slots : List Slot) : Prop :=
  ∃ slot rest, slots = slot :: rest ∧ slot.sized = false

theorem sizeEntry_slots {next : Sizing} {i : Nat} (h : sizeEntry schema sizing i = .ok next) :
    ∃ slot, next.slots = sizing.slots.set i slot := by
  unfold sizeEntry at h
  split at h
  · split at h
    · cases h
      exact ⟨_, rfl⟩
    · obtain ⟨m, _, h⟩ := bind_eq_ok_iff.mp h
      dsimp only at h
      split at h
      · cases h
        exact ⟨_, rfl⟩
      · cases h
  · cases h

-- The first entry is sized last, when nothing can fail any more.
theorem firstUnsized_of_sizeBelow {n : Nat} {stop : Interrupted (List Slot)}
    (hfirst : FirstUnsized sizing.slots) (h : sizeBelow schema n sizing = .error stop) :
    FirstUnsized stop.left := by
  induction n generalizing sizing with
  | zero => cases h
  | succ n ih =>
    rw [sizeBelow] at h
    cases hentry : sizeEntry schema sizing n with
    | error failure =>
      rw [hentry] at h
      cases h
      exact hfirst
    | ok next =>
      rw [hentry, Outcome.leaving_ok, ok_bind] at h
      cases n with
      | zero => cases h
      | succ n =>
        obtain ⟨slot, hslots⟩ := sizeEntry_slots hentry
        obtain ⟨first, rest, hsplit, hunsized⟩ := hfirst
        refine ih ⟨first, rest.set n slot, ?_, hunsized⟩ h
        rw [hslots, hsplit, List.set_cons_succ]

theorem firstUnsized_of_size {stop : Interrupted (List Slot)} (hfirst : FirstUnsized slots)
    (h : size schema slots = .error stop) : FirstUnsized stop.left := by
  rw [size] at h
  cases hcheck : checkSlots schema slots with
  | error failure =>
    rw [hcheck] at h
    cases h
    exact hfirst
  | ok _ =>
    rw [hcheck, Outcome.leaving_ok, ok_bind] at h
    exact firstUnsized_of_sizeBelow hfirst h

theorem firstUnsized_apply (hfirst : FirstUnsized slots) (change : Change) :
    FirstUnsized (change.apply slots) := by
  obtain ⟨slot, rest, rfl, hunsized⟩ := hfirst
  obtain ⟨now, later, hslot, _, hchanged⟩ :=
    List.forall₂_cons_left_iff.mp (revised_apply (slot :: rest) change)
  exact ⟨now, later, hchanged, hslot.sized.trans hunsized⟩

theorem write_session_unsized (hfirst : FirstUnsized slots) {calls : List Call}
    (hfail : ∀ earlier later sizing, calls = earlier ++ .size :: later →
      size schema (session schema slots earlier) ≠ .ok sizing) (buffer : Bytes) :
    write schema (session schema slots calls) buffer =
      Outcome.leaving (refuse (.internalError .notSized)) (session schema slots calls) := by
  suffices FirstUnsized (session schema slots calls) by
    obtain ⟨slot, rest, hsplit, hunsized⟩ := this
    rw [write, if_neg]
    rintro ⟨_, hall⟩
    rw [hsplit, List.all_cons, hunsized] at hall
    cases hall
  induction calls using List.reverseRecOn with
  | nil => exact hfirst
  | append_singleton calls call ih =>
    have hbefore : FirstUnsized (session schema slots calls) := by
      refine ih ?_
      rintro earlier later sizing rfl
      exact hfail earlier (later ++ [call]) sizing (by simp)
    rw [session_concat]
    cases call with
    | change made => exact firstUnsized_apply hbefore made
    | size =>
      simp only [Call.run]
      split
      · rename_i sizing hsize
        exact absurd hsize (hfail calls [] sizing rfl)
      · rename_i stop hsize
        exact firstUnsized_of_size hbefore hsize

end Encoding

end DerTemplate

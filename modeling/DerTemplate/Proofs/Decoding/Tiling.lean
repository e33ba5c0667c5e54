import DerTemplate.Proofs.Decoding.Presence

namespace DerTemplate.Decoding

open Schema

inductive Tiles : List Slot → Nat → Nat → Prop where
  | nil {start : Nat} : Tiles [] start start
  | cons {slot : Slot} {rest : List Slot} {start stop : Nat} (hstart : slot.offset = start)
    (hlt : slot.offset < slot.stop) (hrest : Tiles rest slot.stop stop) :
    Tiles (slot :: rest) start stop

/-- `Region schema slots cursor window parent start stop`: the entries right below `parent`, or those
at the top, are decoded from `start` to `stop`. -/
inductive Region (schema : Schema) (slots : List Slot) (cursor window : Nat) :
    Option Nat → Nat → Nat → Prop where
  | window : Region schema slots cursor window none cursor window
  | content {i : Nat} {entry : Entry} {slot : Slot} (hentry : schema[i]? = some entry)
    (hheader : entry.headerOnly = true) (hslot : slots[i]? = some slot)
    (hpresent : slot.present = true) :
    Region schema slots cursor window (some i) slot.contentOffset slot.stop

def presentSlots (slots : List Slot) (indices : List Nat) : List Slot :=
  (indices.filterMap fun i => slots[i]?).filter Slot.present

-- The end of the last present one of the entries, or `start` if none is present.
def stopAfter (slots : List Slot) (start : Nat) (indices : List Nat) : Nat :=
  (presentSlots slots indices).getLast?.elim start Slot.stop

variable {input : Bytes} {schema : Schema} {slots : List Slot} {place : Place Slot}
variable {forest : Forest Slot} {stop pos reached cursor window first last : Nat} {met : Option Nat}
variable {parent : Option Nat} {i : Nat} {slot : Slot}

theorem presentSlots_cons {indices : List Nat} (hslot : slots[i]? = some slot) :
    presentSlots slots (i :: indices) =
      if slot.present then slot :: presentSlots slots indices else presentSlots slots indices := by
  rw [presentSlots, List.filterMap_cons_some hslot, List.filter_cons]
  rfl

theorem stopAfter_concat {indices : List Nat} (start : Nat) (hslot : slots[i]? = some slot) :
    stopAfter slots start (indices ++ [i]) =
      if slot.present then slot.stop else stopAfter slots start indices := by
  rw [stopAfter, presentSlots, List.filterMap_append, List.filter_append,
    List.filterMap_cons_some hslot, List.filter_cons]
  cases slot.present <;> simp [stopAfter, presentSlots]

theorem lt_stop_of_delimits {octets : Bytes} (h : Delimits input slot octets) :
    slot.offset < slot.stop := by
  have := h.contentOffset
  rw [Slot.stop]
  omega

theorem last_eq_stop {entry : Entry} {below : Forest Slot} {more : Bool} {inner last : Nat}
    (hleaf : entry.headerOnly = false → below = .nil ∧ last = slot.stop)
    (hheader : entry.headerOnly = true →
      last = inner ∧ ((true || more) = true → inner = slot.stop)) : last = slot.stop := by
  cases hentry : entry.headerOnly with
  | false => exact (hleaf hentry).2
  | true =>
    obtain ⟨rfl, hstop⟩ := hheader hentry
    exact hstop (Bool.true_or more)

theorem tiles_of_arranged (h : place.Holds schema slots forest)
    (harranged : Arranged input forest stop true met pos reached) :
    Tiles (presentSlots slots (forest.rootIndices place.index)) pos reached := by
  induction forest generalizing place met pos with
  | nil =>
    cases harranged
    exact .nil
  | node entry slot below next _ ihn =>
    rw [Forest.rootIndices, presentSlots_cons h.getElem_slots]
    cases harranged with
    | absent habsent _ _ _ hnext =>
      rw [if_neg (by rw [habsent.1]; exact Bool.false_ne_true)]
      exact ihn h.holds_skip hnext
    | present hpresent hoffset hdelimits _ _ hleaf hheader hnext =>
      obtain ⟨octets, hdelimits⟩ := hdelimits
      rw [if_pos hpresent]
      refine .cons hoffset (lt_stop_of_delimits hdelimits) ?_
      rw [← last_eq_stop hleaf hheader]
      exact ihn h.holds_skip hnext

theorem arranged_region (h : Place.root.Holds schema slots forest)
    (harranged : Arranged input forest window true none cursor window)
    (hregion : Region schema slots cursor window parent first last) :
    ∃ (inner : Place Slot) (below : Forest Slot) (stop : Nat), inner.Holds schema slots below ∧
      Arranged input below stop true none first last ∧
      schema.siblings parent = below.rootIndices inner.index := by
  cases hregion with
  | window => exact ⟨Place.root, forest, window, h, harranged, h.siblings_root⟩
  | @content i entry slot hentry hheader hslot hpresent =>
    obtain ⟨inner, e, below, next, closed, reached, rfl, hinner, _, hbelow, hends⟩ :=
      inside_present h harranged hslot hpresent
    obtain rfl := Option.some.inj (hentry.symm.trans hinner.getElem_schema)
    obtain ⟨hclosed, hstop⟩ := hends rfl
    rw [hclosed, hstop hheader] at hbelow
    exact ⟨_, below, slot.stop, hinner.holds_enter, hbelow, hinner.siblings_below⟩

theorem absent_of_arranged (h : place.Holds schema slots forest)
    (harranged : Arranged input forest stop true met pos reached) {front : List Nat}
    (hregion : Region schema slots cursor window parent first last)
    (hsiblings : schema.siblings parent = front ++ forest.rootIndices place.index)
    (hpos : stopAfter slots first front = pos) (hfirst : place.index ≤ i)
    (hlast : i < place.index + forest.size) (hslot : slots[i]? = some slot)
    (habsent : slot.present = false) :
    ∃ parent first last before a after,
      Region schema slots cursor window parent first last ∧
        schema.siblings parent = before ++ a :: after ∧ isPresent slots a = false ∧
        (a = i ∨ schema.Nests a i) ∧ slot.AbsentAt (stopAfter slots first before) := by
  induction forest generalizing place parent first last stop met pos reached front with
  | nil => exact absurd hlast (by simp [Forest.size]; omega)
  | node entry root below next ihb ihn =>
    rw [Forest.size] at hlast
    have hroot := h.getElem_slots
    have hstop : stopAfter slots first (front ++ [place.index]) = _ := stopAfter_concat first hroot
    have hnext (hpast : ¬i < place.index + 1 + below.size) :
        (place.next entry below (root :: below.slots)).index ≤ i ∧
          i < (place.next entry below (root :: below.slots)).index + next.size := by
      simp only [Place.next]
      omega
    have hrest : schema.siblings parent = (front ++ [place.index]) ++
        next.rootIndices (place.next entry below (root :: below.slots)).index := by
      rw [hsiblings, Forest.rootIndices, List.append_assoc]
      rfl
    cases harranged with
    | absent hrootAbsent hbelow _ _ hlater =>
      -- this root is the outermost absent entry around `i`, unless `i` is further behind
      have hfree : isPresent slots place.index = false := by
        rw [isPresent_eq hroot, hrootAbsent.1]
      rcases Nat.eq_or_lt_of_le hfirst with rfl | hpast
      · obtain rfl := Option.some.inj (hslot.symm.trans hroot)
        exact ⟨parent, first, last, front, place.index, _, hregion, hsiblings, hfree, .inl rfl,
          hpos ▸ hrootAbsent⟩
      · by_cases hinside : i < place.index + 1 + below.size
        · obtain ⟨found, hfound, hfoundAbsent⟩ := absent_of_all h.holds_enter hbelow hpast hinside
          obtain rfl := Option.some.inj (hslot.symm.trans hfound)
          refine ⟨parent, first, last, front, place.index, _, hregion, hsiblings, hfree, .inr ?_,
            hpos ▸ hfoundAbsent⟩
          exact ⟨hpast, by rw [h.subtreeEnd]; exact hinside⟩
        · obtain ⟨hafter, hbefore⟩ := hnext hinside
          rw [hrootAbsent.1, if_neg Bool.false_ne_true] at hstop
          exact ihn h.holds_skip hlater hregion hrest (hstop.trans hpos) hafter hbefore
    | present hpresent _ _ _ hbelow hleaf hheader hlater =>
      -- below a present root the search goes on in the region of its content
      rcases Nat.eq_or_lt_of_le hfirst with rfl | hpast
      · obtain rfl := Option.some.inj (hslot.symm.trans hroot)
        rw [hpresent] at habsent
        cases habsent
      · by_cases hinside : i < place.index + 1 + below.size
        · have hopen : entry.headerOnly = true := by
            cases hentry : entry.headerOnly with
            | true => rfl
            | false =>
              rw [(hleaf hentry).1, Forest.size] at hinside
              omega
          exact ihb h.holds_enter hbelow (.content h.getElem_schema hopen hroot hpresent)
            (show _ = [] ++ _ from h.siblings_below) rfl hpast hinside
        · obtain ⟨hafter, hbefore⟩ := hnext hinside
          rw [hpresent, if_pos rfl, ← last_eq_stop hleaf hheader] at hstop
          exact ihn h.holds_skip hlater hregion hrest hstop hafter hbefore

theorem tiling_of_decode {session found : Session} {options : Options} {maxIndex : Nat}
    (hinput : input.length < wordLimit)
    (h : session.decode options schema input true maxIndex = .ok found) :
    let Inside := Region schema found.slots session.cursor (min maxIndex input.length)
    (∀ parent start stop, Inside parent start stop →
      Tiles (presentSlots found.slots (schema.siblings parent)) start stop) ∧
    (∀ slot ∈ found.slots, slot.present = true → ∃ octets, Delimits input slot octets) ∧
    ∀ i slot, found.slots[i]? = some slot → slot.present = false →
      ∃ parent start stop before a after, Inside parent start stop ∧
        schema.siblings parent = before ++ a :: after ∧ isPresent found.slots a = false ∧
        (a = i ∨ schema.Nests a i) ∧ slot.AbsentAt (stopAfter found.slots start before) := by
  intro Inside
  obtain ⟨filled, hholds, harranged, hcursor⟩ := arranged_of_decode hinput h
  rw [hcursor rfl] at harranged
  refine ⟨?_, ?_, ?_⟩
  · intro parent start stop hregion
    obtain ⟨inner, below, _, hinner, hbelow, hsiblings⟩ :=
      arranged_region hholds harranged hregion
    rw [hsiblings]
    exact tiles_of_arranged hinner hbelow
  · intro slot hslot hpresent
    obtain ⟨i, hi⟩ := List.mem_iff_getElem?.mp hslot
    obtain ⟨_, _, _, _, _, _, _, _, hdelimits, _⟩ := inside_present hholds harranged hi hpresent
    exact hdelimits
  · intro i slot hslot habsent
    refine absent_of_arranged hholds harranged .window
      (show _ = [] ++ _ from hholds.siblings_root) rfl (Nat.zero_le i) ?_ hslot habsent
    have hi := (List.getElem?_eq_some_iff.mp hslot).1
    rw [hholds.slots] at hi
    simpa [Place.root] using hi

theorem tiling_of_decode_reused :
    reusedSession.decode .strict reusedSchema reusedInput true 20 = .ok ⟨16, reusedSlots⟩ ∧
      Tiles (presentSlots reusedSlots [0]) 1 16 ∧
      Tiles (presentSlots reusedSlots [1, 4, 5, 6, 7]) 3 16 ∧
      Tiles (presentSlots reusedSlots [2, 3]) 5 9 ∧
      (∃ octets, Delimits reusedInput ⟨.content, .bytes [0x80], true, 0x02, 5, 8, 1, 0, true⟩ octets) ∧
      ∃ parent before a after, reusedSchema.siblings parent = before ++ a :: after ∧
        (a = 6 ∨ reusedSchema.Nests a 6) := by
  obtain ⟨htiles, hdelimits, habsent⟩ := tiling_of_decode (by decide) decode_reused
  obtain ⟨parent, _, _, before, a, after, _, hsiblings, _, hnests, _⟩ := habsent 6 _ rfl rfl
  have houter := htiles (some 0) _ _ (.content rfl rfl rfl rfl)
  have hinner := htiles (some 1) _ _ (.content rfl rfl rfl rfl)
  exact ⟨decode_reused, htiles none 1 16 .window, houter, hinner, hdelimits _ (by decide) rfl,
    parent, before, a, after, hsiblings, hnests⟩

end DerTemplate.Decoding

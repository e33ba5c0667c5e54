import DerTemplate.Encoding.Sizing
import DerTemplate.Proofs.Outcome
import DerTemplate.Proofs.Schema.Siblings

namespace DerTemplate

def Entry.outline (entry : Entry) : Entry := ⟨entry.depth, 0, false, false, entry.presence⟩

theorem Entry.depth_outline (entry : Entry) : entry.outline.depth = entry.depth := rfl

theorem Entry.presence_outline (entry : Entry) : entry.outline.presence = entry.presence := rfl

namespace Schema

variable {f : Entry → Entry}

theorem climb_map (hf : ∀ entry, (f entry).depth = entry.depth) (depth : Nat)
    (above : List Entry) : climb depth (above.map f) = climb depth above := by
  induction above generalizing depth with
  | nil => rfl
  | cons entry above ih => simp only [List.map_cons, climb, hf, List.length_map, ih]

theorem ancestors_map (hf : ∀ entry, (f entry).depth = entry.depth) (schema : Schema) (i : Nat) :
    ancestors (schema.map f) i = ancestors schema i := by
  unfold ancestors
  rw [List.getElem?_map]
  cases schema[i]? with
  | none => rfl
  | some entry =>
    simp only [Option.map_some]
    rw [hf, ← List.map_take, ← List.map_reverse, climb_map hf]

theorem startsRun_map (hf : ∀ entry, (f entry).depth = entry.depth)
    (hpresence : ∀ entry, (f entry).presence = entry.presence) (schema : Schema) (i : Nat) :
    startsRun (schema.map f) i = startsRun schema i := by
  unfold startsRun
  rw [List.getElem?_map]
  cases schema[i]? with
  | none => rfl
  | some entry =>
    simp only [Option.map_some]
    rw [← List.map_take, ← List.map_reverse, List.find?_map]
    simp only [Function.comp_def, hf, hpresence]
    cases (schema.take i).reverse.find? fun e => e.depth ≤ entry.depth with
    | none => rfl
    | some e => simp only [Option.map_some, hf, hpresence]

end Schema

end DerTemplate

namespace DerTemplate.Encoding

open Schema

variable {schema : Schema} {slots : List Slot} {i : Nat} {written : Bool} {entry : Entry}

def ChoiceWritten (schema : Schema) (slots : List Slot) (i : Nat) : Prop :=
  (∃ group, schema.InGroup group i) ∧ excluded schema slots i = false

-- An entry of a choice group that does not go on with the run of the sibling before it.
def BeginsRun (schema : Schema) (i : Nat) : Prop :=
  (∃ group, schema.InGroup group i) ∧ schema.startsRun i = true

/-- From `i` on a run begins in front of every written member but the first, and in front of that
one too if the run that is open at `i` has a `written` member. -/
structure Separated (schema : Schema) (slots : List Slot) (i : Nat) (written : Bool) : Prop where
  first : written = true → ∀ m, i ≤ m → ChoiceWritten schema slots m →
    ∃ k, i ≤ k ∧ k ≤ m ∧ BeginsRun schema k
  later : ∀ j m, i ≤ j → j < m → ChoiceWritten schema slots j → ChoiceWritten schema slots m →
    ∃ k, j < k ∧ k ≤ m ∧ BeginsRun schema k

theorem inGroup_iff (hentry : schema[i]? = some entry) (group : Nat) :
    schema.InGroup group i ↔ entry.choiceGroup = some group := by
  rw [Entry.choiceGroup_eq_some]
  refine ⟨?_, fun hpresence => ⟨entry, hentry, hpresence⟩⟩
  rintro ⟨e, he, hpresence⟩
  rwa [Option.some.inj (hentry.symm.trans he)]

theorem separated_skipped {later : Bool} (hskip : ¬ChoiceWritten schema slots i)
    (hlater : later = true ↔ written = true ∧ ¬BeginsRun schema i) :
    Separated schema slots i written ↔ Separated schema slots (i + 1) later := by
  have hpast {m : Nat} (hm : i ≤ m) (hmember : ChoiceWritten schema slots m) : i + 1 ≤ m :=
    Nat.lt_of_le_of_ne hm fun h => hskip (h ▸ hmember)
  constructor
  · intro h
    refine ⟨?_, ?_⟩
    · intro hflag m hm hmember
      obtain ⟨hwritten, hgoes⟩ := hlater.mp hflag
      obtain ⟨k, hik, hkm, hbegins⟩ := h.first hwritten m (by omega) hmember
      exact ⟨k, Nat.lt_of_le_of_ne hik fun h => hgoes (h ▸ hbegins), hkm, hbegins⟩
    · intro j m hj hjm
      exact h.later j m (by omega) hjm
  · intro h
    refine ⟨?_, ?_⟩
    · intro hwritten m hm hmember
      by_cases hbegins : BeginsRun schema i
      · exact ⟨i, Nat.le_refl i, hm, hbegins⟩
      · obtain ⟨k, hik, hkm, hbegins⟩ :=
          h.first (hlater.mpr ⟨hwritten, hbegins⟩) m (hpast hm hmember) hmember
        exact ⟨k, by omega, hkm, hbegins⟩
    · intro j m hj hjm hfirst hsecond
      exact h.later j m (hpast hj hfirst) hjm hfirst hsecond

theorem separated_member (hmember : ChoiceWritten schema slots i) :
    Separated schema slots i written ↔
      (written = true → BeginsRun schema i) ∧ Separated schema slots (i + 1) true := by
  constructor
  · intro h
    refine ⟨?_, ?_, ?_⟩
    · intro hwritten
      obtain ⟨k, hik, hki, hbegins⟩ := h.first hwritten i (Nat.le_refl i) hmember
      rwa [Nat.le_antisymm hik hki]
    · intro _ m hm hsecond
      exact h.later i m (Nat.le_refl i) hm hmember hsecond
    · intro j m hj hjm
      exact h.later j m (by omega) hjm
  · rintro ⟨hfirst, h⟩
    refine ⟨?_, ?_⟩
    · intro hwritten m hm _
      exact ⟨i, Nat.le_refl i, hm, hfirst hwritten⟩
    · intro j m hj hjm hfirst hsecond
      rcases Nat.eq_or_lt_of_le hj with rfl | hlt
      · exact h.first rfl m hjm hsecond
      · exact h.later j m hlt hjm hfirst hsecond

theorem checkChoicesFrom_eq_ok_iff {rest : List Entry} (hrest : schema.drop i = rest) :
    checkChoicesFrom schema slots i written rest = .ok () ↔
      Separated schema slots i written := by
  induction rest generalizing i written with
  | nil =>
    have hend {m : Nat} (hm : i ≤ m) : ¬ChoiceWritten schema slots m := by
      rintro ⟨⟨_, e, he, _⟩, _⟩
      have := (List.getElem?_eq_some_iff.mp he).1
      have := List.drop_eq_nil_iff.mp hrest
      omega
    refine ⟨fun _ => ⟨?_, ?_⟩, fun _ => rfl⟩
    · intro _ m hm hwritten
      exact absurd hwritten (hend hm)
    · intro j m hj _ hwritten
      exact absurd hwritten (hend hj)
  | cons entry rest ih =>
    have hentry : schema[i]? = some entry := by
      rw [← List.head?_drop, hrest, List.head?_cons]
    have htail : schema.drop (i + 1) = rest := by
      rw [← List.tail_drop, hrest, List.tail_cons]
    cases hgroup : entry.choiceGroup with
    | none =>
      have hother : ¬∃ group, schema.InGroup group i := by
        rintro ⟨group, hin⟩
        rw [inGroup_iff hentry, hgroup] at hin
        cases hin
      have hskip : ¬ChoiceWritten schema slots i := fun h => hother h.1
      simp only [checkChoicesFrom, hgroup]
      rw [ih htail, separated_skipped hskip]
      exact ⟨fun hwritten => ⟨hwritten, fun h => hother h.1⟩, And.left⟩
    | some group =>
      have hin : ∃ group, schema.InGroup group i := ⟨group, (inGroup_iff hentry group).mpr hgroup⟩
      have hbegins : BeginsRun schema i ↔ schema.startsRun i = true :=
        ⟨And.right, fun h => ⟨hin, h⟩⟩
      simp only [checkChoicesFrom, hgroup]
      cases hexcluded : excluded schema slots i with
      | true =>
        have hskip : ¬ChoiceWritten schema slots i := by simp [ChoiceWritten, hexcluded]
        rw [if_pos rfl, ih htail, separated_skipped hskip]
        simp [hbegins]
      | false =>
        rw [if_neg Bool.false_ne_true, separated_member ⟨hin, hexcluded⟩, hbegins]
        cases written <;> cases schema.startsRun i <;> simp [refuse, ih htail]

theorem checkChoices_eq_ok_iff (schema : Schema) (slots : List Slot) :
    checkChoices schema slots = .ok () ↔
      ∀ j m, j < m → ChoiceWritten schema slots j → ChoiceWritten schema slots m →
        ∃ k, j < k ∧ k ≤ m ∧ BeginsRun schema k := by
  rw [checkChoices, checkChoicesFrom_eq_ok_iff (i := 0) (List.drop_zero)]
  constructor
  · intro h j m
    exact h.later j m (Nat.zero_le j)
  · intro h
    exact ⟨nofun, fun j m _ => h j m⟩

-- The run that began last before the second of the two members has no written member yet.
theorem last_begun (h : checkChoices schema slots = .ok ()) {j m : Nat} (hjm : j < m)
    (hfirst : ChoiceWritten schema slots j) (hsecond : ChoiceWritten schema slots m) :
    ∃ k, j < k ∧ k ≤ m ∧ BeginsRun schema k ∧
      ∀ n, k ≤ n → n < m → ¬ChoiceWritten schema slots n := by
  induction hdistance : m - j using Nat.strong_induction_on generalizing j with
  | _ distance ih =>
    have hbetween := (checkChoices_eq_ok_iff schema slots).mp h
    obtain ⟨k, hjk, hkm, hbegins⟩ := hbetween j m hjm hfirst hsecond
    by_cases hquiet : ∀ n, k ≤ n → n < m → ¬ChoiceWritten schema slots n
    · exact ⟨k, hjk, hkm, hbegins, hquiet⟩
    · simp only [not_forall, not_not] at hquiet
      obtain ⟨n, hkn, hnm, hmember⟩ := hquiet
      obtain ⟨l, hnl, hlm, hlast⟩ := ih (m - n) (by omega) hnm hmember rfl
      exact ⟨l, by omega, hlm, hlast⟩

theorem checkChoices_of_size {sizing : Sizing} (h : size schema slots = .ok sizing) :
    checkChoices schema slots = .ok () := by
  obtain ⟨_, hcheck, _⟩ := bind_eq_ok_iff.mp h
  obtain ⟨_, _, hcheck⟩ := bind_eq_ok_iff.mp (Outcome.leaving_eq_ok_iff.mp hcheck)
  split at hcheck
  · exact hcheck
  · cases hcheck

theorem checkChoicesFrom_map {f : Entry → Entry} (hdepth : ∀ entry, (f entry).depth = entry.depth)
    (hpresence : ∀ entry, (f entry).presence = entry.presence) (schema : Schema)
    (slots : List Slot) (i : Nat) (written : Bool) (entries : List Entry) :
    checkChoicesFrom (schema.map f) slots i written (entries.map f) =
      checkChoicesFrom schema slots i written entries := by
  have hexcluded (i : Nat) : excluded (schema.map f) slots i = excluded schema slots i := by
    rw [excluded, excluded, ancestors_map hdepth]
  induction entries generalizing i written with
  | nil => rfl
  | cons entry entries ih =>
    have hgroup : (f entry).choiceGroup = entry.choiceGroup := by
      rw [Entry.choiceGroup, Entry.choiceGroup, hpresence]
    simp only [List.map_cons, checkChoicesFrom, hgroup, startsRun_map hdepth hpresence, hexcluded,
      ih]

theorem checkChoices_set {k : Nat} {other : Entry} (hentry : schema[k]? = some entry)
    (hdepth : other.depth = entry.depth) (hpresence : other.presence = entry.presence)
    (slots : List Slot) :
    checkChoices (schema.set k other) slots = checkChoices schema slots := by
  have hsame : other.outline = entry.outline := by
    rw [Entry.outline, hdepth, hpresence, Entry.outline]
  have hmap (schema : Schema) :=
    checkChoicesFrom_map Entry.depth_outline Entry.presence_outline schema slots 0 false schema
  rw [checkChoices, checkChoices, ← hmap, ← hmap schema, map_set_of_eq hentry hsame]

theorem mem_written {run : List Nat} {m : Nat}
    (hm : m ∈ run.filter fun m => !excluded schema slots m) :
    m ∈ run ∧ excluded schema slots m = false := by
  obtain ⟨hrun, hwritten⟩ := List.mem_filter.mp hm
  exact ⟨hrun, by simpa using hwritten⟩

theorem written_member_of_size {sizing : Sizing} {parent : Option Nat} {group : Nat}
    {before run after : List Nat} (h : size schema slots = .ok sizing)
    (hrun : schema.Run parent group before run after) :
    (run.filter fun m => !excluded schema slots m).length ≤ 1 ∨
      ∃ m ∈ run, ∃ j ∈ run, ∃ k, schema.Nests m k ∧ k < j ∧ BeginsRun schema k ∧
        ∀ n, k ≤ n → n < j → ¬ChoiceWritten schema slots n := by
  have hsorted := hrun.pairwise.filter fun m => !excluded schema slots m
  have hmember {m : Nat} (hm : m ∈ run.filter fun m => !excluded schema slots m) :
      m ∈ run ∧ ChoiceWritten schema slots m := by
    obtain ⟨hin, hwritten⟩ := mem_written hm
    exact ⟨hin, ⟨group, hrun.members m hin⟩, hwritten⟩
  rcases hwritten : run.filter fun m => !excluded schema slots m with _ | ⟨i, _ | ⟨j, rest⟩⟩
  · exact .inl (Nat.zero_le 1)
  · exact .inl (Nat.le_refl 1)
  · rw [hwritten] at hmember hsorted
    obtain ⟨hi, hfirst⟩ := hmember List.mem_cons_self
    obtain ⟨hj, hsecond⟩ := hmember (List.mem_cons_of_mem i List.mem_cons_self)
    have hij : i < j := List.rel_of_pairwise_cons hsorted List.mem_cons_self
    obtain ⟨k, hik, hkj, hbegins, hquiet⟩ := last_begun (checkChoices_of_size h) hij hfirst hsecond
    obtain ⟨hlt, m, hm, hnests⟩ := hrun.nests_of_startsRun hi hj hik hkj hbegins.2
    exact .inr ⟨m, hm, j, hj, k, hnests, hlt, hbegins, hquiet⟩

def alternatives : Schema :=
  [(Entry.explicit 0 0).choice 1, (Entry.leaf 1 Tag.integer).choice 2,
    (Entry.leaf 0 Tag.boolean).choice 1]

theorem run_alternatives : alternatives.Run none 1 [] [0, 2] [] := by decide

def innerWritten : List Slot :=
  [.ofValue .none, .ofValue (.uint8 5), { Slot.ofValue (.uint8 1) with suppressed := true }]

def innerSuppressed : List Slot :=
  [.ofValue .none, { Slot.ofValue (.uint8 5) with suppressed := true }, .ofValue (.uint8 1)]

theorem written_member_alternatives :
    ∃ sizing, size alternatives innerWritten = .ok sizing ∧
      ([0, 2].filter fun m => !excluded alternatives innerWritten m).length ≤ 1 := by
  obtain ⟨sizing, h⟩ : ∃ sizing, size alternatives innerWritten = .ok sizing := ⟨_, rfl⟩
  refine ⟨sizing, h, ?_⟩
  rcases written_member_of_size h run_alternatives with
    hone | ⟨m, _, j, hj, k, hnests, hkj, _, hquiet⟩
  · exact hone
  · have hlast : j = 0 ∨ j = 2 := by simpa using hj
    have hk : k = 1 := by
      have := hnests.1
      omega
    subst hk
    exact absurd ⟨⟨2, _, rfl, rfl⟩, rfl⟩ (hquiet 1 (Nat.le_refl 1) hkj)

theorem two_members_written :
    ¬∀ (schema : Schema) (slots : List Slot) (sizing : Sizing) (parent : Option Nat) (group : Nat)
      (before run after : List Nat), schema.validate = .ok () → slots.length = schema.length →
        size schema slots = .ok sizing → schema.Run parent group before run after →
          (run.filter fun m => !excluded schema slots m).length ≤ 1 := by
  intro h
  have hboth := h alternatives innerSuppressed _ none 1 [] [0, 2] [] rfl rfl rfl run_alternatives
  revert hboth
  decide

end DerTemplate.Encoding

import Mathlib.Data.List.TakeWhile
import DerTemplate.Proofs.Schema.Place

namespace DerTemplate

namespace Schema

def indicesAt (schema : Schema) (depth first count : Nat) : List Nat :=
  (List.range' first count).filter fun i => schema[i]?.any fun entry => entry.depth == depth

def siblings (schema : Schema) : Option Nat → List Nat
  | none => schema.indicesAt 0 0 schema.length
  | some i => schema[i]?.elim [] fun entry =>
    schema.indicesAt (entry.depth + 1) (i + 1) (schema.subtreeEnd i - (i + 1))

def Nests (schema : Schema) (i j : Nat) : Prop := i < j ∧ j < schema.subtreeEnd i

def InGroup (schema : Schema) (group i : Nat) : Prop :=
  ∃ entry, schema[i]? = some entry ∧ entry.presence = .choice group

structure Run (schema : Schema) (parent : Option Nat) (group : Nat) (before run after : List Nat) :
    Prop where
  siblings : schema.siblings parent = before ++ (run ++ after)
  nonempty : run ≠ []
  members : ∀ i ∈ run, schema.InGroup group i
  first : ∀ i ∈ before.getLast?, ¬schema.InGroup group i
  last : ∀ i ∈ after.head?, ¬schema.InGroup group i

instance (schema : Schema) (group i : Nat) : Decidable (schema.InGroup group i) :=
  decidable_of_iff (schema[i]?.any fun entry => entry.presence == .choice group) (by
    simp [InGroup, Option.any_eq_true])

instance (schema : Schema) (parent : Option Nat) (group : Nat) (before run after : List Nat) :
    Decidable (schema.Run parent group before run after) :=
  decidable_of_iff
    (schema.siblings parent = before ++ (run ++ after) ∧ run ≠ [] ∧
      (∀ i ∈ run, schema.InGroup group i) ∧ (∀ i ∈ before.getLast?, ¬schema.InGroup group i) ∧
        ∀ i ∈ after.head?, ¬schema.InGroup group i)
    ⟨fun ⟨hsiblings, hnonempty, hmembers, hfirst, hlast⟩ =>
      ⟨hsiblings, hnonempty, hmembers, hfirst, hlast⟩,
      fun h => ⟨h.siblings, h.nonempty, h.members, h.first, h.last⟩⟩

variable {schema : Schema} {parent : Option Nat} {i j k : Nat} {entry other : Entry}

theorem mem_indicesAt {depth first count : Nat} :
    i ∈ schema.indicesAt depth first count ↔
      first ≤ i ∧ i < first + count ∧ ∃ entry, schema[i]? = some entry ∧ entry.depth = depth := by
  simp only [indicesAt, List.mem_filter, List.mem_range'_1, Option.any_eq_true, beq_iff_eq]
  exact and_assoc

theorem indicesAt_add (schema : Schema) (depth first count more : Nat) :
    schema.indicesAt depth first (count + more) =
      schema.indicesAt depth first count ++ schema.indicesAt depth (first + count) more := by
  simp only [indicesAt, ← List.range'_append_1, List.filter_append]

theorem depth_lt_of_nests (h : schema.Nests i j) (hentry : schema[i]? = some entry)
    (hother : schema[j]? = some other) : entry.depth < other.depth := by
  obtain ⟨hlt, hend⟩ := h
  simp only [subtreeEnd, hentry] at hend
  have hprefix := List.takeWhile_prefix (l := schema.drop (i + 1)) fun e => entry.depth < e.depth
  have hinside : j - (i + 1) <
      ((schema.drop (i + 1)).takeWhile fun e => entry.depth < e.depth).length := by omega
  have hget := hprefix.getElem hinside
  have hdeep := List.mem_takeWhile_imp (List.getElem_mem hinside)
  rw [hget, List.getElem_drop] at hdeep
  obtain ⟨hj, rfl⟩ := List.getElem?_eq_some_iff.mp hother
  simpa [show i + 1 + (j - (i + 1)) = j by omega] using hdeep

theorem nests_of_deeper (hentry : schema[i]? = some entry) (hij : i < j) (hj : j < schema.length)
    (hdeep : ∀ k e, i < k → k ≤ j → schema[k]? = some e → entry.depth < e.depth) :
    schema.Nests i j := by
  refine ⟨hij, ?_⟩
  have hinside : j - (i + 1) < (schema.drop (i + 1)).length := by
    rw [List.length_drop]
    omega
  have hfirst := List.lt_findIdx_of_not (p := fun e => !decide (entry.depth < e.depth)) hinside (by
    intro k hk
    have hget : schema[i + 1 + k]? = some (schema.drop (i + 1))[k] := by
      rw [List.getElem_drop, List.getElem?_eq_getElem]
    simpa using hdeep (i + 1 + k) _ (by omega) (by omega) hget)
  simp only [subtreeEnd, hentry, List.takeWhile_eq_take_findIdx_not, List.length_take]
  omega

theorem siblings_eq (schema : Schema) (parent : Option Nat) :
    ∃ depth first count, schema.siblings parent = schema.indicesAt depth first count ∧
      ∀ i entry, first ≤ i → i < first + count → schema[i]? = some entry → depth ≤ entry.depth := by
  cases parent with
  | none => exact ⟨0, 0, schema.length, rfl, fun _ entry _ _ _ => Nat.zero_le entry.depth⟩
  | some p =>
    cases hparent : schema[p]? with
    | none =>
      refine ⟨0, 0, 0, ?_, fun _ _ _ hlt => absurd hlt (Nat.not_lt_zero _)⟩
      rw [siblings, hparent]
      rfl
    | some outer =>
      refine ⟨outer.depth + 1, p + 1, schema.subtreeEnd p - (p + 1), ?_, ?_⟩
      · rw [siblings, hparent]
        rfl
      · intro i entry hfirst hlast hentry
        exact depth_lt_of_nests ⟨hfirst, by omega⟩ hparent hentry

theorem pairwise_siblings (schema : Schema) (parent : Option Nat) :
    (schema.siblings parent).Pairwise (· < ·) := by
  obtain ⟨depth, first, count, hsiblings, _⟩ := schema.siblings_eq parent
  rw [hsiblings]
  exact List.Pairwise.filter _ List.pairwise_lt_range'

theorem depth_eq_of_siblings (hi : i ∈ schema.siblings parent) (hj : j ∈ schema.siblings parent)
    (hentry : schema[i]? = some entry) (hother : schema[j]? = some other) :
    entry.depth = other.depth := by
  obtain ⟨depth, first, count, hsiblings, _⟩ := schema.siblings_eq parent
  rw [hsiblings] at hi hj
  obtain ⟨_, _, e, he, hdepth⟩ := mem_indicesAt.mp hi
  obtain ⟨_, _, f, hf, hsame⟩ := mem_indicesAt.mp hj
  rw [Option.some.inj (hentry.symm.trans he), Option.some.inj (hother.symm.trans hf), hdepth, hsame]

theorem siblings_between (hi : i ∈ schema.siblings parent) (hk : k ∈ schema.siblings parent)
    (hij : i ≤ j) (hjk : j ≤ k) (hentry : schema[i]? = some entry)
    (hother : schema[j]? = some other) :
    entry.depth ≤ other.depth ∧
      (other.depth = entry.depth → j ∈ schema.siblings parent) := by
  obtain ⟨depth, first, count, hsiblings, hdeep⟩ := schema.siblings_eq parent
  rw [hsiblings] at hi hk ⊢
  obtain ⟨hfirst, _, e, he, hdepth⟩ := mem_indicesAt.mp hi
  obtain ⟨_, hlast, _⟩ := mem_indicesAt.mp hk
  obtain rfl := Option.some.inj (hentry.symm.trans he)
  refine ⟨?_, fun hsame => ?_⟩
  · rw [hdepth]
    exact hdeep j other (by omega) (by omega) hother
  · exact mem_indicesAt.mpr ⟨by omega, by omega, other, hother, by omega⟩

theorem startsRun_eq_false (hik : i < k) (hentry : schema[i]? = some entry)
    (hother : schema[k]? = some other) (hdepth : entry.depth = other.depth)
    (hbetween : ∀ j e, i ≤ j → j < k → schema[j]? = some e →
      other.depth ≤ e.depth ∧ (e.depth = other.depth → e.presence = other.presence)) :
    schema.startsRun k = false := by
  have hk := (List.getElem?_eq_some_iff.mp hother).1
  have hlength : (schema.take k).reverse.length = k := by
    rw [List.length_reverse, List.length_take, Nat.min_eq_left (Nat.le_of_lt hk)]
  have hreverse (n : Nat) (hn : n < k) : (schema.take k).reverse[n]? = schema[k - 1 - n]? := by
    rw [List.getElem?_reverse (by rwa [← List.length_reverse, hlength]), ← List.length_reverse,
      hlength, List.getElem?_take_of_lt (by omega)]
  have hfirst : (schema.take k).reverse[k - 1 - i]? = some entry := by
    rw [hreverse _ (by omega), show k - 1 - (k - 1 - i) = i by omega, hentry]
  simp only [startsRun, hother]
  cases hfind : (schema.take k).reverse.find? fun e => e.depth ≤ other.depth with
  | none =>
    have hdeeper := List.find?_eq_none.mp hfind entry (List.mem_of_getElem? hfirst)
    simp only [decide_eq_true_eq] at hdeeper
    omega
  | some e =>
    obtain ⟨hshallow, n, hn, hget, hbefore⟩ := List.find?_eq_some_iff_getElem.mp hfind
    simp only [decide_eq_true_eq] at hshallow
    have he : schema[k - 1 - n]? = some e := by
      rw [← hreverse n (hlength ▸ hn), List.getElem?_eq_getElem hn, hget]
    -- the search comes to entry `i` before it comes to anything in front of it
    have hi : i ≤ k - 1 - n := by
      refine Nat.not_lt.mp fun hlt => ?_
      have hnear := hbefore (k - 1 - i) (by omega)
      rw [(List.getElem?_eq_some_iff.mp hfirst).2] at hnear
      simp [hdepth] at hnear
    obtain ⟨hdeep, hsame⟩ := hbetween (k - 1 - n) e hi (by omega) he
    have hlevel : e.depth = other.depth := Nat.le_antisymm hshallow hdeep
    simp [hlevel, hsame hlevel]

namespace Run

variable {group : Nat} {before run after : List Nat}
variable (h : schema.Run parent group before run after)
include h

theorem mem_siblings (hi : i ∈ run) : i ∈ schema.siblings parent := by
  rw [h.siblings]
  exact List.mem_append_right _ (List.mem_append_left _ hi)

theorem pairwise : run.Pairwise (· < ·) := by
  have hsorted := schema.pairwise_siblings parent
  rw [h.siblings] at hsorted
  exact (List.pairwise_append.mp (List.pairwise_append.mp hsorted).2.1).1

theorem presence (hi : i ∈ run) (hentry : schema[i]? = some entry) :
    entry.presence = .choice group := by
  obtain ⟨e, he, hpresence⟩ := h.members i hi
  rwa [Option.some.inj (hentry.symm.trans he)]

theorem mem_of_between (hi : i ∈ run) (hk : k ∈ run) (hij : i ≤ j) (hjk : j ≤ k)
    (hj : j ∈ schema.siblings parent) : j ∈ run := by
  have hsorted := schema.pairwise_siblings parent
  rw [h.siblings] at hsorted hj
  obtain ⟨_, hrest, hbefore⟩ := List.pairwise_append.mp hsorted
  obtain ⟨_, _, hafter⟩ := List.pairwise_append.mp hrest
  rcases List.mem_append.mp hj with hj | hj
  · have := hbefore j hj i (List.mem_append_left _ hi)
    omega
  · rcases List.mem_append.mp hj with hj | hj
    · exact hj
    · have := hafter k hk j hj
      omega

theorem depth_lt_of_startsRun (hi : i ∈ run) (hj : j ∈ run) (hik : i < k) (hkj : k ≤ j)
    (hentry : schema[i]? = some entry) (hother : schema[k]? = some other)
    (hstarts : schema.startsRun k = true) : entry.depth < other.depth := by
  have hbetween {m : Nat} {e : Entry} (him : i ≤ m) (hmj : m ≤ j) (he : schema[m]? = some e) :
      entry.depth ≤ e.depth ∧ (e.depth = entry.depth → e.presence = .choice group) := by
    obtain ⟨hdeep, hsibling⟩ :=
      siblings_between (h.mem_siblings hi) (h.mem_siblings hj) him hmj hentry he
    exact ⟨hdeep, fun hdepth => h.presence (h.mem_of_between hi hj him hmj (hsibling hdepth)) he⟩
  obtain ⟨hdeep, hsame⟩ := hbetween (Nat.le_of_lt hik) hkj hother
  refine Nat.lt_of_le_of_ne hdeep fun hdepth => ?_
  rw [startsRun_eq_false hik hentry hother hdepth] at hstarts
  · cases hstarts
  · intro m e him hmk he
    obtain ⟨hdeep, hchoice⟩ := hbetween him (by omega) he
    rw [← hdepth, hsame hdepth.symm]
    exact ⟨hdeep, hchoice⟩

theorem nests_of_startsRun (hi : i ∈ run) (hj : j ∈ run) (hik : i < k) (hkj : k ≤ j)
    (hstarts : schema.startsRun k = true) : k < j ∧ ∃ m ∈ run, schema.Nests m k := by
  obtain ⟨last, hlast, _⟩ := h.members j hj
  have hklt : k < schema.length :=
    Nat.lt_of_le_of_lt hkj (List.getElem?_eq_some_iff.mp hlast).1
  have hk : schema[k]? = some schema[k] := List.getElem?_eq_getElem hklt
  have hdeeper {m : Nat} (hm : m ∈ run) (hmk : m < k) {e : Entry} (he : schema[m]? = some e) :
      e.depth < schema[k].depth := h.depth_lt_of_startsRun hm hj hmk hkj he hk hstarts
  have hsame {m n : Nat} (hm : m ∈ run) (hn : n ∈ run) {e f : Entry} (he : schema[m]? = some e)
      (hf : schema[n]? = some f) : e.depth = f.depth :=
    depth_eq_of_siblings (h.mem_siblings hm) (h.mem_siblings hn) he hf
  refine ⟨Nat.lt_of_le_of_ne hkj ?_, ?_⟩
  · rintro rfl
    obtain ⟨entry, hentry, _⟩ := h.members i hi
    have := hdeeper hi hik hentry
    have := hsame hi hj hentry hk
    omega
  -- the member is the last one before `k`
  · induction hdistance : k - i using Nat.strong_induction_on generalizing i with
    | _ distance ih =>
      obtain ⟨entry, hentry, _⟩ := h.members i hi
      by_cases hdeep : ∀ n e, i < n → n ≤ k → schema[n]? = some e → entry.depth < e.depth
      · exact ⟨i, hi, nests_of_deeper hentry hik hklt hdeep⟩
      · simp only [not_forall, Nat.not_lt] at hdeep
        obtain ⟨n, e, hin, hnk, he, hshallow⟩ := hdeep
        obtain ⟨hdeep, hsibling⟩ :=
          siblings_between (h.mem_siblings hi) (h.mem_siblings hj) (Nat.le_of_lt hin)
            (Nat.le_trans hnk hkj) hentry he
        have hmember := h.mem_of_between hi hj (Nat.le_of_lt hin) (Nat.le_trans hnk hkj)
          (hsibling (Nat.le_antisymm hshallow hdeep))
        have hne : n ≠ k := by
          rintro rfl
          have := hdeeper hi hik hentry
          rw [Option.some.inj (hk.symm.trans he)] at this
          omega
        exact ih (k - n) (by omega) hmember (by omega) rfl

end Run

end Schema

end DerTemplate

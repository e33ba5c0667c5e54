import DerTemplate.Proofs.Schema.Forest

namespace DerTemplate

theorem Entry.choiceGroup_eq_some {entry : Entry} {group : Nat} :
    entry.choiceGroup = some group ↔ entry.presence = .choice group := by
  unfold Entry.choiceGroup
  cases entry.presence <;> simp

namespace Schema

def Leaves (depth : Nat) (rest : List Entry) : Prop := ∀ entry ∈ rest.head?, entry.depth ≤ depth

theorem leaves_append {σ : Type} {depth : Nat} {next : Forest σ} {post : List Entry}
    (hnext : next.Nested depth) (hpost : ∀ entry ∈ post.head?, entry.depth < depth) :
    Leaves depth (next.schema ++ post) := by
  cases next with
  | nil => exact fun entry h => Nat.le_of_lt (hpost entry h)
  | node entry slot below next =>
    intro e he
    simp only [Forest.schema, List.cons_append, List.head?_cons, Option.mem_def,
      Option.some.injEq] at he
    exact he ▸ Nat.le_of_eq hnext.1

theorem takeWhile_nested {σ : Type} {depth : Nat} {below : Forest σ} {rest : List Entry}
    (hbelow : below.Nested (depth + 1)) (hrest : Leaves depth rest) :
    (below.schema ++ rest).takeWhile (fun e => depth < e.depth) = below.schema := by
  rw [List.takeWhile_append_of_pos (by
    intro e he
    have := Forest.le_depth_of_nested hbelow e he
    simp only [decide_eq_true_eq]
    omega)]
  cases rest with
  | nil => simp
  | cons e rest =>
    have hle : e.depth ≤ depth := hrest e rfl
    rw [List.takeWhile_cons_of_neg (by simp only [decide_eq_true_eq]; omega), List.append_nil]

theorem subtreeEnd_append {σ : Type} {pre rest : List Entry} {entry : Entry} {below : Forest σ}
    (hbelow : below.Nested (entry.depth + 1)) (hrest : Leaves entry.depth rest) :
    subtreeEnd (pre ++ entry :: (below.schema ++ rest)) pre.length =
      pre.length + 1 + below.size := by
  have hget : (pre ++ entry :: (below.schema ++ rest))[pre.length]? = some entry := by simp
  have hdrop : (pre ++ entry :: (below.schema ++ rest)).drop (pre.length + 1) =
      below.schema ++ rest := by
    rw [← List.drop_drop, List.drop_left, List.drop_succ_cons, List.drop_zero]
  simp only [subtreeEnd, hget, hdrop, takeWhile_nested hbelow hrest, Forest.length_schema]

theorem climb_append {depth : Nat} {inner outer : List Entry}
    (h : ∀ entry ∈ inner, depth ≤ entry.depth) :
    climb depth (inner ++ outer) = climb depth outer := by
  induction inner with
  | nil => rfl
  | cons entry inner ih =>
    have hentry : depth ≤ entry.depth := h entry List.mem_cons_self
    simp only [List.cons_append, climb]
    rw [if_neg (Nat.not_lt.mpr hentry)]
    exact ih fun e he => h e (List.mem_cons_of_mem _ he)

def around (depth : Nat) (pre : List Entry) : List Nat := climb depth pre.reverse

theorem ancestors_append (pre rest : List Entry) (entry : Entry) :
    ancestors (pre ++ entry :: rest) pre.length = around entry.depth pre := by
  have hget : (pre ++ entry :: rest)[pre.length]? = some entry := by simp
  simp only [ancestors, hget, around, List.take_left]

theorem around_next {σ : Type} {depth : Nat} {pre : List Entry} {entry : Entry}
    {below : Forest σ} (hdepth : entry.depth = depth) (hbelow : below.Nested (depth + 1)) :
    around depth (pre ++ entry :: below.schema) = around depth pre := by
  unfold around
  rw [List.reverse_append]
  refine climb_append fun e he => ?_
  rcases List.mem_cons.mp (List.mem_reverse.mp he) with rfl | he
  · exact Nat.le_of_eq hdepth.symm
  · exact Nat.le_of_succ_le (Forest.le_depth_of_nested hbelow e he)

theorem around_below {depth : Nat} {pre : List Entry} {entry : Entry}
    (hdepth : entry.depth = depth) :
    around (depth + 1) (pre ++ [entry]) = pre.length :: around depth pre := by
  unfold around
  rw [List.reverse_append, List.reverse_singleton, List.singleton_append, climb,
    if_pos (by omega), List.length_reverse, hdepth]

theorem lt_of_mem_climb {depth i : Nat} {above : List Entry} (h : i ∈ climb depth above) :
    i < above.length := by
  induction above generalizing depth with
  | nil => simp [climb] at h
  | cons entry above ih =>
    rw [List.length_cons]
    unfold climb at h
    split at h
    · rcases List.mem_cons.mp h with rfl | h
      · exact Nat.lt_succ_self _
      · exact Nat.lt_succ_of_lt (ih h)
    · exact Nat.lt_succ_of_lt (ih h)

theorem lt_of_mem_around {depth i : Nat} {pre : List Entry} (h : i ∈ around depth pre) :
    i < pre.length := by
  rw [← List.length_reverse]
  exact lt_of_mem_climb h

def siblingBefore (depth : Nat) (pre : List Entry) : Option Presence :=
  match pre.reverse.find? fun e => e.depth ≤ depth with
  | none => none
  | some e => if e.depth = depth then some e.presence else none

theorem startsRun_append (pre rest : List Entry) (entry : Entry) :
    startsRun (pre ++ entry :: rest) pre.length =
      (siblingBefore entry.depth pre != some entry.presence) := by
  have hget : (pre ++ entry :: rest)[pre.length]? = some entry := by simp
  simp only [startsRun, hget, List.take_left, siblingBefore]
  cases pre.reverse.find? fun e => e.depth ≤ entry.depth with
  | none => rfl
  | some e =>
    by_cases hdepth : e.depth = entry.depth <;> simp [hdepth, bne, Option.some_beq_some]

theorem siblingBefore_next {σ : Type} {depth : Nat} {pre : List Entry} {entry : Entry}
    {below : Forest σ} (hdepth : entry.depth = depth) (hbelow : below.Nested (depth + 1)) :
    siblingBefore depth (pre ++ entry :: below.schema) = some entry.presence := by
  have hfind : (pre ++ entry :: below.schema).reverse.find? (fun e => e.depth ≤ depth) =
      some entry := by
    rw [List.reverse_append, List.reverse_cons, List.append_assoc, List.find?_append,
      List.find?_eq_none.mpr (by
        intro e he
        have := Forest.le_depth_of_nested hbelow e (List.mem_reverse.mp he)
        simp only [decide_eq_true_eq]
        omega),
      Option.none_or, List.singleton_append,
      List.find?_cons_of_pos (by simp only [decide_eq_true_eq]; omega)]
  simp only [siblingBefore, hfind, hdepth, if_true]

theorem siblingBefore_below {depth : Nat} {pre : List Entry} {entry : Entry}
    (hdepth : entry.depth = depth) : siblingBefore (depth + 1) (pre ++ [entry]) = none := by
  have hfind : (pre ++ [entry]).reverse.find? (fun e => e.depth ≤ depth + 1) = some entry := by
    rw [List.reverse_append, List.reverse_singleton, List.singleton_append,
      List.find?_cons_of_pos (by simp only [decide_eq_true_eq]; omega)]
  simp only [siblingBefore, hfind]
  rw [if_neg (by omega)]

theorem siblingBefore_nil (depth : Nat) : siblingBefore depth [] = none := rfl

theorem getElem_after {σ : Type} (pre : List Entry) (entry : Entry) (below : Forest σ)
    (rest : List Entry) :
    (pre ++ entry :: (below.schema ++ rest))[pre.length + 1 + below.size]? = rest.head? := by
  rw [List.getElem?_append_right (by omega),
    show pre.length + 1 + below.size - pre.length = below.size + 1 by omega,
    List.getElem?_cons_succ, List.getElem?_append_right (by simp), Forest.length_schema,
    Nat.sub_self, List.head?_eq_getElem?]

theorem endsRun_append {σ : Type} {pre post : List Entry} {entry : Entry} {below next : Forest σ}
    (hnext : next.Nested entry.depth)
    (hpost : ∀ e ∈ post.head?, e.depth < entry.depth) :
    endsRun (pre ++ entry :: (below.schema ++ (next.schema ++ post))) pre.length
        (pre.length + 1 + below.size) =
      (next.firstPresence != some entry.presence) := by
  have hget : (pre ++ entry :: (below.schema ++ (next.schema ++ post)))[pre.length]? =
      some entry := by simp
  simp only [endsRun, hget, getElem_after]
  cases next with
  | nil =>
    cases post with
    | nil => rfl
    | cons e post =>
      have hlt : e.depth < entry.depth := hpost e rfl
      have hne : (e.depth != entry.depth) = true := by simp; omega
      simp [Forest.schema, Forest.firstPresence, hne]
  | node e slot below next =>
    simp [Forest.schema, Forest.firstPresence, hnext.1, bne, Option.some_beq_some]

end Schema

end DerTemplate

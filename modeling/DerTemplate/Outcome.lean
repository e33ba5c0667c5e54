import DerTemplate.Error

/-!
How a computation ends. Data or a call that is turned down gives an `Error`; a `fault` is what no
caller may see: an index or slice outside its data, or a number outside the machine word. An
`Attempt` changes a state in place, so when it stops half way it also says what it left behind.
-/

namespace DerTemplate

inductive Failure where
  | refused (error : Error)
  | fault
deriving DecidableEq, Repr

abbrev Outcome (α : Type) := Except Failure α

structure Interrupted (σ : Type) where
  failure : Failure
  left : σ
deriving DecidableEq, Repr

abbrev Attempt (σ α : Type) := Except (Interrupted σ) α

variable {σ α : Type}

def refuse (error : Error) : Outcome α := .error (.refused error)

def fault : Outcome α := .error .fault

def Outcome.leaving (outcome : Outcome α) (state : σ) : Attempt σ α :=
  match outcome with
  | .ok a => .ok a
  | .error failure => .error ⟨failure, state⟩

@[simp] theorem Outcome.leaving_ok (a : α) (state : σ) :
    Outcome.leaving (.ok a) state = .ok a := rfl

@[simp] theorem Outcome.leaving_error (failure : Failure) (state : σ) :
    Outcome.leaving (.error failure : Outcome α) state = .error ⟨failure, state⟩ := rfl

def Attempt.outcome (attempt : Attempt σ α) : Outcome α :=
  match attempt with
  | .ok a => .ok a
  | .error stop => .error stop.failure

@[simp] theorem Attempt.outcome_ok (a : α) :
    Attempt.outcome (.ok a : Attempt σ α) = .ok a := rfl

@[simp] theorem Attempt.outcome_error (stop : Interrupted σ) :
    Attempt.outcome (.error stop : Attempt σ α) = .error stop.failure := rfl

theorem Attempt.outcome_leaving (outcome : Outcome α) (state : σ) :
    Attempt.outcome (outcome.leaving state) = outcome := by
  cases outcome <;> rfl

/-- The state after an attempt, whether it stopped half way or not. -/
def Attempt.final (attempt : Attempt σ σ) : σ :=
  match attempt with
  | .ok state => state
  | .error stop => stop.left

@[simp] theorem ok_bind {ε β : Type} (a : α) (f : α → Except ε β) :
    (Except.ok a >>= f) = f a := rfl

@[simp] theorem error_bind {ε β : Type} (e : ε) (f : α → Except ε β) :
    (Except.error e >>= f) = .error e := rfl

theorem bind_eq_ok_iff {ε β : Type} {x : Except ε α} {f : α → Except ε β} {b : β} :
    x >>= f = .ok b ↔ ∃ a, x = .ok a ∧ f a = .ok b := by
  cases x with
  | error e => simp [bind, Except.bind]
  | ok a => simp [bind, Except.bind]

theorem Outcome.leaving_eq_ok_iff {outcome : Outcome α} {state : σ} {a : α} :
    outcome.leaving state = .ok a ↔ outcome = .ok a := by
  cases outcome <;> simp

theorem Attempt.outcome_eq_ok_iff {attempt : Attempt σ α} {a : α} :
    attempt.outcome = .ok a ↔ attempt = .ok a := by
  cases attempt <;> simp

def fetch (xs : List α) (i : Nat) : Outcome α :=
  match xs[i]? with
  | some x => .ok x
  | none => fault

def update (xs : List α) (i : Nat) (x : α) : Outcome (List α) :=
  if i < xs.length then .ok (xs.set i x) else fault

theorem fetch_eq_ok_iff {xs : List α} {i : Nat} {x : α} :
    fetch xs i = .ok x ↔ xs[i]? = some x := by
  unfold fetch fault
  split <;> simp_all

theorem lt_length_of_fetch {xs : List α} {i : Nat} {x : α} (h : fetch xs i = .ok x) :
    i < xs.length :=
  (List.getElem?_eq_some_iff.mp (fetch_eq_ok_iff.mp h)).1

def wordLimit : Nat := 0x10000000000000000

/-- One more than the largest length a header may declare. -/
def lengthLimit : Nat := 0x8000000000000000

theorem lt_wordLimit {n : Nat} (h : n < lengthLimit) : n < wordLimit := Nat.lt_trans h (by decide)

namespace Word

def add (a b : Nat) : Outcome Nat :=
  if a + b < wordLimit then .ok (a + b) else fault

def sub (a b : Nat) : Outcome Nat :=
  if b ≤ a then .ok (a - b) else fault

theorem add_eq_ok_iff {a b c : Nat} : add a b = .ok c ↔ a + b < wordLimit ∧ a + b = c := by
  unfold add fault
  split <;> simp <;> omega

theorem sub_eq_ok_iff {a b c : Nat} : sub a b = .ok c ↔ b ≤ a ∧ a - b = c := by
  unfold sub fault
  split <;> simp <;> omega

theorem add_bind (a b : Nat) (f : Nat → Outcome α) :
    (add a b >>= f) = if a + b < wordLimit then f (a + b) else fault := by
  unfold add
  split <;> rfl

end Word

end DerTemplate

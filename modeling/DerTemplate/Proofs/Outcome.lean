import DerTemplate.Bytes

namespace DerTemplate

variable {σ α β : Type} {allowed allowed' : Error → Prop} {post post' : α → Prop}

def Outcome.Meets (outcome : Outcome α) (allowed : Error → Prop) (post : α → Prop) : Prop :=
  match outcome with
  | .ok a => post a
  | .error (.refused error) => allowed error
  | .error .fault => False

abbrev Outcome.Safe (outcome : Outcome α) (post : α → Prop) : Prop :=
  outcome.Meets (fun _ => True) post

def Error.BlamesInput (error : Error) : Prop :=
  (∀ cause, error ≠ .internalError cause) ∧ ∀ need got, error ≠ .bufferTooSmall need got

theorem Error.blamesInput_truncated (cause : Truncation) : BlamesInput (.truncatedInput cause) :=
  ⟨nofun, nofun⟩

theorem Error.blamesInput_invalid (cause : Malformation) : BlamesInput (.invalidEncoding cause) :=
  ⟨nofun, nofun⟩

theorem Error.blamesInput_exhausted (cause : Exhaustion) :
    BlamesInput (.resourceExhausted cause) :=
  ⟨nofun, nofun⟩

namespace Outcome

theorem map_eq_ok_iff {x : Outcome α} {f : α → β} {b : β} :
    f <$> x = .ok b ↔ ∃ a, x = .ok a ∧ f a = b := by
  cases x with
  | error failure => exact iff_of_false nofun nofun
  | ok a =>
    constructor
    · intro h
      exact ⟨a, rfl, Except.ok.inj h⟩
    · rintro ⟨_, ⟨⟩, rfl⟩
      rfl

theorem meets_ok {a : α} (h : post a) : Meets (.ok a) allowed post := h

theorem meets_refuse {error : Error} (h : allowed error) :
    (refuse error : Outcome α).Meets allowed post := h

theorem Meets.bind {x : Outcome α} {f : α → Outcome β} {last : β → Prop}
    (h : x.Meets allowed post) (hf : ∀ a, x = .ok a → post a → (f a).Meets allowed last) :
    Meets (x >>= f) allowed last := by
  match x with
  | .ok a => exact hf a rfl h
  | .error (.refused error) => exact h
  | .error .fault => exact h.elim

theorem Meets.mono {x : Outcome α} (h : x.Meets allowed post)
    (herror : ∀ error, allowed error → allowed' error) (hpost : ∀ a, post a → post' a) :
    x.Meets allowed' post' := by
  match x with
  | .ok a => exact hpost a h
  | .error (.refused error) => exact herror error h
  | .error .fault => exact h.elim

theorem Meets.imp {x : Outcome α} (h : x.Meets allowed post) (hpost : ∀ a, post a → post' a) :
    x.Meets allowed post' :=
  h.mono (fun _ => id) hpost

theorem Meets.of_ok {x : Outcome α} {a : α} (h : x.Meets allowed post) (hx : x = .ok a) :
    post a := by
  rw [hx] at h
  exact h

theorem Meets.safe {x : Outcome α} (h : x.Meets allowed post) : x.Safe post :=
  h.mono (fun _ _ => trivial) fun _ => id

theorem Meets.map {x : Outcome α} (h : x.Meets allowed post) (f : α → β) :
    Meets (f <$> x) allowed fun _ => True := by
  match x with
  | .ok a => trivial
  | .error (.refused error) => exact h
  | .error .fault => exact h.elim

theorem Meets.refused {x : Outcome α} {failure : Failure} (h : x.Meets allowed post)
    (hx : x = .error failure) : ∃ error, failure = .refused error ∧ allowed error := by
  rw [hx] at h
  cases failure with
  | refused error => exact ⟨error, rfl, h⟩
  | fault => exact h.elim

end Outcome

namespace Attempt

variable {left left' : σ → Prop}

/-- The result has a property, or else what is left behind has one, whatever the failure is. -/
def Ends (attempt : Attempt σ α) (left : σ → Prop) (post : α → Prop) : Prop :=
  match attempt with
  | .ok a => post a
  | .error stop => left stop.left

theorem Ends.mono {x : Attempt σ α} (h : x.Ends left post) (hleft : ∀ state, left state → left' state)
    (hpost : ∀ a, post a → post' a) : x.Ends left' post' := by
  cases x with
  | ok a => exact hpost a h
  | error stop => exact hleft stop.left h

theorem Ends.final {x : Attempt σ σ} (h : x.Ends left left) : left x.final := by
  cases x with
  | ok state => exact h
  | error stop => exact h

theorem Ends.bind {x : Attempt σ α} {f : α → Attempt σ β} {last : β → Prop} (h : x.Ends left post)
    (hf : ∀ a, x = .ok a → post a → (f a).Ends left last) : Ends (x >>= f) left last := by
  cases x with
  | ok a => exact hf a rfl h
  | error stop => exact h

theorem ends_leaving {outcome : Outcome α} {state : σ} (hstate : left state)
    (hpost : ∀ a, outcome = .ok a → post a) : Ends (outcome.leaving state) left post := by
  cases outcome with
  | ok a => exact hpost a rfl
  | error failure => exact hstate

theorem Ends.of_leaving {outcome : Outcome α} {state : σ} {f : α → Attempt σ β} {last : β → Prop}
    (hstate : left state) (hf : ∀ a, outcome = .ok a → (f a).Ends left last) :
    Ends (outcome.leaving state >>= f) left last := by
  cases outcome with
  | ok a => exact hf a rfl
  | error failure => exact hstate

end Attempt

theorem meets_fetch {xs : List α} {i : Nat} (h : i < xs.length) :
    (fetch xs i).Meets allowed (· = xs[i]) := by
  rw [fetch, List.getElem?_eq_getElem h]
  exact Eq.refl _

theorem meets_update {xs : List α} {i : Nat} (h : i < xs.length) (x : α) :
    (update xs i x).Meets allowed (· = xs.set i x) := by
  rw [update, if_pos h]
  exact Eq.refl _

theorem map_set_of_eq {f : α → β} {list : List α} {k : Nat} {a b : α}
    (hget : list[k]? = some a) (hf : f b = f a) : (list.set k b).map f = list.map f := by
  refine List.ext_getElem? fun i => ?_
  rw [List.map_set, hf, List.getElem?_set, List.length_map]
  split
  · rename_i hi
    rw [← hi, if_pos (List.getElem?_eq_some_iff.mp hget).1, List.getElem?_map, hget,
      Option.map_some]
  · rfl

theorem Word.meets_add {a b : Nat} (h : a + b < wordLimit) :
    (Word.add a b).Meets allowed (· = a + b) := by
  rw [Word.add, if_pos h]
  exact Eq.refl _

theorem Word.meets_sub {a b : Nat} (h : b ≤ a) : (Word.sub a b).Meets allowed (· = a - b) := by
  rw [Word.sub, if_pos h]
  exact Eq.refl _

theorem Bytes.meets_slice {bytes : Bytes} {start stop : Nat} (h : start ≤ stop)
    (hstop : stop ≤ bytes.length) :
    (bytes.slice start stop).Meets allowed fun part => part.length = stop - start := by
  rw [Bytes.slice, if_pos ⟨h, hstop⟩]
  show ((bytes.drop start).take (stop - start)).length = stop - start
  rw [List.length_take, List.length_drop]
  omega

end DerTemplate

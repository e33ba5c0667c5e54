import DerTemplate.Proofs.Decoding.Simulation

namespace DerTemplate

structure Options.Relaxed (options relaxed : Options) : Prop where
  policy : relaxed.integerPolicy = options.integerPolicy ∨ relaxed.integerPolicy = .leadingZeros
  oids : relaxed.verifyOids = options.verifyOids ∨ relaxed.verifyOids = false

def Within {ε α : Type} (x y : Except ε α) : Prop := ∀ a, x = .ok a → y = .ok a

namespace Within

variable {ε σ α β : Type}

theorem refl (x : Except ε α) : Within x x := fun _ => id

theorem bind {x y : Except ε α} {f g : α → Except ε β} (h : Within x y)
    (hf : ∀ a, x = .ok a → Within (f a) (g a)) : Within (x >>= f) (y >>= g) := by
  intro b hb
  obtain ⟨a, ha, hb⟩ := bind_eq_ok_iff.mp hb
  exact bind_eq_ok_iff.mpr ⟨a, h a ha, hf a ha b hb⟩

theorem leaving {x y : Outcome α} (h : Within x y) (state : σ) :
    Within (x.leaving state) (y.leaving state) := fun a ha =>
  Outcome.leaving_eq_ok_iff.mpr (h a (Outcome.leaving_eq_ok_iff.mp ha))

end Within

namespace Decoding

variable {options relaxed : Options} {schema : Schema} {input : Bytes} {entry : Entry}

theorem isPadded_relaxed (h : options.Relaxed relaxed) (raw : Bytes) :
    Within (Content.isPadded raw options.integerPolicy)
      (Content.isPadded raw relaxed.integerPolicy) := by
  intro padded hpadded
  rcases h.policy with hsame | hloose
  · rwa [hsame]
  · rw [hloose]
    match raw, hpadded with
    | [_], hpadded => exact hpadded
    | first :: next :: rest, hpadded =>
      unfold Content.isPadded at hpadded ⊢
      dsimp only at hpadded ⊢
      split at hpadded
      · rename_i hzero
        rw [if_pos hzero, if_neg (fun h => nomatch h.2)]
        split at hpadded
        · cases hpadded
        · exact hpadded
      · rename_i hzero
        rw [if_neg hzero, if_neg (fun h => nomatch h.2.2)]
        split at hpadded
        · cases hpadded
        · exact hpadded

theorem ofContent_relaxed (h : options.Relaxed relaxed) (tag : Tag) (raw : Bytes) :
    Within (Lead.ofContent options.integerPolicy tag raw)
      (Lead.ofContent relaxed.integerPolicy tag raw) := by
  unfold Lead.ofContent
  split
  · exact .refl _
  · split
    · exact (isPadded_relaxed h raw).bind fun _ _ => .refl _
    · exact .refl _

theorem readOid_relaxed (h : options.Relaxed relaxed) (category : Oid.Category) (item : Item) :
    Within (readOid options category item) (readOid relaxed category item) := by
  refine (Within.refl _).bind fun _ _ => (Within.refl _).bind fun sum _ => ?_
  refine Within.bind ?_ fun _ _ => .refl _
  intro _ hverify
  rcases h.oids with hsame | hloose
  · rwa [hsame]
  · rw [hloose]
    rfl

theorem readValue_relaxed (h : options.Relaxed relaxed) (destination : Destination) (item : Item)
    (index : Nat) :
    Within (readValue options destination item index) (readValue relaxed destination item index) := by
  cases destination with
  | oid category => exact readOid_relaxed h category item
  | none | content | choice | uint8 | uint16 | uint32 | integer | expect | bounded => exact .refl _

theorem fill_relaxed (h : options.Relaxed relaxed) (slot : Slot) (entry : Entry) (input : Bytes)
    (start bound : Nat) (tag : Tag) (index : Nat) :
    Within (slot.fill options entry input start bound tag index)
      (slot.fill relaxed entry input start bound tag index) := by
  unfold Slot.fill
  refine (Within.refl _).bind fun (length, next) _ => (Within.refl _).bind fun stop _ => ?_
  refine (Within.refl _).bind fun raw _ => ?_
  refine ((ofContent_relaxed h tag raw).leaving _).bind fun lead _ => ?_
  refine (Within.refl _).bind fun _ _ => (Within.refl _).bind fun content _ => ?_
  refine Within.bind ?_ fun _ _ => .refl _
  split
  · exact .refl _
  · exact (readValue_relaxed h _ _ _).leaving _

theorem take_relaxed (h : options.Relaxed relaxed) (walk : Walk) (input : Bytes) (i : Nat)
    (entry : Entry) (slot : Slot) (tag : Tag) :
    Within (walk.take options input i entry slot tag) (walk.take relaxed input i entry slot tag) := by
  refine (Within.refl _).bind fun bound _ => ?_
  cases hfill : slot.fill options entry input walk.idx bound tag i with
  | error stop => nofun
  | ok filled =>
    rw [fill_relaxed h slot entry input walk.idx bound tag i filled hfill]
    exact .refl _

theorem visit_relaxed (h : options.Relaxed relaxed) (walk : Walk) (schema : Schema) (input : Bytes)
    (i : Nat) (entry : Entry) :
    Within (walk.visit options schema input i entry) (walk.visit relaxed schema input i entry) := by
  refine (Within.refl _).bind fun arrived _ => (Within.refl _).bind fun slot _ => ?_
  refine (Within.refl _).bind fun found _ => (Within.refl _).bind fun taken _ => ?_
  refine (Within.refl _).bind fun judged _ => ?_
  cases judged with
  | none => exact .refl _
  | some tag => exact (take_relaxed h arrived input i entry slot tag).bind fun _ _ => .refl _

theorem run_relaxed (h : options.Relaxed relaxed) (walk : Walk) (schema : Schema) (input : Bytes)
    (i : Nat) :
    Within (walk.run options schema input i) (walk.run relaxed schema input i) := by
  -- the step decides where the walk goes on, so both walks come to the same entries
  fun_induction walk.run options schema input i with
  | case1 walk i hi ihFound ihAbsent =>
    rw [Walk.run.eq_def _ relaxed, dif_pos hi]
    refine (visit_relaxed h walk schema input i _).bind fun (next, found) _ => ?_
    cases found with
    | true => exact ihFound next
    | false => exact ihAbsent next
  | case2 walk i hi =>
    rw [Walk.run.eq_def _ relaxed, dif_neg hi]
    exact .refl _

theorem decode_relaxed (h : options.Relaxed relaxed) {session done : Session} {schema : Schema}
    {input : Bytes} {complete : Bool} {maxIndex : Nat}
    (hdone : session.decode options schema input complete maxIndex = .ok done) :
    session.decode relaxed schema input complete maxIndex = .ok done := by
  refine Within.bind (.refl _) (fun _ _ => ?_) done hdone
  dsimp only
  cases hrun : (Walk.begin (session.slots.map Slot.clear) session.cursor
      (min maxIndex input.length)).run options schema input 0 with
  | error interrupted => nofun
  | ok walk =>
    rw [run_relaxed h _ _ _ _ walk hrun]
    exact .refl _

def algorithmSchema : Schema :=
  [.sequence 0, .leaf 1 Tag.integer, (Entry.leaf 1 Tag.objectIdentifier).optional]

def algorithmSession : Session :=
  ⟨0, [.ofDestination .none, .ofDestination .uint8, .ofDestination (.oid .hash)]⟩

def algorithmInput : Bytes :=
  [0x30, 0x0B, 0x02, 0x02, 0x00, 0x80, 0x06, 0x05, 0x2B, 0x0E, 0x03, 0x02, 0x1A]

theorem decode_relaxed_algorithm :
    Options.Relaxed .strict .lenient ∧
      algorithmSession.decode .lenient algorithmSchema algorithmInput true 13 =
        .ok ⟨13, [⟨.none, .nothing, true, 0x30, 0, 2, 11, 0, false⟩,
          ⟨.uint8, .number 128, true, 0x02, 2, 5, 1, 0, true⟩,
          ⟨.oid .hash, .oid 88 [0x2B, 0x0E, 0x03, 0x02, 0x1A], true, 0x06, 6, 8, 5, 0, false⟩]⟩ := by
  have hrelaxed : Options.Relaxed .strict .lenient := ⟨.inr rfl, .inr rfl⟩
  exact ⟨hrelaxed,
    decode_relaxed hrelaxed ((decode_eq_ok_iff (by decide)).mpr ⟨rfl, rfl, rfl⟩)⟩

end Decoding

end DerTemplate

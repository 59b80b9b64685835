import StackCompiler.Proofs.Lowering.Direct.Module

-- What a lowering computation can do from a state: it ends well in a state that meets a condition,
-- or with an error for which the code it lowers is to blame.

namespace StackCompiler

-- The errors that stack code can cause. Of the broken rules of construction there is only one, a
-- region that leaves more or less than its result on the stack.
def CompileError.Benign : CompileError → Prop
  | .invariant (.regionOperands count) => count ≠ 1
  | .invariant _ | .dangling _ => False
  | _ => True

namespace Lowering.Direct

def Meets (x : Lower α) (s : State) (Q : α → State → Prop) : Prop :=
  match x s with
  | .ok a t => Q a t
  | .error e _ => e.Benign

variable {x : Lower α} {k : α → Lower β} {s t : State} {a : α}

theorem Meets.of_ok {Q : α → State → Prop} (h : Meets x s Q) (hx : x s = .ok a t) : Q a t := by
  simpa [Meets, hx] using h

theorem Meets.benign {Q : α → State → Prop} {e : CompileError} (h : Meets x s Q)
    (hx : x s = .error e t) : e.Benign := by
  simpa [Meets, hx] using h

theorem Meets.mono {Q R : α → State → Prop} (h : Meets x s Q) (hr : ∀ a t, Q a t → R a t) :
    Meets x s R := by
  unfold Meets at h ⊢
  split
  case h_1 a t hx => exact hr a t (by simpa [hx] using h)
  case h_2 hx => simpa [hx] using h

-- The result may be remembered.
theorem Meets.eq_ok {Q : α → State → Prop} (h : Meets x s Q) :
    Meets x s fun a t => x s = .ok a t ∧ Q a t := by
  unfold Meets at h ⊢
  split
  case h_1 hx => exact ⟨hx, by simpa [hx] using h⟩
  case h_2 hx => simpa [hx] using h

theorem Meets.and {Q R : α → State → Prop} (hq : Meets x s Q) (hr : Meets x s R) :
    Meets x s fun a t => Q a t ∧ R a t := by
  unfold Meets at hq hr ⊢
  split
  case h_1 hx => exact ⟨by simpa [hx] using hq, by simpa [hx] using hr⟩
  case h_2 hx => simpa [hx] using hq

@[simp]
theorem meets_bind {Q : β → State → Prop} :
    Meets (x >>= k) s Q ↔ Meets x s fun a t => Meets (k a) t Q := by
  simp only [Meets, bind, EStateM.bind]
  cases x s <;> rfl

theorem Meets.bind {Q : α → State → Prop} {R : β → State → Prop} (h : Meets x s Q)
    (hk : ∀ a t, Q a t → Meets (k a) t R) : Meets (x >>= k) s R :=
  meets_bind.mpr (h.mono hk)

theorem get_eq_ok (s : State) : (get : Lower State) s = .ok s s :=
  rfl

variable {Q : α → State → Prop} {R : Unit → State → Prop}

@[simp]
theorem meets_pure : Meets (pure a) s Q ↔ Q a s :=
  .rfl

@[simp]
theorem meets_get {Q : State → State → Prop} : Meets get s Q ↔ Q s s :=
  .rfl

@[simp]
theorem meets_set : Meets (set t) s R ↔ R () t :=
  .rfl

@[simp]
theorem meets_modify {g : State → State} : Meets (modify g) s R ↔ R () (g s) :=
  .rfl

@[simp]
theorem meets_throw {e : CompileError} : Meets (throw e) s Q ↔ e.Benign :=
  .rfl

@[simp]
theorem meets_map {g : α → β} {Q : β → State → Prop} :
    Meets (g <$> x) s Q ↔ Meets x s fun a t => Q (g a) t := by
  simp only [Meets, Functor.map, EStateM.map]
  cases x s <;> rfl

@[simp]
theorem meets_discard : Meets (discard x) s R ↔ Meets x s fun _ t => R () t := by
  simp [discard, Functor.discard, Functor.mapConst, EStateM.map, Meets]
  cases x s <;> rfl

@[simp]
theorem meets_ofExcept_ok : Meets (ofExcept (.ok a)) s Q ↔ Q a s :=
  .rfl

@[simp]
theorem meets_ofExcept_error {e : CompileError} :
    Meets (ofExcept (.error e) : Lower α) s Q ↔ e.Benign :=
  .rfl

theorem meets_ofExcept {y : Except CompileError α} (hok : ∀ a, y = .ok a → Q a s)
    (herr : ∀ e, y = .error e → e.Benign) : Meets (ofExcept y) s Q := by
  cases y
  case ok a => exact hok a rfl
  case error e => exact herr e rfl

theorem benign_of_signature_result {sig : Bytecode.Signature} {e : CompileError}
    (h : sig.result = .error e) : e.Benign := by
  simp only [Bytecode.Signature.result] at h
  split at h <;> cases h
  trivial

theorem meets_ite {c : Prop} [Decidable c] {y : Lower α} :
    Meets (if c then x else y) s Q ↔ (c → Meets x s Q) ∧ (¬c → Meets y s Q) := by
  by_cases hc : c <;> simp [hc]

@[simp]
theorem meets_note {e : Event} : Meets (note e) s R ↔ R () { s with journal := s.journal.record e } :=
  .rfl

@[simp]
theorem meets_setBlock {b : Ssa.BlockId} : Meets (setBlock b) s R ↔ R () { s with block := b } :=
  .rfl

theorem meets_lift {y : Journaled CompileError α} {j : Journal} (hy : y s.journal = .ok a j) :
    Meets (liftM y) s Q ↔ Q a { s with journal := j } := by
  simp only [Meets, liftM, monadLift, MonadLift.monadLift, zoom, hy]

end Lowering.Direct

end StackCompiler

import StackCompiler.Proofs.Lowering.Direct.Module

-- The lowering that goes through a builder and the direct one side by side. Up to the instructions
-- that open, leave or close a region, the numbered results and the regions do not matter.

namespace StackCompiler.Lowering

open Ssa (BlockId Build Builder Function Op ValueId)

-- The state that stands for `u` while functions are added to `M`.
def State.ofDirect (M : Ssa.Module) (u : Direct.State) (phis : List Result) (regions : List Region) :
    State where
  journal := u.journal
  blockCount := u.blockCount
  builder := { module := M, function := some u.function, block := some u.block }
  stack := u.stack
  phis := phis
  regions := regions
  isDead := u.isDead
  isEnded := u.isEnded

section

variable {M : Ssa.Module} {u : Direct.State} {phis : List Result} {regions : List Region}

@[simp]
theorem State.ofDirect_stack : (State.ofDirect M u phis regions).stack = u.stack :=
  rfl

@[simp]
theorem State.ofDirect_phis : (State.ofDirect M u phis regions).phis = phis :=
  rfl

@[simp]
theorem State.ofDirect_regions : (State.ofDirect M u phis regions).regions = regions :=
  rfl

end

-- Two computations end well together, with what `Q` says of both, or with the same error. An error
-- leaves the same journal, and the functions that were finished before.
def Tracks (fs : List Function) (x : Lower α) (t : State) (y : Direct.Lower β) (u : Direct.State)
    (Q : α → State → β → Direct.State → Prop) : Prop :=
  match x t, y u with
  | .ok a t, .ok b u => Q a t b u
  | .error e t, .error e' u => e = e' ∧ t.journal = u.journal ∧ t.builder.module.functions = fs
  | _, _ => False

section Tracks

variable {fs : List Function} {x : Lower α} {t : State} {y : Direct.Lower β} {u : Direct.State}
variable {Q Q' : α → State → β → Direct.State → Prop}

theorem Tracks.mono (h : Tracks fs x t y u Q) (hq : ∀ a t b u, Q a t b u → Q' a t b u) :
    Tracks fs x t y u Q' := by
  unfold Tracks at h ⊢
  cases hx : x t <;> cases hy : y u <;> simp only [hx, hy] at h ⊢
  case ok.ok => exact hq _ _ _ _ h
  case error.error => exact h

theorem Tracks.of_ok {a : α} {t' : State} (h : Tracks fs x t y u Q) (hx : x t = .ok a t') :
    ∃ b u', y u = .ok b u' ∧ Q a t' b u' := by
  unfold Tracks at h
  cases hy : y u <;> simp only [hx, hy] at h
  exact ⟨_, _, rfl, h⟩

theorem Tracks.of_ok_right {b : β} {u' : Direct.State} (h : Tracks fs x t y u Q)
    (hy : y u = .ok b u') : ∃ a t', x t = .ok a t' ∧ Q a t' b u' := by
  unfold Tracks at h
  cases hx : x t <;> simp only [hx, hy] at h
  exact ⟨_, _, rfl, h⟩

-- More functions may be finished in what follows.
theorem Tracks.bind_of {α' β' : Type} {fs' : List Function} {f : α → Lower α'}
    {g : β → Direct.Lower β'} {R : α' → State → β' → Direct.State → Prop} (h : Tracks fs x t y u Q)
    (herror : ∀ e v, y u = .error e v → fs = fs')
    (hok : ∀ a t b v, y u = .ok b v → Q a t b v → Tracks fs' (f a) t (g b) v R) :
    Tracks fs' (x >>= f) t (y >>= g) u R := by
  unfold Tracks at h
  cases hx : x t <;> cases hy : y u <;> simp only [hx, hy] at h
  case ok.ok =>
    rw [Tracks, bind_eq_of_eq_ok hx, bind_eq_of_eq_ok hy]
    exact hok _ _ _ _ hy h
  case error.error =>
    rw [Tracks, bind_eq_of_eq_error hx, bind_eq_of_eq_error hy]
    exact herror _ _ hy ▸ h

theorem Tracks.bind {α' β' : Type} {f : α → Lower α'} {g : β → Direct.Lower β'}
    {R : α' → State → β' → Direct.State → Prop} (h : Tracks fs x t y u Q)
    (hk : ∀ a t b u, Q a t b u → Tracks fs (f a) t (g b) u R) :
    Tracks fs (x >>= f) t (y >>= g) u R :=
  h.bind_of (fun _ _ _ => rfl) fun a t b v _ => hk a t b v

-- The second computation may go on, if it only looks at what there is.
theorem Tracks.look_right {k : β → Direct.Lower β'} {g : β → Direct.State → β'}
    {R : α → State → β' → Direct.State → Prop} (hk : ∀ b u, k b u = .ok (g b u) u)
    (h : Tracks fs x t y u fun a t b u => R a t (g b u) u) : Tracks fs x t (y >>= k) u R := by
  unfold Tracks at h ⊢
  cases hx : x t <;> cases hy : y u <;> simp only [hx, hy] at h
  case ok.ok =>
    rw [bind_eq_of_eq_ok hy, hk]
    exact h
  case error.error =>
    rw [bind_eq_of_eq_error hy]
    exact h

theorem Tracks.get {f : State → Lower α} {g : Direct.State → Direct.Lower β}
    (h : Tracks fs (f t) t (g u) u Q) : Tracks fs (get >>= f) t (get >>= g) u Q :=
  h

theorem Tracks.set {f : PUnit → Lower α} {g : PUnit → Direct.Lower β} {t' : State} {u' : Direct.State}
    (h : Tracks fs (f ⟨⟩) t' (g ⟨⟩) u' Q) : Tracks fs (set t' >>= f) t (set u' >>= g) u Q :=
  h

theorem Tracks.modify_left {f : PUnit → Lower α} {h : State → State}
    (hf : Tracks fs (f ⟨⟩) (h t) y u Q) : Tracks fs (modify h >>= f) t y u Q :=
  hf

theorem Tracks.ite {c : Prop} [Decidable c] {x' : Lower α} {y' : Direct.Lower β}
    (hp : c → Tracks fs x t y u Q) (hn : ¬c → Tracks fs x' t y' u Q) :
    Tracks fs (if c then x else x') t (if c then y else y') u Q := by
  split
  case isTrue h => exact hp h
  case isFalse h => exact hn h

end Tracks

-- What is left of two computations that touch no region.
def Framed (M : Ssa.Module) (phis : List Result) (regions : List Region) (u : Direct.State) :
    α → State → α → Direct.State → Prop :=
  fun a t b v => a = b ∧ t = .ofDirect M v phis regions ∧ v.regions = u.regions

-- Two computations do the same whatever the regions are, as long as the innermost ones begin at the
-- same height.
def Frames (x : Lower α) (y : Direct.Lower α) : Prop :=
  ∀ M u phis regions, (State.ofDirect M u phis regions).floor = u.floor →
    Tracks M.functions x (.ofDirect M u phis regions) y u (Framed M phis regions u)

namespace Frames

variable {x : Lower α} {y : Direct.Lower α}

theorem bind {f : α → Lower β} {g : α → Direct.Lower β} (h : Frames x y)
    (hk : ∀ a, Frames (f a) (g a)) : Frames (x >>= f) (y >>= g) := by
  intro M u phis regions hl
  refine (h M u phis regions hl).bind ?_
  rintro a _ _ v ⟨rfl, rfl, hv⟩
  have hfloor : v.floor = u.floor := by simp only [Direct.State.floor, hv]
  refine (hk a M v phis regions (hl.trans hfloor.symm)).mono ?_
  rintro b _ _ w ⟨rfl, rfl, hw⟩
  exact ⟨rfl, rfl, hw.trans hv⟩

theorem pure {a : α} : Frames (pure a) (pure a) :=
  fun _ _ _ _ _ => ⟨rfl, rfl, rfl⟩

theorem throw {e : CompileError} : Frames (throw e : Lower α) (throw e) :=
  fun _ _ _ _ _ => ⟨rfl, rfl, rfl⟩

theorem ite {c : Prop} [Decidable c] {x' : Lower α} {y' : Direct.Lower α} (h : Frames x y)
    (h' : Frames x' y') : Frames (if c then x else x') (if c then y else y') := by
  split
  case isTrue => exact h
  case isFalse => exact h'

theorem guard {c : Prop} [Decidable c] {e : CompileError} (h : Frames x y) :
    Frames
      (do
        if c then
          MonadExcept.throw e
        x)
      (do
        if c then
          MonadExcept.throw e
        y) :=
  .ite (.bind .throw fun _ => h) h

theorem map {f : α → β} (h : Frames x y) : Frames (f <$> x) (f <$> y) := by
  rw [map_eq_pure_bind, map_eq_pure_bind]
  exact h.bind fun _ => .pure

theorem discard (h : Frames x y) : Frames (Functor.discard x) (Functor.discard y) :=
  h.map

theorem ofExcept {r : Except CompileError α} : Frames (ofExcept r) (ofExcept r) := by
  cases r
  case ok => exact .pure
  case error => exact .throw

theorem note {e : Event} : Frames (note e) (Direct.note e) :=
  fun _ _ _ _ _ => ⟨rfl, rfl, rfl⟩

theorem journaled {x : Journaled CompileError α} : Frames (liftM x) (liftM x) := by
  intro M u phis regions _
  simp only [Tracks, liftM, monadLift, MonadLift.monadLift, zoom]
  have hj : (State.ofDirect M u phis regions).journal = u.journal := rfl
  rw [hj]
  cases x u.journal
  case ok => exact ⟨rfl, rfl, rfl⟩
  case error => exact ⟨rfl, rfl, rfl⟩

-- The function is open, and gets back what a change makes of it.
theorem edit {change : Function.Edit α} : Frames (liftM (Builder.edit change)) (Direct.edit change) := by
  intro M u phis regions _
  have he : Builder.edit change (State.ofDirect M u phis regions).builder =
      zoom (fun _ => u.function) (fun g b => { b with function := some g }) change
        (State.ofDirect M u phis regions).builder := rfl
  simp only [Tracks, liftM, monadLift, MonadLift.monadLift, zoom, Direct.edit, he]
  cases change u.function
  case ok => exact ⟨rfl, rfl, rfl⟩
  case error => exact ⟨rfl, rfl, rfl⟩

end Frames

section Primitives

variable {name opcode : String} {type : Option Scalar} {ty expected : Scalar} {op : Op} {v : ValueId}
variable {context : TypeContext}

theorem emit_frames : Frames (liftM (Builder.emit name type op)) (Direct.append name type op) := by
  intro M u phis regions hl
  have h : Frames (liftM (Builder.edit (Function.append u.block name type op)))
    (Direct.edit (Function.append u.block name type op)) := .edit
  exact h M u phis regions hl

theorem define_frames : Frames (define name ty op) (Direct.define name ty op) :=
  emit_frames

theorem perform_frames : Frames (perform op) (Direct.perform op) :=
  emit_frames.discard

theorem newBlock_frames : Frames newBlock Direct.newBlock :=
  fun _ _ _ _ _ => ⟨rfl, rfl, rfl⟩

theorem setBlock_frames {b : BlockId} : Frames (liftM (Builder.setBlock b)) (Direct.setBlock b) :=
  fun _ _ _ _ _ => ⟨rfl, rfl, rfl⟩

theorem push_frames : Frames (push v) (Direct.push v) :=
  fun _ _ _ _ _ => ⟨rfl, rfl, rfl⟩

theorem pushComparison_frames {lhs rhs : ValueId} {cond : Comparison} :
    Frames (pushComparison lhs cond rhs) (Direct.pushComparison lhs cond rhs) :=
  fun _ _ _ _ _ => ⟨rfl, rfl, rfl⟩

theorem truncate_frames {height : Nat} : Frames (truncate height) (Direct.truncate height) :=
  fun _ _ _ _ _ => ⟨rfl, rfl, rfl⟩

-- Asking for a type changes nothing.
theorem typeOf_tracks (M : Ssa.Module) (u : Direct.State) (phis : List Result)
    (regions : List Region) : Tracks M.functions (typeOf v) (.ofDirect M u phis regions) (Direct.typeOf v) u
      fun a t b w => a = b ∧ t = .ofDirect M u phis regions ∧ w = u := by
  have he : Builder.typeOf v (State.ofDirect M u phis regions).builder =
      (ofExcept (u.function.typeOf v) : Build (Option Scalar))
        (State.ofDirect M u phis regions).builder := rfl
  have hx : (liftM (Builder.typeOf v) : Lower (Option Scalar)) (.ofDirect M u phis regions) =
      (ofExcept (u.function.typeOf v) : Lower (Option Scalar)) (.ofDirect M u phis regions) := by
    simp only [liftM, monadLift, MonadLift.monadLift, zoom, he]
    cases u.function.typeOf v <;> rfl
  rw [typeOf, Direct.typeOf, Tracks, get_bind]
  cases h : u.function.typeOf v <;> rw [h] at hx
  case error e =>
    rw [bind_eq_of_eq_error hx]
    exact ⟨rfl, rfl, rfl⟩
  case ok type =>
    rw [bind_eq_of_eq_ok hx]
    cases type <;> exact ⟨rfl, rfl, rfl⟩

theorem typeOf_frames : Frames (typeOf v) (Direct.typeOf v) := by
  intro M u phis regions _
  refine (typeOf_tracks M u phis regions).mono ?_
  rintro a _ _ _ ⟨rfl, rfl, rfl⟩
  exact ⟨rfl, rfl, rfl⟩

theorem expectType_frames : Frames (expectType context expected v) (Direct.expectType context expected v) :=
  typeOf_frames.bind fun _ => .ite .throw .pure

end Primitives

section Operands

variable {opcode : String} {type expected : Scalar} {context : TypeContext}

theorem deadOperand_frames : Frames (deadOperand type) (Direct.deadOperand type) :=
  define_frames

theorem popOperand_frames : Frames (popOperand opcode) (Direct.popOperand opcode) := by
  intro M u phis regions hl
  refine .get ?_
  rw [hl]
  refine .ite (fun _ => .ite (fun _ => ?dead) fun _ => ?underflow) fun _ => ?taken
  case dead => exact (deadOperand_frames.bind fun _ => .pure) M u phis regions hl
  case underflow => exact Frames.throw M u phis regions hl
  case taken =>
    rw [State.ofDirect_stack]
    cases u.stack
    case nil => exact Frames.throw M u phis regions hl
    case cons => exact ⟨rfl, rfl, rfl⟩

theorem popValue_frames : Frames (popValue opcode) (Direct.popValue opcode) := by
  refine popOperand_frames.bind fun o => ?_
  cases o
  case value => exact .pure
  case comparison => exact .throw

theorem popTyped_frames :
    Frames (popTyped opcode context expected) (Direct.popTyped opcode context expected) := by
  intro M u phis regions hl
  refine .get ?_
  rw [hl]
  refine .ite (fun _ => deadOperand_frames M u phis regions hl) fun _ => ?_
  exact (popValue_frames.bind fun _ => expectType_frames.bind fun _ => .pure) M u phis regions hl

theorem peekValue_tracks {M : Ssa.Module} {u : Direct.State} {phis : List Result}
    {regions : List Region} (hl : (State.ofDirect M u phis regions).floor = u.floor) :
    Tracks M.functions (peekValue opcode) (.ofDirect M u phis regions) (Direct.peekValue opcode) u
      fun a t b w => a = b ∧ t = .ofDirect M u phis regions ∧ w = u := by
  refine .get ?_
  rw [State.ofDirect_stack]
  cases u.stack
  case nil => exact ⟨rfl, rfl, rfl⟩
  case cons o rest =>
    cases o
    case comparison => exact ⟨rfl, rfl, rfl⟩
    case value =>
      dsimp only
      rw [hl]
      exact .ite (fun _ => ⟨rfl, rfl, rfl⟩) fun _ => ⟨rfl, rfl, rfl⟩

theorem peekValue_frames : Frames (peekValue opcode) (Direct.peekValue opcode) := by
  intro M u phis regions hl
  refine (peekValue_tracks hl).mono ?_
  rintro a _ _ _ ⟨rfl, rfl, rfl⟩
  exact ⟨rfl, rfl, rfl⟩

theorem popCondition_frames : Frames (popCondition opcode) (Direct.popCondition opcode) := by
  refine popOperand_frames.bind fun o => ?_
  cases o
  case comparison => exact .pure
  case value =>
    exact typeOf_frames.bind fun _ => .ite (.bind .throw fun _ => .bind define_frames fun _ => .pure)
      (define_frames.bind fun _ => .pure)

theorem popArguments_frames {types : List Scalar} :
    Frames (popArguments opcode types) (Direct.popArguments opcode types) := by
  induction types
  case nil => exact .pure
  case cons hi => exact hi.bind fun _ => popTyped_frames.bind fun _ => .pure

theorem emitReturn_frames {result : Option Scalar} :
    Frames (emitReturn result opcode) (Direct.emitReturn result opcode) := by
  cases result
  case none => exact perform_frames
  case some => exact popTyped_frames.bind fun _ => perform_frames

theorem emitReturnKeep_frames {result : Option Scalar} :
    Frames (emitReturnKeep result opcode) (Direct.emitReturnKeep result opcode) := by
  cases result
  case none => exact perform_frames
  case some => exact peekValue_frames.bind fun _ => expectType_frames.bind fun _ => perform_frames

theorem enterDeadBlock_frames : Frames enterDeadBlock Direct.enterDeadBlock := by
  refine newBlock_frames.bind fun _ => setBlock_frames.bind fun _ => ?_
  intro M u phis regions hl
  refine .get ?_
  rw [hl]
  exact ⟨rfl, rfl, rfl⟩

end Operands

end StackCompiler.Lowering

import StackCompiler.Proofs.Lowering.Meets
import StackCompiler.Proofs.Ssa.History

-- How the state in which a lowering computation ends is related to the one it began in: by `R` if it
-- ends well, and by `E` if it fails. The relation goes along with the computation if it goes along with
-- each of its parts.

namespace StackCompiler

-- The events that do not tell how much code was read or how much came out of it.
def Event.isIncidental : Event → Bool
  | .functionLowered .. | .instructionLowered _ | .blockCreated | .blocksPruned _ | .phiCreated => false
  | _ => true

-- The statistics without the calls, which are incidental too.
def Journal.totals (j : Journal) : Statistics :=
  { j.statistics with calls := 0 }

theorem Journal.totals_record {j : Journal} {e : Event} (h : e.isIncidental = true) :
    (j.record e).totals = j.totals := by
  rw [totals, statistics_record]
  cases e
  case functionLowered | instructionLowered | blockCreated | blocksPruned | phiCreated => cases h
  all_goals rfl

theorem Journal.totals_record_of_counted {j : Journal} {e : Event} (h : e.isIncidental = false) :
    (j.record e).totals = j.totals.record e := by
  rw [totals, statistics_record]
  cases e
  case functionLowered name blocks =>
    by_cases hb : j.statistics.largestBlocks < blocks <;> simp [totals, Statistics.record, hb]
  case instructionLowered | blockCreated | blocksPruned | phiCreated => rfl
  all_goals cases h

namespace Lowering.Direct

open Bytecode (Instruction)
open Ssa (BlockId Function Op ValueId)

def Relates (R E : State → State → Prop) (x : Lower α) (s : State) : Prop :=
  match x s with
  | .ok _ t => R s t
  | .error _ t => E s t

-- Relations that add up along a computation. One that fails has gone well up to there.
class Chain (R E : State → State → Prop) : Prop where
  refl : ∀ {s}, R s s
  trans : ∀ {s t u}, R s t → R t u → R s u
  stop : ∀ {s}, E s s
  fail : ∀ {s t u}, R s t → E t u → E s u

-- Nothing is asked of a computation that fails.
def State.Whatever (_ _ : State) : Prop :=
  True

variable {R E : State → State → Prop} {s t : State}

namespace Relates

variable {x y : Lower α} {k : α → Lower β} {a : α}

theorem of_ok (h : Relates R E x s) (hx : x s = .ok a t) : R s t := by
  simpa only [Relates, hx] using h

theorem of_error {e : CompileError} (h : Relates R E x s) (hx : x s = .error e t) : E s t := by
  simpa only [Relates, hx] using h

theorem ite {c : Prop} [Decidable c] (hx : Relates R E x s) (hy : Relates R E y s) :
    Relates R E (if c then x else y) s := by
  split
  case isTrue => exact hx
  case isFalse => exact hy

theorem modify {g : State → State} (h : R s (g s)) : Relates R E (modify g) s :=
  h

-- What is read is the state itself.
theorem get_bind {k : State → Lower β} (h : Relates R E (k s) s) : Relates R E (get >>= k) s :=
  h

variable [Chain R E]

theorem throw_bind {e : CompileError} : Relates R E (throw e >>= k) s :=
  Chain.stop R

theorem throw {e : CompileError} : Relates R E (throw e : Lower α) s :=
  Chain.stop R

theorem pure : Relates R E (pure a : Lower α) s :=
  Chain.refl E

theorem ofExcept {y : Except CompileError α} : Relates R E (ofExcept y : Lower α) s := by
  cases y
  case ok => exact .pure
  case error => exact .throw

theorem bind_of_ok (hx : x s = .ok a t) (h : R s t) (hk : Relates R E (k a) t) :
    Relates R E (x >>= k) s := by
  simp only [Relates, Bind.bind, EStateM.bind, hx] at hk ⊢
  split at hk
  case h_1 => exact Chain.trans E h hk
  case h_2 => exact Chain.fail h hk

theorem bind (hx : Relates R E x s) (hk : ∀ a t, Relates R E (k a) t) : Relates R E (x >>= k) s := by
  cases hs : x s
  case ok a t => exact bind_of_ok hs (hx.of_ok hs) (hk a t)
  case error => simpa only [Relates, Bind.bind, EStateM.bind, hs] using hx.of_error hs

theorem set_bind {k : Unit → Lower β} (h : R s t) (hk : Relates R E (k ()) t) :
    Relates R E (set t >>= k) s :=
  bind_of_ok rfl h hk

theorem map {g : α → β} (hx : Relates R E x s) : Relates R E (g <$> x) s := by
  rw [map_eq_pure_bind]
  exact hx.bind fun _ _ => .pure

end Relates

-- Nothing changes but the operands, the regions, the place where code is added and remarks in the
-- journal.
structure State.Quiet (s t : State) : Prop where
  function : t.function = s.function
  blockCount : t.blockCount = s.blockCount
  totals : t.journal.totals = s.journal.totals

-- Relations that go along with what happens inside of the active block: operations are added to it,
-- and operands come and go. An operand is made up in dead code only.
class Inner (R E : State → State → Prop) : Prop extends Chain R E where
  quiet : ∀ {s t : State}, s.Quiet t → t.block = s.block → t.isDead = s.isDead → R s t
  append : ∀ {s name type op}, Op.isTerminator op = false → Op.isPhi op = false →
    name ≠ "undef" ∨ s.isDead = true → Relates R E (append name type op) s

section Inside

variable [Inner R E] {cx : Context} {opcode name : String} {type : Scalar} {op : Op} {v : ValueId}
variable {index : Nat} {types : List Scalar}

theorem note_relates {e : Event} (he : e.isIncidental = true) : Relates R E (note e) s :=
  .modify (Inner.quiet E ⟨rfl, rfl, Journal.totals_record he⟩ rfl rfl)

theorem push_relates : Relates R E (push v) s :=
  .modify (Inner.quiet E ⟨rfl, rfl, rfl⟩ rfl rfl)

theorem pushComparison_relates {lhs rhs : ValueId} {cond : Comparison} :
    Relates R E (pushComparison lhs cond rhs) s :=
  .modify (Inner.quiet E ⟨rfl, rfl, rfl⟩ rfl rfl)

theorem accept_relates {subject : String} :
    Relates R E (Convention.accept subject types : Journaled CompileError Unit) s := by
  simp only [Relates, Convention.accept, liftM, monadLift, MonadLift.monadLift, zoom]
  cases Convention.assign types
  case ok => exact Chain.refl E
  case error cause =>
    let t : State := { s with journal := s.journal.record (.signatureRejected subject cause) }
    have hr : R s t := Inner.quiet E ⟨rfl, rfl, Journal.totals_record rfl⟩ rfl rfl
    exact Chain.fail hr (Chain.stop R)

theorem define_relates (ht : op.isTerminator = false) (hp : op.isPhi = false) (hn : name ≠ "undef") :
    Relates R E (define name type op) s :=
  Inner.append ht hp (.inl hn)

theorem perform_relates (ht : op.isTerminator = false) (hp : op.isPhi = false) :
    Relates R E (perform op) s :=
  (Inner.append ht hp (.inl (by decide))).map

theorem deadOperand_relates (hd : s.isDead = true) : Relates R E (deadOperand type) s :=
  Inner.append rfl rfl (.inr hd)

theorem typeOf_relates : Relates R E (typeOf v) s := by
  refine .get_bind (.bind .ofExcept fun _ _ => ?_)
  split
  · exact .pure
  · exact .throw

theorem expectType_relates {context : TypeContext} : Relates R E (expectType context type v) s :=
  typeOf_relates.bind fun _ _ => .ite .throw .pure

theorem popOperand_relates : Relates R E (popOperand opcode) s := by
  refine .get_bind (.ite ?_ ?_)
  · split
    case isTrue hd => exact (deadOperand_relates hd).bind fun _ _ => .pure
    case isFalse => exact .throw
  · split
    · exact .throw
    · exact .set_bind (Inner.quiet E ⟨rfl, rfl, rfl⟩ rfl rfl) .pure

theorem popValue_relates : Relates R E (popValue opcode) s := by
  refine popOperand_relates.bind fun o _ => ?_
  cases o
  case value => exact .pure
  case comparison => exact .throw

theorem popTyped_relates {context : TypeContext} : Relates R E (popTyped opcode context type) s := by
  refine .get_bind ?_
  split
  case isTrue hd =>
    rw [Bool.and_eq_true] at hd
    exact deadOperand_relates hd.1
  case isFalse => exact popValue_relates.bind fun _ _ => expectType_relates.bind fun _ _ => .pure

theorem peekValue_relates : Relates R E (peekValue opcode) s := by
  refine .get_bind ?_
  split
  · exact .throw
  · exact .ite .pure .throw
  · exact .throw

theorem popCondition_relates : Relates R E (popCondition opcode) s := by
  refine popOperand_relates.bind fun o _ => ?_
  cases o
  case comparison => exact .pure
  case value v =>
    refine typeOf_relates.bind fun type _ => ?_
    have zero (u : State) :
        Relates R E (do return (v, Comparison.ne, ← define "zero" type (.const (.zero type)))) u :=
      (define_relates rfl rfl (by decide)).bind fun _ _ => .pure
    exact .ite .throw_bind (zero _)

theorem popArguments_relates : Relates R E (popArguments opcode types) s := by
  induction types generalizing s
  case nil => exact .pure
  case cons type types hi => exact hi.bind fun _ _ => popTyped_relates.bind fun _ _ => .pure

theorem localSet_relates : Relates R E (localSet cx opcode index) s :=
  .bind .ofExcept fun _ _ => popTyped_relates.bind fun _ _ =>
    (perform_relates rfl rfl).bind fun _ _ => .pure

theorem address_relates {offset : Nat} : Relates R E (address v offset) s :=
  (define_relates rfl rfl (by decide)).bind fun _ _ => define_relates rfl rfl (by decide)

theorem call_relates : Relates R E (call cx opcode index) s :=
  .bind .ofExcept fun _ _ => accept_relates.bind fun _ _ => .bind .ofExcept fun _ _ =>
    popArguments_relates.bind fun _ _ => (Inner.append rfl rfl (.inl (by decide))).bind fun _ _ =>
    (note_relates rfl).bind fun _ _ => .ite push_relates .pure

theorem mnemonic_ne {op : BinaryOp} {isFloat : Bool} : op.mnemonic isFloat ≠ "undef" := by
  cases op <;> cases isFloat <;> decide

-- The instructions that neither open nor leave nor close a region.
theorem step_inside_relates {i : Instruction}
    (hi : match i with
      | .block _ | .loop _ | .if_ _ | .else_ | .end_ | .br _ | .brIf _ | .return_ => False
      | _ => True) : Relates R E (step cx i) s := by
  have define_push (t : State) {name type op} (ht : Op.isTerminator op = false)
      (hp : Op.isPhi op = false) (hn : name ≠ "undef") :
      Relates R E (do push (← define name type op)) t :=
    (define_relates ht hp hn).bind fun _ _ => push_relates
  cases i
  case binary =>
    exact .ite .throw_bind <| popTyped_relates.bind fun _ _ => popTyped_relates.bind fun _ t =>
      define_push t rfl rfl mnemonic_ne
  case compare =>
    exact .ite .throw_bind <| popTyped_relates.bind fun _ _ => popTyped_relates.bind fun _ _ =>
      pushComparison_relates
  case eqz =>
    exact popTyped_relates.bind fun _ _ => (define_relates rfl rfl (by decide)).bind fun _ _ =>
      pushComparison_relates
  case neg =>
    exact .ite .throw_bind <| popTyped_relates.bind fun _ t => define_push t rfl rfl (by decide)
  case floor =>
    exact .ite .throw_bind <| popTyped_relates.bind fun _ _ =>
      (define_relates rfl rfl (by decide)).bind fun _ t => define_push t rfl rfl (by decide)
  case const => exact define_push s rfl rfl (by decide)
  case localGet => exact .bind .ofExcept fun _ t => define_push t rfl rfl (by decide)
  case localSet => exact localSet_relates.map
  case localTee => exact localSet_relates.bind fun _ _ => push_relates
  case globalGet =>
    exact .bind .ofExcept fun _ _ => (define_relates rfl rfl (by decide)).bind fun _ t =>
      define_push t rfl rfl (by decide)
  case globalSet =>
    exact .bind .ofExcept fun _ _ => .ite .throw_bind <| popTyped_relates.bind fun _ _ =>
      (define_relates rfl rfl (by decide)).bind fun _ _ => perform_relates rfl rfl
  case load =>
    exact popTyped_relates.bind fun _ _ => address_relates.bind fun _ t =>
      define_push t rfl rfl (by decide)
  case store =>
    exact popTyped_relates.bind fun _ _ => popTyped_relates.bind fun _ _ =>
      address_relates.bind fun _ _ => perform_relates rfl rfl
  case call => exact call_relates
  case drop => exact popOperand_relates.map
  case nop => exact .pure
  case block | loop | if_ | else_ | end_ | br | brIf | return_ => exact hi.elim
  all_goals exact .throw

theorem local_ne : "local" ++ toString index ≠ "undef" := by
  intro h
  have := congrArg String.toList h
  simp at this

theorem allocLocal_relates : Relates R E (allocLocal index type) s :=
  define_relates rfl rfl local_ne

theorem declareParams_relates
    (hp : ∀ (s : State) name type, R s { s with function := (s.function.addParam name type).2 }) :
    Relates R E (declareParams index types) s := by
  induction types generalizing s index
  case nil => exact .pure
  case cons type types hi =>
    exact .get_bind <| .set_bind (hp ..) <| allocLocal_relates.bind fun _ _ =>
      (perform_relates rfl rfl).bind fun _ _ => hi.bind fun _ _ => .pure

theorem declareLocals_relates {function : String} :
    Relates R E (declareLocals function index types) s := by
  induction types generalizing s index
  case nil => exact .pure
  case cons type types hi =>
    exact allocLocal_relates.bind fun _ _ => (define_relates rfl rfl (by decide)).bind fun _ _ =>
      (perform_relates rfl rfl).bind fun _ _ => (note_relates rfl).bind fun _ _ =>
      hi.bind fun _ _ => .pure

end Inside

-- Relations that go along with whatever an instruction does. A phi is announced before it is added.
class Throughout (R E : State → State → Prop) : Prop extends Chain R E where
  quiet : ∀ {s t : State}, s.Quiet t → R s t
  newBlock : ∀ {s}, Relates R E newBlock s
  append : ∀ {s : State} {name type op v f}, Op.isPhi op = false →
    Function.append s.block name type op s.function = .ok v f → R s { s with function := f }
  retarget : ∀ {s : State} {b old new f}, Function.retarget b old new s.function = .ok () f →
    R s { s with function := f }
  phi : ∀ {s : State} {name type incoming v f}, incoming ≠ [] →
    Function.append s.block name type (.phi incoming) s.function = .ok v f →
    R s { s with journal := s.journal.record .phiCreated, function := f }
  announced : ∀ {s : State}, E s { s with journal := s.journal.record .phiCreated }

section Primitives

variable {b : BlockId} {name : String} {type : Option Scalar} {op : Op} {v : ValueId} {f : Function}

theorem append_eq_of_ok (h : Function.append s.block name type op s.function = .ok v f) :
    append name type op s = .ok v { s with function := f } :=
  edit_eq_of_ok h

theorem append_eq_of_error {e : CompileError}
    (h : Function.append s.block name type op s.function = .error e f) :
    append name type op s = .error e s := by
  cases Function.eq_of_append_error h
  exact edit_eq_of_error h

variable [Throughout R E]

theorem append_relates (hp : op.isPhi = false) : Relates R E (append name type op) s := by
  cases h : Function.append s.block name type op s.function
  case error =>
    rw [Relates, append_eq_of_error h]
    exact Chain.stop R
  case ok r =>
    rw [Relates, append_eq_of_ok h]
    exact Throughout.append E hp h

instance : Inner R E where
  quiet hq _ _ := Throughout.quiet E hq
  append _ hp _ := append_relates hp

theorem terminate_relates (hp : op.isPhi = false) : Relates R E (perform op) s :=
  (append_relates hp).map

theorem setBlock_relates : Relates R E (setBlock b) s :=
  .modify (Throughout.quiet E ⟨rfl, rfl, rfl⟩)

theorem truncate_relates {height : Nat} : Relates R E (truncate height) s :=
  .modify (Throughout.quiet E ⟨rfl, rfl, rfl⟩)

end Primitives

section Regions

variable [Throughout R E] {cx : Context} {region : Region} {r : Result} {result : Option Scalar}
variable {b old new : BlockId} {v : ValueId} {opcode : String} {depth : Nat}

theorem fill_relates : Relates R E (fill r v) s :=
  expectType_relates.bind fun _ _ => .get_bind .pure

theorem popResult_relates : Relates R E (popResult region r) s := by
  refine .get_bind (.ite .throw_bind ?_)
  split
  · exact .set_bind (Throughout.quiet E ⟨rfl, rfl, rfl⟩) fill_relates
  · exact .throw

theorem closeRegion_relates : Relates R E (closeRegion region b) s := by
  refine .get_bind (.ite ?dead ?live)
  case dead => exact truncate_relates.bind fun _ _ => (terminate_relates rfl).bind fun _ _ => .pure
  case live =>
    have leave (result : Option Result) (t : State) :
        Relates R E (do truncate region.height; perform (.jump b); return result) t :=
      truncate_relates.bind fun _ _ => (terminate_relates rfl).bind fun _ _ => .pure
    cases region.result
    case none => exact .bind .pure leave
    case some => exact popResult_relates.map.bind leave

theorem resumeAt_relates : Relates R E (resumeAt region b) s :=
  setBlock_relates.bind fun _ _ => .modify (Throughout.quiet E ⟨rfl, rfl, rfl⟩)

theorem pushResult_relates : Relates R E (pushResult r) s := by
  unfold pushResult
  split
  case isTrue => exact (append_relates rfl).bind fun _ _ => push_relates
  case isFalse hi =>
    let t : State := { s with journal := s.journal.record .phiCreated }
    have hphi : Relates R E (note .phiCreated *> define "block_result" r.type (.phi r.incoming)) s := by
      have hx : (note .phiCreated *> define "block_result" r.type (.phi r.incoming)) s =
        append "block_result" r.type (.phi r.incoming) t := rfl
      cases h : t.function.append t.block "block_result" r.type (.phi r.incoming)
      case error =>
        rw [Relates, hx, append_eq_of_error h]
        exact Throughout.announced R
      case ok x =>
        rw [Relates, hx, append_eq_of_ok h]
        exact Throughout.phi E (by simpa using hi) h
    exact hphi.bind fun _ _ => push_relates

theorem branchTarget_relates : Relates R E (branchTarget opcode depth) s := by
  refine .get_bind (.ite .pure ?_)
  split
  · exact .throw
  · split
    · exact .pure
    · have leave (region : Region) (target : Target) (t : State) : Relates R E (do
          modify fun s => { s with regions := s.regions.set depth region }
          return target) t :=
        .bind (.modify (Throughout.quiet E ⟨rfl, rfl, rfl⟩)) fun _ _ => .pure
      split
      · exact .bind .pure fun _ _ => leave ..
      · exact peekValue_relates.bind fun _ _ => fill_relates.map.bind fun _ _ => leave ..

theorem enterDeadBlock_relates : Relates R E enterDeadBlock s :=
  Throughout.newBlock.bind fun _ _ => setBlock_relates.bind fun _ _ =>
    .get_bind (truncate_relates.bind fun _ _ => .modify (Throughout.quiet E ⟨rfl, rfl, rfl⟩))

theorem emitReturn_relates : Relates R E (emitReturn result opcode) s := by
  cases result
  case none => exact terminate_relates rfl
  case some => exact popTyped_relates.bind fun _ _ => terminate_relates rfl

theorem emitReturnKeep_relates : Relates R E (emitReturnKeep result opcode) s := by
  cases result
  case none => exact terminate_relates rfl
  case some =>
    exact peekValue_relates.bind fun _ _ => expectType_relates.bind fun _ _ => terminate_relates rfl

theorem openRegion_relates {kind : RegionKind} {after : Option Result} :
    Relates R E (openRegion kind b after) s :=
  .modify (Throughout.quiet E ⟨rfl, rfl, rfl⟩)

theorem retarget_relates : Relates R E (edit (Function.retarget b old new)) s := by
  cases h : Function.retarget b old new s.function
  case error =>
    cases Function.eq_of_retarget_error h
    rw [Relates, edit_eq_of_error h]
    exact Chain.stop R
  case ok =>
    rw [Relates, edit_eq_of_ok h]
    exact Throughout.retarget E h

theorem retargetAll_relates {sources : List BlockId} : Relates R E (retargetAll sources old new) s := by
  induction sources generalizing s
  case nil => exact .pure
  case cons b sources hi => exact retarget_relates.bind fun _ _ => hi

theorem startElse_relates : Relates R E startElse s := by
  refine .get_bind ?_
  split
  · exact .throw
  · split
    · exact .set_bind (Throughout.quiet E ⟨rfl, rfl, rfl⟩) <| Throughout.newBlock.bind fun _ _ =>
        closeRegion_relates.bind fun _ _ => retargetAll_relates.bind fun _ _ =>
        resumeAt_relates.bind fun _ _ => .modify (Throughout.quiet E ⟨rfl, rfl, rfl⟩)
    · exact .throw

theorem close_relates : Relates R E close s := by
  refine .get_bind ?_
  split
  · exact .set_bind (Throughout.quiet E ⟨rfl, rfl, rfl⟩) .pure
  · split
    · exact .throw
    · refine .set_bind (Throughout.quiet E ⟨rfl, rfl, rfl⟩) <| closeRegion_relates.bind fun result _ =>
        resumeAt_relates.bind fun _ _ => ?_
      cases result
      case none => exact .pure
      case some => exact pushResult_relates

theorem branch_relates : Relates R E (branch cx opcode depth) s := by
  refine .get_bind (.ite .pure (branchTarget_relates.bind fun target _ => ?_))
  cases target
  case block => exact (terminate_relates rfl).bind fun _ _ => enterDeadBlock_relates
  case body => exact emitReturn_relates.bind fun _ _ => enterDeadBlock_relates

theorem branchIf_relates : Relates R E (branchIf cx opcode depth) s := by
  refine popCondition_relates.bind fun _ _ =>
    .get_bind (.ite .pure (branchTarget_relates.bind fun target _ => ?_))
  cases target
  case block =>
    exact Throughout.newBlock.bind fun _ _ => (terminate_relates rfl).bind fun _ _ => setBlock_relates
  case body =>
    exact Throughout.newBlock.bind fun _ _ => Throughout.newBlock.bind fun _ _ =>
      (terminate_relates rfl).bind fun _ _ => setBlock_relates.bind fun _ _ =>
      emitReturnKeep_relates.bind fun _ _ => setBlock_relates

theorem step_relates {i : Instruction} : Relates R E (step cx i) s := by
  cases i
  case block | loop =>
    exact .bind .ofExcept fun _ _ => Throughout.newBlock.bind fun _ _ =>
      Throughout.newBlock.bind fun _ _ => (terminate_relates rfl).bind fun _ _ =>
      setBlock_relates.bind fun _ _ => openRegion_relates
  case if_ =>
    exact popCondition_relates.bind fun _ _ => Throughout.newBlock.bind fun _ _ =>
      Throughout.newBlock.bind fun _ _ => (terminate_relates rfl).bind fun _ _ =>
      setBlock_relates.bind fun _ _ => .bind .ofExcept fun _ _ => openRegion_relates
  case else_ => exact startElse_relates
  case end_ => exact close_relates
  case br => exact branch_relates
  case brIf => exact branchIf_relates
  case return_ =>
    exact .get_bind (.ite .pure (emitReturn_relates.bind fun _ _ => enterDeadBlock_relates))
  all_goals exact step_inside_relates trivial

-- What each instruction counts for is up to the relation.
theorem lowerCode_relates {function : String} {total position : Nat} {code : List Instruction}
    (hl : ∀ s opcode, R s { s with journal := s.journal.record (.instructionLowered opcode) }) :
    Relates R E (lowerCode cx function total position code) s := by
  induction code generalizing s position
  case nil => exact .pure
  case cons i code hi =>
    exact (note_relates rfl).bind fun _ _ => .get_bind <| .ite .throw_bind <|
      .bind (.modify (hl ..)) fun _ _ => step_relates.bind fun _ _ => hi

theorem closeBody_relates : Relates R E (closeBody result) s :=
  .get_bind (.ite .throw_bind (.ite (.ite (terminate_relates rfl) emitReturn_relates) .pure))

end Regions

end Lowering.Direct

end StackCompiler

import StackCompiler.Proofs.Simulation.Agreement

-- The instructions that compute: the code that they are lowered to does the same, step by step.

namespace StackCompiler

theorem Ssa.Function.HasType.type?_eq {f : Function} {v : ValueId} {ty : Scalar}
    (h : f.HasType v ty) : f.trimmed.type? v = some ty := by
  have ⟨d, hd, ht⟩ := h
  have hd : f.trimmed.value? v = some d := hd
  simp [Function.type?, hd, ht]

namespace Lowering.Direct

open Bytecode (Instruction Module Signature)
open Ssa (BlockId Datum Function Op ValueDef ValueId)

variable {I : Interpretation} {cx : Context} {f : Function} {s t : State} {m : Module}
variable {sig : Signature} {c : Stack.Config I} {e : Ssa.Config I} {i : Instruction}

-- The context knows what the instructions of a body in module `m` refer to.
structure Context.Describes (cx : Context) (m : Module) (sig : Signature) : Prop where
  global : ∀ {index : Nat} {slot : GlobalSlot}, cx.globals[index]? = some slot →
    ∃ g : Bytecode.Global, m.globals[index]? = some g ∧ g.type.scalar = slot.type ∧ slot.id = ⟨index⟩
  callee : ∀ {index : Nat} {callee : Callee}, cx.callees[index]? = some callee →
    m.signature? index = some callee.signature ∧ m.functionName index = callee.name
  result : sig.result = .ok cx.result
  distinct : (cx.locals.map Slot.address).Nodup

-- Both machines stand behind an instruction that was lowered in state `t`.
structure Beside (cx : Context) (f : Function) (t : State) (c c' : Stack.Config I)
    (e : Ssa.Config I) : Prop where
  agrees : Agrees cx f t c' e
  code : c'.code = c.code
  labels : c'.labels = c.labels

-- The single-assignment code does the same, or there is nothing to do.
def Answers (cx : Context) (f : Function) (t : State) (c : Stack.Config I) (e : Ssa.Config I)
    (x : I.Effect (Stack.Result I)) : Prop :=
  (∃ y, e.step f.trimmed = some y ∧
    Follows (Ssa.Config.step f.trimmed) (Beside cx f t c) x y) ∨
  ∃ c', x = pure (.run c') ∧ Beside cx f t c c' e

theorem begins_of_emit {name : String} {type : Option Scalar} {op : Op}
    (hc : s.block.index < s.function.blocks.size)
    (h : (s.emit name type op).function.Begins f) : s.function.Begins f :=
  (Function.Grows.emit hc).begins h

theorem read_eq {v : ValueId} {x : I.Value} (h : e.env v = some (.value x)) : e.read v = some x := by
  simp [Ssa.Config.read, h]

theorem Agrees.pop_values {a b : ValueId} {rest : List Operand} (h : Agrees cx f s c e)
    (hs : s.stack = .value a :: .value b :: rest) :
    ∃ x y stack, c.stack = .value x :: .value y :: stack ∧ e.env a = some (.value x.value) ∧
      e.env b = some (.value y.value) ∧ Agrees cx f (s.pop rest) { c with stack := stack } e := by
  have ⟨x, _, hx, ha, _, h⟩ := h.pop_value hs
  have ⟨y, stack, hy, hb, _, h⟩ := h.pop_value rfl
  have hy : _ = Stack.Operand.value y :: stack := hy
  exact ⟨x, y, stack, hy ▸ hx, ha, hb, h⟩

theorem Agrees.known_value {v : ValueId} (h : Agrees cx f s c e) (hm : .value v ∈ s.stack) :
    (s.function.value? v).isSome :=
  h.known _ hm v (by simp [Operand.values])

theorem Agrees.local {index : Nat} {slot : Slot} (h : Agrees cx f s c e)
    (hs : cx.locals[index]? = some slot) : ∃ x, c.locals[index]? = some x ∧ Stored e slot x := by
  have ⟨hi, hs⟩ := List.getElem?_eq_some_iff.mp hs
  have hi' : index < c.locals.length := h.locals.length_eq ▸ hi
  have hst : Stored e cx.locals[index] c.locals[index] := h.locals.get hi hi'
  exact ⟨c.locals[index], List.getElem?_eq_getElem hi', hs ▸ hst⟩

theorem Agrees.pop_args (args : List ValueId) {rest : List Operand} (h : Agrees cx f s c e)
    (hs : s.stack = args.reverse.map .value ++ rest) :
    ∃ xs stack, Stack.popValues args.length c.stack = some (xs, stack) ∧
      args.mapM e.read = some xs ∧ Agrees cx f (s.pop rest) { c with stack := stack } e := by
  induction args generalizing rest
  case nil =>
    subst hs
    exact ⟨[], c.stack, rfl, rfl, h⟩
  case cons a args hi =>
    have hs : s.stack = args.reverse.map .value ++ (.value a :: rest) := by simpa using hs
    have ⟨xs, stack, hpop, hread, h⟩ := hi hs
    have ⟨x, stack', hx, ha, _, h⟩ := h.pop_value rfl
    have hx : stack = .value x :: stack' := hx
    refine ⟨x.value :: xs, stack', ?_, ?_, h⟩
    · simp [Stack.popValues, hpop, hx, Stack.popValue]
    · simp [List.mapM_cons, read_eq ha, hread]

section Steps

variable {Rel : Stack.Config I → Ssa.Config I → Prop} {name : String} {type : Option Scalar} {op : Op}
variable {v a : ValueId} {x : I.Value} {d : Datum I} {ty : Scalar}

-- An instruction that yields nothing.
theorem Agrees.skip (h : Agrees cx f s c e) :
    Agrees cx f (s.emit name type op) c { e with rest := (s.emit name type op).after f } :=
  h.emit rfl rfl (fun _ => rfl) rfl

-- An operation whose value is left on the stack.
theorem Agrees.realizes_yield {p : I.Effect I.Value} (h : Agrees cx f s c e)
    (hb : (s.yield name ty op).function.Begins f) (hp : e.compute f.trimmed ty op = some p) :
    Realizes (Ssa.Config.step f.trimmed) Rel e p fun x e' =>
      Agrees cx f (s.yield name ty op) { c with stack := .value ⟨ty, x⟩ :: c.stack } e' :=
  (h.realizes hb hp).mono fun _ _ h => h.yield hb

theorem Agrees.step_store (h : Agrees cx f s c e)
    (hb : (s.emit name type (.store v a)).function.Begins f) (hv : e.env v = some (.value x))
    (ht : f.HasType v ty) (ha : e.env a = some d) :
    e.step f.trimmed = some (do
      let e' ← Ssa.Config.store { e with rest := (s.emit name type (.store v a)).after f } ty x d
      return .run e') := by
  rw [h.step_eq hb rfl]
  have hr : Ssa.Config.read { e with rest := (s.emit name type (.store v a)).after f } v = some x :=
    read_eq hv
  simp [Ssa.Config.execute, hr, ht.type?_eq, ha]

-- A store elsewhere is an operation of its own.
theorem Agrees.realizes_store {p : I.Effect Unit} (h : Agrees cx f s c e)
    (hb : (s.emit name type (.store v a)).function.Begins f) (hv : e.env v = some (.value x))
    (ht : f.HasType v ty) (ha : e.env a = some d)
    (hp : ∀ e' : Ssa.Config I, e'.store ty x d = p >>= fun _ => pure e') :
    Realizes (Ssa.Config.step f.trimmed) Rel e p fun _ =>
      Agrees cx f (s.emit name type (.store v a)) c := by
  refine .step ?_ fun _ => h.skip
  simp [h.step_store hb hv ht ha, hp]

-- A store in the slot of a local.
theorem Agrees.step_local {index : Nat} {slot : Slot} (h : Agrees cx f s c e)
    (hb : (s.emit name type (.store v slot.address)).function.Begins f)
    (hv : e.env v = some (.value x)) (ht : s.function.HasType v ty)
    (hn : (cx.locals.map Slot.address).Nodup) (hs : cx.locals[index]? = some slot) :
    ∃ old e', c.locals[index]? = some old ∧ e.step f.trimmed = some (pure (.run e')) ∧
      Agrees cx f (s.emit name type (.store v slot.address))
        { c with locals := c.locals.set index ⟨old.type, x⟩ } e' ∧ e'.env = e.env := by
  have ⟨_, _, hst⟩ := h.local hs
  have hstep := h.step_store hb hv (hb.keeps.hasType (Function.Keeps.emit.hasType ht)) hst.address
  have h₁ : Agrees cx f (s.emit name type (.store v slot.address)) c _ := h.skip
  have ⟨old, hold, h⟩ := h₁.store (x := x) hn hs
  exact ⟨old, _, hold, by simpa [Ssa.Config.store] using hstep, h, rfl⟩

theorem Agrees.skip_globalAddr {id : Ssa.GlobalId} {p : I.Effect α} {Q : α → Ssa.Config I → Prop}
    (h : Agrees cx f s c e) (hb : (s.emit name type (.globalAddr id)).function.Begins f)
    (hp : ∀ e', Assigned cx f s (s.emit name type (.globalAddr id)) c e (.global id) e' →
      Realizes (Ssa.Config.step f.trimmed) Rel e' p Q) :
    Realizes (Ssa.Config.step f.trimmed) Rel e p Q :=
  .skip (h.step_eq hb rfl) (hp _ (h.assign _))

theorem Agrees.realizes_address {base : ValueId} {offset : Nat} (h : Agrees cx f s c e)
    (hb : (s.address base offset).function.Begins f) (hx : e.env base = some (.value x))
    (hk : (s.function.value? base).isSome) :
    Realizes (Ssa.Config.step f.trimmed) Rel e (Stack.address x offset) fun y e' =>
      Agrees cx f (s.address base offset) c e' ∧
      e'.env (s.offset offset).function.freshValue = some (.value y) ∧
      ∀ {v}, (s.function.value? v).isSome → e'.env v = e.env v := by
  have hb₁ : (s.offset offset).function.Begins f := begins_of_emit (by
    simpa [State.offset, State.emit] using h.created) hb
  refine (h.realizes hb₁ rfl).bind fun o e₁ h₁ => ?_
  have hp : e₁.compute f.trimmed .ptr (.binary .add base s.function.freshValue) =
      some (I.binary .ptr .add x o) := by
    simp [Ssa.Config.compute, read_eq ((h₁.env hk).trans hx), read_eq h₁.value]
  refine (h₁.agrees.realizes hb hp).mono fun y e' h₂ => ⟨h₂.agrees, h₂.value, fun hv => ?_⟩
  exact (h₂.env (isSome_emit hv)).trans (h₁.env hv)

theorem Agrees.step_call {callee : String} {args : List ValueId} {xs : List I.Value}
    (h : Agrees cx f s c e)
    (hb : (s.emit name type (.call ⟨callee, args, type⟩)).function.Begins f)
    (hread : args.mapM e.read = some xs) :
    e.step f.trimmed = some (I.call callee xs >>= fun x =>
      let e' := { e with rest := (s.emit name type (.call ⟨callee, args, type⟩)).after f }
      pure (.run (if type.isSome then e'.assign s.function.freshValue (.value x) else e'))) := by
  have hread : args.mapM (Ssa.Config.read { e with
      rest := (s.emit name type (.call ⟨callee, args, type⟩)).after f }) = some xs := hread
  simp [h.step_eq hb rfl, Ssa.Config.execute, hread]

end Steps

-- The instruction performs an operation and goes on.
theorem Answers.of_realizes {p : I.Effect α} {next : α → Stack.Config I}
    (h : Realizes (Ssa.Config.step f.trimmed) (Beside cx f t c) e p fun v => Beside cx f t c (next v)) :
    Answers cx f t c e (p >>= fun v => pure (.run (next v))) :=
  .inl (h.follows fun _ _ h => h)

theorem Answers.push {stack : List (Stack.Operand I)} {ty : Scalar} {p : I.Effect I.Value}
    (h : Realizes (Ssa.Config.step f.trimmed) (Beside cx f t c) e p fun x =>
      Agrees cx f t { c with stack := .value ⟨ty, x⟩ :: stack }) :
    Answers cx f t c e (c.push stack ty p) :=
  .of_realizes (h.mono fun _ _ h => ⟨h, rfl, rfl⟩)

theorem State.Computes.answers (h : s.Computes cx i t) (hb : t.function.Begins f)
    (hd : cx.Describes m sig) (ha : Agrees cx f s c e) :
    ∃ x, c.execute m sig i = some x ∧ Answers cx f t c e x := by
  cases h
  case binary type op lhs rhs rest hs =>
    obtain ⟨y, x, stack, hc, hy, hx, h⟩ := ha.pop_values hs
    refine ⟨c.push stack type.scalar (I.binary type.scalar op x.value y.value), ?_, ?_⟩
    · simp [Stack.Config.execute, Stack.popValue, hc]
    · refine .push (h.realizes_yield hb ?_)
      simp [Ssa.Config.compute, read_eq hx, read_eq hy]
  case compare type op lhs rhs rest hs ht =>
    obtain ⟨y, x, stack, hc, hy, hx, h⟩ := ha.pop_values hs
    refine ⟨c.goOn (.comparison type.scalar x.value op y.value :: stack), ?_, ?_⟩
    · simp [Stack.Config.execute, Stack.popValue, hc]
    · refine .inr ⟨_, rfl, h.push (.comparison hx hy (hb.keeps.hasType ht)) ?_, rfl, rfl⟩
      have hl := ha.known_value (v := lhs) (by simp [hs])
      have hr := ha.known_value (v := rhs) (by simp [hs])
      simpa [Operand.values] using ⟨hl, hr⟩
  case eqz type v rest hs ht =>
    obtain ⟨x, stack, hc, hx, _, h⟩ := ha.pop_value hs
    have hv := ha.known_value (v := v) (by simp [hs])
    refine ⟨_, by simp [Stack.Config.execute, Stack.popValue, hc]; rfl, .of_realizes ?_⟩
    refine (h.realizes hb rfl).mono fun zero e' h' => ⟨?_, rfl, rfl⟩
    refine h'.agrees.push (.comparison ((h'.env hv).trans hx) h'.value (hb.keeps.hasType ?_)) ?_
    · exact Function.Keeps.emit.hasType ht
    · simpa [Operand.values, State.emit, State.pop] using isSome_emit hv
  case neg type v rest hs =>
    obtain ⟨x, stack, hc, hx, _, h⟩ := ha.pop_value hs
    refine ⟨c.push stack type.scalar (I.neg type.scalar x.value), ?_, ?_⟩
    · simp [Stack.Config.execute, Stack.popValue, hc]
    · refine .push (h.realizes_yield hb ?_)
      simp [Ssa.Config.compute, read_eq hx]
  case floor type v rest hs ht =>
    obtain ⟨x, stack, hc, hx, _, h⟩ := ha.pop_value hs
    have hb₁ := begins_of_emit (by simpa [State.emit] using h.created) hb
    have ht₁ := hb₁.keeps.hasType (Function.Keeps.emit.hasType ht)
    have ht₂ : f.HasType s.function.freshValue .i64 :=
      hb₁.keeps.hasType ⟨_, Function.emit_value?_freshValue, rfl⟩
    refine ⟨c.push stack type.scalar (I.cast type.scalar .i64 x.value >>= I.cast .i64 type.scalar),
      ?_, ?_⟩
    · simp [Stack.Config.execute, Stack.popValue, hc, Stack.Config.push]
    · refine .push <| (h.realizes hb₁ ?_).bind fun int e₁ h₁ => h₁.agrees.realizes_yield hb ?_
      · simp [Ssa.Config.compute, read_eq hx, ht₁.type?_eq]
      · have hv := h₁.value
        rw [State.pop_function] at hv
        simp [Ssa.Config.compute, read_eq hv, ht₂.type?_eq]
  case const value => exact ⟨_, rfl, .push (ha.realizes_yield hb rfl)⟩
  case localGet index slot hl =>
    obtain ⟨x, hx, hst⟩ := ha.local hl
    refine ⟨c.push c.stack slot.type (pure x.value), ?_, .push (ha.realizes_yield hb ?_)⟩
    · simp [Stack.Config.execute, hx, Stack.Config.push, ← hst.type]
    · simp [Ssa.Config.compute, hst.address, Ssa.Config.load, hst.value]
  case localSet index slot v rest hl hs ht =>
    obtain ⟨x, stack, hc, hx, _, h⟩ := ha.pop_value hs
    obtain ⟨old, e', hold, he, h, _⟩ := h.step_local hb hx ht hd.distinct hl
    refine ⟨_, ?_, .inl ⟨_, he, .pure ⟨h, rfl, rfl⟩⟩⟩
    simp [Stack.Config.execute, Stack.popValue, hc, show c.locals[index]? = _ from hold,
      Stack.Config.goOn]
  case localTee index slot v rest hl hs ht =>
    obtain ⟨x, stack, hc, hx, htx, h⟩ := ha.pop_value hs
    have hk := ha.known_value (v := v) (by simp [hs])
    obtain ⟨old, e', hold, he, h, henv⟩ := h.step_local hb hx ht hd.distinct hl
    have h := h.push (.value (x := x) (henv ▸ hx) htx) <| by
      simpa [Operand.values] using isSome_emit (s := s.pop rest) hk
    refine ⟨_, ?_, .inl ⟨_, he, .pure ⟨h, rfl, rfl⟩⟩⟩
    simp [Stack.Config.execute, Stack.popValue, hc, show c.locals[index]? = _ from hold,
      Stack.Config.goOn]
  case globalGet index slot hg =>
    obtain ⟨g, hg, ht, hid⟩ := hd.global hg
    have hb₁ := begins_of_emit (by simpa [State.emit] using ha.created) hb
    refine ⟨c.push c.stack slot.type (Interpretation.getGlobal slot.id), ?_, .push ?_⟩
    · simp [Stack.Config.execute, hg, ht, hid]
    · refine ha.skip_globalAddr hb₁ fun e₁ h₁ => h₁.agrees.realizes_yield hb ?_
      simp [Ssa.Config.compute, h₁.value, Ssa.Config.load]
  case load type offset align v rest hs =>
    obtain ⟨x, stack, hc, hx, _, h⟩ := ha.pop_value hs
    have hb₁ := begins_of_emit (by simpa [State.address, State.offset, State.emit] using ha.created) hb
    have hk := ha.known_value (v := v) (by simp [hs])
    refine ⟨c.push stack type.scalar (Stack.address x.value offset >>= I.load type.scalar), ?_, .push ?_⟩
    · simp [Stack.Config.execute, Stack.popValue, hc, Stack.Config.push]
    · refine (h.realizes_address hb₁ hx hk).bind fun a e₁ h₁ => ?_
      obtain ⟨h₁, ha, _⟩ := h₁
      refine h₁.realizes_yield hb ?_
      rw [State.offset_pop_function] at ha
      simp [Ssa.Config.compute, ha, Ssa.Config.load]
  case globalSet index slot v rest hg hs ht =>
    obtain ⟨x, stack, hc, hx, _, h⟩ := ha.pop_value hs
    obtain ⟨_, _, _, hid⟩ := hd.global hg
    have hk := ha.known_value (v := v) (by simp [hs])
    have hb₁ := begins_of_emit (by simpa [State.emit] using ha.created) hb
    have ht := hb₁.keeps.hasType (Function.Keeps.emit.hasType ht)
    refine ⟨Interpretation.setGlobal slot.id x.value >>= fun _ => c.goOn stack, ?_, .of_realizes ?_⟩
    · simp [Stack.Config.execute, Stack.popValue, hc, hid]
    · refine h.skip_globalAddr hb₁ fun e₁ h₁ => ?_
      refine (h₁.agrees.realizes_store hb ((h₁.env hk).trans hx) ht h₁.value fun _ => rfl).mono ?_
      exact fun _ _ h => ⟨h, rfl, rfl⟩
  case store type offset align v base rest hs ht =>
    obtain ⟨x, y, stack, hc, hx, hy, h⟩ := ha.pop_values hs
    have hk := ha.known_value (v := v) (by simp [hs])
    have hkb := ha.known_value (v := base) (by simp [hs])
    have hb₁ := begins_of_emit (by simpa [State.address, State.offset, State.emit] using ha.created) hb
    have ht := hb.keeps.hasType (Function.Keeps.emit.hasType (Function.Keeps.emit.hasType
      (Function.Keeps.emit.hasType ht)))
    refine ⟨Stack.address y.value offset >>= I.store type.scalar x.value >>= fun _ => c.goOn stack,
      ?_, .of_realizes ?_⟩
    · simp [Stack.Config.execute, Stack.popValue, hc]
    · refine (h.realizes_address hb₁ hy hkb).bind fun a e₁ h => ?_
      obtain ⟨h₁, ha, henv⟩ := h
      refine (h₁.realizes_store hb ((henv hk).trans hx) ht ha fun _ => rfl).mono ?_
      exact fun _ _ h => ⟨h, rfl, rfl⟩
  case drop o rest hs =>
    obtain ⟨x, stack, hc, _, h⟩ := ha.pop hs
    refine ⟨c.goOn stack, by simp [Stack.Config.execute, hc], .inr ⟨_, rfl, h, rfl, rfl⟩⟩
  case nop => exact ⟨_, rfl, .inr ⟨_, rfl, ha, rfl, rfl⟩⟩
  case call index callee result args rest j hcallee hr hs hl =>
    obtain ⟨hsig, hname⟩ := hd.callee hcallee
    obtain ⟨xs, stack, hpop, hread, h⟩ := ha.pop_args args hs
    cases hres : callee.signature.results
    case nil =>
      obtain rfl : none = result := by simpa [Bytecode.Signature.result, hres] using hr
      refine ⟨I.call callee.name xs >>= fun _ => c.goOn stack, ?_, .of_realizes ?_⟩
      · simp [Stack.Config.execute, hsig, hname, ← hl, hpop, hres]
      · exact .step (h.step_call hb hread) fun _ => ⟨h.skip.journal j, rfl, rfl⟩
    case cons type types =>
      obtain ⟨rfl, rfl⟩ : types = [] ∧ some type.scalar = result := by
        cases types <;> simp_all [Bytecode.Signature.result]
      refine ⟨c.push stack type.scalar (I.call callee.name xs), ?_, .push ?_⟩
      · simp [Stack.Config.execute, hsig, hname, ← hl, hpop, hres, Stack.Config.push]
      · exact .step (h.step_call hb hread) fun x =>
          ((h.assign (.value x)).yield (s := s.pop rest) hb).journal j

end Lowering.Direct

end StackCompiler

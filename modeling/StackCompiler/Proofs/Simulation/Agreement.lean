import StackCompiler.Proofs.Lowering.Live
import StackCompiler.Proofs.Semantics.Ssa
import StackCompiler.Proofs.Simulation.Landing

-- When a configuration of the stack machine and one of the machine for single-assignment code stand
-- for the same point of a run: both are at the code that is lowered in a state, and every operand
-- and local of the one has its value in the other.

namespace StackCompiler

namespace Ssa

-- The definitions of values, each with its number.
def Function.defs (f : Function) (values : List ValueId) : List (ValueId × ValueDef) :=
  values.filterMap fun v => (f.value? v).map fun d => (v, d)

theorem Function.defs_cons {f : Function} {v : ValueId} {values : List ValueId} {d : ValueDef}
    (hd : f.value? v = some d) : f.defs (v :: values) = (v, d) :: f.defs values := by
  simp [defs, hd]

variable {I : Interpretation} {f : Function} {c : Config I} {v : ValueId} {name : String} {op : Op}
variable {type : Scalar} {b : Option BlockId} {rest : List (ValueId × ValueDef)}

theorem Config.execute_of_compute {p : I.Effect I.Value} (hp : c.compute f type op = some p) :
    Config.execute f { c with rest := rest } v ⟨name, some type, op, b⟩ =
      some (p >>= fun x => pure (.run (Config.assign { c with rest := rest } v (.value x)))) := by
  have hr : Config.compute f { c with rest := rest } type op = c.compute f type op := by
    cases op <;> rfl
  rw [← hr] at hp
  cases op
  case const | binary | neg | cast | load =>
    simp only [execute, Option.bind_eq_bind, Option.bind_some, hp]
    rfl
  all_goals exact nomatch hp

end Ssa

namespace Lowering

def Operand.values : Operand → List Ssa.ValueId
  | value v => [v]
  | comparison lhs _ rhs => [lhs, rhs]

namespace Direct

open Ssa (BlockId Datum Function Op ValueDef ValueId)

variable {I : Interpretation} {cx : Context} {f g : Function} {s t : State} {v w : ValueId}
variable {env : ValueId → Option (Datum I)} {c : Stack.Config I} {e e' : Ssa.Config I}
variable {o : Operand} {x : Stack.Operand I} {rest : List Operand} {name : String} {op : Op}
variable {type : Option Scalar} {ty : Scalar} {d : Datum I}

-- The instructions of a finished function that follow in the active block.
def State.after (s : State) (f : Function) : List (ValueId × ValueDef) :=
  f.defs ((f.insts s.block).drop (s.function.insts s.block).length)

inductive Holds (f : Function) (env : ValueId → Option (Datum I)) : Operand → Stack.Operand I → Prop
  | value {v : ValueId} {x : Stack.Typed I} (hv : env v = some (.value x.value))
    (ht : f.HasType v x.type) : Holds f env (.value v) (.value x)
  | comparison {lhs rhs : ValueId} {cond : Comparison} {ty : Scalar} {x y : I.Value}
    (hl : env lhs = some (.value x)) (hr : env rhs = some (.value y)) (ht : f.HasType lhs ty) :
    Holds f env (.comparison lhs cond rhs) (.comparison ty x cond y)

structure Stored (e : Ssa.Config I) (slot : Slot) (x : Stack.Typed I) : Prop where
  type : x.type = slot.type
  address : e.env slot.address = some (.slot slot.address)
  value : e.slots slot.address = some x.value

structure Agrees (cx : Context) (f : Function) (s : State) (c : Stack.Config I)
    (e : Ssa.Config I) : Prop where
  block : e.block = s.block
  rest : e.rest = s.after f
  stack : List.Forall₂ (Holds f e.env) s.stack c.stack
  locals : List.Forall₂ (Stored e) cx.locals c.locals
  created : s.block.index < s.function.blocks.size
  -- What is known already is not computed again before it is used.
  known : ∀ o ∈ s.stack, ∀ v ∈ o.values, (s.function.value? v).isSome
  slots : ∀ slot ∈ cx.locals, (s.function.value? slot.address).isSome

theorem Holds.congr {env' : ValueId → Option (Datum I)} (h : Holds f env o x)
    (he : ∀ v ∈ o.values, env' v = env v) : Holds f env' o x := by
  cases h
  case value hv ht => exact .value ((he _ (by simp [Operand.values])).trans hv) ht
  case comparison hl hr ht =>
    exact .comparison ((he _ (by simp [Operand.values])).trans hl)
      ((he _ (by simp [Operand.values])).trans hr) ht

theorem forall₂_holds_congr {env' : ValueId → Option (Datum I)} {l : List Operand}
    {l' : List (Stack.Operand I)} (h : List.Forall₂ (Holds f env) l l')
    (he : ∀ o ∈ l, ∀ v ∈ o.values, env' v = env v) : List.Forall₂ (Holds f env') l l' := by
  induction h
  case nil => exact .nil
  case cons h _ hi =>
    have ⟨ho, hl⟩ := List.forall_mem_cons.mp he
    exact .cons (h.congr ho) (hi hl)

theorem forall₂_stored_congr {l : List Slot} {l' : List (Stack.Typed I)}
    (h : List.Forall₂ (Stored e) l l') (he : ∀ slot ∈ l, e'.env slot.address = e.env slot.address)
    (hs : e'.slots = e.slots) : List.Forall₂ (Stored e') l l' := by
  induction h
  case nil => exact .nil
  case cons h _ hi =>
    have ⟨ho, hl⟩ := List.forall_mem_cons.mp he
    exact .cons ⟨h.type, ho.trans h.address, hs ▸ h.value⟩ (hi hl)

namespace Agrees

theorem journal (j : Journal) (h : Agrees cx f s c e) : Agrees cx f { s with journal := j } c e :=
  { h with }

theorem pop (h : Agrees cx f s c e) (hs : s.stack = o :: rest) :
    ∃ x stack, c.stack = x :: stack ∧ Holds f e.env o x ∧
      Agrees cx f (s.pop rest) { c with stack := stack } e := by
  have ⟨x, stack, hx, hk, hc⟩ := List.forall₂_cons_left_iff.mp (hs ▸ h.stack)
  refine ⟨x, stack, hc, hx, { h with stack := hk, known := fun o ho => h.known o ?_ }⟩
  simp [hs, show o ∈ rest from ho]

theorem pop_value (h : Agrees cx f s c e) (hs : s.stack = .value v :: rest) :
    ∃ x stack, c.stack = .value x :: stack ∧ e.env v = some (.value x.value) ∧
      f.HasType v x.type ∧ Agrees cx f (s.pop rest) { c with stack := stack } e := by
  have ⟨_, stack, hc, hx, h⟩ := h.pop hs
  cases hx
  case value x hv ht => exact ⟨x, stack, hc, hv, ht, h⟩

theorem push (h : Agrees cx f s c e) (hx : Holds f e.env o x)
    (hk : ∀ v ∈ o.values, (s.function.value? v).isSome) :
    Agrees cx f (s.pop (o :: s.stack)) { c with stack := x :: c.stack } e :=
  { h with stack := .cons hx h.stack, known := List.forall_mem_cons.mpr ⟨hk, h.known⟩ }

end Agrees

theorem State.after_emit {def_ : ValueDef} (hb : (s.emit name type op).function.Begins f)
    (hc : s.block.index < s.function.blocks.size)
    (hd : f.value? s.function.freshValue = some def_) :
    s.after f = (s.function.freshValue, def_) :: (s.emit name type op).after f := by
  have ⟨more, hm⟩ := hb.insts s.block
  have hi : (s.emit name type op).function.insts s.block =
      s.function.insts s.block ++ [s.function.freshValue] := Function.emit_insts_self hc
  have ha : (s.emit name type op).after f = f.defs more :=
    congrArg f.defs (hm ▸ List.drop_left' rfl)
  rw [ha, State.after, ← hm, hi, List.append_assoc, List.drop_left' rfl]
  exact Function.defs_cons hd

-- The configuration after an instruction, which yields `d`.
structure Assigned (cx : Context) (f : Function) (s t : State) (c : Stack.Config I)
    (e : Ssa.Config I) (d : Datum I) (e' : Ssa.Config I) : Prop where
  agrees : Agrees cx f t c e'
  value : e'.env s.function.freshValue = some d
  env : ∀ {v}, (s.function.value? v).isSome → e'.env v = e.env v

theorem ne_freshValue_of_isSome (h : (g.value? v).isSome) : v ≠ g.freshValue :=
  have ⟨_, hd⟩ := Option.isSome_iff_exists.mp h
  Function.ne_freshValue hd

theorem isSome_emit (h : (s.function.value? v).isSome) :
    ((s.emit name type op).function.value? v).isSome := by
  have ⟨d, hd⟩ := Option.isSome_iff_exists.mp h
  simp [State.emit, Function.emit_value?_of_some hd]

namespace Agrees

-- Only what was not known before may change.
theorem emit (h : Agrees cx f s c e) (hb : e'.block = e.block)
    (hr : e'.rest = (s.emit name type op).after f)
    (hv : ∀ {v}, (s.function.value? v).isSome → e'.env v = e.env v) (hs : e'.slots = e.slots) :
    Agrees cx f (s.emit name type op) c e' where
  block := hb.trans h.block
  rest := hr
  stack := forall₂_holds_congr h.stack fun o ho v hm => hv (h.known o ho v hm)
  locals := forall₂_stored_congr h.locals (fun slot hm => hv (h.slots slot hm)) hs
  created := by simpa [State.emit] using h.created
  known o ho v hm := isSome_emit (h.known o ho v hm)
  slots slot hm := isSome_emit (h.slots slot hm)

theorem assign (h : Agrees cx f s c e) (d : Datum I) :
    Assigned cx f s (s.emit name type op) c e d
      (Ssa.Config.assign { e with rest := (s.emit name type op).after f } s.function.freshValue d) := by
  have hv {v} (hk : (s.function.value? v).isSome) :
      Function.update e.env s.function.freshValue (some d) v = e.env v :=
    Function.update_of_ne (ne_freshValue_of_isSome hk) ..
  exact ⟨h.emit rfl rfl hv rfl, Function.update_self .., hv⟩

-- The next instruction is the one that was added.
theorem step_eq (h : Agrees cx f s c e) (hb : (s.emit name type op).function.Begins f)
    (ht : op.isTerminator = false) :
    e.step f.trimmed = Ssa.Config.execute f.trimmed { e with rest := (s.emit name type op).after f }
      s.function.freshValue ⟨name, type, op, some s.block⟩ := by
  have hd := hb.value Function.emit_value?_freshValue ht
  have hr := h.rest.trans (State.after_emit hb h.created hd)
  simp only [Ssa.Config.step, hr]

variable {Rel : Stack.Config I → Ssa.Config I → Prop}

theorem realizes (h : Agrees cx f s c e) (hb : (s.emit name (some ty) op).function.Begins f)
    {p : I.Effect I.Value} (hp : e.compute f.trimmed ty op = some p) :
    Realizes (Ssa.Config.step f.trimmed) Rel e p fun x e' =>
      Assigned cx f s (s.emit name (some ty) op) c e (.value x) e' := by
  have ht : op.isTerminator = false := by
    cases op <;> first | rfl | exact nomatch hp
  exact .step ((h.step_eq hb ht).trans (Ssa.Config.execute_of_compute hp)) fun x => h.assign _

end Agrees

-- A result that is on top of the stack.
theorem Assigned.yield {x : I.Value} (hb : (s.emit name (some ty) op).function.Begins f)
    (h : Assigned cx f s (s.emit name (some ty) op) c e (.value x) e') :
    Agrees cx f (s.yield name ty op) { c with stack := .value ⟨ty, x⟩ :: c.stack } e' := by
  have ht : f.HasType s.function.freshValue ty :=
    hb.keeps.hasType ⟨_, Function.emit_value?_freshValue, rfl⟩
  refine h.agrees.push (.value h.value ht) ?_
  simp [Operand.values, State.emit]

-- Storing in a local changes no other local.
theorem Agrees.store {index : Nat} {slot : Slot} {x : I.Value} (h : Agrees cx f s c e)
    (hn : (cx.locals.map Slot.address).Nodup) (hs : cx.locals[index]? = some slot) :
    ∃ old, c.locals[index]? = some old ∧
      Agrees cx f s { c with locals := c.locals.set index ⟨old.type, x⟩ }
        { e with slots := Function.update e.slots slot.address (some x) } := by
  have hlen := h.locals.length_eq
  have ⟨hi, hs⟩ := List.getElem?_eq_some_iff.mp hs
  have hi' : index < c.locals.length := hlen ▸ hi
  refine ⟨c.locals[index], List.getElem?_eq_getElem hi', { h with locals := ?_ }⟩
  refine List.forall₂_iff_get.mpr ⟨by simpa using hlen, fun n h₁ h₂ => ?_⟩
  have hst := h.locals.get h₁ (hlen ▸ h₁)
  simp only [List.get_eq_getElem, List.getElem_set] at hst ⊢
  split
  case isTrue hn =>
    subst hn
    exact ⟨hst.type, hst.address, by simp [hs]⟩
  case isFalse hne =>
    have ha : cx.locals[n].address ≠ slot.address := fun ha => hne <| by
      refine (List.getElem?_inj (by simpa using hi) hn).mp ?_
      simp [hs, ha, hi, show n < cx.locals.length from h₁]
    exact ⟨hst.type, hst.address, (Function.update_of_ne ha ..).trans hst.value⟩

end Direct

end Lowering

end StackCompiler

import StackCompiler.Proofs.Simulation.Step

-- The beginning of a call: parameters and locals get their slots, with arguments and zeros in them.

namespace StackCompiler.Lowering.Direct

open Bytecode (Signature ValueType)
open Ssa (BlockId Function Op Scope ValueId)

variable {I : Interpretation} {globals : List GlobalSlot} {callees : List Callee} {done : List Slot}
variable {result : Option Scalar} {f g : Function} {s t : State} {c : Stack.Config I}
variable {e e' : Ssa.Config I} {name : String} {type : Option Scalar} {ty : Scalar} {cx : Context}
variable {args : List I.Value} {index : Nat} {types : List Scalar} {slots : List Slot}

-- The parameters of the function have the values of the arguments.
def Given (f : Function) (args : List I.Value) (e : Ssa.Config I) : Prop :=
  ∀ {v d k}, f.value? v = some d → d.op = .param k → e.env v = args[k]?.map .value

theorem Given.assign {v : ValueId} {d : Ssa.ValueDef} {x : Ssa.Datum I} {rest} (h : Given f args e)
    (hd : f.value? v = some d) (ho : ∀ k, d.op ≠ .param k) :
    Given f args (Ssa.Config.assign { e with rest := rest } v x) := by
  intro w d' k hd' ho'
  have hne : w ≠ v := by
    rintro rfl
    cases hd.symm.trans hd'
    exact ho k ho'
  exact (Function.update_of_ne hne ..).trans (h hd' ho')

theorem Agrees.addParam (h : Agrees cx f s c e) : Agrees cx f (s.addParam name ty) c e :=
  have hk {v} (hv : (s.function.value? v).isSome) :
      ((s.addParam name ty).function.value? v).isSome := by
    have ⟨d, hd⟩ := Option.isSome_iff_exists.mp hv
    simp [State.addParam, Function.addParam_value?, Function.ne_freshValue hd, hd]
  { h with
    known := fun o ho v hm => hk (h.known o ho v hm)
    slots := fun slot hm => hk (h.slots slot hm) }

theorem forall₂_stored_update {l : List Slot} {l' : List (Stack.Typed I)} {a : ValueId}
    {x : Option I.Value} (h : List.Forall₂ (Stored e) l l') (hn : ∀ slot ∈ l, slot.address ≠ a) :
    List.Forall₂ (Stored { e with slots := Function.update e.slots a x }) l l' := by
  induction h
  case nil => exact .nil
  case cons h _ hi =>
    have ⟨ha, hl⟩ := List.forall_mem_cons.mp hn
    exact .cons ⟨h.type, h.address, (Function.update_of_ne ha ..).trans h.value⟩ (hi hl)

-- The first store in a slot makes it a local.
theorem Agrees.declare {v : ValueId} {x : I.Value} (slot : Slot)
    (h : Agrees ⟨globals, callees, done, result⟩ f s c e)
    (hb : (s.emit name type (.store v slot.address)).function.Begins f)
    (hv : e.env v = some (.value x)) (ht : f.HasType v ty)
    (ha : e.env slot.address = some (.slot slot.address))
    (hk : (s.function.value? slot.address).isSome) (hn : ∀ d ∈ done, d.address ≠ slot.address) :
    ∃ e', e.step f.trimmed = some (pure (.run e')) ∧ e'.env = e.env ∧
      Agrees ⟨globals, callees, done ++ [slot], result⟩ f
        (s.emit name type (.store v slot.address))
        { c with locals := c.locals ++ [⟨slot.type, x⟩] } e' := by
  have hstep := h.step_store hb hv ht ha
  have h' : Agrees _ f (s.emit name type (.store v slot.address)) c _ := h.skip
  refine ⟨{ e with
    rest := (s.emit name type (.store v slot.address)).after f
    slots := Function.update e.slots slot.address (some x) }, ?_, rfl, ?_⟩
  · simpa [Ssa.Config.store] using hstep
  · refine { h' with locals := ?_, slots := ?_ }
    · refine List.rel_append (forall₂_stored_update h'.locals hn) (.cons ⟨rfl, ha, ?_⟩ .nil)
      exact Function.update_self ..
    · refine List.forall_mem_append.mpr ⟨h'.slots, List.forall_mem_singleton.mpr ?_⟩
      exact isSome_emit hk

namespace State

-- The slot of a local, whose address is the next value.
def alloc (s : State) (index : Nat) (type : Scalar) : State :=
  s.emit ("local" ++ toString index) (some .ptr) (.alloc type.size type.size)

-- A parameter and the slot in which it is kept.
def param (s : State) (index : Nat) (type : Scalar) : State :=
  let u := s.addParam ("param" ++ toString index) type
  (u.alloc index type).emit "" none (.store s.function.freshValue u.function.freshValue)

def paramSlot (s : State) (index : Nat) (type : Scalar) : Slot :=
  ⟨type, (s.addParam ("param" ++ toString index) type).function.freshValue⟩

def localSlot (s : State) (type : Scalar) : Slot :=
  ⟨type, s.function.freshValue⟩

-- A slot with zero in it.
def zero (s : State) (index : Nat) (type : Scalar) : State :=
  ((s.alloc index type).emit "zero" (some type) (.const (.zero type))).emit "" none
    (.store (s.alloc index type).function.freshValue s.function.freshValue)

theorem Ready.alloc (h : s.Ready) : (s.alloc index ty).Ready :=
  h.emit rfl

theorem Ready.param (h : s.Ready) : (s.param index ty).Ready :=
  h.addParam.alloc.emit rfl

theorem Ready.zero (h : s.Ready) : (s.zero index ty).Ready :=
  (h.alloc.emit rfl).emit rfl

theorem Ready.grows_param (h : s.Ready) : s.function.Grows (s.param index ty).function :=
  have hu : (s.addParam ("param" ++ toString index) ty).Ready := h.addParam
  Function.Grows.addParam.trans <| (Function.Grows.emit hu.isOpen.created).trans
    (.emit hu.alloc.isOpen.created)

theorem Ready.grows_zero (h : s.Ready) : s.function.Grows (s.zero index ty).function :=
  (Function.Grows.emit h.isOpen.created).trans <|
    (Function.Grows.emit h.alloc.isOpen.created).trans (.emit (h.alloc.emit rfl).isOpen.created)

end State

section Slot

variable (h : Agrees ⟨globals, callees, done, result⟩ f s c e) (hg : Given f args e)
include h hg

theorem Agrees.step_alloc (hb : (s.alloc index ty).function.Begins f) :
    ∃ e', e.step f.trimmed = some (pure (.run e')) ∧ Given f args e' ∧
      Assigned ⟨globals, callees, done, result⟩ f s (s.alloc index ty) c e
        (.slot s.function.freshValue) e' := by
  have hd := hb.value Function.emit_value?_freshValue rfl
  exact ⟨_, h.step_eq hb rfl, hg.assign hd nofun, h.assign _⟩

theorem Agrees.performs_param {Rel : Stack.Config I → Ssa.Config I → Prop} {x : I.Value}
    (hs : s.Ready) (hb : (s.param index ty).function.Begins f)
    (hx : args[s.function.params.length]? = some x) :
    Performs (Ssa.Config.step f.trimmed) Rel e (pure ⟨ty, x⟩) fun (x : Stack.Typed I) e' =>
      Given f args e' ∧ Agrees ⟨globals, callees, done ++ [s.paramSlot index ty], result⟩ f
        (s.param index ty) { c with locals := c.locals ++ [x] } e' := by
  have hu : (s.addParam ("param" ++ toString index) ty).Ready := hs.addParam
  have hb₁ := begins_of_emit hu.alloc.isOpen.created hb
  have hbu := begins_of_emit hu.isOpen.created hb₁
  obtain ⟨e₁, hs₁, hg₁, h₁⟩ := h.addParam.step_alloc hg hb₁
  have hd : f.value? s.function.freshValue = some ⟨"param" ++ toString index, some ty,
      .param s.function.params.length, none⟩ :=
    hbu.value (by simp [State.addParam, Function.addParam_value?]) rfl
  have hv : e₁.env s.function.freshValue = some (.value x) := by simpa [hx] using hg₁ hd rfl
  have hn : ∀ slot ∈ done, slot.address ≠ (s.paramSlot index ty).address :=
    fun slot hm => ne_freshValue_of_isSome (h.addParam.slots slot hm)
  obtain ⟨e₂, hs₂, henv, h₂⟩ := h₁.agrees.declare (s.paramSlot index ty) hb hv ⟨_, hd, rfl⟩ h₁.value
    (by simp [State.alloc, State.emit, State.paramSlot]) hn
  exact .skip hs₁ (.skip hs₂ (.pure ⟨fun hd ho => by rw [henv]; exact hg₁ hd ho, h₂⟩))

theorem Agrees.performs_zero {Rel : Stack.Config I → Ssa.Config I → Prop} (hs : s.Ready)
    (hb : (s.zero index ty).function.Begins f) :
    Performs (Ssa.Config.step f.trimmed) Rel e (return ⟨ty, ← I.constant ty (.zero ty)⟩)
      fun (x : Stack.Typed I) e' => Given f args e' ∧
        Agrees ⟨globals, callees, done ++ [s.localSlot ty], result⟩ f (s.zero index ty)
          { c with locals := c.locals ++ [x] } e' := by
  have hb₂ := begins_of_emit (hs.alloc.emit rfl).isOpen.created hb
  have hb₁ := begins_of_emit hs.alloc.isOpen.created hb₂
  obtain ⟨e₁, hs₁, hg₁, h₁⟩ := h.step_alloc hg hb₁
  have hd := hb₂.value Function.emit_value?_freshValue rfl
  have hn : ∀ slot ∈ done, slot.address ≠ (s.localSlot ty).address :=
    fun slot hm => ne_freshValue_of_isSome (h.slots slot hm)
  have hz : Realizes (Ssa.Config.step f.trimmed) Rel e₁ (I.constant ty (.zero ty)) fun x e₂ =>
      Given f args e₂ ∧ Assigned ⟨globals, callees, done, result⟩ f (s.alloc index ty) _ c e₁
        (.value x) e₂ :=
    .step ((h₁.agrees.step_eq hb₂ rfl).trans (Ssa.Config.execute_of_compute rfl)) fun x =>
      ⟨hg₁.assign hd nofun, h₁.agrees.assign _⟩
  refine .skip hs₁ (hz.performs.bind fun x e₂ h => ?_)
  obtain ⟨hg₂, h₂⟩ := h
  have hk : ((s.alloc index ty).function.value? s.function.freshValue).isSome := by
    simp [State.alloc, State.emit]
  obtain ⟨e₃, hs₃, henv, h₃⟩ := h₂.agrees.declare (s.localSlot ty) hb h₂.value ⟨_, hd, rfl⟩
    ((h₂.env hk).trans h₁.value) (isSome_emit hk) hn
  exact .skip hs₃ (.pure ⟨fun hd ho => by rw [henv]; exact hg₂ hd ho, h₃⟩)

end Slot

-- Slots of a function, each with an address of its own.
structure Distinct (f : Function) (slots : List Slot) : Prop where
  known : ∀ slot ∈ slots, (f.value? slot.address).isSome
  nodup : (slots.map Slot.address).Nodup

theorem isSome_of_grows {v : ValueId} (hg : f.Grows g) (h : (f.value? v).isSome) :
    (g.value? v).isSome :=
  have ⟨_, hd⟩ := Option.isSome_iff_exists.mp h
  Option.isSome_iff_exists.mpr ⟨_, hg.value hd⟩

theorem Distinct.append {slot : Slot} (h : Distinct f slots) (hg : f.Grows g)
    (hn : f.value? slot.address = none) (hs : (g.value? slot.address).isSome) :
    Distinct g (slots ++ [slot]) where
  known := List.forall_mem_append.mpr
    ⟨fun a ha => isSome_of_grows hg (h.known a ha), List.forall_mem_singleton.mpr hs⟩
  nodup := by
    have hne : slot.address ∉ slots.map Slot.address := fun hm => by
      have ⟨a, ha, he⟩ := List.mem_map.mp hm
      simpa [he, hn] using h.known a ha
    simpa [List.nodup_append, h.nodup] using fun a ha he => hne (List.mem_map.mpr ⟨a, ha, he⟩)

theorem State.Ready.distinct_param (hs : s.Ready) (h : Distinct s.function slots) :
    Distinct (s.param index ty).function (slots ++ [s.paramSlot index ty]) := by
  refine h.append hs.grows_param ?_ (isSome_emit ?_)
  · exact Option.eq_none_iff_forall_ne_some.mpr fun d hd =>
      Function.ne_freshValue (Function.Grows.addParam.value hd) rfl
  · simp [State.paramSlot, State.alloc, State.emit]

theorem State.Ready.distinct_zero (hs : s.Ready) (h : Distinct s.function slots) :
    Distinct (s.zero index ty).function (slots ++ [s.localSlot ty]) := by
  refine h.append hs.grows_zero s.function.value?_freshValue (isSome_emit (isSome_emit ?_))
  simp [State.localSlot, State.alloc, State.emit]

-- Code that sets up `slots` behind those of `done`, with what `p` gives in them.
structure Fills (globals : List GlobalSlot) (callees : List Callee) (result : Option Scalar)
    (args : List I.Value) (done : List Slot) (s : State) (slots : List Slot) (t : State)
    (p : I.Effect (List (Stack.Typed I))) : Prop where
  ready : t.Ready
  grows : s.function.Grows t.function
  distinct : Distinct s.function done → Distinct t.function (done ++ slots)
  performs : ∀ {Rel : Stack.Config I → Ssa.Config I → Prop} {f c e}, t.function.Begins f →
    Given f args e → Agrees ⟨globals, callees, done, result⟩ f s c e →
      Performs (Ssa.Config.step f.trimmed) Rel e p fun xs e' => Given f args e' ∧
        Agrees ⟨globals, callees, done ++ slots, result⟩ f t
          { c with locals := c.locals ++ xs } e'

theorem Fills.nil (hs : s.Ready) :
    Fills globals callees result args done s [] s (pure []) where
  ready := hs
  grows := .refl _
  distinct h := by simpa using h
  performs _ hg h := .pure ⟨hg, by simpa using h⟩

theorem Fills.cons {slot : Slot} {u : State} {q : I.Effect (Stack.Typed I)}
    {p : I.Effect (List (Stack.Typed I))} (hg : s.function.Grows u.function)
    (hd : Distinct s.function done → Distinct u.function (done ++ [slot]))
    (hq : ∀ {Rel : Stack.Config I → Ssa.Config I → Prop} {f c e}, u.function.Begins f →
      Given f args e → Agrees ⟨globals, callees, done, result⟩ f s c e →
        Performs (Ssa.Config.step f.trimmed) Rel e q fun x e' => Given f args e' ∧
          Agrees ⟨globals, callees, done ++ [slot], result⟩ f u
            { c with locals := c.locals ++ [x] } e')
    (h : Fills globals callees result args (done ++ [slot]) u slots t p) :
    Fills globals callees result args done s (slot :: slots) t (do
      let x ← q
      let xs ← p
      return x :: xs) where
  ready := h.ready
  grows := hg.trans h.grows
  distinct hs := by simpa using h.distinct (hd hs)
  performs hb hgiven ha := by
    refine (hq (h.grows.begins hb) hgiven ha).bind fun x e₁ ⟨hg₁, h₁⟩ => ?_
    refine (h.performs hb hg₁ h₁).bind fun xs e₂ ⟨hg₂, h₂⟩ => .pure ⟨hg₂, ?_⟩
    simpa using h₂

theorem declareParams_fills (done : List Slot) (hs : s.Ready) (hp : s.function.params.length = index)
    (hl : index + types.length = args.length) :
    Meets (declareParams index types) s fun slots t =>
      Fills globals callees result args done s slots t
        (pure (types.zipWith Stack.Typed.mk (args.drop index))) := by
  induction types generalizing s index done
  case nil => exact .nil hs
  case cons ty types hi =>
    have hu : (s.addParam ("param" ++ toString index) ty).Ready := hs.addParam
    have hlt : index < args.length := by simp at hl; omega
    have hx : args[s.function.params.length]? = some args[index] := by simp [hp, hlt]
    simp only [declareParams, allocLocal, meets_bind, meets_get, meets_set, meets_pure]
    refine hu.define (hu.alloc.perform ?_)
    refine (hi (done ++ [s.paramSlot index ty]) (s := s.param index ty) hs.param ?params
      ?length).mono fun slots t h => ?rest
    case params =>
      have hp' : (s.param index ty).function.params = s.function.params ++ [s.function.freshValue] :=
        rfl
      simp [hp', hp]
    case length => simp at hl; omega
    case rest =>
      have h := Fills.cons (q := pure ⟨ty, args[index]⟩) hs.grows_param hs.distinct_param
        (fun hb hg ha => ha.performs_param hg hs hb hx) h
      rw [List.drop_eq_getElem_cons hlt, List.zipWith_cons_cons]
      simp only [pure_bind] at h
      exact h

theorem declareLocals_fills {types : List ValueType} (done : List Slot) (hs : s.Ready) :
    Meets (declareLocals name index (types.map ValueType.scalar)) s fun slots t =>
      Fills globals callees result args done s slots t (types.mapM fun ty => do
        return ⟨ty.scalar, ← I.constant ty.scalar (.zero ty.scalar)⟩) := by
  induction types generalizing s index done
  case nil => exact .nil hs
  case cons ty types hi =>
    simp only [List.map_cons, declareLocals, allocLocal, meets_bind, meets_note, meets_pure]
    refine hs.define (hs.alloc.define ((hs.alloc.emit rfl).perform ?_))
    let u : State := { s.zero index ty.scalar with
      journal := s.journal.record (.localDeclared index name) }
    have hu : u.Ready := ⟨hs.zero.wf, hs.zero.isOpen⟩
    refine (hi (done ++ [s.localSlot ty.scalar]) (s := u) hu).mono fun slots t h => ?_
    rw [List.mapM_cons]
    exact .cons (u := u) hs.grows_zero hs.distinct_zero
      (fun hb hg ha => (ha.performs_zero hg hs hb).mono fun _ _ h => ⟨h.1, h.2.journal _⟩) h

end StackCompiler.Lowering.Direct

import StackCompiler.Proofs.Lowering.Module
import StackCompiler.Proofs.Typing.Regions

-- Whole modules: which of them can be lowered is a matter of types alone.

namespace StackCompiler

open Typing (Check Environment Outline)

namespace Lowering.Direct

open Bytecode (Instruction ValueType)
open Ssa (Function Op Scope)

variable {cx : Context} {dom : Scope} {calls : List Nat} {s t : State} {k : Outline}
variable {name : String} {types : List Scalar}

-- Steps of the lowering alone, which cannot fail.
theorem Mirrors.before {α β γ : Type} {x : Lower α} {f : α → Lower β} {y : Check γ}
    {P : α → State → Unit → Outline → Prop} {Q : β → State → γ → Outline → Prop}
    (h : Mirrors x s (Pure.pure ()) k P) (hf : ∀ a t, P a t () k → Mirrors (f a) t y k Q) :
    Mirrors (x >>= f) s y k Q := by
  unfold Mirrors at h
  cases hx : x s <;> rw [hx] at h
  case ok a t => exact .left hx (hf a t h)
  case error => exact h.elim

theorem Mirrors.isOk_iff {α β : Type} {x : Lower α} {y : Check β}
    {Q : α → State → β → Outline → Prop} (h : Mirrors x s y k Q) :
    (∃ a t, x s = .ok a t) ↔ (y k).isSome := by
  unfold Mirrors at h
  cases hx : x s <;> cases hy : y k <;> simp only [hx, hy] at h <;> simp

theorem lowerCode_mirrors {total position : Nat} {code : List Instruction}
    (hv : s.Valid cx dom calls) (h : s.Outlined k) :
    Mirrors (lowerCode cx name total position code) s (Check.code cx.environment code) k
      fun _ t _ l => t.Outlined l := by
  induction code generalizing s k dom calls position
  case nil => exact .pure h
  case cons i code hi =>
    refine .left rfl (.get (.unless ?_ fun _ => .left rfl ?_))
    · simp [h.isEnded]
    have hstep (j : Journal) :=
      (step_mirrors (i := i) (hv.journal j) (h.journal j)).and_meets (step_meets (hv.journal j))
    refine (hstep _).bind ?_
    rintro _ t _ l ⟨ht, dom', hv⟩
    exact hi hv ht

theorem closeBody_mirrors (hv : s.Valid cx dom calls) (h : s.Outlined k) :
    Mirrors (closeBody cx.result) s
      (if !k.isDead then Check.conclude cx.environment.result else pure ()) k
      fun _ _ _ _ => True := by
  have hc : s.function.isClosed s.block = false :=
    Function.isClosed_eq_false_iff.mpr hv.isOpen.unclosed
  have hb : s.function.hasBlock s.block = true := decide_eq_true hv.isOpen.created
  refine .left rfl ?_
  simp only [hb, hc, Bool.not_true, Bool.not_false, Bool.false_eq_true, ↓reduceIte, h.isDead]
  by_cases hd : s.isDead
  case pos =>
    rw [if_pos hd, if_neg (by simp [hd]), Mirrors, perform_eq_ok h.ready]
    trivial
  case neg =>
    rw [if_neg hd, if_pos (by simp [hd])]
    exact (emitReturn_mirrors hv h (by simpa using hd)).mono fun _ _ _ _ _ => trivial

theorem State.Ready.journal (h : s.Ready) (j : Journal) : ({ s with journal := j } : State).Ready :=
  ⟨h.wf, h.isOpen⟩

section Slots

variable {type : Scalar} {index : Nat}

-- Every parameter gets a slot of its type.
theorem declareParams_mirrors (h : s.Ready) :
    Mirrors (declareParams index types) s (pure ()) k fun slots t _ _ =>
      slots.map Slot.type = types ∧ t.Ready ∧ t.stack = s.stack := by
  induction types generalizing s index
  case nil => exact ⟨rfl, h, rfl⟩
  case cons type types hi =>
    have h₁ : (s.addParam ("param" ++ toString index) type).Ready := h.addParam
    have h₂ : (State.emit _ ("local" ++ toString index) (some .ptr)
        (.alloc type.size type.size)).Ready := h₁.emit rfl
    refine .left rfl (.left rfl (.left (define_eq_ok h₁) (.left (perform_eq_ok h₂) ?_)))
    refine (hi (h₂.emit rfl)).before ?_
    rintro slots t ⟨rfl, ht⟩
    exact ⟨rfl, ht⟩

theorem declareLocals_mirrors (h : s.Ready) :
    Mirrors (declareLocals name index types) s (pure ()) k fun slots t _ _ =>
      slots.map Slot.type = types ∧ t.Ready ∧ t.stack = s.stack := by
  induction types generalizing s index
  case nil => exact ⟨rfl, h, rfl⟩
  case cons type types hi =>
    have h₁ : (s.emit ("local" ++ toString index) (some .ptr)
        (.alloc type.size type.size)).Ready := h.emit rfl
    have h₂ : (State.emit _ "zero" (some type) (.const (.zero type))).Ready := h₁.emit rfl
    refine .left (define_eq_ok h) (.left (define_eq_ok h₁) (.left (perform_eq_ok h₂) (.left rfl ?_)))
    refine (hi ((h₂.emit rfl).journal _)).before ?_
    rintro slots t ⟨rfl, ht⟩
    exact ⟨rfl, ht⟩

end Slots

section Translation

variable {options : Options} {globals : List GlobalSlot} {callees : List Callee} {own : Callee}
variable {body : Bytecode.Body}

-- The types of what a body can refer to.
def environment (globals : List GlobalSlot) (callees : List Callee) (own : Callee)
    (body : Bytecode.Body) : Environment where
  locals := own.signature.paramTypes ++ body.locals.map ValueType.scalar
  globals := globals.map fun g => (g.type, g.isMutable)
  callees := callees.map Callee.signature
  result := own.signature.results.head?.map ValueType.scalar

theorem pruneFunction_isOk (s : State) : ∃ t, pruneFunction s = .ok () t := by
  obtain ⟨j, hp⟩ := pruneNoted_eq_ok s.function s.journal
  have hl : (liftM s.function.pruneNoted : Lower (Nat × Function)) s =
      .ok s.function.prune { s with journal := j } := by
    simp only [liftM, monadLift, MonadLift.monadLift, zoom, hp]
  simp only [pruneFunction, bind, EStateM.bind, get_eq_ok, hl]
  exact ⟨_, rfl⟩

theorem translate_mirrors :
    Mirrors (translate globals callees own body) s
      (do
        guard (Typing.admits own.signature)
        Check.body (environment globals callees own body) body.code) {} fun _ _ _ _ => True := by
  refine .left rfl ?_
  by_cases ha : Typing.admits own.signature
  case neg =>
    rw [guard_bind_of_neg ha]
    cases hres : own.signature.result
    case error => exact mirrors_bind_of_error rfl
    case ok result =>
      have hassign := (rejected_of_not_admits ha).resolve_right (by simp [hres])
      refine .left rfl ?_
      obtain ⟨e, t, he⟩ := accept_eq_error hassign
      exact mirrors_bind_of_error he
  case pos =>
    obtain ⟨⟨regs, hassign⟩, hresult⟩ := admits_iff.mp ha
    rw [guard_bind_of_pos ha, hresult]
    refine .left rfl (.left (accept_eq_ok hassign) (.left rfl (.left rfl (.left rfl ?_))))
    let o : State := { s with journal := s.journal.record (.functionStarted own.name own.signature) }
    have hv : (o.blank own.name (own.signature.results.head?.map ValueType.scalar)).Valid
        ⟨globals, callees, [], _⟩ _ [] := o.valid_blank
    refine ((declareParams_mirrors hv.ready).and_meets (declareParams_meets hv rfl rfl)).before ?_
    rintro params s₁ ⟨⟨hparams, h₁, hs₁⟩, hd₁⟩
    have hi := hd₁.inside
    refine ((declareLocals_mirrors h₁).and_meets (declareLocals_meets hi.valid hi.entry_eq)).before ?_
    rintro locals s₂ ⟨⟨hlocals, h₂, hs₂⟩, hd₂⟩
    have ha := (hi.trans hd₂.inside).advances
    have hout : s₂.Outlined {} := by
      refine ⟨h₂, ?_, ?_, ha.isDead.symm, ha.isEnded.symm⟩
      · rw [hs₂, hs₁]
        exact .nil
      · rw [ha.regions]
        exact .nil
    have hv₂ := hd₁.valid_append hd₂
    have henv : environment globals callees own body = Context.environment
        ⟨globals, callees, params ++ locals, own.signature.results.head?.map ValueType.scalar⟩ := by
      simp only [environment, Context.environment, List.map_append, hparams, hlocals]
    rw [henv]
    refine ((lowerCode_mirrors hv₂ hout).and_meets (lowerCode_meets hv₂)).bind ?_
    rintro _ s₃ _ l ⟨h₃, dom, hv₃⟩
    refine .get (.unless ?_ fun hr => .of_bind_pure ?_)
    · have hb := h₃.brackets.length_eq
      rw [Bool.not_eq_true', List.isEmpty_eq_false_iff, ← List.length_pos_iff, ← List.length_eq_zero_iff]
      omega
    refine (closeBody_mirrors hv₃ h₃).bind fun _ s₄ _ l _ => .left rfl ?_
    have hprune (u : State) :
        Mirrors (do pruneFunction; return (← get).function) u (pure ()) l fun _ _ _ _ => True := by
      obtain ⟨t, ht⟩ := pruneFunction_isOk u
      exact .left ht (.left rfl trivial)
    dsimp only
    split
    case isTrue => exact .left rfl (hprune _)
    case isFalse => exact hprune _

theorem report_isOk {f : Function} (hv : f.verify = .ok ()) (s : State) :
    ∃ t, report options f s = .ok () t := by
  rw [report_eq hv]
  cases hp : options.print <;> simp only [report] <;> exact ⟨_, rfl⟩

theorem lowerFunction_mirrors :
    Mirrors (lowerFunction options globals callees own body) s
      (do
        guard (Typing.admits own.signature)
        Check.body (environment globals callees own body) body.code) {} fun _ _ _ _ => True := by
  refine .of_bind_pure ((translate_mirrors.and_meets translate_meets).bind ?_)
  rintro f t _ l ⟨_, lowered, rfl⟩
  obtain ⟨u, hu⟩ := report_isOk (Function.verify_eq_ok lowered.finished.complete) t
  exact .left hu trivial

-- A function can be lowered if its signature fits the registers and its body is well typed.
theorem lowerFunction_isOk_iff (options : Options) (globals : List GlobalSlot)
    (callees : List Callee) (own : Callee) (body : Bytecode.Body) (s : State) :
    (∃ f t, lowerFunction options globals callees own body s = .ok f t) ↔
      Typing.admits own.signature ∧ (environment globals callees own body).Accepts body.code := by
  rw [lowerFunction_mirrors.isOk_iff, Environment.Accepts]
  by_cases ha : Typing.admits own.signature
  case pos => rw [guard_bind_of_pos ha, and_iff_right ha]
  case neg =>
    rw [guard_bind_of_neg ha]
    exact iff_of_false (by simp [failure, StateT.failure]) fun h => ha h.1

end Translation

section Success

variable {α β : Type} {x : Lower α} {f : α → Lower β} {l : List α} {P : α → Prop}

theorem bind_isOk_iff : (∃ b u, (x >>= f) s = .ok b u) ↔
    ∃ a t, x s = .ok a t ∧ ∃ b u, f a t = .ok b u := by
  simp only [bind, EStateM.bind]
  cases x s <;> simp

theorem ofExcept_bind_isOk_iff {e : Except CompileError α} :
    (∃ b u, (ofExcept e >>= f) s = .ok b u) ↔ ∃ a, e = .ok a ∧ ∃ b u, f a s = .ok b u := by
  rw [bind_isOk_iff]
  cases e
  case error => exact iff_of_false (by rintro ⟨_, _, h, _⟩; cases h) (by simp)
  case ok a =>
    constructor
    · rintro ⟨_, _, h, hf⟩
      cases h
      exact ⟨a, rfl, hf⟩
    · rintro ⟨_, h, hf⟩
      cases h
      exact ⟨a, s, rfl, hf⟩

theorem mapM_isOk_iff (h : ∀ a s, (∃ b t, f a s = .ok b t) ↔ P a) :
    (∃ bs t, l.mapM f s = .ok bs t) ↔ ∀ a ∈ l, P a := by
  induction l generalizing s
  case nil => exact iff_of_true ⟨[], s, rfl⟩ (by simp)
  case cons a l hi =>
    have hrest (b : β) (t : State) :
        (∃ bs u, (do return b :: (← l.mapM f)) t = .ok bs u) ↔ ∀ a ∈ l, P a := by
      rw [← hi (s := t), bind_isOk_iff]
      exact exists_congr fun _ => exists_congr fun _ => and_iff_left ⟨_, _, rfl⟩
    rw [List.mapM_cons, bind_isOk_iff, List.forall_mem_cons, ← h a s]
    simp only [hrest, exists_and_right]

end Success

end Lowering.Direct

section Module

open Bytecode Lowering.Direct
open Lowering (Callee Options lower_eq_direct)

variable {m : Bytecode.Module} {options : Options} {j : Journal}

theorem mapM_except_isOk_iff {ε α β : Type} {f : α → Except ε β} {l : List α} :
    (∃ bs, l.mapM f = .ok bs) ↔ ∀ a ∈ l, ∃ b, f a = .ok b := by
  constructor
  · rintro ⟨bs, h⟩ a ha
    have hf := forall₂_of_mapM_eq_ok h
    obtain ⟨n, hn, rfl⟩ := List.getElem_of_mem ha
    exact ⟨_, hf.get hn (hf.length_eq ▸ hn)⟩
  · intro h
    cases hl : l.mapM f
    case ok bs => exact ⟨bs, rfl⟩
    case error e =>
      obtain ⟨a, ha, he⟩ := exists_of_mapM_eq_error hl
      obtain ⟨b, hb⟩ := h a ha
      simp [hb] at he

-- The signatures of the functions, in the order of their numbers.
def Bytecode.Module.signatures (m : Bytecode.Module) : List Signature :=
  (m.imports.filterMap Import.type? ++ m.bodies.map Body.type).filterMap (m.types[·]?)

-- The types of what a body of signature `sig` can refer to.
def Bytecode.Module.environment (m : Bytecode.Module) (sig : Signature) (body : Body) :
    Environment where
  locals := sig.paramTypes ++ body.locals.map ValueType.scalar
  globals := m.globals.map fun g => (g.type.scalar, g.isMutable)
  callees := m.signatures
  result := sig.results.head?.map ValueType.scalar

-- A function is imported, with a signature that the module has and at most one result.
def Bytecode.Module.Links (m : Bytecode.Module) (i : Import) : Prop :=
  ∃ type sig, i.item = .function type ∧ m.types[type]? = some sig ∧ sig.results.length ≤ 1

theorem Signature.result_isOk_iff {sig : Signature} :
    (∃ result, sig.result = .ok result) ↔ sig.results.length ≤ 1 := by
  unfold Signature.result
  rcases sig.results with _ | ⟨type, _ | ⟨other, rest⟩⟩ <;> simp

theorem external_isOk_iff {i : Import} : (∃ x, m.external i = .ok x) ↔ m.Links i := by
  simp only [Module.external, Module.Links]
  split
  case h_2 hi =>
    refine iff_of_false (by simp [throw, throwThe, MonadExceptOf.throw]) ?_
    rintro ⟨type, _, hf, _⟩
    exact hi type hf
  case h_1 type hi =>
    simp only [hi, Imported.function.injEq, exists_and_left, exists_eq_left', Module.signature,
      ← Signature.result_isOk_iff]
    cases hs : m.types[type]?
    case none => simp [bind, Except.bind]
    case some sig =>
      cases hr : sig.result <;> simp [hr, bind, Except.bind, pure, Except.pure]

theorem forall_mem_zipIdx_iff {α : Type} {l : List α} {P : α → Prop} :
    (∀ x ∈ l.zipIdx, P x.1) ↔ ∀ a ∈ l, P a := by
  conv_rhs => rw [← List.zipIdx_map_fst 0 l, List.forall_mem_map]

theorem globals_isOk_iff :
    (∃ vars, (m.globals.zipIdx.mapM fun (g, i) => g.toVariable i) = .ok vars) ↔
      ∀ g ∈ m.globals, g.accepts := by
  refine mapM_except_isOk_iff.trans (.trans (forall₂_congr fun x _ => ?_) forall_mem_zipIdx_iff)
  simp only [Global.toVariable]
  cases x.1.accepts <;> simp

theorem own_isOk_iff : (∃ own, (m.bodies.mapM fun body => m.signature body.type) = .ok own) ↔
    ∀ body ∈ m.bodies, ∃ sig, m.types[body.type]? = some sig := by
  rw [mapM_except_isOk_iff]
  simp only [signature_eq_ok_iff]

section Bodies

variable {imports : List (Ssa.External × Signature)} {own : List Signature}

theorem signatures_eq (hi : m.imports.Forall₂ (fun i x => m.external i = .ok x) imports)
    (ho : m.bodies.Forall₂ (fun body s => m.signature body.type = .ok s) own) :
    m.signatures = imports.map Prod.snd ++ own := by
  have hm : (m.imports.filterMap Import.type? ++ m.bodies.map Body.type).map (m.types[·]?) =
      (imports.map Prod.snd ++ own).map some := by
    simp only [List.map_append, map_import_types hi, map_body_types ho]
  have hf := congrArg (List.filterMap id) hm
  rwa [List.filterMap_map, List.filterMap_map, Function.id_comp, Function.id_comp,
    List.filterMap_some] at hf

-- Each body stands with its own signature.
theorem forall_zip_iff {bodies : List Body} {Q : Signature → Body → Prop}
    (ho : bodies.Forall₂ (fun body s => m.signature body.type = .ok s) own) :
    (∀ x ∈ own.zip bodies, Q x.1 x.2) ↔
      ∀ body ∈ bodies, ∃ sig, m.types[body.type]? = some sig ∧ Q sig body := by
  induction ho
  case nil => simp
  case cons body sig bodies own hs _ hi =>
    rw [List.zip_cons_cons, List.forall_mem_cons, List.forall_mem_cons, hi]
    simp [signature_eq_ok_iff.mp hs]

theorem functions_isOk_iff (options : Options) {callees : List Callee} {s : State}
    (hi : m.imports.Forall₂ (fun i x => m.external i = .ok x) imports)
    (ho : m.bodies.Forall₂ (fun body s => m.signature body.type = .ok s) own)
    (hc : callees.map Callee.signature = imports.map Prod.snd ++ own) :
    (∃ fs t, (((callees.drop imports.length).zip m.bodies).mapM fun x =>
        lowerFunction options m.globalSlots callees x.1 x.2) s = .ok fs t) ↔
      ∀ body ∈ m.bodies, ∃ sig, m.types[body.type]? = some sig ∧ Typing.admits sig ∧
        (m.environment sig body).Accepts body.code := by
  have henv (callee : Callee) (body : Body) : Lowering.Direct.environment m.globalSlots callees callee body =
      m.environment callee.signature body := by
    have hg : m.globalSlots.map (fun g => (g.type, g.isMutable)) =
        m.globals.map fun g => (g.type.scalar, g.isMutable) := by
      simp only [Module.globalSlots, List.map_map]
      conv_rhs => rw [← List.zipIdx_map_fst 0 m.globals, List.map_map]
      rfl
    simp only [Lowering.Direct.environment, Module.environment, hg, hc, signatures_eq hi ho]
  have hown : (callees.drop imports.length).map Callee.signature = own := by
    rw [List.map_drop, hc, List.drop_left' (by simp)]
  have hmap := mapM_isOk_iff (s := s) (l := (callees.drop imports.length).zip m.bodies)
    fun x => lowerFunction_isOk_iff options m.globalSlots callees x.1 x.2
  rw [hmap, ← forall_zip_iff ho, ← hown, List.zip_map_left, List.forall_mem_map]
  simp only [henv, Prod.map_fst, Prod.map_snd, id_eq]

end Bodies

theorem noteExports_isOk (exports : List Export) (s : State) :
    ∃ t, exports.forM noteExport s = .ok () t := by
  induction exports generalizing s
  case nil => exact ⟨s, rfl⟩
  case cons e exports hi =>
    have he : ∃ t, noteExport e s = .ok () t := by
      simp only [noteExport]
      split <;> exact ⟨_, rfl⟩
    obtain ⟨t, ht⟩ := he
    obtain ⟨u, hu⟩ := hi t
    refine ⟨u, ?_⟩
    simp only [List.forM_eq_forM, List.forM_cons, bind, EStateM.bind, ht] at hu ⊢
    exact hu

theorem map_signature_zipIdx (sigs : List Signature) :
    (sigs.zipIdx.map fun x => (⟨m.functionName x.2, x.1⟩ : Callee)).map Callee.signature = sigs := by
  conv_rhs => rw [← List.zipIdx_map_fst 0 sigs]
  rw [List.map_map]
  rfl

-- Which modules can be lowered.
theorem lower_isOk_iff : (∃ module j', m.lower options j = .ok module j') ↔
    (∀ i ∈ m.imports, m.Links i) ∧ (∀ g ∈ m.globals, g.accepts) ∧
      ∀ body ∈ m.bodies, ∃ sig, m.types[body.type]? = some sig ∧ Typing.admits sig ∧
        (m.environment sig body).Accepts body.code := by
  have hlower : (∃ module j', m.lower options j = .ok module j') ↔
      ∃ module t, lowerModule options m (.start j) = .ok module t := by
    rw [lower_eq_direct]
    cases lowerModule options m (.start j) <;> simp
  rw [hlower]
  simp only [lowerModule, survey, lowerBodies, bind_assoc, pure_bind, List.length_map]
  rw [ofExcept_bind_isOk_iff]
  constructor
  case mp =>
    rintro ⟨imports, hi, h⟩
    obtain ⟨_, t, _, h⟩ := bind_isOk_iff.mp h
    obtain ⟨globals, hg, h⟩ := ofExcept_bind_isOk_iff.mp h
    obtain ⟨own, ho, h⟩ := ofExcept_bind_isOk_iff.mp h
    obtain ⟨functions, u, h, _⟩ := bind_isOk_iff.mp h
    refine ⟨fun i hm => external_isOk_iff.mp (mapM_except_isOk_iff.mp ⟨_, hi⟩ i hm),
      globals_isOk_iff.mp ⟨_, hg⟩, ?_⟩
    exact (functions_isOk_iff options (forall₂_of_mapM_eq_ok hi) (forall₂_of_mapM_eq_ok ho)
      (map_signature_zipIdx _)).mp ⟨functions, u, h⟩
  case mpr =>
    rintro ⟨hi, hg, hb⟩
    obtain ⟨imports, hi⟩ := mapM_except_isOk_iff.mpr fun i hm => external_isOk_iff.mpr (hi i hm)
    obtain ⟨globals, hg⟩ := globals_isOk_iff.mpr hg
    obtain ⟨own, ho⟩ := own_isOk_iff.mpr fun body hm => (hb body hm).imp fun _ h => h.1
    obtain ⟨t, ht⟩ := noteExports_isOk m.exports (.start j)
    obtain ⟨functions, u, h⟩ := (functions_isOk_iff options (s := t)
      (forall₂_of_mapM_eq_ok hi) (forall₂_of_mapM_eq_ok ho) (map_signature_zipIdx _)).mpr hb
    refine ⟨imports, hi, bind_isOk_iff.mpr ⟨(), t, ht, ofExcept_bind_isOk_iff.mpr ⟨globals, hg, ?_⟩⟩⟩
    exact ofExcept_bind_isOk_iff.mpr ⟨own, ho, bind_isOk_iff.mpr ⟨functions, u, h, _, _, rfl⟩⟩

end Module

end StackCompiler

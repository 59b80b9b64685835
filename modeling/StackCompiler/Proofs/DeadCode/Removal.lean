import StackCompiler.Proofs.Convention.Agreement
import StackCompiler.Proofs.DeadCode.Run
import StackCompiler.Proofs.Typing.Leftover

-- Dead code has no influence: the function that a body is lowered to stays the same, up to the numbers
-- of values and blocks, if dead code is taken out of the body.

namespace StackCompiler.Lowering

namespace Direct

open Bytecode (Instruction ValueType)
open Ssa (Function Renaming Scope)

variable {globals : List GlobalSlot} {callees : List Callee} {own : Callee} {body : Bytecode.Body}
variable {cx cx' : Context} {dom dom' : Scope} {calls calls' : List Nat} {s s' t t' u : State}
variable {ρ σ : Renaming} {types : List ValueType} {total total' position position' k n : Nat}
variable {function : String} {code dead rest : List Instruction}

-- A state in which the slots of the function are set up, and no more.
inductive Prepared (globals : List GlobalSlot) (callees : List Callee) (own : Callee)
    (types : List ValueType) : Context → State → Prop
  | intro {result : Option Scalar} {origin declared ready : State} {params locals : List Slot}
    (hresult : own.signature.result = .ok result)
    (hparams : declareParams 0 own.signature.paramTypes (origin.blank own.name result) =
      .ok params declared)
    (hlocals : declareLocals own.name params.length (types.map ValueType.scalar) declared =
      .ok locals ready) :
    Prepared globals callees own types ⟨globals, callees, params ++ locals, result⟩ ready

theorem Lowered.prepared (l : Lowered globals callees own body) :
    Prepared globals callees own body.locals l.context l.ready :=
  .intro l.result_eq l.declareParams_eq l.declareLocals_eq

section Prepared

variable (h : Prepared globals callees own types cx s)
include h

theorem Prepared.valid : ∃ dom, s.Valid cx dom [] := by
  obtain @⟨result, origin, declared, _, params, _, _, hparams, hlocals⟩ := h
  have hv : (origin.blank own.name result).Valid ⟨globals, callees, [], result⟩ _ [] :=
    origin.valid_blank
  have hd := (declareParams_meets hv rfl rfl).of_ok hparams
  have hi := hd.inside
  exact ⟨_, hd.valid_append ((declareLocals_meets hi.valid hi.entry_eq).of_ok hlocals)⟩

-- There is only one way to set up the slots.
theorem Prepared.alike (h' : Prepared globals callees own types cx' t) :
    ∃ ρ, cx.Renamed ρ cx' ∧ s.Alike ρ t ∧ List.Forall₂ ρ.value s.function.params t.function.params := by
  obtain ⟨_, hv⟩ := h.valid
  obtain ⟨_, hv'⟩ := h'.valid
  obtain @⟨result, origin, declared, _, params, _, hresult, hparams, hlocals⟩ := h
  obtain @⟨result', origin', declared', _, params', _, hresult', hparams', hlocals'⟩ := h'
  cases hresult.symm.trans hresult'
  have hblank (o : State) : (o.blank own.name result).Valid ⟨globals, callees, [], result⟩ _ [] :=
    o.valid_blank
  have hdeclared {o d slots} (hx : declareParams 0 own.signature.paramTypes
      (State.blank o own.name result) = .ok slots d) : d.Active := by
    have hi := ((declareParams_meets (hblank o) rfl rfl).of_ok hx).inside
    exact hi.valid.active hi.advances.isDead
  obtain ⟨ρ, hp⟩ := State.parallel_blank origin origin' own.name result
  obtain ⟨σ, _, hp, hslots, hvalues⟩ := declareParams_parallel hp ((hblank origin).active rfl)
    ((hblank origin').active rfl) .nil hparams hparams'
  rw [← hslots.length_eq] at hlocals'
  obtain ⟨σ', hle, hp, hslots'⟩ :=
    declareLocals_parallel hp (hdeclared hparams) (hdeclared hparams') hlocals hlocals'
  refine ⟨σ', ⟨rfl, rfl, rfl, ?_⟩, hp.alike hv hv', ?_⟩
  · exact List.rel_append (hslots.imp fun _ _ => .mono hle) hslots'
  · have hs : s.function.params = declared.function.params :=
      congrArg Ssa.Declaration.params (declareLocals_relates.declaration_eq hlocals)
    have ht : t.function.params = declared'.function.params :=
      congrArg Ssa.Declaration.params (declareLocals_relates.declaration_eq hlocals')
    rw [hs, ht]
    exact hvalues.imp hle.1

end Prepared

theorem prepare_meets :
    Meets (prepare globals callees own types) s (Prepared globals callees own types) := by
  simp only [prepare, meets_bind, meets_note]
  cases hres : own.signature.result
  case error => exact benign_of_signature_result hres
  case ok result =>
    simp only [meets_ofExcept_ok]
    refine accept_meets fun _ => ?_
    simp only [meets_modify, meets_newBlock, meets_setBlock]
    let o : State := { s with journal := s.journal.record (.functionStarted own.name own.signature) }
    have hv : (o.blank own.name result).Valid ⟨globals, callees, [], result⟩ _ [] := o.valid_blank
    refine (declareParams_meets hv rfl rfl).eq_ok.mono fun params s₁ h => ?_
    obtain ⟨hparams, hd⟩ := h
    have hi := hd.inside
    refine (declareLocals_meets hi.valid hi.entry_eq).eq_ok.mono fun locals s₂ h => ?_
    exact .intro hres hparams h.1

-- Balanced code can stand at any depth.
theorem foldlM_nest_add (h : code.foldlM (fun k i => i.nest k) k = some n) (m : Nat) :
    code.foldlM (fun k i => i.nest k) (k + m) = some (n + m) := by
  induction code generalizing k
  case nil =>
    cases h
    rfl
  case cons i code hi =>
    obtain ⟨l, hl, h⟩ := Option.bind_eq_some_iff.mp h
    exact Option.bind_eq_some_iff.mpr ⟨l + m, nest_add hl m, hi h⟩

-- Balanced dead code leaves no trace in live code.
theorem State.Alike.idle_left (h : s.Alike ρ t) (hv : s.Valid cx dom calls) (hd : s.isDead = true)
    (hb : Bytecode.Balanced dead)
    (hx : lowerCode cx function total position dead s = .ok () s') : s'.Alike ρ t := by
  have hn := foldlM_nest_add hb s.deadDepth
  rw [Nat.zero_add] at hn
  obtain ⟨hi, hdepth⟩ := (lowerCode_idles hv hd hn).of_ok hx
  cases h
  case live hlive _ _ => simp [hd] at hlive
  case dead hd' ht h => exact .dead hi.isDead hd' (ht.trans hdepth.symm) (h.idle_left hi)

theorem lowerCode_alike_append (hv : s.Valid cx dom calls) (hv' : t.Valid cx' dom' calls')
    (hc : cx.Renamed ρ cx') (h : s.Alike ρ t) (hb : Bytecode.Balanced dead)
    (hd : ∀ {u}, lowerCode cx function total position code s = .ok () u → u.isDead = true)
    (hx : lowerCode cx function total position (code ++ dead ++ rest) s = .ok () s')
    (hx' : lowerCode cx' function total' position' (code ++ rest) t = .ok () t') :
    ∃ σ, ρ ≤ σ ∧ s'.Alike σ t' := by
  obtain ⟨s₂, hx, hrest⟩ := exists_of_lowerCode_append hx
  obtain ⟨s₁, hcode, hdead⟩ := exists_of_lowerCode_append hx
  obtain ⟨t₁, hcode', hrest'⟩ := exists_of_lowerCode_append hx'
  obtain ⟨_, hv₁⟩ := (lowerCode_meets hv).of_ok hcode
  obtain ⟨_, hv₁'⟩ := (lowerCode_meets hv').of_ok hcode'
  obtain ⟨_, hv₂⟩ := (lowerCode_meets hv₁).of_ok hdead
  obtain ⟨σ, hle, h⟩ := lowerCode_alike hv hv' hc h hcode hcode'
  have h := h.idle_left hv₁ (hd hcode) hb hdead
  obtain ⟨σ', hle', h⟩ := lowerCode_alike hv₂ hv₁' (hc.mono hle) h hrest hrest'
  exact ⟨σ', hle.trans hle', h⟩

-- Both lowerings are at the same point behind the same code.
theorem Prepared.lowerCode_alike (h : Prepared globals callees own types cx s)
    (h' : Prepared globals callees own types cx' t)
    (hx : lowerCode cx own.name total position code s = .ok () s')
    (hx' : lowerCode cx' own.name total' position' code t = .ok () t') : ∃ ρ, s'.Alike ρ t' := by
  obtain ⟨_, hv⟩ := h.valid
  obtain ⟨_, hv'⟩ := h'.valid
  obtain ⟨ρ, hc, ha, _⟩ := h.alike h'
  obtain ⟨σ, _, ha⟩ := Direct.lowerCode_alike hv hv' hc ha hx hx'
  exact ⟨σ, ha⟩

-- Functions whose bodies differ in balanced dead code.
theorem Lowered.exists_renamed {body' : Bytecode.Body} (l : Lowered globals callees own body)
    (l' : Lowered globals callees own body') (hlocals : body'.locals = body.locals)
    (hcode : body.code = code ++ dead ++ rest) (hcode' : body'.code = code ++ rest)
    (hd : ∀ {u}, lowerCode l.context own.name body.code.length 1 code l.ready = .ok () u →
      u.isDead = true)
    (hb : Bytecode.Balanced dead) : ∃ ρ, l.last.function.trimmed.Renamed ρ l'.last.function.trimmed := by
  have hprepared := l'.prepared
  rw [hlocals] at hprepared
  obtain ⟨ρ, hc, ha, hparams⟩ := l.prepared.alike hprepared
  have hx := l.lowerCode_eq
  have hx' := l'.lowerCode_eq
  rw [hcode] at hx hd
  rw [hcode'] at hx'
  obtain ⟨σ, hle, ha⟩ := lowerCode_alike_append l.valid_ready l'.valid_ready hc ha hb hd hx hx'
  obtain ⟨σ', hle', hm⟩ := ha.concludes l.valid_ended l'.valid_ended hc.result l.concludes l'.concludes
  refine ⟨σ', hm.renamed l.finished.complete.draft l'.finished.complete.draft ?_ ?_ ?_⟩
  · rw [l.name_eq, l'.name_eq]
  · exact l'.finished.result.trans (hc.result.trans l.finished.result.symm)
  · have hp : l.last.function.params = l.ready.function.params :=
      congrArg Ssa.Declaration.params l.declaration_ready
    have hp' : l'.last.function.params = l'.ready.function.params :=
      congrArg Ssa.Declaration.params l'.declaration_ready
    rw [hp, hp']
    exact hparams.imp (hle.trans hle').1

-- The outline of a function before its code.
theorem Prepared.outlined (h : Prepared globals callees own body.locals cx s) :
    s.Outlined {} ∧ cx.environment = environment globals callees own body := by
  obtain @⟨result, origin, declared, _, params, locals, hresult, hparams, hlocals⟩ := h
  have hv : (origin.blank own.name result).Valid ⟨globals, callees, [], result⟩ _ [] :=
    origin.valid_blank
  have hi := ((declareParams_meets hv rfl rfl).of_ok hparams).inside
  have hi' := ((declareLocals_meets hi.valid hi.entry_eq).of_ok hlocals).inside
  have ha := (hi.trans hi').advances
  obtain ⟨_, _, _, hpt, hr, hs⟩ := (declareParams_mirrors (k := {}) hv.ready).of_ok hparams
  obtain ⟨_, _, _, hlt, hr', hs'⟩ := (declareLocals_mirrors (k := {}) hr).of_ok hlocals
  refine ⟨⟨hr', ?_, ?_, ha.isDead.symm, ha.isEnded.symm⟩, ?_⟩
  · rw [hs', hs]
    exact .nil
  · rw [ha.regions]
    exact .nil
  · simp only [environment, Context.environment, List.map_append, hpt, hlt, eq_of_result hresult]

theorem Prepared.exists_outline (h : Prepared globals callees own body.locals cx s)
    (hx : lowerCode cx own.name total position code s = .ok () u) :
    ∃ k, Typing.Check.code (environment globals callees own body) code {} = some ((), k) ∧
      u.Outlined k := by
  obtain ⟨_, hv⟩ := h.valid
  obtain ⟨ho, henv⟩ := h.outlined
  obtain ⟨_, k, hk, hu⟩ := (lowerCode_mirrors hv ho).of_ok hx
  exact ⟨k, henv ▸ hk, hu⟩

-- If nothing is on the stack of the region when the dead code begins, its removal does no harm.
theorem Prepared.accepts (h : Prepared globals callees own body.locals cx s)
    (hx : lowerCode cx own.name total position code s = .ok () u) (hd : u.isDead = true)
    (hf : u.stack.length = u.floor) (hb : Bytecode.Balanced dead)
    (ha : (environment globals callees own body).Accepts (code ++ dead ++ rest)) :
    (environment globals callees own body).Accepts (code ++ rest) := by
  obtain ⟨k, hk, hu⟩ := h.exists_outline hx
  refine Typing.accepts_of_balanced hk (hu.isDead.trans hd) ?_ hb ha
  rw [hu.length_eq, hu.floor_eq, hf]

section Removal

variable {options options' : Options} {body : Bytecode.Body} {origin ready : State} {f g : Function}
variable (hprepare : prepare globals callees own body.locals origin = .ok cx ready)
variable (hcode : lowerCode cx own.name total 1 code ready = .ok () u) (hdead : u.isDead = true)
variable (hb : Bytecode.Balanced dead)
include hprepare hcode hdead hb

theorem renamed_of_lowerFunction
    (hf : lowerFunction options globals callees own { body with code := code ++ dead ++ rest } s = .ok f s')
    (hg : lowerFunction options' globals callees own { body with code := code ++ rest } t = .ok g t') :
    ∃ ρ, f.Renamed ρ g := by
  have hp := prepare_meets.of_ok hprepare
  obtain ⟨l, rfl⟩ := lowerFunction_meets.of_ok hf
  obtain ⟨l', rfl⟩ := lowerFunction_meets.of_ok hg
  refine l.exists_renamed l' rfl rfl rfl (fun hx => ?_) hb
  obtain ⟨_, ha⟩ := hp.lowerCode_alike l.prepared hcode hx
  exact ha.isDead.trans hdead

theorem lowerFunction_isOk_of_dead (hfloor : u.stack.length = u.floor)
    (hf : lowerFunction options globals callees own { body with code := code ++ dead ++ rest } s = .ok f s') :
    ∃ g t', lowerFunction options' globals callees own { body with code := code ++ rest } t = .ok g t' := by
  have hp := prepare_meets.of_ok hprepare
  obtain ⟨hadmits, ha⟩ := (lowerFunction_isOk_iff ..).mp ⟨f, s', hf⟩
  exact (lowerFunction_isOk_iff ..).mpr ⟨hadmits, hp.accepts hcode hdead hfloor hb ha⟩

end Removal

end Direct

open Bytecode (Instruction)

variable {space : Space} {own : Callee} {cx : Context} {u : State} {total : Nat}
variable {code dead : List Instruction}

-- Dead code has no influence. Where it is balanced it can be taken out, and the function stays the
-- same up to the numbers of values and blocks.
theorem lowerFunction_renamed (options options' : Options) (body : Bytecode.Body)
    (rest : List Instruction) (s t : State) {origin ready : State}
    (hprepare : prepare space own body.locals origin = .ok cx ready)
    (hcode : lowerCode cx own.name total 1 code ready = .ok () u) (hdead : u.isDead = true)
    (hb : Bytecode.Balanced dead) :
    let whole := lowerFunction options space own { body with code := code ++ dead ++ rest }
    let part := lowerFunction options' space own { body with code := code ++ rest }
    (∀ f s' g t', whole s = .ok f s' → part t = .ok g t' → ∃ ρ, f.Renamed ρ g) ∧
      (u.stack.length = u.floor → t.builder.function = none → (∃ f s', whole s = .ok f s') →
        ∃ g t', part t = .ok g t') := by
  obtain ⟨-, v, hv, hr⟩ := exists_direct_prepare hprepare
  obtain ⟨w, hw, hu⟩ := exists_direct_lowerCode hr hcode
  have hd : w.isDead = true := hu.isDead.symm.trans hdead
  refine ⟨fun f s' g t' hf hg => ?renamed, fun hfloor ht hf => ?lowered⟩
  case renamed =>
    obtain ⟨_, hf⟩ := exists_direct_lowerFunction hf
    obtain ⟨_, hg⟩ := exists_direct_lowerFunction hg
    exact Direct.renamed_of_lowerFunction hv hw hd hb hf hg
  case lowered =>
    obtain ⟨f, s', hf⟩ := hf
    have hn : ∀ i ∈ code ++ rest, space.NamesCalls i := by
      intro i hi
      refine namesCalls_of_lowerFunction hf i ?_
      simp only [List.mem_append] at hi ⊢
      exact hi.imp_left .inl
    obtain ⟨_, hf⟩ := exists_direct_lowerFunction hf
    have hfloor : w.stack.length = w.floor := by rwa [← hu.stack, ← hu.floor]
    obtain ⟨g, _, hg⟩ := Direct.lowerFunction_isOk_of_dead hv hw hd hb hfloor hf
    obtain ⟨t', hg⟩ := exists_lowerFunction_of_direct hn ht hg
    exact ⟨g, t', hg⟩

-- The `if` behind a return goes away without a trace, in a block that live code leaves.
theorem lowerFunction_renamed_behind_return :
    let own : Callee := ⟨"f", ⟨[.i32], [.i32]⟩⟩
    let live : List Instruction := [.block .empty, .localGet 0, .brIf 0, .localGet 0, .return_]
    let dead : List Instruction := [.const (.i32 1), .if_ .empty, .nop, .else_, .end_]
    let rest : List Instruction := [.end_, .localGet 0, .end_]
    Bytecode.Balanced dead ∧ ∃ f s g t ρ,
      lowerFunction {} {} own ⟨0, [.f64], live ++ dead ++ rest⟩ (.start #[]) = .ok f s ∧
      lowerFunction {} {} own ⟨0, [.f64], live ++ rest⟩ (.start #[]) = .ok g t ∧ f.Renamed ρ g := by
  intro own live dead rest
  have hb : Bytecode.Balanced dead := by decide
  have hwhole : (match lowerFunction {} {} own ⟨0, [.f64], live ++ dead ++ rest⟩ (.start #[]) with
      | .ok .. => true
      | .error .. => false) = true := by decide +kernel
  have hlive : (match prepare {} own [.f64] (.start #[]) with
      | .ok cx ready =>
        match lowerCode cx own.name 13 1 live ready with
        | .ok _ u => u.isDead && u.stack.length == u.floor
        | .error .. => false
      | .error .. => false) = true := by decide +kernel
  split at hwhole
  case h_2 => cases hwhole
  case h_1 f s hf =>
    split at hlive
    case h_2 => cases hlive
    case h_1 cx ready hprepare =>
      split at hlive
      case h_2 => cases hlive
      case h_1 u hcode =>
        obtain ⟨hdead, hfloor⟩ : u.isDead = true ∧ u.stack.length = u.floor := by simpa using hlive
        obtain ⟨hrenamed, hok⟩ := lowerFunction_renamed {} {} ⟨0, [.f64], []⟩ rest (.start #[])
          (.start #[]) hprepare hcode hdead hb
        obtain ⟨g, t, hg⟩ := hok hfloor rfl ⟨f, s, hf⟩
        obtain ⟨ρ, hρ⟩ := hrenamed f s g t hf hg
        exact ⟨hb, f, s, g, t, ρ, hf, hg, hρ⟩

end StackCompiler.Lowering

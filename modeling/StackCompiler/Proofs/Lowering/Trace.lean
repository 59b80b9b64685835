import StackCompiler.Proofs.Lowering.Module
import StackCompiler.Proofs.Lowering.Relates

-- A module is lowered one function after the other. What each of them adds to the journal and to the
-- number of blocks is known from the states on its way.

namespace StackCompiler.Lowering.Direct

open Ssa (Function)

variable {R E : State → State → Prop} {s t : State} {options : Options} {f : Function}
variable {globals : List GlobalSlot} {callees : List Callee} {own : Callee} {body : Bytecode.Body}
variable {m : Bytecode.Module}

instance : Chain State.Quiet State.Quiet where
  refl := ⟨rfl, rfl, rfl⟩
  trans h₁ h₂ := ⟨h₂.function.trans h₁.function, h₂.blockCount.trans h₁.blockCount,
    h₂.totals.trans h₁.totals⟩
  stop := ⟨rfl, rfl, rfl⟩
  fail h₁ h₂ := ⟨h₂.function.trans h₁.function, h₂.blockCount.trans h₁.blockCount,
    h₂.totals.trans h₁.totals⟩

theorem note_quiet {e : Event} (he : e.isIncidental = true) :
    Relates State.Quiet State.Quiet (note e) s :=
  .modify ⟨rfl, rfl, Journal.totals_record he⟩

-- The state in which a function is begun, before its first block.
def State.fresh (s : State) (name : String) (result : Option Scalar) : State :=
  { s with
    function := .empty name result
    stack := []
    regions := []
    isDead := false
    isEnded := false }

theorem State.relates_blank [Throughout R E] {name : String} {result : Option Scalar} :
    R (s.fresh name result) (s.blank name result) := by
  have hgrow : R (s.fresh name result) (s.fresh name result).grow :=
    Relates.of_ok (E := E) (x := newBlock) Throughout.newBlock rfl
  exact Chain.trans E hgrow (Throughout.quiet E ⟨rfl, rfl, rfl⟩)

-- Up to the first instruction there are slots to set up.
theorem Lowered.relates_ready [Throughout R E] (l : Lowered globals callees own body)
    (hp : ∀ (s : State) name type, R s { s with function := (s.function.addParam name type).2 }) :
    R (l.origin.fresh own.name l.result) l.ready :=
  Chain.trans E (State.relates_blank (E := E)) <|
    Chain.trans E ((declareParams_relates (E := E) hp).of_ok l.declareParams_eq)
      ((declareLocals_relates (E := E)).of_ok l.declareLocals_eq)

theorem exists_pruneFunction (s : State) : ∃ t, pruneFunction s = .ok () t ∧
    t.blockCount = s.blockCount ∧
    t.journal.totals = s.journal.totals.record (.blocksPruned s.function.prune.1) := by
  have hp : ∃ j, s.function.pruneNoted s.journal = .ok s.function.prune j ∧
      j.totals = s.journal.totals := by
    simp only [Function.pruneNoted]
    split
    · exact ⟨_, rfl, Journal.totals_record rfl⟩
    · exact ⟨_, rfl, rfl⟩
  obtain ⟨j, hp, hj⟩ := hp
  refine ⟨{ s with
    journal := j.record (.blocksPruned s.function.prune.1)
    function := s.function.prune.2 }, ?_, rfl, ?_⟩
  · simp only [pruneFunction, bind, EStateM.bind, get_eq_ok, liftM, monadLift, MonadLift.monadLift, zoom, hp]
    rfl
  · rw [Journal.totals_record_of_counted rfl, hj]

theorem inspect_quiet : Relates State.Quiet State.Quiet (inspect options f) s := by
  have hcheck (u : State) :
      Relates State.Quiet State.Quiet (if options.verify then ofExcept f.verify else pure ()) u :=
    .ite .ofExcept .pure
  exact .ite ((note_quiet rfl).bind fun _ => hcheck) (hcheck s)

theorem report_counts (h : report options f s = .ok () t) : t.blockCount = s.blockCount ∧
    t.journal.totals = s.journal.totals.record (.functionLowered f.name f.layout.length) := by
  obtain ⟨_, u, hu, hnote⟩ := exists_of_bind_eq_ok h
  cases hnote
  have hq := inspect_quiet.of_ok hu
  exact ⟨hq.blockCount, by rw [← hq.totals]; exact Journal.totals_record_of_counted rfl⟩

-- The cleaned-up function is the only thing that is put down in the journal after the last
-- instruction.
theorem exists_of_lowerFunction_counts
    (h : lowerFunction options globals callees own body s = .ok f t) :
    ∃ l : Lowered globals callees own body,
      l.origin = { s with journal := s.journal.record (.functionStarted own.name own.signature) } ∧
      f = l.last.function.trimmed ∧ t.blockCount = l.last.blockCount ∧
      t.journal.totals = (l.last.journal.totals.record (.blocksPruned l.last.function.prune.1)).record
        (.functionLowered f.name f.layout.length) := by
  obtain ⟨g, u, htranslate, h⟩ := exists_of_bind_eq_ok h
  obtain ⟨_, _, hreport, hg⟩ := exists_of_bind_eq_ok h
  cases hg
  obtain ⟨rfl, l, hl⟩ := translate_leads.of_ok htranslate
  obtain ⟨hb, hj⟩ := report_counts hreport
  obtain ⟨j, hleft, hprune⟩ := hl.pruned
  obtain ⟨_, hprune', hb', hj'⟩ := exists_pruneFunction { l.last with journal := j }
  cases hprune.symm.trans hprune'
  have hleft : j.totals = l.last.journal.totals := by
    rcases hleft with rfl | ⟨left, rfl⟩
    · rfl
    · exact Journal.totals_record rfl
  exact ⟨l, hl.origin, hl.function, hb.trans hb', by rw [hj, hj', hleft]⟩

theorem survey_quiet : Relates State.Quiet State.Quiet (survey m) s := by
  have hexports (exports : List Bytecode.Export) (u : State) :
      Relates State.Quiet State.Quiet (exports.forM noteExport) u := by
    induction exports generalizing u
    case nil => exact .pure
    case cons e exports hi => exact .bind (.ite (note_quiet rfl) .pure) fun _ t => hi t
  exact .bind .ofExcept fun _ t => (hexports m.exports t).bind fun _ _ =>
    .bind .ofExcept fun _ _ => .bind .ofExcept fun _ _ => .pure

section Bodies

variable {bodies : List (Callee × Bytecode.Body)} {functions : List Function}

theorem exists_of_lowerBodies_cons
    (h : lowerBodies options globals callees ((own, body) :: bodies) s = .ok functions t) :
    ∃ f u rest, lowerFunction options globals callees own body s = .ok f u ∧
      lowerBodies options globals callees bodies u = .ok rest t ∧ functions = f :: rest := by
  rw [lowerBodies_cons] at h
  obtain ⟨f, u, hf, h⟩ := exists_of_bind_eq_ok h
  obtain ⟨rest, _, hrest, h⟩ := exists_of_bind_eq_ok h
  cases h
  exact ⟨f, u, rest, hf, hrest, rfl⟩

theorem length_of_lowerBodies (h : lowerBodies options globals callees bodies s = .ok functions t) :
    functions.length = bodies.length := by
  induction bodies generalizing s functions
  case nil =>
    cases h
    rfl
  case cons x bodies hi =>
    obtain ⟨_, _, rest, _, hrest, rfl⟩ := exists_of_lowerBodies_cons h
    rw [List.length_cons, hi hrest, List.length_cons]

end Bodies

-- The functions of a module come from its bodies, and nothing happens between them.
theorem exists_of_lowerModule {module : Ssa.Module} (h : lowerModule options m s = .ok module t) :
    ∃ externals globals callees u, survey m s = .ok (externals, globals, callees) u ∧
      lowerBodies options m.globalSlots callees ((callees.drop externals.length).zip m.bodies) u =
        .ok module.functions t := by
  obtain ⟨⟨externals, globals, callees⟩, u, hsurvey, h⟩ := exists_of_bind_eq_ok h
  obtain ⟨functions, _, hbodies, h⟩ := exists_of_bind_eq_ok h
  cases h
  exact ⟨externals, globals, callees, u, hsurvey, hbodies⟩

theorem exists_of_lower {j j' : Journal} {module : Ssa.Module} (h : m.lower options j = .ok module j') :
    ∃ externals globals callees s t, survey m (.start j) = .ok (externals, globals, callees) s ∧
      lowerBodies options m.globalSlots callees ((callees.drop externals.length).zip m.bodies) s =
        .ok module.functions t ∧ t.journal = j' := by
  rw [lower_eq_direct] at h
  split at h
  case h_2 => cases h
  case h_1 t hx =>
    cases h
    obtain ⟨externals, globals, callees, s, hsurvey, hbodies⟩ := exists_of_lowerModule hx
    exact ⟨externals, globals, callees, s, _, hsurvey, hbodies, rfl⟩

end StackCompiler.Lowering.Direct

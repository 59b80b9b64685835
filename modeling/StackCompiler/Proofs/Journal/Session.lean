import StackCompiler.Proofs.Journal.Tally

-- Sessions: modules that are lowered one after the other into the same journal. Where a module fails,
-- the functions that it finished before count like those of other modules.

namespace StackCompiler

open Ssa (Function)

namespace Statistics

variable {s t : Statistics} {fs : List Function} {f : Function}

-- The part of the statistics that only a finished function changes.
def ranking (s : Statistics) : Nat × Nat × String :=
  (s.functions, s.largestBlocks, s.largestName)

-- The functions that are finished, and the first of the largest among them.
structure Ranks (s : Statistics) (fs : List Function) : Prop where
  functions : s.functions = fs.length
  empty : fs = [] → s.largestBlocks = 0 ∧ s.largestName = ""
  le : ∀ f ∈ fs, f.layout.length ≤ s.largestBlocks
  first : fs ≠ [] → ∃ earlier f later, fs = earlier ++ f :: later ∧
    f.layout.length = s.largestBlocks ∧ f.name = s.largestName ∧
    ∀ g ∈ earlier, g.layout.length < s.largestBlocks

theorem Ranks.congr (h : s.Ranks fs) (ht : t.ranking = s.ranking) : t.Ranks fs := by
  obtain ⟨hf, hb, hn⟩ : t.functions = s.functions ∧ t.largestBlocks = s.largestBlocks ∧
    t.largestName = s.largestName := by simpa [ranking] using ht
  exact ⟨hf.trans h.functions, by rw [hb, hn]; exact h.empty, by rw [hb]; exact h.le,
    by rw [hb, hn]; exact h.first⟩

-- A function has at least one block, so that the first one always is the largest so far.
theorem Ranks.functionLowered (h : s.Ranks fs) (hf : f.layout ≠ []) :
    (s.record (.functionLowered f.name f.layout.length)).Ranks (fs ++ [f]) := by
  have hpos : 0 < f.layout.length := List.length_pos_iff.mpr hf
  simp only [record]
  split
  case isTrue hlt =>
    have hlt : s.largestBlocks < f.layout.length := hlt
    refine ⟨by simp [h.functions], by simp, ?_, fun _ => ⟨fs, f, [], rfl, rfl, rfl, ?_⟩⟩
    · intro g hg
      rcases List.mem_append.mp hg with hg | hg
      · exact (h.le g hg).trans hlt.le
      · rw [List.mem_singleton.mp hg]
    · exact fun g hg => (h.le g hg).trans_lt hlt
  case isFalse hge =>
    have hge : f.layout.length ≤ s.largestBlocks := Nat.le_of_not_lt hge
    have hne : fs ≠ [] := by
      intro he
      have := (h.empty he).1
      omega
    refine ⟨by simp [h.functions], by simp, ?_, fun _ => ?_⟩
    · intro g hg
      rcases List.mem_append.mp hg with hg | hg
      · exact h.le g hg
      · rwa [List.mem_singleton.mp hg]
    · obtain ⟨earlier, g, later, he, hb, hn, hlt⟩ := h.first hne
      exact ⟨earlier, g, later ++ [f], by simp [he], hb, hn, hlt⟩

theorem instructions_record {e : Event} (h : s.instructions = s.opcodes.total) :
    (s.record e).instructions = (s.record e).opcodes.total := by
  cases e
  case instructionLowered => simp [record, h]
  case functionLowered =>
    simp only [record]
    split <;> exact h
  all_goals exact h

end Statistics

-- Every instruction is counted under its opcode too.
theorem Journal.instructions_eq_total (j : Journal) :
    j.statistics.instructions = j.statistics.opcodes.total :=
  Array.foldl_induction (fun _ (s : Statistics) => s.instructions = s.opcodes.total) rfl fun _ _ =>
    Statistics.instructions_record

theorem Journal.ranking_record {j : Journal} {e : Event}
    (h : ∀ name blocks, e ≠ .functionLowered name blocks) :
    (j.record e).statistics.ranking = j.statistics.ranking := by
  rw [statistics_record]
  cases e
  case functionLowered name blocks => exact absurd rfl (h name blocks)
  all_goals rfl

theorem Journal.ranking_totals (j : Journal) : j.totals.ranking = j.statistics.ranking :=
  rfl

-- The state that a computation ends in, well or not.
def endState (x : EStateM ε σ α) (s : σ) : σ :=
  match x s with
  | .ok _ t => t
  | .error _ t => t

section EndState

variable {x : EStateM ε σ α} {k : α → EStateM ε σ β} {s t : σ} {a : α}

theorem endState_bind_of_ok (hx : x s = .ok a t) : endState (x >>= k) s = endState (k a) t := by
  simp only [endState, bind, EStateM.bind, hx]

theorem endState_bind_of_error {e : ε} (hx : x s = .error e t) : endState (x >>= k) s = t := by
  simp only [endState, bind, EStateM.bind, hx]

theorem endState_bind_pure {g : α → β} : endState (x >>= fun a => pure (g a)) s = endState x s := by
  simp only [endState, bind, EStateM.bind]
  cases x s <;> rfl

end EndState

namespace Lowering.Direct

variable {s t : State} {options : Options} {globals : List GlobalSlot} {callees : List Callee}
variable {own : Callee} {body : Bytecode.Body} {f : Function} {fs : List Function}
variable {bodies : List (Callee × Bytecode.Body)}

def State.SameRanking (s t : State) : Prop :=
  t.journal.statistics.ranking = s.journal.statistics.ranking

theorem State.Quiet.sameRanking (h : s.Quiet t) : s.SameRanking t := by
  rw [SameRanking, ← Journal.ranking_totals, h.totals]
  rfl

-- Whether or not it fails, no function is finished on the way.
instance : Throughout State.SameRanking State.SameRanking where
  refl := rfl
  trans h₁ h₂ := h₂.trans h₁
  stop := rfl
  fail h₁ h₂ := h₂.trans h₁
  quiet h := h.sameRanking
  newBlock := (Journal.ranking_record (by simp)).trans (Journal.ranking_record (by simp))
  append _ _ := rfl
  retarget _ := rfl
  phi _ _ := Journal.ranking_record (by simp)
  announced := Journal.ranking_record (by simp)

theorem pruneFunction_sameRanking :
    Relates State.SameRanking State.SameRanking pruneFunction s := by
  obtain ⟨t, hx, _, ht⟩ := exists_pruneFunction s
  have hs : s.SameRanking t := by
    rw [State.SameRanking, ← Journal.ranking_totals, ht]
    rfl
  rwa [Relates, hx]

theorem translate_sameRanking :
    Relates State.SameRanking State.SameRanking (translate globals callees own body) s := by
  have hprune (t : State) : Relates State.SameRanking State.SameRanking (do
      pruneFunction
      return (← get).function) t :=
    pruneFunction_sameRanking.bind fun _ _ => .get_bind .pure
  refine (note_relates rfl).bind fun _ _ => .bind .ofExcept fun _ _ => accept_relates.bind fun _ _ =>
    .bind (.modify rfl) fun _ _ => Throughout.newBlock.bind fun _ _ => setBlock_relates.bind fun _ _ =>
    (declareParams_relates fun _ _ _ => rfl).bind fun _ _ => declareLocals_relates.bind fun _ _ =>
    (lowerCode_relates fun _ _ => Journal.ranking_record (by simp)).bind fun _ _ =>
    .get_bind (.ite .throw_bind (closeBody_relates.bind fun _ _ => .get_bind (.ite ?_ (hprune _))))
  exact (note_relates rfl).bind fun _ => hprune

theorem ranks_of_lowerFunction (h : lowerFunction options globals callees own body s = .ok f t)
    (hs : s.journal.statistics.Ranks fs) : t.journal.statistics.Ranks (fs ++ [f]) := by
  obtain ⟨_, u, htranslate, h⟩ := exists_of_bind_eq_ok h
  obtain ⟨_, _, hreport, hg⟩ := exists_of_bind_eq_ok h
  cases hg
  have hu : u.journal.totals.Ranks fs := hs.congr (translate_sameRanking.of_ok htranslate)
  have hne : f.layout ≠ [] := by
    obtain ⟨l, rfl⟩ := translate_meets.of_ok htranslate
    exact l.finished.complete.trimmed_layout_ne_nil
  refine (hu.functionLowered hne).congr ?_
  rw [← (report_counts hreport).2, Journal.ranking_totals]

-- A function that fails does not count, however far it came.
theorem ranks_of_lowerFunction_error {e : CompileError}
    (h : lowerFunction options globals callees own body s = .error e t)
    (hs : s.journal.statistics.Ranks fs) : t.journal.statistics.Ranks fs := by
  refine hs.congr ?_
  rcases cases_of_bind_eq_error h with htranslate | ⟨g, u, htranslate, h⟩
  · exact translate_sameRanking.of_error htranslate
  rcases cases_of_bind_eq_error h with hreport | ⟨_, _, _, h⟩
  case inr => cases h
  rcases cases_of_bind_eq_error hreport with hinspect | ⟨_, _, _, h⟩
  case inr => cases h
  exact (inspect_quiet.of_error hinspect).sameRanking.trans (translate_sameRanking.of_ok htranslate)

theorem finished_of_lowerBodies (h : lowerBodies options globals callees bodies s = .ok fs t) :
    finished options globals callees bodies s = fs := by
  induction bodies generalizing s fs
  case nil =>
    cases h
    rfl
  case cons x bodies hi =>
    obtain ⟨f, u, rest, hf, hrest, rfl⟩ := exists_of_lowerBodies_cons h
    simp only [finished, hf, hi hrest]

theorem finishedFunctions_of_lowerModule {m : Bytecode.Module} {j : Journal} {module : Ssa.Module}
    (h : lowerModule options m (.start j) = .ok module t) :
    finishedFunctions m options j = module.functions := by
  obtain ⟨_, _, _, _, hsurvey, hbodies⟩ := exists_of_lowerModule h
  simp only [finishedFunctions, hsurvey, finished_of_lowerBodies hbodies]

theorem ranks_lowerBodies (hs : s.journal.statistics.Ranks fs) :
    (endState (lowerBodies options globals callees bodies) s).journal.statistics.Ranks
      (fs ++ finished options globals callees bodies s) := by
  induction bodies generalizing s fs
  case nil =>
    rw [finished, List.append_nil]
    exact hs
  case cons x bodies hi =>
    obtain ⟨own, body⟩ := x
    rw [lowerBodies_cons]
    cases hx : lowerFunction options globals callees own body s
    case error =>
      rw [endState_bind_of_error hx]
      simpa only [finished, hx, List.append_nil] using ranks_of_lowerFunction_error hx hs
    case ok f t =>
      rw [endState_bind_of_ok hx, endState_bind_pure]
      simpa only [finished, hx, List.append_assoc, List.singleton_append] using
        hi (ranks_of_lowerFunction hx hs)

end Lowering.Direct

namespace Bytecode.Module

open Lowering (Options lowerModule_tracks lower_eq_direct)
open Lowering.Direct

variable {m : Module} {options : Options} {j j' : Journal} {module : Ssa.Module} {fs : List Function}

-- The functions of a module that are finished, whether or not all of them are.
def finishedFunctions (m : Module) (options : Options) (j : Journal) : List Function :=
  (endState (Lowering.lowerModule options m) (.start j)).builder.module.functions

theorem finishedFunctions_eq_direct :
    m.finishedFunctions options j = Lowering.Direct.finishedFunctions m options j := by
  have h : Lowering.Tracks _ (Lowering.lowerModule options m) (.start j) (lowerModule options m) (.start j)
    _ := lowerModule_tracks
  unfold Lowering.Tracks at h
  rw [finishedFunctions, endState]
  cases hx : Lowering.lowerModule options m (.start j) <;>
    cases hy : lowerModule options m (.start j) <;> simp only [hx, hy] at h ⊢
  case error.error => exact h.2.2
  case ok.ok =>
    obtain ⟨rfl, -, hm⟩ := h
    rw [hm, finishedFunctions_of_lowerModule hy]

theorem finishedFunctions_of_lower (h : m.lower options j = .ok module j') :
    m.finishedFunctions options j = module.functions := by
  rw [lower_eq_direct] at h
  split at h
  case h_2 => cases h
  case h_1 hx =>
    cases h
    rw [finishedFunctions_eq_direct, finishedFunctions_of_lowerModule hx]

theorem endState_lower :
    endState (m.lower options) j = (endState (lowerModule options m) (.start j)).journal := by
  simp only [endState, lower_eq_direct]
  cases lowerModule options m (.start j) <;> rfl

theorem ranks_lower (h : j.statistics.Ranks fs) :
    (endState (m.lower options) j).statistics.Ranks (fs ++ m.finishedFunctions options j) := by
  rw [endState_lower, finishedFunctions_eq_direct, lowerModule, Lowering.Direct.finishedFunctions]
  cases hx : survey m (.start j)
  case error =>
    rw [endState_bind_of_error hx, List.append_nil]
    exact h.congr (survey_quiet.of_error hx).sameRanking
  case ok x s =>
    rw [endState_bind_of_ok hx, endState_bind_pure]
    exact ranks_lowerBodies (h.congr (survey_quiet.of_ok hx).sameRanking)

theorem gains_of_lower (h : m.lower options j = .ok module j') :
    j.statistics.Gains j'.statistics module.functions
      (m.bodies.map fun body => body.code.length).sum := by
  obtain ⟨_, _, hlength, _⟩ := lowered_of_lower h
  obtain ⟨externals, _, callees, _, _, hsurvey, hbodies, rfl⟩ := exists_of_lower h
  have hzip := length_of_lowerBodies hbodies
  rw [hlength, List.length_zip] at hzip
  have hsnd : ((callees.drop externals.length).zip m.bodies).map Prod.snd = m.bodies :=
    List.map_snd_zip (by omega)
  have hcode : (m.bodies.map fun body => body.code.length) =
      ((callees.drop externals.length).zip m.bodies).map fun x => x.2.code.length := by
    rw [← hsnd, List.map_map, hsnd]
    rfl
  have hg := gains_of_lowerBodies hbodies
  rw [(survey_quiet.of_ok hsurvey).totals, ← hcode] at hg
  exact ⟨hg.functions, hg.instructions, hg.blocks, hg.phis⟩

end Bytecode.Module

-- What a session has come to: its journal, and the functions that were finished in it.
structure Session where
  journal : Journal := #[]
  functions : List Function := []

namespace Session

open Bytecode
open Lowering (Options)

def lower (S : Session) (options : Options) (m : Bytecode.Module) : Session where
  journal := endState (m.lower options) S.journal
  functions := S.functions ++ m.finishedFunctions options S.journal

-- The session after some modules, each with the options it is lowered with.
def run (modules : List (Options × Bytecode.Module)) : Session :=
  modules.foldl (fun S x => S.lower x.1 x.2) {}

theorem ranks_run (modules : List (Options × Bytecode.Module)) :
    (run modules).journal.statistics.Ranks (run modules).functions := by
  have hrun (S : Session) (h : S.journal.statistics.Ranks S.functions) :
      (modules.foldl (fun S x => S.lower x.1 x.2) S).journal.statistics.Ranks
        (modules.foldl (fun S x => S.lower x.1 x.2) S).functions := by
    induction modules generalizing S
    case nil => exact h
    case cons x modules hi => exact hi _ (Module.ranks_lower h)
  exact hrun {} ⟨rfl, fun _ => ⟨rfl, rfl⟩, by simp, by simp⟩

-- What a module that lowers adds to the statistics is what its functions have. Over all modules of a
-- session, also those that failed, each instruction is counted under its opcode, and the largest
-- function is the first one of the finished functions that no other exceeds.
theorem statistics_balance :
    (∀ (m : Bytecode.Module) (options : Options) (j j' : Journal) (module : Ssa.Module),
      m.lower options j = .ok module j' →
      j.statistics.Gains j'.statistics module.functions
        (m.bodies.map fun body => body.code.length).sum ∧
      m.finishedFunctions options j = module.functions) ∧
    ∀ modules : List (Options × Bytecode.Module),
      (run modules).journal.statistics.instructions = (run modules).journal.statistics.opcodes.total ∧
      (run modules).journal.statistics.Ranks (run modules).functions :=
  ⟨fun _ _ _ _ _ h => ⟨Module.gains_of_lower h, Module.finishedFunctions_of_lower h⟩,
    fun modules => ⟨Journal.instructions_eq_total _, ranks_run modules⟩⟩

-- The second body takes an operand that is not there.
def interrupted : Bytecode.Module where
  types := [⟨[], []⟩]
  bodies := [⟨0, [], [.block .empty, .end_, .end_]⟩, ⟨0, [], [.drop, .end_]⟩]

-- The code behind the branch is dead, and the block's result comes from the branch alone.
def leaping : Bytecode.Module where
  types := [⟨[], [.i32]⟩]
  bodies := [⟨0, [], [.block (.value .i32), .const (.i32 1), .br 0, .end_, .end_]⟩]

theorem exists_leaping : ∃ module j',
    leaping.lower {} (run [({}, interrupted)]).journal = .ok module j' ∧
    (run [({}, interrupted), ({}, leaping)]).functions.length = 2 := by
  have h : (match leaping.lower {} (run [({}, interrupted)]).journal with
      | .ok .. => (run [({}, interrupted), ({}, leaping)]).functions.length == 2
      | .error .. => false) = true := by decide +kernel
  split at h
  case h_1 module j' hx => exact ⟨module, j', hx, by simpa using h⟩
  case h_2 => cases h

theorem statistics_balance_leaping : ∃ module j',
    leaping.lower {} (run [({}, interrupted)]).journal = .ok module j' ∧
    (run [({}, interrupted)]).journal.statistics.Gains j'.statistics module.functions 5 ∧
    (run [({}, interrupted), ({}, leaping)]).functions.length = 2 ∧
    (run [({}, interrupted), ({}, leaping)]).journal.statistics.Ranks
      (run [({}, interrupted), ({}, leaping)]).functions := by
  obtain ⟨module, j', h, hn⟩ := exists_leaping
  obtain ⟨hgains, hranks⟩ := statistics_balance
  exact ⟨module, j', h, (hgains _ _ _ _ _ h).1, hn, (hranks _).2⟩

end Session

end StackCompiler

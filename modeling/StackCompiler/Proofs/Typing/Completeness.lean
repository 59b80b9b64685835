import StackCompiler.Proofs.Typing.Acceptance
import StackCompiler.Proofs.Typing.Nesting

-- Which modules are lowered without fail: those whose bodies pass validation, unless dead code takes an
-- operand that a jump left behind and does not accept it.

namespace StackCompiler

namespace Typing

open Bytecode (Instruction)

variable {env : Environment} {k l : Outline} {v w : Validation} {code : List Instruction}
variable {counts : List Nat}

-- The functions that the code calls have signatures that fit the registers.
def Environment.AdmitsCalls (env : Environment) (instructions : List Instruction) : Prop :=
  ∀ i ∈ instructions, ∀ index ∈ i.callee?, ∀ callee ∈ env.callees[index]?, admits callee
deriving Decidable

theorem step_follows {i : Instruction} (h : k.Covered env v counts)
    (ha : ∀ index, i = .call index → ∀ callee, env.callees[index]? = some callee → admits callee = true)
    (hs : k.suits (env.demands i) (counts.headD 0) = true) :
    Follows (Validate.step env i) v (Check.step env i) k fun _ w _ l =>
      l.Covered env w (k.leave env i counts) ∨ w.controls = [] ∧ l.Concluded env := by
  have hawaits : k.Awaits env (env.demands i) v
      (min (counts.headD 0) (k.operands.length - (env.demands i).length) :: counts.tail) := by
    obtain ⟨_, _, _, _, _, _, _, _, rfl, _⟩ := h.exists_innermost
    exact .intro h hs rfl
  cases i
  case block type | loop type =>
    simp only [Validate.step, Check.step]
    cases resultOf type
    case none => exact .fail
    case some => exact (enter_follows hawaits.covered).mono fun _ _ _ _ h => .inl h
  case if_ type =>
    simp only [Validate.step, Check.step]
    cases resultOf type
    case none => exact .fail
    case some =>
      refine (popCondition_follows hawaits).bind fun _ _ _ _ h => ?_
      exact (enter_follows h.covered).mono fun _ _ _ _ h => .inl h
  case else_ => exact (turn_follows h).mono fun _ _ _ _ h => .inl h
  case end_ => exact close_follows h
  case br => exact (branch_follows h).mono fun _ _ _ _ h => .inl h
  case brIf => exact (branchIf_follows hawaits).mono fun _ _ _ _ h => .inl h
  case return_ => exact (return_follows h).mono fun _ _ _ _ h => .inl h
  all_goals exact (step_inside_follows hawaits ha trivial).mono fun _ _ _ _ h => .inl h

theorem code_follows (h : k.Covered env v counts) (ha : env.AdmitsCalls code)
    (hs : Check.harmless env code k counts = true) :
    Follows (Validate.code env code) v (Check.code env code) k fun _ w _ l =>
      (∃ counts, l.Covered env w counts) ∨ w.controls = [] ∧ l.Concluded env := by
  induction code generalizing k v counts
  case nil => exact .pure (.inl ⟨counts, h⟩)
  case cons i code hi =>
    rw [Check.harmless, Bool.and_eq_true] at hs
    obtain ⟨hsuits, hrest⟩ := hs
    have hcall (index : Nat) (he : i = .call index) (callee : Bytecode.Signature) :
        env.callees[index]? = some callee → admits callee = true :=
      ha i List.mem_cons_self index (he ▸ rfl) callee
    refine .get (.of_guard fun _ => .guarded h.isEnded ?_)
    refine (step_follows h hcall hsuits).eq_some.bind fun _ v' _ l hl => ?_
    obtain ⟨hstep, hcovered | ⟨hv', hend⟩⟩ := hl
    · rw [hstep] at hrest
      exact hi hcovered (fun i hm => ha i (List.mem_cons_of_mem _ hm)) hrest
    · -- Nothing can follow the end of the body.
      cases code
      case nil => exact .pure (.inr ⟨hv', hend⟩)
      case cons => exact .get (.of_guard fun hne => absurd hv' hne)

theorem covered_start (env : Environment) : Outline.Covered env {} (.start env) [0] := by
  have hc : Covers env false ([] ++ []) [] [0] ([] ++ []) [⟨.block, env.result, 0, false⟩] :=
    .body fun _ => ⟨rfl, rfl, rfl⟩
  exact ⟨rfl, hc⟩

theorem Validate.code_append {code' : List Instruction} :
    Validate.code env (code ++ code') = (do Validate.code env code; Validate.code env code') := by
  induction code
  case nil => rfl
  case cons i code hi => simp only [List.cons_append, Validate.code, hi, bind_assoc]

theorem Validate.exit_of_code {a : Unit} (h : Validate.code env [.end_] v = some (a, w)) :
    v.controls ≠ [] ∧ ∃ c u, Validate.exit v = some (c, u) ∧ u.controls = w.controls := by
  have hcode : Validate.code env [.end_] v = (do
      guard (v.controls ≠ [])
      Validate.close : Validate Unit) v := by
    change (do guard (v.controls ≠ []); Validate.close; pure () : Validate Unit) v = _
    rw [bind_pure_unit]
  rw [hcode] at h
  obtain ⟨⟨_, u⟩, hg, hclose⟩ := Option.bind_eq_some_iff.mp h
  obtain ⟨hne, rfl⟩ := guard_eq_some_iff.mp hg
  obtain ⟨⟨c, u⟩, hexit, hclose⟩ := Option.bind_eq_some_iff.mp hclose
  obtain ⟨⟨_, u'⟩, hg, hpush⟩ := Option.bind_eq_some_iff.mp hclose
  obtain ⟨_, rfl⟩ := guard_eq_some_iff.mp hg
  cases Validate.pushResult_eq.symm.trans hpush
  exact ⟨hne, c, u', hexit, rfl⟩

-- What the body leaves in the end is its result.
theorem accepts_of_concluded (hc : Check.code env code {} = some ((), k)) (h : k.Concluded env) :
    env.Accepts code := by
  refine accepts_iff.mpr ⟨k, hc, h.brackets, fun hd => ?_⟩
  have hconclude : Check.conclude env.result k = some ((), { k with stack := [] }) :=
    Check.conclude_eq (by rw [h.stack hd, List.append_nil]) (by simp [Outline.floor, h.brackets])
  rw [hconclude]
  rfl

-- A body that passes validation passes the check if it accepts what jumps in dead code leave behind, and
-- only then.
theorem accepts_iff_harmless (hv : env.Validates code) (ha : env.AdmitsCalls code) :
    env.Accepts code ↔ env.Harmless code := by
  refine ⟨fun h => ?_, fun hs => ?_⟩
  · obtain ⟨l, hl, _⟩ := accepts_iff.mp h
    exact Check.harmless_of_code hl [0]
  · have hfollows := code_follows (covered_start env) ha hs
    rcases hv with hv | hv
    · obtain ⟨⟨_, w⟩, hcode, hw⟩ := (Option.any_eq_true _ _).mp hv
      obtain ⟨_, l, hl, ⟨_, hcovered⟩ | ⟨_, hend⟩⟩ := hfollows _ _ hcode
      · have hlen := hcovered.covers.length_eq
        have hw : w.controls = [] := List.isEmpty_iff.mp hw
        simp [hw] at hlen
      · exact accepts_of_concluded hl hend
    · obtain ⟨⟨_, w⟩, hcode, hw⟩ := (Option.any_eq_true _ _).mp hv
      rw [Validate.code_append] at hcode
      obtain ⟨⟨_, u⟩, hcode, hend⟩ := Option.bind_eq_some_iff.mp hcode
      obtain ⟨_, l, hl, ⟨_, hcovered⟩ | ⟨hu, _⟩⟩ := hfollows _ _ hcode
      · obtain ⟨_, c, w', hexit, hw'⟩ := Validate.exit_of_code hend
        exact accepts_of_concluded hl (hcovered.concluded_of_exit hexit (hw' ▸ List.isEmpty_iff.mp hw))
      · exact absurd hu (Validate.exit_of_code hend).1

end Typing

namespace Bytecode.Module

open Lowering (Options)

-- Whatever passes validation is lowered, if its functions and those that they call fit the registers and
-- no instruction takes an operand that a jump in dead code left behind at a type that it does not accept.
theorem lower_isOk_iff_of_validates {m : Module} (options : Options) (j : Journal)
    (himports : ∀ i ∈ m.imports, m.Links i)
    (hglobals : ∀ g ∈ m.globals, g.initial.type = g.type ∨ g.type = .ptr ∧ g.initial.type = .i64)
    (hbodies : ∀ body ∈ m.bodies, ∃ sig, m.types[body.type]? = some sig ∧ Typing.admits sig ∧
      (m.environment sig body).AdmitsCalls body.code ∧
      (m.environment sig body).Validates body.code) :
    (∃ module j', m.lower options j = .ok module j') ↔
      ∀ body ∈ m.bodies, ∀ sig ∈ m.types[body.type]?, (m.environment sig body).Harmless body.code := by
  rw [lower_isOk_iff]
  refine ⟨fun h body hb sig hsig => ?_, fun h => ⟨himports, fun g hg => ?_, fun body hb => ?_⟩⟩
  · obtain ⟨_, hsig', _, hcalls, hvalid⟩ := hbodies body hb
    obtain ⟨_, hsig'', _, haccepts⟩ := h.2.2 body hb
    cases hsig'.symm.trans hsig
    cases hsig''.symm.trans hsig
    exact (Typing.accepts_iff_harmless hvalid hcalls).mp haccepts
  · simpa [Global.accepts] using hglobals g hg
  · obtain ⟨sig, hsig, hadmits, hcalls, hvalid⟩ := hbodies body hb
    exact ⟨sig, hsig, hadmits, (Typing.accepts_iff_harmless hvalid hcalls).mpr (h body hb sig hsig)⟩

-- The body of a function without parameters and results, with an import of type `i32 → i32`.
def single (code : List Instruction) : Module where
  types := [⟨[], []⟩, ⟨[.i32], [.i32]⟩]
  imports := [⟨"env", "f", .function 1⟩]
  globals := [⟨.ptr, true, .i64 0⟩]
  bodies := [⟨0, [.f64], code⟩]

-- A branch brings its result along past dead code that takes operands from nowhere. Further jumps leave
-- an integer behind, which is taken for one, and a number, which nothing asks for.
theorem lower_isOk_of_harmless_leftovers : ∃ module j',
    (single [.block (.value .i32), .const (.i32 1), .call 0, .br 0, .neg .f64, .drop, .const (.i32 2),
      .br 1, .call 0, .const (.f64 0), .return_, .end_, .brIf 0, .end_]).lower {} #[] = .ok module j' :=
  (lower_isOk_iff_of_validates {} #[] (by simp [single, Links]) (by decide) <|
    List.forall_mem_singleton.mpr ⟨_, rfl, by decide, by decide, by decide⟩).mpr <|
    List.forall_mem_singleton.mpr (by rintro _ ⟨⟩; decide)

-- A jump in dead code leaves an integer behind, which the next instruction then takes for its
-- operand.
theorem not_lower_leftover :
    let code := [.return_, .const (.i32 1), .br 0, .neg .f64, .drop, .end_]
    let m : Module := { types := [⟨[], []⟩], bodies := [⟨0, [], code⟩] }
    (∀ body ∈ m.bodies, ∃ sig, m.types[body.type]? = some sig ∧ Typing.admits sig ∧
      (m.environment sig body).AdmitsCalls body.code ∧ (m.environment sig body).Validates body.code) ∧
      ¬∃ module j', m.lower {} #[] = .ok module j' := by
  refine ⟨List.forall_mem_singleton.mpr ⟨_, rfl, by decide, by decide, by decide⟩, fun h => ?_⟩
  obtain ⟨_, _, hbodies⟩ := lower_isOk_iff.mp h
  obtain ⟨sig, hsig, _, haccepts⟩ := List.forall_mem_singleton.mp hbodies
  cases hsig
  revert haccepts
  decide

end Bytecode.Module

end StackCompiler

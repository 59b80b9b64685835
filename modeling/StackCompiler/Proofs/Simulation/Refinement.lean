import StackCompiler.Proofs.Lowering.Output
import StackCompiler.Proofs.Simulation.Start

-- Lowering preserves meaning: stack code and the function that it is lowered to end in the same way.

namespace StackCompiler

namespace Lowering.Direct

open Bytecode (Module Signature ValueType)
open Ssa (Function Scope)

variable {I : Interpretation} {globals : List GlobalSlot} {callees : List Callee} {own : Callee}
variable {body : Bytecode.Body} {f : Function} {dom : Scope} {s : State} {name : String}
variable {result : Option Scalar} {args : List I.Value} {m : Module}

theorem given_start {entry : Ssa.BlockId} : Given f args (Ssa.Config.start f.trimmed args entry) := by
  intro v d k hd ho
  have hd : f.trimmed.value? v = some d := hd
  simp [Ssa.Config.start, hd, ho]

-- Before its first instruction a function has no slots.
theorem agrees_start {code : List Bytecode.Instruction} (hf : f.Complete dom)
    (hr : f.Reaches (s.blank name result).block) :
    Agrees ⟨globals, callees, [], result⟩ f (s.blank name result) ⟨code, [], [], []⟩
      (Ssa.Config.start f.trimmed args (s.blank name result).block) where
  block := rfl
  rest := by
    simp only [Ssa.Config.start, Function.code_trimmed hf.draft hr, State.after, State.blank_insts]
    rfl
  stack := .nil
  locals := .nil
  created := State.blank_created_iff.mpr rfl
  known := by simp
  slots := by simp

namespace Lowered

variable (l : Lowered globals callees own body)

theorem reaches_entry : l.last.function.Reaches (l.origin.blank own.name l.result).block := by
  have hl : l.ready.isDead = false := l.advances_ready.isDead
  exact l.advances_ready.block ▸ l.finishes.becomes.reaches (l.valid_ready.live_iff.mp hl)

theorem entry_eq : l.last.function.entry = some (l.origin.blank own.name l.result).block :=
  l.finished.complete.draft.entry_eq

theorem fills_params (hl : args.length = own.signature.params.length) :
    Fills globals callees l.result args [] (l.origin.blank own.name l.result) l.params l.declared
      (pure (own.signature.paramTypes.zipWith Stack.Typed.mk args)) := by
  have hv : (l.origin.blank own.name l.result).Valid ⟨globals, callees, [], l.result⟩ _ [] :=
    l.origin.valid_blank
  have hp : (l.origin.blank own.name l.result).function.params = [] := rfl
  refine (declareParams_fills [] hv.ready ?_ ?_).of_ok l.declareParams_eq
  · rw [hp, List.length_nil]
  · rw [Nat.zero_add, hl, Signature.paramTypes, List.length_map]

theorem fills_locals (hl : args.length = own.signature.params.length) :
    Fills globals callees l.result args l.params l.declared l.locals l.ready
      (body.locals.mapM fun ty => do
        return ⟨ty.scalar, ← I.constant ty.scalar (.zero ty.scalar)⟩) :=
  (declareLocals_fills l.params (l.fills_params hl).ready).of_ok l.declareLocals_eq

theorem distinct (hl : args.length = own.signature.params.length) :
    Distinct l.ready.function l.context.locals :=
  (l.fills_locals hl).distinct ((l.fills_params hl).distinct ⟨by simp, by simp⟩)

theorem tracks {c : Stack.Config I} {e : Ssa.Config I} (hc : c.code = body.code) (hl : c.labels = [])
    (ha : Agrees l.context l.last.function l.ready c e) :
    Tracks l.context l.last.function l.ready c e where
  finishes := hc ▸ l.finishes
  live := l.advances_ready.isDead
  agrees := ha
  labels := by
    rw [l.advances_ready.regions, hl]
    exact .nil

-- The code before the body puts the arguments and zeros where the body looks for its locals.
theorem follows_start (hl : args.length = own.signature.params.length) :
    Follows (Ssa.Config.step l.last.function.trimmed)
      (fun c e => ∃ s, Tracks l.context l.last.function s c e)
      (Stack.start own.signature body args)
      (pure (.run (Ssa.Config.start l.last.function.trimmed args
        (l.origin.blank own.name l.result).block))) := by
  have hb := l.finishes.becomes.toBegins
  have hp := l.fills_params hl
  have hz := l.fills_locals hl
  have h : Agrees ⟨globals, callees, [], l.result⟩ _ _ ⟨body.code, [], [], []⟩
      (Ssa.Config.start l.last.function.trimmed args _) :=
    agrees_start l.finished.complete l.reaches_entry
  let rest (params : List (Stack.Typed I)) : I.Effect (Stack.Result I) := do
    let zeros ← body.locals.mapM fun ty => do
      return ⟨ty.scalar, ← I.constant ty.scalar (.zero ty.scalar)⟩
    return .run ⟨body.code, [], [], params ++ zeros⟩
  refine hp.performs (hz.grows.begins hb) given_start h rest fun params e₁ ⟨hg₁, h₁⟩ => ?_
  exact hz.performs hb hg₁ h₁ _ fun zeros e₂ ⟨_, h₂⟩ => .pure ⟨l.ready, l.tracks rfl rfl h₂⟩

end Lowered

theorem describes_of_numbered (l : Lowered m.globalSlots callees own body) (hn : Numbered m callees)
    (hd : (l.context.locals.map Slot.address).Nodup) : l.context.Describes m own.signature where
  global {index slot} hg := by
    have ⟨g, hg, he⟩ : ∃ g : Bytecode.Global, m.globals[index]? = some g ∧ g.toSlot index = slot := by
      simpa [Lowered.context, Module.globalSlots] using hg
    exact ⟨g, hg, he ▸ rfl, he ▸ rfl⟩
  callee {index callee} hc := by
    have hc : m.callee? index = some callee := hn.getElem? index ▸ hc
    have ⟨s, hs, he⟩ := Option.map_eq_some_iff.mp hc
    exact ⟨he ▸ hs, he ▸ rfl⟩
  result := l.result_eq
  distinct := hd

end Lowering.Direct

namespace Bytecode.Module

open Lowering (Callee Options)
open Lowering.Direct

variable {m : Module} {options : Options} {j j' : Journal} {module : Ssa.Module} {body : Body}

-- Whatever the operations mean, a body ends in a world with a result, or traps, if and only if the
-- function in its place does.
theorem lower_ends_iff (h : m.lower options j = .ok module j') (k : Nat)
    (hb : m.bodies[k]? = some body) :
    ∃ f sig, module.functions[k]? = some f ∧ m.signature? (m.imports.length + k) = some sig ∧
      ∀ (I : Interpretation) (args : List I.Value), args.length = sig.params.length → ∀ w o,
        Ends (Stack.Config.step m sig) (Stack.start sig body args) w o ↔ f.Ends args w o := by
  have ⟨callees, hn, hlen, hl⟩ := lowered_of_lower h
  have ⟨hk, _⟩ := List.getElem?_eq_some_iff.mp hb
  have ⟨f, hf⟩ : ∃ f, module.functions[k]? = some f :=
    ⟨_, List.getElem?_eq_getElem (hlen ▸ hk)⟩
  have ⟨own, body', hb', ho, l, he⟩ := hl k f hf
  cases hb.symm.trans hb'
  have ⟨sig, hs, ho⟩ := Option.map_eq_some_iff.mp ho
  have hsig : own.signature = sig := ho ▸ rfl
  refine ⟨f, sig, hf, hs, fun I args ha w o => ?_⟩
  subst he hsig
  have hd := describes_of_numbered l hn (l.distinct ha).nodup
  rw [(simulation l.finished.complete hd).ends_iff (l.follows_start ha)]
  refine ⟨fun hends => ⟨_, l.entry_eq, hends⟩, fun ⟨entry, hentry, hends⟩ => ?_⟩
  cases l.entry_eq.symm.trans hentry
  exact hends

-- Constants as values that can only be told apart, and calls that trap with the name they call.
def bare : Interpretation where
  Value := Ssa.Constant
  Memory := Unit
  Trap := String
  constant _ c := return c
  binary _ _ x _ := return x
  neg _ x := return x
  cast _ _ x := return x
  compare _ _ x y := return x != y
  load _ x := return x
  store _ _ _ := return ()
  call name _ := throw name

theorem lower_ends_iff_choice : ∃ module j' f, choice.lower {} #[] = .ok module j' ∧
    module.functions[0]? = some f ∧ ∀ w : World Ssa.Constant Unit,
      f.Ends (I := bare) [.int 0] w (.ok (some (.int 1)) w) ∧
      f.Ends (I := bare) [.int 5] w (.error "unnamed0" w) := by
  have ⟨module, j', f, h, hf, _⟩ := exists_choice
  have ⟨f', sig, hf', hs, hiff⟩ := lower_ends_iff h 0 rfl
  cases hf.symm.trans hf'
  cases hs
  refine ⟨module, j', f, h, hf, fun w => ⟨?_, ?_⟩⟩
  · refine (hiff bare _ rfl w _).mp ?_
    exact ⟨_, .run rfl rfl <| .run rfl rfl <| .run rfl rfl <| .run rfl rfl <| .run rfl rfl <| .halt rfl⟩
  · refine (hiff bare _ rfl w _).mp ?_
    exact ⟨_, .run rfl rfl <| .run rfl rfl <| .run rfl rfl <| .run rfl rfl <| .trap rfl⟩

end Bytecode.Module

end StackCompiler

import StackCompiler.Proofs.Lowering.Relates

-- The name, the result and the parameters of a function are settled before its code is lowered.

namespace StackCompiler

namespace Ssa

structure Declaration where
  name : String
  result : Option Scalar
  params : List ValueId
deriving DecidableEq, Repr

namespace Function

variable {f g : Function} {b old new : BlockId} {v : ValueId} {name : String} {type : Option Scalar}
variable {op : Op}

def declaration (f : Function) : Declaration :=
  ⟨f.name, f.result, f.params⟩

theorem declaration_append (h : append b name type op f = .ok v g) :
    g.declaration = f.declaration := by
  rw [append_eq] at h
  split at h
  case isTrue => cases h
  case isFalse =>
    split at h
    case isTrue => cases h
    case isFalse =>
      cases h
      rfl

theorem declaration_retarget (h : retarget b old new f = .ok () g) :
    g.declaration = f.declaration := by
  obtain ⟨_, _, _, _, rfl⟩ := exists_of_retarget h
  rw [redirect]
  split <;> rfl

end Function

end Ssa

namespace Lowering.Direct

def State.SameDeclaration (s t : State) : Prop :=
  t.function.declaration = s.function.declaration

instance : Throughout State.SameDeclaration State.Whatever where
  refl := rfl
  trans h₁ h₂ := h₂.trans h₁
  stop := trivial
  fail _ _ := trivial
  quiet h := congrArg Ssa.Function.declaration h.function
  newBlock := rfl
  append _ h := Ssa.Function.declaration_append h
  retarget h := Ssa.Function.declaration_retarget h
  phi _ h := Ssa.Function.declaration_append h
  announced := trivial

theorem Relates.declaration_eq {x : Lower α} {a : α} {s t : State}
    (h : Relates State.SameDeclaration State.Whatever x s) (hx : x s = .ok a t) :
    t.function.declaration = s.function.declaration :=
  h.of_ok hx

end Lowering.Direct

end StackCompiler

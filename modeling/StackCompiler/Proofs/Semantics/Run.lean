import StackCompiler.Ssa.Instruction

-- Runs of machines whose steps act on a world, and simulations between such machines.

namespace StackCompiler

-- The part of the state that outlives a call. Globals have a place of their own, apart from the
-- memory that pointers reach.
structure World (Value Memory : Type) where
  memory : Memory
  globals : Ssa.GlobalId → Value

-- A meaning for the operations that stack code and single-assignment code have in common. Each of
-- them may change the world, and each may trap.
structure Interpretation where
  Value : Type
  Memory : Type
  Trap : Type
  constant : Scalar → Ssa.Constant → EStateM Trap (World Value Memory) Value
  binary : Scalar → BinaryOp → Value → Value → EStateM Trap (World Value Memory) Value
  neg : Scalar → Value → EStateM Trap (World Value Memory) Value
  cast (source target : Scalar) : Value → EStateM Trap (World Value Memory) Value
  compare : Scalar → Comparison → Value → Value → EStateM Trap (World Value Memory) Bool
  load (type : Scalar) (address : Value) : EStateM Trap (World Value Memory) Value
  store (type : Scalar) (value address : Value) : EStateM Trap (World Value Memory) Unit
  -- A call of the function of that name. What a procedure gives is not looked at.
  call (name : String) (args : List Value) : EStateM Trap (World Value Memory) Value

namespace Interpretation

variable (I : Interpretation)

abbrev Effect :=
  EStateM I.Trap (World I.Value I.Memory)

-- How a call ends: with a result, if there is one, or with a trap, and in either case with a world.
abbrev Outcome :=
  EStateM.Result I.Trap (World I.Value I.Memory) (Option I.Value)

variable {I}

def getGlobal (id : Ssa.GlobalId) : I.Effect I.Value := do
  return (← get).globals id

def setGlobal (id : Ssa.GlobalId) (v : I.Value) : I.Effect Unit :=
  modify fun w => { w with globals := fun i => if i = id then v else w.globals i }

end Interpretation

-- What a step leads to.
inductive Next (C R : Type) where
  | run (c : C)
  | halt (r : R)

section Runs

variable {E W C R : Type} (step : C → Option (EStateM E W (Next C R)))

-- The computation, and the steps that follow it, end with an outcome. A machine that is stuck does
-- not end.
inductive EndsIn : Nat → EStateM E W (Next C R) → W → EStateM.Result E W R → Prop
  | halt {x w r w'} : x w = .ok (.halt r) w' → EndsIn 0 x w (.ok r w')
  | trap {x w e w'} : x w = .error e w' → EndsIn 0 x w (.error e w')
  | run {n x w c w' y o} : x w = .ok (.run c) w' → step c = some y → EndsIn n y w' o →
    EndsIn (n + 1) x w o

def Ends (x : EStateM E W (Next C R)) (w : W) (o : EStateM.Result E W R) : Prop :=
  ∃ n, EndsIn step n x w o

-- The computation, and the steps that follow it, come to a configuration.
inductive Arrives : EStateM E W (Next C R) → W → C → W → Prop
  | here {x w c w'} : x w = .ok (.run c) w' → Arrives x w c w'
  | step {x w c w₁ y d w'} : x w = .ok (.run c) w₁ → step c = some y → Arrives y w₁ d w' →
    Arrives x w d w'

variable {step} {x y : EStateM E W (Next C R)} {w w' : W} {c d : C} {n : Nat}
variable {o o' : EStateM.Result E W R}

theorem EndsIn.of_run (hx : x w = .ok (.run c) w') (h : EndsIn step n x w o) :
    ∃ m y, n = m + 1 ∧ step c = some y ∧ EndsIn step m y w' o := by
  cases h
  case halt h => simp [hx] at h
  case trap h => simp [hx] at h
  case run m c' w₁ y hs h he =>
    cases hx.symm.trans h
    exact ⟨m, y, rfl, hs, he⟩

theorem EndsIn.of_halt {r : R} (hx : x w = .ok (.halt r) w') (h : EndsIn step n x w o) :
    o = .ok r w' := by
  cases h <;> simp_all

theorem EndsIn.of_trap {e : E} (hx : x w = .error e w') (h : EndsIn step n x w o) :
    o = .error e w' := by
  cases h <;> simp_all

theorem EndsIn.unique {m : Nat} (h : EndsIn step n x w o) (h' : EndsIn step m x w o') : o' = o := by
  induction h generalizing m
  case halt hx => exact h'.of_halt hx
  case trap hx => exact h'.of_trap hx
  case run hx hs _ hi =>
    have ⟨_, _, _, hs', h'⟩ := h'.of_run hx
    cases hs.symm.trans hs'
    exact hi h'

theorem Ends.run (hx : x w = .ok (.run c) w') (hs : step c = some y) (h : Ends step y w' o) :
    Ends step x w o :=
  have ⟨_, h⟩ := h
  ⟨_, .run hx hs h⟩

theorem Arrives.ends (h : Arrives step x w c w') (he : Ends step (pure (.run c)) w' o) :
    Ends step x w o := by
  induction h
  case here hx =>
    have ⟨_, he⟩ := he
    have ⟨_, _, _, hs, he⟩ := he.of_run rfl
    exact .run hx hs ⟨_, he⟩
  case step hx hs _ hi => exact .run hx hs (hi he)

-- What ends after it came to a configuration ends no later from there.
theorem Arrives.endsIn (h : Arrives step x w c w') (he : EndsIn step n x w o) :
    ∃ m ≤ n, EndsIn step m (pure (.run c)) w' o := by
  induction h generalizing n
  case here hx =>
    have ⟨m, _, hn, hs, he⟩ := he.of_run hx
    exact ⟨m + 1, Nat.le_of_eq hn.symm, .run rfl hs he⟩
  case step hx hs _ hi =>
    have ⟨_, _, hn, hs', he⟩ := he.of_run hx
    cases hs.symm.trans hs'
    have ⟨m, hm, he⟩ := hi he
    exact ⟨m, by omega, he⟩

-- Only what a computation does matters.
theorem EndsIn.congr {x' : EStateM E W (Next C R)} {w₁ : W} (hx : x' w₁ = x w)
    (h : EndsIn step n x w o) : EndsIn step n x' w₁ o := by
  cases h
  case halt h => exact .halt (hx.trans h)
  case trap h => exact .trap (hx.trans h)
  case run hs h he => exact .run (hx.trans h) hs he

theorem Arrives.congr {x' : EStateM E W (Next C R)} {w₁ : W} (hx : x' w₁ = x w)
    (h : Arrives step x w c w') : Arrives step x' w₁ c w' := by
  cases h
  case here h => exact .here (hx.trans h)
  case step hs h ha => exact .step (hx.trans h) hs ha

end Runs

section Simulation

variable {E W A B R : Type} {stepA : A → Option (EStateM E W (Next A R))}
variable {stepB : B → Option (EStateM E W (Next B R))} {Rel : A → B → Prop} {size : A → Nat}
variable {x : EStateM E W (Next A R)} {y : EStateM E W (Next B R)} {w : W}
variable {o : EStateM.Result E W R}

-- The second machine comes to where the first one comes by a single computation.
def Follows (stepB : B → Option (EStateM E W (Next B R))) (Rel : A → B → Prop)
    (x : EStateM E W (Next A R)) (y : EStateM E W (Next B R)) : Prop :=
  ∀ w, match x w with
    | .ok (.run a) w' => ∃ b, Arrives stepB y w b w' ∧ Rel a b
    | .ok (.halt r) w' => Ends stepB y w (.ok r w')
    | .error e w' => Ends stepB y w (.error e w')

-- A machine that never gets stuck while the other one keeps up with it. Where the other one does
-- nothing, something gets smaller.
structure Simulation (stepA : A → Option (EStateM E W (Next A R)))
    (stepB : B → Option (EStateM E W (Next B R))) (Rel : A → B → Prop) (size : A → Nat) : Prop where
  step : ∀ {a b}, Rel a b → ∃ x, stepA a = some x ∧
    ((∃ y, stepB b = some y ∧ Follows stepB Rel x y) ∨
      ∃ a', x = pure (.run a') ∧ size a' < size a ∧ Rel a' b)

theorem Follows.pure {a : A} {b : B} (h : Rel a b) :
    Follows stepB Rel (Pure.pure (.run a)) (Pure.pure (.run b)) :=
  fun _ => ⟨b, .here rfl, h⟩

theorem Follows.step {b : B} (hb : stepB b = some y) (h : Follows stepB Rel x y) :
    Follows stepB Rel x (Pure.pure (.run b)) := by
  intro w
  have h := h w
  split at h
  case h_1 =>
    have ⟨c, hc, hr⟩ := h
    exact ⟨c, .step rfl hb hc, hr⟩
  case h_2 => exact .run rfl hb h
  case h_3 => exact .run rfl hb h

-- The machines begin with the same operation.
theorem Follows.bind {p : EStateM E W α} {k : α → EStateM E W (Next A R)}
    {l : α → EStateM E W (Next B R)} (h : ∀ v, Follows stepB Rel (k v) (l v)) :
    Follows stepB Rel (p >>= k) (p >>= l) := by
  intro w
  cases hp : p w
  case error e w' =>
    have hk : (p >>= k) w = .error e w' := by simp [Bind.bind, EStateM.bind, hp]
    have hl : (p >>= l) w = .error e w' := by simp [Bind.bind, EStateM.bind, hp]
    rw [hk]
    exact ⟨0, .trap hl⟩
  case ok v w' =>
    have hk : (p >>= k) w = k v w' := by simp [Bind.bind, EStateM.bind, hp]
    have hl : (p >>= l) w = l v w' := by simp [Bind.bind, EStateM.bind, hp]
    have h := h v w'
    rw [hk]
    split at h
    case h_1 =>
      have ⟨c, hc, hr⟩ := h
      exact ⟨c, hc.congr hl, hr⟩
    case h_2 => have ⟨n, h⟩ := h; exact ⟨n, h.congr hl⟩
    case h_3 => have ⟨n, h⟩ := h; exact ⟨n, h.congr hl⟩

theorem Follows.mono {Rel' : A → B → Prop} (h : Follows stepB Rel x y)
    (hr : ∀ a b, Rel a b → Rel' a b) : Follows stepB Rel' x y := by
  intro w
  have h := h w
  split at h
  case h_1 =>
    have ⟨b, hb, h⟩ := h
    exact ⟨b, hb, hr _ b h⟩
  case h_2 => exact h
  case h_3 => exact h

-- The second machine does what an operation does, in one step or more, and comes to a configuration
-- that goes with its value.
def Realizes (stepB : B → Option (EStateM E W (Next B R))) (Rel : A → B → Prop) (b : B)
    (p : EStateM E W α) (Q : α → B → Prop) : Prop :=
  ∀ k : α → EStateM E W (Next A R),
    (∀ v b', Q v b' → Follows stepB Rel (k v) (pure (.run b'))) →
      ∃ y, stepB b = some y ∧ Follows stepB Rel (p >>= k) y

namespace Realizes

variable {b b' : B} {p : EStateM E W α} {Q : α → B → Prop}

theorem step {next : α → B} (hs : stepB b = some (p >>= fun v => pure (.run (next v))))
    (hq : ∀ v, Q v (next v)) : Realizes stepB Rel b p Q :=
  fun _ hk => ⟨_, hs, .bind fun v => hk v _ (hq v)⟩

theorem bind {q : α → EStateM E W β} {Q' : β → B → Prop} (hp : Realizes stepB Rel b p Q)
    (hq : ∀ v b', Q v b' → Realizes stepB Rel b' (q v) Q') : Realizes stepB Rel b (p >>= q) Q' := by
  intro k hk
  rw [bind_assoc]
  refine hp _ fun v b' h => ?_
  have ⟨y, hy, hf⟩ := hq v b' h k hk
  exact hf.step hy

-- A step that does nothing but move on.
theorem skip (hs : stepB b = some (pure (.run b'))) (h : Realizes stepB Rel b' p Q) :
    Realizes stepB Rel b p Q := by
  intro k hk
  have ⟨y, hy, hf⟩ := h k hk
  exact ⟨_, hs, hf.step hy⟩

theorem mono {Q' : α → B → Prop} (h : Realizes stepB Rel b p Q) (hq : ∀ v b, Q v b → Q' v b) :
    Realizes stepB Rel b p Q' :=
  fun k hk => h k fun v b hv => hk v b (hq v b hv)

-- The first machine performs the operation and goes on.
theorem follows {next : α → A} (h : Realizes stepB Rel b p Q)
    (hq : ∀ v b', Q v b' → Rel (next v) b') :
    ∃ y, stepB b = some y ∧ Follows stepB Rel (p >>= fun v => pure (.run (next v))) y :=
  h _ fun v b' hv => .pure (hq v b' hv)

end Realizes

-- The same, but perhaps there is no step to do.
def Performs (stepB : B → Option (EStateM E W (Next B R))) (Rel : A → B → Prop) (b : B)
    (p : EStateM E W α) (Q : α → B → Prop) : Prop :=
  ∀ k : α → EStateM E W (Next A R),
    (∀ v b', Q v b' → Follows stepB Rel (k v) (pure (.run b'))) →
      Follows stepB Rel (p >>= k) (pure (.run b))

namespace Performs

variable {b : B} {p : EStateM E W α} {Q : α → B → Prop}

theorem pure {v : α} (h : Q v b) : Performs stepB Rel b (Pure.pure v) Q := by
  intro k hk
  rw [pure_bind]
  exact hk v b h

theorem bind {q : α → EStateM E W β} {Q' : β → B → Prop} (hp : Performs stepB Rel b p Q)
    (hq : ∀ v b', Q v b' → Performs stepB Rel b' (q v) Q') : Performs stepB Rel b (p >>= q) Q' := by
  intro k hk
  rw [bind_assoc]
  exact hp _ fun v b' h => hq v b' h k hk

theorem skip {b' : B} (hs : stepB b = some (Pure.pure (.run b'))) (h : Performs stepB Rel b' p Q) :
    Performs stepB Rel b p Q :=
  fun k hk => (h k hk).step hs

theorem mono {Q' : α → B → Prop} (h : Performs stepB Rel b p Q) (hq : ∀ v b, Q v b → Q' v b) :
    Performs stepB Rel b p Q' :=
  fun k hk => h k fun v b hv => hk v b (hq v b hv)

end Performs

theorem Realizes.performs {b : B} {p : EStateM E W α} {Q : α → B → Prop}
    (h : Realizes stepB Rel b p Q) : Performs stepB Rel b p Q := by
  intro k hk
  have ⟨y, hy, hf⟩ := h k hk
  exact hf.step hy

theorem Simulation.ends_of_endsIn (h : Simulation stepA stepB Rel size) {n : Nat}
    (hx : EndsIn stepA n x w o) (hf : Follows stepB Rel x y) : Ends stepB y w o := by
  induction hx generalizing y
  case halt w _ _ hx => simpa [hx] using hf w
  case trap w _ _ hx => simpa [hx] using hf w
  case run w a w' x' o hx hs _ hi =>
    have ⟨b, hb, hr⟩ : ∃ b, Arrives stepB y w b w' ∧ Rel a b := by simpa [hx] using hf w
    have ⟨x'', hs', hor⟩ := h.step hr
    cases hs.symm.trans hs'
    refine hb.ends ?_
    cases hor
    case inl hor =>
      have ⟨y', hy, hf⟩ := hor
      exact .run rfl hy (hi hf)
    case inr hor =>
      have ⟨a', ha, _, hr⟩ := hor
      exact hi (ha ▸ .pure hr)

-- The size of the configuration that a computation led to.
def sizeAfter (size : A → Nat) : EStateM.Result E W (Next A R) → Nat
  | .ok (.run a) _ => size a
  | _ => 0

-- By induction on the run of the second machine, and for its pauses on the size.
theorem Simulation.ends_of_follows (h : Simulation stepA stepB Rel size) {n : Nat} {w : W}
    {x : EStateM E W (Next A R)} {y : EStateM E W (Next B R)}
    (hy : EndsIn stepB n y w o) (hf : Follows stepB Rel x y) : Ends stepA x w o := by
  cases hx : x w
  case error e w' =>
    have ⟨_, he⟩ : Ends stepB y w (.error e w') := by simpa [hx] using hf w
    exact ⟨0, he.unique hy ▸ .trap hx⟩
  case ok next w' =>
    cases next
    case halt r =>
      have ⟨_, he⟩ : Ends stepB y w (.ok r w') := by simpa [hx] using hf w
      exact ⟨0, he.unique hy ▸ .halt hx⟩
    case run a =>
      have ⟨b, hb, hr⟩ : ∃ b, Arrives stepB y w b w' ∧ Rel a b := by simpa [hx] using hf w
      have ⟨m, hm, he⟩ := hb.endsIn hy
      have ⟨x', hs, hor⟩ := h.step hr
      refine .run hx hs ?_
      rcases hor with ⟨y', hy', hf'⟩ | ⟨a', ha, hlt, hr'⟩
      · have ⟨l, y'', hl, hy'', he'⟩ := he.of_run rfl
        cases hy'.symm.trans hy''
        have : l < n := by omega
        exact h.ends_of_follows he' hf'
      · subst ha
        have : sizeAfter size (x w) = size a := by rw [hx]; rfl
        exact h.ends_of_follows he (.pure hr')
termination_by (n, sizeAfter size (x w))
decreasing_by
  · exact .left _ _ this
  · subst_vars
    rcases Nat.lt_or_eq_of_le hm with hm | hm
    · exact .left _ _ hm
    · rw [hm, this]
      exact .right _ hlt

theorem Simulation.ends_iff (h : Simulation stepA stepB Rel size) (hf : Follows stepB Rel x y) :
    Ends stepA x w o ↔ Ends stepB y w o where
  mp he := have ⟨_, he⟩ := he; h.ends_of_endsIn he hf
  mpr he := have ⟨_, he⟩ := he; h.ends_of_follows he hf

end Simulation

section Lockstep

variable {E W A B R : Type} {stepA : A → Option (EStateM E W (Next A R))}
variable {stepB : B → Option (EStateM E W (Next B R))} {Rel : A → B → Prop}
variable {x : EStateM E W (Next A R)} {y : EStateM E W (Next B R)} {w : W}
variable {o : EStateM.Result E W R} {n : Nat}

-- Both computations do the same to the world and lead to related configurations.
def InStep (Rel : A → B → Prop) (x : EStateM E W (Next A R)) (y : EStateM E W (Next B R)) : Prop :=
  ∀ w, match x w with
    | .ok (.run a) w' => ∃ b, y w = .ok (.run b) w' ∧ Rel a b
    | .ok (.halt r) w' => y w = .ok (.halt r) w'
    | .error e w' => y w = .error e w'

-- Two machines that get stuck at the same time or go on together.
def Lockstep (stepA : A → Option (EStateM E W (Next A R)))
    (stepB : B → Option (EStateM E W (Next B R))) (Rel : A → B → Prop) : Prop :=
  ∀ a b, Rel a b → Option.Rel (InStep Rel) (stepA a) (stepB b)

theorem InStep.run {a : A} {b : B} (h : Rel a b) :
    InStep Rel (R := R) (pure (.run a) : EStateM E W _) (pure (.run b)) :=
  fun _ => ⟨b, rfl, h⟩

theorem InStep.halt {r : R} : InStep Rel (pure (.halt r) : EStateM E W _) (pure (.halt r)) :=
  fun _ => rfl

theorem InStep.bind {p : EStateM E W α} {k : α → EStateM E W (Next A R)}
    {l : α → EStateM E W (Next B R)} (h : ∀ v, InStep Rel (k v) (l v)) :
    InStep Rel (p >>= k) (p >>= l) := by
  intro w
  simp only [Bind.bind, EStateM.bind]
  cases p w
  case ok v w' => exact h v w'
  case error => rfl

theorem InStep.symm (h : InStep Rel x y) : InStep (fun b a => Rel a b) y x := by
  intro w
  have h := h w
  split at h
  case h_1 a w' hx =>
    obtain ⟨b, hy, hr⟩ := h
    rw [hy]
    exact ⟨a, hx, hr⟩
  case h_2 hx => rwa [h]
  case h_3 hx => rwa [h]

theorem optionRel_bind {p : Option α} {k : α → Option (EStateM E W (Next A R))}
    {l : α → Option (EStateM E W (Next B R))} (h : ∀ v, Option.Rel (InStep Rel) (k v) (l v)) :
    Option.Rel (InStep Rel) (p >>= k) (p >>= l) := by
  cases p
  case none => exact .none
  case some v => exact h v

namespace Lockstep

variable (h : Lockstep stepA stepB Rel)
include h

theorem symm : Lockstep stepB stepA fun b a => Rel a b := by
  intro b a hr
  have hr := h a b hr
  generalize stepA a = x, stepB b = y at hr
  cases hr
  case none => exact .none
  case some hi => exact .some hi.symm

theorem endsIn (hx : EndsIn stepA n x w o) (hi : InStep Rel x y) : EndsIn stepB n y w o := by
  induction hx generalizing y
  case halt w _ _ hx => exact .halt (by simpa [hx] using hi w)
  case trap w _ _ hx => exact .trap (by simpa [hx] using hi w)
  case run w a w' x' o hx hs _ ih =>
    obtain ⟨b, hy, hr⟩ : ∃ b, y w = .ok (.run b) w' ∧ Rel a b := by simpa [hx] using hi w
    have hb := h a b hr
    rw [hs] at hb
    cases hb' : stepB b <;> rw [hb'] at hb <;> cases hb
    case some y' hy' => exact .run hy hb' (ih hy')

theorem ends_iff (hi : InStep Rel x y) : Ends stepB y w o ↔ Ends stepA x w o :=
  exists_congr fun _ => ⟨fun he => h.symm.endsIn he hi.symm, fun he => h.endsIn he hi⟩

end Lockstep

end Lockstep

end StackCompiler

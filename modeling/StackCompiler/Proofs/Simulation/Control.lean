import StackCompiler.Proofs.Simulation.Crossing

-- The labels of the stack machine stand for the regions of the lowering. A branch of the one goes to
-- the code where an edge of the other leads.

namespace StackCompiler.Lowering.Direct

open Bytecode (Instruction Module Signature)
open Ssa (BlockId Function Op Scope ValueId)

variable {I : Interpretation} {cx : Context} {f : Function} {dom dom' : Scope} {calls : List Nat}
variable {s t u : State} {c : Stack.Config I} {e : Ssa.Config I} {frame : Frame}
variable {frames outer : List Frame} {l : Stack.Label} {labels : List Stack.Label} {op : Op}
variable {m : Module} {sig : Signature} {code : List Instruction}

-- The code that a branch to region `frame` goes back to, if it goes back. The regions of `outer` are
-- around it.
inductive Restarts (cx : Context) (f : Function) (operands : List Operand) (frame : Frame)
    (outer : List Frame) : Option (List Instruction) → Prop
  | never (hh : frame.header = none) : Restarts cx f operands frame outer none
  | again {code : List Instruction} {t : State} (hh : frame.header = some t.block)
    (hl : ∀ p, Lands cx f p none (frame :: outer) operands code t) :
    Restarts cx f operands frame outer (some code)

inductive Labelled (cx : Context) (f : Function) (s : State) :
    List Frame → List Stack.Label → Prop
  | nil : Labelled cx f s [] []
  | cons {frame : Frame} {outer : List Frame} {l : Stack.Label} {labels : List Stack.Label}
    (ht : l.type = frame.type) (hh : l.height = frame.height)
    (hr : Restarts cx f (s.below frame.height) frame outer l.restart)
    (h : Labelled cx f s outer labels) : Labelled cx f s (frame :: outer) (l :: labels)

namespace Labelled

-- Only the operands below the regions matter.
theorem congr (h : Labelled cx f s frames labels)
    (hb : ∀ frame ∈ frames, t.below frame.height = s.below frame.height) :
    Labelled cx f t frames labels := by
  induction h
  case nil => exact .nil
  case cons ht hh hr _ hi =>
    have ⟨hf, ho⟩ := List.forall_mem_cons.mp hb
    exact .cons ht hh (hf ▸ hr) (hi ho)

theorem length_eq (h : Labelled cx f s frames labels) : labels.length = frames.length := by
  induction h
  case nil => rfl
  case cons hi => simp [hi]

theorem drop (n : Nat) (h : Labelled cx f s frames labels) :
    Labelled cx f s (frames.drop n) (labels.drop n) := by
  induction h generalizing n
  case nil => simpa using .nil
  case cons ht hh hr h hi =>
    cases n
    case zero => exact .cons ht hh hr h
    case succ n => exact hi n

theorem exists_getElem? {n : Nat} (h : Labelled cx f s frames labels)
    (hn : frames[n]? = some frame) : ∃ l, labels[n]? = some l ∧ l.type = frame.type ∧
      l.height = frame.height ∧
      Restarts cx f (s.below frame.height) frame (frames.drop (n + 1)) l.restart := by
  induction h generalizing n
  case nil => simp at hn
  case cons ht hh hr h hi =>
    cases n
    case zero =>
      cases hn
      exact ⟨_, rfl, ht, hh, hr⟩
    case succ n => exact hi hn

end Labelled

-- Both machines stand where the lowering was in state `s`.
structure Stands (cx : Context) (f : Function) (dom : Scope) (calls : List Nat) (s : State)
    (c : Stack.Config I) (e : Ssa.Config I) : Prop where
  valid : s.Valid cx dom calls
  live : s.isDead = false
  begins : s.function.Begins f
  agrees : Agrees cx f s c e
  labels : Labelled cx f s (s.regions.map Region.frame) c.labels

-- And what follows there is the code that is to be executed.
structure Tracks (cx : Context) (f : Function) (s : State) (c : Stack.Config I)
    (e : Ssa.Config I) : Prop where
  finishes : Finishes cx f c.code s
  live : s.isDead = false
  agrees : Agrees cx f s c e
  labels : Labelled cx f s (s.regions.map Region.frame) c.labels

-- The state in which control lands has the operands of the one that it comes from.
theorem State.Receives.below_eq {p : BlockId} {v : Option ValueId} {height h : Nat}
    (hr : t.Receives (s.below height) p v) (hh : h ≤ height) (hs : height ≤ s.stack.length) :
    t.below h = s.below h := by
  have hb := State.below_below hh hs
  cases hr
  case nothing hst _ =>
    rw [← hb]
    simp only [State.below, hst]
  case value w x d incoming hst _ _ _ _ =>
    rw [← hb, ← State.below_cons (s := s) (o := .value x) (by rwa [State.length_below hs])]
    simp only [State.below, hst]

theorem State.Valid.height_le {k : Nat} {r : Region} (hv : s.Valid cx dom calls)
    (hr : s.regions[k]? = some r) :
    ∀ frame ∈ (s.regions.drop k).map Region.frame, frame.height ≤ r.height := by
  have ⟨hk, hr⟩ := List.getElem?_eq_some_iff.mp hr
  have hn := hv.nested.drop (i := k)
  rw [List.drop_eq_getElem_cons hk, hr] at hn ⊢
  simp only [List.map_cons, List.forall_mem_cons, List.forall_mem_map]
  exact ⟨Nat.le_refl _, fun o ho => ((List.pairwise_cons.mp hn).1 o ho).height⟩

theorem State.Valid.outer_height_le {r : Region} {outer : List Region} (hv : s.Valid cx dom calls)
    (hr : s.regions = r :: outer) : ∀ frame ∈ outer.map Region.frame, frame.height ≤ r.height := by
  have hle := hv.height_le (k := 0) (r := r) (by simp [hr])
  rw [List.drop_zero, hr, List.map_cons] at hle
  exact (List.forall_mem_cons.mp hle).2

-- An open block has left no region.
theorem State.Valid.not_breaks {r : Region} (hv : s.Valid cx dom calls) (hr : r ∈ s.regions) :
    ¬r.Breaks s.block := by
  rintro ⟨breaks, hk, hb⟩
  have ⟨_, _, _, _, hp⟩ := (hv.regions r hr).branched hk
  exact hv.isOpen.not_mem_successors ((hp _).mpr (.inr hb))

namespace Stands

variable (h : Stands cx f dom calls s c e) (hf : f.Complete dom')
include h hf

theorem land {v : Option ValueId} {height : Nat} {stack : List (Stack.Operand I)}
    (hl : Lands cx f s.block v frames (s.below height) code t) (hh : height ≤ s.stack.length)
    (hfr : ∀ frame ∈ frames, frame.height ≤ height)
    (hn : v.isSome → s.function.insts t.block = []) (hlab : Labelled cx f s frames labels)
    (ho : List.Forall₂ (Holds f e.env) (v.toList.map .value ++ s.below height) stack) :
    Tracks cx f t ⟨code, stack, labels, c.locals⟩
      (Ssa.Config.enter f.trimmed { e with rest := [] } t.block) where
  finishes := hl.finishes
  live := hl.live
  agrees := { hl.agrees hf h.valid h.begins.keeps h.agrees hn (List.drop_subset ..) ho with }
  labels := hl.frames ▸ hlab.congr fun frame hm => hl.receives.below_eq (hfr frame hm) hh

end Stands

theorem Stands.exists_label {depth : Nat} {r : Region} (h : Stands cx f dom calls s c e)
    (hr : s.regions[depth]? = some r) :
    ∃ l, depth ≠ c.labels.length ∧ c.labels[depth]? = some l ∧ l.type = r.frame.type ∧
      l.height = r.height ∧ Restarts cx f (s.below r.height) r.frame
        ((s.regions.drop (depth + 1)).map Region.frame) l.restart := by
  have hf : (s.regions.map Region.frame)[depth]? = some r.frame := by simp [hr]
  have ⟨l, hl, ht, hh, hrestart⟩ := h.labels.exists_getElem? hf
  have ⟨hd, _⟩ := List.getElem?_eq_some_iff.mp hl
  exact ⟨l, Nat.ne_of_lt hd, hl, ht, hh, List.map_drop ▸ hrestart⟩

-- The label of the innermost region.
theorem Stands.cons_label {r : Region} {outer : List Region} (h : Stands cx f dom calls s c e)
    (hr : s.regions = r :: outer) :
    ∃ l labels, c.labels = l :: labels ∧ l.type = r.frame.type ∧ l.height = r.height ∧
      Labelled cx f s (outer.map Region.frame) labels := by
  have hlab := h.labels
  rw [hr, List.map_cons] at hlab
  generalize hl : c.labels = ls at hlab
  cases hlab
  case cons l labels ht hh hlab _ => exact ⟨l, labels, rfl, ht, hh, hlab⟩

section Branch

variable {depth : Nat} {b : BlockId} {r : Region} (h : Stands cx f dom calls s c e)
variable (hf : f.Complete dom') (ht : Finishes cx f c.code t) (hc : s.Closes t op)
variable (hr : s.regions[depth]? = some r)
include h hf ht hc hr

theorem Stands.restart (sig : Signature) (hk : r.kind = .loop b) (hreg : t.regions = s.regions) :
    ∃ c' u, c.branch sig depth = some (.run c') ∧ u.block = b ∧ f.terminator? s.block = some op ∧
      Tracks cx f u c' (Ssa.Config.enter f.trimmed { e with rest := [] } u.block) := by
  have hv := h.valid
  have ⟨l, hne, hl, _, hheight, hrestart⟩ := h.exists_label hr
  have hhead : r.frame.header = some b := Region.kind_eq_loop_iff.mp hk
  have hdrop : (s.regions.map Region.frame).drop depth =
      r.frame :: (s.regions.drop (depth + 1)).map Region.frame := by
    have ⟨hd, hr⟩ := List.getElem?_eq_some_iff.mp hr
    rw [← List.map_drop, List.drop_eq_getElem_cons hd, hr, List.map_cons]
  cases hrs : l.restart <;> rw [hrs] at hrestart <;> cases hrestart
  case none hnone => simp [hhead] at hnone
  case some code u hb hlands =>
    have hle := hv.height_le hr
    rw [List.map_drop, hdrop] at hle
    have hlab := h.labels.drop depth
    rw [hdrop] at hlab
    have hu := h.land hf (hlands s.block) (hv.within r (List.mem_of_getElem? hr)).height hle nofun
      hlab (h.agrees.forall₂_below r.height)
    refine ⟨_, u, ?_, Option.some.inj (hb.symm.trans hhead), ?_, hu⟩
    · simp [Stack.Config.branch, hne, hl, hrs, hheight]
    · exact ht.becomes.terminator hc.terminator fun o ho => hv.not_breaks (hreg ▸ ho)

theorem Stands.leave {after : Option Result} (hk : ∀ header, r.kind ≠ .loop header)
    (hh : s.Hands r.result after) (hb : r.continuation ∈ op.successors)
    (hreg : t.regions = s.regions.set depth (r.exit s.block after)) (hm : s.Moves t 0 []) :
    ∃ c' u, c.branch sig depth = some (.run c') ∧
      f.terminator? s.block = some (op.move r.continuation u.block) ∧
      Tracks cx f u c' (Ssa.Config.enter f.trimmed { e with rest := [] } u.block) := by
  have hv := h.valid
  have hmem : r ∈ s.regions := List.mem_of_getElem? hr
  obtain ⟨l, hne, hl, htype, hheight, hrestart⟩ := h.exists_label hr
  obtain ⟨v, htakes, hsome, htop⟩ := hh.exists_takes
  have hframe : (r.exit s.block after).frame = r.frame := Region.exit_frame hh
  have hcont := Region.continuation_congr hframe
  have hleaving : t.Leaving depth (r.exit s.block after) s.block op v := {
    region := by
      obtain ⟨hd, _⟩ := List.getElem?_eq_some_iff.mp hr
      simp [hreg, hd]
    terminator := hc.terminator
    reaches := hm.becomes.reaches (hv.live_iff.mp h.live)
    edge := hcont ▸ hb
    takes := htakes
    inner := fun o ho => by
      rw [hreg, List.take_set_of_le (Nat.le_refl _)] at ho
      exact hv.not_breaks (List.mem_of_mem_take ho)
    outer := fun o ho => by
      rw [hreg, List.drop_set_of_lt (Nat.lt_succ_self _)] at ho
      exact hv.not_breaks (List.mem_of_mem_drop ho) }
  obtain ⟨code', u, hbehind, hterm, hempty, hlands⟩ := ht.lands hleaving fun ⟨breaks, hi⟩ => by
    obtain ⟨_, _, he⟩ := Region.exit_kind_eq_if_iff.mp hi
    exact ⟨breaks, hi, by simp [he]⟩
  have hfl := hv.height_le_floor hmem
  rw [hreg, List.drop_set_of_lt (Nat.lt_succ_self _), Region.height_congr hframe,
    hm.below _ hfl] at hlands
  have hvl : v.isSome = l.type.isSome := by simp [hsome, htype, Region.frame]
  obtain ⟨stack, hcarry, hstack⟩ := h.agrees.carry hvl htop
  rw [hheight] at hstack
  have hrs : l.restart = none := by
    cases hrs : l.restart
    case none => rfl
    case some =>
      rw [hrs] at hrestart
      cases hrestart
      case again hh _ => exact absurd (Region.kind_eq_loop_iff.mpr hh) (hk _)
  have hle : ∀ frame ∈ (s.regions.drop (depth + 1)).map Region.frame, frame.height ≤ r.height :=
    fun frame hm => hv.height_le hr frame <| by
      rw [← List.drop_drop] at hm
      exact List.map_subset _ (List.drop_subset ..) hm
  have hu := h.land hf hlands (hv.within r hmem).height hle
    (fun _ => List.prefix_nil.mp (hempty ▸ hm.becomes.insts u.block))
    (List.map_drop ▸ h.labels.drop (depth + 1)) hstack
  refine ⟨_, u, ?_, hcont ▸ hterm, hu⟩
  simp [Stack.Config.branch, hne, hl, hrs, hbehind, hcarry]

end Branch

-- A branch out of regions goes where the edge leads.
theorem Stands.exits {depth : Nat} {b : BlockId} {rs : List Region}
    (h : Stands cx f dom calls s c e) (hf : f.Complete dom') (ht : Finishes cx f c.code t)
    (hc : s.Closes t op) (sig : Signature) (he : s.Exits depth b rs) (hb : b ∈ op.successors)
    (hr : t.regions = rs) (hm : s.Moves t 0 []) :
    ∃ c' u, c.branch sig depth = some (.run c') ∧ f.terminator? s.block = some (op.move b u.block) ∧
      Tracks cx f u c' (Ssa.Config.enter f.trimmed { e with rest := [] } u.block) := by
  cases he
  case restart r hr' hk =>
    have ⟨c', u, hbr, hu, hterm, htr⟩ := h.restart hf ht hc hr' sig hk hr
    exact ⟨c', u, hbr, by simp [hterm, hu], htr⟩
  case leave r after hr' hk hh => exact h.leave hf ht hc hr' hk hh hb hr hm

theorem State.Closes.of_emit {g : Function} (hi : g.insts s.block = s.function.insts s.block)
    (hc : s.block.index < g.blocks.size) (ht : op.isTerminator = true)
    (hti : t.function.insts s.block = (g.emit s.block "" none op).insts s.block)
    (htt : t.function.terminator? s.block = (g.emit s.block "" none op).terminator? s.block) :
    s.Closes t op where
  insts := ⟨g.freshValue, by rw [hti, Function.emit_insts_self hc, hi]⟩
  terminator := by rw [htt, Function.emit_terminator?_self hc, if_pos ht]

-- The other machine goes along with what an instruction does.
def Matched (cx : Context) (f : Function) (e : Ssa.Config I) (x : I.Effect (Stack.Result I)) : Prop :=
  ∃ y, e.step f.trimmed = some y ∧
    Follows (Ssa.Config.step f.trimmed) (fun c e => ∃ s, Tracks cx f s c e) x y

theorem Matched.jump {c' : Stack.Config I} {e' : Ssa.Config I}
    (he : e.step f.trimmed = some (pure (.run e'))) (h : Tracks cx f s c' e') :
    Matched cx f e (pure (.run c')) :=
  ⟨_, he, .pure ⟨s, h⟩⟩

section Enter

variable {kind : RegionKind} {result : Option Result} {type : Bytecode.BlockType}

theorem State.Valid.closes_enter (hv : s.Valid cx dom calls) (kind : RegionKind)
    (result : Option Result) (ht : op.isTerminator = true) :
    s.Closes (s.enter kind op result) op :=
  .of_emit (g := s.grow.grow.function) (by simp [State.grow])
    (State.open_grow (State.open_grow hv.isOpen)).created ht rfl rfl

theorem Finishes.lands_enter (ht : Finishes cx f code (s.enter kind op result))
    (hc : s.block.index < s.function.blocks.size) (hl : s.isDead = false) (p : BlockId) :
    Lands cx f p none ((s.enter kind op result).regions.map Region.frame) (s.below s.stack.length)
      code (s.enter kind op result) where
  finishes := ht
  live := hl
  frames := rfl
  receives := by
    refine .nothing (by simp [State.below, State.enter, State.fork, State.emit]; rfl) ?_
    refine (Function.emit_insts_of_ne (Function.ne_freshBlock hc).symm).trans ?_
    simp [State.grow, Function.insts_freshBlock]

theorem resultType_eq (h : resultOf type = .ok result) :
    Stack.resultType type = result.map Result.type := by
  cases type <;> cases h <;> rfl

-- Nothing moves the edges into a region.
theorem State.Valid.terminator_enter (hv : s.Valid cx dom calls)
    (ht : Finishes cx f code (s.enter kind op result))
    (he : Enters s.function.freshBlock s.grow.function.freshBlock kind op) :
    f.terminator? s.block = some op := by
  have hc := hv.closes_enter kind result (show op.isTerminator = true by cases he <;> rfl)
  refine ht.becomes.terminator hc.terminator (List.forall_mem_cons.mpr ⟨?_, fun r hr => ?_⟩)
  · rintro ⟨breaks, hk, hb⟩
    cases he <;> simp_all
  · exact hv.not_breaks hr

theorem Stands.enter (h : Stands cx f dom calls s c e) (hf : f.Complete dom')
    (ht : Finishes cx f c.code (s.enter kind op result))
    (hres : resultOf type = .ok result) {restart : Option (List Instruction)}
    (hr : Restarts cx f (s.below s.stack.length)
      (⟨kind, s.grow.function.freshBlock, result, s.stack.length, !s.isDead⟩ : Region).frame
      (s.regions.map Region.frame) restart) :
    Tracks cx f (s.enter kind op result) (c.enter type restart)
      (Ssa.Config.enter f.trimmed { e with rest := [] } s.function.freshBlock) := by
  have hv := h.valid
  have hlen := h.agrees.stack.length_eq
  have hland := ht.lands_enter hv.isOpen.created h.live s.block
  refine h.land hf hland (Nat.le_refl _) ?height nofun (.cons ?type ?_ hr h.labels) ?stack
  case height =>
    refine List.forall_mem_cons.mpr ⟨Nat.le_refl _, List.forall_mem_map.mpr fun r hr => ?_⟩
    exact (hv.within r hr).height
  case type => exact resultType_eq hres
  case stack =>
    simpa [State.below] using h.agrees.stack
  exact hlen.symm

theorem Stands.matched_block (h : Stands cx f dom calls s c e) (hf : f.Complete dom')
    (ht : Finishes cx f c.code (s.enter .block (.jump s.function.freshBlock) result))
    (hres : resultOf type = .ok result) : Matched cx f e (pure (.run (c.enter type none))) :=
  .jump (h.agrees.step_jump (h.valid.closes_enter _ _ rfl) ht.becomes (h.valid.terminator_enter ht .block) rfl)
    (h.enter hf ht hres (.never rfl))

theorem Stands.matched_loop (h : Stands cx f dom calls s c e) (hf : f.Complete dom')
    (ht : Finishes cx f c.code
      (s.enter (.loop s.function.freshBlock) (.jump s.function.freshBlock) result))
    (hres : resultOf type = .ok result) :
    Matched cx f e (pure (.run (c.enter type (some c.code)))) := by
  have hr := ht.lands_enter h.valid.isOpen.created h.live
  exact .jump (h.agrees.step_jump (h.valid.closes_enter _ _ rfl) ht.becomes
    (h.valid.terminator_enter ht .loop) rfl) (h.enter hf ht hres (.again rfl hr))

end Enter

section Condition

variable {lhs rhs : ValueId} {cond : Comparison}

-- The condition is on top of the stack.
theorem Agrees.exists_decided (ha : Agrees cx f s c e) (hd : s.Decides lhs cond rhs u) :
    ∃ o stack e₁, c.stack = o :: stack ∧ Agrees cx f u { c with stack := stack } e₁ := by
  cases hd
  case comparison hs =>
    have ⟨o, stack, hstack, _, h⟩ := ha.pop hs
    exact ⟨o, stack, e, hstack, h⟩
  case value hs _ =>
    have ⟨o, stack, hstack, _, h⟩ := ha.pop hs
    exact ⟨o, stack, _, hstack, h.skip⟩

-- It is decided in the same way.
theorem Agrees.realizes_holds {yes no : BlockId} {l : List Region} {o : Stack.Operand I}
    {stack : List (Stack.Operand I)} {Rel : Stack.Config I → Ssa.Config I → Prop}
    (ha : Agrees cx f s c e) (hd : s.Decides lhs cond rhs u) (hb : u.function.Begins f)
    (hc : u.Closes t op) (hbe : Becomes t.function f l)
    (hterm : f.terminator? u.block = some (.branch lhs cond rhs yes no))
    (hstack : c.stack = o :: stack) :
    Realizes (Ssa.Config.step f.trimmed) Rel e o.holds fun taken e' =>
      ∃ e₁, Agrees cx f u { c with stack := stack } e₁ ∧
        e' = Ssa.Config.enter f.trimmed { e₁ with rest := [] } (if taken then yes else no) := by
  cases hd
  case comparison rest hs =>
    have ⟨_, _, hstack', hx, h⟩ := ha.pop hs
    cases hstack.symm.trans hstack'
    cases hx
    case comparison hl hty hr =>
      have hstep := h.step_branch hc hbe hterm rfl hl hr hty
      exact .step hstep fun _ => ⟨e, h, rfl⟩
  case value ty rest hs ht =>
    have ⟨x, _, hstack', hx, htx, h⟩ := ha.pop_value hs
    cases hstack.symm.trans hstack'
    have hty := hb.keeps.hasType (Function.Keeps.emit.hasType ht)
    obtain rfl : x.type = ty := htx.unique hty
    have hk := ha.known_value (v := lhs) (by simp [hs])
    refine (h.realizes hb rfl).bind fun zero e₁ h₁ => ?_
    have hstep := h₁.agrees.step_branch hc hbe hterm rfl ((h₁.env hk).trans hx) h₁.value hty
    exact .step hstep fun _ => ⟨e₁, h₁.agrees, rfl⟩

-- Both machines stand behind the condition then.
theorem Stands.of_inside {stack : List (Stack.Operand I)} {e₁ : Ssa.Config I}
    (h : Stands cx f dom calls s c e) (hi : Inside cx dom calls s u) (hb : u.function.Begins f)
    (ha : Agrees cx f u { c with stack := stack } e₁) :
    Stands cx f dom calls u { c with stack := stack } e₁ where
  valid := hi.valid
  live := hi.advances.isDead.trans h.live
  begins := hb
  agrees := ha
  labels := by
    rw [hi.advances.regions]
    refine h.labels.congr fun frame hm => ?_
    have ⟨r, hr, he⟩ := List.mem_map.mp hm
    exact hi.advances.below _ (he ▸ h.valid.height_le_floor hr)

-- The code that an `if` goes on with when its condition fails.
theorem Stands.otherwise {result : Option Result} {type : Bytecode.BlockType}
    (h : Stands cx f dom calls s c e) (hf : f.Complete dom') (hres : resultOf type = .ok result)
    (ht : Finishes cx f c.code (s.enter (.if_ [])
      (.branch lhs cond rhs s.function.freshBlock s.grow.function.freshBlock) result))
    (hreach : (s.enter (.if_ []) (.branch lhs cond rhs s.function.freshBlock
      s.grow.function.freshBlock) result).function.Reaches s.block) :
    ∃ c' u, c.otherwise type = some c' ∧ Tracks cx f u c'
      (Ssa.Config.enter f.trimmed { e with rest := [] } s.grow.function.freshBlock) := by
  have hv := h.valid
  obtain ⟨code, u, hu, hor⟩ := ht.lands_other rfl ⟨[], rfl⟩ (hv.closes_enter _ _ rfl).terminator hreach
    (by simp [Op.successors])
    (List.forall_mem_cons.mpr ⟨by simp [Region.Breaks], fun r hr => hv.not_breaks hr⟩)
  have hu : u.block = s.grow.function.freshBlock := hu
  have hlen : s.stack.length = c.stack.length := h.agrees.stack.length_eq
  have hle : ∀ frame ∈ s.regions.map Region.frame, frame.height ≤ s.stack.length :=
    List.forall_mem_map.mpr fun r hr => (hv.within r hr).height
  have hstack : List.Forall₂ (Holds f e.env) (s.below s.stack.length) c.stack := by
    simpa [State.below] using h.agrees.stack
  rcases hor with ⟨b, hseek, hlands⟩ | ⟨hseek, hlands⟩
  · have hlands : Lands cx f s.block none _ (s.below s.stack.length) code u := hlands
    have htr := h.land hf hlands (Nat.le_refl _) (List.forall_mem_cons.mpr ⟨Nat.le_refl _, hle⟩)
      (by simp) (.cons (l := ⟨none, Stack.resultType type, c.stack.length⟩) (resultType_eq hres) hlen.symm
        (.never rfl) h.labels) hstack
    exact ⟨_, u, by simp [Stack.Config.otherwise, hseek, Stack.Config.enter], hu ▸ htr⟩
  · have hlands : Lands cx f s.block none _ (s.below s.stack.length) code u := hlands
    have htr := h.land hf hlands (Nat.le_refl _) hle (by simp) h.labels hstack
    exact ⟨_, u, by simp [Stack.Config.otherwise, hseek], hu ▸ htr⟩

end Condition

end StackCompiler.Lowering.Direct

import StackCompiler.Ssa.Cleanup
import StackCompiler.Proofs.Ssa.History
import Mathlib.Data.List.Nodup

-- The tables of a function account for every value that it was asked to create, whatever calls are
-- made to it and whichever of them fail.

namespace StackCompiler.Ssa

-- An edge that moves gives up the first place that names its old target.
theorem Op.successors_of_retarget? {op op' : Op} {old new : BlockId}
    (h : op.retarget? old new = some op') :
    ∃ before after, old ∉ before ∧ op.successors = before ++ old :: after ∧
      op'.successors = before ++ new :: after := by
  cases op
  case jump target =>
    obtain ⟨rfl, rfl⟩ : target = old ∧ jump new = op' := by simpa [retarget?] using h
    exact ⟨[], [], List.not_mem_nil, rfl, rfl⟩
  case branch lhs cond rhs yes no =>
    rw [retarget?] at h
    split at h
    case isTrue hy =>
      cases h
      exact ⟨[], [no], List.not_mem_nil, by rw [successors, hy]; rfl, rfl⟩
    case isFalse hy =>
      obtain ⟨rfl, rfl⟩ : no = old ∧ branch lhs cond rhs yes new = op' := by simpa using h
      exact ⟨[yes], [], by simpa using Ne.symm hy, rfl, rfl⟩
  all_goals cases h

namespace Function

inductive Call where
  | addBlock (name : String)
  | addParam (name : String) (type : Scalar)
  | append (b : BlockId) (name : String) (type : Option Scalar) (op : Op)
  | retarget (b old new : BlockId)
  | prune
deriving DecidableEq, Repr

-- What a call has done: the block or value that it created, with the block that lists the value, or
-- the number of blocks that it took out.
inductive Answer where
  | block (b : BlockId)
  | parameter (v : ValueId)
  | instruction (v : ValueId) (b : BlockId)
  | retargeted
  | pruned (removed : Nat)
deriving DecidableEq, Repr

def Answer.instruction? : Answer → Option (ValueId × BlockId)
  | instruction v b => some (v, b)
  | _ => none

def Answer.parameter? : Answer → Option ValueId
  | parameter v => some v
  | _ => none

def respond : Call → Edit Answer
  | .addBlock name => do return .block (← modifyGet (·.addBlock name))
  | .addParam name type => do return .parameter (← modifyGet (·.addParam name type))
  | .append b name type op => do return .instruction (← append b name type op) b
  | .retarget b old new => do
    retarget b old new
    return .retargeted
  | .prune => do
    let ((removed, g), _) ← ofExcept (outcome (← get).checkedPrune #[])
    set g
    return .pruned removed

-- The function after calls, some of which may have failed.
def run (f : Function) : List Call → Function
  | [] => f
  | call :: calls =>
    match respond call f with
    | .ok _ g | .error _ g => g.run calls

-- The answers to those of a sequence of calls that succeed.
def answers (f : Function) : List Call → List Answer
  | [] => []
  | call :: calls =>
    match respond call f with
    | .ok answer g => answer :: g.answers calls
    | .error _ g => g.answers calls

-- The instructions that a sequence of calls appends, each with its block.
def appended (f : Function) (calls : List Call) : List (ValueId × BlockId) :=
  (f.answers calls).filterMap Answer.instruction?

theorem filterMap_answer {kind : Answer → Option α} {answer : Answer} {answers : List Answer} :
    (answer :: answers).filterMap kind = (kind answer).toList ++ answers.filterMap kind := by
  rw [List.filterMap_cons]
  cases kind answer <;> rfl

-- The parameters that a sequence of calls adds.
def declared (f : Function) (calls : List Call) : List ValueId :=
  (f.answers calls).filterMap Answer.parameter?

variable {f g : Function} {b old new : BlockId} {v : ValueId} {op : Op}
  {name : String} {type : Option Scalar} {call : Call} {calls : List Call} {cause : CompileError}
  {answer : Answer}

theorem append_eq_ok_iff : append b name type op f = .ok v g ↔
    (b ∈ f.layout ∧ f.terminator? b = none) ∧ v = f.freshValue ∧ g = f.emit b name type op := by
  rw [append_eq]
  split
  case isTrue hm => simp [hm]
  case isFalse hm =>
    have member : b ∈ f.layout := not_not.mp hm
    split
    case isTrue hc =>
      have closed : f.terminator? b ≠ none := fun h => by simp [isClosed_eq_false_iff.mpr h] at hc
      simp [closed]
    case isFalse hc =>
      rw [Bool.not_eq_true, isClosed_eq_false_iff] at hc
      simp [member, hc, eq_comm]

theorem append_cases (f : Function) (b : BlockId) (name : String) (type : Option Scalar) (op : Op) :
    append b name type op f = .ok f.freshValue (f.emit b name type op) ∨
      ∃ cause, append b name type op f = .error cause f := by
  rw [append_eq]
  split
  case isTrue => exact .inr ⟨_, rfl⟩
  case isFalse =>
    split
    case isTrue => exact .inr ⟨_, rfl⟩
    case isFalse => exact .inl rfl

theorem exists_retarget_iff : (∃ g, retarget b old new f = .ok () g) ↔ old ∈ f.successors b := by
  constructor
  case mp =>
    rintro ⟨g, hg⟩
    obtain ⟨op₁, op₂, ho, hr, -⟩ := exists_of_retarget hg
    obtain ⟨before, after, -, hs, -⟩ := Op.successors_of_retarget? hr
    simp [successors_of_terminator? ho, hs]
  case mpr =>
    intro h
    obtain ⟨op₁, ho, hm⟩ := terminator?_of_mem_successors h
    obtain ⟨op₂, hr⟩ : ∃ op₂, op₁.retarget? old new = some op₂ := Op.retarget?_isSome hm
    exact ⟨_, retarget_eq_ok ho hr⟩

@[simp]
theorem prune_params : f.prune.2.params = f.params := by
  simp only [prune]
  split <;> rfl

theorem checkedPrune_cases (f : Function) (j : Journal) :
    (∃ cause, f.checkedPrune j = .error cause j) ∨ ∃ k, f.checkedPrune j = .ok f.prune k := by
  simp only [checkedPrune, pruneNoted]
  cases f.checkEdges
  case error cause => exact .inl ⟨cause, rfl⟩
  case ok =>
    refine .inr ?_
    generalize f.prune = r
    obtain ⟨removed, g⟩ := r
    cases removed <;> exact ⟨_, rfl⟩

-- All that a call can do: fail and change nothing, or one of the five changes.
theorem respond_cases (f : Function) (call : Call) :
    (∃ cause, respond call f = .error cause f) ∨
    (∃ name, respond call f = .ok (.block f.freshBlock) (f.addBlock name).2) ∨
    (∃ name type, respond call f = .ok (.parameter f.freshValue) (f.addParam name type).2) ∨
    (∃ b name type op, b ∈ f.layout ∧ f.terminator? b = none ∧
      respond call f = .ok (.instruction f.freshValue b) (f.emit b name type op)) ∨
    (∃ b old new op₁ op₂, f.terminator? b = some op₁ ∧ op₁.retarget? old new = some op₂ ∧
      respond call f = .ok .retargeted (f.redirect b op₂)) ∨
    respond call f = .ok (.pruned f.prune.1) f.prune.2 := by
  cases call
  case addBlock name => exact .inr (.inl ⟨name, rfl⟩)
  case addParam name type => exact .inr (.inr (.inl ⟨name, type, rfl⟩))
  case append b name type op =>
    rcases f.append_cases b name type op with e | ⟨cause, e⟩
    · obtain ⟨⟨hb, ho⟩, -⟩ := append_eq_ok_iff.mp e
      exact .inr (.inr (.inr (.inl ⟨b, name, type, op, hb, ho, bind_eq_of_eq_ok e⟩)))
    · exact .inl ⟨cause, bind_eq_of_eq_error e⟩
  case retarget b old new =>
    rcases f.retarget_cases b old new with ⟨op₁, op₂, ho, hr, e⟩ | ⟨cause, e⟩
    · exact .inr (.inr (.inr (.inr (.inl ⟨b, old, new, op₁, op₂, ho, hr, bind_eq_of_eq_ok e⟩))))
    · exact .inl ⟨cause, bind_eq_of_eq_error e⟩
  case prune =>
    rw [respond, get_bind]
    rcases f.checkedPrune_cases #[] with ⟨cause, e⟩ | ⟨k, e⟩
    · exact .inl ⟨cause, by rw [outcome, e]; rfl⟩
    · exact .inr (.inr (.inr (.inr (.inr (by rw [outcome, e]; rfl)))))

theorem respond_error (h : respond call f = .error cause g) : g = f := by
  rcases f.respond_cases call with ⟨_, e⟩ | ⟨_, e⟩ | ⟨_, _, e⟩ | ⟨_, _, _, _, _, _, e⟩ |
    ⟨_, _, _, _, _, _, _, e⟩ | e <;> cases e.symm.trans h
  rfl

theorem Built.respond (h : f.Built fun _ _ => True) (hg : respond call f = .ok answer g) :
    g.Built fun _ _ => True := by
  rcases f.respond_cases call with ⟨_, e⟩ | ⟨name, e⟩ | ⟨name, type, e⟩ |
    ⟨b, name, type, op, hb, ho, e⟩ | ⟨b, old, new, op₁, op₂, ho, hr, e⟩ | e <;> cases e.symm.trans hg
  · exact h.addBlock name
  · exact h.addParam name type
  · exact h.emit (fun _ _ => trivial) hb (isClosed_eq_false_iff.mpr ho)
  · exact h.retarget trivial (retarget_eq_ok ho hr)
  · exact h.prune

theorem Built.run (h : f.Built fun _ _ => True) (calls : List Call) :
    (f.run calls).Built fun _ _ => True := by
  induction calls generalizing f
  case nil => exact h
  case cons call calls ih =>
    rw [Function.run]
    cases e : Function.respond call f
    case ok => exact ih (h.respond e)
    case error =>
      cases respond_error e
      exact ih h

-- The tables of a function that was given the instructions `code`, each for a block, and the
-- parameters `params`.
structure Books (f : Function) (code : List (ValueId × BlockId)) (params : List ValueId) :
    Prop where
  -- A block lists what was appended to it, in this order.
  lists : ∀ b, f.insts b = (code.filter (·.2 = b)).map Prod.fst
  numbered : code.Pairwise (·.1.index < ·.1.index)
  params_eq : f.params = params
  -- A parameter knows its place among the parameters and belongs to no block.
  param : ∀ n v, params[n]? = some v →
    ∃ name type, f.value? v = some ⟨name, some type, .param n, none⟩
  known : ∀ v d, f.value? v = some d → v ∈ params ∨ ∃ b, (v, b) ∈ code
  layout : f.layout.Pairwise (·.index < ·.index)
  entry : 0 < f.blocks.size → f.entry = some ⟨0⟩

theorem books_empty (name : String) (result : Option Scalar) : (empty name result).Books [] [] where
  lists := by simp [empty, insts, block?]
  numbered := .nil
  params_eq := rfl
  param := by simp
  known := by simp [empty, value?]
  layout := .nil
  entry := by simp [empty]

namespace Books

variable {code : List (ValueId × BlockId)} {params : List ValueId} (h : f.Books code params)
include h

theorem mem_insts_iff : v ∈ f.insts b ↔ (v, b) ∈ code := by
  simp [h.lists]

theorem pairwise_insts (b : BlockId) : (f.insts b).Pairwise (·.index < ·.index) := by
  rw [h.lists, List.pairwise_map]
  exact h.numbered.sublist List.filter_sublist

theorem nodup_insts (b : BlockId) : (f.insts b).Nodup :=
  (h.pairwise_insts b).imp fun hlt he => absurd (he ▸ hlt) (Nat.lt_irrefl _)

theorem addBlock (hc : f.Consistent) : (f.addBlock name).2.Books code params where
  lists b := by rw [addBlock_insts, h.lists]
  numbered := h.numbered
  params_eq := h.params_eq
  param := h.param
  known := h.known
  layout := by
    refine List.pairwise_append.mpr ⟨h.layout, List.pairwise_singleton .., ?_⟩
    intro b hb q hq
    rw [List.mem_singleton.mp hq]
    exact hc.created b hb
  entry _ := by
    have first : (f.addBlock name).2.entry = f.entry.or (some f.freshBlock) := rfl
    rw [first]
    cases he : f.entry
    case some e => rw [← he, h.entry (Nat.zero_lt_of_lt (hc.entry_created he))]; rfl
    case none =>
      have none : f.blocks.size = 0 := by
        by_contra hs
        simp [h.entry (Nat.pos_of_ne_zero hs)] at he
      simp [freshBlock, none]

theorem addParam {type : Scalar} :
    (f.addParam name type).2.Books code (params ++ [f.freshValue]) where
  lists := h.lists
  numbered := h.numbered
  params_eq := by rw [← h.params_eq]; rfl
  param n v hv := by
    rw [List.getElem?_append] at hv
    split at hv
    case isTrue hn =>
      obtain ⟨name, type, hd⟩ := h.param n v hv
      exact ⟨name, type, by rw [addParam_value?, if_neg (ne_freshValue hd), hd]⟩
    case isFalse hn =>
      obtain ⟨hz, rfl⟩ : n - params.length = 0 ∧ f.freshValue = v := by
        simpa [List.getElem?_singleton] using hv
      have last : n = params.length := by omega
      exact ⟨name, type, by rw [addParam_value?, if_pos rfl, h.params_eq, last]⟩
  known v d hd := by
    rw [addParam_value?] at hd
    split at hd
    case isTrue hv => exact .inl (by simp [hv])
    case isFalse => exact (h.known v d hd).imp_left (List.mem_append_left _)
  layout := h.layout
  entry := h.entry

theorem emit (hc : f.Consistent) (hb : b ∈ f.layout) :
    (f.emit b name type op).Books (code ++ [(f.freshValue, b)]) params where
  lists q := by
    by_cases hq : q = b
    case pos => rw [hq, emit_insts_self (hc.created b hb), h.lists]; simp
    case neg => rw [emit_insts_of_ne hq, h.lists]; simp [Ne.symm hq]
  numbered := by
    refine List.pairwise_append.mpr ⟨h.numbered, List.pairwise_singleton .., ?_⟩
    rintro ⟨v, q⟩ hv e he
    obtain ⟨d, hd, -⟩ := hc.listed (h.mem_insts_iff.mpr hv)
    rw [List.mem_singleton.mp he]
    exact index_lt_of_value? hd
  params_eq := h.params_eq
  param n v hv := by
    obtain ⟨name, type, hd⟩ := h.param n v hv
    exact ⟨name, type, emit_value?_of_some hd⟩
  known v d hd := by
    rw [emit_value?] at hd
    split at hd
    case isTrue hv => exact .inr ⟨b, by simp [hv]⟩
    case isFalse =>
      refine (h.known v d hd).imp_right ?_
      rintro ⟨q, hq⟩
      exact ⟨q, List.mem_append_left _ hq⟩
  layout := h.layout
  entry hs := h.entry (by simpa using hs)

theorem redirect {op₁ : Op} (ho : f.terminator? b = some op₁) :
    (f.redirect b op).Books code params where
  lists q := by rw [redirect_insts, h.lists]
  numbered := h.numbered
  params_eq := by rw [redirect_params, h.params_eq]
  param n v hv := by
    obtain ⟨name, type, hd⟩ := h.param n v hv
    exact ⟨name, type, redirect_value?_of_not_isTerminator ho hd rfl⟩
  known v d hd := by
    obtain ⟨op', hd', -⟩ := exists_of_redirect_value? ho hd
    exact h.known v _ hd'
  layout := by rw [redirect_layout]; exact h.layout
  entry hs := by rw [redirect_entry]; exact h.entry (by simpa using hs)

theorem prune : f.prune.2.Books code params where
  lists q := by rw [prune_insts, h.lists]
  numbered := h.numbered
  params_eq := by rw [prune_params, h.params_eq]
  param n v hv := by
    obtain ⟨name, type, hd⟩ := h.param n v hv
    obtain ⟨op', hd', ho⟩ := prune_value?_of_some hd
    -- Only a phi could lose anything.
    obtain rfl : op' = .param n := ho.elim id id
    exact ⟨name, type, hd'⟩
  known v d hd := by
    obtain ⟨op', hd', -⟩ := exists_of_prune_value? hd
    exact h.known v _ hd'
  layout := by rw [prune_layout]; exact h.layout.filter _
  entry hs := by rw [prune_entry]; exact h.entry (by simpa using hs)

theorem respond (hc : f.Consistent) (hg : respond call f = .ok answer g) :
    g.Books (code ++ answer.instruction?.toList) (params ++ answer.parameter?.toList) := by
  rcases f.respond_cases call with ⟨_, e⟩ | ⟨name, e⟩ | ⟨name, type, e⟩ |
    ⟨b, name, type, op, hb, ho, e⟩ | ⟨b, old, new, op₁, op₂, ho, hr, e⟩ | e <;>
    cases e.symm.trans hg <;>
    simp only [Answer.instruction?, Answer.parameter?, Option.toList, List.append_nil]
  · exact h.addBlock hc
  · exact h.addParam
  · exact h.emit hc hb
  · exact h.redirect ho
  · exact h.prune

theorem run (hb : f.Built fun _ _ => True) (calls : List Call) :
    (f.run calls).Books (code ++ f.appended calls) (params ++ f.declared calls) := by
  induction calls generalizing f code params
  case nil => simpa [appended, declared, answers, Function.run] using h
  case cons call calls ih =>
    cases e : Function.respond call f
    case ok answer g =>
      have rest := ih (h.respond hb.consistent e) (hb.respond e)
      simpa [appended, declared, answers, Function.run, e, filterMap_answer] using rest
    case error =>
      cases respond_error e
      simpa [appended, declared, answers, Function.run, e] using ih h hb

end Books

-- From `f` to `g` one edge of `b` has moved from `old` to `new`, the first one that led to `old`,
-- and nothing else but the operation of the last instruction of `b` has changed.
structure Moves (f : Function) (b old new : BlockId) (g : Function) : Prop where
  slot : ∃ before after, old ∉ before ∧ f.successors b = before ++ old :: after ∧
    g.successors b = before ++ new :: after
  others : ∀ p, p ≠ b → g.successors p = f.successors p
  values : ∀ v, (f.insts b).getLast? ≠ some v → g.value? v = f.value? v
  blocks : g.blocks = f.blocks
  layout : g.layout = f.layout
  entry : g.entry = f.entry
  params : g.params = f.params

theorem Listed.moves_of_retarget (h : f.Listed) (hg : retarget b old new f = .ok () g) :
    f.Moves b old new g := by
  obtain ⟨op₁, op₂, ho, hr, rfl⟩ := exists_of_retarget hg
  refine ⟨?slot, fun p hp => successors_congr (h.redirect_terminator?_of_ne ho hp), ?values,
    redirect_blocks, redirect_layout, redirect_entry, redirect_params⟩
  case slot =>
    have moved := redirect_terminator?_self ho (Op.isTerminator_of_retarget? hr)
    rw [successors_of_terminator? ho, successors_of_terminator? moved]
    exact Op.successors_of_retarget? hr
  case values =>
    intro v hv
    obtain ⟨last, d, hl, -⟩ := terminator?_eq_some_iff.mp ho
    have other : v ≠ last := fun e => hv (e ▸ hl)
    simp [redirect_value? hl, other]

-- What can be relied on in a function that was given the instructions `code` and the parameters
-- `params`.
structure Accounts (f : Function) (code : List (ValueId × BlockId)) (params : List ValueId) : Prop
    extends f.Books code params where
  straight : f.Straight
  -- An instruction stands in its own block once and in no other, and it knows its block.
  once : ∀ v b, (v, b) ∈ code → (f.insts b).count v = 1
  nowhere_else : ∀ v b, (v, b) ∈ code → ∀ p, p ≠ b → v ∉ f.insts p
  filed : ∀ v b, (v, b) ∈ code → ∃ d, f.value? v = some d ∧ d.block = some b
  ascending : ∀ b, (f.insts b).Pairwise (·.index < ·.index)
  unlisted : ∀ v ∈ params, ∀ b, v ∉ f.insts b
  created : ∀ b ∈ f.layout, b.index < f.blocks.size
  entry_mem : 0 < f.blocks.size → ⟨0⟩ ∈ f.layout
  -- The calls that can fail fail only for a reason, and then change nothing.
  append_iff : ∀ b name type op, (∃ v g, append b name type op f = .ok v g) ↔
    b ∈ f.layout ∧ f.terminator? b = none
  retarget_iff : ∀ b old new, (∃ g, retarget b old new f = .ok () g) ↔ old ∈ f.successors b
  unchanged : ∀ call cause g, respond call f = .error cause g → g = f
  moves : ∀ b old new g, retarget b old new f = .ok () g → f.Moves b old new g

-- After any sequence of calls, failing ones included, every value that was created has its one
-- place, and the blocks that are left stand in the order in which they were created.
theorem accounts_run (name : String) (result : Option Scalar) (calls : List Call) :
    ((empty name result).run calls).Accounts ((empty name result).appended calls)
      ((empty name result).declared calls) := by
  have start : (empty name result).Built fun _ _ => True := .empty name result
  have books := (books_empty name result).run start calls
  have built := start.run calls
  rw [List.nil_append, List.nil_append] at books
  have consistent := built.consistent
  refine ⟨books, built.straight, ?once, ?nowhere_else, ?filed, books.pairwise_insts, ?unlisted,
    consistent.created, fun hs => consistent.entry (books.entry hs), ?append_iff,
    fun _ _ _ => exists_retarget_iff, fun _ _ _ => respond_error,
    fun _ _ _ _ => consistent.listed.moves_of_retarget⟩
  case once =>
    intro v b hv
    exact List.count_eq_one_of_mem (books.nodup_insts b) (books.mem_insts_iff.mpr hv)
  case nowhere_else =>
    intro v b hv p hp hm
    exact hp (consistent.listed.block_eq hm (books.mem_insts_iff.mpr hv))
  case filed =>
    intro v b hv
    exact consistent.listed (books.mem_insts_iff.mpr hv)
  case unlisted =>
    intro v hv b hm
    obtain ⟨n, hn⟩ := List.mem_iff_getElem?.mp hv
    obtain ⟨_, _, hd⟩ := books.param n v hn
    obtain ⟨d, hd', hb⟩ := consistent.listed hm
    cases hd.symm.trans hd'
    cases hb
  case append_iff => simp [append_eq_ok_iff]

-- Calls fail for want of a block, on a closed block, for an edge that has gone and on a block that
-- was taken out. An instruction that says it is a parameter is none.
def reworked : List Call :=
  [.append ⟨0⟩ "" none .exit, .addBlock "entry", .addParam "a" .i32, .addBlock "left",
    .addBlock "right", .append ⟨1⟩ "x" (some .i32) (.param 7),
    .append ⟨0⟩ "" none (.branch ⟨0⟩ .lt ⟨0⟩ ⟨1⟩ ⟨1⟩), .append ⟨0⟩ "" none .exit,
    .retarget ⟨0⟩ ⟨1⟩ ⟨2⟩, .addParam "b" .i64, .retarget ⟨0⟩ ⟨1⟩ ⟨2⟩, .retarget ⟨0⟩ ⟨1⟩ ⟨2⟩,
    .prune, .append ⟨1⟩ "" none .exit, .append ⟨2⟩ "" none .exit]

theorem accounts_run_reworked :
    (empty "f" none).appended reworked = [(⟨1⟩, ⟨1⟩), (⟨2⟩, ⟨0⟩), (⟨4⟩, ⟨2⟩)] ∧
    (empty "f" none).declared reworked = [⟨0⟩, ⟨3⟩] ∧
    ((empty "f" none).run reworked).layout = [⟨0⟩, ⟨2⟩] ∧
    ((empty "f" none).run reworked).successors ⟨0⟩ = [⟨2⟩, ⟨2⟩] ∧
    ((empty "f" none).run reworked).Accounts [(⟨1⟩, ⟨1⟩), (⟨2⟩, ⟨0⟩), (⟨4⟩, ⟨2⟩)] [⟨0⟩, ⟨3⟩] := by
  have code : (empty "f" none).appended reworked = [(⟨1⟩, ⟨1⟩), (⟨2⟩, ⟨0⟩), (⟨4⟩, ⟨2⟩)] := by
    decide +kernel
  have params : (empty "f" none).declared reworked = [⟨0⟩, ⟨3⟩] := by decide +kernel
  exact ⟨code, params, by decide +kernel, by decide +kernel, code ▸ params ▸ accounts_run "f" none reworked⟩

end Function

end StackCompiler.Ssa

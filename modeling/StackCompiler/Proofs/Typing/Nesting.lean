import StackCompiler.Proofs.Typing.Inclusion

-- The instructions that open, leave and close regions: what passes validation passes the check, and it
-- is known what jumps in dead code leave behind.

namespace StackCompiler.Typing

open Bytecode (Instruction)
open Lowering.Direct (guard_bind_of_pos)

variable {env : Environment} {dead dead' : Bool} {items left extra below below' stack stack' : List Item}
variable {bs : List Bracket} {cs outer : List Control} {b : Bracket} {c c' : Control} {depth n : Nat}
variable {counts : List Nat} {k l : Outline} {v w : Validation} {ty : Scalar} {result : Option Scalar} {shape : Shape}

namespace Covers

-- Dead code may be taken for more.
theorem mono (h : Covers env dead stack bs counts stack' cs) (hd : dead' = false → dead = false) :
    Covers env dead' stack bs counts stack' cs := by
  cases h
  case body hl => exact .body fun h => hl (hd h)
  case region h hl => exact .region (fun h => hl (hd h)) h

theorem length_eq (h : Covers env dead stack bs counts stack' cs) : cs.length = bs.length + 1 := by
  induction h
  case body => rfl
  case region hi => rw [List.length_cons, List.length_cons, hi]

-- The region that a branch leaves, or the body.
theorem control (h : Covers env dead stack bs counts stack' cs) (hc : cs[depth]? = some c) :
    depth = bs.length ∧ c.label = env.result ∨
      ∃ b, bs[depth]? = some b ∧ b.shape = c.shape ∧ b.result = c.result := by
  induction h generalizing depth
  case body =>
    cases depth
    case zero =>
      cases hc
      exact .inl ⟨rfl, rfl⟩
    case succ => simp at hc
  case region hi =>
    cases depth
    case zero =>
      cases hc
      exact .inr ⟨_, rfl, rfl, rfl⟩
    case succ => simpa using hi hc

-- That a region was left makes no difference.
theorem leave (h : Covers env dead stack bs counts stack' cs) (hb : bs[depth]? = some b) :
    Covers env dead stack (bs.set depth b.leave) counts stack' cs := by
  induction h generalizing depth
  case body => simp at hb
  case region hl h hi =>
    cases depth
    case zero =>
      cases hb
      exact .region hl h
    case succ => exact .region hl (hi hb)

end Covers

namespace Validate

theorem cut_eq (hc : v.controls = c :: outer) :
    cut v = some ((), ⟨v.stack.drop (v.stack.length - c.height),
      { c with isUnreachable := true } :: outer⟩) := by
  obtain ⟨stack, controls⟩ := v
  subst hc
  rfl

end Validate

namespace Innermost

variable (hi : Innermost env k v items left extra below below' counts c outer)
include hi

-- A result is taken off the top, unless there is nothing left behind a jump.
theorem popResult_cases (hx : Validate.popResult result v = some ((), w)) :
    items = [] ∧ extra = [] ∧ c.isUnreachable = true ∧ w = v ∨
      ∃ rest, items ++ extra = (result.map Item.value).toList ++ rest ∧
        w = { v with stack := rest ++ below' } := by
  cases result
  case none =>
    cases hx
    exact .inr ⟨items ++ extra, rfl, by rw [← hi.stack']⟩
  case some ty =>
    obtain ⟨⟨o, w'⟩, hpop, hmatch⟩ := Option.bind_eq_some_iff.mp hx
    rcases hi.pop_cases hpop with ⟨item, rest, rfl, hknown, hw⟩ | ⟨rfl, hitems, hextra, hu, hw⟩
    · obtain ⟨rfl, rfl⟩ := guard_eq_some_iff.mp hmatch
      exact .inr ⟨rest, hknown, hw⟩
    · cases hmatch
      exact .inl ⟨hitems, hextra, hu, hw⟩

-- Nothing but the result is left of a region, and nothing at all in the end.
theorem exit_cases (hx : Validate.exit v = some (c', w)) :
    c' = c ∧ w = ⟨below', outer⟩ ∧
      (k.isDead = false → items ++ left = (c.result.map Item.value).toList) := by
  have hexit : Validate.exit v = (do
      Validate.popResult c.result
      let v ← get
      guard (v.stack.length = c.height)
      set { v with controls := v.controls.tail }
      return c : Validate Control) v := by
    obtain ⟨stack, controls⟩ := v
    cases hi.controls
    rfl
  rw [hexit] at hx
  obtain ⟨⟨_, w'⟩, hpop, hx⟩ := Option.bind_eq_some_iff.mp hx
  obtain ⟨⟨_, u⟩, hg, hx⟩ := Option.bind_eq_some_iff.mp hx
  obtain ⟨hlen, hu⟩ := guard_eq_some_iff.mp hg
  cases hu
  cases hx
  rcases hi.popResult_cases hpop with ⟨hitems, hextra, hu, hw⟩ | ⟨rest, hs, hw⟩
  case inl =>
    refine ⟨rfl, ?_, fun hd => ?_⟩
    · rw [hw, hi.stack', hi.controls, hitems, hextra]
      rfl
    · rw [(hi.live hd).2.2] at hu
      cases hu
  case inr =>
    have hrest : rest = [] := by
      rw [hw, hi.height, List.length_append] at hlen
      exact List.length_eq_zero_iff.mp (by omega)
    refine ⟨rfl, ?_, fun hd => ?_⟩
    · rw [hw, hi.controls, hrest]
      rfl
    · obtain ⟨rfl, rfl, _⟩ := hi.live hd
      subst hrest
      simpa using hs

-- What live code takes off the stack is known to both.
theorem popResult_of_live (hd : k.isDead = false)
    (hx : Validate.popResult result v = some ((), w)) :
    ∃ rest, items = (result.map Item.value).toList ++ rest ∧
      w = { v with stack := rest ++ below' } := by
  obtain ⟨_, rfl, hreachable⟩ := hi.live hd
  rcases hi.popResult_cases hx with ⟨_, _, hu, _⟩ | ⟨rest, hs, hw⟩
  · rw [hreachable] at hu
    cases hu
  · exact ⟨rest, by rwa [List.append_nil] at hs, hw⟩

-- Behind a jump nothing is left of the region.
theorem cut_of_popResult (hx : Validate.popResult result v = some ((), w)) :
    Validate.cut w = some ((), ⟨below', { c with isUnreachable := true } :: outer⟩) := by
  have hw : ∃ rest, w = { v with stack := rest ++ below' } := by
    rcases hi.popResult_cases hx with ⟨_, _, _, hw⟩ | ⟨rest, _, hw⟩
    · exact ⟨items ++ extra, by rw [hw, ← hi.stack']⟩
    · exact ⟨rest, hw⟩
  obtain ⟨rest, rfl⟩ := hw
  rw [Validate.cut_eq (v := { v with stack := rest ++ below' }) hi.controls, hi.height,
    List.length_append, Nat.add_sub_cancel, List.drop_left]

end Innermost

theorem Check.truncate_eq {height : Nat} (hs : k.stack = items ++ below)
    (hb : height = below.length) :
    Check.truncate height k = some ((), { k with stack := below }) := by
  have hdrop : k.stack.drop (k.stack.length - height) = below := by
    rw [hs, hb, List.length_append, Nat.add_sub_cancel, List.drop_left]
  change some ((), { k with stack := k.stack.drop (k.stack.length - height) }) = _
  rw [hdrop]

-- The result is taken off the top, and nothing else is there in live code.
theorem Check.finish_eq (hs : k.stack = items ++ below) (hb : b.height = below.length)
    (hr : k.isDead = false → items = (b.result.map Item.value).toList) :
    Check.finish b k = some ((), { k with stack := below }) := by
  have ht := Check.truncate_eq hs hb
  change (if k.isDead then _ else _ : Check Unit) k = _
  by_cases hd : k.isDead = true
  case pos =>
    rw [if_pos hd]
    exact bind_eq_of_eq_some ht
  case neg =>
    rw [if_neg hd]
    have hitems := hr (by simpa using hd)
    cases hres : b.result
    case none => exact ht
    case some ty =>
      rw [hres] at hitems
      have hone : k.stack.length - b.height = 1 := by simp [hs, hb, hitems]
      have htop : k.stack.head? = some (.value ty) := by simp [hs, hitems]
      change (guard (k.stack.length - b.height = 1) >>= fun _ =>
        guard (k.stack.head? = some (.value ty)) >>= fun _ => Check.truncate b.height : Check Unit) k = _
      rw [guard_bind_of_pos hone, guard_bind_of_pos htop, ht]

theorem enter_covered (h : k.Covered env v counts) :
    Outline.Covered env
      { k with brackets := ⟨shape, result, k.stack.length, !k.isDead, false⟩ :: k.brackets }
      { v with controls := ⟨shape, result, v.stack.length, false⟩ :: v.controls } (0 :: counts) := by
  have hk : Covers env (!!k.isDead) k.stack k.brackets counts v.stack v.controls := by
    rw [Bool.not_not]
    exact h.covers
  have hc : Covers env k.isDead ([] ++ [] ++ k.stack)
      (⟨shape, result, k.stack.length, !k.isDead, false⟩ :: k.brackets) (0 :: counts)
      ([] ++ [] ++ v.stack) (⟨shape, result, v.stack.length, false⟩ :: v.controls) :=
    .region (fun hd => ⟨rfl, rfl, rfl, by rw [hd]; rfl⟩) hk
  exact ⟨h.isEnded, hc⟩

theorem enter_follows (h : k.Covered env v counts) :
    Follows (Validate.enter shape result) v (Check.enter shape result) k
      fun _ w _ l => l.Covered env w (0 :: counts) := by
  rintro _ _ ⟨⟩
  exact ⟨(), _, rfl, enter_covered h⟩

theorem Check.turn_eq (hb : k.brackets = b :: bs) (hs : b.shape = .if_)
    (hf : Check.finish b k = some ((), l)) :
    Check.turn k = some ((), { l with
      brackets := { b with shape := .else_, isLeft := b.isLeft || !k.isDead } :: bs
      isDead := !b.isLive }) := by
  have hturn : Check.turn k = (do
      guard (b.shape = .if_)
      Check.finish b
      modify fun l => { l with
        brackets := { b with shape := .else_, isLeft := b.isLeft || !k.isDead } :: bs
        isDead := !b.isLive } : Check Unit) k := by
    obtain ⟨stack, brackets, isDead, isEnded⟩ := k
    cases hb
    rfl
  rw [hturn, guard_bind_of_pos hs]
  exact bind_eq_of_eq_some hf

theorem turn_follows (h : k.Covered env v counts) :
    Follows Validate.turn v Check.turn k fun _ w _ l => l.Covered env w (0 :: counts.tail) := by
  intro _ w hx
  obtain ⟨⟨c', w'⟩, hexit, hx⟩ := Option.bind_eq_some_iff.mp hx
  obtain ⟨⟨_, u⟩, hg, hx⟩ := Option.bind_eq_some_iff.mp hx
  obtain ⟨hshape, hu⟩ := guard_eq_some_iff.mp hg
  cases hu
  cases hx
  cases hb : k.brackets
  case nil =>
    obtain ⟨items, left, extra, isUnreachable, rfl, hi⟩ := h.of_nil hb
    obtain ⟨rfl, _⟩ := hi.exit_cases hexit
    cases hshape
  case cons b bs =>
    obtain ⟨items, left, extra, below, below', counts, c, outer, rfl, hi, hs, hr, hh, hc⟩ := h.of_cons hb
    obtain ⟨rfl, rfl, hitems⟩ := hi.exit_cases hexit
    have hfinish := Check.finish_eq hi.stack hh (hr ▸ hitems)
    refine ⟨(), _, Check.turn_eq hb (hs.trans hshape) hfinish, ?_⟩
    have hcovers : Covers env (!b.isLive) ([] ++ [] ++ below)
        (⟨.else_, b.result, below.length, b.isLive, b.isLeft || !k.isDead⟩ :: bs) (0 :: counts)
        ([] ++ [] ++ below') (⟨.else_, b.result, below'.length, false⟩ :: outer) :=
      .region (fun hd => ⟨rfl, rfl, rfl, by simpa using hd⟩) hc
    rw [← hh, hr] at hcovers
    refine ⟨h.isEnded, ?_⟩
    simp only [hr]
    exact hcovers

-- The body is at its end. Live code leaves the result and nothing else.
structure Outline.Concluded (env : Environment) (k : Outline) : Prop where
  brackets : k.brackets = []
  stack : k.isDead = false → k.stack = (env.result.map Item.value).toList

-- The end of the outermost region is that of the body.
theorem Outline.Covered.concluded_of_exit (h : k.Covered env v counts)
    (hx : Validate.exit v = some (c', w)) (hw : w.controls = []) : k.Concluded env := by
  cases hb : k.brackets
  case nil =>
    obtain ⟨items, left, extra, isUnreachable, _, hi⟩ := h.of_nil hb
    obtain ⟨_, _, hitems⟩ := hi.exit_cases hx
    refine ⟨hb, fun hd => ?_⟩
    rw [hi.stack, hitems hd, List.append_nil]
  case cons =>
    obtain ⟨items, left, extra, below, below', _, c, outer, _, hi, _, _, _, hc⟩ := h.of_cons hb
    obtain ⟨_, rfl, _⟩ := hi.exit_cases hx
    have hlen := hc.length_eq
    simp only at hw
    simp [hw] at hlen

theorem Check.close_eq (hb : k.brackets = b :: bs) (hs : b.shape = .if_ → b.result = none)
    (hf : Check.finish b k = some ((), l)) :
    Check.close k = some ((), { l with
      stack := (b.result.map Item.value).toList ++ l.stack
      brackets := bs
      isDead := !(b.isLive && (b.isLeft || b.shape == .if_ || !k.isDead)) }) := by
  have hclose : Check.close k = (do
      guard (b.shape = .if_ → b.result = none)
      Check.finish b
      modify fun l => { l with
        stack := (b.result.map Item.value).toList ++ l.stack
        brackets := bs
        isDead := !(b.isLive && (b.isLeft || b.shape == .if_ || !k.isDead)) } : Check Unit) k := by
    obtain ⟨stack, brackets, isDead, isEnded⟩ := k
    cases hb
    rfl
  rw [hclose, guard_bind_of_pos hs]
  exact bind_eq_of_eq_some hf

theorem Check.close_of_nil (hb : k.brackets = []) :
    Check.close k = some ((), { k with isEnded := true }) := by
  obtain ⟨stack, brackets, isDead, isEnded⟩ := k
  cases hb
  rfl

theorem Validate.pushResult_eq :
    Validate.pushResult result v =
      some ((), { v with stack := (result.map Item.value).toList ++ v.stack }) := by
  cases result <;> rfl

theorem push_result_covered (h : k.Covered env v counts) (result : Option Scalar) :
    Outline.Covered env { k with stack := (result.map Item.value).toList ++ k.stack }
      { v with stack := (result.map Item.value).toList ++ v.stack } counts := by
  cases result
  case none => exact h
  case some ty => exact push_covered h (.value ty)

-- The end of the body leaves nothing more to do.
theorem close_follows (h : k.Covered env v counts) :
    Follows Validate.close v Check.close k fun _ w _ l =>
      l.Covered env w counts.tail ∨ w.controls = [] ∧ l.Concluded env := by
  intro _ w hx
  obtain ⟨⟨c', w'⟩, hexit, hx⟩ := Option.bind_eq_some_iff.mp hx
  obtain ⟨⟨_, u⟩, hg, hx⟩ := Option.bind_eq_some_iff.mp hx
  obtain ⟨hshape, hu⟩ := guard_eq_some_iff.mp hg
  cases hu
  change Validate.pushResult _ _ = _ at hx
  rw [Validate.pushResult_eq] at hx
  cases hx
  cases hb : k.brackets
  case nil =>
    obtain ⟨items, left, extra, isUnreachable, _, hi⟩ := h.of_nil hb
    obtain ⟨rfl, rfl, _⟩ := hi.exit_cases hexit
    have hend := h.concluded_of_exit hexit rfl
    exact ⟨(), _, Check.close_of_nil hb, .inr ⟨rfl, hend.brackets, hend.stack⟩⟩
  case cons b bs =>
    obtain ⟨items, left, extra, below, below', counts, c, outer, rfl, hi, hs, hr, hh, hc⟩ := h.of_cons hb
    obtain ⟨rfl, rfl, hitems⟩ := hi.exit_cases hexit
    have hfinish := Check.finish_eq hi.stack hh (hr ▸ hitems)
    refine ⟨(), _, Check.close_eq hb (by rwa [hs, hr]) hfinish, .inl ?_⟩
    have hcovers (isLeft : Bool) : Covers env (!(b.isLive && isLeft)) below bs counts below' outer :=
      hc.mono fun hd => by cases hl : b.isLive <;> simp [hl] at hd ⊢
    rw [← hr]
    exact push_result_covered (k := { k with stack := below, brackets := bs, isDead := !(_ && _) })
      (v := ⟨below', outer⟩) ⟨h.isEnded, hcovers _⟩ b.result

theorem Outline.floor_leave (hb : k.brackets[depth]? = some b) :
    ({ k with brackets := k.brackets.set depth b.leave } : Outline).floor = k.floor := by
  obtain ⟨stack, brackets, isDead, isEnded⟩ := k
  cases brackets
  case nil => rfl
  case cons =>
    cases depth
    case zero =>
      cases hb
      rfl
    case succ => rfl

namespace Check

theorem peek_eq {rest : List Item} (hs : k.stack = .value ty :: rest) (hf : k.floor ≤ rest.length) :
    Check.peek k = some (ty, k) := by
  have hlt : k.floor < k.stack.length := by
    rw [hs, List.length_cons]
    omega
  have hpeek : Check.peek k =
      (if k.floor < k.stack.length then return ty else failure : Check Scalar) k := by
    obtain ⟨stack, brackets, isDead, isEnded⟩ := k
    cases hs
    rfl
  rw [hpeek, if_pos hlt]
  rfl

theorem leave_body (hl : depth = k.brackets.length) : Check.leave depth k = some (true, k) := by
  change (if depth = k.brackets.length then _ else _ : Check Bool) k = _
  rw [if_pos hl]
  rfl

-- The result of the region is on top of the stack.
theorem leave_region (hb : k.brackets[depth]? = some b)
    (hp : ∀ ty, b.shape ≠ .loop → b.result = some ty → Check.peek k = some (ty, k)) :
    Check.leave depth k = some (false,
      if b.shape = .loop then k else { k with brackets := k.brackets.set depth b.leave }) := by
  have hne : depth ≠ k.brackets.length := by
    intro he
    simp [he] at hb
  change (if depth = k.brackets.length then _ else _ : Check Bool) k = _
  rw [if_neg hne, hb]
  change (if b.shape = .loop then _ else _ : Check Bool) k = _
  by_cases hs : b.shape = .loop
  case pos =>
    rw [if_pos hs, if_pos hs]
    rfl
  case neg =>
    rw [if_neg hs, if_neg hs]
    cases hr : b.result
    case none => rfl
    case some ty =>
      change (Check.peek >>= fun found => guard (found = ty) >>= _ : Check Bool) k = _
      rw [bind_eq_of_eq_some (hp ty hs hr), guard_bind_of_pos rfl]
      rfl

theorem die_eq (hs : k.stack = items ++ below) (hf : k.floor = below.length) :
    Check.die k = some ((), { k with stack := below, isDead := true }) := by
  have ht := Check.truncate_eq hs hf
  exact bind_eq_of_eq_some (f := fun _ => modify fun k => { k with isDead := true }) ht

theorem branch_of_dead (hd : k.isDead = true) : branch env depth k = some ((), k) := by
  change (if k.isDead then _ else _ : Check Unit) k = _
  rw [if_pos hd]
  rfl

theorem return_of_dead (hd : k.isDead = true) : return_ env k = some ((), k) := by
  change (if k.isDead then _ else _ : Check Unit) k = _
  rw [if_pos hd]
  rfl

theorem conclude_eq {rest : List Item} (hs : k.stack = (result.map Item.value).toList ++ rest)
    (hf : k.floor ≤ rest.length) :
    Check.conclude result k = some ((), { k with stack := rest }) := by
  cases result
  case none =>
    obtain ⟨stack, brackets, isDead, isEnded⟩ := k
    cases hs
    rfl
  case some ty => exact Check.popTyped_eq_of_cons hs hf

theorem previewResult_eq {rest : List Item} (hs : k.stack = (result.map Item.value).toList ++ rest)
    (hf : k.floor ≤ rest.length) : Check.previewResult result k = some ((), k) := by
  cases result
  case none => rfl
  case some ty =>
    have hpeek := Check.peek_eq hs hf
    exact (bind_eq_of_eq_some hpeek).trans (guard_eq_some_iff.mpr ⟨rfl, rfl⟩)

end Check

-- What a branch brings along is on top of the stack, and the region knows that it was left.
theorem leave_cases (h : k.Covered env v counts) (hs : k.stack = (c'.label.map Item.value).toList ++ stack)
    (hf : k.floor ≤ stack.length) (hc : v.controls[depth]? = some c') :
    Check.leave depth k = some (true, k) ∧ c'.label = env.result ∨
      ∃ brackets, Check.leave depth k = some (false, { k with brackets := brackets }) ∧
        ({ k with brackets := brackets } : Outline).floor = k.floor ∧
        ∀ {dead stack counts stack' cs}, Covers env dead stack k.brackets counts stack' cs →
          Covers env dead stack brackets counts stack' cs := by
  rcases h.covers.control hc with ⟨hl, hlabel⟩ | ⟨b, hb, hshape, hresult⟩
  · exact .inl ⟨Check.leave_body hl, hlabel⟩
  · have hpeek (ty : Scalar) (hn : b.shape ≠ .loop) (hr : b.result = some ty) :
        Check.peek k = some (ty, k) := by
      have hlabel : c'.label = some ty := by
        rw [Control.label, if_neg (hshape ▸ hn), ← hresult, hr]
      rw [hlabel] at hs
      exact Check.peek_eq hs hf
    have hleave := Check.leave_region hb hpeek
    by_cases hloop : b.shape = .loop
    · rw [if_pos hloop] at hleave
      exact .inr ⟨_, hleave, rfl, id⟩
    · rw [if_neg hloop] at hleave
      exact .inr ⟨_, hleave, Outline.floor_leave hb, fun hcovers => hcovers.leave hb⟩

namespace Innermost

variable (hi : Innermost env k v items left extra below below' counts c outer)
include hi

-- Live code has only operands that validation knows of.
theorem stack_of_live (hd : k.isDead = false) {rest : List Item}
    (hs : items = (result.map Item.value).toList ++ rest) :
    k.stack = (result.map Item.value).toList ++ (rest ++ below) ∧ k.floor ≤ (rest ++ below).length := by
  obtain ⟨rfl, _⟩ := hi.live hd
  refine ⟨?_, ?_⟩
  · rw [hi.stack, hs, List.append_nil, List.append_assoc]
  · rw [hi.floor, List.length_append]
    omega

-- Behind a jump nothing is left of the region.
theorem jump_covered (hbs : ∀ {dead stack counts stack' cs},
      Covers env dead stack k.brackets counts stack' cs → Covers env dead stack bs counts stack' cs) :
    Outline.Covered env { k with stack := below, brackets := bs, isDead := true }
      ⟨below', { c with isUnreachable := true } :: outer⟩ (0 :: counts) := by
  have hcovers : Covers env true ([] ++ [] ++ below) k.brackets (0 :: counts) ([] ++ [] ++ below')
      ({ c with isUnreachable := true } :: outer) := hi.replace (by simp)
  exact ⟨hi.isEnded, hbs hcovers⟩

-- A jump out of the function takes the result along.
theorem exists_concluded (hd : k.isDead = false) {rest : List Item}
    (hs : items = (env.result.map Item.value).toList ++ rest) :
    ∃ a l, (do Check.conclude env.result; Check.die : Check Unit) k = some (a, l) ∧
      l.Covered env ⟨below', { c with isUnreachable := true } :: outer⟩ (0 :: counts) := by
  obtain ⟨hstack, hfloor⟩ := hi.stack_of_live hd hs
  have hconclude := Check.conclude_eq hstack hfloor
  refine ⟨(), _, (bind_eq_of_eq_some hconclude).trans (Check.die_eq rfl hi.floor), ?_⟩
  exact hi.jump_covered id

-- A jump in dead code leaves all operands of its region behind.
theorem skip_covered (hd : k.isDead = true) :
    k.Covered env ⟨below', { c with isUnreachable := true } :: outer⟩ (k.operands.length :: counts) := by
  have hcovers : Covers env true ([] ++ (items ++ left) ++ below) k.brackets
      ((items ++ left).length :: counts) ([] ++ [] ++ below')
      ({ c with isUnreachable := true } :: outer) := hi.replace (by simp)
  refine ⟨hi.isEnded, ?_⟩
  rw [hd, hi.stack, hi.operands]
  exact hcovers

end Innermost

-- The region that a branch goes to.
theorem Validate.exists_control {g : Control → Validate Unit} {a : Unit}
    (hx : (do
      let some c := (← get).controls[depth]? | failure
      g c : Validate Unit) v = some (a, w)) :
    ∃ c, v.controls[depth]? = some c ∧ g c v = some (a, w) := by
  change (match v.controls[depth]? with
    | some c => g c
    | _ => failure : Validate Unit) v = _ at hx
  cases hc : v.controls[depth]? <;> rw [hc] at hx
  case none => cases hx
  case some c => exact ⟨c, rfl, hx⟩

section Jumps

variable (h : k.Covered env v counts)
include h

theorem branch_follows :
    Follows (Validate.branch depth) v (Check.branch env depth) k fun _ w _ l =>
      l.Covered env w ((if k.isDead then k.operands.length else 0) :: counts.tail) := by
  obtain ⟨items, left, extra, below, below', counts, c, outer, rfl, hi⟩ := h.exists_innermost
  intro _ w hx
  obtain ⟨c', hc, hx⟩ := Validate.exists_control hx
  obtain ⟨⟨_, u⟩, hpop, hcut⟩ := Option.bind_eq_some_iff.mp hx
  cases (hi.cut_of_popResult hpop).symm.trans hcut
  cases hd : k.isDead
  case true => exact ⟨(), k, Check.branch_of_dead hd, hi.skip_covered hd⟩
  case false =>
    obtain ⟨rest, hs, _⟩ := hi.popResult_of_live hd hpop
    obtain ⟨hstack, hfloor⟩ := hi.stack_of_live hd hs
    have hgo : Check.branch env depth k = (do
        if ← Check.leave depth then
          Check.conclude env.result
        Check.die : Check Unit) k := by
      change (if k.isDead then _ else _ : Check Unit) k = _
      rw [hd]
      rfl
    rw [hgo]
    rcases leave_cases h hstack hfloor hc with ⟨hleave, hlabel⟩ | ⟨bs, hleave, hfloor, hbs⟩
    · rw [bind_eq_of_eq_some hleave]
      exact hi.exists_concluded hd (hlabel ▸ hs)
    · rw [bind_eq_of_eq_some hleave]
      exact ⟨(), _, Check.die_eq hi.stack (hfloor.trans hi.floor), hi.jump_covered hbs⟩

theorem return_follows :
    Follows (Validate.step env .return_) v (Check.return_ env) k fun _ w _ l =>
      l.Covered env w ((if k.isDead then k.operands.length else 0) :: counts.tail) := by
  obtain ⟨items, left, extra, below, below', counts, c, outer, rfl, hi⟩ := h.exists_innermost
  intro _ w hx
  obtain ⟨⟨_, u⟩, hpop, hcut⟩ := Option.bind_eq_some_iff.mp hx
  cases (hi.cut_of_popResult hpop).symm.trans hcut
  cases hd : k.isDead
  case true => exact ⟨(), k, Check.return_of_dead hd, hi.skip_covered hd⟩
  case false =>
    obtain ⟨rest, hs, _⟩ := hi.popResult_of_live hd hpop
    have hgo : Check.return_ env k = (do
        Check.conclude env.result
        Check.die : Check Unit) k := by
      change (if k.isDead then _ else _ : Check Unit) k = _
      rw [hd]
      rfl
    rw [hgo]
    exact hi.exists_concluded hd hs

end Jumps

-- A branch that may not be taken leaves the stack as it is, but makes known what it brings along.
theorem branchIf_follows (h : k.Awaits env [.condition] v counts) :
    Follows (Validate.branchIf depth) v (Check.branchIf env depth) k
      fun _ w _ l => l.Covered env w counts := by
  refine (popCondition_follows h).bind fun _ v _ k h => ?_
  have h := h.covered
  obtain ⟨items, left, extra, below, below', counts', c, outer, rfl, hi⟩ := h.exists_innermost
  intro _ w hx
  obtain ⟨c', hc, hx⟩ := Validate.exists_control hx
  obtain ⟨⟨_, u⟩, hpop, hpush⟩ := Option.bind_eq_some_iff.mp hx
  cases Validate.pushResult_eq.symm.trans hpush
  change ∃ a l, (if k.isDead then _ else _ : Check Unit) k = some (a, l) ∧ _
  cases hd : k.isDead
  case true =>
    refine ⟨(), k, rfl, ?_⟩
    rcases hi.popResult_cases hpop with ⟨rfl, rfl, _, rfl⟩ | ⟨rest, hs, rfl⟩
    · have hcovered : Outline.Covered env { k with stack := [] ++ left ++ below }
          { u with stack := [] ++ (c'.label.map Item.value).toList ++ below' } (left.length :: counts') :=
        hi.covered (by simp [hd])
      have hstack' : u.stack = below' := by rw [hi.stack']; rfl
      rw [hstack']
      rw [← hi.stack] at hcovered
      exact hcovered
    · rw [← List.append_assoc, ← hs, ← hi.stack']
      exact h
  case false =>
    obtain ⟨rest, hs, rfl⟩ := hi.popResult_of_live hd hpop
    obtain ⟨hstack, hfloor⟩ := hi.stack_of_live hd hs
    have hextra := (hi.live hd).2.1
    have hstack' : (c'.label.map Item.value).toList ++ (rest ++ below') = v.stack := by
      rw [hi.stack', hextra, hs, List.append_nil, List.append_assoc]
    rw [hstack', if_neg (by simp)]
    rcases leave_cases h hstack hfloor hc with ⟨hleave, hlabel⟩ | ⟨bs, hleave, _, hbs⟩
    · rw [hlabel] at hstack
      exact ⟨(), k, (bind_eq_of_eq_some hleave).trans (Check.previewResult_eq hstack hfloor), h⟩
    · exact ⟨(), _, (bind_eq_of_eq_some hleave).trans rfl, h.isEnded, hbs h.covers⟩

end StackCompiler.Typing

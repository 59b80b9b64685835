import Mathlib.Algebra.Group.Nat.Defs
import Mathlib.Logic.Function.Basic
import StackCompiler.Machine.Instruction

-- What the instructions do on a machine with a byte-addressed memory. There are no jumps, so code
-- runs from its first instruction towards its last until it returns. What a call or a raw byte
-- does is up to the host.

namespace StackCompiler

def Register.IsGeneral (r : Register) : Prop :=
  r.bank = Register.generalBank ∧ r.id < 16
deriving Decidable

def Register.IsVector (r : Register) : Prop :=
  r.bank = Register.vectorBank ∧ r.id < 16
deriving Decidable

theorem Register.IsGeneral.id_ne {r q : Register} (hr : r.IsGeneral) (hq : q.IsGeneral) (h : r ≠ q) :
    r.id ≠ q.id := by
  intro same
  have bank : r.bank = q.bank := hr.left.trans hq.left.symm
  cases r
  cases q
  simp_all

namespace Machine

abbrev Word := BitVec 64

abbrev Memory := Word → UInt8

namespace Memory

-- Words lie in memory with their lowest byte first.
def load (m : Memory) (a : Word) : Word :=
  BitVec.ofNat 64 (Bytes.toNat ((List.range 8).map fun i => m (a + BitVec.ofNat 64 i)))

def store (m : Memory) (a value : Word) : Memory :=
  fun x => (Bytes.littleEndian 8 value.toNat)[(x - a).toNat]?.getD (m x)

variable {m m' : Memory} {a value x : Word}

theorem store_apply_of_le (h : a.toNat + 8 ≤ x.toNat) : m.store a value x = m x := by
  have distance : (x - a).toNat = x.toNat - a.toNat := by
    rw [BitVec.toNat_sub_of_le]
    exact BitVec.le_def.mpr (by omega)
  rw [store, List.getElem?_eq_none, Option.getD_none]
  rw [Bytes.length_littleEndian, distance]
  omega

theorem load_store : (m.store a value).load a = value := by
  have bytes : ((List.range 8).map fun i => m.store a value (a + BitVec.ofNat 64 i))
      = Bytes.littleEndian 8 value.toNat := by
    apply List.ext_getElem
    case hl => simp
    case h =>
      intro i hi hi'
      have index : (a + BitVec.ofNat 64 i - a).toNat = i := by
        rw [BitVec.add_comm, BitVec.add_sub_cancel, BitVec.toNat_ofNat]
        simp only [List.length_map, List.length_range] at hi
        omega
      rw [List.getElem_map, List.getElem_range, store, index, List.getElem?_eq_getElem hi',
        Option.getD_some]
  have range : Nat.pow 256 8 = 2 ^ 64 := by decide
  rw [load, bytes, Bytes.toNat_littleEndian, range]
  apply BitVec.eq_of_toNat_eq
  rw [BitVec.toNat_ofNat, Nat.mod_mod, Nat.mod_eq_of_lt value.isLt]

-- A word that ends within the address space is read from addresses at and above its own.
theorem load_congr (h : a.toNat + 8 ≤ 2 ^ 64) (agree : ∀ x : Word, a.toNat ≤ x.toNat → m x = m' x) :
    m.load a = m'.load a := by
  have bytes : ((List.range 8).map fun i => m (a + BitVec.ofNat 64 i))
      = (List.range 8).map fun i => m' (a + BitVec.ofNat 64 i) := by
    apply List.map_congr_left
    intro i hi
    apply agree
    rw [List.mem_range] at hi
    rw [BitVec.toNat_add, BitVec.toNat_ofNat]
    omega
  rw [load, load, bytes]

end Memory

@[ext]
structure State where
  -- The general purpose registers by their numbers.
  general : Nat → Word
  vector : Nat → BitVec 128
  memory : Memory

namespace State

-- What a general purpose register holds.
def get (s : State) (r : Register) : Word :=
  s.general r.id

def set (s : State) (r : Register) (value : Word) : State :=
  { s with general := Function.update s.general r.id value }

def rsp (s : State) : Word :=
  s.get .rsp

-- Puts a word on the stack, which grows downwards.
def push (s : State) (value : Word) : State :=
  { s.set .rsp (s.rsp - 8) with memory := s.memory.store (s.rsp - 8) value }

def top (s : State) : Word :=
  s.memory.load s.rsp

def drop (s : State) : State :=
  s.set .rsp (s.rsp + 8)

variable {s : State} {r q : Register} {v : Word}

@[simp]
theorem get_set_self : (s.set r v).get r = v :=
  Function.update_self ..

theorem get_set_of_ne (h : q.id ≠ r.id) : (s.set r v).get q = s.get q :=
  Function.update_of_ne h ..

@[simp]
theorem set_get_self : s.set r (s.get r) = s := by
  rw [set, get, Function.update_eq_self]

@[simp]
theorem memory_set : (s.set r v).memory = s.memory :=
  rfl

@[simp]
theorem rsp_set_rsp : (s.set .rsp v).rsp = v :=
  get_set_self

theorem rsp_set_of_ne (h : r.id ≠ Register.rsp.id) : (s.set r v).rsp = s.rsp :=
  get_set_of_ne h.symm

@[simp]
theorem rsp_push : (s.push v).rsp = s.rsp - 8 :=
  rsp_set_rsp (s := s)

theorem toNat_rsp_push (room : 8 ≤ s.rsp.toNat) : (s.push v).rsp.toNat = s.rsp.toNat - 8 := by
  have le : (8 : Word) ≤ s.rsp := BitVec.le_def.mpr room
  rw [rsp_push, BitVec.toNat_sub_of_le le]
  rfl

theorem memory_push_of_le {x : Word} (room : 8 ≤ s.rsp.toNat) (h : s.rsp.toNat ≤ x.toNat) :
    (s.push v).memory x = s.memory x := by
  apply Memory.store_apply_of_le
  have := toNat_rsp_push (v := v) room
  rw [rsp_push] at this
  omega

theorem get_push_of_ne (h : r.id ≠ Register.rsp.id) : (s.push v).get r = s.get r :=
  get_set_of_ne h

theorem top_push : (s.push v).top = v := by
  rw [top, rsp_push]
  exact Memory.load_store

end State

-- What lies outside the code: the state after a call of a name comes back, and the state after a
-- raw byte is executed, if the machine gets that far.
structure Host where
  call : String → State → Option State
  raw : UInt8 → State → Option State

-- The state after an instruction other than a return. Registers that do not exist stop the machine.
def Instruction.execute (host : Host) (s : State) : Instruction → Option State
  | .label _ => some s
  | .push r => if r.IsGeneral then some (s.push (s.get r)) else none
  | .pop r => if r.IsGeneral then some (s.drop.set r s.top) else none
  | .subImm r value => if r.IsGeneral then some (s.set r (s.get r - BitVec.ofNat 64 value)) else none
  | .addImm r value => if r.IsGeneral then some (s.set r (s.get r + BitVec.ofNat 64 value)) else none
  | .move dst src =>
    if dst.IsGeneral ∧ src.IsGeneral then some (s.set dst (s.get src))
    else if dst.IsVector ∧ src.IsVector then
      some { s with vector := Function.update s.vector dst.id (s.vector src.id) }
    else none
  | .call target => host.call target s
  | .ret => none
  | .byte value => host.raw value s

inductive Outcome where
  -- Control came to the end of the code.
  | finished (s : State)
  -- Control went to an address, and `rest` is the code behind the return, which it never reached.
  | returned (address : Word) (s : State) (rest : List Instruction)

def run (host : Host) : List Instruction → State → Option Outcome
  | [], s => some (.finished s)
  | .ret :: rest, s => some (.returned s.top s.drop rest)
  | i :: rest, s => (i.execute host s).bind (run host rest)

variable {host : Host} {code more : List Instruction} {i : Instruction} {r : Register} {s t u : State}

theorem run_cons (h : i.execute host s = some t) : run host (i :: code) s = run host code t := by
  cases i
  case ret => simp [Instruction.execute] at h
  all_goals rw [run, h, Option.bind_some]; simp

theorem run_append (h : run host code s = some (.finished t)) :
    run host (code ++ more) s = run host more t := by
  induction code generalizing s
  case nil =>
    simp only [run, Option.some.injEq, Outcome.finished.injEq] at h
    rw [List.nil_append, h]
  case cons i code ih =>
    cases hi : i.execute host s
    case none => cases i <;> simp [run, hi] at h
    case some v =>
      rw [run_cons hi] at h
      rw [List.cons_append, run_cons hi, ih h]

-- What code leaves alone that only works below the stack pointer.
structure State.Balanced (s t : State) : Prop where
  rsp : t.rsp = s.rsp
  memory : ∀ x : Word, s.rsp.toNat ≤ x.toNat → t.memory x = s.memory x

-- Saves registers on the stack, the first one first.
def State.pushAll (s : State) (saved : List Register) : State :=
  saved.foldl (fun s r => s.push (s.get r)) s

namespace State

theorem get_pushAll_of_ne {saved : List Register} (h : r.id ≠ Register.rsp.id) :
    (s.pushAll saved).get r = s.get r := by
  induction saved generalizing s
  case nil => rfl
  case cons q saved ih => exact ih.trans (get_push_of_ne h)

theorem toNat_rsp_pushAll {l : List Register} (room : 8 * l.length ≤ s.rsp.toNat) :
    (s.pushAll l).rsp.toNat + 8 * l.length = s.rsp.toNat := by
  induction l generalizing s
  case nil => rfl
  case cons q l ih =>
    rw [List.length_cons] at room
    have lower := toNat_rsp_push (s := s) (v := s.get q) (by omega)
    have rest := ih (s := s.push (s.get q)) (by omega)
    rw [List.length_cons]
    change (pushAll (s.push (s.get q)) l).rsp.toNat + _ = _
    omega

end State

theorem run_push {saved : List Register} (general : ∀ r ∈ saved, r.IsGeneral) :
    run host (saved.map .push) s = some (.finished (s.pushAll saved)) := by
  induction saved generalizing s
  case nil => rfl
  case cons q saved ih =>
    have first : (Instruction.push q).execute host s = some (s.push (s.get q)) :=
      if_pos (general q List.mem_cons_self)
    rw [List.map_cons, run_cons first]
    exact ih fun r hr => general r (List.mem_cons_of_mem _ hr)

-- What the restoring of saved registers makes of the state `u`, where `s` is the state in which
-- they were saved.
structure State.Restores (saved : List Register) (s u v : State) : Prop where
  balanced : s.Balanced v
  restored : ∀ r ∈ saved, v.get r = s.get r
  others : ∀ r ∉ saved, r.IsGeneral → r ≠ .rsp → v.get r = u.get r
  vector : v.vector = u.vector
  memory : v.memory = u.memory

-- Saving registers, running balanced code and restoring the registers in reverse. The induction is
-- on the list, from the outermost register inwards, so a register may be saved more than once.
theorem run_saved {saved : List Register} {inner : List Instruction}
    (regs : ∀ r ∈ saved, r.IsGeneral ∧ r ≠ .rsp) (room : 8 * saved.length ≤ s.rsp.toNat)
    (hu : run host inner (s.pushAll saved) = some (.finished u))
    (balanced : (s.pushAll saved).Balanced u) :
    ∃ v, run host (saved.map .push ++ inner ++ saved.reverse.map .pop) s = some (.finished v) ∧
      s.Restores saved u v := by
  induction saved generalizing s
  case nil =>
    refine ⟨u, ?_, balanced, by simp, fun _ _ _ _ => rfl, rfl, rfl⟩
    rw [List.reverse_nil, List.map_nil, List.map_nil, List.append_nil]
    exact hu
  case cons q saved ih =>
    obtain ⟨general, ne⟩ := regs q List.mem_cons_self
    have id_ne : q.id ≠ Register.rsp.id := general.id_ne (by decide) ne
    rw [List.length_cons] at room
    have lower := State.toNat_rsp_push (s := s) (v := s.get q) (by omega)
    obtain ⟨v, hv, restores⟩ := ih (s := s.push (s.get q))
      (fun r hr => regs r (List.mem_cons_of_mem _ hr)) (by omega) hu balanced
    have top : v.top = s.get q := by
      rw [← State.top_push (s := s) (v := s.get q), State.top, State.top, restores.balanced.rsp]
      apply Memory.load_congr
      case h =>
        have := s.rsp.isLt
        omega
      case agree => exact restores.balanced.memory
    have save : (Instruction.push q).execute host s = some (s.push (s.get q)) := if_pos general
    have restore : (Instruction.pop q).execute host v = some (v.drop.set q v.top) := if_pos general
    refine ⟨v.drop.set q v.top, ?run, ⟨?rsp, ?memory⟩, ?restored, ?others, restores.vector,
      restores.memory⟩
    case run =>
      rw [List.reverse_cons, List.map_append, ← List.append_assoc, List.map_cons, List.cons_append,
        List.cons_append, List.cons_append, run_cons save, run_append hv, List.map_cons,
        run_cons restore]
      rfl
    case rsp =>
      rw [State.rsp_set_of_ne id_ne, State.drop, State.rsp_set_rsp, restores.balanced.rsp,
        State.rsp_push]
      exact BitVec.sub_add_cancel ..
    case memory =>
      intro x hx
      exact (restores.balanced.memory x (by omega)).trans (State.memory_push_of_le (by omega) hx)
    case restored =>
      intro r hr
      by_cases same : r = q
      · rw [same, State.get_set_self, top]
      · have member := (List.mem_cons.mp hr).resolve_left same
        obtain ⟨hr', hne⟩ := regs r hr
        have not_rsp := hr'.id_ne (by decide) hne
        rw [State.get_set_of_ne (hr'.id_ne general same), State.drop, State.get_set_of_ne not_rsp,
          restores.restored r member, State.get_push_of_ne not_rsp]
    case others =>
      intro r hr hr' hne
      rw [List.mem_cons, not_or] at hr
      have not_rsp := hr'.id_ne (by decide) hne
      rw [State.get_set_of_ne (hr'.id_ne general hr.left), State.drop, State.get_set_of_ne not_rsp,
        restores.others r hr.right hr' hne]

end Machine

end StackCompiler

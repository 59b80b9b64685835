import StackCompiler.Codegen
import StackCompiler.Proofs.Frame.CalleeSave
import StackCompiler.Proofs.Machine.Assembly

-- The literal pool stands behind the code of its function as it was put in, except that an empty byte
-- string leaves its label with nothing to name.

namespace StackCompiler

open Machine

theorem Machine.Spaced.append {waiting : Bool} {code rest : List Instruction}
    (hc : ∀ x ∈ code, x.isLabel = false) (hn : code ≠ []) :
    Spaced waiting (code ++ rest) = Spaced false rest := by
  induction code generalizing waiting
  case nil => exact absurd rfl hn
  case cons x code ih =>
    obtain ⟨hx, hc⟩ := List.forall_mem_cons.mp hc
    rw [List.cons_append, Image.spaced_cons hx]
    by_cases he : code = []
    · rw [he, List.nil_append]
    · exact ih hc he

namespace Frame

-- Puts byte strings into the literal pool, one after the other.
def addStrings (f : Frame) (strings : List (List UInt8)) : Frame :=
  strings.foldl (fun f value => (f.addConstant (.bytes value)).2) f

-- Byte strings under their labels, counted from `n` on.
def labelled (name : String) : (n : Nat) → List (List UInt8) → List (String × List UInt8)
  | _, [] => []
  | n, value :: rest => (name ++ "_literal_" ++ toString n, value) :: labelled name (n + 1) rest

-- The code of a byte string with its label.
def literal (entry : String × List UInt8) : List Instruction :=
  .label entry.1 :: entry.2.map .byte

variable {f : Frame} {name : String} {n : Nat} {strings : List (List UInt8)}
variable {entries : List (String × List UInt8)}

theorem addStrings_eq : f.addStrings strings = { f with pool :=
    f.pool ++ (labelled f.name f.pool.length strings).map fun e => (e.1, .bytes e.2) } := by
  induction strings generalizing f
  case nil => simp [addStrings, labelled]
  case cons value strings ih =>
    rw [addStrings, List.foldl_cons, ← addStrings, ih]
    simp [addConstant, labelled]

theorem poolCode_bytes :
    poolCode (entries.map fun e => (e.1, .bytes e.2)) = .ok (entries.flatMap literal) := by
  induction entries
  case nil => rfl
  case cons entry entries ih =>
    rw [List.map_cons, poolCode, ih]
    rfl

section Labels

theorem map_snd_labelled : (labelled name n strings).map Prod.snd = strings := by
  induction strings generalizing n
  case nil => rfl
  case cons value strings ih => rw [labelled, List.map_cons, ih]

theorem exists_of_mem_labelled {label : String} (h : label ∈ (labelled name n strings).map Prod.fst) :
    ∃ k, n ≤ k ∧ label = name ++ "_literal_" ++ toString k := by
  induction strings generalizing n
  case nil => cases h
  case cons value strings ih =>
    rcases List.mem_cons.mp h with rfl | h
    · exact ⟨n, Nat.le_refl n, rfl⟩
    · obtain ⟨k, hk, hl⟩ := ih h
      exact ⟨k, Nat.le_of_succ_le hk, hl⟩

theorem literal_label_inj {k : Nat}
    (h : name ++ "_literal_" ++ toString n = name ++ "_literal_" ++ toString k) : n = k := by
  have digits := congrArg String.toList ((String.append_right_inj _).mp h)
  simpa using congrArg (Nat.ofDigitChars 10 · 0) digits

theorem nodup_labelled : ((labelled name n strings).map Prod.fst).Nodup := by
  induction strings generalizing n
  case nil => exact List.nodup_nil
  case cons value strings ih =>
    refine List.nodup_cons.mpr ⟨fun h => ?_, ih⟩
    obtain ⟨k, hk, he⟩ := exists_of_mem_labelled h
    have := literal_label_inj he
    omega

theorem not_mem_labelled : name ∉ (labelled name n strings).map Prod.fst := by
  intro h
  obtain ⟨k, -, he⟩ := exists_of_mem_labelled h
  have length := congrArg String.length he
  simp only [String.length_append] at length
  have : "_literal_".length = 9 := rfl
  omega

end Labels

section Literals

theorem mem_literals {x : Instruction} (h : x ∈ entries.flatMap literal) :
    (∃ label, x = .label label) ∨ ∃ value, x = .byte value := by
  obtain ⟨entry, -, hx⟩ := List.mem_flatMap.mp h
  rcases List.mem_cons.mp hx with rfl | hx
  · exact .inl ⟨_, rfl⟩
  · obtain ⟨value, -, rfl⟩ := List.mem_map.mp hx
    exact .inr ⟨value, rfl⟩

theorem labelsOf_literals : Image.labelsOf (entries.flatMap literal) = entries.map Prod.fst := by
  induction entries
  case nil => rfl
  case cons entry entries ih =>
    have bytes : Image.labelsOf (entry.2.map .byte) = [] := by simp [Image.labelsOf]
    rw [List.flatMap_cons, Image.labelsOf_append, ih, List.map_cons, literal, ← List.singleton_append,
      Image.labelsOf_append, bytes]
    rfl

theorem bytes_literals :
    (entries.flatMap literal).flatMap Instruction.bytes = (entries.map Prod.snd).flatten := by
  induction entries
  case nil => rfl
  case cons entry entries ih =>
    have bytes : (entry.2.map .byte).flatMap Instruction.bytes = entry.2 := by
      rw [List.flatMap_map]
      exact List.flatMap_singleton' entry.2
    have label : (Instruction.label entry.1).bytes = [] := rfl
    rw [List.flatMap_cons, List.flatMap_append, ih, literal, List.flatMap_cons, label, bytes,
      List.map_cons, List.flatten_cons, List.nil_append]

-- A label with no byte behind it has another label there, or the end.
theorem spaced_literals :
    Spaced false (entries.flatMap literal) = true ↔ ∀ value ∈ entries.map Prod.snd, value ≠ [] := by
  induction entries
  case nil => simp [Spaced]
  case cons entry entries ih =>
    rw [List.flatMap_cons, List.map_cons, List.forall_mem_cons, ← ih, literal, List.cons_append, Spaced,
      Bool.not_false, Bool.true_and]
    cases he : entry.2
    case nil =>
      have blocked : Spaced true (entries.flatMap literal) = false := by
        cases entries <;> rfl
      simp [blocked]
    case cons value values =>
      have follows : Spaced true ((value :: values).map .byte ++ entries.flatMap literal) =
          Spaced false (entries.flatMap literal) :=
        Spaced.append (by simp [Instruction.isLabel]) (by simp)
      simp only [follows, ne_eq, reduceCtorEq, not_false_eq_true, true_and]

end Literals

section Shell

-- What stands between the label of a function without a body and its return.
def middle (f : Frame) : List Instruction :=
  f.saved.map .push ++ (f.reserve ++ .move .rbp .rsp :: f.release) ++ f.saved.reverse.map .pop

-- The code of a function with neither a body nor constants.
def shell (f : Frame) : List Instruction :=
  .label f.name :: f.middle ++ [.ret]

theorem code_nil_eq {literals : List Instruction} (h : poolCode f.pool = .ok literals) :
    f.code [] = .ok (f.shell ++ literals) := by
  rw [code_eq h]
  simp [shell, middle]

theorem middle_plain {x : Instruction} (hs : f.stackSize < 0x80000000) (h : x ∈ f.middle) :
    x.isPlain = true ∧ ∃ bytes, x.encoding = .ok bytes := by
  have general {r : Register} (hr : r ∈ f.saved) : generalNumber r = .ok r.id :=
    if_pos (isGeneral_of_mem_saved r hr).left
  have rsp : generalNumber .rsp = .ok 4 := rfl
  have size : immediate f.stackSize = .ok f.stackSize := if_pos hs
  rw [middle, List.mem_append, List.mem_append, List.mem_append, List.mem_cons] at h
  rcases h with (h | h | rfl | h) | h
  · obtain ⟨r, hr, rfl⟩ := List.mem_map.mp h
    exact ⟨rfl, _, by rw [Instruction.encoding, general hr]; rfl⟩
  · rw [reserve] at h
    split at h
    case isTrue =>
      rw [List.mem_singleton.mp h]
      exact ⟨rfl, _, by rw [Instruction.encoding, rsp, size]; rfl⟩
    case isFalse => cases h
  · exact ⟨rfl, _, rfl⟩
  · rw [release] at h
    split at h
    case isTrue =>
      rw [List.mem_singleton.mp h]
      exact ⟨rfl, _, by rw [Instruction.encoding, rsp, size]; rfl⟩
    case isFalse => cases h
  · obtain ⟨r, hr, rfl⟩ := List.mem_map.mp h
    exact ⟨rfl, _, by rw [Instruction.encoding, general (List.mem_reverse.mp hr)]; rfl⟩

theorem isLabel_of_isPlain {x : Instruction} (h : x.isPlain = true) : x.isLabel = false := by
  cases x <;> first | rfl | cases h

theorem labelsOf_of_not_label {code : List Instruction} (h : ∀ x ∈ code, x.isLabel = false) :
    Image.labelsOf code = [] := by
  induction code
  case nil => rfl
  case cons x code ih =>
    obtain ⟨hx, h⟩ := List.forall_mem_cons.mp h
    rw [Image.labelsOf_cons hx, ih h]

variable (hs : f.stackSize < 0x80000000)
include hs

-- Behind its label the shell has no other.
theorem isLabel_of_shell {x : Instruction} (h : x ∈ f.middle ++ [.ret]) : x.isLabel = false := by
  rcases List.mem_append.mp h with h | h
  · exact isLabel_of_isPlain (middle_plain hs h).left
  · rw [List.mem_singleton.mp h]
    rfl

theorem mem_shell_literals {x : Instruction} (h : x ∈ f.shell ++ entries.flatMap literal) :
    (∃ label, x = .label label) ∨ x.isPlain = true ∧ ∃ bytes, x.encoding = .ok bytes := by
  rw [shell, List.cons_append, List.cons_append, List.mem_cons, List.mem_append, List.mem_append,
    List.mem_singleton] at h
  rcases h with rfl | (h | rfl) | h
  · exact .inl ⟨_, rfl⟩
  · exact .inr (middle_plain hs h)
  · exact .inr ⟨rfl, _, rfl⟩
  · rcases mem_literals h with ⟨label, rfl⟩ | ⟨value, rfl⟩
    exacts [.inl ⟨label, rfl⟩, .inr ⟨rfl, _, rfl⟩]

-- The code of a function without a body is encoded just if no byte string is empty.
theorem link_shell_literals {base : BitVec 64} {bytes : List UInt8}
    (hn : f.name ∉ entries.map Prod.fst) (hd : (entries.map Prod.fst).Nodup) :
    ({ base } : Image).link [f.shell ++ entries.flatMap literal] = .ok bytes ↔
      (∀ value ∈ entries.map Prod.snd, value ≠ []) ∧
        bytes = f.middle.flatMap Instruction.bytes ++ 0xC3 :: (entries.map Prod.snd).flatten := by
  have calls (target : String) : .call target ∉ f.shell ++ entries.flatMap literal := by
    intro h
    rcases mem_shell_literals hs h with ⟨label, he⟩ | ⟨plain, -⟩
    exacts [Instruction.noConfusion he, Bool.noConfusion plain]
  have encodings : ∀ x ∈ f.shell ++ entries.flatMap literal, ∃ bytes, x.encoding = .ok bytes := by
    intro x h
    rcases mem_shell_literals hs h with ⟨label, rfl⟩ | ⟨-, encoding⟩
    exacts [⟨[], rfl⟩, encoding]
  have labels : (Image.labelsOf (f.shell ++ entries.flatMap literal)).Nodup := by
    have first : Image.labelsOf f.shell = [f.name] := by
      rw [shell, List.cons_append, ← List.singleton_append, Image.labelsOf_append,
        labelsOf_of_not_label fun x => isLabel_of_shell hs]
      rfl
    rw [Image.labelsOf_append, first, labelsOf_literals]
    exact List.nodup_cons.mpr ⟨hn, hd⟩
  have spaced : Spaced false (f.shell ++ entries.flatMap literal) =
      Spaced false (entries.flatMap literal) := by
    rw [shell, List.cons_append, List.cons_append, Spaced, Bool.not_false, Bool.true_and]
    exact Spaced.append (fun x => isLabel_of_shell hs) (by simp)
  have content : (f.shell ++ entries.flatMap literal).flatMap Instruction.bytes =
      f.middle.flatMap Instruction.bytes ++ 0xC3 :: (entries.map Prod.snd).flatten := by
    have label : (Instruction.label f.name).bytes = [] := rfl
    have ret : Instruction.ret.bytes = [0xC3] := rfl
    rw [List.flatMap_append, bytes_literals, shell]
    simp [label, ret]
  rw [Image.link_eq_ok_iff calls, spaced, spaced_literals, content]
  exact ⟨fun h => h.right.right, fun h => ⟨encodings, labels, h⟩⟩

end Shell

theorem code_addStrings (hp : f.pool = []) : (f.addStrings strings).code [] =
    .ok (f.shell ++ (labelled f.name 0 strings).flatMap literal) := by
  have added : (f.addStrings strings).pool =
      (labelled f.name 0 strings).map fun e => (e.1, .bytes e.2) := by
    rw [addStrings_eq, hp]
    rfl
  have same : (f.addStrings strings).shell = f.shell := by
    rw [addStrings_eq]
    rfl
  rw [code_nil_eq (added ▸ poolCode_bytes), same]

-- What a new frame has in common with the same frame with used registers and stack space.
theorem ofSignature_eq_ok {params : List Scalar} {result : Option Scalar} {used : List Register}
    (h : ofSignature name params result = .ok f) :
    (used.foldl markUsed f).name = name ∧ (used.foldl markUsed f).pool = [] := by
  have start : f.name = name ∧ f.pool = [] := by
    rw [ofSignature] at h
    split at h <;> cases h
    exact ⟨rfl, rfl⟩
  clear h
  induction used generalizing f
  case nil => exact start
  case cons r used ih => exact ih start

-- The code of a function with byte strings as its constants can always be generated. It becomes the
-- code without them and the byte strings behind its return, just if none of them is empty.
theorem link_addStrings_iff (name : String) (params : List Scalar) (result : Option Scalar)
    (fresh : Frame) (h : ofSignature name params result = .ok fresh) (used : List Register)
    (stackSize : Nat) (hs : stackSize < 0x80000000) (strings : List (List UInt8))
    (base : BitVec 64) (journal : Journal) :
    let bare : Frame := { used.foldl markUsed fresh with stackSize }
    ∃ code shell front,
      Codegen.function (bare.addStrings strings) [] journal =
        .ok code (journal.record (.codeGenerated name code.length)) ∧
      bare.code [] = .ok shell ∧ ({ base } : Image).link [shell] = .ok (front ++ [0xC3]) ∧
      ∀ bytes, ({ base } : Image).link [code] = .ok bytes ↔
        (∀ value ∈ strings, value ≠ []) ∧ bytes = front ++ [0xC3] ++ strings.flatten := by
  intro bare
  obtain ⟨rfl, pool⟩ : bare.name = name ∧ bare.pool = [] := ofSignature_eq_ok h
  have size : bare.stackSize < 0x80000000 := hs
  refine ⟨bare.shell ++ (labelled bare.name 0 strings).flatMap literal, bare.shell ++ [],
    bare.middle.flatMap Instruction.bytes, ?generated, ?bare, ?shell, fun bytes => ?linked⟩
  case generated =>
    have same : (bare.addStrings strings).name = bare.name := by rw [addStrings_eq]
    rw [Codegen.function, code_addStrings pool, same]
    rfl
  case bare => exact code_nil_eq (by rw [pool]; rfl)
  case shell =>
    have alone : ({ base } : Image).link [bare.shell ++ List.flatMap literal []] =
        .ok (bare.middle.flatMap Instruction.bytes ++ [0xC3]) :=
      (link_shell_literals size (by simp) (by simp)).mpr ⟨by simp, rfl⟩
    exact alone
  case linked =>
    rw [link_shell_literals size not_mem_labelled nodup_labelled, map_snd_labelled, List.append_assoc,
      List.singleton_append]

-- Two byte strings behind a function that saves a register and reserves stack space.
theorem link_addStrings_iff_spilled :
    let strings : List (List UInt8) := [[0x2A, 0], [7]]
    ∃ fresh code journal front, ofSignature "f" [.i64, .f64] none = .ok fresh ∧ 300 < 0x80000000 ∧
      Codegen.function (addStrings { [.rbx, .rcx].foldl markUsed fresh with stackSize := 300 } strings)
        [] #[] = .ok code journal ∧
      ({ base := 0x1000 } : Image).link [code] = .ok (front ++ [0xC3] ++ [0x2A, 0, 7]) := by
  intro strings
  obtain ⟨fresh, hf⟩ : ∃ fresh, ofSignature "f" [.i64, .f64] none = .ok fresh := ⟨_, rfl⟩
  obtain ⟨code, shell, front, generated, -, -, linked⟩ :=
    link_addStrings_iff "f" [.i64, .f64] none fresh hf [.rbx, .rcx] 300 (by decide) strings 0x1000 #[]
  exact ⟨fresh, code, _, front, hf, by decide, generated, (linked _).mpr ⟨by decide, rfl⟩⟩

-- The label of an empty byte string has nothing to name.
theorem not_link_empty_string :
    ∃ fresh code journal, ofSignature "f" [] none = .ok fresh ∧
      Codegen.function (fresh.addStrings [[]]) [] #[] = .ok code journal ∧
      ({ base := 0x1000 } : Image).link [code] = .error .labelUnused := by
  refine ⟨_, [.label "f", .push .rbp, .move .rbp .rsp, .pop .rbp, .ret, .label "f_literal_0"], _, rfl,
    rfl, ?_⟩
  decide +kernel

end Frame

end StackCompiler

import StackCompiler.Proofs.Lowering.Direct.Bodies
import Mathlib.Data.List.Forall2

-- The two lowerings of a module are the same. Every function that a body can call has a name when the
-- first body is lowered.

namespace StackCompiler

section Except

variable {ε α β : Type} {f : α → Except ε β} {l : List α} {bs : List β} {e : ε}

theorem forall₂_of_mapM_eq_ok (h : l.mapM f = .ok bs) : l.Forall₂ (fun a b => f a = .ok b) bs := by
  induction l generalizing bs
  case nil => cases h; exact .nil
  case cons a l hi =>
    rw [List.mapM_cons] at h
    cases ha : f a <;> simp only [ha, bind, Except.bind] at h
    case error => cases h
    case ok b =>
      cases hl : l.mapM f <;> simp only [hl] at h <;> cases h
      exact .cons ha (hi hl)

theorem exists_of_mapM_eq_error (h : l.mapM f = .error e) : ∃ a ∈ l, f a = .error e := by
  induction l
  case nil => cases h
  case cons a l hi =>
    rw [List.mapM_cons] at h
    cases ha : f a <;> simp only [ha, bind, Except.bind] at h
    case error => cases h; exact ⟨a, by simp, ha⟩
    case ok b =>
      cases hl : l.mapM f <;> simp only [hl] at h <;> cases h
      obtain ⟨a', hm, ha'⟩ := hi hl
      exact ⟨a', by simp [hm], ha'⟩

end Except

namespace Lowering

open Bytecode (Signature)
open Ssa (Builder Function)

-- The name that function `index` has, or gets if its body is declared.
def Space.named (space : Space) (index : Nat) : String :=
  (space.names.lookup index).getD ("unnamed" ++ toString index)

-- A new entry hides the older ones of its number.
theorem lookup_names_cons {names : List (Nat × String)} {n index : Nat} {name : String} :
    ((n, name) :: names).lookup index = if index = n then some name else names.lookup index := by
  rw [List.lookup_cons]
  split <;> simp_all

section Declarations

variable {M : Ssa.Module} {t : State} {u : Direct.State} {space : Space} {m : Bytecode.Module}
variable {fs : List Function}

theorem Tracks.ofExcept_map {x : Lower α} {r : Except CompileError β} {g : β → β'}
    {R : α → State → β' → Direct.State → Prop}
    (h : Tracks fs x t (ofExcept r) u fun a t b u => R a t (g b) u) :
    Tracks fs x t (ofExcept (g <$> r)) u R := by
  unfold Tracks at h ⊢
  cases r <;> cases hx : x t <;> rw [hx] at h <;> exact h

-- The imports come first, so that each has its own place for a number.
theorem declareImports_tracks (first : List Bytecode.Import) {imports : List Bytecode.Import}
    (h : t.Idles M u)
    (hs : space.signatures.length = first.length)
    (hn : ∀ index, space.names.lookup index = first[index]?.map Bytecode.Import.name) :
    Tracks M.functions (imports.foldlM (declareImport m) space) t
      (ofExcept (imports.mapM m.external)) u fun space' t xs u =>
        space'.globals = space.globals ∧ space'.signatures = space.signatures ++ xs.map Prod.snd ∧
        (∀ index, space'.names.lookup index = (first ++ imports)[index]?.map Bytecode.Import.name) ∧
        t.Idles { M with externals := M.externals ++ xs.map Prod.fst } u := by
  induction imports generalizing first space M t
  case nil =>
    rw [List.mapM_nil]
    refine ⟨rfl, (List.append_nil _).symm, ?_, ?_⟩
    · rwa [List.append_nil]
    · rw [List.map_nil, List.append_nil]
      exact h
  case cons i imports hi =>
    rw [List.foldlM_cons, List.mapM_cons, declareImport]
    cases m.external i
    case error => exact ⟨rfl, h.journal, congrArg Ssa.Module.functions h.module⟩
    case ok x =>
      let next : Space := { space with
        signatures := space.signatures ++ [x.2]
        names := (space.signatures.length, i.name) :: space.names }
      let ready : State := { t with builder := { t.builder with
        module := { t.builder.module with externals := t.builder.module.externals ++ [x.1] } } }
      have hready : ready.Idles { M with externals := M.externals ++ [x.1] } u := by
        obtain ⟨rfl, hf, hj, hc⟩ := h
        exact ⟨rfl, hf, hj, hc⟩
      have hnext index : next.names.lookup index = (first ++ [i])[index]?.map Bytecode.Import.name := by
        rw [lookup_names_cons, hs, hn]
        split
        case isTrue he => rw [he, List.getElem?_concat_length, Option.map_some]
        case isFalse he =>
          rw [List.getElem?_append]
          split
          case isTrue => rfl
          case isFalse hlt =>
            rw [List.getElem?_eq_none (by omega), List.getElem?_eq_none (by simp; omega)]
      have hlength : next.signatures.length = (first ++ [i]).length := by simp [next, hs]
      refine Tracks.ofExcept_map (g := (x :: ·)) ((hi _ hready hlength hnext).mono ?_)
      rintro space' t xs u ⟨hg, hs, hn, hidle⟩
      refine ⟨hg, ?_, ?_, ?_⟩
      · rw [hs, List.append_assoc]
        rfl
      · rwa [List.append_assoc] at hn
      · rwa [List.append_assoc] at hidle

-- The last one of several exports of a function gives the name.
theorem declareExports_tracks {exports : List Bytecode.Export} (h : t.Idles M u) :
    Tracks M.functions (exports.foldlM declareExport space) t (exports.forM Direct.noteExport) u
      fun space' t _ u => space'.globals = space.globals ∧ space'.signatures = space.signatures ∧
        (∀ index, space'.names.lookup index =
          ((exports.reverse.find? fun e => e.kind == .function && e.index == index).map
            Bytecode.Export.name).or (space.names.lookup index)) ∧ t.Idles M u := by
  induction exports generalizing space t u
  case nil => exact ⟨rfl, rfl, fun _ => rfl, h⟩
  case cons e exports hi =>
    change Tracks M.functions (declareExport space e >>= fun space => exports.foldlM declareExport space)
      t (Direct.noteExport e >>= fun _ => exports.forM Direct.noteExport) u _
    rw [declareExport, Direct.noteExport]
    by_cases hk : e.kind = .function
    case pos =>
      simp only [hk, if_true, ne_eq, not_true, if_false, pure_bind]
      refine (hi h).mono ?_
      rintro space' t _ u ⟨hg, hs, hn, hidle⟩
      refine ⟨hg, hs, fun index => ?_, hidle⟩
      rw [hn, lookup_names_cons, List.reverse_cons, List.find?_append, Option.map_or, Option.or_assoc]
      by_cases hx : index = e.index <;> simp [hk, hx, Ne.symm]
    case neg =>
      simp only [hk, if_false, ne_eq, not_false_eq_true, if_true, bind_assoc, pure_bind]
      refine (note_idles h).bind fun _ t _ u h => ?_
      refine (hi h).mono ?_
      rintro space' t _ u ⟨hg, hs, hn, hidle⟩
      refine ⟨hg, hs, fun index => ?_, hidle⟩
      rw [hn, List.reverse_cons, List.find?_append, Option.map_or, Option.or_assoc]
      simp [hk]

theorem declareGlobals_tracks {globals : List Bytecode.Global} {n : Nat} (h : t.Idles M u)
    (hs : space.globals.length = n) (hM : M.globals.length = n) :
    Tracks M.functions (globals.foldlM declareGlobal space) t
      (ofExcept ((globals.zipIdx n).mapM fun (g, i) => g.toVariable i)) u fun space' t vars u =>
        space' = { space with
          globals := space.globals ++ (globals.zipIdx n).map fun (g, i) => g.toSlot i } ∧
        t.Idles { M with globals := M.globals ++ vars } u := by
  induction globals generalizing space M t n
  case nil =>
    rw [List.zipIdx_nil, List.mapM_nil]
    refine ⟨?_, ?_⟩
    · rw [List.map_nil, List.append_nil]
    · rw [List.append_nil]
      exact h
  case cons g globals hi =>
    rw [List.foldlM_cons, List.zipIdx_cons, List.mapM_cons, declareGlobal, hs]
    dsimp only
    cases g.toVariable n
    case error => exact ⟨rfl, h.journal, congrArg Ssa.Module.functions h.module⟩
    case ok x =>
      -- The number of a variable in the module is its number in the space.
      have hnumber : t.builder.module.globals.length = n := by rw [h.module, hM]
      let next : Space := { space with
        globals := space.globals ++ [g.toSlot t.builder.module.globals.length] }
      let ready : State := { t with builder := { t.builder with
        module := { t.builder.module with globals := t.builder.module.globals ++ [x] } } }
      have hready : ready.Idles { M with globals := M.globals ++ [x] } u := by
        obtain ⟨rfl, hf, hj, hc⟩ := h
        exact ⟨rfl, hf, hj, hc⟩
      have hlength : next.globals.length = n + 1 := by simp [next, hs]
      refine Tracks.ofExcept_map (g := (x :: ·)) ((hi hready hlength (by simp [hM])).mono ?_)
      rintro _ t vars u ⟨rfl, hidle⟩
      refine ⟨?_, ?_⟩
      · simp [next, hnumber]
      · rwa [List.append_assoc] at hidle

-- What a space has after bodies with some signatures are declared.
structure Space.Grows (space next : Space) (own : List Signature) : Prop where
  globals : next.globals = space.globals
  signatures : next.signatures = space.signatures ++ own
  named : next.named = space.named
  known : ∀ i, (space.names.lookup i).isSome → (next.names.lookup i).isSome
  fresh : ∀ i, space.signatures.length ≤ i → i < space.signatures.length + own.length →
    (next.names.lookup i).isSome

theorem Space.Grows.refl : space.Grows space [] :=
  ⟨rfl, (List.append_nil _).symm, rfl, fun _ => id, fun _ hle hlt => absurd hle (Nat.not_le.mpr hlt)⟩

-- A function that has no name gets the one that stands for its number.
theorem Space.nameOf_grows (space : Space) (index : Nat) :
    (space.nameOf index).1 = space.named index ∧ space.Grows (space.nameOf index).2 [] ∧
      ((space.nameOf index).2.names.lookup index).isSome := by
  rw [Space.nameOf, Space.named]
  cases hl : space.names.lookup index
  case some name => exact ⟨rfl, .refl, by rw [hl, Option.isSome_some]⟩
  case none =>
    refine ⟨rfl, ⟨rfl, (List.append_nil _).symm, funext fun i => ?_, fun i hi => ?_, ?_⟩, ?_⟩
    case refine_1 =>
      rw [Space.named, Space.named, lookup_names_cons]
      split
      case isTrue he => rw [he, hl, Option.getD_some, Option.getD_none]
      case isFalse => rfl
    case refine_2 =>
      rw [lookup_names_cons]
      split
      case isTrue => rfl
      case isFalse => exact hi
    case refine_3 => exact fun i hle hlt => absurd hle (Nat.not_le.mpr hlt)
    case refine_4 => rw [lookup_names_cons, if_pos rfl, Option.isSome_some]

theorem declareBodies_tracks {bodies : List Bytecode.Body} (h : t.Idles M u) :
    Tracks M.functions (declareBodies m space bodies) t
      (ofExcept (bodies.mapM fun body => m.signature body.type)) u fun x t own u =>
        x.1 = ((own.zipIdx space.signatures.length).map fun (s, i) =>
          (⟨space.named i, s⟩ : Callee)).zip bodies ∧
        space.Grows x.2 own ∧ t.Idles M u := by
  induction bodies generalizing space
  case nil =>
    rw [List.mapM_nil]
    exact ⟨rfl, .refl, h⟩
  case cons body bodies hi =>
    rw [declareBodies, List.mapM_cons]
    cases m.signature body.type
    case error => exact ⟨rfl, h.journal, congrArg Ssa.Module.functions h.module⟩
    case ok s =>
      obtain ⟨hname, hnamed, hself⟩ := space.nameOf_grows space.signatures.length
      generalize space.nameOf space.signatures.length = x at hname hnamed hself
      obtain ⟨name, named⟩ := x
      dsimp only at hname hnamed hself
      subst hname
      have hsigs : named.signatures = space.signatures := hnamed.signatures.trans (List.append_nil _)
      refine Tracks.ofExcept_map (g := (s :: ·)) ?_
      let ready : Space := { named with signatures := named.signatures ++ [s] }
      change Tracks M.functions (do
        let x ← declareBodies m ready bodies
        return ((⟨space.named space.signatures.length, s⟩, body) :: x.1, x.2)) t _ u _
      rw [← bind_pure (ofExcept _)]
      refine hi.bind ?_
      rintro ⟨rest, next⟩ t own u ⟨hrest, hnext, hidle⟩
      have hready : ready.signatures = space.signatures ++ [s] := by rw [← hsigs]
      have hlength : ready.signatures.length = space.signatures.length + 1 := by simp [hready]
      refine ⟨?bodies, ⟨?globals, ?signatures, ?named, ?known, ?fresh⟩, hidle⟩
      case bodies =>
        have hn : ready.named = space.named := hnamed.named
        rw [hlength, hn] at hrest
        dsimp only at hrest ⊢
        rw [hrest, List.zipIdx_cons, List.map_cons, List.zip_cons_cons]
      case globals => exact hnext.globals.trans hnamed.globals
      case signatures => 
        dsimp only
        rw [hnext.signatures, hready, List.append_assoc, List.singleton_append]
      case named => exact hnext.named.trans hnamed.named
      case known => exact fun i hi => hnext.known i (hnamed.known i hi)
      case fresh =>
        intro i hle hlt
        rw [List.length_cons] at hlt
        obtain rfl | hne := Nat.eq_or_lt_of_le hle
        case inl => exact hnext.known _ hself
        case inr => exact hnext.fresh i (by omega) (by omega)

-- Nothing but functions can be imported.
theorem importedFunctions_eq {xs : List (Ssa.External × Signature)}
    (h : m.imports.mapM m.external = .ok xs) : m.importedFunctions = m.imports := by
  have hall := forall₂_of_mapM_eq_ok h
  rw [Bytecode.Module.importedFunctions]
  clear h
  generalize m.imports = imports at hall
  induction hall
  case nil => rfl
  case cons i _ _ _ hx _ hi =>
    have hk : (i.item.kind == .function) = true := by
      rw [Bytecode.Module.external] at hx
      cases hi : i.item <;> rw [hi] at hx
      case function => rfl
      all_goals cases hx
    rw [List.filter_cons, if_pos hk, hi]

-- The name that an export or an import gives to function `index`.
def givenName? (m : Bytecode.Module) (index : Nat) : Option String :=
  ((m.exports.reverse.find? fun e => e.kind == .function && e.index == index).map
    Bytecode.Export.name).or (m.imports[index]?.map Bytecode.Import.name)

theorem functionName_eq {index : Nat} (hm : m.importedFunctions = m.imports)
    (hn : space.names.lookup index = givenName? m index) : m.functionName index = space.named index := by
  rw [Bytecode.Module.functionName, Space.named, hn, hm, givenName?]
  cases m.exports.reverse.find? fun e => e.kind == .function && e.index == index
  case some => rfl
  case none => cases m.imports[index]? <;> rfl

-- What is done with a module before its functions.
def declare (m : Bytecode.Module) : Lower (List (Callee × Bytecode.Body) × Space) := do
  let space ← m.imports.foldlM (declareImport m) {}
  let space ← m.exports.foldlM declareExport space
  let space ← m.globals.foldlM declareGlobal space
  declareBodies m space m.bodies

theorem lowerModule_eq {options : Options} : lowerModule options m = (do
    let (bodies, space) ← declare m
    bodies.forM fun (self, body) => discard (lowerFunction options space self body)
    Builder.finish) := by
  simp only [lowerModule, declare, bind_assoc]

section Names

variable {exported : Space} {xs : List (Ssa.External × Signature)} {own : List Signature}
variable (hx : m.imports.mapM m.external = .ok xs) (hs : exported.signatures = xs.map Prod.snd)
variable (hn : ∀ index, exported.names.lookup index = givenName? m index)
variable (hg : exported.Grows space own)
include hx hn hg

theorem functionName_of_grows : m.functionName = space.named := by
  rw [hg.named]
  exact funext fun index => functionName_eq (importedFunctions_eq hx) (hn index)

include hs

-- An import has its own name at least, and a body got one if it had none.
theorem names_of_grows (index : Nat) : space.Names index := by
  intro hlt
  rw [hg.signatures, List.length_append] at hlt
  by_cases hi : index < exported.signatures.length
  case neg => exact hg.fresh index (Nat.not_lt.mp hi) hlt
  case pos =>
    have hi : index < m.imports.length := by
      rwa [(forall₂_of_mapM_eq_ok hx).length_eq, ← List.length_map Prod.snd, ← hs]
    refine hg.known index ?_
    rw [hn, givenName?, List.getElem?_eq_getElem hi, Option.map_some, Option.isSome_or,
      Option.isSome_some, Bool.or_true]

theorem callees_of_grows : space.callees = (xs.map Prod.snd ++ own).zipIdx.map fun (s, i) =>
    ⟨m.functionName i, s⟩ := by
  rw [Space.callees, ← hs, ← hg.signatures, functionName_of_grows hx hn hg]
  refine List.map_congr_left fun x hm => ?_
  have hlt := List.snd_lt_of_mem_zipIdx hm
  obtain ⟨name, hname⟩ := Option.isSome_iff_exists.mp (names_of_grows hx hs hn hg x.2 hlt)
  simp only [Space.named, hname, Option.getD_some]

end Names

theorem declare_tracks {name : String} (h : t.Idles { name } u) :
    Tracks [] (declare m) t (Direct.survey m) u fun x t y u =>
      x.1 = (y.2.2.drop y.1.length).zip m.bodies ∧ x.2.globals = m.globalSlots ∧ x.2.callees = y.2.2 ∧
      (∀ index, x.2.Names index) ∧ t.Idles { name, externals := y.1, globals := y.2.1 } u := by
  refine (declareImports_tracks [] h rfl fun _ => rfl).bind_of (fun _ _ _ => rfl) ?_
  rintro imported t xs u hxs ⟨hig, his, hin, h⟩
  refine (declareExports_tracks h).bind ?_
  rintro exported t _ u ⟨heg, hes, hen, h⟩
  refine (declareGlobals_tracks h (n := 0) (by rw [heg, hig]; rfl) rfl).bind ?_
  rintro declared t vars u ⟨hdeclared, h⟩
  refine .look_right (fun _ _ => rfl) ((declareBodies_tracks h).mono ?_)
  rintro ⟨bodies, space⟩ t own u ⟨hbodies, hgrows, h⟩
  have hx : m.imports.mapM m.external = .ok xs := by
    cases hm : m.imports.mapM m.external <;> rw [hm] at hxs <;> cases hxs
    rfl
  have hs : declared.signatures = xs.map Prod.snd := by
    rw [hdeclared]
    exact hes.trans his
  have hn index : declared.names.lookup index = givenName? m index := by
    rw [hdeclared]
    exact (hen index).trans (congrArg (Option.or _) (hin index))
  refine ⟨?bodies, ?globals, callees_of_grows hx hs hn hgrows, names_of_grows hx hs hn hgrows, h⟩
  case globals =>
    refine hgrows.globals.trans ?_
    rw [hdeclared, heg, hig]
    rfl
  case bodies =>
    have hnamed := (functionName_of_grows hx hn hgrows).trans hgrows.named
    have hlength : ((xs.map Prod.snd).zipIdx.map fun (s, i) =>
        (⟨m.functionName i, s⟩ : Callee)).length = (xs.map Prod.fst).length := by simp
    dsimp only at hbodies hnamed ⊢
    rw [hbodies, List.zipIdx_append, List.map_append, List.drop_left' hlength, hnamed, hs,
      Nat.zero_add]

end Declarations

section Module

variable {M : Ssa.Module} {t : State} {u : Direct.State} {space : Space} {options : Options}
variable {m : Bytecode.Module} {j : Journal}

theorem lowerBodies_tracks {bodies : List (Callee × Bytecode.Body)} (hn : ∀ index, space.Names index)
    (h : t.Idles M u) :
    Tracks (M.functions ++ Direct.finished options space.globals space.callees bodies u)
      (bodies.forM fun (self, body) => discard (lowerFunction options space self body)) t
      (Direct.lowerBodies options space.globals space.callees bodies) u fun _ t fs u =>
        t.Idles { M with functions := M.functions ++ fs } u := by
  induction bodies generalizing M t u
  case nil =>
    rw [Direct.lowerBodies, List.mapM_nil, Direct.finished, List.append_nil]
    change t.Idles { M with functions := M.functions ++ [] } u
    rwa [List.append_nil]
  case cons x bodies hi =>
    obtain ⟨self, body⟩ := x
    have hcalls : ∀ i ∈ body.code, space.NamesCalls i := fun _ _ index _ => hn index
    change Tracks _ (((fun _ => ()) <$> lowerFunction options space self body) >>= fun _ =>
      bodies.forM fun (self, body) => discard (lowerFunction options space self body)) t _ u _
    rw [Direct.lowerBodies_cons, map_eq_pure_bind, bind_assoc]
    simp only [pure_bind]
    refine (lowerFunction_tracks hcalls h).bind_of (fun e v hy => ?error) ?ok
    case error => simp only [Direct.finished, hy, List.append_nil]
    case ok =>
      rintro f t _ v hy ⟨rfl, h⟩
      refine .look_right (fun _ _ => rfl) ?_
      have hrest := hi h
      simp only [List.append_assoc, List.singleton_append] at hrest
      simpa only [Direct.finished, hy] using hrest

theorem finish_tracks {fs : List Function} (h : t.Idles M u) :
    Tracks fs (liftM Builder.finish) t (pure M) u fun M t M' u =>
      M = M' ∧ t.journal = u.journal ∧ t.builder.module = M := by
  obtain ⟨journal, blockCount, ⟨M, function, block⟩, _, _, _, _, _⟩ := t
  obtain ⟨hm, hf, hj, hc⟩ := h
  cases hm
  cases hf
  exact ⟨rfl, hj, rfl⟩

theorem lowerModule_tracks : Tracks (Direct.finishedFunctions m options j) (lowerModule options m) (.start j)
    (Direct.lowerModule options m) (.start j) fun M t M' u =>
      M = M' ∧ t.journal = u.journal ∧ t.builder.module = M := by
  have hstart : (State.start j).Idles { name := "mainmodule" } (.start j) := ⟨rfl, rfl, rfl, rfl⟩
  rw [lowerModule_eq]
  refine (declare_tracks hstart).bind_of (fun e v hy => ?error) ?ok
  case error => simp only [Direct.finishedFunctions, hy]
  case ok =>
    rintro ⟨bodies, space⟩ t ⟨externals, globals, callees⟩ u hy ⟨hb, hg, hc, hn, h⟩
    dsimp only at hb hg hc
    have hfinished : Direct.finishedFunctions m options j =
        [] ++ Direct.finished options space.globals space.callees bodies u := by
      simp only [Direct.finishedFunctions, hy, hb, hg, hc, List.nil_append]
    dsimp only
    rw [hfinished, ← hb, ← hg, ← hc]
    refine (lowerBodies_tracks hn h).bind fun _ t fs u h => ?_
    exact finish_tracks h

-- The two lowerings give the same module, or the same error, and write the same journal.
theorem lower_eq_direct : m.lower options j =
    match Direct.lowerModule options m (.start j) with
    | .ok module s => .ok module s.journal
    | .error e s => .error e s.journal := by
  have h : Tracks (Direct.finishedFunctions m options j) (lowerModule options m) (.start j)
    (Direct.lowerModule options m) (.start j) _ := lowerModule_tracks
  unfold Tracks at h
  rw [Bytecode.Module.lower]
  cases hx : lowerModule options m (.start j) <;>
    cases hy : Direct.lowerModule options m (.start j) <;> simp only [hx, hy] at h ⊢
  case ok.ok => rw [h.1, h.2.1]
  case error.error => rw [h.1, h.2.1]

end Module

end Lowering

end StackCompiler

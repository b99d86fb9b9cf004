import Laconic.Proofs.Rename.Safety
import Mathlib

/-!
# Kept names of functions and classes

The names of functions and classes can be kept.  Outer scopes are named before inner ones and
avoid only the names that they know, so a symbol of an outer scope may get the name that a
function or a class further inside keeps.  Where the scope of that function or class refers to
the outer symbol, the kept name catches the reference.  This is the only way in which two
symbols of a scope can come to share a name.
-/

namespace Laconic

open Naming (Catches namedTree nameOf?)

/-- In every scope of a resolved program, two symbols that are declared there or enclosed there
have the same name after renaming exactly if one of them is a function or a class that keeps its
name and catches the references to the other one, but for the arguments of functions.  The
program is one that exports names only at the outermost level, as each parsed program does. -/
theorem same_name_iff_catches (o : RenameOptions) {p q : Program} {t : ScopeTree}
    (hexports : p.exportsOutermost o.ie8 = true ∨ p.Parsed) (h : resolve o.ie8 p = .ok (q, t))
    (id : Nat) (s : Scope) (hs : (renameVariables o q t []).2.1.scopes[id]? = some s) (i j : Nat)
    (hi : i ∈ s.names.map (·.2) ++ s.enclosed) (hj : j ∈ s.names.map (·.2) ++ s.enclosed)
    (hij : i ≠ j) :
    ∃ a b, (renameVariables o q t []).2.1.symbols[i]? = some a
      ∧ (renameVariables o q t []).2.1.symbols[j]? = some b
      ∧ (a.kind ≠ .arguments → b.kind ≠ .arguments →
        (a.outputName = b.outputName ↔
          Catches o (renameVariables o q t []).2.1 i j
            ∨ Catches o (renameVariables o q t []).2.1 j i)) := by
  obtain ⟨hresolved, hpins⟩ := resolved_of_resolve h
  have hexports := exports_of_resolve h
    (hexports.elim (fun h => h) fun hparsed => hparsed.exportsOutermost o.ie8)
  have hts : t.scopes[id]? = some s := by
    rw [← hs, show (renameVariables o q t []).2.1.scopes = t.scopes from
      (Naming.outcome_namedTree (o := o) hresolved q).only.scopes]
  obtain ⟨a, ha, hahome, hisees⟩ := Naming.exists_symbol_of_mem hresolved o q hts hi
  obtain ⟨b, hb, hbhome, hjsees⟩ := Naming.exists_symbol_of_mem hresolved o q hts hj
  have hnames : nameOf? (namedTree o q t) i = nameOf? (namedTree o q t) j
      ↔ a.outputName = b.outputName := by
    simp [nameOf?, ha, hb]
  refine ⟨a, b, ha, hb, fun hakind hbkind => ⟨fun heq => ?_, fun hcatches => ?_⟩⟩
  · exact Naming.catches_of_visible_eq hresolved hpins hexports id hisees hjsees hahome hbhome
      hakind hbkind hij (hnames.mpr heq)
  · exact hnames.mp (hcatches.elim Catches.nameOf?_eq fun hc => hc.nameOf?_eq.symm)

/-- A function with a parameter that returns a function with a name, which returns the
parameter. -/
def keptInner : Program :=
  let name (text : String) : Ident := ⟨.nowhere, text, none⟩
  let inner : Expr := .function ⟨.nowhere, some (name "n"), false, false, [],
    ⟨.nowhere, [.return .nowhere (some (.ident (name "x")))]⟩⟩
  ⟨.nowhere, .script, [.function ⟨.nowhere, some (name "o"), false, false, [.ident (name "x")],
    ⟨.nowhere, [.return .nowhere (some inner)]⟩⟩], [], none, []⟩

/-- Its scopes, before and after the reference to the parameter is found. -/
def keptInnerTree (found : Bool) (name : Option String) : ScopeTree :=
  let enclosed := if found then [1] else []
  let references := if found then [.nowhere] else []
  let scope (kind : ScopeKind) (parent : Option Nat) (children : List Nat) (names : NameTable)
      (enclosed : List Nat) : Scope :=
    ⟨kind, parent, children, names, enclosed, false, false, false, false, false, false, .nowhere⟩
  { scopes := #[scope .global none [1] [("o", 0)] [],
      scope .function (some 0) [2] [("x", 1)] enclosed,
      scope .function (some 1) [] [("n", 2)] enclosed]
    symbols := #[⟨"o", 0, .function, [], [], 0, false, false, false, none, none⟩,
      ⟨"x", 1, .param, [], references, 0, false, false, found, none, name⟩,
      ⟨"n", 2, .functionName, [], [], 0, false, false, false, none, none⟩] }

theorem resolve_keptInner : resolve false keptInner
    = .ok (keptInner.bindIdents [0, 1, 2, 1], keptInnerTree true none) := by
  have hrun : (keptInner.innerEvents false).foldlM (Declaring.step keptInner.fileName)
      keptInner.declaring = .ok ⟨keptInnerTree false none, [0], #[[], [], []], #[0, 1, 2]⟩ := rfl
  rw [resolve_eq_of_run hrun]
  rfl

theorem renameVariables_keptInner :
    (renameVariables { keepFunctionNames := true } (keptInner.bindIdents [0, 1, 2, 1])
      (keptInnerTree true none) []).2.1 = keptInnerTree true (some "n") := by
  have hfresh : ((Naming.alphabetFor (keptInner.bindIdents [0, 1, 2, 1])
      [⟨"x", 1, .param, [], [.nowhere], 0, false, false, true, none, none⟩]).fresh [] 0).1
        = "n" := by
    refine Alphabet.fresh_mostFrequent (c := 'n') (by decide +kernel) ?_ (by simp)
    decide +kernel
  have hrenamed : ((keptInnerTree true none).symbols.mapIdx fun id s =>
      if ({ keepFunctionNames := true } : RenameOptions).renames (keptInnerTree true none) id s
      then [s]
      else []).toList.flatten
        = [⟨"x", 1, .param, [], [.nowhere], 0, false, false, true, none, none⟩] := rfl
  unfold renameVariables
  dsimp only
  rw [hrenamed]
  generalize Naming.alphabetFor _ _ = a at hfresh
  delta Naming.renameScope Naming.renameOwn
  generalize a.fresh = fresh at hfresh
  rw [← hfresh]
  cbv

/-- With kept names of functions, the parameter gets the name of the inner function, which then
refers to itself. -/
theorem keptInner_caught : ∃ q t s a b, resolve false keptInner = .ok (q, t) ∧
    (renameVariables { keepFunctionNames := true } q t []).2.1.scopes[2]? = some s ∧
    2 ∈ s.names.map (·.2) ++ s.enclosed ∧ 1 ∈ s.names.map (·.2) ++ s.enclosed ∧
    (renameVariables { keepFunctionNames := true } q t []).2.1.symbols[2]? = some a ∧
    (renameVariables { keepFunctionNames := true } q t []).2.1.symbols[1]? = some b ∧
    a.kind ≠ .arguments ∧ b.kind ≠ .arguments ∧ a.outputName = b.outputName := by
  refine ⟨_, _, (keptInnerTree true none).scopes[2], (keptInnerTree true none).symbols[2],
    (keptInnerTree true (some "n")).symbols[1], resolve_keptInner, ?_⟩
  rw [renameVariables_keptInner]
  exact ⟨rfl, by decide, by decide, rfl, rfl, nofun, nofun, rfl⟩

/-- What the theorem says of the inner function and the parameter, in the scope of that
function. -/
theorem same_name_iff_catches_keptInner : ∃ q t a b, resolve false keptInner = .ok (q, t) ∧
    (renameVariables { keepFunctionNames := true } q t []).2.1.symbols[2]? = some a ∧
    (renameVariables { keepFunctionNames := true } q t []).2.1.symbols[1]? = some b ∧
    (a.kind ≠ .arguments → b.kind ≠ .arguments →
      (a.outputName = b.outputName ↔
        Catches { keepFunctionNames := true }
            (renameVariables { keepFunctionNames := true } q t []).2.1 2 1
          ∨ Catches { keepFunctionNames := true }
            (renameVariables { keepFunctionNames := true } q t []).2.1 1 2)) := by
  have hs : (renameVariables { keepFunctionNames := true } (keptInner.bindIdents [0, 1, 2, 1])
      (keptInnerTree true none) []).2.1.scopes[2]? = some (keptInnerTree true none).scopes[2] := by
    rw [renameVariables_keptInner]
    rfl
  obtain ⟨a, b, ha, hb, hiff⟩ := same_name_iff_catches { keepFunctionNames := true }
    (.inl (by decide)) resolve_keptInner 2 _ hs 2 1 (by decide) (by decide) (by decide)
  exact ⟨_, _, a, b, resolve_keptInner, ha, hb, hiff⟩

end Laconic

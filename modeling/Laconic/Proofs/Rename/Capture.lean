import Laconic.Proofs.Rename.Session
import Laconic.Proofs.Scope.Globals

/-!
# Reused names and capture

A name of an earlier run is given to a symbol of the outermost scope without a look
at the present program.  It captures the references to a global symbol of that name,
clashes with a symbol that keeps that name, and may be one that is reserved by now.
This is all that can go wrong: the other new names of the outermost scope are looked
for among the free ones, and no two names of a table are the same.
-/

namespace Laconic

open Naming

open ScopeTree (root)

/-- The names of the outermost scope are told apart from each other and from global
names, and no reserved name is given to a symbol there. -/
structure ScopeTree.RootApart (o : RenameOptions) (u : ScopeTree) : Prop where
  differ : ∀ i j a b, u.Owns root i → u.Owns root j → u.symbols[i]? = some a →
    u.symbols[j]? = some b → i ≠ j → a.outputName ≠ b.outputName
  global : ∀ i a, u.Owns root i → u.symbols[i]? = some a → u.globals.find? a.outputName = none
  reserved : ∀ i a x, u.Owns root i → u.symbols[i]? = some a → a.newName = some x →
    x ∉ o.reserved

/-- A name is free in the outermost scope: it is not reserved, no global symbol has it
and no symbol of the scope keeps it. -/
structure ScopeTree.FreeInRoot (o : RenameOptions) (u : ScopeTree) (x : String) : Prop where
  reserved : x ∉ o.reserved
  global : u.globals.find? x = none
  kept : ∀ j b, u.Owns root j → u.symbols[j]? = some b → b.newName = none → b.name ≠ x

namespace Naming

section Root

variable {o : RenameOptions} {p : Program} {t : ScopeTree} {cache : Renaming} {i : Nat} {n : String}

/-- The symbols of the outermost scope after a run, under the names they had before. -/
theorem declared?_of_owns (h : t.Resolved) (hroot : 0 < t.scopes.size) {a : Symbol}
    (hi : (renameVariables o p t cache).2.1.Owns root i)
    (ha : (renameVariables o p t cache).2.1.symbols[i]? = some a) :
    t.declared? a.name root = some i
      ∧ newName? (renameVariables o p t cache).2.1 i = a.newName := by
  have halike := (alike_cleared t).trans (reused_renameVariables o p h hroot cache).only.alike
  obtain ⟨n, hn⟩ := hi
  rw [halike.declared?] at hn
  obtain ⟨kind, hhome⟩ := h.home?_of_declared? hn
  have hsame := halike.home i
  rw [hhome, ScopeTree.home?, ha, Option.map_some, Option.some.injEq] at hsame
  have hname : a.name = n := congrArg Home.name hsame
  refine ⟨hname ▸ hn, ?_⟩
  rw [newName?, ha]
  rfl

theorem not_isEligible_of_newName? (h : t.Resolved) (hroot : 0 < t.scopes.size)
    (hi : t.declared? n root = some i)
    (hnone : newName? (renameVariables o p t cache).2.1 i = none) :
    isEligible (eligibleIn o t) i = false := by
  have hreused := reused_renameVariables o p h hroot cache
  cases helig : isEligible (eligibleIn o t) i with
  | false => rfl
  | true =>
    have hmem := (mem_own_iff h).mpr ⟨⟨n, hi⟩, helig⟩
    cases hc : cachedName? cache (cleared t) i with
    | some x =>
      rw [hreused.cached i hmem x hc] at hnone
      cases hnone
    | none =>
      obtain ⟨s, hs⟩ : ∃ s, t.scopes[root]? = some s := ⟨_, Array.getElem?_eq_getElem hroot⟩
      obtain ⟨x, hx, _⟩ := hreused.fresh s hs i hmem hc
      rw [hx] at hnone
      cases hnone

theorem free_of_newName? (h : t.Resolved) (hroot : 0 < t.scopes.size) (hglobals : t.GlobalsEnclosed)
    {x : String} (hi : t.declared? n root = some i)
    (hx : newName? (renameVariables o p t cache).2.1 i = some x) :
    cache.find? n = some x ∨ (renameVariables o p t cache).2.1.FreeInRoot o x := by
  have halike := (alike_cleared t).trans (reused_renameVariables o p h hroot cache).only.alike
  obtain ⟨_, hc | ⟨_, hreserved, s, hs, htaken⟩⟩ := newName?_cases h hroot hi hx
  · exact .inl hc
  simp only [takenNames, List.mem_append, not_or] at htaken
  obtain ⟨⟨⟨henclosed, hkept⟩, _⟩, _⟩ := htaken
  refine .inr ⟨hreserved, ?_, ?_⟩
  · rw [halike.globals]
    cases hg : t.globals.find? x with
    | none => rfl
    | some g =>
      refine absurd ?_ henclosed
      obtain ⟨s', hs', hmem⟩ := hglobals x g hg
      cases Option.mem_unique hs hs'
      obtain ⟨y, hy, hund, rfl⟩ := (h.globals x g).mp hg
      obtain ⟨b, hb, rfl⟩ := Option.map_eq_some_iff.mp hy
      refine List.mem_flatMap.mpr ⟨g, hmem, ?_⟩
      have hund : b.undeclared = true := hund
      simp [getElem?_symbols_cleared, hb, unnamed, hund, Symbol.outputName, Symbol.home]
  · intro j b hj hb hnone heq
    obtain ⟨hjd, hjnew⟩ := declared?_of_owns h hroot hj hb
    have helig := not_isEligible_of_newName? h hroot hjd (hjnew.trans hnone)
    refine hkept (List.mem_flatMap.mpr
      ⟨(b.name, j), (h.tabled.mem_names_iff hs b.name j).mpr hjd, ?_⟩)
    obtain ⟨kind, hhome⟩ := h.home?_of_declared? hjd
    obtain ⟨old, hold, hsame⟩ := Option.map_eq_some_iff.mp hhome
    have hname : old.name = b.name := congrArg Home.name hsame
    simp [helig, getElem?_symbols_cleared, hold, unnamed, hname, heq]

end Root

theorem globals_find?_of_declared? {t : ScopeTree} (h : t.Resolved) (hglobals : t.GlobalsEnclosed)
    {n : String} {i : Nat} (hi : t.declared? n root = some i) : t.globals.find? n = none := by
  cases hg : t.globals.find? n with
  | none => rfl
  | some g =>
    obtain ⟨x, hx, hund, rfl⟩ := (h.globals n g).mp hg
    obtain ⟨y, f, hy, _, hcase⟩ := h.enclosed root g (hglobals _ g hg)
    cases Option.mem_unique hx hy
    rcases hcase with hown | ⟨hpasses, _⟩
    · obtain ⟨kind, hhome⟩ := h.home?_of_declared? hown
      rw [hx] at hhome
      rw [Option.some.inj hhome] at hund
      cases hund
    · rw [hpasses.1] at hi
      cases hi

end Naming

/-- Reused names are safe if and only if they are free: after any session, the names of
the outermost scope are told apart exactly if no name that is taken over from earlier
runs is reserved, the name of a global symbol, or kept by another symbol. -/
theorem reused_names_apart_iff [PatternEngine] (o : RenameOptions) {c : NameCache}
    (hc : NameCache.Session {} c) {ie8 : Bool} {p q : Program} {t : ScopeTree}
    (h : resolve ie8 p = .ok (q, t)) :
    (renameVariables o q t c.vars).2.1.RootApart o ↔
      ∀ i a x, (renameVariables o q t c.vars).2.1.Owns root i →
        (renameVariables o q t c.vars).2.1.symbols[i]? = some a → a.newName = some x →
        c.vars.find? a.name = some x → (renameVariables o q t c.vars).2.1.FreeInRoot o x := by
  obtain ⟨hresolved, _⟩ := resolved_of_resolve h
  have hroot := root_lt_of_resolve h
  have hglobals := globalsEnclosed_of_resolve h
  obtain ⟨hinj, _⟩ := hc.injective_and_kept NameCache.injective_empty
  have halike := (alike_cleared t).trans
    (reused_renameVariables o q hresolved hroot c.vars).only.alike
  constructor
  · intro hapart i a x hi ha hx _
    have hout : a.outputName = x := by rw [Symbol.outputName, hx, Option.getD_some]
    refine ⟨hapart.reserved i a x hi ha hx, hout ▸ hapart.global i a hi ha, ?_⟩
    intro j b hj hb hnone heq
    refine hapart.differ i j a b hi hj ha hb ?_ ?_
    · rintro rfl
      rw [Option.mem_unique ha hb, hnone] at hx
      cases hx
    · rw [hout, Symbol.outputName, hnone, Option.getD_none, heq]
  · intro hfree
    -- any new name is free, whether it was looked for or taken over
    have hnew : ∀ i a x, (renameVariables o q t c.vars).2.1.Owns root i →
        (renameVariables o q t c.vars).2.1.symbols[i]? = some a → a.newName = some x →
        (renameVariables o q t c.vars).2.1.FreeInRoot o x := by
      intro i a x hi ha hx
      obtain ⟨hid, hinew⟩ := declared?_of_owns hresolved hroot hi ha
      rcases free_of_newName? hresolved hroot hglobals hid (hinew.trans hx) with hcx | hx'
      · exact hfree i a x hi ha hx hcx
      · exact hx'
    refine ⟨?_, ?_, fun i a x hi ha hx => (hnew i a x hi ha hx).reserved⟩
    · intro i j a b hi hj ha hb hij heq
      obtain ⟨hid, hinew⟩ := declared?_of_owns hresolved hroot hi ha
      obtain ⟨hjd, hjnew⟩ := declared?_of_owns hresolved hroot hj hb
      have hname : a.name = b.name → False := by
        intro hsame
        rw [hsame, hjd] at hid
        exact hij (Option.some.inj hid).symm
      unfold Symbol.outputName at heq
      cases hax : a.newName with
      | none =>
        cases hbx : b.newName with
        | none =>
          rw [hax, hbx] at heq
          exact hname heq
        | some y =>
          rw [hax, hbx] at heq
          exact (hnew j b y hj hb hbx).kept i a hi ha hax heq
      | some x =>
        cases hbx : b.newName with
        | none =>
          rw [hax, hbx] at heq
          exact (hnew i a x hi ha hax).kept j b hj hb hbx heq.symm
        | some y =>
          rw [hax, hbx] at heq
          have hxy : x = y := heq
          exact hname (eq_of_newName?_eq_newName? hresolved hroot hinj.1 hid hjd
            (hinew.trans hax) (hxy ▸ hjnew.trans hbx))
    · intro i a hi ha
      cases hax : a.newName with
      | none =>
        rw [Symbol.outputName, hax, Option.getD_none, halike.globals]
        exact globals_find?_of_declared? hresolved hglobals
          (declared?_of_owns hresolved hroot hi ha).1
      | some x =>
        rw [Symbol.outputName, hax, Option.getD_some]
        exact (hnew i a x hi ha hax).global

def globalReader (name : String) : Program :=
  let ident (text : String) : Ident := ⟨.nowhere, text, none⟩
  ⟨.nowhere, .script, [.varDecl ⟨.nowhere, .var, [⟨.nowhere, .ident (ident "x"), none⟩]⟩,
    .expr .nowhere (.call .nowhere false false (.ident (ident "g")) [.ident (ident name)])],
    [], none, []⟩

def globalReaderTree (name : String) : ScopeTree :=
  { scopes := #[⟨.global, none, [], [("x", 0)], [1, 2], false, false, false, false, false, false,
      .nowhere⟩]
    symbols := #[⟨"x", 0, .var, [], [], 0, false, false, false, none, none⟩,
      ⟨"g", 0, .global, [], [.nowhere], 0, false, true, false, none, none⟩,
      ⟨name, 0, .global, [], [.nowhere], 0, false, true, false, none, none⟩]
    globals := [("g", 1), (name, 2)] }

theorem resolve_globalReader_a : resolve false (globalReader "a")
    = .ok ((globalReader "a").bindIdents [0, 1, 2], globalReaderTree "a") := rfl

theorem resolve_globalReader_b : resolve false (globalReader "b")
    = .ok ((globalReader "b").bindIdents [0, 1, 2], globalReaderTree "b") := rfl

theorem newName_globalReader {name : String}
    (h : (globalReaderTree name).Resolved) {a : Symbol}
    (ha : (renameVariables { toplevel := true } ((globalReader name).bindIdents [0, 1, 2])
      (globalReaderTree name) letterCache.vars).2.1.symbols[0]? = some a) :
    a.newName = some "a" := by
  have hmem : 0 ∈ own (eligibleIn { toplevel := true } (globalReaderTree name))
      (cleared (globalReaderTree name)) root :=
    (mem_own_iff h).mpr ⟨⟨"x", rfl⟩, rfl⟩
  have hcached := (cachedName?_cleared h (show (globalReaderTree name).declared? "x" root
    = some 0 from rfl)).trans (show letterCache.vars.find? "x" = some "a" from rfl)
  have hnew := (reused_renameVariables { toplevel := true }
    ((globalReader name).bindIdents [0, 1, 2]) h Nat.one_pos letterCache.vars).cached 0 hmem "a"
      hcached
  rwa [newName?, ha] at hnew

/-- The names of `letterCache` are safe for a program that has no global name `a`. -/
theorem globalReader_b_apart : NameCache.Session {} letterCache ∧
    (renameVariables { toplevel := true } ((globalReader "b").bindIdents [0, 1, 2])
      (globalReaderTree "b") letterCache.vars).2.1.RootApart { toplevel := true } := by
  refine ⟨session_letterCache,
    (reused_names_apart_iff { toplevel := true } session_letterCache resolve_globalReader_b).mpr ?_⟩
  obtain ⟨hresolved, _⟩ := resolved_of_resolve resolve_globalReader_b
  have halike := (alike_cleared (globalReaderTree "b")).trans
    (reused_renameVariables { toplevel := true } ((globalReader "b").bindIdents [0, 1, 2])
      hresolved (by decide) letterCache.vars).only.alike
  have hnew := @newName_globalReader "b" hresolved
  generalize (renameVariables { toplevel := true } ((globalReader "b").bindIdents [0, 1, 2])
      (globalReaderTree "b") letterCache.vars).2.1 = u at halike hnew
  have hown : ∀ i, u.Owns root i → i = 0 := by
    rintro i ⟨n, hn⟩
    rw [halike.declared?] at hn
    have hs : (globalReaderTree "b").scopes[root]? = some (globalReaderTree "b").scopes[0] := rfl
    have hin := (hresolved.tabled.mem_names_iff hs n i).mpr hn
    exact congrArg Prod.snd (List.mem_singleton.mp hin)
  intro i a x hi ha hx _
  cases hown i hi
  cases Option.mem_unique hx (hnew ha)
  refine ⟨by simp, halike.globals ▸ rfl, ?_⟩
  intro j b hj hb hnone
  cases hown j hj
  rw [hnew hb] at hnone
  cases hnone

/-- The names of `letterCache` capture the global name `a`. -/
theorem globalReader_a_captured : NameCache.Session {} letterCache ∧
    resolve false (globalReader "a")
      = .ok ((globalReader "a").bindIdents [0, 1, 2], globalReaderTree "a") ∧
    ¬ (renameVariables { toplevel := true } ((globalReader "a").bindIdents [0, 1, 2])
      (globalReaderTree "a") letterCache.vars).2.1.RootApart { toplevel := true } := by
  refine ⟨session_letterCache, rfl, fun hapart => ?_⟩
  obtain ⟨hresolved, _⟩ := resolved_of_resolve resolve_globalReader_a
  have halike := (alike_cleared (globalReaderTree "a")).trans
    (reused_renameVariables { toplevel := true } ((globalReader "a").bindIdents [0, 1, 2])
      hresolved (by decide) letterCache.vars).only.alike
  have hnew := @newName_globalReader "a" hresolved
  generalize (renameVariables { toplevel := true } ((globalReader "a").bindIdents [0, 1, 2])
      (globalReaderTree "a") letterCache.vars).2.1 = u at halike hnew hapart
  obtain ⟨a, ha, _⟩ := Option.map_eq_some_iff.mp
    ((halike.home 0).trans (show (globalReaderTree "a").home? 0 = some _ from rfl))
  have howns : u.Owns root 0 := ⟨"x", (halike.declared? "x" root).trans rfl⟩
  have hnone := hapart.global 0 a howns ha
  rw [Symbol.outputName, hnew ha, halike.globals] at hnone
  cases hnone

end Laconic

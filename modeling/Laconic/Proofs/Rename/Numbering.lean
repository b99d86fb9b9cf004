import Laconic.Rename.Properties
import Laconic.Rename.Variables
import Laconic.Proofs.Rename.Fresh
import Mathlib.Data.Set.Function

/-!
# The numbering of names

Every text that can be a name has one number, and longer names have greater numbers.  There are
more numbers than names that are reserved or taken, so the search for a new name ends, with the
first one that is free.
-/

namespace Laconic.Alphabet

variable {a : Alphabet}

/-- A character that names begin with, and then any that they go on with. -/
def IsName (s : String) : Prop :=
  ∃ c cs, s.toList = c :: cs ∧ c ∈ leadingChars ∧ ∀ d ∈ cs, d ∈ trailingChars

/-! ## Numbers and names -/

section Digits

variable {cs : List Char} {size : Nat} (hlength : cs.length = size)

include hlength

theorem getD_mod_mem (hsize : 0 < size) (n : Nat) : cs.getD (n % size) 'a' ∈ cs := by
  grind [Nat.mod_lt]

/-- Every digit of a notation can stand before the digits of every number. -/
theorem exists_digit {c : Char} (hc : c ∈ cs) (rest : Nat) :
    ∃ n, cs.getD (n % size) 'a' = c ∧ n / size = rest := by
  obtain ⟨i, hi, rfl⟩ := List.getElem_of_mem hc
  rw [← hlength]
  refine ⟨i + cs.length * rest, ?_, ?_⟩
  · grind [Nat.add_mul_mod_self_left, Nat.mod_eq_of_lt]
  · rw [Nat.add_mul_div_left _ _ (by omega), Nat.div_eq_of_lt hi, Nat.zero_add]

end Digits

theorem mem_tail (h : a.Complete) {n : Nat} {c : Char} (hc : c ∈ a.tail n) : c ∈ trailingChars := by
  induction n using Nat.strongRecOn with
  | ind n ih =>
    cases n with
    | zero => simp [tail_zero] at hc
    | succ n =>
      rw [tail_succ] at hc
      rcases List.mem_cons.mp hc with rfl | hc
      · exact h.trailing.mem_iff.mp (getD_mod_mem h.length_trailing (by omega) n)
      · exact ih (n / 64) (by omega) hc

theorem exists_tail (h : a.Complete) {cs : List Char} (hcs : ∀ c ∈ cs, c ∈ trailingChars) :
    ∃ n, a.tail n = cs := by
  induction cs with
  | nil => exact ⟨0, tail_zero a⟩
  | cons c cs ih =>
    obtain ⟨hc, hcs⟩ := List.forall_mem_cons.mp hcs
    obtain ⟨rest, hrest⟩ := ih hcs
    obtain ⟨n, hdigit, hdiv⟩ := exists_digit h.length_trailing (h.trailing.mem_iff.mpr hc) rest
    exact ⟨n + 1, by rw [tail_succ, hdigit, hdiv, hrest]⟩

theorem length_tail_mono {m n : Nat} (hle : m ≤ n) : (a.tail m).length ≤ (a.tail n).length := by
  induction m using Nat.strongRecOn generalizing n with
  | ind m ih =>
    cases m with
    | zero => simp [tail_zero]
    | succ m =>
      obtain ⟨n, rfl⟩ : ∃ k, n = k + 1 := ⟨n - 1, by omega⟩
      rw [tail_succ, tail_succ, List.length_cons, List.length_cons]
      exact Nat.succ_le_succ (ih (m / 64) (by omega) (by omega))

theorem isName_name (h : a.Complete) (n : Nat) : IsName (a.name n) := by
  refine ⟨_, _, String.toList_ofList, ?_, fun d hd => mem_tail h hd⟩
  exact h.leading.mem_iff.mp (getD_mod_mem h.length_leading (by omega) n)

theorem exists_name (h : a.Complete) {s : String} (hs : IsName s) : ∃ n, a.name n = s := by
  obtain ⟨c, cs, htext, hc, hcs⟩ := hs
  obtain ⟨rest, hrest⟩ := exists_tail h hcs
  obtain ⟨n, hdigit, hdiv⟩ := exists_digit h.length_leading (h.leading.mem_iff.mpr hc) rest
  exact ⟨n, by rw [name, hdigit, hdiv, hrest, ← htext, String.ofList_toList]⟩

/-! ## The search -/

/-- The first number from `n` on whose name is free. -/
structure IsFirstFree (a : Alphabet) (taken : List String) (n k : Nat) : Prop where
  le : n ≤ k
  free : isReservedWord (a.name k) = false ∧ a.name k ∉ taken
  first : ∀ j, n ≤ j → j < k → isReservedWord (a.name j) = true ∨ a.name j ∈ taken

theorem next_eq (allowed : String → Bool) (rounds n : Nat) :
    ∃ k, n ≤ k ∧ a.next allowed rounds n = (a.name k, k + 1) ∧
      ∀ j, n ≤ j → j < k → allowed (a.name j) = false := by
  induction rounds generalizing n with
  | zero => exact ⟨n, le_rfl, rfl, fun j hj hlt => by omega⟩
  | succ rounds ih =>
    rw [next]
    cases hn : allowed (a.name n) with
    | true => exact ⟨n, le_rfl, rfl, fun j hj hlt => by omega⟩
    | false =>
      obtain ⟨k, hle, heq, hfirst⟩ := ih (n + 1)
      exact ⟨k, by omega, heq, by grind⟩

/-- The search for a name ends with the first free one. -/
theorem exists_isFirstFree (h : a.Complete) (taken : List String) (n : Nat) :
    ∃ k, a.IsFirstFree taken n k ∧ a.fresh taken n = (a.name k, k + 1) := by
  obtain ⟨k, hle, heq, hfirst⟩ := a.next_eq
    (fun name => !isReservedWord name && !taken.contains name) (Word.all.length + taken.length) n
  have hfree := fresh_spec h taken n
  rw [fresh, heq] at hfree
  refine ⟨k, ⟨hle, hfree, fun j hj hlt => ?_⟩, heq⟩
  simpa [or_iff_not_imp_left] using hfirst j hj hlt

/-- The numbers of an alphabet count the names, the shorter ones first, and both ways to give out
new names find the first one that is free. -/
theorem numbering_of_frequency (frequency : Char → Int) :
    (leadingChars.length = 54 ∧ trailingChars.length = 64)
    ∧ Set.BijOn (ofFrequency frequency).name Set.univ { s | IsName s }
    ∧ (∀ m n, m ≤ n →
      ((ofFrequency frequency).name m).length ≤ ((ofFrequency frequency).name n).length)
    ∧ (∀ (s : Naming.State) (id : Nat), s.tree.symbols[id]?.any (·.newName.isSome) = false →
      ∃ k, (ofFrequency frequency).IsFirstFree s.taken s.next k
        ∧ Naming.renameOwn (ofFrequency frequency) s id
          = ⟨Naming.rename s.tree id ((ofFrequency frequency).name k),
            (ofFrequency frequency).name k :: s.taken, k + 1⟩)
    ∧ ∀ (s : Properties.State) (name : String), s.cache.find? name = none →
      ∃ k, plain.IsFirstFree s.taken s.next k
        ∧ Properties.renameOne s name = ⟨s.table.insert name (plain.name k),
          s.cache.insert name (plain.name k), plain.name k :: s.taken, k + 1⟩ := by
  have h := complete_ofFrequency frequency
  refine ⟨⟨rfl, rfl⟩, ⟨fun n _ => isName_name h n, fun m _ n _ => name_injective h, fun s hs => ?_⟩,
    ?_, ?_, ?_⟩
  · obtain ⟨n, hn⟩ := exists_name h hs
    exact ⟨n, trivial, hn⟩
  · intro m n hle
    rw [name, name, String.length_ofList, String.length_ofList]
    exact Nat.succ_le_succ (length_tail_mono (Nat.div_le_div_right hle))
  · intro s id hnone
    obtain ⟨k, hk, heq⟩ := exists_isFirstFree h s.taken s.next
    refine ⟨k, hk, ?_⟩
    rw [Naming.renameOwn, hnone, heq]
    rfl
  · intro s name hnone
    obtain ⟨k, hk, heq⟩ := exists_isFirstFree (complete_ofFrequency fun _ => 0) s.taken s.next
    refine ⟨k, hk, ?_⟩
    rw [Properties.renameOne, hnone]
    dsimp only
    rw [plain, heq]

end Laconic.Alphabet

import Laconic.Rename.Alphabet
import Laconic.Proofs.Token.Cursor
import Mathlib.Data.List.Nodup
import Mathlib.Data.List.Perm.Subperm

/-!
# New names differ

An alphabet has 54 characters that a name can begin with and 64 that it can go
on with, all different.  Read from the second character on, a name is a number
in a notation with 64 digits and no zero, so that no two numbers have the same
name.  The search for an allowed name therefore meets a new name in every round
and ends with an allowed one as soon as it has more rounds than there are names
that are not allowed.
-/

namespace Laconic.Alphabet

variable {a : Alphabet}

/-! ## Alphabets -/

/-- An alphabet has the characters of names, each once. -/
structure Complete (a : Alphabet) : Prop where
  leading : a.leading.Perm leadingChars
  trailing : a.trailing.Perm trailingChars

theorem complete_ofFrequency (frequency : Char → Int) : (ofFrequency frequency).Complete where
  leading := List.mergeSort_perm _ _
  trailing := List.mergeSort_perm _ _

/-- How many characters begin a name, and that all the characters of names differ. -/
theorem length_nodup_chars : leadingChars.length = 54 ∧ trailingChars.Nodup := by
  decide +kernel

namespace Complete

variable {a : Alphabet} (h : a.Complete)

include h

theorem length_leading : a.leading.length = 54 := by
  rw [h.leading.length_eq, length_nodup_chars.1]

theorem length_trailing : a.trailing.length = 64 := by
  rw [h.trailing.length_eq, trailingChars, List.length_append, length_nodup_chars.1]
  decide

theorem nodup_trailing : a.trailing.Nodup := by
  rw [h.trailing.nodup_iff]
  exact length_nodup_chars.2

theorem nodup_leading : a.leading.Nodup := by
  rw [h.leading.nodup_iff]
  exact length_nodup_chars.2.of_append_left

end Complete

private theorem eq_of_getD_eq {cs : List Char} (hnodup : cs.Nodup) {i j : Nat}
    (hi : i < cs.length) (hj : j < cs.length) (heq : cs.getD i 'a' = cs.getD j 'a') : i = j := by
  simp only [List.getD_eq_getElem?_getD, List.getElem?_eq_getElem hi, List.getElem?_eq_getElem hj,
    Option.getD_some] at heq
  exact (hnodup.getElem_inj_iff).mp heq

/-! ## Names -/

theorem tail_zero (a : Alphabet) : a.tail 0 = [] := by
  rw [tail]
  simp

theorem tail_succ (a : Alphabet) (n : Nat) :
    a.tail (n + 1) = a.trailing.getD (n % 64) 'a' :: a.tail (n / 64) := by
  rw [tail]
  simp

/-- The characters after the first one determine the number that they stand
for. -/
theorem tail_injective (h : a.Complete) : ∀ m n : Nat, a.tail m = a.tail n → m = n := by
  intro m
  induction m using Nat.strongRecOn with
  | ind m ih =>
    intro n heq
    cases m with
    | zero =>
      cases n with
      | zero => rfl
      | succ n => simp [tail_zero, tail_succ] at heq
    | succ m =>
      cases n with
      | zero => simp [tail_zero, tail_succ] at heq
      | succ n =>
        simp only [tail_succ, List.cons.injEq] at heq
        have hlen := h.length_trailing
        have hmod : m % 64 = n % 64 := by
          apply eq_of_getD_eq h.nodup_trailing _ _ heq.1
          all_goals rw [hlen]; exact Nat.mod_lt _ (by omega)
        have hdiv : m / 64 = n / 64 := ih (m / 64) (by omega) (n / 64) heq.2
        omega

theorem name_injective (h : a.Complete) {m n : Nat} (heq : a.name m = a.name n) : m = n := by
  have hchars := String.ofList_injective heq
  rw [List.cons.injEq] at hchars
  have hlen := h.length_leading
  have hmod : m % 54 = n % 54 := by
    apply eq_of_getD_eq h.nodup_leading _ _ hchars.1
    all_goals rw [hlen]; exact Nat.mod_lt _ (by omega)
  have hdiv : m / 54 = n / 54 := tail_injective h _ _ hchars.2
  omega

/-! ## The search -/

/-- With more rounds than there are names in `barred`, which has all names that
are not allowed, the search ends with an allowed name. -/
theorem next_allowed (h : a.Complete) (allowed : String → Bool) :
    ∀ (rounds n : Nat) (barred : List String), barred.length ≤ rounds →
      (∀ k, n ≤ k → allowed (a.name k) = false → a.name k ∈ barred) →
      allowed (a.next allowed rounds n).1 = true := by
  intro rounds
  induction rounds with
  | zero =>
    intro n barred hlen hbarred
    have hnil : barred = [] := List.length_eq_zero_iff.mp (by omega)
    subst hnil
    cases hn : allowed (a.name n) with
    | true => simpa [next] using hn
    | false => simpa using hbarred n (Nat.le_refl n) hn
  | succ rounds ih =>
    intro n barred hlen hbarred
    cases hn : allowed (a.name n) with
    | true => simp [next, hn]
    | false =>
      have hmem : a.name n ∈ barred := hbarred n (Nat.le_refl n) hn
      simp only [next, hn, Bool.false_eq_true, ↓reduceIte]
      -- The name of `n` does not come up again.
      apply ih (n + 1) (barred.erase (a.name n))
      · rw [List.length_erase_of_mem hmem]
        omega
      · intro k hk hfalse
        have hne : a.name k ≠ a.name n := by
          intro heq
          have := name_injective h heq
          omega
        exact (List.mem_erase_of_ne hne).mpr (hbarred k (by omega) hfalse)

theorem mem_words_of_isReservedWord {s : String} (h : isReservedWord s = true) :
    s ∈ Word.all.map Word.text := by
  unfold isReservedWord Word.ofText? at h
  split at h
  · next w hw =>
    have htext := List.find?_some hw
    have hmem : w ∈ Word.all := List.mem_of_find?_eq_some hw
    rw [beq_iff_eq] at htext
    exact htext ▸ List.mem_map_of_mem hmem
  · simp at h

theorem fresh_spec (h : a.Complete) (taken : List String) (n : Nat) :
    isReservedWord (a.fresh taken n).1 = false ∧ (a.fresh taken n).1 ∉ taken := by
  have hallowed := next_allowed h
    (fun name => !isReservedWord name && !taken.contains name)
    (Word.all.length + taken.length) n (Word.all.map Word.text ++ taken)
    (by simp) (by
      intro k _ hk
      simp only [Bool.and_eq_false_iff, Bool.not_eq_eq_eq_not, Bool.not_false,
        List.contains_iff_mem] at hk
      rcases hk with hword | htaken
      · exact List.mem_append_left _ (mem_words_of_isReservedWord hword)
      · exact List.mem_append_right _ htaken)
  simpa [fresh] using hallowed

theorem fresh_mostFrequent {frequency : Char → Int} {c : Char} (hc : c ∈ leadingChars)
    (hmost : ∀ d ∈ leadingChars, d ≠ c → frequency d < frequency c) {taken : List String}
    (hfree : String.singleton c ∉ taken) :
    ((ofFrequency frequency).fresh taken 0).1 = String.singleton c := by
  have hperm := (complete_ofFrequency frequency).leading
  have hsorted : (ofFrequency frequency).leading.Pairwise
      fun a b => decide (frequency b ≤ frequency a) = true := by
    refine List.pairwise_mergeSort ?_ ?_ _
    · simp only [decide_eq_true_eq]
      omega
    · simp only [Bool.or_eq_true, decide_eq_true_eq]
      omega
  have hmem : c ∈ (ofFrequency frequency).leading := hperm.mem_iff.mpr hc
  have hhead : (ofFrequency frequency).leading.getD 0 'a' = c := by
    generalize (ofFrequency frequency).leading = cs at hperm hsorted hmem
    cases cs with
    | nil => cases hmem
    | cons d rest =>
      by_contra hne
      have hin := (List.mem_cons.mp hmem).resolve_left (Ne.symm hne)
      have hle := of_decide_eq_true (List.rel_of_pairwise_cons hsorted hin)
      have hlt := hmost d (hperm.mem_iff.mp List.mem_cons_self) hne
      omega
  have hname : (ofFrequency frequency).name 0 = String.singleton c := by
    rw [name, Nat.zero_mod, hhead, Nat.zero_div, tail_zero]
    rfl
  have hword : isReservedWord (String.singleton c) = false := by
    have hall : ∀ d ∈ leadingChars, isReservedWord (String.singleton d) = false := by
      decide +kernel
    exact hall c hc
  have hallowed : (!isReservedWord (String.singleton c) && !taken.contains (String.singleton c))
      = true := by simp [hword, hfree]
  unfold fresh
  cases Word.all.length + taken.length with
  | zero => exact hname
  | succ rounds =>
    rw [next, hname, if_pos hallowed]

/-- Where no character is more frequent than another, the alphabet is in its order. -/
theorem plain_eq : plain = ⟨leadingChars, trailingChars⟩ := by
  have hsorted : ∀ cs : List Char, sortByFrequency (fun _ => 0) cs = cs := by
    intro cs
    refine List.mergeSort_of_pairwise (List.pairwise_of_forall fun _ _ => ?_)
    simp
  rw [plain, ofFrequency, hsorted, hsorted]

end Laconic.Alphabet

import Mathlib.Data.List.Basic
import Mathlib.Data.List.Infix
import Mathlib.Logic.Function.Basic

/-!
# Texts put for letters

A substitution maps each letter of a text to a word, and the words stand one behind the
other. Replacing one letter after the other throughout the text is the substitution of all
of them at once when no word holds a letter that is replaced later (`replaceEach_eq`). A
substitution whose words are no prefixes of one another loses nothing
(`flatMap_injective`).
-/
namespace Courses.Lib.Substitution

section

variable {α : Type*} [DecidableEq α]

/-- A letter and the word that is put for it. -/
abbrev Rule (α : Type*) := α × List α

/-- Every occurrence of one letter is replaced. -/
def replace (s : List α) (rule : Rule α) : List α :=
  s.flatMap fun b => if b = rule.1 then rule.2 else [b]

/-- The replacements one after the other. -/
def replaceEach (rules : List (Rule α)) (s : List α) : List α := rules.foldl replace s

/-- The word for a letter when all rules are applied at once. -/
def word (rules : List (Rule α)) (b : α) : List α :=
  match rules with
  | [] => [b]
  | rule :: rules => if b = rule.1 then rule.2 else word rules b

/-- No word holds a letter that is replaced after it. -/
def InOrder (rules : List (Rule α)) : Prop :=
  rules.Pairwise fun earlier later => later.1 ∉ earlier.2

instance (rules : List (Rule α)) : Decidable (InOrder rules) :=
  inferInstanceAs (Decidable (List.Pairwise _ rules))

theorem word_of_not_mem {rules : List (Rule α)} {b : α} (h : ∀ rule ∈ rules, rule.1 ≠ b) :
    word rules b = [b] := by
  induction rules with
  | nil => rfl
  | cons rule rules ih =>
    have hne : b ≠ rule.1 := (h rule List.mem_cons_self).symm
    rw [word, if_neg hne]
    exact ih fun later hlater => h later (List.mem_cons_of_mem _ hlater)

/-- A text without the letters of the rules stays as it is. -/
theorem flatMap_word_of_not_mem {rules : List (Rule α)} {s : List α}
    (h : ∀ rule ∈ rules, rule.1 ∉ s) : s.flatMap (word rules) = s := by
  induction s with
  | nil => rfl
  | cons b s ih =>
    have hb : word rules b = [b] := by
      apply word_of_not_mem
      intro rule hrule heq
      exact h rule hrule (heq ▸ List.mem_cons_self)
    have hs := ih fun rule hrule hmem => h rule hrule (List.mem_cons_of_mem _ hmem)
    rw [List.flatMap_cons, hb, hs, List.singleton_append]

theorem replaceEach_eq {rules : List (Rule α)} (h : InOrder rules) (s : List α) :
    replaceEach rules s = s.flatMap (word rules) := by
  induction rules generalizing s with
  | nil => exact (List.flatMap_singleton' s).symm
  | cons rule rules ih =>
    obtain ⟨hrule, hrules⟩ := List.pairwise_cons.1 h
    have hword (b : α) : (if b = rule.1 then rule.2 else [b]).flatMap (word rules) =
        word (rule :: rules) b := by
      rw [word]
      split
      · exact flatMap_word_of_not_mem hrule
      · exact List.flatMap_singleton _ b
    calc replaceEach rules (replace s rule)
        = (replace s rule).flatMap (word rules) := ih hrules _
      _ = s.flatMap fun b => (if b = rule.1 then rule.2 else [b]).flatMap (word rules) :=
          List.flatMap_assoc
      _ = s.flatMap (word (rule :: rules)) := by simp only [hword]

end

section

variable {α β : Type*} {code : α → List β}

/-- No word begins with another letter's word. -/
def PrefixFree (code : α → List β) : Prop := ∀ a b, code a <+: code b → a = b

theorem flatMap_injective (hfree : PrefixFree code) (hne : ∀ a, code a ≠ []) :
    Function.Injective fun s : List α => s.flatMap code := by
  intro s t hst
  induction s generalizing t with
  | nil =>
    cases t with
    | nil => rfl
    | cons b t => exact absurd hst (by simp [hne b])
  | cons a s ih =>
    cases t with
    | nil => exact absurd hst (by simp [hne a])
    | cons b t =>
      simp only [List.flatMap_cons] at hst
      -- the shorter of the first words is a prefix of the other
      have hab : a = b := by
        have ha : code a <+: code b ++ t.flatMap code := hst ▸ List.prefix_append _ _
        obtain hshort | hshort := List.prefix_or_prefix_of_prefix ha (List.prefix_append _ _)
        · exact hfree a b hshort
        · exact (hfree b a hshort).symm
      subst hab
      exact congrArg _ (ih (List.append_cancel_left hst))

/-- A letter that words hold in the first place only stands where a word begins. -/
theorem prefix_of_flatMap_eq {c : β} (hc : ∀ a, c ∉ (code a).tail) {s : List α}
    {before after : List β} (h : s.flatMap code = before ++ c :: after) :
    ∃ a ∈ s, code a <+: c :: after ∧ (code a).head? = some c := by
  induction s generalizing before with
  | nil => exact absurd h (by simp)
  | cons a s ih =>
    rw [List.flatMap_cons] at h
    have hlater {before' : List β} (hs : s.flatMap code = before' ++ c :: after) :
        ∃ b ∈ a :: s, code b <+: c :: after ∧ (code b).head? = some c := by
      obtain ⟨b, hb, hword⟩ := ih hs
      exact ⟨b, List.mem_cons_of_mem a hb, hword⟩
    obtain ⟨before', -, hs⟩ | ⟨rest, ha, hafter⟩ := List.append_eq_append_iff.1 h
    · exact hlater hs
    · cases rest with
      | nil =>
        have hs : s.flatMap code = [] ++ c :: after := hafter.symm
        exact hlater hs
      | cons d rest =>
        obtain ⟨rfl, hrest⟩ := List.cons.inj hafter
        cases before with
        | nil =>
          refine ⟨a, List.mem_cons_self, ?_, ?_⟩
          · rw [ha, hrest]
            exact ⟨s.flatMap code, by simp⟩
          · rw [ha]
            rfl
        | cons e before =>
          have hmem : c ∈ (code a).tail := by simp [ha]
          exact absurd hmem (hc a)

end

end Courses.Lib.Substitution

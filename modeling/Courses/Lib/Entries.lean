import Mathlib.Data.List.Basic
import Mathlib.Logic.Function.Basic

/-!
# Tables filled entry by entry

A table gets entries one after the other and keeps the last value of each key. What it
held before shows exactly at the keys that no entry names (`enterAll_eq_iff`). Of two ways
to take entries from a list of lines only the last line of each key matters
(`enterAll_filterMap_eq_iff`).
-/
namespace Courses.Lib.Entries

variable {K V : Type*} [DecidableEq K]

/-- The table with one more entry. -/
def enter (m : K → Option V) (entry : K × V) : K → Option V :=
  Function.update m entry.1 (some entry.2)

def enterAll (entries : List (K × V)) (m : K → Option V) : K → Option V := entries.foldl enter m

variable {entries : List (K × V)} {m m' : K → Option V} {k : K}

@[simp] theorem enterAll_nil (m : K → Option V) : enterAll [] m = m := rfl

@[simp] theorem enterAll_cons (entry : K × V) (entries : List (K × V)) (m : K → Option V) :
    enterAll (entry :: entries) m = enterAll entries (enter m entry) := rfl

theorem enterAll_append (entries later : List (K × V)) (m : K → Option V) :
    enterAll (entries ++ later) m = enterAll later (enterAll entries m) := List.foldl_append

theorem enterAll_of_not_mem (h : k ∉ entries.map Prod.fst) : enterAll entries m k = m k := by
  induction entries generalizing m with
  | nil => rfl
  | cons entry entries ih =>
    obtain ⟨hne, hlater⟩ := not_or.1 (mt List.mem_cons.2 h)
    rw [enterAll_cons, ih hlater]
    exact Function.update_of_ne hne _ _

/-- The value of a key that an entry names comes from the entries alone. -/
theorem enterAll_of_mem (h : k ∈ entries.map Prod.fst) (m m' : K → Option V) :
    enterAll entries m k = enterAll entries m' k := by
  induction entries generalizing m m' with
  | nil => cases h
  | cons entry entries ih =>
    rw [enterAll_cons, enterAll_cons]
    by_cases hlater : k ∈ entries.map Prod.fst
    · exact ih hlater _ _
    · obtain rfl | hk := List.mem_cons.1 h
      · rw [enterAll_of_not_mem hlater, enterAll_of_not_mem hlater, enter, enter,
          Function.update_self, Function.update_self]
      · exact absurd hk hlater

theorem enterAll_ne_none (h : k ∈ entries.map Prod.fst) (m : K → Option V) :
    enterAll entries m k ≠ none := by
  induction entries generalizing m with
  | nil => cases h
  | cons entry entries ih =>
    by_cases hlater : k ∈ entries.map Prod.fst
    · exact ih hlater _
    · obtain rfl | hk := List.mem_cons.1 h
      · rw [enterAll_cons, enterAll_of_not_mem hlater, enter, Function.update_self]
        exact Option.some_ne_none _
      · exact absurd hk hlater

theorem enterAll_ne_none_iff :
    enterAll entries m k ≠ none ↔ k ∈ entries.map Prod.fst ∨ m k ≠ none := by
  by_cases hk : k ∈ entries.map Prod.fst
  · simp [enterAll_ne_none hk, hk]
  · simp [enterAll_of_not_mem hk, hk]

/-- The entries give the table that they give from nothing exactly when they name every key
that had a value before. -/
theorem enterAll_eq_iff :
    enterAll entries m = enterAll entries (fun _ => none) ↔
      ∀ k, m k ≠ none → k ∈ entries.map Prod.fst := by
  constructor
  · intro h k hk
    by_contra hnot
    have hsame := congrFun h k
    rw [enterAll_of_not_mem hnot, enterAll_of_not_mem hnot] at hsame
    exact hk hsame
  · intro h
    funext k
    by_cases hk : k ∈ entries.map Prod.fst
    · exact enterAll_of_mem hk _ _
    · rw [enterAll_of_not_mem hk, enterAll_of_not_mem hk]
      by_contra hne
      exact hk (h k hne)

/-! ### Entries taken from lines -/

/-- Of the elements with a property, one is the last. -/
theorem exists_last {α : Type*} {p : α → Prop} {l : List α} (h : ∃ a ∈ l, p a) :
    ∃ before a after, l = before ++ a :: after ∧ p a ∧ ∀ b ∈ after, ¬ p b := by
  induction l with
  | nil => simp at h
  | cons a l ih =>
    by_cases hlater : ∃ b ∈ l, p b
    · obtain ⟨before, b, after, rfl, hb, hafter⟩ := ih hlater
      exact ⟨a :: before, b, after, rfl, hb, hafter⟩
    · refine ⟨[], a, l, rfl, ?_, fun b hb hp => hlater ⟨b, hb, hp⟩⟩
      obtain ⟨b, hb, hp⟩ := h
      obtain rfl | hb := List.mem_cons.1 hb
      · exact hp
      · exact absurd ⟨b, hb, hp⟩ hlater

section

variable {L : Type*} {take spec : L → Option (K × V)}

/-- A table without the entries that `take` gives at any line after the last of a key. -/
theorem enterAll_filterMap_of_last {before after : List L} {line : L} {entry : K × V}
    (htake : take line = some entry)
    (hlast : ∀ later ∈ after, ∀ e, take later = some e → e.1 ≠ entry.1) (m : K → Option V) :
    enterAll ((before ++ line :: after).filterMap take) m entry.1 = some entry.2 := by
  have hnot : entry.1 ∉ (after.filterMap take).map Prod.fst := by
    intro hmem
    obtain ⟨e, he, hkey⟩ := List.mem_map.1 hmem
    obtain ⟨later, hlater, htaken⟩ := List.mem_filterMap.1 he
    exact hlast later hlater e htaken hkey
  rw [List.filterMap_append, List.filterMap_cons_some htake, enterAll_append, enterAll_cons,
    enterAll_of_not_mem hnot]
  exact Function.update_self _ _ _

/-- A value in the table comes from some line. -/
theorem exists_of_enterAll_eq_some {lines : List L} {k : K} {v : V}
    (h : enterAll (lines.filterMap take) (fun _ => none) k = some v) :
    ∃ line ∈ lines, take line = some (k, v) := by
  have hmem : k ∈ (lines.filterMap take).map Prod.fst := by
    by_contra hnot
    rw [enterAll_of_not_mem hnot] at h
    cases h
  obtain ⟨e, he, hkey⟩ := List.mem_map.1 hmem
  obtain ⟨line, hline, htake⟩ := List.mem_filterMap.1 he
  obtain ⟨before, last, after, hsplit, ⟨e', htake', hkey'⟩, hafter⟩ :=
    exists_last (p := fun line => ∃ e, take line = some e ∧ e.1 = k) ⟨line, hline, e, htake, hkey⟩
  have hlast : ∀ later ∈ after, ∀ e, take later = some e → e.1 ≠ e'.1 := by
    intro later hlater e₁ he₁ hsame
    exact hafter later hlater ⟨e₁, he₁, hsame.trans hkey'⟩
  have hvalue : enterAll ((before ++ last :: after).filterMap take) (fun _ => none) e'.1 =
      some e'.2 := enterAll_filterMap_of_last htake' hlast _
  rw [← hsplit, hkey', h] at hvalue
  refine ⟨last, hsplit ▸ by simp, ?_⟩
  rw [htake', Option.some.injEq, ← hkey', Option.some.inj hvalue]

/-- Where `take` gives an entry it has the key that `spec` asks for, and where it gives none
the value asked for is one that it never gives: then both fill the same table exactly when
they agree on the last line of each key. -/
theorem enterAll_filterMap_eq_iff
    (hkey : ∀ line e, take line = some e → ∃ v, spec line = some (e.1, v))
    (hnever : ∀ line e, take line = none → spec line = some e →
      ∀ line' e', take line' = some e' → e'.2 ≠ e.2) (lines : List L) :
    enterAll (lines.filterMap take) (fun _ => none) =
        enterAll (lines.filterMap spec) (fun _ => none) ↔
      ∀ before line after entry, lines = before ++ line :: after → spec line = some entry →
        (∀ later ∈ after, ∀ e, spec later = some e → e.1 ≠ entry.1) → take line = some entry := by
  have htakeLast {after : List L} {k : K}
      (hlast : ∀ later ∈ after, ∀ e, spec later = some e → e.1 ≠ k) :
      ∀ later ∈ after, ∀ e, take later = some e → e.1 ≠ k := by
    intro later hlater e he
    obtain ⟨v, hv⟩ := hkey later e he
    exact hlast later hlater (e.1, v) hv
  constructor
  · rintro h before line after entry rfl hspec hlast
    have hvalue := congrFun h entry.1
    rw [enterAll_filterMap_of_last hspec hlast] at hvalue
    cases htake : take line with
    | none =>
      obtain ⟨line', -, htake'⟩ := exists_of_enterAll_eq_some hvalue
      exact absurd rfl (hnever line entry htake hspec line' _ htake')
    | some e =>
      obtain ⟨v, hv⟩ := hkey line e htake
      rw [hspec, Option.some.injEq] at hv
      have hsame : e.1 = entry.1 := (congrArg Prod.fst hv).symm
      have hmine : enterAll ((before ++ line :: after).filterMap take) (fun _ => none) e.1 =
          some e.2 := enterAll_filterMap_of_last htake (hsame ▸ htakeLast hlast) _
      rw [hsame, hvalue, Option.some.injEq] at hmine
      rw [Prod.ext hsame hmine.symm]
  · intro h
    funext k
    by_cases hspec : ∃ line ∈ lines, ∃ e, spec line = some e ∧ e.1 = k
    · obtain ⟨before, line, after, hsplit, ⟨e, he, rfl⟩, hafter⟩ := exists_last hspec
      have hlast : ∀ later ∈ after, ∀ e', spec later = some e' → e'.1 ≠ e.1 :=
        fun later hlater e' he' hsame => hafter later hlater ⟨e', he', hsame⟩
      have htake := h before line after e hsplit he hlast
      rw [hsplit, enterAll_filterMap_of_last he hlast,
        enterAll_filterMap_of_last htake (htakeLast hlast)]
    · have hnone (f : L → Option (K × V)) (hf : ∀ line ∈ lines, ∀ e, f line = some e → e.1 ≠ k) :
          enterAll (lines.filterMap f) (fun _ => none) k = none := by
        by_contra hne
        obtain ⟨v, hv⟩ := Option.ne_none_iff_exists'.1 hne
        obtain ⟨line, hline, htaken⟩ := exists_of_enterAll_eq_some hv
        exact hf line hline _ htaken rfl
      have hspec' : ∀ line ∈ lines, ∀ e, spec line = some e → e.1 ≠ k :=
        fun line hline e he hsame => hspec ⟨line, hline, e, he, hsame⟩
      rw [hnone spec hspec', hnone take (htakeLast hspec')]

end

end Courses.Lib.Entries

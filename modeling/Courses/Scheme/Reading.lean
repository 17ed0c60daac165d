import Courses.Scheme.Lines
import Mathlib

/-!
# Reading the tokens of a value

The buffer is described by the tokens it has ahead up to the end of what is read and by
what follows them. Over that description the two readers take the tokens of a value and
return it.
-/
namespace Courses.Scheme

variable {P : Python} {tail : List Token} {more : List Text}

/-! ## What a buffer has ahead -/

/-- The rest of the current line and the source have the tokens `ts` ahead, the last of them on the
line on which `tail` follows it, and then the lines `more`. -/
inductive Ahead (P : Python) (tail : List Token) (more : List Text) :
    List Token → List Text → List Token → Prop
  | here (ts : List Token) : Ahead P tail more (ts ++ tail) more ts
  | line {line : Text} {source : List Text} {next ts : List Token} (current : List Token)
      (hnext : tokenizeLine P line = .ok next) (hne : ts ≠ [])
      (h : Ahead P tail more next source ts) :
      Ahead P tail more current (line :: source) (current ++ ts)

namespace Ahead

theorem done {current : List Token} {source : List Text} (h : Ahead P tail more current source []) :
    current = tail ∧ source = more := by
  generalize hs : ([] : List Token) = ts at h
  cases h with
  | here => exact ⟨by simp [← hs], rfl⟩
  | line current hnext hne h => exact absurd (List.append_eq_nil_iff.1 hs.symm).2 hne

theorem pop {t u : Token} {current ts : List Token} {source : List Text}
    (h : Ahead P tail more (t :: current) source (u :: ts)) : Ahead P tail more current source ts := by
  generalize hc : t :: current = c at h
  generalize hs : u :: ts = us at h
  cases h with
  | here =>
    subst hs
    obtain ⟨-, rfl⟩ := List.cons_eq_cons.1 hc
    exact here ts
  | line c hnext hne h =>
    subst hc
    obtain ⟨-, rfl⟩ := List.cons_eq_cons.1 hs
    exact line current hnext hne h

end Ahead

namespace Buffer

/-- The buffer has the tokens ahead. -/
def Holds (P : Python) (b : Buffer) (ts tail : List Token) (more : List Text) : Prop :=
  Ahead P tail more (b.currentLine.drop b.index) b.source ts

theorem currentFrom_some {b : Buffer} {t : Token} (h : b.currentLine[b.index]? = some t)
    (source : List Text) : currentFrom P source b = .ok (some t) b := by
  cases source <;> simp [currentFrom, h]

theorem currentFrom_ahead {t : Token} {ts current : List Token} {source : List Text}
    (h : Ahead P tail more current source (t :: ts)) : ∀ {b : Buffer},
      b.currentLine.drop b.index = current → b.source = source →
        ∃ b', currentFrom P source b = .ok (some t) b' ∧ b'.currentLine[b'.index]? = some t ∧
          b'.Holds P (t :: ts) tail more := by
  generalize hs : t :: ts = us at h
  induction h with
  | here us =>
    subst hs
    intro b hcurrent hsource
    have ht : b.currentLine[b.index]? = some t := by
      rw [← List.head?_drop, hcurrent]
      rfl
    refine ⟨b, currentFrom_some ht more, ht, ?_⟩
    rw [Holds, hcurrent, hsource]
    exact Ahead.here _
  | @line line source next ts' current hnext hne h ih =>
    intro b hcurrent hsource
    cases current with
    | nil =>
      have hnone : b.currentLine[b.index]? = none := by
        rw [← List.head?_drop, hcurrent]
        rfl
      -- The current line is used up: the next one is taken from the source.
      obtain ⟨b', hrun, ht, hholds⟩ := @ih hs ⟨0, b.lines ++ [next], source, next⟩ rfl rfl
      refine ⟨b', ?_, ht, hholds⟩
      rw [currentFrom]
      simp only [hnone, hnext]
      exact hrun
    | cons u current =>
      obtain ⟨rfl, rfl⟩ := List.cons_eq_cons.1 hs
      have ht : b.currentLine[b.index]? = some t := by
        rw [← List.head?_drop, hcurrent]
        rfl
      refine ⟨b, currentFrom_some ht _, ht, ?_⟩
      rw [Holds, hcurrent, hsource]
      exact Ahead.line (t :: current) hnext hne h

theorem current_holds {b : Buffer} {t : Token} {ts : List Token}
    (h : b.Holds P (t :: ts) tail more) :
    ∃ b', current P b = .ok (some t) b' ∧ b'.currentLine[b'.index]? = some t ∧
      b'.Holds P (t :: ts) tail more :=
  currentFrom_ahead h rfl rfl

theorem pop_holds {b : Buffer} {t : Token} {ts : List Token} (h : b.Holds P (t :: ts) tail more) :
    ∃ b', pop P b = .ok (some t) b' ∧ b'.Holds P ts tail more := by
  obtain ⟨b', hrun, ht, hholds⟩ := current_holds h
  refine ⟨{ b' with index := b'.index + 1 }, ?_, ?_⟩
  · simp [pop, bind, EStateM.bind, hrun, modify, modifyGet, MonadStateOf.modifyGet,
      EStateM.modifyGet, pure, EStateM.pure]
  · have hdrop : b'.currentLine.drop b'.index = t :: b'.currentLine.drop (b'.index + 1) := by
      obtain ⟨hlt, rfl⟩ := List.getElem?_eq_some_iff.1 ht
      exact List.drop_eq_getElem_cons hlt
    rw [Holds, hdrop] at hholds
    exact hholds.pop

end Buffer

/-! ## The readers -/

theorem IsAtom.not_delimiter {s : Text} (h : IsAtom P (.str s)) : isDelimiter s = false :=
  h.elim IsSymbol.not_delimiter IsLiteral.not_delimiter

theorem IsAtom.not_nil {s : Text} (h : IsAtom P (.str s)) : s ≠ nilText :=
  h.elim IsSymbol.not_nil IsLiteral.not_nil

section

variable {b : Buffer} {t : Token} {ts : List Token} (fuel : ℕ)

theorem schemeRead_atom (hatom : IsAtom P t) (h : b.Holds P (t :: ts) tail more) :
    ∃ b', schemeRead P (fuel + 1) b = .ok (.atom t) b' ∧ b'.Holds P ts tail more := by
  obtain ⟨b₁, hcurrent, -, hholds⟩ := Buffer.current_holds h
  obtain ⟨b₂, hpop, hdone⟩ := Buffer.pop_holds hholds
  refine ⟨b₂, ?_, hdone⟩
  rw [schemeRead]
  simp only [bind, EStateM.bind, hcurrent, hpop]
  cases t with
  | str s => simp [hatom.not_delimiter, hatom.not_nil, pure, EStateM.pure]
  | int n => rfl
  | float text => rfl
  | bool b => rfl

theorem schemeRead_open (h : b.Holds P (.str ['('] :: ts) tail more) :
    ∃ b', schemeRead P (fuel + 1) b = readTail P fuel b' ∧ b'.Holds P ts tail more := by
  obtain ⟨b₁, hcurrent, -, hholds⟩ := Buffer.current_holds h
  obtain ⟨b₂, hpop, hdone⟩ := Buffer.pop_holds hholds
  refine ⟨b₂, ?_, hdone⟩
  rw [schemeRead]
  simp only [bind, EStateM.bind, hcurrent, hpop]
  rfl

theorem readTail_close (h : b.Holds P (.str [')'] :: ts) tail more) :
    ∃ b', readTail P (fuel + 1) b = .ok .nil b' ∧ b'.Holds P ts tail more := by
  obtain ⟨b₁, hcurrent, -, hholds⟩ := Buffer.current_holds h
  obtain ⟨b₂, hpop, hdone⟩ := Buffer.pop_holds hholds
  refine ⟨b₂, ?_, hdone⟩
  rw [readTail, onEndOfFile]
  simp only [bind, EStateM.bind, hcurrent, if_true, hpop]
  rfl

/-- After a point, one atom and the closing parenthesis. -/
theorem readTail_dot (hatom : IsAtom P t)
    (h : b.Holds P (.str ['.'] :: t :: .str [')'] :: ts) tail more) :
    ∃ b', readTail P (fuel + 2) b = .ok (.atom t) b' ∧ b'.Holds P ts tail more := by
  obtain ⟨b₁, hcurrent, -, hholds⟩ := Buffer.current_holds h
  obtain ⟨b₂, hpop, hafter⟩ := Buffer.pop_holds hholds
  obtain ⟨b₃, hread, hclose⟩ := schemeRead_atom fuel hatom hafter
  obtain ⟨b₄, hcurrent', -, hclose'⟩ := Buffer.current_holds hclose
  obtain ⟨b₅, hpop', hdone⟩ := Buffer.pop_holds hclose'
  refine ⟨b₅, ?_, hdone⟩
  have hne : Token.str ['.'] ≠ .str [')'] := by decide
  rw [readTail, onEndOfFile]
  simp only [bind, EStateM.bind, hcurrent, if_neg hne, if_true, hpop, hread, hcurrent', ne_eq,
    not_true_eq_false, if_false, hpop']
  rfl

/-- An element and the rest of its list. -/
theorem readTail_pair {first rest : Value} {b₁ b₂ : Buffer} (hclose : t ≠ .str [')'])
    (hdot : t ≠ .str ['.']) (hcurrent : Buffer.current P b = .ok (some t) b₁)
    {b₃ : Buffer} (hfirst : schemeRead P fuel b₁ = .ok first b₂)
    (hrest : readTail P fuel b₂ = .ok rest b₃) :
    readTail P (fuel + 1) b = .ok (.pair first rest) b₃ := by
  rw [readTail, onEndOfFile]
  simp only [bind, EStateM.bind, hcurrent, if_neg hclose, if_neg hdot, hfirst, hrest]
  rfl

end

namespace Value

/-- The tokens of the text of a value. -/
abbrev tokens (v : Value) : List Token := Piece.tokens v.pieces

/-- Every value's text begins with an atom or an opening parenthesis. -/
theorem tokens_cons {v : Value} (h : IsPlain P v) : ∃ t ts, v.tokens = t :: ts ∧
    t ≠ .str [')'] ∧ t ≠ .str ['.'] := by
  cases v with
  | atom t =>
    have hatom := (h t (by simp [atoms])).1
    refine ⟨t, [], rfl, ?_, ?_⟩
    · rintro rfl
      exact absurd hatom.not_delimiter (by decide)
    · rintro rfl
      exact absurd hatom.not_delimiter (by decide)
  | nil => exact ⟨_, _, rfl, by decide, by decide⟩
  | pair first second => exact ⟨_, _, rfl, by decide, by decide⟩

def size : Value → ℕ
  | .atom _ => 1
  | .nil => 1
  | .pair first second => first.size + second.size + 1

theorem size_pos (v : Value) : 0 < v.size := by
  cases v <;> simp [size]

/-- Both readers take the tokens of a value that they can build, and return it. -/
theorem read_tokens {v : Value} (h : IsPlain P v) :
    (∀ {fuel : ℕ} {b : Buffer} {ts : List Token}, 2 * v.size ≤ fuel →
      b.Holds P (v.tokens ++ ts) tail more →
        ∃ b', schemeRead P fuel b = .ok v b' ∧ b'.Holds P ts tail more) ∧
    (∀ {fuel : ℕ} {b : Buffer} {ts : List Token}, 2 * v.size ≤ fuel + 1 →
      b.Holds P (Piece.tokens v.piecesRest ++ ts) tail more →
        ∃ b', readTail P (fuel + 1) b = .ok v b' ∧ b'.Holds P ts tail more) := by
  induction v with
  | atom t =>
    have hatom := (h t (by simp [atoms])).1
    constructor
    · intro fuel b ts hfuel hb
      obtain ⟨fuel, rfl⟩ : ∃ n, fuel = n + 1 := ⟨fuel - 1, by simp only [size] at hfuel; omega⟩
      exact schemeRead_atom fuel hatom hb
    · intro fuel b ts hfuel hb
      obtain ⟨fuel, rfl⟩ : ∃ n, fuel = n + 1 := ⟨fuel - 1, by simp only [size] at hfuel; omega⟩
      exact readTail_dot fuel hatom hb
  | nil =>
    constructor
    · intro fuel b ts hfuel hb
      obtain ⟨fuel, rfl⟩ : ∃ n, fuel = n + 2 := ⟨fuel - 2, by simp only [size] at hfuel; omega⟩
      obtain ⟨b₁, hopen, hclose⟩ := schemeRead_open (fuel + 1) hb
      obtain ⟨b₂, hread, hdone⟩ := readTail_close fuel hclose
      exact ⟨b₂, hopen.trans hread, hdone⟩
    · intro fuel b ts _ hb
      exact readTail_close fuel hb
  | pair first second ihfirst ihsecond =>
    have ihfirst := ihfirst h.first
    have ihsecond := ihsecond h.second
    -- The rest of a list that begins with `first` is read the same way in both readers.
    have hrest : ∀ {fuel : ℕ} {b : Buffer} {ts : List Token},
        2 * first.size + 2 * second.size ≤ fuel →
        b.Holds P (first.tokens ++ (Piece.tokens second.piecesRest ++ ts)) tail more →
          ∃ b', readTail P (fuel + 1) b = .ok (.pair first second) b' ∧
            b'.Holds P ts tail more := by
      intro fuel b ts hfuel hb
      have hpos := second.size_pos
      obtain ⟨t, us, htokens, hclose, hdot⟩ := tokens_cons h.first
      rw [htokens, List.cons_append] at hb
      obtain ⟨b₁, hcurrent, -, hholds⟩ := Buffer.current_holds hb
      rw [← List.cons_append, ← htokens] at hholds
      obtain ⟨b₂, hfirst, hb₂⟩ := ihfirst.1 (by omega : 2 * first.size ≤ fuel) hholds
      obtain ⟨fuel, rfl⟩ : ∃ n, fuel = n + 1 := ⟨fuel - 1, by omega⟩
      obtain ⟨b₃, hsecond, hb₃⟩ := ihsecond.2 (by omega : 2 * second.size ≤ fuel + 1) hb₂
      exact ⟨b₃, readTail_pair (fuel + 1) hclose hdot hcurrent hfirst hsecond, hb₃⟩
    constructor
    · intro fuel b ts hfuel hb
      simp only [size] at hfuel
      obtain ⟨fuel, rfl⟩ : ∃ n, fuel = n + 2 := ⟨fuel - 2, by omega⟩
      simp only [tokens, pieces, Piece.tokens, Piece.tokens_append, List.cons_append,
        List.append_assoc] at hb
      obtain ⟨b₁, hopen, hb₁⟩ := schemeRead_open (fuel + 1) hb
      obtain ⟨b₂, hread, hb₂⟩ := hrest (by omega : 2 * first.size + 2 * second.size ≤ fuel) hb₁
      exact ⟨b₂, hopen.trans hread, hb₂⟩
    · intro fuel b ts hfuel hb
      simp only [size] at hfuel
      simp only [piecesRest, Piece.tokens, Piece.tokens_append, List.append_assoc] at hb
      exact hrest (by omega) hb

end Value

end Courses.Scheme

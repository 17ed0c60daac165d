import Courses.Scheme.Reading

/-!
# Reading back what was printed

Every value that the reader returns is made of atoms, whatever the buffer was before and
whether or not the reader had raised on it. The text of such a value without floating-point
numbers is read back from any lines it is split over.
-/
namespace Courses.Scheme

variable {P : Python} {tail : List Token} {more : List Text}

/-! ## What the readers return -/

/-- The tokens of the current line come from a line. -/
def Buffer.IsTokenized (P : Python) (b : Buffer) : Prop := ∀ t ∈ b.currentLine, Readable P t

/-- A program that keeps the buffer tokenized, also when it raises, and returns only values
with `Q`. -/
def Keeps {α : Type} (P : Python) (x : ReadM α) (Q : α → Prop) : Prop :=
  ∀ b : Buffer, b.IsTokenized P →
    match x b with
    | .ok a b' => b'.IsTokenized P ∧ Q a
    | .error _ b' => b'.IsTokenized P

namespace Keeps

variable {α β : Type} {x : ReadM α} {Q : α → Prop}

theorem pure {a : α} (h : Q a) : Keeps P (pure a : ReadM α) Q := fun _ hb => ⟨hb, h⟩

theorem throw (e : ReadError) : Keeps P (throw e : ReadM α) Q := fun _ hb => hb

theorem bind {R : β → Prop} {k : α → ReadM β} (hx : Keeps P x Q)
    (hk : ∀ a, Q a → Keeps P (k a) R) : Keeps P (x >>= k) R := by
  intro b hb
  have hrun := hx b hb
  simp only [Bind.bind, EStateM.bind]
  cases hresult : x b with
  | ok a b' =>
    rw [hresult] at hrun
    exact hk a hrun.2 b' hrun.1
  | error e b' =>
    rw [hresult] at hrun
    exact hrun

theorem onEndOfFile (hx : Keeps P x Q) : Keeps P (onEndOfFile x) Q := by
  intro b hb
  have hrun := hx b hb
  rw [Scheme.onEndOfFile]
  cases hresult : x b with
  | ok a b' =>
    rw [hresult] at hrun
    exact hrun
  | error e b' =>
    rw [hresult] at hrun
    cases e <;> exact hrun

theorem currentFrom : ∀ source : List Text,
    Keeps P (Buffer.currentFrom P source) fun a => ∀ t ∈ a, Readable P t := by
  have hfound : ∀ {b : Buffer} {t : Token}, b.IsTokenized P → b.currentLine[b.index]? = some t →
      Readable P t := fun hb ht => hb _ (List.mem_of_getElem? ht)
  intro source
  induction source with
  | nil =>
    intro b hb
    rw [Buffer.currentFrom]
    cases ht : b.currentLine[b.index]? with
    | some t => exact ⟨hb, fun u hu => by cases hu; exact hfound hb ht⟩
    | none => exact ⟨by simp [Buffer.IsTokenized], by simp⟩
  | cons line source ih =>
    intro b hb
    rw [Buffer.currentFrom]
    cases ht : b.currentLine[b.index]? with
    | some t => exact ⟨hb, fun u hu => by cases hu; exact hfound hb ht⟩
    | none =>
      cases hline : tokenizeLine P line with
      | error e => exact hb
      | ok ts => exact ih _ (tokenizeLine_readable hline)

theorem current : Keeps P (Buffer.current P) fun a => ∀ t ∈ a, Readable P t :=
  fun b hb => currentFrom b.source b hb

theorem pop : Keeps P (Buffer.pop P) fun a => ∀ t ∈ a, Readable P t := by
  refine current.bind fun a ha => ?_
  have hmodify : Keeps P (modify fun b => { b with index := b.index + 1 } : ReadM Unit)
      fun _ => True := fun b hb => ⟨hb, trivial⟩
  exact hmodify.bind fun _ _ => pure ha

end Keeps

/-- All atoms of a value are ones that a line can have. -/
def Value.IsRead (P : Python) (v : Value) : Prop := ∀ t ∈ v.atoms, IsAtom P t

theorem Value.IsRead.pair {first second : Value} (hfirst : first.IsRead P)
    (hsecond : second.IsRead P) : (Value.pair first second).IsRead P := by
  intro t ht
  rcases List.mem_append.1 ht with ht | ht
  · exact hfirst t ht
  · exact hsecond t ht

theorem Value.isRead_nil : Value.nil.IsRead P := by
  simp [Value.IsRead, Value.atoms]

theorem Value.isRead_atom {t : Token} (h : IsAtom P t) : (Value.atom t).IsRead P := by
  simpa [Value.IsRead, Value.atoms] using h

theorem isAtom_quote : IsAtom P (.str quoteText) := by
  refine Or.inl ⟨by decide, by decide, by decide, by decide, by decide, by decide, ?_⟩
  have hstart : quoteText.head?.any numeralStart = false := by decide
  simp [number, hstart]

theorem reads_keep (fuel : ℕ) : Keeps P (schemeRead P fuel) (Value.IsRead P) ∧
    Keeps P (readTail P fuel) (Value.IsRead P) := by
  induction fuel with
  | zero => exact ⟨Keeps.throw _, Keeps.throw _⟩
  | succ fuel ih =>
    obtain ⟨ihread, ihtail⟩ := ih
    constructor
    · rw [schemeRead]
      refine Keeps.current.bind fun a _ => ?_
      cases a with
      | none => exact Keeps.throw _
      | some _ =>
        refine Keeps.pop.bind fun val hval => ?_
        cases val with
        | none => exact Keeps.throw _
        | some val =>
          have hreadable := hval val rfl
          cases val with
          | str s =>
            dsimp only
            split_ifs with hnil hdelimiter hquote hopen
            · exact Keeps.pure Value.isRead_nil
            · -- A string that is neither `nil` nor a delimiter is an atom.
              rcases hreadable with hatom | ⟨s', hs', hother⟩
              · exact Keeps.pure (Value.isRead_atom hatom)
              · cases hs'
                simp_all
            · exact ihread.bind fun v hv => Keeps.pure
                ((Value.isRead_atom isAtom_quote).pair (hv.pair Value.isRead_nil))
            · exact ihtail
            · exact Keeps.throw _
          | int n => exact Keeps.pure (Value.isRead_atom trivial)
          | float text => exact Keeps.pure (Value.isRead_atom trivial)
          | bool b => exact Keeps.pure (Value.isRead_atom trivial)
    · rw [readTail]
      refine Keeps.onEndOfFile (Keeps.current.bind fun a _ => ?_)
      cases a with
      | none => exact Keeps.throw _
      | some t =>
        dsimp only
        split_ifs with hclose hdot
        · exact Keeps.pop.bind fun _ _ => Keeps.pure Value.isRead_nil
        · refine Keeps.pop.bind fun _ _ => ihread.bind fun after hafter => ?_
          refine Keeps.current.bind fun next _ => ?_
          split_ifs
          · exact Keeps.throw _
          · exact Keeps.pop.bind fun _ _ => Keeps.pure hafter
        · exact ihread.bind fun first hfirst => ihtail.bind fun rest hrest =>
            Keeps.pure (hfirst.pair hrest)

/-- The buffers that a program can hand to the reader: new ones, and what the reader has left,
whether it returned or raised. -/
inductive Buffer.Reachable (P : Python) : Buffer → Prop
  | new {source : List Text} {a : Option Token} {b : Buffer} (h : Buffer.new P source = .ok a b) :
      Reachable P b
  | read {b b' : Buffer} {fuel : ℕ} {v : Value} (hb : Reachable P b)
      (h : schemeRead P fuel b = .ok v b') : Reachable P b'
  | raised {b b' : Buffer} {fuel : ℕ} {e : ReadError} (hb : Reachable P b)
      (h : schemeRead P fuel b = .error e b') : Reachable P b'

theorem Buffer.Reachable.isTokenized {b : Buffer} (h : Reachable P b) : b.IsTokenized P := by
  induction h with
  | @new source a b h =>
    have hempty : (⟨0, [], source, []⟩ : Buffer).IsTokenized P := by simp [IsTokenized]
    have hrun := Keeps.current _ hempty
    rw [Buffer.new] at h
    rw [h] at hrun
    exact hrun.1
  | @read b b' fuel v hb h ih =>
    have hrun := (reads_keep fuel).1 b ih
    rw [h] at hrun
    exact hrun.1
  | @raised b b' fuel e hb h ih =>
    have hrun := (reads_keep fuel).1 b ih
    rw [h] at hrun
    exact hrun

/-- The values that the reader can produce. -/
def Value.Produced (P : Python) (v : Value) : Prop :=
  ∃ b fuel b', Buffer.Reachable P b ∧ schemeRead P fuel b = .ok v b'

theorem Value.Produced.isRead {v : Value} (h : v.Produced P) : v.IsRead P := by
  obtain ⟨b, fuel, b', hb, hread⟩ := h
  have hrun := (reads_keep fuel).1 b hb.isTokenized
  rw [hread] at hrun
  exact hrun.2

/-! ## The text of a value over several lines -/

/-- The pieces are split over the lines: a line ends between two pieces, where the blank between
them may be given up for the white space at the end of the line, and the last token is on the line
`last`. -/
inductive SplitOver (P : Python) : List Piece → List Text → Text → Prop
  | last (ps : List Piece) (h : Piece.tokens ps ≠ []) : SplitOver P ps [] (Piece.texts P ps)
  | line {ps : List Piece} {lines : List Text} {last : Text} (line gap : List Piece) (ending : Text)
      (hgap : ∀ p ∈ gap, p = .blank) (hending : ending.all whitespace = true)
      (h : SplitOver P ps lines last) :
      SplitOver P (line ++ (gap ++ ps)) ((Piece.texts P line ++ ending) :: lines) last

theorem SplitOver.tokens_ne_nil {ps : List Piece} {lines : List Text} {last : Text}
    (h : SplitOver P ps lines last) : Piece.tokens ps ≠ [] := by
  induction h with
  | last ps h => exact h
  | line line gap ending hgap hending h ih => simp [ih]

theorem Piece.tokens_blanks {ps : List Piece} (h : ∀ p ∈ ps, p = .blank) : tokens ps = [] := by
  induction ps with
  | nil => rfl
  | cons p ps ih =>
    obtain rfl := h p (by simp)
    exact ih fun q hq => h q (by simp [hq])

theorem Ahead.prepend {source : List Text} {ts : List Token} (h : Ahead P tail more [] source ts)
    (hne : ts ≠ []) (current : List Token) : Ahead P tail more current source (current ++ ts) := by
  generalize hc : ([] : List Token) = c at h
  cases h with
  | here => exact absurd (List.append_eq_nil_iff.1 hc.symm).1 hne
  | line c hnext hne' h =>
    subst hc
    exact Ahead.line current hnext hne' h

theorem SplitOver.ahead {ps : List Piece} {lines : List Text} {last rest : Text}
    (h : SplitOver P ps lines last) (hprinted : ∀ p ∈ ps, Piece.IsPrinted P p)
    (hseparated : Piece.Separated P ps rest) (hrest : tokenizeLine P rest = .ok tail) :
    Ahead P tail more [] (lines ++ (last ++ rest) :: more) (Piece.tokens ps) := by
  induction h with
  | last ps hne =>
    have hline := Piece.tokenizeLine_texts hprinted hseparated hrest
    exact Ahead.line [] hline hne (Ahead.here _)
  | @line ps lines last line gap ending hgap hending h ih =>
    obtain ⟨hline, hps⟩ := Piece.separated_append.1 hseparated
    obtain ⟨-, hps⟩ := Piece.separated_append.1 hps
    have ih := ih (fun p hp => hprinted p (by simp [hp])) hps
    have htokens := Piece.tokenizeLine_texts (fun p hp => hprinted p (by simp [hp]))
      (hline.of_ends (ends_blanks hending)) (tokenizeLine_blanks hending)
    have hne := h.tokens_ne_nil
    simp only [Piece.tokens_append, Piece.tokens_blanks hgap, List.nil_append, List.append_nil]
      at htokens ⊢
    exact Ahead.line [] htokens (by simp [hne]) (ih.prepend hne _)

/-! ## The round trip -/

/-- The text of a value that the reader can produce is read back, split over lines in any way, and
the buffer is then at the further input. The text of a number, a boolean or a symbol has no end of
its own, so the further input must begin with one. -/
theorem schemeRead_print {v : Value} (hproduced : v.Produced P)
    (hfloat : ∀ t ∈ v.atoms, t.isFloat = false) {lines : List Text} {last : Text}
    (hsplit : SplitOver P v.pieces lines last) {rest : Text} {further : List Token}
    (hrest : tokenizeLine P rest = .ok further) (hends : v.isWord = true → Ends rest)
    (more : List Text) {fuel : ℕ} (hfuel : 2 * v.size ≤ fuel) :
    Piece.texts P v.pieces = v.print P ∧
      ∃ a b b', Buffer.new P (lines ++ (last ++ rest) :: more) = .ok a b ∧
        schemeRead P fuel b = .ok v b' ∧
        b'.currentLine.drop b'.index = further ∧ b'.source = more := by
  have hplain : v.IsPlain P := fun t ht => ⟨hproduced.isRead t ht, hfloat t ht⟩
  refine ⟨v.texts_pieces, ?_⟩
  have hahead : (⟨0, [], lines ++ (last ++ rest) :: more, []⟩ : Buffer).Holds P v.tokens
      further more :=
    hsplit.ahead (Value.isPrinted_pieces hplain) (Value.separated_pieces hplain hends) hrest
  obtain ⟨t, ts, htokens, -⟩ := Value.tokens_cons hplain
  rw [htokens] at hahead
  obtain ⟨b, hnew, -, hb⟩ := Buffer.current_holds hahead
  rw [← htokens, ← List.append_nil v.tokens] at hb
  obtain ⟨b', hread, hb'⟩ := (Value.read_tokens hplain).1 hfuel hb
  exact ⟨some t, b, b', hnew, hread, hb'.done⟩

/-- Python over the characters of ASCII. -/
def Python.ascii : Python where
  decimal c := if c.isDigit then some (c.toNat - 48) else none
  space c := whitespace c || c == Char.ofNat 11 || c == Char.ofNat 12
  floatStr := id
  decimal_digit := by decide
  decimal_symbolChar := by
    intro c _ hdigit
    simp [hdigit]
  space_symbolChar := by
    intro c hc
    have hend := tokenEnd_of_symbolChar hc
    simp only [tokenEnd, Bool.or_eq_false_iff] at hend
    have htab : c ≠ Char.ofNat 11 ∧ c ≠ Char.ofNat 12 := by
      constructor <;> rintro rfl <;> exact absurd hc (by decide)
    simp [hend, htab]

/-- The value that `(A "x" . -12)` is read as. -/
def dotted : Value :=
  .pair (.atom (.str ['a'])) (.pair (.atom (.str [doubleQuote, 'x', doubleQuote])) (.atom (.int (-12))))

theorem schemeRead_print_dotted :
    ∃ a b b', Buffer.new .ascii
        [Piece.texts .ascii (dotted.pieces.take 2) ++ ['\n'],
          Piece.texts .ascii (dotted.pieces.drop 3) ++ ['b'], ['c']] = .ok a b ∧
      schemeRead .ascii 10 b = .ok dotted b' ∧
      b'.currentLine.drop b'.index = [.str ['b']] ∧ b'.source = [['c']] := by
  have hproduced : dotted.Produced .ascii :=
    ⟨⟨0, [[.str ['('], .str ['a'], .str [doubleQuote, 'x', doubleQuote], .str ['.'], .int (-12),
        .str [')']]], [], [.str ['('], .str ['a'], .str [doubleQuote, 'x', doubleQuote], .str ['.'],
        .int (-12), .str [')']]⟩, 10, _,
      @Buffer.Reachable.new .ascii [['(', 'A', ' ', doubleQuote, 'x', doubleQuote, ' ', '.', ' ', '-',
        '1', '2', ')']] _ _ rfl, rfl⟩
  have hsplit : SplitOver .ascii dotted.pieces
      [Piece.texts .ascii (dotted.pieces.take 2) ++ ['\n']]
      (Piece.texts .ascii (dotted.pieces.drop 3)) :=
    SplitOver.line (dotted.pieces.take 2) [.blank] ['\n'] (by simp) (by decide)
      (SplitOver.last (dotted.pieces.drop 3) (by decide))
  exact (schemeRead_print hproduced (by decide) hsplit
    (rfl : tokenizeLine .ascii ['b'] = .ok [.str ['b']]) (by decide) [['c']]
    (by decide : 2 * dotted.size ≤ 10)).2

/-- The text of an integer with more digits right after it is the text of another one. -/
theorem schemeRead_joined :
    (Value.atom (.int 12)).Produced .ascii ∧ (Value.atom (.int 12)).print .ascii = ['1', '2'] ∧
      tokenizeLine .ascii ['3', '4'] = .ok [.int 34] ∧
      ∃ a b, Buffer.new .ascii [['1', '2'] ++ ['3', '4']] = .ok a b ∧
        ∀ fuel b', schemeRead .ascii fuel b ≠ .ok (.atom (.int 12)) b' := by
  refine ⟨⟨⟨0, [[.int 12]], [], [.int 12]⟩, 1, _, @Buffer.Reachable.new .ascii [['1', '2']] _ _ rfl,
    rfl⟩, ?_, rfl, some (.int 1234), ⟨0, [[.int 1234]], [], [.int 1234]⟩, rfl, ?_⟩
  · simp [Value.print, Token.print, intStr, Courses.Lib.decimal]
  · intro fuel b' h
    cases fuel with
    | zero => cases h
    | succ fuel =>
      have hread : schemeRead .ascii (fuel + 1) ⟨0, [[.int 1234]], [], [.int 1234]⟩ =
          .ok (.atom (.int 1234)) ⟨1, [[.int 1234]], [], [.int 1234]⟩ := by
        rw [schemeRead]
        rfl
      rw [hread] at h
      cases h

end Courses.Scheme

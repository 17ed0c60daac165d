import Mathlib.Tactic

/-!
# Iterators that are pulled

An iterator is an object with a state of its own that is opened, asked for its next
element, rewound and closed. It may read one element ahead and hold it back. `Serves` is
what a user of such an iterator can rely on: after the first opening it gives a fixed list,
and rewinding or opening it again starts over, except that an element held back stays
there. Operators that pull from other iterators are verified against it one at a time.
-/
namespace Courses.Lib

/-- Why a call does not return. -/
inductive Fault (ε : Type)
  | thrown (e : ε)
  | noSuchElement
  /-- a loop does not end -/
  | diverges

structure PullIter (ε α : Type) where
  State : Type
  start : State
  openIt : State → Except (Fault ε) State
  hasNext : State → Except (Fault ε) (Bool × State)
  /-- nothing for the exception that there are no more elements -/
  next : State → Except (Fault ε) (Option α × State)
  rewind : State → Except (Fault ε) State
  close : State → State
  /-- the element read ahead -/
  held : State → Option α
  /-- at least as many as the elements still to come -/
  left : State → ℕ

variable {ε α β : Type}

namespace PullIter

variable (I : PullIter ε α)

/-- At most `n` rounds of `while (hasNext()) body(next())`. -/
def loop (body : β → α → Except (Fault ε) β) :
    ℕ → β → I.State → Except (Fault ε) (β × I.State)
  | 0, _, _ => .error .diverges
  | n + 1, acc, s =>
    match I.hasNext s with
    | .error e => .error e
    | .ok (false, s) => .ok (acc, s)
    | .ok (true, s) =>
      match I.next s with
      | .error e => .error e
      | .ok (none, _) => .error .noSuchElement
      | .ok (some a, s) =>
        match body acc a with
        | .error e => .error e
        | .ok acc => loop body n acc s

/-- The loop, with as many rounds as it can need. -/
def forEach (body : β → α → Except (Fault ε) β) (acc : β) (s : I.State) :
    Except (Fault ε) (β × I.State) :=
  I.loop body (I.left s + 1) acc s

def collect (acc : List α) (a : α) : Except (Fault ε) (List α) := .ok (acc ++ [a])

/-- All that is still to come. -/
def drain (s : I.State) : Except (Fault ε) (List α) := (I.forEach collect [] s).map Prod.fst

/-- A call by the user between opening and restarting. -/
inductive Call
  | hasNext
  | next

/-- What a call answers; nothing from `next` for its exception. -/
inductive Answer (α : Type)
  | hasNext (more : Bool)
  | next (a : Option α)

def call (s : I.State) : Call → Except (Fault ε) (Answer α × I.State)
  | .hasNext => (I.hasNext s).map fun r => (.hasNext r.1, r.2)
  | .next => (I.next s).map fun r => (.next r.1, r.2)

def calls (s : I.State) : List Call → Except (Fault ε) (List (Answer α) × I.State)
  | [] => .ok ([], s)
  | c :: cs =>
    match I.call s c with
    | .error e => .error e
    | .ok (a, s) => (calls s cs).map fun r => (a :: r.1, r.2)

/-- The answers of an iterator that walks along a list. -/
def answers (pending : List α) : List Call → List (Answer α)
  | [] => []
  | .hasNext :: cs => .hasNext (!pending.isEmpty) :: answers pending cs
  | .next :: cs => .next pending.head? :: answers pending.tail cs

/-! ### An iterator that is only drained -/

/-- Asked before each element whether there is one, the iterator gives `ts` and then there is
nothing more, or the last question fails. -/
inductive Gives : I.State → List α → Except (Fault ε) Unit → Prop
  | done {s s'} : I.hasNext s = .ok (false, s') → Gives s [] (.ok ())
  | fail {s e} : I.hasNext s = .error e → Gives s [] (.error e)
  | more {s s₁ s₂ a ts r} : I.hasNext s = .ok (true, s₁) → I.next s₁ = .ok (some a, s₂) →
      Gives s₂ ts r → Gives s (a :: ts) r

variable {I} {s : I.State} {ts : List α} {r : Except (Fault ε) Unit}

theorem loop_of_gives {body : β → α → Except (Fault ε) β} {n : ℕ} {acc : β}
    (h : Gives I s ts r) (hn : ts.length < n) :
    (I.loop body n acc s).map Prod.fst =
      (ts.foldlM body acc).bind fun acc => r.map fun _ => acc := by
  induction h generalizing n acc with
  | done hhas =>
    obtain ⟨n, rfl⟩ := Nat.exists_eq_succ_of_ne_zero (Nat.ne_zero_of_lt hn)
    simp [loop, hhas, Except.map, Except.bind, pure, Except.pure]
  | fail hhas =>
    obtain ⟨n, rfl⟩ := Nat.exists_eq_succ_of_ne_zero (Nat.ne_zero_of_lt hn)
    simp [loop, hhas, Except.map, Except.bind, pure, Except.pure]
  | @more _ _ _ a ts r hhas hnext _ ih =>
    obtain ⟨n, rfl⟩ := Nat.exists_eq_succ_of_ne_zero (Nat.ne_zero_of_lt hn)
    cases hbody : body acc a with
    | error e => simp [loop, hhas, hnext, hbody, Except.map, bind, Except.bind]
    | ok acc =>
      have hrest := @ih n acc (Nat.lt_of_succ_lt_succ hn)
      simpa [loop, hhas, hnext, hbody, bind, Except.bind] using hrest

theorem foldlM_collect (acc : List α) :
    ts.foldlM (collect (ε := ε)) acc = .ok (acc ++ ts) := by
  induction ts generalizing acc with
  | nil => simp [pure, Except.pure]
  | cons a ts ih => simp [collect, bind, Except.bind, ih]

theorem drain_of_gives (h : Gives I s ts r) (hleft : ts.length ≤ I.left s) :
    I.drain s = r.map fun _ => ts := by
  have hloop : I.drain s = _ := loop_of_gives h (Nat.lt_succ_of_le hleft)
  rw [hloop, foldlM_collect]
  rfl

end PullIter

/-- How the elements change when an iterator is opened again: not at all if it keeps nothing,
and otherwise there are more of them, if there are any. -/
def Regrown (plain : Prop) (all all' : List α) : Prop :=
  (plain → all' = all) ∧ (¬ plain → all ≠ [] → all.length < all'.length)

/-- The iterator gives the list `ts`. In a state `At s held rest all` it holds back `held`, then
`rest` comes, and it would start over with `all`. -/
structure Serves (I : PullIter ε α) (ts : List α) (plain : Prop) where
  At : I.State → Option α → List α → List α → Prop
  Closed : I.State → Option α → List α → Prop
  held_eq {s h rest all} : At s h rest all → I.held s = h
  left_ge {s h rest all} : At s h rest all → (h.toList ++ rest).length ≤ I.left s
  same {s h rest all} : At s h rest all → ∀ x, x ∈ all ↔ x ∈ ts
  rest_mem {s h rest all} : At s h rest all → ∀ x ∈ h.toList ++ rest, x ∈ all
  hasNext_ok {s h rest all} : At s h rest all → ∃ s' h' rest',
    I.hasNext s = .ok (!(h.toList ++ rest).isEmpty, s') ∧ At s' h' rest' all ∧
      h'.toList ++ rest' = h.toList ++ rest
  next_none {s h rest all} : At s h rest all → h.toList ++ rest = [] →
    ∃ s', I.next s = .ok (none, s') ∧ At s' none [] all
  next_some {s h rest all a more} : At s h rest all → h.toList ++ rest = a :: more →
    ∃ s', I.next s = .ok (some a, s') ∧ At s' none more all
  rewind_ok {s h rest all} : At s h rest all → ∃ s', I.rewind s = .ok s' ∧ At s' h all all
  start_ok : ∃ s, I.openIt I.start = .ok s ∧ At s none ts ts
  close_ok {s h rest all} : At s h rest all → Closed (I.close s) h all
  reopen_ok {s h rest all} : At s h rest all →
    ∃ s' all', I.openIt s = .ok s' ∧ At s' h all' all' ∧ Regrown plain all all'
  reopen_closed {s h all} : Closed s h all →
    ∃ s' all', I.openIt s = .ok s' ∧ At s' h all' all' ∧ Regrown plain all all'

namespace Serves

variable {I : PullIter ε α} {ts : List α} {plain : Prop} (S : Serves I ts plain)
  {s : I.State} {h : Option α} {rest all : List α}

/-- The rule for a loop over an iterator: what holds of the elements seen so far and the
accumulator is kept by the body. -/
theorem loop_ok {body : β → α → Except (Fault ε) β} {J : List α → β → Prop} {seen : List α}
    {acc : β} {n : ℕ}
    (hbody : ∀ seen acc a, J seen acc → a ∈ ts → ∃ acc', body acc a = .ok acc' ∧
      J (seen ++ [a]) acc')
    (hat : S.At s h rest all) (hn : (h.toList ++ rest).length < n) (hJ : J seen acc) :
    ∃ acc' s', I.loop body n acc s = .ok (acc', s') ∧ J (seen ++ (h.toList ++ rest)) acc' ∧
      S.At s' none [] all := by
  induction n generalizing s h rest seen acc with
  | zero => exact absurd hn (Nat.not_lt_zero _)
  | succ n ih =>
    obtain ⟨s₁, h₁, rest₁, hhas, hat₁, hpending⟩ := S.hasNext_ok hat
    cases hlist : h.toList ++ rest with
    | nil =>
      rw [hlist] at hhas hpending
      obtain ⟨hnone, rfl⟩ := List.append_eq_nil_iff.1 hpending
      obtain rfl : h₁ = none := Option.toList_eq_nil_iff.1 hnone
      refine ⟨acc, s₁, ?_, by rwa [List.append_nil], hat₁⟩
      simp [PullIter.loop, hhas]
    | cons a more =>
      rw [hlist] at hhas hpending hn
      obtain ⟨s₂, hnext, hat₂⟩ := S.next_some hat₁ hpending
      have ha : a ∈ ts := (S.same hat₁ a).1 (S.rest_mem hat₁ a (by simp [hpending]))
      obtain ⟨acc₁, hacc, hJ₁⟩ := hbody seen acc a hJ ha
      obtain ⟨acc', s', hloop, hJ', hend⟩ := ih hat₂ (Nat.lt_of_succ_lt_succ hn) hJ₁
      refine ⟨acc', s', ?_, by simpa using hJ', hend⟩
      simpa [PullIter.loop, hhas, hnext, hacc] using hloop

theorem forEach_ok {body : β → α → Except (Fault ε) β} {J : List α → β → Prop} {acc : β}
    (hbody : ∀ seen acc a, J seen acc → a ∈ ts → ∃ acc', body acc a = .ok acc' ∧
      J (seen ++ [a]) acc')
    (hat : S.At s h rest all) (hJ : J [] acc) :
    ∃ acc' s', I.forEach body acc s = .ok (acc', s') ∧ J (h.toList ++ rest) acc' ∧
      S.At s' none [] all := by
  have hn := Nat.lt_succ_of_le (S.left_ge hat)
  have hloop := S.loop_ok hbody hat hn hJ
  rwa [List.nil_append] at hloop

theorem drain_ok (hat : S.At s h rest all) : I.drain s = .ok (h.toList ++ rest) := by
  have hbody : ∀ (seen acc : List α) (a : α), acc = seen → a ∈ ts →
      ∃ acc', (PullIter.collect acc a : Except (Fault ε) (List α)) = .ok acc' ∧
        acc' = seen ++ [a] := by
    rintro seen acc a rfl -
    exact ⟨acc ++ [a], rfl, rfl⟩
  obtain ⟨acc, s', hloop, rfl, -⟩ := S.forEach_ok hbody hat rfl
  simp [PullIter.drain, hloop, Except.map]

include S in
theorem open_drain : (I.openIt I.start).bind I.drain = .ok ts := by
  obtain ⟨s, hopen, hat⟩ := S.start_ok
  rw [hopen]
  exact S.drain_ok hat

/-- The user's calls walk along the list. -/
theorem calls_ok (cs : List PullIter.Call) (hat : S.At s h rest all) :
    ∃ s' h' rest', I.calls s cs = .ok (PullIter.answers (h.toList ++ rest) cs, s') ∧
      S.At s' h' rest' all := by
  induction cs generalizing s h rest with
  | nil => exact ⟨s, h, rest, rfl, hat⟩
  | cons c cs ih =>
    cases c with
    | hasNext =>
      obtain ⟨s₁, h₁, rest₁, hhas, hat₁, hpending⟩ := S.hasNext_ok hat
      obtain ⟨s', h', rest', hcalls, hat'⟩ := ih hat₁
      refine ⟨s', h', rest', ?_, hat'⟩
      simp [PullIter.calls, PullIter.call, hhas, Except.map, hcalls, hpending, PullIter.answers]
    | next =>
      cases hlist : h.toList ++ rest with
      | nil =>
        obtain ⟨s₁, hnext, hat₁⟩ := S.next_none hat hlist
        obtain ⟨s', h', rest', hcalls, hat'⟩ := ih hat₁
        refine ⟨s', h', rest', ?_, hat'⟩
        simp [PullIter.calls, PullIter.call, hnext, Except.map, hcalls, PullIter.answers]
      | cons a more =>
        obtain ⟨s₁, hnext, hat₁⟩ := S.next_some hat hlist
        obtain ⟨s', h', rest', hcalls, hat'⟩ := ih hat₁
        refine ⟨s', h', rest', ?_, hat'⟩
        simp [PullIter.calls, PullIter.call, hnext, Except.map, hcalls, PullIter.answers]

/-- Rewinding starts over exactly when nothing is held back. -/
theorem rewind_drain_iff (hat : S.At s h rest ts) :
    (I.rewind s).bind I.drain = .ok ts ↔ I.held s = none := by
  obtain ⟨s', hrewind, hat'⟩ := S.rewind_ok hat
  rw [hrewind, S.held_eq hat]
  change I.drain s' = .ok ts ↔ h = none
  rw [S.drain_ok hat']
  cases h <;> simp

/-- Closing and opening again starts over exactly when nothing is held back and the iterator
keeps nothing, or has nothing to give. -/
theorem reopen_drain_iff (hat : S.At s h rest ts) :
    (I.openIt (I.close s)).bind I.drain = .ok ts ↔ I.held s = none ∧ (plain ∨ ts = []) := by
  obtain ⟨s', all, hopen, hat', hgrown⟩ := S.reopen_closed (S.close_ok hat)
  rw [hopen, S.held_eq hat]
  change I.drain s' = .ok ts ↔ h = none ∧ (plain ∨ ts = [])
  rw [S.drain_ok hat', Except.ok.injEq]
  constructor
  · intro heq
    have hlength := congrArg List.length heq
    rw [List.length_append] at hlength
    by_cases hplain : plain
    · rw [hgrown.1 hplain] at hlength
      have hzero : h.toList = [] := List.eq_nil_of_length_eq_zero (by omega)
      exact ⟨Option.toList_eq_nil_iff.1 hzero, .inl hplain⟩
    · by_cases hempty : ts = []
      · rw [hempty] at heq
        exact ⟨Option.toList_eq_nil_iff.1 (List.append_eq_nil_iff.1 heq).1, .inr hempty⟩
      · have := hgrown.2 hplain hempty
        omega
  · rintro ⟨rfl, hplain | hempty⟩
    · simp [hgrown.1 hplain]
    · have hnil : all = [] := by
        refine List.eq_nil_iff_forall_not_mem.2 fun x hx => ?_
        have := (S.same hat' x).1 hx
        simp [hempty] at this
      simp [hnil, hempty]

end Serves

/-! ### Reading one element ahead -/

/-- A source that is read until it has no more to give. -/
structure Reader (ε α : Type) where
  State : Type
  start : State
  openIt : State → Except (Fault ε) State
  /-- nothing when the iteration is finished -/
  readNext : State → Except (Fault ε) (Option α × State)
  rewind : State → Except (Fault ε) State
  close : State → State
  left : State → ℕ

/-- The iterator over a reader that keeps what `hasNext` has read for `next`. -/
def Reader.ahead (R : Reader ε α) : PullIter ε α where
  State := R.State × Option α
  start := (R.start, none)
  openIt s := (R.openIt s.1).map fun r => (r, s.2)
  hasNext s :=
    match s.2 with
    | some _ => .ok (true, s)
    | none => (R.readNext s.1).map fun r => (r.1.isSome, (r.2, r.1))
  next s :=
    match s.2 with
    | some a => .ok (some a, (s.1, none))
    | none => (R.readNext s.1).map fun r => (r.1, (r.2, none))
  rewind s := (R.rewind s.1).map fun r => (r, s.2)
  close s := (R.close s.1, s.2)
  held s := s.2
  left s := R.left s.1 + 1

/-- The reader gives the list `ts`. -/
structure Reads (R : Reader ε α) (ts : List α) (plain : Prop) where
  At : R.State → List α → List α → Prop
  Closed : R.State → List α → Prop
  left_ge {s rest all} : At s rest all → rest.length ≤ R.left s
  same {s rest all} : At s rest all → ∀ x, x ∈ all ↔ x ∈ ts
  rest_mem {s rest all} : At s rest all → ∀ x ∈ rest, x ∈ all
  readNext_ok {s rest all} : At s rest all →
    ∃ s', R.readNext s = .ok (rest.head?, s') ∧ At s' rest.tail all
  rewind_ok {s rest all} : At s rest all → ∃ s', R.rewind s = .ok s' ∧ At s' all all
  start_ok : ∃ s, R.openIt R.start = .ok s ∧ At s ts ts
  close_ok {s rest all} : At s rest all → Closed (R.close s) all
  reopen_ok {s rest all} : At s rest all →
    ∃ s' all', R.openIt s = .ok s' ∧ At s' all' all' ∧ Regrown plain all all'
  reopen_closed {s all} : Closed s all →
    ∃ s' all', R.openIt s = .ok s' ∧ At s' all' all' ∧ Regrown plain all all'

/-- Reading ahead serves what the reader reads. -/
def Reads.ahead {R : Reader ε α} {ts : List α} {plain : Prop} (S : Reads R ts plain) :
    Serves R.ahead ts plain where
  At s h rest all := s.2 = h ∧ S.At s.1 rest all ∧ ∀ x ∈ h, x ∈ ts
  Closed s h all := s.2 = h ∧ S.Closed s.1 all ∧ ∀ x ∈ h, x ∈ ts
  held_eq hat := hat.1
  left_ge {s h rest all} hat := by
    have hle := S.left_ge hat.2.1
    simp only [Reader.ahead, List.length_append]
    cases h <;> simp <;> omega
  same hat := S.same hat.2.1
  rest_mem {s h rest all} hat x hx := by
    obtain hx | hx := List.mem_append.1 hx
    · exact (S.same hat.2.1 x).2 (hat.2.2 x (by simpa using hx))
    · exact S.rest_mem hat.2.1 x hx
  hasNext_ok {s h rest all} hat := by
    obtain ⟨s₁, held⟩ := s
    obtain ⟨heq, hat, hmem⟩ := hat
    obtain rfl : held = h := heq
    cases held with
    | some a => exact ⟨(s₁, some a), some a, rest, rfl, ⟨rfl, hat, hmem⟩, rfl⟩
    | none =>
      obtain ⟨s', hread, hat'⟩ := S.readNext_ok hat
      refine ⟨(s', rest.head?), rest.head?, rest.tail, ?_, ⟨rfl, hat', ?_⟩, ?_⟩
      · simp only [Reader.ahead, hread, Except.map]
        cases rest <;> rfl
      · intro x hx
        exact (S.same hat x).1 (S.rest_mem hat x (List.mem_of_mem_head? hx))
      · cases rest <;> rfl
  next_none {s h rest all} hat hnil := by
    obtain ⟨s₁, held⟩ := s
    obtain ⟨heq, hat, hmem⟩ := hat
    obtain rfl : held = h := heq
    obtain ⟨hnone, rfl⟩ := List.append_eq_nil_iff.1 hnil
    obtain rfl : held = none := Option.toList_eq_nil_iff.1 hnone
    obtain ⟨s', hread, hat'⟩ := S.readNext_ok hat
    exact ⟨(s', none), by simp [Reader.ahead, hread, Except.map], rfl, hat', by simp⟩
  next_some {s h rest all a more} hat hcons := by
    obtain ⟨s₁, held⟩ := s
    obtain ⟨heq, hat, hmem⟩ := hat
    obtain rfl : held = h := heq
    cases held with
    | some b =>
      obtain ⟨rfl, rfl⟩ := List.cons.inj hcons
      exact ⟨(s₁, none), rfl, rfl, hat, by simp⟩
    | none =>
      obtain rfl : rest = a :: more := hcons
      obtain ⟨s', hread, hat'⟩ := S.readNext_ok hat
      exact ⟨(s', none), by simp [Reader.ahead, hread, Except.map], rfl, hat', by simp⟩
  rewind_ok {s h rest all} hat := by
    obtain ⟨s', hrewind, hat'⟩ := S.rewind_ok hat.2.1
    exact ⟨(s', s.2), by simp [Reader.ahead, hrewind, Except.map], hat.1, hat', hat.2.2⟩
  start_ok := by
    obtain ⟨s', hopen, hat'⟩ := S.start_ok
    exact ⟨(s', none), by simp [Reader.ahead, hopen, Except.map], rfl, hat', by simp⟩
  close_ok hat := ⟨hat.1, S.close_ok hat.2.1, hat.2.2⟩
  reopen_ok {s h rest all} hat := by
    obtain ⟨s', all', hopen, hat', hgrown⟩ := S.reopen_ok hat.2.1
    exact ⟨(s', s.2), all', by simp [Reader.ahead, hopen, Except.map],
      ⟨hat.1, hat', hat.2.2⟩, hgrown⟩
  reopen_closed {s h all} hat := by
    obtain ⟨s', all', hopen, hat', hgrown⟩ := S.reopen_closed hat.2.1
    exact ⟨(s', s.2), all', by simp [Reader.ahead, hopen, Except.map],
      ⟨hat.1, hat', hat.2.2⟩, hgrown⟩

/-! ### Reading from a list that is filled at each opening -/

/-- The state of such a reader: the list, and what is left of it if it is open. -/
structure Buffered (σ α : Type) where
  source : σ
  items : List α
  it : Option (List α)

variable {σ : Type}

/-- Opening calls `fill` on the source and the list as it is; the list is never emptied. -/
def bufferedReader (start : σ)
    (fill : σ → List α → Except (Fault ε) (List α × σ)) : Reader ε α where
  State := Buffered σ α
  start := ⟨start, [], none⟩
  openIt s := (fill s.source s.items).map fun r => ⟨r.2, r.1, some r.1⟩
  readNext s :=
    match s.it with
    | some (a :: rest) => .ok (some a, { s with it := some rest })
    | _ => .ok (none, s)
  rewind s := .ok { s with it := some s.items }
  close s := { s with it := none }
  left s := (s.it.getD []).length

/-- A buffered reader gives what the first call of `fill` puts into the list; `Src` says how the
source and the list belong together. -/
def bufferedReads {start : σ} {fill : σ → List α → Except (Fault ε) (List α × σ)} {ts : List α}
    (Src : σ → List α → Prop) (hstart : ∃ c, fill start [] = .ok (ts, c) ∧ Src c ts)
    (hsame : ∀ c all, Src c all → ∀ x, x ∈ all ↔ x ∈ ts)
    (hfill : ∀ c all, Src c all → ∃ all' c', fill c all = .ok (all', c') ∧ Src c' all' ∧
      (all ≠ [] → all.length < all'.length)) :
    Reads (bufferedReader start fill) ts False where
  At s rest all := s.it = some rest ∧ s.items = all ∧ Src s.source all ∧ rest <:+ all
  Closed s all := s.items = all ∧ Src s.source all
  left_ge {s rest all} hat := by simp [bufferedReader, hat.1]
  same hat := hsame _ _ hat.2.2.1
  rest_mem hat _ hx := hat.2.2.2.subset hx
  readNext_ok {s rest all} hat := by
    obtain ⟨hit, hitems, hsrc, hsuffix⟩ := hat
    cases rest with
    | nil => exact ⟨s, by simp [bufferedReader, hit], hit, hitems, hsrc, hsuffix⟩
    | cons a rest =>
      exact ⟨{ s with it := some rest }, by simp [bufferedReader, hit], rfl, hitems, hsrc,
        (List.suffix_cons a rest).trans hsuffix⟩
  rewind_ok {s rest all} hat :=
    ⟨{ s with it := some s.items }, rfl, by simp [hat.2.1], hat.2.1, hat.2.2.1, List.suffix_rfl⟩
  start_ok := by
    obtain ⟨c, hopen, hsrc⟩ := hstart
    exact ⟨⟨c, ts, some ts⟩, by simp [bufferedReader, hopen, Except.map], rfl, rfl, hsrc,
      List.suffix_rfl⟩
  close_ok hat := ⟨hat.2.1, hat.2.2.1⟩
  reopen_ok {s rest all} hat := by
    obtain ⟨all', c', hopen, hsrc, hgrown⟩ := hfill _ _ hat.2.2.1
    exact ⟨⟨c', all', some all'⟩, all', by simp [bufferedReader, hat.2.1, hopen, Except.map],
      ⟨rfl, rfl, hsrc, List.suffix_rfl⟩, fun h => h.elim, fun _ => hgrown⟩
  reopen_closed {s all} hat := by
    obtain ⟨all', c', hopen, hsrc, hgrown⟩ := hfill _ _ hat.2
    exact ⟨⟨c', all', some all'⟩, all', by simp [bufferedReader, hat.1, hopen, Except.map],
      ⟨rfl, rfl, hsrc, List.suffix_rfl⟩, fun h => h.elim, fun _ => hgrown⟩

end Courses.Lib

import Courses.Lib.Alloc
import Courses.Lib.Intervals
import Mathlib.Data.List.GetD

/-!
# Files under a stdio interface

A file is a length and a byte at every offset. A computation seeks, reads and writes
in it; which of its calls fail, and after how many bytes, is decided by an oracle
indexed by the number of calls made before. `Completes` is total correctness when no
call fails. Overwriting a range is one function, `File.put`, with its own algebra:
adjacent ranges fuse and disjoint ranges commute. The ranges written are collected beside the
contents; `Wrote` says what a computation that only writes leaves.
-/
namespace Courses.Lib

structure File where
  len : ℕ
  byte : ℕ → UInt8

namespace File

variable {f : File} {p q n : ℕ} {xs ys : List UInt8}

@[ext] theorem ext {f g : File} (hlen : f.len = g.len) (hbyte : ∀ x, f.byte x = g.byte x) :
    f = g := by
  obtain ⟨l, b⟩ := f
  obtain ⟨l', b'⟩ := g
  cases hlen
  cases (funext hbyte : b = b')
  rfl

def empty : File := ⟨0, fun _ => 0⟩

/-- The file with `bs` written at `p`. -/
def put (f : File) (p : ℕ) (bs : List UInt8) : File where
  len := if bs = [] then f.len else max f.len (p + bs.length)
  byte x := if p ≤ x ∧ x < p + bs.length then bs.getD (x - p) 0 else f.byte x

/-- The `n` bytes from `p` on. -/
def slice (f : File) (p n : ℕ) : List UInt8 := (List.range n).map fun i => f.byte (p + i)

/-- The file holds the bytes `bs` at `p`. -/
def Holds (f : File) (p : ℕ) (bs : List UInt8) : Prop :=
  p + bs.length ≤ f.len ∧ f.slice p bs.length = bs

@[simp] theorem slice_length (f : File) (p n : ℕ) : (f.slice p n).length = n := by simp [slice]

theorem slice_add (f : File) (p m n : ℕ) : f.slice p (m + n) = f.slice p m ++ f.slice (p + m) n := by
  simp only [slice, List.range_add, List.map_append, List.map_map]
  congr 1
  apply List.map_congr_left
  intro i _
  simp [Nat.add_assoc]

theorem slice_congr {g : File} (h : ∀ x, p ≤ x → x < p + n → g.byte x = f.byte x) :
    g.slice p n = f.slice p n := by
  apply List.map_congr_left
  intro i hi
  rw [List.mem_range] at hi
  exact h _ (by omega) (by omega)

theorem slice_eq_iff {g : File} :
    g.slice p n = f.slice p n ↔ ∀ i < n, g.byte (p + i) = f.byte (p + i) := by
  simp [slice]

/-! ## The algebra of `put` -/

@[simp] theorem put_nil (f : File) (p : ℕ) : f.put p [] = f := by
  apply ext
  · simp [put]
  · intro x
    have hx : ¬ (p ≤ x ∧ x < p + ([] : List UInt8).length) := by
      rw [List.length_nil]
      omega
    exact if_neg hx

/-- Adjacent ranges fuse. -/
theorem put_append (f : File) (p : ℕ) (xs ys : List UInt8) :
    (f.put p xs).put (p + xs.length) ys = f.put p (xs ++ ys) := by
  apply ext
  · simp only [put, List.append_eq_nil_iff, List.length_append]
    rcases eq_or_ne xs [] with rfl | hx
    · simp
    · rcases eq_or_ne ys [] with rfl | hy
      · simp [hx]
      · simp only [hx, hy, if_false, and_self]
        omega
  · intro x
    simp only [put, List.length_append]
    by_cases hin : p + xs.length ≤ x ∧ x < p + xs.length + ys.length
    · rw [if_pos hin, if_pos (by omega), List.getD_append_right _ _ _ _ (by omega)]
      congr 1
      omega
    · rw [if_neg hin]
      by_cases hl : p ≤ x ∧ x < p + xs.length
      · rw [if_pos hl, if_pos (by omega), List.getD_append _ _ _ _ (by omega)]
      · rw [if_neg hl, if_neg (by omega)]

/-- Disjoint ranges commute. -/
theorem put_comm (h : p + xs.length ≤ q ∨ q + ys.length ≤ p) :
    (f.put p xs).put q ys = (f.put q ys).put p xs := by
  apply ext
  · simp only [put]
    split_ifs
    · rfl
    · rfl
    · rfl
    · omega
  · intro x
    simp only [put]
    by_cases hp : p ≤ x ∧ x < p + xs.length
    · rw [if_pos hp, if_pos hp, if_neg (by omega)]
    · rw [if_neg hp, if_neg hp]

/-! ## What a file holds -/

theorem holds_append (f : File) (p : ℕ) (xs ys : List UInt8) :
    f.Holds p (xs ++ ys) ↔ f.Holds p xs ∧ f.Holds (p + xs.length) ys := by
  rw [Holds, Holds, Holds, List.length_append, slice_add]
  constructor
  · rintro ⟨hlen, heq⟩
    obtain ⟨hx, hy⟩ := List.append_inj heq (by simp)
    exact ⟨⟨by omega, hx⟩, by omega, hy⟩
  · rintro ⟨⟨-, hx⟩, hlen, hy⟩
    exact ⟨by omega, by rw [hx, hy]⟩

theorem holds_put (h : p ≤ f.len ∨ xs ≠ []) : (f.put p xs).Holds p xs := by
  constructor
  · rw [put]
    split_ifs with hxs
    · rw [hxs] at h ⊢
      simpa using h
    · exact le_max_right _ _
  · apply List.ext_getElem (by simp)
    intro i hi hi'
    simp only [slice, List.getElem_map, List.getElem_range]
    change (if p ≤ p + i ∧ p + i < p + xs.length then _ else _) = _
    rw [if_pos (by omega), Nat.add_sub_cancel_left, List.getD_eq_getElem _ _ hi']

theorem Holds.slice_eq (h : f.Holds p xs) (hn : xs.length = n) : f.slice p n = xs :=
  hn ▸ h.2

end File

/-- An open file: its contents, the position in it, whether its name still leads to it,
the number of calls made so far, and what has been written since it was created. -/
structure Disk where
  file : File
  pos : ℕ
  linked : Bool
  calls : ℕ
  writes : Multiset Range

/-- For each call, `none` if it succeeds, else the number of bytes it gets through. -/
abbrev Faults := ℕ → Option ℕ

abbrev DiskM := ReaderT Faults (StateT Disk (Except Halt))

namespace DiskM

variable {α β : Type}

def halt (h : Halt) : DiskM α := fun _ _ => .error h

/-- An assertion: go on only if the condition holds. -/
def verify (b : Bool) : DiskM Unit := if b then pure () else halt .verify

/-- `fopen(name, "wb+")`: the answer says whether it succeeded. -/
def create : DiskM Bool := fun io d =>
  match io d.calls with
  | none => .ok (true, ⟨.empty, 0, true, d.calls + 1, 0⟩)
  | some _ => .ok (false, { d with calls := d.calls + 1 })

/-- `fopen(name, "rb")`. -/
def openRead : DiskM Bool := fun io d =>
  match io d.calls with
  | none => .ok (d.linked, { d with pos := 0, calls := d.calls + 1 })
  | some _ => .ok (false, { d with calls := d.calls + 1 })

def unlink : DiskM Unit := fun _ d => .ok ((), { d with linked := false })

/-- `stat`: the size of the file. -/
def size : DiskM ℕ := fun _ d => .ok (d.file.len, d)

/-- `fseek(f, p, SEEK_SET)`: zero on success. -/
def fseek (p : ℕ) : DiskM ℕ := fun io d =>
  match io d.calls with
  | none => .ok (0, { d with pos := p, calls := d.calls + 1 })
  | some _ => .ok (1, { d with calls := d.calls + 1 })

/-- `fwrite` of items of `n` bytes: the number of whole items written. -/
def fwrite (n : ℕ) (bs : List UInt8) : DiskM ℕ := fun io d =>
  let done := match io d.calls with
    | none => bs
    | some k => bs.take (min k (bs.length - 1))
  .ok (done.length / n, ⟨d.file.put d.pos done, d.pos + done.length, d.linked, d.calls + 1,
    d.writes + {(d.pos, done.length)}⟩)

/-- `fread` of at most `n` bytes: those that were read. -/
def fread (n : ℕ) : DiskM (List UInt8) := fun io d =>
  let available := min n (d.file.len - d.pos)
  let k := match io d.calls with
    | none => available
    | some k => min k (available - 1)
  .ok (d.file.slice d.pos k, { d with pos := d.pos + k, calls := d.calls + 1 })

/-- `fsync`: whether it succeeded. -/
def fsync : DiskM Bool := fun io d =>
  .ok ((io d.calls).isNone, { d with calls := d.calls + 1 })

/-! ## Total correctness -/

/-- With no call failing, `x` returns from `d` with `Q`. -/
def Completes (x : DiskM α) (d : Disk) (Q : α → Disk → Prop) : Prop :=
  ∃ a d', x (fun _ => none) d = .ok (a, d') ∧ Q a d'

variable {x : DiskM α} {f : α → DiskM β} {d : Disk} {P Q : α → Disk → Prop}
  {R : β → Disk → Prop} {p n : ℕ} {bs : List UInt8}

theorem completes_pure {a : α} (h : Q a d) : Completes (pure a) d Q := ⟨a, d, rfl, h⟩

theorem Completes.mono (h : Completes x d P) (hPQ : ∀ a d', P a d' → Q a d') :
    Completes x d Q := by
  obtain ⟨a, d', hx, ha⟩ := h
  exact ⟨a, d', hx, hPQ a d' ha⟩

theorem Completes.bind (hx : Completes x d P) (hf : ∀ a d', P a d' → Completes (f a) d' R) :
    Completes (x >>= f) d R := by
  obtain ⟨a, d', hxa, ha⟩ := hx
  obtain ⟨b, d'', hfb, hb⟩ := hf a d' ha
  refine ⟨b, d'', ?_, hb⟩
  change (x (fun _ => none) d).bind (fun r => f r.1 (fun _ => none) r.2) = _
  rw [hxa]
  exact hfb

/-- A computation that returns goes through what its first part leaves. -/
theorem Completes.of_bind (hx : Completes x d P) (h : Completes (x >>= f) d R) :
    ∃ a d', P a d' ∧ Completes (f a) d' R := by
  obtain ⟨a, d', hxa, ha⟩ := hx
  obtain ⟨b, d'', hrun, hb⟩ := h
  change (x (fun _ => none) d).bind (fun r => f r.1 (fun _ => none) r.2) = _ at hrun
  rw [hxa] at hrun
  exact ⟨a, d', ha, b, d'', hrun, hb⟩

theorem completes_verify {b : Bool} {g : Unit → DiskM β} (h : b = true)
    (hg : Completes (g ()) d R) : Completes (verify b >>= g) d R := by
  rw [verify, if_pos h]
  exact hg

/-- With no call failing, `x` stops at an assertion. -/
def Aborts (x : DiskM α) (d : Disk) : Prop := x (fun _ => none) d = .error .verify

theorem Aborts.not_completes (h : Aborts x d) : ¬ Completes x d Q := by
  rintro ⟨a, d', hx, -⟩
  rw [Aborts, hx] at h
  cases h

/-- With no call failing, `x` returns if `C` holds and stops at an assertion if not. -/
def Settles (x : DiskM α) (d : Disk) (C : Prop) : Prop :=
  (C → Completes x d fun _ _ => True) ∧ (¬ C → Aborts x d)

theorem Settles.congr {C D : Prop} (h : Settles x d C) (hCD : C ↔ D) : Settles x d D :=
  ⟨fun hD => h.1 (hCD.2 hD), fun hD => h.2 fun hC => hD (hCD.1 hC)⟩

theorem settles_pure {a : α} : Settles (pure a) d True :=
  ⟨fun _ => completes_pure trivial, fun h => absurd trivial h⟩

theorem settles_verify {b : Bool} {g : Unit → DiskM β} {C : Prop}
    (h : b = true → Settles (g ()) d C) : Settles (verify b >>= g) d (b = true ∧ C) := by
  cases b with
  | false => exact ⟨fun hC => absurd hC.1 Bool.false_ne_true, fun _ => rfl⟩
  | true => exact ⟨fun hC => (h rfl).1 hC.2, fun hC => (h rfl).2 fun hC' => hC ⟨rfl, hC'⟩⟩

theorem Completes.settles_bind {C : Prop} (hx : Completes x d P)
    (hf : ∀ a d', P a d' → Settles (f a) d' C) : Settles (x >>= f) d C := by
  constructor
  · intro hC
    exact hx.bind fun a d' ha => (hf a d' ha).1 hC
  · intro hC
    obtain ⟨a, d', hxa, ha⟩ := hx
    change (x (fun _ => none) d).bind (fun r => f r.1 (fun _ => none) r.2) = _
    rw [hxa]
    exact (hf a d' ha).2 hC

theorem completes_fseek {g : ℕ → DiskM β}
    (h : Completes (g 0) { d with pos := p, calls := d.calls + 1 } R) :
    Completes (fseek p >>= g) d R := h

theorem completes_fwrite {g : ℕ → DiskM β}
    (h : Completes (g (bs.length / n))
      ⟨d.file.put d.pos bs, d.pos + bs.length, d.linked, d.calls + 1,
        d.writes + {(d.pos, bs.length)}⟩ R) :
    Completes (fwrite n bs >>= g) d R := h

/-- A read of bytes the file holds. -/
theorem completes_fread {g : List UInt8 → DiskM β} (hbs : d.file.Holds d.pos bs)
    (hn : bs.length = n)
    (h : Completes (g bs) { d with pos := d.pos + n, calls := d.calls + 1 } R) :
    Completes (fread n >>= g) d R := by
  have havail : min n (d.file.len - d.pos) = n := by
    have := hbs.1
    omega
  have hread : fread n (fun _ => none) d =
      .ok (bs, { d with pos := d.pos + n, calls := d.calls + 1 }) := by
    rw [fread]
    dsimp only
    rw [havail, hbs.slice_eq hn]
  refine Completes.bind (P := fun a d' => a = bs ∧
    d' = { d with pos := d.pos + n, calls := d.calls + 1 }) ⟨_, _, hread, rfl, rfl⟩ ?_
  rintro _ _ ⟨rfl, rfl⟩
  exact h

/-- A read near the end of the file gets what is left. -/
theorem completes_fread_rest {g : List UInt8 → DiskM β} (hbs : d.file.Holds d.pos bs)
    (hend : d.pos + bs.length = d.file.len)
    (h : Completes (g (bs.take n))
      { d with pos := d.pos + (bs.take n).length, calls := d.calls + 1 } R) :
    Completes (fread n >>= g) d R := by
  have havail : min n (d.file.len - d.pos) = (bs.take n).length := by
    rw [List.length_take]
    omega
  rw [← List.take_append_drop n bs, File.holds_append] at hbs
  have hread : fread n (fun _ => none) d =
      .ok (bs.take n, { d with pos := d.pos + (bs.take n).length, calls := d.calls + 1 }) := by
    rw [fread]
    dsimp only
    rw [havail, hbs.1.slice_eq rfl]
  refine Completes.bind (P := fun a d' => a = bs.take n ∧
    d' = { d with pos := d.pos + (bs.take n).length, calls := d.calls + 1 })
    ⟨_, _, hread, rfl, rfl⟩ ?_
  rintro _ _ ⟨rfl, rfl⟩
  exact h

/-! ## The effect of writing -/

/-- The effect of writing to the ranges of the log. -/
structure Wrote (d : Disk) (log : Multiset Range) (d' : Disk) : Prop where
  writes : d'.writes = d.writes + log
  len : d'.file.len = max d.file.len (reach log)
  kept : ∀ x, covers log x = 0 → d'.file.byte x = d.file.byte x
  linked : d'.linked = d.linked

theorem wrote_zero {d' : Disk} (hfile : d'.file = d.file) (hwrites : d'.writes = d.writes)
    (hlinked : d'.linked = d.linked) : Wrote d 0 d' :=
  ⟨by rw [hwrites, add_zero], by rw [hfile, reach_zero, Nat.max_zero], fun x _ => by rw [hfile], hlinked⟩

theorem Wrote.trans {d' d'' : Disk} {log log' : Multiset Range} (h : Wrote d log d')
    (h' : Wrote d' log' d'') : Wrote d (log + log') d'' where
  writes := by rw [h'.writes, h.writes, add_assoc]
  len := by rw [h'.len, h.len, reach_add, max_assoc]
  kept x hx := by
    rw [covers_add] at hx
    rw [h'.kept x (by omega), h.kept x (by omega)]
  linked := h'.linked.trans h.linked

theorem wrote_put (d : Disk) (bs : List UInt8) (pos calls : ℕ) :
    Wrote d {(d.pos, bs.length)}
      ⟨d.file.put d.pos bs, pos, d.linked, calls, d.writes + {(d.pos, bs.length)}⟩ where
  writes := rfl
  len := by
    rw [reach_singleton]
    change (if bs = [] then d.file.len else _) = _
    by_cases hbs : bs = []
    · simp [hbs]
    · rw [if_neg hbs, if_neg (mt List.length_eq_zero_iff.1 hbs)]
  kept x hx := by
    rw [covers_singleton] at hx
    exact if_neg fun hin => by simp [Range.Has, hin] at hx
  linked := rfl

/-- The rule for a write whose bytes do not matter. -/
theorem completes_fwrite_wrote {g : ℕ → DiskM β}
    (h : ∀ d', d'.pos = d.pos + bs.length → Wrote d {(d.pos, bs.length)} d' →
      Completes (g (bs.length / n)) d' R) :
    Completes (fwrite n bs >>= g) d R :=
  completes_fwrite (h _ rfl (wrote_put d bs _ _))

/-- The rule for such a write after `fseek`. -/
theorem completes_fwrite_at {g : ℕ → DiskM β} {calls : ℕ}
    (h : ∀ d', d'.pos = p + bs.length → Wrote d {(p, bs.length)} d' →
      Completes (g (bs.length / n)) d' R) :
    Completes (fwrite n bs >>= g) { d with pos := p, calls := calls } R := by
  apply completes_fwrite_wrote
  intro d' hpos hwrote
  exact h d' hpos ⟨hwrote.writes, hwrote.len, hwrote.kept, hwrote.linked⟩

end DiskM
end Courses.Lib

/-!
# Computations that only read

Where no call fails, a computation that only reads depends on the contents of the file and
the position it starts at, and on nothing that was called before. `Gives` says what it
returns there, `Stops` how it stops, and `Answers` that it does one or the other without
going wrong: what is asked of a reader of files that anyone may have written.
-/
namespace Courses.Lib.DiskM

/-- An open file with given contents, at a position. -/
structure At (f : File) (p : ℕ) (d : Disk) : Prop where
  file : d.file = f
  pos : d.pos = p

/-- The bytes from `p` on can be read; none can be read anywhere. -/
def Readable (f : File) (p n : ℕ) : Prop := n = 0 ∨ p + n ≤ f.len

instance (f : File) (p n : ℕ) : Decidable (Readable f p n) :=
  inferInstanceAs (Decidable (n = 0 ∨ p + n ≤ f.len))

variable {α β : Type} {x : DiskM α} {g : α → DiskM β} {f : File} {p q r n : ℕ} {a : α} {b : β}
  {h : Halt}

/-- From position `p`, `x` returns `a` and leaves position `q` in the same file. -/
def Gives (x : DiskM α) (f : File) (p : ℕ) (a : α) (q : ℕ) : Prop :=
  ∀ d, At f p d → ∃ d', x (fun _ => none) d = .ok (a, d') ∧ At f q d'

/-- From position `p`, `x` stops. -/
def Stops (x : DiskM α) (f : File) (p : ℕ) (h : Halt) : Prop :=
  ∀ d, At f p d → x (fun _ => none) d = .error h

/-- `x` returns, or stops at an assertion. -/
def Answers (x : DiskM α) (f : File) (p : ℕ) : Prop :=
  (∃ a q, Gives x f p a q) ∨ Stops x f p .verify

/-! ### Rules -/

theorem gives_pure (f : File) (p : ℕ) (a : α) : Gives (pure a) f p a p :=
  fun d hd => ⟨d, rfl, hd⟩

theorem stops_halt (f : File) (p : ℕ) (h : Halt) : Stops (halt h : DiskM α) f p h :=
  fun _ _ => rfl

theorem Gives.bind (hx : Gives x f p a q) (hg : Gives (g a) f q b r) : Gives (x >>= g) f p b r := by
  intro d hd
  obtain ⟨d', hrun, hd'⟩ := hx d hd
  obtain ⟨d'', hrun', hd''⟩ := hg d' hd'
  refine ⟨d'', ?_, hd''⟩
  change (x (fun _ => none) d).bind (fun s => g s.1 (fun _ => none) s.2) = _
  rw [hrun]
  exact hrun'

theorem Gives.bind_stops (hx : Gives x f p a q) (hg : Stops (g a) f q h) :
    Stops (x >>= g) f p h := by
  intro d hd
  obtain ⟨d', hrun, hd'⟩ := hx d hd
  change (x (fun _ => none) d).bind (fun s => g s.1 (fun _ => none) s.2) = _
  rw [hrun]
  exact hg d' hd'

theorem Stops.bind (hx : Stops x f p h) (g : α → DiskM β) : Stops (x >>= g) f p h := by
  intro d hd
  change (x (fun _ => none) d).bind (fun s => g s.1 (fun _ => none) s.2) = _
  rw [hx d hd]
  rfl

theorem gives_fseek (f : File) (p q : ℕ) : Gives (fseek q) f p 0 q :=
  fun _ hd => ⟨_, rfl, hd.file, rfl⟩

theorem gives_fread (f : File) (p n : ℕ) :
    Gives (fread n) f p (f.slice p (min n (f.len - p))) (p + min n (f.len - p)) := by
  rintro ⟨file, pos, linked, calls, writes⟩ ⟨rfl, rfl⟩
  exact ⟨_, rfl, rfl, rfl⟩

theorem gives_verify {c : Bool} (hc : c = true) (f : File) (p : ℕ) : Gives (verify c) f p () p := by
  rw [verify, if_pos hc]
  exact gives_pure f p ()

theorem stops_verify {c : Bool} (hc : c = false) (f : File) (p : ℕ) :
    Stops (verify c) f p .verify := by
  rw [hc]
  exact stops_halt f p .verify

theorem Gives.answers (hx : Gives x f p a q) : Answers x f p := .inl ⟨a, q, hx⟩

theorem Stops.answers (hx : Stops x f p .verify) : Answers x f p := .inr hx

theorem Answers.bind (hx : Answers x f p) (hg : ∀ a q, Answers (g a) f q) :
    Answers (x >>= g) f p := by
  obtain ⟨a, q, hx⟩ | hx := hx
  · obtain ⟨b, r, hg⟩ | hg := hg a q
    · exact (hx.bind hg).answers
    · exact (hx.bind_stops hg).answers
  · exact (hx.bind g).answers

theorem Gives.answers_bind (hx : Gives x f p a q) (hg : Answers (g a) f q) :
    Answers (x >>= g) f p := by
  obtain ⟨b, r, hg⟩ | hg := hg
  · exact (hx.bind hg).answers
  · exact (hx.bind_stops hg).answers

/-- A computation that goes wrong does not answer. -/
theorem Stops.not_answers (hx : Stops x f p h) (hh : h ≠ .verify) : ¬ Answers x f p := by
  have hd : At f p ⟨f, p, true, 0, 0⟩ := ⟨rfl, rfl⟩
  have hrun := hx _ hd
  rintro (⟨a, q, hgives⟩ | hstops)
  · obtain ⟨d', hok, -⟩ := hgives _ hd
    rw [hrun] at hok
    cases hok
  · rw [hstops _ hd, Except.error.injEq] at hrun
    exact hh hrun.symm

/-- `x` answers if `C` holds, and goes wrong if not. -/
def AnswersIf (x : DiskM α) (f : File) (p : ℕ) (C : Prop) : Prop :=
  (C → Answers x f p) ∧ (¬ C → Stops x f p .fault)

theorem Answers.answersIf {C : Prop} (hx : Answers x f p) (hC : C) : AnswersIf x f p C :=
  ⟨fun _ => hx, fun hnot => absurd hC hnot⟩

theorem AnswersIf.congr {C D : Prop} (hx : AnswersIf x f p C) (hCD : C ↔ D) : AnswersIf x f p D :=
  ⟨fun hD => hx.1 (hCD.2 hD), fun hD => hx.2 fun hC => hD (hCD.1 hC)⟩

theorem Gives.answersIf_bind {C : Prop} (hx : Gives x f p a q) (hg : AnswersIf (g a) f q C) :
    AnswersIf (x >>= g) f p C :=
  ⟨fun hC => hx.answers_bind (hg.1 hC), fun hC => hx.bind_stops (hg.2 hC)⟩

/-- What follows an answer in any case. -/
theorem AnswersIf.bind {C : Prop} (hx : AnswersIf x f p C) (hg : ∀ a q, Answers (g a) f q) :
    AnswersIf (x >>= g) f p C :=
  ⟨fun hC => (hx.1 hC).bind hg, fun hC => (hx.2 hC).bind g⟩

/-- On one disk an answer is a return or a failed assertion. -/
theorem Answers.completes_or_aborts {d : Disk} (hx : Answers x f p) (hd : At f p d) :
    Completes x d (fun _ _ => True) ∨ Aborts x d := by
  obtain ⟨a, q, hgives⟩ | hstops := hx
  · obtain ⟨d', hrun, -⟩ := hgives d hd
    exact .inl ⟨a, d', hrun, trivial⟩
  · exact .inr (hstops d hd)

end Courses.Lib.DiskM

import Courses.Lib.Bytes

/-!
# Random access files

A file is its bytes and the file pointer. Programs over it may throw and keep the
state they had reached, so they are `EStateM` programs. A program that reads is described
by the bytes it consumes (`Consumes`), one that writes at the end of the file by the bytes it
appends (`Appends`); both compose along the program text. The one failure these
descriptions admit is that no room is left.
-/
namespace Courses.Lib

/-- What an operation on a file throws, and the exceptions of the program. -/
inductive FileError (E : Type)
  | endOfFile
  | negativeSeek
  | exhausted
  | thrown (e : E)
  deriving DecidableEq

structure RandomAccessFile where
  bytes : List UInt8
  pointer : ℕ
  deriving DecidableEq

variable {E σ τ α β : Type}

abbrev FileM (E : Type) := EStateM (FileError E) RandomAccessFile

/-- Run a program on a part of the state. -/
def zoom {ε : Type} (get : σ → τ) (set : τ → σ → σ) (m : EStateM ε τ α) : EStateM ε σ α := fun s =>
  match m (get s) with
  | .ok a t => .ok a (set t s)
  | .error e t => .error e (set t s)

namespace RandomAccessFile

/-! ## The operations -/

/-- Write at the pointer. A file has no position beyond the largest `long`. -/
def write (bs : List UInt8) : FileM E Unit := fun f =>
  if f.pointer + bs.length < 2 ^ 63 then
    .ok () ⟨f.bytes.takeD f.pointer 0 ++ bs ++ f.bytes.drop (f.pointer + bs.length),
      f.pointer + bs.length⟩
  else
    .error .exhausted f

/-- `readFully`: the bytes at the pointer, which must all be there. -/
def readFully (n : ℕ) : FileM E (List UInt8) := fun f =>
  if n ≤ (f.bytes.drop f.pointer).length then
    .ok ((f.bytes.drop f.pointer).take n) { f with pointer := f.pointer + n }
  else
    .error .endOfFile { f with pointer := max f.pointer f.bytes.length }

/-- `read(bs)` into a new array, which keeps its zeros where the file ends early. -/
def read (n : ℕ) : FileM E (List UInt8) := fun f =>
  let bs := (f.bytes.drop f.pointer).take n
  .ok (bs.takeD n 0) { f with pointer := f.pointer + bs.length }

def seek (pos : UInt64) : FileM E Unit := fun f =>
  if pos.toNat < 2 ^ 63 then .ok () { f with pointer := pos.toNat } else .error .negativeSeek f

def getFilePointer : FileM E UInt64 := fun f => .ok (.ofNat f.pointer) f

def length : FileM E UInt64 := fun f => .ok (.ofNat f.bytes.length) f

def setLength (n : ℕ) : FileM E Unit := fun f =>
  .ok () ⟨f.bytes.takeD n 0, min f.pointer n⟩

def writeInt (n : UInt32) : FileM E Unit := write (beBytes 4 n.toNat)

def writeLong (n : UInt64) : FileM E Unit := write (beBytes 8 n.toNat)

/-- `writeUTF` of a string whose encoding is `s`. -/
def writeUTF (s : List UInt8) : FileM E Unit := do
  write (beBytes 2 s.length)
  write s

def readInt : FileM E UInt32 := do
  return .ofNat (ofBe (← readFully 4))

def readLong : FileM E UInt64 := do
  return .ofNat (ofBe (← readFully 8))

/-- The encoding of the string that `readUTF` reads. -/
def readUTF : FileM E (List UInt8) := do
  let n := ofBe (← readFully 2)
  readFully n

/-! ## What programs do -/

/-- The file `before ++ rest` with the pointer between the two. -/
def split (before rest : List UInt8) : RandomAccessFile := ⟨before ++ rest, before.length⟩

theorem seek_ok {f : RandomAccessFile} {pos : UInt64} {before rest : List UInt8}
    (hbytes : f.bytes = before ++ rest) (hpos : pos.toNat = before.length)
    (hlt : before.length < 2 ^ 63) :
    (seek pos : FileM E Unit) f = .ok () (split before rest) := by
  simp only [seek, hpos, if_pos hlt, hbytes, split]

/-- Writing over bytes that are there. -/
theorem write_over {before old new : List UInt8} (rest : List UInt8)
    (hlength : old.length = new.length) (hlt : before.length + new.length < 2 ^ 63) :
    (write new : FileM E Unit) (split before (old ++ rest)) =
      .ok () (split (before ++ new) rest) := by
  have htake : (before ++ (old ++ rest)).takeD before.length 0 = before := by
    rw [List.takeD_eq_take _ (by simp), List.take_left]
  have hdrop : (before ++ (old ++ rest)).drop (before.length + new.length) = rest := by
    rw [← List.append_assoc, ← hlength, ← List.length_append, List.drop_left]
  simp only [write, split, if_pos hlt, htake, hdrop, List.length_append]

end RandomAccessFile

/-! ## Writing anywhere -/

/-- The file is `new` from `pos` on, as far as `new` goes, and as it was elsewhere. What comes
between an earlier end and `pos` is left open. -/
structure Overwrites (old : List UInt8) (pos : ℕ) (new bytes : List UInt8) : Prop where
  length : bytes.length = max old.length (pos + new.length)
  inside : (bytes.drop pos).take new.length = new
  outside : ∀ i < old.length, i < pos ∨ pos + new.length ≤ i → bytes[i]? = old[i]?

theorem getElem?_takeD (bs : List UInt8) {n i : ℕ} (hi : i < n) (hlt : i < bs.length) :
    (bs.takeD n 0)[i]? = bs[i]? := by
  induction n generalizing bs i with
  | zero => exact absurd hi (Nat.not_lt_zero i)
  | succ n ih =>
    cases bs with
    | nil => exact absurd hlt (Nat.not_lt_zero i)
    | cons b bs =>
      cases i with
      | zero => rfl
      | succ i => exact ih bs (Nat.lt_of_succ_lt_succ hi) (Nat.lt_of_succ_lt_succ hlt)

theorem slice_congr {bs bs' : List UInt8} {pos n : ℕ}
    (h : ∀ i < n, bs[pos + i]? = bs'[pos + i]?) :
    (bs.drop pos).take n = (bs'.drop pos).take n := by
  apply List.ext_getElem?
  intro i
  rw [List.getElem?_take, List.getElem?_take]
  split_ifs with hi
  · rw [List.getElem?_drop, List.getElem?_drop, h i hi]
  · rfl

/-- The bytes of a file after a write of `new` at `pos`. -/
def overwrite (old : List UInt8) (pos : ℕ) (new : List UInt8) : List UInt8 :=
  old.takeD pos 0 ++ new ++ old.drop (pos + new.length)

namespace Overwrites

variable {old new bytes : List UInt8} {pos : ℕ}

theorem of_overwrite (hnew : new ≠ []) : Overwrites old pos new (overwrite old pos new) := by
  have hpos : (old.takeD pos 0).length = pos := List.takeD_length _ _ _
  have hlen : 0 < new.length := List.length_pos_iff.2 hnew
  constructor
  · simp only [overwrite, List.length_append, hpos, List.length_drop]
    omega
  · rw [overwrite, List.append_assoc, List.drop_left' hpos, List.take_left]
  · rintro i hi (hlt | hle)
    · rw [overwrite, List.append_assoc, List.getElem?_append_left (by omega),
        getElem?_takeD old hlt hi]
    · have hfront : (old.takeD pos 0 ++ new).length = pos + new.length := by
        rw [List.length_append, hpos]
      rw [overwrite, List.getElem?_append_right (by omega), hfront, List.getElem?_drop]
      congr 1
      omega

/-- Away from the place of the write a file reads as before. -/
theorem slice_eq (h : Overwrites old pos new bytes) {q n : ℕ} (hle : q + n ≤ old.length)
    (hapart : q + n ≤ pos ∨ pos + new.length ≤ q) :
    (bytes.drop q).take n = (old.drop q).take n :=
  slice_congr fun i hi => h.outside (q + i) (by omega) (by omega)

/-- Writing what is there changes nothing. -/
theorem refl (hle : pos + new.length ≤ old.length) (hsame : (old.drop pos).take new.length = new) :
    Overwrites old pos new old :=
  ⟨by omega, hsame, fun _ _ _ => rfl⟩

end Overwrites

theorem overwrite_self {old new : List UInt8} {pos : ℕ} (hle : pos + new.length ≤ old.length)
    (hsame : (old.drop pos).take new.length = new) : overwrite old pos new = old := by
  have htake : old.takeD pos 0 = old.take pos := List.takeD_eq_take _ (by omega)
  have hsplit := List.take_append_drop new.length (old.drop pos)
  rw [hsame, List.drop_drop] at hsplit
  rw [overwrite, htake, List.append_assoc, hsplit, List.take_append_drop]

open RandomAccessFile

/-- The program ends well, with `Q` of its value and state, unless no room is left. -/
def Ends (m : EStateM (FileError E) σ α) (s : σ) (Q : α → σ → Prop) : Prop :=
  match m s with
  | .ok a s' => Q a s'
  | .error e _ => e = .exhausted

namespace Ends

variable {m : EStateM (FileError E) σ α} {k : α → EStateM (FileError E) σ β} {s : σ}

theorem pure {a : α} {Q : α → σ → Prop} (h : Q a s) :
    Ends (pure a : EStateM (FileError E) σ α) s Q := h

theorem imp {Q Q' : α → σ → Prop} (h : Ends m s Q) (hQ : ∀ a s', Q a s' → Q' a s') :
    Ends m s Q' := by
  unfold Ends at *
  split at h
  · exact hQ _ _ h
  · exact h

theorem bind {Q : β → σ → Prop} {R : α → σ → Prop} (h : Ends m s R)
    (hk : ∀ a s', R a s' → Ends (k a) s' Q) : Ends (m >>= k) s Q := by
  simp only [Ends, Bind.bind, EStateM.bind] at *
  split at h
  case h_1 a s' heq => simpa only [heq] using hk a s' h
  case h_2 e s' heq => simpa only [heq] using h

theorem of_ok {a : α} {s' : σ} {Q : α → σ → Prop} (h : m s = .ok a s') (hQ : Q a s') :
    Ends m s Q := by
  simpa only [Ends, h] using hQ

theorem ok_bind {a : α} {s' : σ} {Q : β → σ → Prop} (h : m s = .ok a s') (hk : Ends (k a) s' Q) :
    Ends (m >>= k) s Q := by
  simpa only [Ends, Bind.bind, EStateM.bind, h] using hk

theorem zoom {get : σ → τ} {set : τ → σ → σ} {m : EStateM (FileError E) τ α}
    {Q : α → σ → Prop} (h : Ends m (get s) fun a t => Q a (set t s)) :
    Ends (Lib.zoom get set m) s Q := by
  simp only [Ends, Lib.zoom] at *
  split at h
  case h_1 a s' heq => simpa only [heq] using h
  case h_2 e s' heq => simpa only [heq] using h

end Ends

/-- The program reads exactly the bytes `bs`, and they say `a`. -/
def Consumes (m : FileM E α) (bs : List UInt8) (a : α) : Prop :=
  ∀ before rest, m (split before (bs ++ rest)) = .ok a (split (before ++ bs) rest)

/-- At the end of a file the program appends exactly the bytes `bs`. -/
def Appends (m : FileM E Unit) (bs : List UInt8) : Prop :=
  ∀ before, before.length < 2 ^ 63 → Ends m (split before []) fun _ f =>
    f = split (before ++ bs) [] ∧ (before ++ bs).length < 2 ^ 63

namespace Consumes

theorem pure (a : α) : Consumes (pure a : FileM E α) [] a := by
  intro before rest
  rw [List.append_nil]
  rfl

theorem bind {m : FileM E α} {k : α → FileM E β} {bs bs' : List UInt8} {a : α} {b : β}
    (h : Consumes m bs a) (hk : Consumes (k a) bs' b) : Consumes (m >>= k) (bs ++ bs') b := by
  intro before rest
  simp only [Bind.bind, EStateM.bind]
  rw [List.append_assoc, h before (bs' ++ rest)]
  simp only
  rw [hk (before ++ bs) rest, List.append_assoc]

/-- A read followed by a program that reads nothing. -/
theorem andThen {m : FileM E α} {k : α → FileM E β} {bs : List UInt8} {a : α} {b : β}
    (h : Consumes m bs a) (hk : Consumes (k a) [] b) : Consumes (m >>= k) bs b := by
  have hbind := h.bind hk
  rwa [List.append_nil] at hbind

theorem map {m : FileM E α} {bs : List UInt8} {a : α} (f : α → β) (h : Consumes m bs a) :
    Consumes (do return f (← m)) bs (f a) :=
  h.andThen (pure (f a))

theorem readFully (bs : List UInt8) : Consumes (readFully bs.length : FileM E _) bs bs := by
  intro before rest
  have hdrop : (split before (bs ++ rest)).bytes.drop (split before (bs ++ rest)).pointer =
      bs ++ rest := List.drop_left
  have hle : bs.length ≤ (bs ++ rest).length := by simp
  simp only [RandomAccessFile.readFully, hdrop, if_pos hle, List.take_left]
  simp [split]

theorem read (bs : List UInt8) : Consumes (read bs.length : FileM E _) bs bs := by
  intro before rest
  have hdrop : (split before (bs ++ rest)).bytes.drop (split before (bs ++ rest)).pointer =
      bs ++ rest := List.drop_left
  simp only [RandomAccessFile.read, hdrop, List.take_left]
  rw [List.takeD_eq_take _ (Nat.le_refl _), List.take_length]
  simp [split]

theorem readInt (n : UInt32) : Consumes (readInt : FileM E _) (beBytes 4 n.toNat) n := by
  have h := (readFully (E := E) (beBytes 4 n.toNat)).map fun bs => UInt32.ofNat (ofBe bs)
  rw [beBytes_length] at h
  rw [ofBe_beBytes_of_lt n.toNat_lt, UInt32.ofNat_toNat] at h
  exact h

theorem readLong (n : UInt64) : Consumes (readLong : FileM E _) (beBytes 8 n.toNat) n := by
  have h := (readFully (E := E) (beBytes 8 n.toNat)).map fun bs => UInt64.ofNat (ofBe bs)
  rw [beBytes_length] at h
  rw [ofBe_beBytes_of_lt n.toNat_lt, UInt64.ofNat_toNat] at h
  exact h

theorem readUTF {s : List UInt8} (h : s.length < 2 ^ 16) :
    Consumes (readUTF : FileM E _) (beBytes 2 s.length ++ s) s := by
  have hlength : Consumes (RandomAccessFile.readFully 2 : FileM E _) (beBytes 2 s.length)
      (beBytes 2 s.length) := by
    simpa using readFully (E := E) (beBytes 2 s.length)
  refine hlength.bind ?_
  simp only [ofBe_beBytes_of_lt (show s.length < 256 ^ 2 from h)]
  exact readFully s

end Consumes

namespace Appends

theorem write (bs : List UInt8) : Appends (write bs : FileM E Unit) bs := by
  intro before hbefore
  simp only [Ends, RandomAccessFile.write, split, List.append_nil]
  split
  case h_1 a f heq =>
    split at heq
    case isTrue hfits =>
      cases heq
      refine ⟨?_, by simpa using hfits⟩
      rw [List.takeD_eq_take _ (Nat.le_refl _), List.take_length,
        List.drop_of_length_le (by omega), List.append_nil, List.length_append]
    case isFalse => cases heq
  case h_2 e f heq =>
    split at heq
    · cases heq
    · cases heq
      rfl

theorem pure : Appends (pure () : FileM E Unit) [] := by
  intro before hbefore
  rw [List.append_nil]
  exact ⟨rfl, hbefore⟩

theorem bind {m m' : FileM E Unit} {bs bs' : List UInt8} (h : Appends m bs) (h' : Appends m' bs') :
    Appends (do m; m') (bs ++ bs') := by
  intro before hbefore
  refine (h before hbefore).bind fun _ f hf => ?_
  obtain ⟨rfl, hlt⟩ := hf
  rw [← List.append_assoc]
  exact h' (before ++ bs) hlt

theorem writeInt (n : UInt32) : Appends (writeInt n : FileM E Unit) (beBytes 4 n.toNat) := write _

theorem writeLong (n : UInt64) : Appends (writeLong n : FileM E Unit) (beBytes 8 n.toNat) :=
  write _

theorem writeUTF (s : List UInt8) :
    Appends (writeUTF s : FileM E Unit) (beBytes 2 s.length ++ s) :=
  (write _).bind (write s)

/-- A loop of writes. -/
theorem forM {γ : Type} {f : γ → FileM E Unit} {enc : γ → List UInt8}
    (h : ∀ x, Appends (f x) (enc x)) (xs : List γ) : Appends (xs.forM f) (xs.flatMap enc) := by
  induction xs with
  | nil => exact pure
  | cons x xs ih => exact (h x).bind ih

end Appends

end Courses.Lib

import Courses.Lib.RingBuffer
import Courses.Lib.Sessions

/-!
# The input of the console

`kern/console.c`: the keyboard driver, which turns scan codes into characters, the serial driver,
and the circular buffer in which characters wait for `cons_getc`. Data that a device has when it
is looked at is taken until there is none left.
-/
namespace Courses.Jos.Console

open Courses.Lib

/-! ## Scan codes -/

/-- Bits of `shift`. -/
def shiftKey : BitVec 32 := 1#32
def ctlKey : BitVec 32 := 2#32
def altKey : BitVec 32 := 4#32
def capslock : BitVec 32 := 8#32
def numlock : BitVec 32 := 16#32
def scrolllock : BitVec 32 := 32#32
def e0esc : BitVec 32 := 64#32

def shiftcode (data : UInt8) : BitVec 32 :=
  (List.lookup data [(0x1D, ctlKey), (0x2A, shiftKey), (0x36, shiftKey), (0x38, altKey),
    (0x9D, ctlKey), (0xB8, altKey)]).getD 0

def togglecode (data : UInt8) : BitVec 32 :=
  (List.lookup data [(0x3A, capslock), (0x45, numlock), (0x46, scrolllock)]).getD 0

/-- A table of 256 characters: the first ones, the others that are set, and 0. -/
def table (start : List UInt8) (others : List (UInt8 × UInt8)) (data : UInt8) : UInt8 :=
  (others.lookup data).getD (start.getD data.toNat 0)

def bytes (s : String) : List UInt8 := s.toList.map fun c => UInt8.ofNat c.toNat

/-- `C(x)` -/
def control (s : String) : List UInt8 := (bytes s).map (· - 64)

def keyDel : UInt8 := 0xE9

/-- The keys of the keypad that all tables have. -/
def keypad : List (UInt8 × UInt8) :=
  [(0xC8, 0xE2), (0xC9, 0xE6), (0xCB, 0xE4), (0xCD, 0xE5), (0xCF, 0xE1), (0xD0, 0xE3),
    (0xD1, 0xE7), (0xD2, 0xE8), (0xD3, keyDel)]

def normalmap : UInt8 → UInt8 :=
  table ([0, 0x1B] ++ bytes "1234567890-=\x08\tqwertyuiop[]\n" ++ [0] ++ bytes "asdfghjkl;'`" ++
      [0] ++ bytes "\\zxcvbnm,./" ++ [0] ++ bytes "*" ++ [0] ++ bytes " " ++
      List.replicate 13 0 ++ bytes "789-456+1230.")
    ([(0xC7, 0xE0), (0x9C, 10), (0xB5, 47)] ++ keypad)

def shiftmap : UInt8 → UInt8 :=
  table ([0, 0x1B] ++ bytes "!@#$%^&*()_+\x08\tQWERTYUIOP\x7b\x7d\n" ++ [0] ++
      bytes "ASDFGHJKL:\"~" ++ [0] ++ bytes "|ZXCVBNM<>?" ++ [0] ++ bytes "*" ++ [0] ++ bytes " " ++
      List.replicate 13 0 ++ bytes "789-456+1230.")
    ([(0xC7, 0xE0), (0x9C, 10), (0xB5, 47)] ++ keypad)

def ctlmap : UInt8 → UInt8 :=
  table (List.replicate 16 0 ++ control "QWERTYUIOP" ++ [0, 0] ++ bytes "\r" ++ [0] ++
      control "ASDFGHJKL" ++ [0, 0, 0, 0] ++ control "\\ZXCVBNM" ++ [0, 0] ++ control "/")
    ([(0x97, 0xE0), (0xB5, 47 - 64)] ++ keypad)

/-- `charcode[shift & (CTL | SHIFT)][data]` -/
def charcode (shift : BitVec 32) (data : UInt8) : UInt8 :=
  if shift &&& ctlKey ≠ 0 then ctlmap data
  else if shift &&& shiftKey ≠ 0 then shiftmap data
  else normalmap data

def swapCase (c : UInt8) : UInt8 :=
  if 97 ≤ c ∧ c ≤ 122 then c - 32 else if 65 ≤ c ∧ c ≤ 90 then c + 32 else c

/-- The state of the keyboard driver, with whether it has asked for a reboot. -/
structure KbdState where
  shift : BitVec 32
  rebooting : Bool

/-- What `kbd_proc_data` does with a scan code. -/
@[grind]
def scan (k : KbdState) (data : UInt8) : UInt8 × KbdState :=
  if data = 0xE0 then (0, { k with shift := k.shift ||| e0esc })
  else if data &&& 0x80 ≠ 0 then
    let data := if k.shift &&& e0esc ≠ 0 then data else data &&& 0x7F
    (0, { k with shift := k.shift &&& ~~~(shiftcode data ||| e0esc) })
  else
    let escaped := k.shift &&& e0esc ≠ 0
    let data := if escaped then data ||| 0x80 else data
    let shift := if escaped then k.shift &&& ~~~e0esc else k.shift
    let shift := (shift ||| shiftcode data) ^^^ togglecode data
    let c := charcode shift data
    let c := if shift &&& capslock ≠ 0 then swapCase c else c
    (c, ⟨shift, k.rebooting || (~~~shift &&& (ctlKey ||| altKey) = 0 && c = keyDel)⟩)

/-! ## Devices -/

structure Keyboard where
  data : List UInt8
  state : KbdState

/-- The next character, 0 for none yet, or nothing when there is no data. -/
def kbdProcData (k : Keyboard) : Option (UInt8 × Keyboard) :=
  match k.data with
  | [] => none
  | data :: rest => some ((scan k.state data).1, ⟨rest, (scan k.state data).2⟩)

def serialProcData : List UInt8 → Option (UInt8 × List UInt8)
  | [] => none
  | c :: rest => some (c, rest)

structure Devices where
  serialExists : Bool
  serial : List UInt8
  keyboard : Keyboard

structure Console where
  devices : Devices
  cons : RingBuffer UInt8

/-- `CONSBUFSIZE` -/
def consbufsize : ℕ := 512

/-- `cons_intr`, which calls `proc` until it has no data; the fuel bounds how often. -/
@[grind]
def consIntr {σ : Type} (proc : σ → Option (UInt8 × σ)) :
    ℕ → σ → RingBuffer UInt8 → σ × RingBuffer UInt8
  | 0, s, cons => (s, cons)
  | fuel + 1, s, cons =>
    match proc s with
    | none => (s, cons)
    | some (c, s) => consIntr proc fuel s (if c = 0 then cons else cons.put consbufsize c)

def serialIntr (s : Console) : Console :=
  let d := s.devices
  if d.serialExists then
    let (serial, cons) := consIntr serialProcData (d.serial.length + 1) d.serial s.cons
    ⟨{ d with serial := serial }, cons⟩
  else s

def kbdIntr (s : Console) : Console :=
  let d := s.devices
  let (keyboard, cons) := consIntr kbdProcData (d.keyboard.data.length + 1) d.keyboard s.cons
  ⟨{ d with keyboard := keyboard }, cons⟩

/-- `cons_getc` -/
def consGetc (s : Console) : UInt8 × Console :=
  let s := kbdIntr (serialIntr s)
  match s.cons.get consbufsize with
  | none => (0, s)
  | some (c, cons) => (c, { s with cons := cons })

/-! ## Runs -/

/-- What happens at the console: data comes to a device, a device interrupts, or somebody asks for
a character. -/
inductive Event
  | serialData (c : UInt8)
  | scanCode (data : UInt8)
  | serialIntr
  | kbdIntr
  | getc

/-- Data comes to a device. -/
def Devices.receive (d : Devices) : Event → Devices
  | .serialData c => { d with serial := d.serial ++ [c] }
  | .scanCode data => { d with keyboard := { d.keyboard with data := d.keyboard.data ++ [data] } }
  | _ => d

/-- One event, with the character that `cons_getc` returns and 0 for other events. -/
def step (s : Console) (e : Event) : UInt8 × Console :=
  match e with
  | .serialData _ | .scanCode _ => (0, { s with devices := s.devices.receive e })
  | .serialIntr => (0, serialIntr s)
  | .kbdIntr => (0, kbdIntr s)
  | .getc => consGetc s

/-! ## What a device gives -/

/-- The characters among the results of a driver. -/
def chars (cs : List UInt8) : List UInt8 := cs.filter (· ≠ 0)

theorem chars_append (cs ds : List UInt8) : chars (cs ++ ds) = chars cs ++ chars ds :=
  List.filter_append ..

theorem foldl_chars_cons {β : Type} (f : β → UInt8 → β) (b : β) (c : UInt8) (cs : List UInt8) :
    (chars (c :: cs)).foldl f b = (chars cs).foldl f (if c = 0 then b else f b c) := by
  by_cases hc : c = 0 <;> simp [chars, hc]

theorem consIntr_serial (fuel : ℕ) (data : List UInt8) (cons : RingBuffer UInt8)
    (hfuel : data.length < fuel) :
    consIntr serialProcData fuel data cons =
      ([], (chars data).foldl (RingBuffer.put consbufsize) cons) := by
  induction data generalizing fuel cons with
  | nil =>
    obtain ⟨fuel, rfl⟩ := Nat.exists_eq_add_of_lt hfuel
    rfl
  | cons c data ih =>
    obtain ⟨fuel, rfl⟩ : ∃ k, fuel = k + 1 := Nat.exists_eq_succ_of_ne_zero (by omega)
    rw [foldl_chars_cons, ← ih fuel _ (by simpa using hfuel)]
    rfl

theorem consIntr_kbd (fuel : ℕ) (data : List UInt8) (state : KbdState) (cons : RingBuffer UInt8)
    (hfuel : data.length < fuel) :
    consIntr kbdProcData fuel ⟨data, state⟩ cons =
      (⟨[], (session scan state data).2⟩,
        (chars (session scan state data).1).foldl (RingBuffer.put consbufsize) cons) := by
  induction data generalizing fuel state cons with
  | nil =>
    obtain ⟨fuel, rfl⟩ := Nat.exists_eq_add_of_lt hfuel
    rfl
  | cons c data ih =>
    obtain ⟨fuel, rfl⟩ : ∃ k, fuel = k + 1 := Nat.exists_eq_succ_of_ne_zero (by omega)
    simp only [session]
    rw [foldl_chars_cons, ← ih fuel _ _ (by simpa using hfuel)]
    rfl

/-- Where a character comes from. -/
inductive Source
  | serial
  | kbd
  deriving DecidableEq

namespace Devices

def pollSerial (d : Devices) : List UInt8 × Devices :=
  if d.serialExists then (chars d.serial, { d with serial := [] }) else ([], d)

def pollKbd (d : Devices) : List UInt8 × Devices :=
  let decoded := session scan d.keyboard.state d.keyboard.data
  (chars decoded.1, { d with keyboard := ⟨[], decoded.2⟩ })

/-- The characters that an event takes from the devices. -/
def poll (d : Devices) : Event → List (Source × UInt8) × Devices
  | .serialIntr => ((d.pollSerial).1.map (Source.serial, ·), (d.pollSerial).2)
  | .kbdIntr => ((d.pollKbd).1.map (Source.kbd, ·), (d.pollKbd).2)
  | .getc =>
    ((d.pollSerial).1.map (Source.serial, ·) ++ ((d.pollSerial).2.pollKbd).1.map (Source.kbd, ·),
      ((d.pollSerial).2.pollKbd).2)
  | e => ([], d.receive e)

end Devices

theorem serialIntr_eq (s : Console) :
    serialIntr s = ⟨(s.devices.pollSerial).2,
      (s.devices.pollSerial).1.foldl (RingBuffer.put consbufsize) s.cons⟩ := by
  unfold serialIntr Devices.pollSerial
  dsimp only
  split
  · rw [consIntr_serial _ _ _ (Nat.lt_succ_self _)]
  · rfl

theorem kbdIntr_eq (s : Console) :
    kbdIntr s = ⟨(s.devices.pollKbd).2,
      (s.devices.pollKbd).1.foldl (RingBuffer.put consbufsize) s.cons⟩ := by
  unfold kbdIntr Devices.pollKbd
  dsimp only
  rw [consIntr_kbd _ _ _ _ (Nat.lt_succ_self _)]

/-! ## The buffer is a queue -/

/-- The devices, and the characters that wait. -/
structure Queue where
  devices : Devices
  waiting : List UInt8

/-- An event at a queue that has room for less than `CONSBUFSIZE` characters. -/
def Queue.step (q : Queue) (e : Event) : UInt8 × Queue :=
  let (cs, devices) := q.devices.poll e
  let waiting := (cs.map Prod.snd).foldl (RingBuffer.enqueue consbufsize) q.waiting
  match e with
  | .getc => (waiting.headD 0, ⟨devices, waiting.tail⟩)
  | _ => (0, ⟨devices, waiting⟩)

/-- The console does what the queue does. -/
structure Refines (s : Console) (q : Queue) : Prop where
  devices : s.devices = q.devices
  cons : s.cons.Holds consbufsize q.waiting

theorem holds_foldl {cons : RingBuffer UInt8} {waiting : List UInt8}
    (h : cons.Holds consbufsize waiting) (cs : List UInt8) :
    (cs.foldl (RingBuffer.put consbufsize) cons).Holds consbufsize
      (cs.foldl (RingBuffer.enqueue consbufsize) waiting) := by
  induction cs generalizing cons waiting with
  | nil => exact h
  | cons c cs ih => exact ih (h.put c)

theorem map_snd_pair (source : Source) (cs : List UInt8) :
    (cs.map (source, ·)).map Prod.snd = cs := by
  simp [Function.comp_def]

theorem Refines.step {s : Console} {q : Queue} (h : Refines s q) (e : Event) :
    (step s e).1 = (q.step e).1 ∧ Refines (step s e).2 (q.step e).2 := by
  obtain ⟨hdevices, hcons⟩ := h
  cases e with
  | serialData c =>
    constructor
    · rfl
    · exact ⟨by rw [Queue.step, ← hdevices]; rfl, hcons⟩
  | scanCode data =>
    constructor
    · rfl
    · exact ⟨by rw [Queue.step, ← hdevices]; rfl, hcons⟩
  | serialIntr =>
    constructor
    · rfl
    · simp only [Console.step, Queue.step, Devices.poll, serialIntr_eq, map_snd_pair, ← hdevices]
      exact ⟨rfl, holds_foldl hcons _⟩
  | kbdIntr =>
    constructor
    · rfl
    · simp only [Console.step, Queue.step, Devices.poll, kbdIntr_eq, map_snd_pair, ← hdevices]
      exact ⟨rfl, holds_foldl hcons _⟩
  | getc =>
    simp only [Console.step, Queue.step, Devices.poll, consGetc, kbdIntr_eq, serialIntr_eq,
      List.map_append, map_snd_pair, List.foldl_append, ← hdevices]
    have hpolled := holds_foldl (holds_foldl hcons (s.devices.pollSerial).1)
      ((s.devices.pollSerial).2.pollKbd).1
    generalize List.foldl (RingBuffer.enqueue consbufsize) _ _ = waiting at hpolled ⊢
    generalize List.foldl (RingBuffer.put consbufsize) _ _ = cons at hpolled ⊢
    cases waiting with
    | nil =>
      rw [hpolled.get_nil]
      exact ⟨rfl, rfl, hpolled⟩
    | cons c waiting =>
      obtain ⟨cons', hget, hrest⟩ := hpolled.get_cons
      rw [hget]
      exact ⟨rfl, rfl, hrest⟩

/-- The characters that a run takes from the devices. -/
def polled (d : Devices) : List Event → List (Source × UInt8)
  | [] => []
  | e :: es => (d.poll e).1 ++ polled (d.poll e).2 es

theorem polled_ne_zero (d : Devices) (e : Event) : ∀ c ∈ (d.poll e).1.map Prod.snd, c ≠ 0 := by
  have hchars : ∀ cs, ∀ c ∈ chars cs, c ≠ 0 := by
    intro cs c hc
    simpa using (List.mem_filter.1 hc).2
  have hserial : ∀ c ∈ (d.pollSerial).1, c ≠ 0 := by
    unfold Devices.pollSerial
    split
    · exact hchars _
    · simp
  cases e with
  | serialData c => simp [Devices.poll]
  | scanCode data => simp [Devices.poll]
  | serialIntr => simpa only [Devices.poll, map_snd_pair] using hserial
  | kbdIntr =>
    rw [Devices.poll, map_snd_pair]
    exact hchars _
  | getc =>
    simp only [Devices.poll, List.map_append, map_snd_pair, List.mem_append]
    rintro c (hc | hc)
    · exact hserial c hc
    · exact hchars _ c hc

/-- How the characters that wait relate to those that have come: they are the last ones, and all
but whole laps and those that were read are there. -/
structure Follows (come waiting : List UInt8) (read : ℕ) : Prop where
  suffix : waiting <:+ come
  length_lt : waiting.length < consbufsize
  length : waiting.length + read ≡ come.length [MOD consbufsize]

/-- One event at the queue: characters come, and the first one that waits may be read. -/
theorem Queue.step_spec (q : Queue) (e : Event) (hq : q.waiting.length < consbufsize) :
    ∃ waiting, Follows (q.waiting ++ (q.devices.poll e).1.map Prod.snd) waiting 0 ∧
      ((q.step e).2.waiting = waiting ∧ (q.step e).1 = 0 ∨
        waiting = (q.step e).1 :: (q.step e).2.waiting) := by
  refine ⟨((q.devices.poll e).1.map Prod.snd).foldl (RingBuffer.enqueue consbufsize) q.waiting,
    ?_, ?_⟩
  · have hlength (k : ℕ) : k - k / consbufsize * consbufsize = k % consbufsize := by
      rw [Nat.mul_comm, Nat.mod_def]
    rw [RingBuffer.foldl_enqueue hq]
    constructor
    · exact List.drop_suffix _ _
    · rw [List.length_drop, List.length_append, hlength]
      exact Nat.mod_lt _ (by decide)
    · rw [List.length_drop, List.length_append, hlength]
      exact Nat.mod_modEq _ _
  · cases e with
    | getc =>
      simp only [Queue.step]
      cases List.foldl (RingBuffer.enqueue consbufsize) _ _ with
      | nil => exact .inl ⟨rfl, rfl⟩
      | cons c waiting => exact .inr rfl
    | _ => exact .inl ⟨rfl, rfl⟩

theorem Queue.step_devices (q : Queue) (e : Event) :
    (q.step e).2.devices = (q.devices.poll e).2 := by
  cases e <;> rfl

section Follows

variable {come waiting later left : List UInt8} {read : ℕ}

theorem Follows.append_sublist (h : Follows come waiting 0) (later : List UInt8) :
    (waiting ++ later).Sublist (come ++ later) :=
  h.suffix.sublist.append (List.Sublist.refl later)

theorem Follows.trans (h : Follows come waiting 0) (h' : Follows (waiting ++ later) left read) :
    Follows (come ++ later) left read := by
  obtain ⟨lost, hlost⟩ := h.suffix
  constructor
  · exact h'.suffix.trans ⟨lost, by rw [← hlost, List.append_assoc]⟩
  · exact h'.length_lt
  · have hlength := h.length.add_right later.length
    rw [Nat.add_zero, ← List.length_append, ← List.length_append] at hlength
    exact h'.length.trans hlength

theorem Follows.cons (h : Follows waiting left read) (c : UInt8) :
    Follows (c :: waiting) left (read + 1) :=
  ⟨h.suffix.trans (List.suffix_cons c waiting), h.length_lt, h.length.add_right 1⟩

end Follows

section Coming

variable {q : Queue}

theorem Queue.come_ne_zero (e : Event) (hne : ∀ c ∈ q.waiting, c ≠ 0) :
    ∀ c ∈ q.waiting ++ (q.devices.poll e).1.map Prod.snd, c ≠ 0 := by
  intro c hc
  obtain hc | hc := List.mem_append.1 hc
  · exact hne c hc
  · exact polled_ne_zero q.devices e c hc

theorem Queue.come_cons (e : Event) (es : List Event) :
    q.waiting ++ (polled q.devices (e :: es)).map Prod.snd =
      (q.waiting ++ (q.devices.poll e).1.map Prod.snd) ++
        (polled (q.step e).2.devices es).map Prod.snd := by
  rw [polled, List.map_append, List.append_assoc, Queue.step_devices]

end Coming

/-- A run of the queue: what was read and what waits comes, in this order, from what waited and
what came since. -/
theorem Queue.run_spec (q : Queue) (es : List Event) (hq : q.waiting.length < consbufsize)
    (hne : ∀ c ∈ q.waiting, c ≠ 0) :
    let run := session Queue.step q es
    let come := q.waiting ++ (polled q.devices es).map Prod.snd
    Follows come run.2.waiting (chars run.1).length ∧
      (chars run.1 ++ run.2.waiting).Sublist come := by
  induction es generalizing q with
  | nil =>
    simp only [session, polled, chars, List.filter_nil, List.map_nil, List.append_nil]
    exact ⟨⟨List.suffix_rfl, hq, rfl⟩, List.Sublist.refl _⟩
  | cons e es ih =>
    obtain ⟨waiting, hfollows, hread⟩ := q.step_spec e hq
    have hwaiting : ∀ c ∈ waiting, c ≠ 0 := fun c hc =>
      Queue.come_ne_zero e hne c (hfollows.suffix.subset hc)
    dsimp only
    rw [Queue.come_cons]
    obtain ⟨hsame, hnone⟩ | hfirst := hread
    · have hrest := ih (q.step e).2 (hsame ▸ hfollows.length_lt) (hsame ▸ hwaiting)
      have hchars : chars (session Queue.step q (e :: es)).1 =
          chars (session Queue.step (q.step e).2 es).1 := by
        simp [session, chars, hnone]
      rw [hsame] at hrest
      rw [hchars]
      exact ⟨hfollows.trans hrest.1, hrest.2.trans (hfollows.append_sublist _)⟩
    · have hlength : (q.step e).2.waiting.length < consbufsize := by
        have hlt := hfollows.length_lt
        rw [hfirst, List.length_cons] at hlt
        omega
      have hrest := ih (q.step e).2 hlength fun c hc =>
        hwaiting c (hfirst ▸ List.mem_cons_of_mem _ hc)
      have hreply : (q.step e).1 ≠ 0 := hwaiting _ (hfirst ▸ List.mem_cons_self)
      have hchars : chars (session Queue.step q (e :: es)).1 =
          (q.step e).1 :: chars (session Queue.step (q.step e).2 es).1 := by
        simp [session, chars, hreply]
      have hcons := hrest.1.cons (q.step e).1
      rw [← List.cons_append, ← hfirst] at hcons
      have hsublist : ((q.step e).1 :: chars (session Queue.step (q.step e).2 es).1 ++
          (session Queue.step (q.step e).2 es).2.waiting).Sublist
            (waiting ++ (polled (q.step e).2.devices es).map Prod.snd) := by
        rw [hfirst]
        exact hrest.2.cons_cons (q.step e).1
      rw [hchars]
      exact ⟨hfollows.trans hcons, hsublist.trans (hfollows.append_sublist _)⟩

/-- The console when the kernel starts. -/
def boot (d : Devices) (buf : ℕ → UInt8) : Console := ⟨d, ⟨buf, 0, 0⟩⟩

theorem refines_boot (d : Devices) (buf : ℕ → UInt8) : Refines (boot d buf) ⟨d, []⟩ := by
  refine ⟨rfl, ?_, ?_, rfl, ?_⟩
  · exact (by decide : 0 < consbufsize)
  · exact (by decide : 0 < consbufsize)
  · intro i hi
    cases hi

theorem run_refines (d : Devices) (buf : ℕ → UInt8) (es : List Event) :
    (session step (boot d buf) es).1 = (session Queue.step ⟨d, []⟩ es).1 ∧
      Refines (session step (boot d buf) es).2 (session Queue.step ⟨d, []⟩ es).2 := by
  refine session_refines (fun s q e h (_ : True) => h.step e) (refines_boot d buf) ?_
  generalize (⟨d, []⟩ : Queue) = q
  induction es generalizing q with
  | nil => trivial
  | cons e es ih => exact ⟨trivial, ih _⟩

/-- What waits in the buffer after a run: of the characters that came the last ones, as many as
came and were not read, but for whole laps. Characters are read in the order in which they came. -/
theorem buffer_after_run (d : Devices) (buf : ℕ → UInt8) (es : List Event) :
    let run := session step (boot d buf) es
    let come := (polled d es).map Prod.snd
    let read := chars run.1
    let left := (come.length - read.length) % consbufsize
    read.length + left ≤ come.length ∧ read.Sublist come ∧
      run.2.cons.Holds consbufsize (come.drop (come.length - left)) := by
  intro run come read left
  obtain ⟨hreplies, hrefines⟩ := run_refines d buf es
  have hempty : ([] : List UInt8).length < consbufsize := by decide
  obtain ⟨hfollows, hsublist⟩ := Queue.run_spec ⟨d, []⟩ es hempty (by simp)
  rw [List.nil_append, ← hreplies] at hfollows hsublist
  have hlength := hsublist.length_le
  rw [List.length_append] at hlength
  have hleft : left = (session Queue.step ⟨d, []⟩ es).2.waiting.length := by
    have hmod : (come.length - read.length) + read.length ≡
        (session Queue.step ⟨d, []⟩ es).2.waiting.length + read.length [MOD consbufsize] := by
      rw [Nat.sub_add_cancel ((Nat.le_add_right _ _).trans hlength)]
      exact hfollows.length.symm
    have hcancel := Nat.ModEq.add_right_cancel' _ hmod
    exact Eq.trans hcancel (Nat.mod_eq_of_lt hfollows.length_lt)
  have hwaiting := List.suffix_iff_eq_drop.1 hfollows.suffix
  rw [hleft, ← hwaiting]
  exact ⟨hlength, (List.sublist_append_left _ _).trans hsublist, hrefines.cons⟩

/-- With the characters that the event takes from the devices the buffer is not full. -/
def HasRoom (q : Queue) (e : Event) : Prop :=
  q.waiting.length + (q.devices.poll e).1.length < consbufsize

theorem Queue.run_of_room (q : Queue) (es : List Event) (hroom : Meets Queue.step HasRoom q es)
    (hne : ∀ c ∈ q.waiting, c ≠ 0) :
    chars (session Queue.step q es).1 ++ (session Queue.step q es).2.waiting =
      q.waiting ++ (polled q.devices es).map Prod.snd := by
  induction es generalizing q with
  | nil => simp [session, polled, chars]
  | cons e es ih =>
    obtain ⟨hroom, hrest⟩ := hroom
    have hwaiting : ((q.devices.poll e).1.map Prod.snd).foldl (RingBuffer.enqueue consbufsize)
        q.waiting = q.waiting ++ (q.devices.poll e).1.map Prod.snd :=
      RingBuffer.foldl_enqueue_of_lt (by simpa [HasRoom] using hroom)
    have hall := Queue.come_ne_zero e hne
    have hread : q.waiting ++ (q.devices.poll e).1.map Prod.snd =
        chars [(q.step e).1] ++ (q.step e).2.waiting := by
      cases e with
      | getc =>
        simp only [Queue.step, hwaiting]
        cases hcome : q.waiting ++ (q.devices.poll .getc).1.map Prod.snd with
        | nil => rfl
        | cons c waiting =>
          rw [hcome] at hall
          simp [chars, hall c List.mem_cons_self]
      | _ =>
        simp only [Queue.step, hwaiting]
        rfl
    have hnext : ∀ c ∈ (q.step e).2.waiting, c ≠ 0 := by
      intro c hc
      exact hall c (hread ▸ List.mem_append_right _ hc)
    have hih := ih (q.step e).2 hrest hnext
    rw [Queue.come_cons, hread, List.append_assoc, ← hih, ← List.append_assoc, ← chars_append]
    rfl

/-- While there is room nothing is lost: all characters that came are read in their order, or
wait. -/
theorem read_in_order (d : Devices) (buf : ℕ → UInt8) (es : List Event)
    (hroom : Meets Queue.step HasRoom ⟨d, []⟩ es) :
    ∃ waiting, (session step (boot d buf) es).2.cons.Holds consbufsize waiting ∧
      chars (session step (boot d buf) es).1 ++ waiting = (polled d es).map Prod.snd := by
  obtain ⟨hreplies, hrefines⟩ := run_refines d buf es
  refine ⟨_, hrefines.cons, ?_⟩
  rw [hreplies]
  simpa using Queue.run_of_room ⟨d, []⟩ es hroom (by simp)

/-- A line without a keyboard. -/
def serialLine : Devices := ⟨true, [], ⟨[], ⟨0, false⟩⟩⟩

theorem hasRoom_serialLine :
    Meets Queue.step HasRoom ⟨serialLine, []⟩ [.serialData 104, .serialIntr, .getc] :=
  ⟨(by decide : 0 < 512), (by decide : 1 < 512), (by decide : 1 < 512), trivial⟩

theorem read_in_order_serialLine :
    ∃ waiting, (session step (boot serialLine fun _ => 0)
        [.serialData 104, .serialIntr, .getc]).2.cons.Holds consbufsize waiting ∧
      chars (session step (boot serialLine fun _ => 0)
          [.serialData 104, .serialIntr, .getc]).1 ++ waiting =
        (polled serialLine [.serialData 104, .serialIntr, .getc]).map Prod.snd :=
  read_in_order serialLine _ _ hasRoom_serialLine

/-! ## No device is forgotten -/

def sentSerial (es : List Event) : List UInt8 :=
  es.filterMap fun e => match e with
    | .serialData c => some c
    | _ => none

def sentScan (es : List Event) : List UInt8 :=
  es.filterMap fun e => match e with
    | .scanCode data => some data
    | _ => none

/-- The characters of one source. -/
def of (source : Source) (cs : List (Source × UInt8)) : List UInt8 :=
  (cs.filter (·.1 = source)).map Prod.snd

theorem of_append (source : Source) (cs ds : List (Source × UInt8)) :
    of source (cs ++ ds) = of source cs ++ of source ds := by
  simp [of]

theorem of_pair (source other : Source) (cs : List UInt8) :
    of source (cs.map (other, ·)) = if other = source then cs else [] := by
  by_cases h : other = source <;> simp [of, List.filter_map, Function.comp_def, h]

/-- What the serial line has sent comes, but for what still waits there. -/
theorem Devices.poll_serial (d : Devices) (e : Event) (hd : d.serialExists = true) :
    (d.poll e).2.serialExists = true ∧
      of .serial (d.poll e).1 ++ chars (d.poll e).2.serial =
        chars (d.serial ++ sentSerial [e]) := by
  cases e with
  | serialData c => exact ⟨hd, rfl⟩
  | scanCode data => exact ⟨hd, by simp [Devices.poll, Devices.receive, sentSerial, of]⟩
  | serialIntr => simp [Devices.poll, Devices.pollSerial, hd, of_pair, sentSerial, chars]
  | kbdIntr => simp [Devices.poll, Devices.pollKbd, hd, of_pair, sentSerial]
  | getc =>
    simp [Devices.poll, Devices.pollSerial, Devices.pollKbd, hd, of_append, of_pair, sentSerial,
      chars]

/-- What the keyboard has sent is decoded, but for what still waits there. -/
theorem Devices.poll_kbd (d : Devices) (e : Event) (later : List UInt8) :
    chars (session scan d.keyboard.state (d.keyboard.data ++ (sentScan [e] ++ later))).1 =
      of .kbd (d.poll e).1 ++ chars (session scan (d.poll e).2.keyboard.state
        ((d.poll e).2.keyboard.data ++ later)).1 := by
  have hpoll : ∀ d : Devices,
      chars (session scan d.keyboard.state (d.keyboard.data ++ later)).1 =
        (d.pollKbd).1 ++ chars (session scan (d.pollKbd).2.keyboard.state
          ((d.pollKbd).2.keyboard.data ++ later)).1 := by
    intro d
    rw [session_append, chars_append]
    rfl
  have hserial : (d.pollSerial).2.keyboard = d.keyboard := by
    unfold pollSerial
    split <;> rfl
  cases e with
  | serialData c => rfl
  | scanCode data => simp [poll, receive, sentScan, of]
  | serialIntr => simp [poll, hserial, of_pair, sentScan]
  | kbdIntr => simpa [poll, of_pair, sentScan] using hpoll d
  | getc => simpa [poll, hserial, of_append, of_pair, sentScan] using hpoll (d.pollSerial).2

/-- The devices after a run. -/
def devicesAfter (d : Devices) (es : List Event) : Devices :=
  es.foldl (fun d e => (d.poll e).2) d

theorem Queue.run_devices (q : Queue) (es : List Event) :
    (session Queue.step q es).2.devices = devicesAfter q.devices es := by
  induction es generalizing q with
  | nil => rfl
  | cons e es ih =>
    have hrest := ih (q.step e).2
    rw [Queue.step_devices] at hrest
    exact hrest

theorem run_devices (d : Devices) (buf : ℕ → UInt8) (es : List Event) :
    (session step (boot d buf) es).2.devices = devicesAfter d es := by
  rw [(run_refines d buf es).2.devices, Queue.run_devices]

/-- What comes from the serial line, and from the keyboard, comes once and in order: it is what
the line has sent, and what the scan codes stand for, but for data at which nobody has looked. -/
theorem polled_once (d : Devices) (buf : ℕ → UInt8) (es : List Event) :
    let after := (session step (boot d buf) es).2.devices
    (d.serialExists = true → of .serial (polled d es) ++ chars after.serial =
      chars (d.serial ++ sentSerial es)) ∧
    of .kbd (polled d es) ++ chars (session scan after.keyboard.state after.keyboard.data).1 =
      chars (session scan d.keyboard.state (d.keyboard.data ++ sentScan es)).1 := by
  dsimp only
  rw [run_devices]
  constructor
  · induction es generalizing d with
    | nil => simp [polled, devicesAfter, sentSerial, of]
    | cons e es ih =>
      intro hd
      obtain ⟨hexists, hserial⟩ := d.poll_serial e hd
      have hrest := ih (d.poll e).2 hexists
      have hsent : sentSerial (e :: es) = sentSerial [e] ++ sentSerial es :=
        List.filterMap_append (l := [e]) ..
      rw [polled, of_append, List.append_assoc, devicesAfter, List.foldl_cons, ← devicesAfter,
        hrest, chars_append, ← List.append_assoc, hserial, hsent, ← List.append_assoc,
        ← chars_append]
  · induction es generalizing d with
    | nil => simp [polled, devicesAfter, sentScan, of]
    | cons e es ih =>
      have hrest := ih (d.poll e).2
      have hsent : sentScan (e :: es) = sentScan [e] ++ sentScan es :=
        List.filterMap_append (l := [e]) ..
      rw [polled, of_append, List.append_assoc, devicesAfter, List.foldl_cons, ← devicesAfter,
        hrest, hsent, d.poll_kbd e]

/-! ## Modifier keys -/

/-- A key goes down or comes up. The upper bit of a key says that its codes are escaped. -/
structure KeyEvent where
  key : UInt8
  pressed : Bool
  key_ne : key &&& 0x7F ≠ 0x60

/-- The scan codes that the keyboard sends. -/
def KeyEvent.codes (e : KeyEvent) : List UInt8 :=
  if e.key &&& 0x80 = 0 then [if e.pressed then e.key else e.key ||| 0x80]
  else [0xE0, if e.pressed then e.key &&& 0x7F else e.key]

/-- The codes of the key are told apart by their upper bit, and none of them is the escape. -/
def CodesApart (key : UInt8) : Prop :=
  if key &&& 0x80 = 0 then
    key ≠ 0xE0 ∧ key ||| 0x80 ≠ 0xE0 ∧ (key ||| 0x80) &&& 0x80 ≠ 0 ∧ (key ||| 0x80) &&& 0x7F = key
  else
    key ≠ 0xE0 ∧ key &&& 0x7F ≠ 0xE0 ∧ (key &&& 0x7F) &&& 0x80 = 0 ∧ (key &&& 0x7F) ||| 0x80 = key

instance (key : UInt8) : Decidable (CodesApart key) := by
  unfold CodesApart
  infer_instance

theorem codesApart_ofNat :
    ∀ n < 256, UInt8.ofNat n &&& 0x7F ≠ 0x60 → CodesApart (UInt8.ofNat n) := by
  decide +kernel

theorem KeyEvent.codesApart (e : KeyEvent) : CodesApart e.key := by
  have hapart := codesApart_ofNat e.key.toNat e.key.toNat_lt
  rw [UInt8.ofNat_toNat] at hapart
  exact hapart e.key_ne

/-- What a key does to the modifiers. -/
def KeyEvent.shift (e : KeyEvent) (shift : BitVec 32) : BitVec 32 :=
  if e.pressed then (shift ||| shiftcode e.key) ^^^ togglecode e.key
  else shift &&& ~~~(shiftcode e.key ||| e0esc)

theorem and_e0esc (s : BitVec 32) : s &&& e0esc = 0 ↔ s.getLsbD 6 = false := by
  have htwo : e0esc = BitVec.twoPow 32 6 := rfl
  have hne : BitVec.twoPow 32 6 ≠ 0 := by decide
  rw [htwo, BitVec.and_twoPow]
  cases s.getLsbD 6 with
  | false => exact iff_of_true rfl rfl
  | true => exact iff_of_false hne Bool.noConfusion

theorem or_e0esc (s : BitVec 32) : (s ||| e0esc) &&& e0esc ≠ 0 := by
  have hbit : e0esc.getLsbD 6 = true := by decide
  rw [Ne, and_e0esc, BitVec.getLsbD_or, hbit, Bool.or_true]
  exact Bool.noConfusion

theorem or_e0esc_and (s : BitVec 32) (h : s.getLsbD 6 = false) :
    (s ||| e0esc) &&& ~~~e0esc = s := by
  have htwo : e0esc = BitVec.twoPow 32 6 := rfl
  apply BitVec.eq_of_getLsbD_eq
  intro i hi
  rw [htwo, BitVec.getLsbD_and, BitVec.getLsbD_or, BitVec.getLsbD_not, BitVec.getLsbD_twoPow]
  by_cases hsix : i = 6
  · subst hsix
    rw [h]
    decide
  · simp [hi, Ne.symm hsix]

theorem or_e0esc_and_not (s t : BitVec 32) :
    (s ||| e0esc) &&& ~~~(t ||| e0esc) = s &&& ~~~(t ||| e0esc) := by
  apply BitVec.eq_of_getLsbD_eq
  intro i hi
  simp only [BitVec.getLsbD_and, BitVec.getLsbD_or, BitVec.getLsbD_not]
  cases s.getLsbD i <;> cases e0esc.getLsbD i <;> simp

/-- A code below `0x80` is the press of a key. -/
theorem scan_press (k : KbdState) {data : UInt8} (hne : data ≠ 0xE0) (hlow : data &&& 0x80 = 0) :
    (scan k data).2.shift = if k.shift &&& e0esc ≠ 0 then
      ((k.shift &&& ~~~e0esc) ||| shiftcode (data ||| 0x80)) ^^^ togglecode (data ||| 0x80)
    else (k.shift ||| shiftcode data) ^^^ togglecode data := by
  unfold scan
  rw [if_neg hne, if_neg (not_not.2 hlow)]
  dsimp only
  split <;> rfl

theorem scan_release (k : KbdState) {data : UInt8} (hne : data ≠ 0xE0)
    (hhigh : data &&& 0x80 ≠ 0) :
    (scan k data).2.shift = k.shift &&&
      ~~~(shiftcode (if k.shift &&& e0esc ≠ 0 then data else data &&& 0x7F) ||| e0esc) := by
  unfold scan
  rw [if_neg hne, if_pos hhigh]

theorem session_codes (k : KbdState) (e : KeyEvent) (hk : k.shift.getLsbD 6 = false) :
    (session scan k e.codes).2.shift = e.shift k.shift := by
  have hbits := e.codesApart
  have hnone : ¬ k.shift &&& e0esc ≠ 0 := not_not.2 ((and_e0esc k.shift).2 hk)
  have hesc := or_e0esc k.shift
  have hback := or_e0esc_and k.shift hk
  have hstart : (scan k 0xE0).2 = { k with shift := k.shift ||| e0esc } := rfl
  unfold CodesApart at hbits
  unfold KeyEvent.codes KeyEvent.shift
  by_cases hkey : e.key &&& 0x80 = 0
  · rw [if_pos hkey] at hbits ⊢
    obtain ⟨hne, hne', hhigh, hlow⟩ := hbits
    cases e.pressed with
    | true => exact (scan_press k hne hkey).trans (if_neg hnone)
    | false =>
      have hscan := scan_release k hne' hhigh
      rw [if_neg hnone, hlow] at hscan
      exact hscan
  · rw [if_neg hkey] at hbits ⊢
    obtain ⟨hne, hne', hlow, hhigh⟩ := hbits
    cases e.pressed with
    | true =>
      have hscan := scan_press (scan k 0xE0).2 hne' hlow
      rw [hstart, if_pos hesc, hback, hhigh] at hscan
      exact hscan
    | false =>
      have hscan := scan_release (scan k 0xE0).2 hne hkey
      rw [hstart, if_pos hesc] at hscan
      exact hscan.trans (or_e0esc_and_not _ _)

/-! ### Bits -/

theorem shiftcode_cases (key : UInt8) :
    shiftcode key = 0 ∨ shiftcode key = ctlKey ∨ shiftcode key = shiftKey ∨
      shiftcode key = altKey := by
  simp only [shiftcode, List.lookup_cons, List.lookup_nil]
  repeat' split
  all_goals simp

theorem togglecode_cases (key : UInt8) :
    togglecode key = 0 ∨ togglecode key = capslock ∨ togglecode key = numlock ∨
      togglecode key = scrolllock := by
  simp only [togglecode, List.lookup_cons, List.lookup_nil]
  repeat' split
  all_goals simp

/-- Keys that are held and keys that toggle have different bits. -/
theorem getLsbD_shiftcode (key : UInt8) {i : ℕ} (hi : 3 ≤ i) :
    (shiftcode key).getLsbD i = false := by
  have hlt : 2 ^ 3 ≤ 2 ^ i := Nat.pow_le_pow_right (by decide) hi
  have hsmall : (shiftcode key).toNat < 2 ^ 3 := by
    obtain h | h | h | h := shiftcode_cases key <;> rw [h] <;> decide
  exact Nat.testBit_lt_two_pow (hsmall.trans_le hlt)

theorem getLsbD_togglecode (key : UInt8) {i : ℕ} (hi : i < 3 ∨ 6 ≤ i) :
    (togglecode key).getLsbD i = false := by
  obtain hi | hi := hi
  · obtain h | h | h | h := togglecode_cases key <;> rw [h] <;> interval_cases i <;> decide
  · have hlt : 2 ^ 6 ≤ 2 ^ i := Nat.pow_le_pow_right (by decide) hi
    have hsmall : (togglecode key).toNat < 2 ^ 6 := by
      obtain h | h | h | h := togglecode_cases key <;> rw [h] <;> decide
    exact Nat.testBit_lt_two_pow (hsmall.trans_le hlt)

section Events

variable {e : KeyEvent} {s : BitVec 32} {i : ℕ}

theorem KeyEvent.shift_held (e : KeyEvent) (s : BitVec 32) (hi : i < 3) :
    (e.shift s).getLsbD i =
      if (shiftcode e.key).getLsbD i then e.pressed else s.getLsbD i := by
  have htoggle := getLsbD_togglecode e.key (.inl hi)
  have hesc : e0esc.getLsbD i = false := by interval_cases i <;> decide
  have hlt : i < 32 := by omega
  unfold KeyEvent.shift
  cases e.pressed <;> cases hcode : (shiftcode e.key).getLsbD i <;>
    simp [-BitVec.getLsbD_eq_getElem, BitVec.getLsbD_and, htoggle, hesc, hlt, hcode]

theorem KeyEvent.shift_toggled (e : KeyEvent) (s : BitVec 32) (hi : 3 ≤ i) (hi' : i < 6) :
    (e.shift s).getLsbD i =
      (s.getLsbD i ^^ (e.pressed && (togglecode e.key).getLsbD i)) := by
  have hshift := getLsbD_shiftcode e.key hi
  have hesc : e0esc.getLsbD i = false := by interval_cases i <;> decide
  have hlt : i < 32 := by omega
  unfold KeyEvent.shift
  cases e.pressed <;> simp [-BitVec.getLsbD_eq_getElem, hshift, hesc, hlt]

theorem KeyEvent.shift_e0esc (e : KeyEvent) (hs : s.getLsbD 6 = false) :
    (e.shift s).getLsbD 6 = false := by
  have hshift := getLsbD_shiftcode e.key (show 3 ≤ 6 by decide)
  have htoggle := getLsbD_togglecode e.key (.inr (le_refl 6))
  unfold KeyEvent.shift
  cases e.pressed with
  | true => rw [if_pos rfl, BitVec.getLsbD_xor, BitVec.getLsbD_or, hs, hshift, htoggle]; rfl
  | false => rw [if_neg Bool.noConfusion, BitVec.getLsbD_and, hs, Bool.false_and]

end Events

/-- The last event of a key that has the bit is a press. -/
def held (i : ℕ) (es : List KeyEvent) : Bool :=
  ((es.filter fun e => (shiftcode e.key).getLsbD i).getLast?).any KeyEvent.pressed

/-- Keys that have the bit were pressed an odd number of times. -/
def toggled (i : ℕ) (es : List KeyEvent) : Bool :=
  (es.countP fun e => e.pressed && (togglecode e.key).getLsbD i) % 2 = 1

example : chars (session scan ⟨0, false⟩ [0x2A, 0x1E, 0xAA, 0x1E]).1 = [65, 97] := by decide

end Courses.Jos.Console

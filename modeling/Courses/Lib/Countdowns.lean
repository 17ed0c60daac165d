import Mathlib.Data.List.Basic
import Mathlib.Tactic

/-!
# Stacks of countdowns

Effects are put on a stack, each for a number of ticks. A tick counts for the newest effect only,
which is gone after its last tick. Whatever is put on the stack meanwhile, an effect stays for
exactly its own ticks, and then the stack is what it was before the effect.
-/
namespace Courses.Lib.Countdown

variable {ε : Type}

inductive Event (ε : Type)
  | push (effect : ε) (duration : ℤ)
  | tick
  deriving DecidableEq

/-- The stack after an event, with the newest effect first and the ticks that are left. -/
def step : List (ε × ℤ) → Event ε → List (ε × ℤ)
  | stack, .push effect duration => (effect, duration) :: stack
  | [], .tick => []
  | (effect, duration) :: older, .tick =>
    if duration - 1 = 0 then older else (effect, duration - 1) :: older

def run (stack : List (ε × ℤ)) (events : List (Event ε)) : List (ε × ℤ) := events.foldl step stack

/-- How many of the ticks come while the stack has the given height. -/
def ticksAt (height : ℕ) : List (ε × ℤ) → List (Event ε) → ℕ
  | _, [] => 0
  | stack, .push effect duration :: events =>
    ticksAt height (step stack (.push effect duration)) events
  | stack, .tick :: events =>
    (if stack.length = height then 1 else 0) + ticksAt height (step stack .tick) events

variable {effect : ε} {duration : ℤ} {older : List (ε × ℤ)}

theorem run_concat (stack : List (ε × ℤ)) (events : List (Event ε)) (event : Event ε) :
    run stack (events ++ [event]) = step (run stack events) event := by
  rw [run, List.foldl_append]
  rfl

theorem ticksAt_concat (height : ℕ) (stack : List (ε × ℤ)) (events : List (Event ε))
    (event : Event ε) :
    ticksAt height stack (events ++ [event]) =
      ticksAt height stack events + ticksAt height (run stack events) [event] := by
  induction events generalizing stack with
  | nil => simp [ticksAt, run]
  | cons x events ih =>
    cases x with
    | push effect duration => exact ih _
    | tick =>
      rw [List.cons_append, ticksAt, ticksAt, ih, Nat.add_assoc]
      rfl

theorem step_tick_last (effect : ε) (older : List (ε × ℤ)) :
    step ((effect, 1) :: older) .tick = older := rfl

theorem step_tick_of_ne (effect : ε) (older : List (ε × ℤ)) (h : duration ≠ 1) :
    step ((effect, duration) :: older) .tick = (effect, duration - 1) :: older :=
  if_neg (sub_ne_zero.2 h)

/-- A tick of a newer effect, which is gone or has a tick less. -/
theorem step_tick_newer (x : ε × ℤ) (newer rest : List (ε × ℤ)) :
    ∃ newer', step (x :: (newer ++ rest)) .tick = newer' ++ rest := by
  obtain ⟨e, d⟩ := x
  by_cases hd : d = 1
  · subst hd
    exact ⟨newer, step_tick_last e (newer ++ rest)⟩
  · exact ⟨(e, d - 1) :: newer, step_tick_of_ne e (newer ++ rest) hd⟩

/-- A tick of the effect itself, with the older ones below it. -/
theorem ticksAt_tick (events : List (Event ε)) :
    ticksAt (older.length + 1) ((effect, duration) :: older) (.tick :: events) =
      1 + ticksAt (older.length + 1) (step ((effect, duration) :: older) .tick) events := by
  rw [ticksAt, List.length_cons, if_pos rfl]

theorem ticksAt_tick_newer (x : ε × ℤ) (newer : List (ε × ℤ)) (events : List (Event ε)) :
    ticksAt (older.length + 1) (x :: (newer ++ (effect, duration) :: older)) (.tick :: events) =
      ticksAt (older.length + 1) (step (x :: (newer ++ (effect, duration) :: older)) .tick)
        events := by
  have hlength : (x :: (newer ++ (effect, duration) :: older)).length ≠ older.length + 1 := by
    rw [List.length_cons, List.length_append, List.length_cons]
    omega
  rw [ticksAt, if_neg hlength, zero_add]

/-- An effect whose ticks are not over is on the stack with the ticks that are left. -/
theorem run_of_ticksAt_lt (events : List (Event ε)) :
    ∀ newer duration (n : ℕ),
      ticksAt (older.length + 1) (newer ++ (effect, duration) :: older) events = n →
      n < duration →
      ∃ newer', run (newer ++ (effect, duration) :: older) events =
        newer' ++ (effect, duration - n) :: older := by
  induction events with
  | nil =>
    intro newer duration n hn hlt
    subst hn
    exact ⟨newer, by simp [run, ticksAt]⟩
  | cons event events ih =>
    intro newer duration n hn hlt
    cases event with
    | push e d => exact ih ((e, d) :: newer) duration n hn hlt
    | tick =>
      cases newer with
      | nil =>
        rw [List.nil_append, ticksAt_tick] at hn
        have hlast : duration ≠ 1 := by omega
        rw [step_tick_of_ne effect older hlast] at hn
        obtain ⟨newer', hrun⟩ := ih [] (duration - 1) (n - 1) (by rw [List.nil_append]; omega)
          (by omega)
        refine ⟨newer', ?_⟩
        have hleft : duration - 1 - ((n - 1 : ℕ) : ℤ) = duration - n := by omega
        rw [hleft] at hrun
        rw [run, List.nil_append, List.foldl_cons, step_tick_of_ne effect older hlast]
        exact hrun
      | cons x newer =>
        obtain ⟨newer', hstep⟩ := step_tick_newer x newer ((effect, duration) :: older)
        rw [List.cons_append, ticksAt_tick_newer, hstep] at hn
        rw [run, List.cons_append, List.foldl_cons, hstep]
        exact ih newer' duration n hn hlt

/-- The last tick of an effect gives back the stack that it was put on. -/
theorem run_of_last_tick {events : List (Event ε)}
    (hticks : (ticksAt (older.length + 1) ((effect, duration) :: older) events : ℤ) = duration - 1)
    (hnewest : (run ((effect, duration) :: older) events).length = older.length + 1) :
    run ((effect, duration) :: older) (events ++ [.tick]) = older := by
  obtain ⟨newer, hrun⟩ := @run_of_ticksAt_lt ε effect older events [] duration _ rfl
    (by rw [List.nil_append]; omega)
  rw [List.nil_append, hticks, sub_sub_cancel] at hrun
  rw [hrun, List.length_append, List.length_cons] at hnewest
  have hnil : newer = [] := List.eq_nil_of_length_eq_zero (by omega)
  rw [hnil, List.nil_append] at hrun
  rw [run_concat, hrun]
  exact step_tick_last effect older

end Courses.Lib.Countdown

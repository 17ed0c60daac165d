import Courses.Ants.Changes
import Courses.Lib.Countdowns

/-!
# Status effects

What `apply_effect`, `make_slow` and `make_stun` do to a bee. The action of a bee holds the effects
on it like a stack, of which only the newest one counts its turns. Its turns are compared with
those of the action that it was applied to, apart from what becomes of the action itself.
-/
namespace Courses.Ants

open Courses.Lib

/-- The effects on a bee with the turns that are left of them, the newest one first. -/
def Action.stack : Action → List (StatusEffect × ℤ)
  | .default => []
  | .durationEffect effect duration prevAction => (effect, duration) :: prevAction.stack

theorem Action.stack_injective : Function.Injective Action.stack := by
  intro action
  induction action with
  | default =>
    intro other h
    cases other with
    | default => rfl
    | durationEffect effect duration prevAction => cases h
  | durationEffect effect duration prevAction ih =>
    intro other h
    cases other with
    | default => cases h
    | durationEffect effect' duration' prevAction' =>
      obtain ⟨hnewest, holder⟩ := List.cons.inj h
      cases hnewest
      rw [ih holder]

/-- Some effect on the bee is a stun. -/
def Action.Stunned (action : Action) : Prop := .stun ∈ action.stack.map Prod.fst

/-- The colony without the action of a bee. -/
def Colony.forgetAction (s : Colony) (b : ℕ) : Colony :=
  s.modifyBee b fun x => { x with action := .default }

/-- What a call of an action has done, apart from the action that the bee has then. -/
def outcome (b : ℕ) : EStateM.Result Exn Colony Unit → EStateM.Result Exn Colony Unit
  | .ok u s => .ok u (s.forgetAction b)
  | .error e s => .error e (s.forgetAction b)

/-- The action has done nothing, apart from changing itself. -/
def DoesNothing (m : GameM Unit) (b : ℕ) (s : Colony) : Prop :=
  outcome b (m s) = .ok () (s.forgetAction b)

/-- What is claimed of a turn: a slow effect at an even time does what the action does that it was
applied to, otherwise it does nothing, and a bee that is stunned does nothing. -/
structure TurnAsClaimed (L : Layout) (b : ℕ) (s : Colony) : Prop where
  slow : ∀ duration prevAction,
    (s.bees b).action = .durationEffect .slow duration prevAction → s.time % 2 = 0 →
      outcome b (beeAction L b s) = outcome b (callAction L b prevAction s)
  odd : ∀ duration prevAction,
    (s.bees b).action = .durationEffect .slow duration prevAction → s.time % 2 ≠ 0 →
      DoesNothing (beeAction L b) b s
  stunned : (s.bees b).action.Stunned → DoesNothing (beeAction L b) b s

/-- `Bee.action` has nothing to do. -/
def Idle (L : Layout) (b : ℕ) (s : Colony) : Prop :=
  ((s.bees b).place = none → (s.bees b).kind = .ninjaBee ∧ (s.bees b).armor ≤ 0) ∧
    ∀ p, (s.bees b).place = some p →
      blocker s b p = none ∧ ((s.bees b).armor ≤ 0 ∨ L.exit p = none)

/-- The newest effect is a slow one that lets a stunned bee act. -/
def Slips (L : Layout) (b : ℕ) (s : Colony) : Prop :=
  ∃ duration prevAction, (s.bees b).action = .durationEffect .slow duration prevAction ∧
    s.time % 2 = 0 ∧ prevAction.Stunned ∧ ¬Idle L b s

/-! ## One turn -/

section Turn

variable {L : Layout} {b : ℕ} {s : Colony}

theorem forgetAction_setAction (s : Colony) (b : ℕ) (action : Action) :
    (s.modifyBee b fun x => { x with action := action }).forgetAction b = s.forgetAction b := by
  simp [Colony.forgetAction, Colony.modifyBee]

/-- Setting the action of the bee behind a computation does not count. -/
theorem outcome_setAction (m : GameM Unit) (b : ℕ) (action : Action) (s : Colony) :
    outcome b ((m >>= fun _ => modify (·.modifyBee b fun x => { x with action := action })) s) =
      outcome b (m s) := by
  cases hm : m s with
  | error e s' => rw [eval_bind_error hm]
  | ok u s' =>
    rw [eval_bind_ok hm]
    exact congrArg (EStateM.Result.ok ()) (forgetAction_setAction s' b action)

theorem outcome_durationEffect (effect : StatusEffect) (duration : ℤ) (prevAction : Action) :
    outcome b (callAction L b (.durationEffect effect duration prevAction) s) =
      outcome b (changedAction L b effect s) :=
  outcome_setAction _ _ _ _

theorem outcome_slow_even (htime : s.time % 2 = 0) (duration : ℤ) (prevAction : Action) :
    outcome b (callAction L b (.durationEffect .slow duration prevAction) s) =
      outcome b (beeBaseAction L b s) := by
  rw [outcome_durationEffect]
  have hrun : changedAction L b .slow s =
      (if s.time % 2 = 0 then beeBaseAction L b else return ()) s := rfl
  rw [hrun, if_pos htime]

theorem slow_odd (htime : s.time % 2 ≠ 0) (duration : ℤ) (prevAction : Action) :
    DoesNothing (callAction L b (.durationEffect .slow duration prevAction)) b s := by
  rw [DoesNothing, outcome_durationEffect]
  have hrun : changedAction L b .slow s =
      (if s.time % 2 = 0 then beeBaseAction L b else return ()) s := rfl
  rw [hrun, if_neg htime]
  rfl

theorem stun_doesNothing (duration : ℤ) (prevAction : Action) :
    DoesNothing (callAction L b (.durationEffect .stun duration prevAction)) b s := by
  rw [DoesNothing, outcome_durationEffect]
  rfl

theorem beeAction_affected (haffected : (s.bees b).kind.Affected) :
    beeAction L b s = callAction L b (s.bees b).action s := by
  have hget : (get : GameM Colony) s = .ok s s := rfl
  unfold beeAction
  rw [eval_bind_ok hget]
  cases hkind : (s.bees b).kind with
  | boss => exact absurd hkind haffected.2
  | hornet => exact absurd hkind haffected.1
  | bee => rfl
  | wasp => rfl
  | ninjaBee => rfl

theorem beeBaseAction_idle (h : Idle L b s) : beeBaseAction L b s = .ok () s := by
  have hget : (get : GameM Colony) s = .ok s s := rfl
  unfold beeBaseAction
  rw [eval_bind_ok hget]
  refine congrFun (?_ : _ = (return () : GameM Unit)) s
  cases hplace : (s.bees b).place with
  | none => exact if_pos (h.1 hplace)
  | some p =>
    obtain ⟨hblocker, hstays⟩ := h.2 p hplace
    dsimp only
    rw [hblocker]
    cases hstays with
    | inl harmor => exact if_neg (not_lt.2 harmor)
    | inr hexit =>
      rw [hexit]
      exact ite_self _

/-- The action below a slow effect does what `Bee.action` does, at an even time, if it is not a
stun. -/
theorem outcome_of_not_stunned {action : Action} (htime : s.time % 2 = 0)
    (hstun : ¬action.Stunned) :
    outcome b (callAction L b action s) = outcome b (beeBaseAction L b s) := by
  cases action with
  | default => rfl
  | durationEffect effect duration prevAction =>
    cases effect with
    | slow => exact outcome_slow_even htime duration prevAction
    | stun => exact absurd List.mem_cons_self hstun

theorem doesNothing_of_idle {action : Action} (hidle : Idle L b s) (htime : s.time % 2 = 0) :
    DoesNothing (callAction L b action) b s := by
  have hbase : outcome b (beeBaseAction L b s) = .ok () (s.forgetAction b) := by
    rw [beeBaseAction_idle hidle]
    rfl
  cases action with
  | default => exact hbase
  | durationEffect effect duration prevAction =>
    cases effect with
    | slow => exact (outcome_slow_even htime duration prevAction).trans hbase
    | stun => exact stun_doesNothing duration prevAction

/-- A turn is as claimed unless it slips. -/
theorem turnAsClaimed (haffected : (s.bees b).kind.Affected) (hslips : ¬Slips L b s) :
    TurnAsClaimed L b s := by
  constructor
  · intro duration prevAction haction htime
    rw [beeAction_affected haffected, haction]
    by_cases hstun : prevAction.Stunned
    · have hidle : Idle L b s := by
        by_contra hbusy
        exact hslips ⟨duration, prevAction, haction, htime, hstun, hbusy⟩
      exact (doesNothing_of_idle hidle htime).trans (doesNothing_of_idle hidle htime).symm
    · rw [outcome_slow_even htime, outcome_of_not_stunned htime hstun]
  · intro duration prevAction haction htime
    rw [DoesNothing, beeAction_affected haffected, haction]
    exact slow_odd htime duration prevAction
  · intro hstunned
    rw [DoesNothing, beeAction_affected haffected]
    cases haction : (s.bees b).action with
    | default =>
      rw [haction] at hstunned
      cases hstunned
    | durationEffect effect duration prevAction =>
      rw [haction] at hstunned
      cases effect with
      | stun => exact stun_doesNothing duration prevAction
      | slow =>
        by_cases htime : s.time % 2 = 0
        · have holder : prevAction.Stunned := by
            cases hstunned with
            | tail _ holder => exact holder
          have hidle : Idle L b s := by
            by_contra hbusy
            exact hslips ⟨duration, prevAction, haction, htime, holder, hbusy⟩
          exact doesNothing_of_idle hidle htime
        · exact slow_odd htime duration prevAction

end Turn

/-! ## Runs -/

/-- The same kind of bee with the same action. -/
def SameBee (b : ℕ) (s s' : Colony) : Prop :=
  (s'.bees b).kind = (s.bees b).kind ∧ (s'.bees b).action = (s.bees b).action

/-- An effect is applied to the bee, or the bee takes a turn. -/
def Happens (L : Layout) (b : ℕ) (t : Colony) : Countdown.Event StatusEffect → Colony → Prop
  | .push effect duration, u => applyEffect effect b duration t = .ok () u
  | .tick, u => beeAction L b t = .ok () u

/-- What happens to a bee in a game, and meanwhile anything else that leaves its action alone. The
events come with the state before. -/
inductive BeeRun (L : Layout) (b : ℕ) (s : Colony) :
    List (Colony × Countdown.Event StatusEffect) → Colony → Prop
  | start : BeeRun L b s [] s
  | other {t u tr} (hrun : BeeRun L b s tr t) (hsame : SameBee b t u) : BeeRun L b s tr u
  | event {t u tr event} (hrun : BeeRun L b s tr t) (hstep : Happens L b t event u) :
      BeeRun L b s (tr ++ [(t, event)]) u

/-- An effect is applied for one turn or more, and no turn slips. -/
def SoundEvent (L : Layout) (b : ℕ) (t : Colony) : Countdown.Event StatusEffect → Prop
  | .push _ duration => 1 ≤ duration
  | .tick => ¬Slips L b t

/-- How many effects are on the bee. -/
def height (s : Colony) (b : ℕ) : ℕ := (s.bees b).action.stack.length

/-- How many turns the bee has taken with `n` effects on it. -/
def turnsAt (b n : ℕ) (tr : List (Colony × Countdown.Event StatusEffect)) : ℕ :=
  tr.countP fun x => x.2 = .tick ∧ height x.1 b = n

/-- What is claimed of a run. An effect counts the turns on which it is the newest one. Until all
its turns are over it is on the bee with the turns that are left, below it the action that it was
applied to, and with the last of them that action is restored. -/
structure Composes (L : Layout) (b : ℕ) (tr : List (Colony × Countdown.Event StatusEffect))
    (s : Colony) : Prop where
  turns : ∀ t, (t, Countdown.Event.tick) ∈ tr → TurnAsClaimed L b t
  lasts : ∀ before t effect (duration : ℤ) after,
    tr = before ++ (t, .push effect duration) :: after →
    turnsAt b (height t b + 1) after < duration →
      ∃ newer, (s.bees b).action.stack = newer ++
        (effect, duration - turnsAt b (height t b + 1) after) :: (t.bees b).action.stack
  restored : ∀ before t effect (duration : ℤ) after,
    tr = before ++ (t, .push effect duration) :: after →
    turnsAt b (height t b + 1) after = duration →
    (∀ x shorter, after = shorter ++ [x] → turnsAt b (height t b + 1) shorter < duration) →
      (s.bees b).action = (t.bees b).action

section Runs

variable {L : Layout} {b : ℕ} {s t u : Colony}
  {tr : List (Colony × Countdown.Event StatusEffect)}

/-- No bee changes its action. -/
def KeepsActions (s s' : Colony) : Prop := ∀ b, SameBee b s s'

instance : Std.Refl KeepsActions := ⟨fun _ _ => ⟨rfl, rfl⟩⟩

instance : IsTrans Colony KeepsActions :=
  ⟨fun _ _ _ h h' b => ⟨(h' b).1.trans (h b).1, (h' b).2.trans (h b).2⟩⟩

theorem keepsActions_modifyBee (s : Colony) (b : ℕ) (f : Bee → Bee)
    (hf : ∀ x, (f x).kind = x.kind ∧ (f x).action = x.action) :
    KeepsActions s (s.modifyBee b f) := by
  intro c
  by_cases hc : c = b
  · subst hc
    simp [SameBee, Colony.modifyBee, hf]
  · simp [SameBee, Colony.modifyBee, hc]

theorem keepsActions_setPlace (s : Colony) (i : Insect) (p : Option PlaceId) :
    KeepsActions s (s.setPlace i p) := by
  cases i with
  | ant a => exact fun _ => ⟨rfl, rfl⟩
  | bee b => exact keepsActions_modifyBee s b (fun x => { x with place := p }) fun _ => ⟨rfl, rfl⟩

theorem keepsActions_setArmor (s : Colony) (i : Insect) (armor : ℚ) :
    KeepsActions s (s.setArmor i armor) := by
  cases i with
  | ant a => exact fun _ => ⟨rfl, rfl⟩
  | bee b =>
    exact keepsActions_modifyBee s b (fun x => { x with armor := armor }) fun _ => ⟨rfl, rfl⟩

theorem keepsActions_removeInsect {s s' : Colony} {p : PlaceId} {i : Insect}
    (h : s.removeInsect p i = .ok s') : KeepsActions s s' := by
  unfold Colony.removeInsect at h
  split at h
  · split at h
    · cases h
      exact keepsActions_setPlace (s.setBeesAt p _) _ _
    · cases h
  · repeat' split at h
    all_goals cases h
    · exact keepsActions_setPlace (s.setAntAt p _) _ _
    · exact Std.Refl.refl s
    · exact keepsActions_setPlace (s.setAntAt p _) _ _
    · exact Std.Refl.refl s
    · exact keepsActions_setPlace (s.modifyAnt _ _) _ _

theorem keepsActions_placeAddInsect {s s' : Colony} {p : PlaceId} {i : Insect}
    (h : s.placeAddInsect p i = .ok s') : KeepsActions s s' := by
  unfold Colony.placeAddInsect at h
  split at h
  · cases h
    exact keepsActions_setPlace (s.setBeesAt p _) _ _
  · repeat' split at h
    all_goals cases h
    · exact keepsActions_setPlace (s.setAntAt p _) _ _
    · exact keepsActions_setPlace (s.modifyAnt _ _) _ _
    · exact keepsActions_setPlace ((s.modifyAnt _ _).setAntAt p _) _ _

theorem allowsMoves_keepsActions : AllowsMoves KeepsActions := by
  constructor
  · exact keepsActions_setArmor
  · intro s s' p i h
    exact keepsActions_removeInsect h
  · intro s s' p b hplace h
    exact keepsActions_placeAddInsect h

/-! ## What a run does to the stack -/

theorem applyEffect_affected (effect : StatusEffect) (duration : ℤ)
    (haffected : (t.bees b).kind.Affected) :
    applyEffect effect b duration t = .ok () (t.modifyBee b fun x =>
      { x with action := .durationEffect effect duration x.action }) := by
  refine congrArg (EStateM.Result.ok ()) ?_
  dsimp only
  cases hkind : (t.bees b).kind with
  | hornet => exact absurd hkind haffected.1
  | boss => exact absurd hkind haffected.2
  | bee | wasp | ninjaBee => rfl

theorem happens_effect {effect : StatusEffect} {duration : ℤ}
    (haffected : (t.bees b).kind.Affected) (h : applyEffect effect b duration t = .ok () u) :
    (u.bees b).kind = (t.bees b).kind ∧
      (u.bees b).action = .durationEffect effect duration (t.bees b).action := by
  rw [applyEffect_affected effect duration haffected] at h
  obtain ⟨-, hu⟩ := EStateM.Result.ok.inj h
  rw [← hu]
  simp [Colony.modifyBee]

theorem happens_turn (haffected : (t.bees b).kind.Affected) (h : beeAction L b t = .ok () u) :
    (u.bees b).kind = (t.bees b).kind ∧
      (u.bees b).action.stack = Countdown.step (t.bees b).action.stack .tick := by
  rw [beeAction_affected haffected] at h
  cases haction : (t.bees b).action with
  | default =>
    rw [haction] at h
    have hbase := @beeBaseAction_changes L KeepsActions _ _ allowsMoves_keepsActions b t
    rw [callAction] at h
    rw [h] at hbase
    have hsame : SameBee b t u := hbase b
    rw [hsame.2, haction]
    exact ⟨hsame.1, rfl⟩
  | durationEffect effect duration prevAction =>
    rw [haction, callAction] at h
    have hchanged :=
      @changedAction_changes L KeepsActions _ _ allowsMoves_keepsActions b effect t
    cases hrun : changedAction L b effect t with
    | error e t' =>
      rw [eval_bind_error hrun] at h
      cases h
    | ok x t' =>
      rw [eval_bind_ok hrun] at h
      rw [hrun] at hchanged
      obtain ⟨-, hu⟩ := EStateM.Result.ok.inj h
      have hsame : SameBee b t t' := hchanged b
      rw [← hu]
      constructor
      · simpa [Colony.modifyBee] using hsame.1
      · simp only [Colony.modifyBee, Function.update_self, Action.stack, Countdown.step]
        split
        · rfl
        · rfl

theorem happens_stack {event : Countdown.Event StatusEffect}
    (haffected : (t.bees b).kind.Affected) (h : Happens L b t event u) :
    (u.bees b).kind = (t.bees b).kind ∧
      (u.bees b).action.stack = Countdown.step (t.bees b).action.stack event := by
  cases event with
  | push effect duration =>
    obtain ⟨hkind, haction⟩ := happens_effect haffected h
    rw [haction]
    exact ⟨hkind, rfl⟩
  | tick => exact happens_turn haffected h

theorem BeeRun.stack (haffected : (s.bees b).kind.Affected) (hrun : BeeRun L b s tr t) :
    (t.bees b).kind = (s.bees b).kind ∧
      (t.bees b).action.stack = Countdown.run (s.bees b).action.stack (tr.map Prod.snd) := by
  induction hrun with
  | start => exact ⟨rfl, rfl⟩
  | other hrun hsame ih =>
    obtain ⟨hkind, hstack⟩ := ih
    exact ⟨hsame.1.trans hkind, hsame.2 ▸ hstack⟩
  | event hrun hstep ih =>
    obtain ⟨hkind, hstack⟩ := ih
    obtain ⟨hkind', hstack'⟩ := happens_stack (hkind ▸ haffected) hstep
    refine ⟨hkind'.trans hkind, ?_⟩
    rw [hstack', hstack, List.map_append, List.map_singleton, Countdown.run_concat]

/-- The turns counted along a run are the ticks of its stack. -/
theorem BeeRun.turnsAt_eq (haffected : (s.bees b).kind.Affected) (hrun : BeeRun L b s tr t)
    (n : ℕ) :
    turnsAt b n tr = Countdown.ticksAt n (s.bees b).action.stack (tr.map Prod.snd) := by
  induction hrun with
  | start => rfl
  | other hrun hsame ih => exact ih
  | @event t u tr event hrun hstep ih =>
    have hstack := (hrun.stack haffected).2
    rw [List.map_append, List.map_singleton, Countdown.ticksAt_concat, ← ih, ← hstack]
    rw [turnsAt, List.countP_append]
    cases event with
    | push effect duration => simp [turnsAt, Countdown.ticksAt]
    | tick => simp [turnsAt, Countdown.ticksAt, height]

/-- A run up to an event, the event, and the run from there. -/
theorem BeeRun.split (hrun : BeeRun L b s tr u) {before after}
    {x : Colony × Countdown.Event StatusEffect} (htr : tr = before ++ x :: after) :
    BeeRun L b s before x.1 ∧ ∃ v, Happens L b x.1 x.2 v ∧ BeeRun L b v after u := by
  induction hrun generalizing after with
  | start => simp at htr
  | other hrun hsame ih =>
    obtain ⟨hbefore, v, hx, hafter⟩ := ih htr
    exact ⟨hbefore, v, hx, .other hafter hsame⟩
  | @event t u tr event hrun hstep ih =>
    rcases List.eq_nil_or_concat' after with hnil | ⟨after', y, hconcat⟩
    · subst hnil
      obtain ⟨rfl, hx⟩ := List.append_inj' htr rfl
      cases hx
      exact ⟨hrun, u, hstep, .start⟩
    · subst hconcat
      rw [← List.cons_append, ← List.append_assoc] at htr
      obtain ⟨hsplit, hy⟩ := List.append_inj' htr rfl
      cases hy
      obtain ⟨hbefore, v, hx, hafter⟩ := ih hsplit
      exact ⟨hbefore, v, hx, .event hafter hstep⟩

/-- One turn more with `n` effects on the bee. -/
theorem turnsAt_concat_lt {n : ℕ} {duration : ℤ} {x : Colony × Countdown.Event StatusEffect}
    (hticks : turnsAt b n (tr ++ [x]) = duration) (hlt : turnsAt b n tr < duration) :
    x.2 = .tick ∧ height x.1 b = n ∧ (turnsAt b n tr : ℤ) = duration - 1 := by
  rw [turnsAt, List.countP_append, List.countP_singleton] at hticks
  rw [turnsAt] at hlt ⊢
  split at hticks
  · rename_i hx
    obtain ⟨htick, hheight⟩ := of_decide_eq_true hx
    exact ⟨htick, hheight, by omega⟩
  · omega

end Runs

/-- A run whose effects last for one turn or more and whose turns do not slip is as claimed, and so
is the turn after it that does not slip, even if it raises an exception. -/
theorem effects_compose {L : Layout} {b : ℕ} {s₀ s : Colony}
    {tr : List (Colony × Countdown.Event StatusEffect)} (haffected : (s₀.bees b).kind.Affected)
    (hrun : BeeRun L b s₀ tr s) (hsound : ∀ x ∈ tr, SoundEvent L b x.1 x.2) :
    Composes L b tr s ∧ (¬Slips L b s → TurnAsClaimed L b s) := by
  refine ⟨?_, fun hslips => turnAsClaimed ((hrun.stack haffected).1 ▸ haffected) hslips⟩
  constructor
  · intro t ht
    obtain ⟨before, after, htr⟩ := List.append_of_mem ht
    obtain ⟨hbefore, -⟩ := hrun.split htr
    exact turnAsClaimed ((hbefore.stack haffected).1 ▸ haffected) (hsound _ ht)
  · intro before t effect duration after htr hlt
    obtain ⟨hbefore, v, hstep, hafter⟩ := hrun.split htr
    have ht : (t.bees b).kind.Affected := (hbefore.stack haffected).1 ▸ haffected
    obtain ⟨hkind, haction⟩ := happens_effect ht hstep
    have hstack := (hafter.stack (hkind ▸ ht)).2
    have hticks := hafter.turnsAt_eq (hkind ▸ ht) (height t b + 1)
    rw [haction] at hstack hticks
    rw [hstack]
    exact Countdown.run_of_ticksAt_lt _ [] duration _ hticks.symm hlt
  · intro before t effect duration after htr hticks hshorter
    obtain ⟨hbefore, v, hstep, hafter⟩ := hrun.split htr
    have ht : (t.bees b).kind.Affected := (hbefore.stack haffected).1 ▸ haffected
    obtain ⟨hkind, haction⟩ := happens_effect ht hstep
    have hv : (v.bees b).kind.Affected := hkind ▸ ht
    have hduration : 1 ≤ duration := by
      refine hsound (t, .push effect duration) ?_
      rw [htr]
      exact List.mem_append_right before List.mem_cons_self
    rcases List.eq_nil_or_concat' after with hnil | ⟨shorter, x, hconcat⟩
    · subst hnil
      have hzero : (0 : ℤ) = duration := hticks
      omega
    · subst hconcat
      obtain ⟨htick, hheight, hcount⟩ := turnsAt_concat_lt hticks (hshorter x shorter rfl)
      obtain ⟨hshort, -⟩ := hafter.split rfl
      have hstack := (hafter.stack hv).2
      have hnewest := (hshort.stack hv).2
      rw [hshort.turnsAt_eq hv, haction] at hcount
      rw [List.map_append, List.map_singleton, htick, haction] at hstack
      apply Action.stack_injective
      rw [hstack]
      refine Countdown.run_of_last_tick hcount ?_
      rw [haction] at hnewest
      exact (congrArg List.length hnewest).symm.trans hheight

/-- The places of a single tunnel, of which the inner one leads to the outer one. -/
def twoPlaces : Layout := Layout.configure (dryLayout 1 2)

/-- A bee in the inner place. -/
def oneBee : Colony where
  ants _ := ⟨.harvester, 0, 0, none, none, 0, false, []⟩
  antCount := 0
  bees _ := ⟨.bee, 1, some (.tunnel 1), .default⟩
  antAt _ := none
  beesAt p := if p = .tunnel 1 then [0] else []
  time := 2
  food := 2
  activeBees := [0]
  queenCount := 0
  choices _ := 0
  numBees := 1

def slowedBee (s : Colony) : Colony :=
  s.modifyBee 0 fun x => { x with action := .durationEffect .slow 3 x.action }

def stunnedBee (s : Colony) : Colony :=
  s.modifyBee 0 fun x => { x with action := .durationEffect .stun 1 x.action }

theorem oneBee_affected : (oneBee.bees 0).kind.Affected := by
  constructor
  · exact BeeKind.noConfusion
  · exact BeeKind.noConfusion

theorem effects_compose_slowed :
    Composes twoPlaces 0 [(oneBee, .push .slow 3), (slowedBee oneBee, .tick)]
      (finalState (beeAction twoPlaces 0 (slowedBee oneBee))) := by
  have hpush : Happens twoPlaces 0 oneBee (.push .slow 3) (slowedBee oneBee) := rfl
  have hturn : Happens twoPlaces 0 (slowedBee oneBee) .tick
      (finalState (beeAction twoPlaces 0 (slowedBee oneBee))) := rfl
  refine (effects_compose oneBee_affected (.event (.event .start hpush) hturn) ?_).1
  simp [SoundEvent, Slips, slowedBee, oneBee, Colony.modifyBee, Action.Stunned, Action.stack]

/-- A bee that is stunned and then slowed moves at an even time. -/
theorem stunned_bee_moves :
    ¬∀ (L : Layout) (b : ℕ) (s₀ s : Colony) (tr : List (Colony × Countdown.Event StatusEffect)),
      (s₀.bees b).kind.Affected → BeeRun L b s₀ tr s →
      (∀ t effect duration, (t, Countdown.Event.push effect duration) ∈ tr → 1 ≤ duration) →
      Composes L b tr s := by
  intro hclaim
  have hstun : Happens twoPlaces 0 oneBee (.push .stun 1) (stunnedBee oneBee) := rfl
  have hslow : Happens twoPlaces 0 (stunnedBee oneBee) (.push .slow 3)
      (slowedBee (stunnedBee oneBee)) := rfl
  have hturn : Happens twoPlaces 0 (slowedBee (stunnedBee oneBee)) .tick
      (finalState (beeAction twoPlaces 0 (slowedBee (stunnedBee oneBee)))) := rfl
  have hrun := BeeRun.event (.event (.event .start hstun) hslow) hturn
  have hcomposes := hclaim _ _ _ _ _ oneBee_affected hrun (by simp; omega)
  have hturns := (hcomposes.turns (slowedBee (stunnedBee oneBee)) (by simp)).stunned
    (List.mem_cons_of_mem _ List.mem_cons_self)
  have hplace := congrArg (fun r => ((finalState r).bees 0).place) hturns
  exact absurd hplace (by decide)

/-! ## Bees in the game -/

section Game

variable {L : Layout} {b : ℕ} {s t u : Colony}
  {tr tr' : List (Colony × Countdown.Event StatusEffect)}

theorem BeeRun.append (hrun : BeeRun L b s tr t) (hrun' : BeeRun L b t tr' u) :
    BeeRun L b s (tr ++ tr') u := by
  induction hrun' with
  | start => rwa [List.append_nil]
  | other hrun' hsame ih => exact .other ih hsame
  | event hrun' hstep ih =>
    rw [← List.append_assoc]
    exact .event ih hstep

/-- Some run of the bee leads from one state to the other. -/
def BeeReaches (L : Layout) (b : ℕ) (s s' : Colony) : Prop := ∃ tr, BeeRun L b s tr s'

instance : Std.Refl (BeeReaches L b) := ⟨fun _ => ⟨[], .start⟩⟩

theorem BeeReaches.trans (h : BeeReaches L b s t) (h' : BeeReaches L b t u) :
    BeeReaches L b s u := by
  obtain ⟨tr, hrun⟩ := h
  obtain ⟨tr', hrun'⟩ := h'
  exact ⟨tr ++ tr', hrun.append hrun'⟩

instance : IsTrans Colony (BeeReaches L b) := ⟨fun _ _ _ => BeeReaches.trans⟩

theorem beeReaches_of_same (h : SameBee b s t) : BeeReaches L b s t := ⟨[], .other .start h⟩

theorem sameBee_modifyBee (s : Colony) {c : ℕ} (f : Bee → Bee) (hc : b ≠ c) :
    SameBee b s (s.modifyBee c f) := by
  simp [SameBee, Colony.modifyBee, hc]

theorem beeReaches_change (L : Layout) (b : ℕ) (h : Change s t) : BeeReaches L b s t := by
  cases h with
  | armor i armor => exact beeReaches_of_same (keepsActions_setArmor s i armor b)
  | remove h => exact beeReaches_of_same (keepsActions_removeInsect h b)
  | addBee hplace h => exact beeReaches_of_same (keepsActions_placeAddInsect h b)
  | construct kind => exact beeReaches_of_same ⟨rfl, rfl⟩
  | deploy kind h => exact beeReaches_of_same (keepsActions_placeAddInsect h b)
  | account a f hf => exact beeReaches_of_same ⟨rfl, rfl⟩
  | counters => exact beeReaches_of_same ⟨rfl, rfl⟩
  | effect effect c duration haffected =>
    by_cases hc : b = c
    · subst hc
      have hstep : Happens L b s (.push effect duration) _ :=
        applyEffect_affected effect duration haffected
      exact ⟨_, .event .start hstep⟩
    · exact beeReaches_of_same (sameBee_modifyBee s _ hc)

theorem beeReaches_changes (h : Changes s t) : BeeReaches L b s t := by
  induction h with
  | refl => exact Std.Refl.refl s
  | tail hchanges hchange ih => exact ih.trans (beeReaches_change L b hchange)

/-- The turns of other bees leave a bee alone. -/
theorem beeReaches_other {c : ℕ} (hc : b ≠ c) : Effect (BeeReaches L b) (beeAction L c) :=
  beeAction_effect (fun _ _ => beeReaches_changes) fun s _ =>
    beeReaches_of_same (sameBee_modifyBee s _ hc)

theorem beeReaches_immune (himmune : ¬(s.bees b).kind.Affected) :
    BeeReaches L b s (finalState (beeAction L b s)) := by
  have hget : (get : GameM Colony) s = .ok s s := rfl
  unfold beeAction
  rw [eval_bind_ok hget]
  cases hkind : (s.bees b).kind with
  | boss => exact beeReaches_changes (beeBaseAction_changes allowsMoves_changes b s)
  | hornet =>
    have hacts := Effect.bind (@hornetAct_changes L b) fun _ => @hornetAct_changes L b
    exact beeReaches_changes (hacts s)
  | bee | wasp | ninjaBee =>
    rw [hkind] at himmune
    exact absurd (by constructor <;> simp) himmune

/-- The countdown of the newest effect does not change when its turn raises an exception. -/
theorem beeReaches_error {s' : Colony} {e : Exn} (h : beeAction L b s = .error e s') :
    BeeReaches L b s s' := by
  by_cases haffected : (s.bees b).kind.Affected
  · rw [beeAction_affected haffected] at h
    cases haction : (s.bees b).action with
    | default =>
      have hbase := @beeBaseAction_changes L Changes _ _ allowsMoves_changes b s
      rw [haction, callAction] at h
      rw [h] at hbase
      exact beeReaches_changes hbase
    | durationEffect effect duration prevAction =>
      have hchanged := @changedAction_changes L Changes _ _ allowsMoves_changes b effect s
      rw [haction, callAction] at h
      cases hrun : changedAction L b effect s with
      | error e' t =>
        rw [eval_bind_error hrun] at h
        rw [hrun] at hchanged
        cases h
        exact beeReaches_changes hchanged
      | ok x t =>
        rw [eval_bind_ok hrun] at h
        cases h
  · have himmune := beeReaches_immune (L := L) haffected
    rwa [h] at himmune

/-- A turn of the bee itself is one of its run, unless it raises an exception. -/
theorem beeReaches_beeAction (c : ℕ) : Effect (BeeReaches L b) (beeAction L c) := by
  by_cases hc : b = c
  · subst hc
    intro s
    cases hturn : beeAction L b s with
    | ok x t =>
      have hstep : Happens L b s .tick t := hturn
      exact ⟨_, .event .start hstep⟩
    | error e t => exact beeReaches_error hturn
  · exact beeReaches_other hc

end Game

end Courses.Ants

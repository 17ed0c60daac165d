import Courses.Ants.WellPlaced

/-!
# Deploying ants

What `deploy_ant` does in a game: it adds a new ant to a place, with what water does to it, or it
fails. The constructor of the ant runs before the place accepts or refuses it.
-/
namespace Courses.Ants

open Courses.Lib

/-! ## Hurting bees -/

section Hurting

variable {t t' t'' : Colony} {p : PlaceId} {a b : ℕ} {bs : List ℕ}

/-- Bees of a place are hurt, and nothing else happens: the others stay as they are, and where. -/
structure Hurt (p : PlaceId) (bs : List ℕ) (t t' : Colony) : Prop where
  eq : t' = { t with bees := t'.bees, beesAt := t'.beesAt }
  bees : ∀ c ∉ bs, t'.bees c = t.bees c
  beesAt : ∀ q ≠ p, t'.beesAt q = t.beesAt q
  stays : ∀ c ∉ bs, c ∈ t.beesAt p → c ∈ t'.beesAt p

theorem Hurt.refl (p : PlaceId) (bs : List ℕ) (t : Colony) : Hurt p bs t t :=
  ⟨rfl, fun _ _ => rfl, fun _ _ => rfl, fun _ _ h => h⟩

theorem Hurt.trans (h : Hurt p [b] t t') (h' : Hurt p bs t' t'') : Hurt p (b :: bs) t t'' := by
  constructor
  · rw [h'.eq, h.eq]
  · intro c hc
    rw [List.mem_cons, not_or] at hc
    rw [h'.bees c hc.2, h.bees c (by simpa using hc.1)]
  · intro q hq
    rw [h'.beesAt q hq, h.beesAt q hq]
  · intro c hc hmem
    rw [List.mem_cons, not_or] at hc
    exact h'.stays c hc.2 (h.stays c (by simpa using hc.1) hmem)

theorem insectReduceArmor_bee (hplace : (t.bees b).place = some p) (hmem : b ∈ t.beesAt p)
    (amount : ℚ) : ∃ t', insectReduceArmor (.bee b) amount t = .ok () t' ∧ Hurt p [b] t t' := by
  have hget : (get : GameM Colony) t = .ok t t := rfl
  let t₁ := t.setArmor (.bee b) (t.armor (.bee b) - amount)
  have hset : (modify (·.setArmor (.bee b) (t.armor (.bee b) - amount)) : GameM Unit) t =
      .ok () t₁ := rfl
  unfold insectReduceArmor
  rw [eval_bind_ok hget, eval_bind_ok hset]
  split
  · have hplace₁ : t₁.place (.bee b) = some p := by
      simpa [t₁, Colony.place, Colony.setArmor, Colony.modifyBee] using hplace
    rw [removeFromPlace_of_some hplace₁, act]
    have hremove : t₁.removeInsect p (.bee b) =
        .ok ((t₁.setBeesAt p ((t₁.beesAt p).erase b)).setPlace (.bee b) none) := if_pos hmem
    simp only [hremove]
    refine ⟨_, rfl, rfl, ?_, ?_, ?_⟩
    · intro c hc
      have hne : c ≠ b := by simpa using hc
      simp [t₁, Colony.setPlace, Colony.setBeesAt, Colony.setArmor, Colony.modifyBee, hne]
    · intro q hq
      simp [t₁, Colony.setPlace, Colony.setBeesAt, Colony.setArmor, Colony.modifyBee, hq]
    · intro c hc hmem
      have hne : c ≠ b := by simpa using hc
      have herase := (List.mem_erase_of_ne hne).2 hmem
      simpa [t₁, Colony.setPlace, Colony.setBeesAt, Colony.setArmor, Colony.modifyBee] using herase
  · refine ⟨t₁, rfl, rfl, ?_, fun _ _ => rfl, fun _ _ h => h⟩
    intro c hc
    have hne : c ≠ b := by simpa using hc
    simp [t₁, Colony.setArmor, Colony.modifyBee, hne]

theorem beeReduceArmor_ok (hplace : (t.bees b).place = some p) (hmem : b ∈ t.beesAt p) {amount : ℚ}
    (hamount : 0 < amount) :
    ∃ t', beeReduceArmor b amount t = .ok () t' ∧ Hurt p [b] t t' := by
  have hget : (get : GameM Colony) t = .ok t t := rfl
  unfold beeReduceArmor
  rw [eval_bind_ok hget]
  cases hkind : (t.bees b).kind with
  | bee | wasp | hornet | ninjaBee => exact insectReduceArmor_bee hplace hmem amount
  | boss =>
    have hne : damageCap + amount ≠ 0 := (add_pos (by decide) hamount).ne'
    dsimp only
    rw [if_neg hne]
    exact insectReduceArmor_bee hplace hmem _

theorem damageBees_ok (hnodup : bs.Nodup)
    (hbees : ∀ b ∈ bs, (t.bees b).place = some p ∧ b ∈ t.beesAt p)
    (hdamage : 0 < (t.ants a).damage) :
    ∃ t', damageBees a bs t = .ok () t' ∧ Hurt p bs t t' := by
  induction bs generalizing t with
  | nil => exact ⟨t, rfl, Hurt.refl p [] t⟩
  | cons b bs ih =>
    have hget : (get : GameM Colony) t = .ok t t := rfl
    obtain ⟨hnotMem, hnodup⟩ := List.nodup_cons.1 hnodup
    obtain ⟨hplace, hmem⟩ := hbees b List.mem_cons_self
    obtain ⟨t', hrun, hhurt⟩ := beeReduceArmor_ok hplace hmem hdamage
    have hrest : ∀ c ∈ bs, (t'.bees c).place = some p ∧ c ∈ t'.beesAt p := by
      intro c hc
      have hne : c ∉ [b] := by
        intro h
        exact hnotMem (List.mem_singleton.1 h ▸ hc)
      obtain ⟨hplace, hmem⟩ := hbees c (List.mem_cons_of_mem b hc)
      rw [hhurt.bees c hne]
      exact ⟨hplace, hhurt.stays c hne hmem⟩
    have hants : t'.ants = t.ants := by rw [hhurt.eq]
    obtain ⟨t'', hrun', hhurt'⟩ := ih hnodup hrest (by rwa [hants])
    unfold damageBees
    rw [eval_bind_ok hget, eval_bind_ok hrun]
    exact ⟨t'', hrun', hhurt.trans hhurt'⟩

/-- The bees of a place are hurt without an exception. -/
theorem damageBeesAt_ok (hnodup : (t.beesAt p).Nodup)
    (hplace : ∀ b ∈ t.beesAt p, (t.bees b).place = some p) (hdamage : 0 < (t.ants a).damage) :
    ∃ t', damageBeesAt a (some p) t = .ok () t' ∧ Hurt p (t.beesAt p) t t' :=
  damageBees_ok hnodup (fun b hb => ⟨hplace b hb, hb⟩) hdamage

end Hurting

/-! ## The new ant -/

/-- The place does not accept a new ant of the class: it is the place of the queen, or it has an
ant, and not exactly one of the two is a container, or the container is not empty. -/
def Refuses (s : Colony) (kind : AntKind) (p : PlaceId) : Prop :=
  p = .queenPlace ∨ ∃ c, s.antAt p = some c ∧
    ¬(s.container c = true ∧ (s.ants c).contained = none ∧ kind.container = false) ∧
    ¬(kind.container = true ∧ s.container c = false)

/-- How a place holds the ant `a`, new in the state `s'`: alone, inside a container that was
there, or as the container of the ant that was there. -/
inductive Holds (s s' : Colony) (kind : AntKind) (p : PlaceId) (a : ℕ) : Prop
  | alone (hempty : s.antAt p = none) (hcontained : (s'.ants a).contained = none)
      (hantAt : s'.antAt = Function.update s.antAt p (some a))
      (hants : ∀ x ≠ a, s'.ants x = s.ants x)
  | inside (c : ℕ) (hc : s.antAt p = some c) (hcontainer : s.container c = true)
      (hempty : (s.ants c).contained = none) (hkind : kind.container = false)
      (hantAt : s'.antAt = s.antAt) (hhost : s'.ants c = { s.ants c with contained := some a })
      (hants : ∀ x ≠ a, x ≠ c → s'.ants x = s.ants x)
  | around (c : ℕ) (hc : s.antAt p = some c) (hcontainer : s.container c = false)
      (hkind : kind.container = true) (hcontained : (s'.ants a).contained = some c)
      (hantAt : s'.antAt = Function.update s.antAt p (some a))
      (hants : ∀ x ≠ a, s'.ants x = s.ants x)

/-- What stays when an ant of the class is made, whether or not it is added to a place. -/
structure Made (s s' : Colony) (kind : AntKind) : Prop where
  antCount : s'.antCount = s.antCount + 1
  queenCount : s'.queenCount = if kind = .queen then s.queenCount + 1 else s.queenCount
  time : s'.time = s.time
  activeBees : s'.activeBees = s.activeBees
  choices : s'.choices = s.choices
  numBees : s'.numBees = s.numBees
  damage : (s'.ants s.antCount).damage = kind.damage
  kind : (s'.ants s.antCount).kind = kind

/-- A new ant of the class has been added to the place. -/
structure Added (s s' : Colony) (kind : AntKind) (p : PlaceId) : Prop where
  armor : (s'.ants s.antCount).armor = kind.armor
  place : (s'.ants s.antCount).place = some p
  holds : Holds s s' kind p s.antCount
  bees : s'.bees = s.bees
  beesAt : s'.beesAt = s.beesAt

/-- A new ant of the class has been added to the place and has lost its armor there. If it is a
fire ant, the bees of the place have been hurt. -/
structure Drowned (s s' : Colony) (kind : AntKind) (p : PlaceId) : Prop where
  armor : (s'.ants s.antCount).armor = 0
  place : (s'.ants s.antCount).place = none
  antAt : s'.antAt = s.antAt
  ants : ∀ a < s.antCount, s'.ants a = s.ants a
  bees : ∀ b, kind ≠ .fire ∨ b ∉ s.beesAt p → s'.bees b = s.bees b
  beesAt : ∀ q, kind ≠ .fire ∨ q ≠ p → s'.beesAt q = s.beesAt q

section Adding

variable {s t : Colony} {kind : AntKind} {p : PlaceId}

theorem canContain_old {c : ℕ} (hc : c < s.antCount) :
    (s.construct kind).canContain c s.antCount = true ↔
      s.container c = true ∧ (s.ants c).contained = none ∧ kind.container = false := by
  simp [Colony.canContain, Colony.container, Colony.construct, hc.ne, and_assoc]

theorem canContain_new {c : ℕ} (hc : c < s.antCount) :
    (s.construct kind).canContain s.antCount c = true ↔
      kind.container = true ∧ s.container c = false := by
  simp [Colony.canContain, Colony.container, Colony.construct, hc.ne]

theorem placeAddInsect_refused (hs : WellPlaced s) (hp : p ≠ .queenPlace)
    (hrefuses : Refuses s kind p) :
    (s.construct kind).placeAddInsect p (.ant s.antCount) = .error .assertion := by
  obtain ⟨c, hc, hold, hnew⟩ := hrefuses.resolve_left hp
  have hlt := hs.antAt p c hc
  have hantAt : (s.construct kind).antAt p = some c := hc
  unfold Colony.placeAddInsect
  dsimp only
  rw [hantAt]
  dsimp only
  rw [if_neg (mt (canContain_old hlt).1 hold), if_neg (mt (canContain_new hlt).1 hnew)]

theorem placeAddInsect_added (hs : WellPlaced s) (hrefuses : ¬Refuses s kind p) :
    ∃ t, (s.construct kind).placeAddInsect p (.ant s.antCount) = .ok t ∧ Added s t kind p ∧
      Made s t kind ∧ t.food = s.food := by
  unfold Colony.placeAddInsect
  dsimp only
  cases hantAt : s.antAt p with
  | none =>
    have hempty : (s.construct kind).antAt p = none := hantAt
    rw [hempty]
    refine ⟨_, rfl, ⟨?_, ?_, .alone hantAt ?_ rfl ?_, rfl, rfl⟩,
      ⟨rfl, rfl, rfl, rfl, rfl, rfl, ?_, ?_⟩, rfl⟩
    all_goals simp [Colony.setPlace, Colony.modifyAnt, Colony.setAntAt, Colony.construct]
    intro x hx
    simp [hx]
  | some c =>
    have hlt := hs.antAt p c hantAt
    have hheld : (s.construct kind).antAt p = some c := hantAt
    rw [hheld]
    dsimp only
    by_cases hold : (s.construct kind).canContain c s.antCount = true
    · rw [if_pos hold]
      obtain ⟨hcontainer, hnone, hkind⟩ := (canContain_old hlt).1 hold
      refine ⟨_, rfl, ⟨?_, ?_, .inside c hantAt hcontainer hnone hkind rfl ?_ ?_, rfl, rfl⟩,
        ⟨rfl, rfl, rfl, rfl, rfl, rfl, ?_, ?_⟩, rfl⟩
      all_goals simp [Colony.setPlace, Colony.modifyAnt, Colony.construct, hlt.ne, hlt.ne']
      intro x hx hxc
      simp [hx, hxc]
    · rw [if_neg hold]
      by_cases hnew : (s.construct kind).canContain s.antCount c = true
      · rw [if_pos hnew]
        obtain ⟨hkind, hcontainer⟩ := (canContain_new hlt).1 hnew
        refine ⟨_, rfl, ⟨?_, ?_, .around c hantAt hcontainer hkind ?_ rfl ?_, rfl, rfl⟩,
          ⟨rfl, rfl, rfl, rfl, rfl, rfl, ?_, ?_⟩, rfl⟩
        all_goals simp [Colony.setPlace, Colony.modifyAnt, Colony.setAntAt, Colony.construct]
        intro x hx
        simp [hx]
      · have hneither := And.intro (mt (canContain_old hlt).2 hold) (mt (canContain_new hlt).2 hnew)
        exact absurd (.inr ⟨c, hantAt, hneither⟩) hrefuses

/-! ### Water -/

/-- The ants and places are as before, but for the new ant, which is nowhere. -/
theorem drowned_of (hadded : Added s t kind p) (hmade : Made s t kind) {u : Colony}
    (hu : u = { t with antAt := u.antAt, ants := u.ants }) (hantAt : u.antAt = s.antAt)
    (hants : ∀ x < s.antCount, u.ants x = s.ants x)
    (hnew : u.ants s.antCount = { t.ants s.antCount with armor := 0, place := none }) :
    Drowned s u kind p ∧ Made s u kind ∧ u.food = t.food ∧ u.bees = s.bees ∧
      u.beesAt = s.beesAt := by
  have hkind := hmade.kind
  have hdamage := hmade.damage
  refine ⟨⟨?_, ?_, hantAt, hants, ?_, ?_⟩, ⟨?_, ?_, ?_, ?_, ?_, ?_, ?_, ?_⟩, ?_, ?_, ?_⟩
  · rw [hnew]
  · rw [hnew]
  · intro b _
    rw [hu]
    exact congrFun hadded.bees b
  · intro q _
    rw [hu]
    exact congrFun hadded.beesAt q
  · rw [hu]
    exact hmade.antCount
  · rw [hu]
    exact hmade.queenCount
  · rw [hu]
    exact hmade.time
  · rw [hu]
    exact hmade.activeBees
  · rw [hu]
    exact hmade.choices
  · rw [hu]
    exact hmade.numBees
  · rw [hnew]
    exact hdamage
  · rw [hnew]
    exact hkind
  · rw [hu]
  · rw [hu]
    exact hadded.bees
  · rw [hu]
    exact hadded.beesAt

/-- An ant that is removed after it was added leaves the place as it was. -/
theorem removeInsect_drowned (hs : WellPlaced s) (hadded : Added s t kind p) (hmade : Made s t kind)
    (hkind : kind ≠ .queen) :
    ∃ u, (t.setArmor (.ant s.antCount) 0).removeInsect p (.ant s.antCount) = .ok u ∧
      Drowned s u kind p ∧ Made s u kind ∧ u.food = t.food ∧ u.bees = s.bees ∧
        u.beesAt = s.beesAt := by
  have hcontainer : (t.setArmor (.ant s.antCount) 0).container s.antCount = kind.container := by
    simp [Colony.container, Colony.setArmor, Colony.modifyAnt, hmade.kind]
  have hqueen : (t.setArmor (.ant s.antCount) 0).trueQueen s.antCount = false := by
    simp [Colony.trueQueen, Colony.setArmor, Colony.modifyAnt, hmade.kind, hkind]
  unfold Colony.removeInsect
  dsimp only
  cases hadded.holds with
  | alone hempty hcontained hantAt hothers =>
    have hat : (t.setArmor (.ant s.antCount) 0).antAt p = some s.antCount := by
      simp [Colony.setArmor, Colony.modifyAnt, hantAt]
    have hnone : Function.update t.antAt p none = s.antAt := by
      rw [hantAt, Function.update_idem, ← hempty, Function.update_eq_self]
    have hinside : ((t.setArmor (.ant s.antCount) 0).ants s.antCount).contained = none := by
      simpa [Colony.setArmor, Colony.modifyAnt] using hcontained
    rw [hat]
    dsimp only
    rw [if_pos rfl, hcontainer, hqueen, hinside]
    refine ⟨_, ite_self _, drowned_of hadded hmade rfl hnone ?_ ?_⟩
    · intro x hx
      simpa [Colony.setPlace, Colony.setAntAt, Colony.setArmor, Colony.modifyAnt, hx.ne] using
        hothers x hx.ne
    · simp [Colony.setPlace, Colony.setAntAt, Colony.setArmor, Colony.modifyAnt]
  | inside c hc hcontainer' hempty hkind' hantAt hhost hothers =>
    have hne : c ≠ s.antCount := (hs.antAt p c hc).ne
    have hat : (t.setArmor (.ant s.antCount) 0).antAt p = some c := by
      simpa [Colony.setArmor, Colony.modifyAnt, hantAt] using hc
    have hholds : (t.setArmor (.ant s.antCount) 0).container c = true ∧
        ((t.setArmor (.ant s.antCount) 0).ants c).contained = some s.antCount := by
      simpa [Colony.container, Colony.setArmor, Colony.modifyAnt, hne, hhost] using hcontainer'
    rw [hat]
    dsimp only
    rw [if_neg hne, if_pos hholds, hqueen]
    refine ⟨_, rfl, drowned_of hadded hmade rfl hantAt ?_ ?_⟩
    · intro x hx
      by_cases hxc : x = c
      · subst hxc
        simp [Colony.setPlace, Colony.setArmor, Colony.modifyAnt, hne, hhost, ← hempty]
      · simpa [Colony.setPlace, Colony.setArmor, Colony.modifyAnt, hx.ne, hxc] using
          hothers x hx.ne hxc
    · simp [Colony.setPlace, Colony.setArmor, Colony.modifyAnt, hne.symm]
  | around c hc hcontainer' hkind' hcontained hantAt hothers =>
    have hat : (t.setArmor (.ant s.antCount) 0).antAt p = some s.antCount := by
      simp [Colony.setArmor, Colony.modifyAnt, hantAt]
    have hold : Function.update t.antAt p (some c) = s.antAt := by
      rw [hantAt, Function.update_idem, ← hc, Function.update_eq_self]
    have hinside : ((t.setArmor (.ant s.antCount) 0).ants s.antCount).contained = some c := by
      simpa [Colony.setArmor, Colony.modifyAnt] using hcontained
    rw [hat]
    dsimp only
    rw [if_pos rfl, hcontainer, if_pos hkind', hinside]
    refine ⟨_, rfl, drowned_of hadded hmade rfl hold ?_ ?_⟩
    · intro x hx
      simpa [Colony.setPlace, Colony.setAntAt, Colony.setArmor, Colony.modifyAnt, hx.ne] using
        hothers x hx.ne
    · simp [Colony.setPlace, Colony.setAntAt, Colony.setArmor, Colony.modifyAnt]

theorem insectReduceArmor_drowned (hs : WellPlaced s) (hadded : Added s t kind p)
    (hmade : Made s t kind) (hkind : kind ≠ .queen) :
    ∃ u, insectReduceArmor (.ant s.antCount) (t.ants s.antCount).armor t = .ok () u ∧
      Drowned s u kind p ∧ Made s u kind ∧ u.food = t.food ∧ u.bees = s.bees ∧
        u.beesAt = s.beesAt := by
  obtain ⟨u, hremove, hdrowned⟩ := removeInsect_drowned hs hadded hmade hkind
  have hget : (get : GameM Colony) t = .ok t t := rfl
  have hset : (modify (·.setArmor (.ant s.antCount) 0) : GameM Unit) t =
      .ok () (t.setArmor (.ant s.antCount) 0) := rfl
  have hplace : (t.setArmor (.ant s.antCount) 0).place (.ant s.antCount) = some p := by
    simpa [Colony.place, Colony.setArmor, Colony.modifyAnt] using hadded.place
  have hzero : t.armor (.ant s.antCount) - (t.ants s.antCount).armor = 0 := sub_self _
  refine ⟨u, ?_, hdrowned⟩
  unfold insectReduceArmor
  rw [eval_bind_ok hget, hzero, eval_bind_ok hset, if_pos le_rfl, removeFromPlace_of_some hplace,
    act]
  simp only [hremove]

/-- The bees of the place are hurt after a fire ant has drowned. -/
theorem Drowned.hurt {u v : Colony} (hdrowned : Drowned s u .fire p) (hmade : Made s u .fire)
    (hbees : u.bees = s.bees) (hbeesAt : u.beesAt = s.beesAt) (hhurt : Hurt p (s.beesAt p) u v) :
    Drowned s v .fire p ∧ Made s v .fire ∧ v.food = u.food := by
  have hants : v.ants = u.ants := by rw [hhurt.eq]
  have hantAt : v.antAt = u.antAt := by rw [hhurt.eq]
  refine ⟨⟨?_, ?_, hantAt.trans hdrowned.antAt, ?_, ?_, ?_⟩, ⟨?_, ?_, ?_, ?_, ?_, ?_, ?_, ?_⟩, ?_⟩
  · rw [hants]
    exact hdrowned.armor
  · rw [hants]
    exact hdrowned.place
  · rw [hants]
    exact hdrowned.ants
  · intro b hb
    rw [hhurt.bees b (hb.resolve_left fun h => h rfl), hbees]
  · intro q hq
    rw [hhurt.beesAt q (hq.resolve_left fun h => h rfl), hbeesAt]
  · rw [hhurt.eq]
    exact hmade.antCount
  · rw [hhurt.eq]
    exact hmade.queenCount
  · rw [hhurt.eq]
    exact hmade.time
  · rw [hhurt.eq]
    exact hmade.activeBees
  · rw [hhurt.eq]
    exact hmade.choices
  · rw [hhurt.eq]
    exact hmade.numBees
  · rw [hants]
    exact hmade.damage
  · rw [hants]
    exact hmade.kind
  · rw [hhurt.eq]

/-- An ant that is not safe in water drowns without an exception. -/
theorem antReduceArmor_drowned (hs : WellPlaced s) (hadded : Added s t kind p)
    (hmade : Made s t kind) (hkind : kind ≠ .queen) :
    ∃ u, antReduceArmor s.antCount (t.ants s.antCount).armor t = .ok () u ∧
      Drowned s u kind p ∧ Made s u kind ∧ u.food = t.food := by
  obtain ⟨u, hrun, hdrowned, hmade', hfood, hbees, hbeesAt⟩ :=
    insectReduceArmor_drowned hs hadded hmade hkind
  have hget : (get : GameM Colony) t = .ok t t := rfl
  unfold antReduceArmor
  rw [eval_bind_ok hget]
  dsimp only
  rw [hmade.kind]
  cases kind with
  | queen => exact absurd rfl hkind
  | fire =>
    have hgetU : (get : GameM Colony) u = .ok u u := rfl
    have hplaced : ∀ b ∈ u.beesAt p, (u.bees b).place = some p := by
      intro b hb
      rw [hbeesAt] at hb
      rw [hbees]
      exact hs.place p b hb
    have hdamage : 0 < (u.ants s.antCount).damage := by
      rw [hmade'.damage]
      decide
    obtain ⟨v, hhurtRun, hhurt⟩ := damageBeesAt_ok (hbeesAt ▸ hs.nodup p) hplaced hdamage
    rw [hbeesAt] at hhurt
    obtain ⟨hdrownedV, hmadeV, hfoodV⟩ := hdrowned.hurt hmade' hbees hbeesAt hhurt
    refine ⟨v, ?_, hdrownedV, hmadeV, hfoodV.trans hfood⟩
    dsimp only
    rw [eval_bind_ok hrun, eval_bind_ok hgetU, if_pos hdrowned.armor.le, hadded.place]
    exact hhurtRun
  | _ => exact ⟨u, hrun, hdrowned, hmade', hfood⟩

/-! ## Deploying -/

/-- What a new ant of the class does to a dry place or to water that accepts it. -/
structure Settled (L : Layout) (s s' : Colony) (kind : AntKind) (p : PlaceId) : Prop where
  made : Made s s' kind
  dry : (L.water p = true → kind.watersafe = true) → Added s s' kind p
  wet : L.water p = true → kind.watersafe = false → Drowned s s' kind p

theorem addInsect_refused {L : Layout} (hs : WellPlaced s) (hrefuses : Refuses s kind p) :
    addInsect L p (.ant s.antCount) (s.construct kind) =
      .error .assertion (s.construct kind) := by
  by_cases hp : p = .queenPlace
  · subst hp
    rfl
  · exact addInsect_error hp (placeAddInsect_refused hs hp hrefuses)

theorem addInsect_settled (L : Layout) (hs : WellPlaced s) (hrefuses : ¬Refuses s kind p) :
    ∃ t, addInsect L p (.ant s.antCount) (s.construct kind) = .ok () t ∧
      Settled L s t kind p ∧ t.food = s.food := by
  obtain ⟨t, hadd, hadded, hmade, hfood⟩ := placeAddInsect_added hs hrefuses
  have hp : p ≠ .queenPlace := fun hp => hrefuses (.inl hp)
  rw [addInsect_ok hp hadd]
  cases hwater : L.water p with
  | false =>
    refine ⟨t, rfl, ⟨hmade, fun _ => hadded, fun hwet => ?_⟩, hfood⟩
    rw [hwater] at hwet
    cases hwet
  | true =>
    have hget : (get : GameM Colony) t = .ok t t := rfl
    rw [if_pos rfl]
    unfold soak
    dsimp only
    rw [eval_bind_ok hget, hmade.kind]
    cases hsafe : kind.watersafe with
    | true =>
      refine ⟨t, rfl, ⟨hmade, fun _ => hadded, fun _ hunsafe => ?_⟩, hfood⟩
      rw [hsafe] at hunsafe
      cases hunsafe
    | false =>
      have hkind : kind ≠ .queen := by
        intro hkind
        rw [hkind] at hsafe
        cases hsafe
      obtain ⟨u, hrun, hdrowned, hmadeU, hfoodU⟩ := antReduceArmor_drowned hs hadded hmade hkind
      refine ⟨u, hrun, ⟨hmadeU, fun hdry => ?_, fun _ _ => hdrowned⟩, hfoodU.trans hfood⟩
      have hsafe' := hdry hwater
      rw [hsafe] at hsafe'
      cases hsafe'

theorem Settled.pay {L : Layout} (h : Settled L s t kind p) (food : ℤ) :
    Settled L s { t with food := food } kind p := by
  have hmade := h.made
  constructor
  · exact ⟨hmade.antCount, hmade.queenCount, hmade.time, hmade.activeBees, hmade.choices,
      hmade.numBees, hmade.damage, hmade.kind⟩
  · intro hdry
    have hadded := h.dry hdry
    refine ⟨hadded.armor, hadded.place, ?_, hadded.bees, hadded.beesAt⟩
    cases hadded.holds with
    | alone hempty hcontained hantAt hants => exact .alone hempty hcontained hantAt hants
    | inside c hc hcontainer hempty hkind hantAt hhost hants =>
      exact .inside c hc hcontainer hempty hkind hantAt hhost hants
    | around c hc hcontainer hkind hcontained hantAt hants =>
      exact .around c hc hcontainer hkind hcontained hantAt hants
  · intro hwet hunsafe
    have hdrowned := h.wet hwet hunsafe
    exact ⟨hdrowned.armor, hdrowned.place, hdrowned.antAt, hdrowned.ants, hdrowned.bees,
      hdrowned.beesAt⟩

end Adding

/-- The food, every place and every insect are as they were, and so is whether the next queen is
the true one. -/
structure Unchanged (s s' : Colony) : Prop where
  food : s'.food = s.food
  antAt : s'.antAt = s.antAt
  beesAt : s'.beesAt = s.beesAt
  ants : ∀ a < s.antCount, s'.ants a = s.ants a
  bees : s'.bees = s.bees
  activeBees : s'.activeBees = s.activeBees
  time : s'.time = s.time
  choices : s'.choices = s.choices
  numBees : s'.numBees = s.numBees
  trueQueen : s'.queenCount = 0 ↔ s.queenCount = 0

theorem Unchanged.refl (s : Colony) : Unchanged s s :=
  ⟨rfl, rfl, rfl, fun _ _ => rfl, rfl, rfl, rfl, rfl, rfl, Iff.rfl⟩

theorem unchanged_construct (s : Colony) (kind : AntKind) :
    Unchanged s (s.construct kind) ↔ ¬(kind = .queen ∧ s.queenCount = 0) := by
  have hcount : (s.construct kind).queenCount =
      if kind = .queen then s.queenCount + 1 else s.queenCount := rfl
  constructor
  · intro h hspent
    have hzero := h.trueQueen.2 hspent.2
    rw [hcount, if_pos hspent.1] at hzero
    cases hzero
  · intro hkept
    refine ⟨rfl, rfl, rfl, fun a ha => ?_, rfl, rfl, rfl, rfl, rfl, ?_⟩
    · simp [Colony.construct, ha.ne]
    · rw [hcount]
      split
      · rename_i hkind
        have hne : s.queenCount ≠ 0 := fun hzero => hkept ⟨hkind, hzero⟩
        simp [hne]
      · exact Iff.rfl

section Outcomes

variable (L : Layout) (antTypes : List AntKind) (placeName antTypeName : String) (s : Colony)

/-- All or nothing: a new ant is in the place and paid for, or nothing is changed. -/
inductive AllOrNothing : EStateM.Result Exn Colony Unit → Prop
  | deployed {s' : Colony} {kind : AntKind} {p : PlaceId}
      (hkind : antTypeNamed antTypes antTypeName = some kind) (hplace : L.lookup placeName = some p)
      (hcost : kind.foodCost ≤ s.food) (hfood : s'.food = s.food - kind.foodCost)
      (hsettled : Settled L s s' kind p) : AllOrNothing (.ok () s')
  | tooLittleFood {s' : Colony} {kind : AntKind}
      (hkind : antTypeNamed antTypes antTypeName = some kind) (hcost : s.food < kind.foodCost)
      (hunchanged : Unchanged s s') : AllOrNothing (.ok () s')
  | unknown {s' : Colony}
      (hunknown : antTypeNamed antTypes antTypeName = none ∨ L.lookup placeName = none)
      (hunchanged : Unchanged s s') : AllOrNothing (.error .keyError s')
  | refused {s' : Colony} {kind : AntKind} {p : PlaceId}
      (hkind : antTypeNamed antTypes antTypeName = some kind) (hplace : L.lookup placeName = some p)
      (hrefuses : Refuses s kind p) (hunchanged : Unchanged s s') :
      AllOrNothing (.error .assertion s')

/-- The first queen is made and paid for by nobody: no place has the name, or the place does not
accept her. -/
def SpendsQueen : Prop :=
  antTypeNamed antTypes antTypeName = some .queen ∧ AntKind.queen.foodCost ≤ s.food ∧
    s.queenCount = 0 ∧ ∀ p, L.lookup placeName = some p → Refuses s .queen p

end Outcomes

section Deploy

variable {L : Layout} {antTypes : List AntKind} {plan : AssaultPlan} {s : Colony}
  {kind : AntKind} {p : PlaceId} {placeName antTypeName : String}

theorem AllOrNothing.unchanged {e : Exn} {s' : Colony}
    (h : AllOrNothing L antTypes placeName antTypeName s (.error e s')) : Unchanged s s' := by
  cases h with
  | unknown hunknown hunchanged => exact hunchanged
  | refused hkind hplace hrefuses hunchanged => exact hunchanged

theorem deployAnt_unknownType (hkind : antTypeNamed antTypes antTypeName = none) :
    deployAnt L antTypes placeName antTypeName s = .error .keyError s := by
  unfold deployAnt
  rw [hkind]
  rfl

theorem deployAnt_tooLittleFood (hkind : antTypeNamed antTypes antTypeName = some kind)
    (hcost : s.food < kind.foodCost) :
    deployAnt L antTypes placeName antTypeName s = .ok () s := by
  have hget : (get : GameM Colony) s = .ok s s := rfl
  unfold deployAnt
  rw [hkind]
  dsimp only
  rw [eval_bind_ok hget, if_pos hcost]
  rfl

section Paid

variable (hkind : antTypeNamed antTypes antTypeName = some kind) (hcost : kind.foodCost ≤ s.food)

include hkind hcost

theorem deployAnt_unknownPlace (hplace : L.lookup placeName = none) :
    deployAnt L antTypes placeName antTypeName s = .error .keyError (s.construct kind) := by
  have hget : (get : GameM Colony) s = .ok s s := rfl
  have hmake : construct kind s = .ok s.antCount (s.construct kind) := rfl
  unfold deployAnt
  rw [hkind]
  dsimp only
  rw [eval_bind_ok hget, if_neg hcost.not_gt, eval_bind_ok hmake, hplace]
  rfl

theorem deployAnt_place (hplace : L.lookup placeName = some p) :
    deployAnt L antTypes placeName antTypeName s =
      (addInsect L p (.ant s.antCount) >>= fun _ =>
        modify fun s => { s with food := s.food - kind.foodCost }) (s.construct kind) := by
  have hget : (get : GameM Colony) s = .ok s s := rfl
  have hmake : construct kind s = .ok s.antCount (s.construct kind) := rfl
  unfold deployAnt
  rw [hkind]
  dsimp only
  rw [eval_bind_ok hget, if_neg hcost.not_gt, eval_bind_ok hmake, hplace]

theorem deployAnt_refused (hs : WellPlaced s) (hplace : L.lookup placeName = some p)
    (hrefuses : Refuses s kind p) :
    deployAnt L antTypes placeName antTypeName s = .error .assertion (s.construct kind) := by
  rw [deployAnt_place hkind hcost hplace, eval_bind_error (addInsect_refused hs hrefuses)]

theorem deployAnt_deployed (hs : WellPlaced s) (hplace : L.lookup placeName = some p)
    (hrefuses : ¬Refuses s kind p) :
    ∃ s', deployAnt L antTypes placeName antTypeName s = .ok () s' ∧
      s'.food = s.food - kind.foodCost ∧ Settled L s s' kind p := by
  obtain ⟨t, hrun, hsettled, hfood⟩ := addInsect_settled L hs hrefuses
  refine ⟨{ t with food := t.food - kind.foodCost }, ?_, ?_, hsettled.pay _⟩
  · rw [deployAnt_place hkind hcost hplace, eval_bind_ok hrun]
    rfl
  · rw [← hfood]

end Paid

/-- Deploying an ant is all or nothing, unless the first queen is made and then refused. -/
theorem deployAnt_iff (hs : Deploying L antTypes plan s) :
    AllOrNothing L antTypes placeName antTypeName s
        (deployAnt L antTypes placeName antTypeName s) ↔
      ¬SpendsQueen L antTypes placeName antTypeName s := by
  have hplaced := hs.wellPlaced
  cases hkind : antTypeNamed antTypes antTypeName with
  | none =>
    have hkept : ¬SpendsQueen L antTypes placeName antTypeName s := by
      intro hspends
      have hqueen := hspends.1
      rw [hkind] at hqueen
      cases hqueen
    rw [deployAnt_unknownType hkind]
    exact iff_of_true (.unknown (.inl hkind) (.refl s)) hkept
  | some kind =>
    have hspends : SpendsQueen L antTypes placeName antTypeName s ↔
        (kind = .queen ∧ s.queenCount = 0) ∧ kind.foodCost ≤ s.food ∧
          ∀ p, L.lookup placeName = some p → Refuses s kind p := by
      unfold SpendsQueen
      rw [hkind, Option.some.injEq]
      constructor
      · rintro ⟨rfl, hcost, hcount, hrefuses⟩
        exact ⟨⟨rfl, hcount⟩, hcost, hrefuses⟩
      · rintro ⟨⟨rfl, hcount⟩, hcost, hrefuses⟩
        exact ⟨rfl, hcost, hcount, hrefuses⟩
    have hfails : ∀ e, (Unchanged s (s.construct kind) →
          AllOrNothing L antTypes placeName antTypeName s (.error e (s.construct kind))) →
        (AllOrNothing L antTypes placeName antTypeName s (.error e (s.construct kind)) ↔
          ¬(kind = .queen ∧ s.queenCount = 0)) := by
      intro e hfails
      rw [← unchanged_construct]
      exact ⟨AllOrNothing.unchanged, hfails⟩
    rw [hspends]
    by_cases hcost : kind.foodCost ≤ s.food
    · cases hplace : L.lookup placeName with
      | none =>
        have hnowhere : ∀ p, none = some p → Refuses s kind p := fun p hp => by cases hp
        rw [deployAnt_unknownPlace hkind hcost hplace, and_iff_left ⟨hcost, hnowhere⟩]
        exact hfails _ (.unknown (.inr hplace))
      | some p =>
        by_cases hrefuses : Refuses s kind p
        · have hrefused : ∀ q, some p = some q → Refuses s kind q := by
            rintro q ⟨⟩
            exact hrefuses
          rw [deployAnt_refused hkind hcost hplaced hplace hrefuses,
            and_iff_left ⟨hcost, hrefused⟩]
          exact hfails _ (.refused hkind hplace hrefuses)
        · obtain ⟨s', hrun, hfood, hsettled⟩ :=
            deployAnt_deployed hkind hcost hplaced hplace hrefuses
          rw [hrun]
          refine iff_of_true (.deployed hkind hplace hcost hfood hsettled) fun h => ?_
          exact hrefuses (h.2.2 p rfl)
    · have hlittle := not_le.1 hcost
      rw [deployAnt_tooLittleFood hkind hlittle]
      exact iff_of_true (.tooLittleFood hkind hlittle (.refl s)) fun h => hcost h.2.1

end Deploy

def twoTunnels : Layout := Layout.configure (dryLayout 2 1)

def lateBee : AssaultPlan :=
  ⟨[(2, [0])], fun _ => .bee, fun _ => 3, List.nodup_singleton _, List.nodup_singleton _⟩

/-- A thrower is in the first of the two tunnels, and there is food for a queen. -/
def guarded : Colony :=
  finalState (deployAnt twoTunnels AntKind.all "tunnel_0_0" "Thrower"
    (initialColony lateBee 10 0 fun _ => 0))

theorem guarded_deploying : Deploying twoTunnels AntKind.all lateBee guarded :=
  .command (.start (.first 10 0 fun _ => 0)) (.deploy "tunnel_0_0" "Thrower")

theorem deployAnt_iff_queen :
    AllOrNothing twoTunnels AntKind.all "tunnel_1_0" "Queen" guarded
      (deployAnt twoTunnels AntKind.all "tunnel_1_0" "Queen" guarded) := by
  refine (deployAnt_iff guarded_deploying).2 fun hspends => ?_
  have hplace : twoTunnels.lookup "tunnel_1_0" = some (.tunnel 1) := by decide
  have hempty : guarded.antAt (.tunnel 1) = none := by decide
  obtain hqueen | ⟨c, hc, -⟩ := hspends.2.2.2 (.tunnel 1) hplace
  · cases hqueen
  · rw [hempty] at hc
    cases hc

/-- A queen that is refused is no impostor, but the next one is. -/
theorem refused_queen_spends :
    Deploying twoTunnels AntKind.all lateBee guarded ∧
      ¬AllOrNothing twoTunnels AntKind.all "tunnel_0_0" "Queen" guarded
        (deployAnt twoTunnels AntKind.all "tunnel_0_0" "Queen" guarded) ∧
      let next := deployAnt twoTunnels AntKind.all "tunnel_1_0" "Queen"
      ((finalState (next guarded)).ants 1).imposter = false ∧
        ((finalState (next (finalState
          (deployAnt twoTunnels AntKind.all "tunnel_0_0" "Queen" guarded)))).ants 2).imposter =
            true := by
  refine ⟨guarded_deploying, fun h => ?_, by decide, by decide⟩
  have hrefused : deployAnt twoTunnels AntKind.all "tunnel_0_0" "Queen" guarded =
      .error .assertion (guarded.construct .queen) := rfl
  rw [hrefused] at h
  exact (unchanged_construct guarded .queen).1 h.unchanged (by decide)

end Courses.Ants

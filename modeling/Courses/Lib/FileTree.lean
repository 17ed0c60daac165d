import Mathlib.Data.List.Basic
import Mathlib.Data.List.Induction
import Mathlib.Tactic.SplitIfs

/-!
# Path resolution in a file system

A tree of directories, regular files and symbolic links, each node under its canonical
path: the names from the root down to it. Resolving a path walks from the root or from
the working directory, component by component; a link puts its own components in front of
those that are left, and only so many links are followed. A walk is recorded as moves: up,
down to a name, or to the root. `endsBelow_iff` says by the moves alone when a walk that
starts in a directory ends below it.
-/
namespace Courses.Lib

abbrev Name := List UInt8

/-- The names from the root down to a node. -/
abbrev Path := List Name

inductive FileNode where
  | file (contents : List UInt8) (readable : Bool)
  | dir (searchable : Bool)
  | symlink (target : List UInt8)
  /-- a device, a socket or a pipe -/
  | other
  deriving DecidableEq

structure FileTree where
  node : Path → Option FileNode
  /-- the working directory -/
  cwd : Path
  /-- how many links one resolution may follow -/
  maxLinks : ℕ
  parent : ∀ path name, node (path ++ [name]) ≠ none → ∃ searchable, node path = some (.dir searchable)

inductive Move where
  | up
  | down (name : Name)
  | toRoot
  deriving DecidableEq

namespace Move

/-- The parent of the root is the root. -/
def apply : Path → Move → Path
  | cur, up => cur.dropLast
  | cur, down name => cur ++ [name]
  | _, toRoot => []

end Move

/-- Where moves lead from `start`. -/
def arrive (start : Path) (moves : List Move) : Path := moves.foldl Move.apply start

@[simp] theorem arrive_nil (start : Path) : arrive start [] = start := rfl

@[simp] theorem arrive_cons (start : Path) (m : Move) (moves : List Move) :
    arrive start (m :: moves) = arrive (m.apply start) moves := rfl

theorem arrive_append (start : Path) (ms ns : List Move) :
    arrive start (ms ++ ns) = arrive (arrive start ms) ns := List.foldl_append

namespace FileTree

variable (t : FileTree)

def slash : UInt8 := 47

def dot : Name := [46]

def dotdot : Name := [46, 46]

def components (path : List UInt8) : List Name := path.splitOn slash

/-- One resolution, with `links` links left; `follow` goes on after one of them. -/
def walkWith (links : ℕ) (follow : Path → List Name → Option (List Move × ℕ)) :
    Path → List Name → Option (List Move × ℕ)
  | _, [] => some ([], links)
  | cur, name :: todo =>
    if t.node cur = some (.dir true) then
      if name = [] ∨ name = dot then
        walkWith links follow cur todo
      else if name = dotdot then
        (walkWith links follow cur.dropLast todo).map fun r => (.up :: r.1, r.2)
      else
        match t.node (cur ++ [name]) with
        | none => none
        | some (.symlink target) =>
          if target = [] then
            none
          else if target.head? = some slash then
            (follow [] (components target ++ todo)).map fun r => (.toRoot :: r.1, r.2)
          else
            follow cur (components target ++ todo)
        | some _ => (walkWith links follow (cur ++ [name]) todo).map fun r => (.down name :: r.1, r.2)
    else
      none

/-- The moves along the components `todo` from the directory `cur`, and the links left. -/
def walk : ℕ → Path → List Name → Option (List Move × ℕ)
  | 0 => walkWith t 0 fun _ _ => none
  | links + 1 => walkWith t (links + 1) (walk links)

/-- How a walk with `links` links left goes on after one of them. -/
def followWith : ℕ → Path → List Name → Option (List Move × ℕ)
  | 0 => fun _ _ => none
  | links + 1 => t.walk links

theorem walk_eq (links : ℕ) (cur : Path) (todo : List Name) :
    t.walk links cur todo = t.walkWith links (t.followWith links) cur todo := by
  cases links <;> rfl

/-- Where the resolution of a path starts. -/
def start (path : List UInt8) : Path := if path.head? = some slash then [] else t.cwd

/-- The canonical path of what `path` names. -/
def resolve (path : List UInt8) : Option Path :=
  if path = [] then
    none
  else
    (t.walk t.maxLinks (t.start path) (components path)).map fun r => arrive (t.start path) r.1

/-! ### A walk in two parts -/

/-- Go on with a walk that has come so far. -/
def thenWalk (cur : Path) (rest : List Name) (r : List Move × ℕ) : Option (List Move × ℕ) :=
  (t.walk r.2 (arrive cur r.1) rest).map fun s => (r.1 ++ s.1, s.2)

theorem thenWalk_cons (cur : Path) (rest : List Name) (m : Move) (r : List Move × ℕ) :
    t.thenWalk cur rest (m :: r.1, r.2) =
      (t.thenWalk (m.apply cur) rest r).map fun s => (m :: s.1, s.2) := by
  simp [thenWalk, Option.map_map, Function.comp_def]

theorem walkWith_append {links : ℕ} {follow : Path → List Name → Option (List Move × ℕ)}
    (hwalk : t.walk links = t.walkWith links follow) (rest : List Name)
    (hfollow : ∀ cur todo, follow cur (todo ++ rest) = (follow cur todo).bind (t.thenWalk cur rest))
    (cur : Path) (todo : List Name) :
    t.walkWith links follow cur (todo ++ rest) =
      (t.walkWith links follow cur todo).bind (t.thenWalk cur rest) := by
  induction todo generalizing cur with
  | nil => simp [walkWith, thenWalk, hwalk]
  | cons name todo ih =>
    rw [List.cons_append, walkWith, walkWith]
    by_cases hdir : t.node cur = some (.dir true)
    · rw [if_pos hdir, if_pos hdir]
      by_cases hhere : name = [] ∨ name = dot
      · rw [if_pos hhere, if_pos hhere]
        exact ih cur
      · rw [if_neg hhere, if_neg hhere]
        by_cases hup : name = dotdot
        · rw [if_pos hup, if_pos hup, ih]
          simp [Option.map_bind, Option.bind_map, Function.comp_def, thenWalk_cons, Move.apply]
        · rw [if_neg hup, if_neg hup]
          cases hnode : t.node (cur ++ [name]) with
          | none => rfl
          | some node =>
            cases node with
            | symlink target =>
              simp only
              split_ifs
              · rfl
              · rw [← List.append_assoc, hfollow]
                simp [Option.map_bind, Option.bind_map, Function.comp_def, thenWalk_cons, Move.apply]
              · rw [← List.append_assoc, hfollow]
            | _ =>
              simp only [ih]
              simp [Option.map_bind, Option.bind_map, Function.comp_def, thenWalk_cons, Move.apply]
    · rw [if_neg hdir, if_neg hdir]
      rfl

/-- A walk along `todo ++ rest` is a walk along `todo` followed by one along `rest`. -/
theorem walk_append (links : ℕ) (cur : Path) (todo rest : List Name) :
    t.walk links cur (todo ++ rest) = (t.walk links cur todo).bind (t.thenWalk cur rest) := by
  induction links generalizing cur todo with
  | zero => exact t.walkWith_append rfl rest (fun _ _ => rfl) cur todo
  | succ links ih => exact t.walkWith_append rfl rest ih cur todo

/-- The moves from the directory that `dir` names along the components of `name`. -/
def movesFrom (dir name : List UInt8) : Option (List Move) :=
  (t.walk t.maxLinks (t.start dir) (components dir)).bind fun r =>
    (t.walk r.2 (arrive (t.start dir) r.1) (components name)).map Prod.fst

/-- A name put behind the path of a directory is resolved from that directory. -/
theorem resolve_append {dir name : List UInt8} {base : Path} (h : t.resolve dir = some base) :
    t.resolve (dir ++ [slash] ++ name) = (t.movesFrom dir name).map (arrive base) := by
  unfold resolve at h
  split at h
  · cases h
  · rename_i hne
    obtain ⟨r, hr, rfl⟩ := Option.map_eq_some_iff.1 h
    have hstart : t.start (dir ++ [slash] ++ name) = t.start dir := by
      obtain ⟨c, cs, rfl⟩ := List.exists_cons_of_ne_nil hne
      rfl
    have hcomponents : components (dir ++ [slash] ++ name) = components dir ++ components name := by
      rw [List.append_assoc]
      exact List.splitOn_append_cons_self dir name
    rw [resolve, if_neg (by simp), hstart, hcomponents, walk_append, movesFrom, hr]
    simp [thenWalk, Option.map_map, Function.comp_def, arrive_append]

/-- A path that starts with `dir` and a slash comes to `base` behind them. -/
def LeadsTo (dir : List UInt8) (base : Path) : Prop :=
  ∃ r, t.walk t.maxLinks (t.start (dir ++ [slash])) (components dir) = some r ∧
    arrive (t.start (dir ++ [slash])) r.1 = base

theorem leadsTo_of_resolve {dir : List UInt8} {base : Path} (h : t.resolve dir = some base) :
    t.LeadsTo dir base := by
  unfold resolve at h
  split at h
  · cases h
  · rename_i hne
    obtain ⟨r, hr, rfl⟩ := Option.map_eq_some_iff.1 h
    have hstart : t.start (dir ++ [slash]) = t.start dir := by
      obtain ⟨c, cs, rfl⟩ := List.exists_cons_of_ne_nil hne
      rfl
    exact ⟨r, by rw [hstart, hr], by rw [hstart]⟩

/-- The slash at the end of a path asks for a directory, and changes nothing else. -/
theorem leadsTo_of_resolve_slash {dir : List UInt8} {base : Path}
    (h : t.resolve (dir ++ [slash]) = some base) : t.LeadsTo dir base := by
  have hcomponents : components (dir ++ [slash]) = components dir ++ [[]] :=
    List.splitOn_append_cons_self dir []
  rw [resolve, if_neg (by simp), hcomponents, walk_append] at h
  obtain ⟨r', hr', rfl⟩ := Option.map_eq_some_iff.1 h
  obtain ⟨r, hr, hthen⟩ := Option.bind_eq_some_iff.1 hr'
  obtain ⟨s, hs, rfl⟩ := Option.map_eq_some_iff.1 hthen
  have hstay : s.1 = [] := by
    rw [walk_eq, walkWith] at hs
    split at hs
    · rw [if_pos (.inl rfl), walkWith, Option.some.injEq] at hs
      rw [← hs]
    · cases hs
  exact ⟨r, hr, by simp [hstay]⟩

theorem walk_singleton (links : ℕ) {cur : Path} {name : Name} {node : FileNode}
    (hname : name ≠ [] ∧ name ≠ dot ∧ name ≠ dotdot) (hnode : t.node (cur ++ [name]) = some node)
    (hlink : ∀ target, node ≠ .symlink target) :
    t.walk links cur [name] =
      if t.node cur = some (.dir true) then some ([.down name], links) else none := by
  have hhere : ¬ (name = [] ∨ name = dot) := by simp [hname]
  rw [walk_eq, walkWith, if_neg hhere, if_neg hname.2.2, hnode]
  cases node with
  | symlink target => exact absurd rfl (hlink target)
  | _ => rfl

/-- A name behind a directory's path names what the directory has under it. -/
theorem LeadsTo.resolve {dir : List UInt8} {base : Path} (h : t.LeadsTo dir base) {name : Name}
    {node : FileNode} (hslash : slash ∉ name) (hname : name ≠ [] ∧ name ≠ dot ∧ name ≠ dotdot)
    (hnode : t.node (base ++ [name]) = some node) (hlink : ∀ target, node ≠ .symlink target) :
    t.resolve (dir ++ [slash] ++ name) =
      if t.node base = some (.dir true) then some (base ++ [name]) else none := by
  obtain ⟨r, hr, rfl⟩ := h
  have hstart : t.start (dir ++ [slash] ++ name) = t.start (dir ++ [slash]) := by
    cases dir <;> rfl
  have hcomponents : components (dir ++ [slash] ++ name) = components dir ++ [name] := by
    rw [List.append_assoc]
    exact (List.splitOn_append_cons_self dir name).trans
      (congrArg _ (List.splitOn_eq_singleton hslash))
  rw [FileTree.resolve, if_neg (by simp), hstart, hcomponents, walk_append, hr, Option.bind_some,
    thenWalk, t.walk_singleton _ hname hnode hlink]
  split
  · simp [arrive_append, Move.apply]
  · rfl

end FileTree

/-! ### Ending below the start -/

/-- The depth below the start after one more move, as long as the walk stays below it. -/
def stepDepth (depth : ℕ) : Move → Option ℕ
  | .up => if 2 ≤ depth then some (depth - 1) else none
  | .down _ => some (depth + 1)
  | .toRoot => none

/-- The walk leaves its start by a name and then never goes up to the start again, nor to
the root. -/
def StaysBelow (moves : List Move) : Prop := ∃ depth, 0 < depth ∧ moves.foldlM stepDepth 0 = some depth

/-- From the last time it is at its start on, the walk stays below it. -/
def EndsBelow (start : Path) (moves : List Move) : Prop :=
  ∃ before after, moves = before ++ after ∧ arrive start before = start ∧ StaysBelow after

theorem stepDepth_up {depth : ℕ} (h : 2 ≤ depth) : stepDepth depth .up = some (depth - 1) := if_pos h

theorem arrive_of_stepDepth {start : Path} {moves : List Move} {depth : ℕ}
    (h : moves.foldlM stepDepth 0 = some depth) :
    ∃ names, arrive start moves = start ++ names ∧ names.length = depth := by
  induction moves using List.reverseRecOn generalizing depth with
  | nil =>
    cases h
    exact ⟨[], by simp, rfl⟩
  | append_singleton moves m ih =>
    rw [List.foldlM_append] at h
    obtain ⟨d, hd, hm⟩ := Option.bind_eq_some_iff.1 h
    rw [List.foldlM_cons] at hm
    obtain ⟨d', hstep, hd'⟩ := Option.bind_eq_some_iff.1 hm
    cases hd'
    obtain ⟨names, harrive, hlen⟩ := ih hd
    rw [arrive_append, harrive]
    cases m with
    | down name =>
      cases hstep
      exact ⟨names ++ [name], by simp [Move.apply], by simp [hlen]⟩
    | toRoot => cases hstep
    | up =>
      rw [stepDepth] at hstep
      split at hstep
      · cases hstep
        have hne : names ≠ [] := by
          rintro rfl
          simp at hlen
          omega
        exact ⟨names.dropLast, by simp [Move.apply, List.dropLast_append_of_ne_nil hne],
          by rw [List.length_dropLast, hlen]⟩
      · cases hstep

/-- A walk that arrives below its start has passed through the start, and stayed below it
since. -/
theorem stepDepth_of_arrive {start : Path} {moves : List Move} {names : List Name}
    (h : arrive start moves = start ++ names) (hne : names ≠ []) :
    ∃ before after, moves = before ++ after ∧ arrive start before = start ∧
      after.foldlM stepDepth 0 = some names.length := by
  induction moves using List.reverseRecOn generalizing names with
  | nil =>
    have : names = [] := by simpa using h
    exact absurd this hne
  | append_singleton moves m ih =>
    rw [arrive_append, arrive_cons, arrive_nil] at h
    cases m with
    | toRoot =>
      have : names = [] := (List.append_eq_nil_iff.1 h.symm).2
      exact absurd this hne
    | down name =>
      obtain ⟨init, last, rfl⟩ : ∃ init last, names = init ++ [last] :=
        ⟨_, _, (List.dropLast_append_getLast hne).symm⟩
      rw [← List.append_assoc] at h
      obtain ⟨hinit, -⟩ := List.append_inj' h rfl
      by_cases hnil : init = []
      · -- the walk was at its start before this move
        rw [hnil, List.append_nil] at hinit
        exact ⟨moves, [.down name], rfl, hinit, by simp [hnil, stepDepth]⟩
      · obtain ⟨before, after, rfl, hbefore, hafter⟩ := ih hinit hnil
        refine ⟨before, after ++ [.down name], by simp, hbefore, ?_⟩
        rw [List.foldlM_append, hafter]
        simp [stepDepth]
    | up =>
      have hcur : arrive start moves ≠ [] := by
        intro hnil
        rw [hnil] at h
        exact hne (List.append_eq_nil_iff.1 h.symm).2
      have hlast : arrive start moves = start ++ (names ++ [(arrive start moves).getLast hcur]) := by
        conv_lhs => rw [← List.dropLast_append_getLast hcur]
        rw [← List.append_assoc, ← h]
        rfl
      obtain ⟨before, after, hsplit, hbefore, hafter⟩ := ih hlast (by simp)
      have hdeep : 2 ≤ names.length + 1 := by
        have := List.length_pos_iff.2 hne
        omega
      refine ⟨before, after ++ [.up], by simp [hsplit], hbefore, ?_⟩
      rw [List.foldlM_append, hafter]
      simp [stepDepth_up hdeep]

/-- A walk ends strictly below its start exactly when it stays below from some point on. -/
theorem endsBelow_iff (start : Path) (moves : List Move) :
    EndsBelow start moves ↔ ∃ names, names ≠ [] ∧ arrive start moves = start ++ names := by
  constructor
  · rintro ⟨before, after, rfl, hbefore, depth, hpos, hafter⟩
    obtain ⟨names, harrive, hlen⟩ := arrive_of_stepDepth hafter
    refine ⟨names, ?_, ?_⟩
    · rintro rfl
      simp at hlen
      omega
    · rw [arrive_append, hbefore, harrive]
  · rintro ⟨names, hne, harrive⟩
    obtain ⟨before, after, hsplit, hbefore, hafter⟩ := stepDepth_of_arrive harrive hne
    exact ⟨before, after, hsplit, hbefore, names.length, List.length_pos_iff.2 hne, hafter⟩

end Courses.Lib

/-!
# Canonical paths as text

A canonical absolute path names each component once, behind a slash. Its text determines
the components, but a prefix of the text need not end where a component ends
(`joined_prefix_iff`).
-/
namespace Courses.Lib

open FileTree

/-- The components of a path without `.`, `..`, empty names and links, as a C string holds
them. -/
structure CanonicalPath where
  components : Path
  clean : ∀ name ∈ components, name ≠ [] ∧ name ≠ dot ∧ name ≠ dotdot ∧ slash ∉ name ∧ 0 ∉ name

/-- Each name behind a slash. -/
def joined (path : Path) : List UInt8 := path.flatMap (slash :: ·)

@[simp] theorem joined_nil : joined [] = [] := rfl

@[simp] theorem joined_cons (name : Name) (path : Path) :
    joined (name :: path) = slash :: (name ++ joined path) := rfl

theorem joined_append (path more : Path) : joined (path ++ more) = joined path ++ joined more :=
  List.flatMap_append

namespace CanonicalPath

def text (p : CanonicalPath) : List UInt8 := if p.components = [] then [slash] else joined p.components

theorem zero_not_mem_text (p : CanonicalPath) : 0 ∉ p.text := by
  have hslash : (0 : UInt8) ≠ slash := by decide
  unfold text
  split
  · exact fun hmem => hslash (List.mem_singleton.1 hmem)
  · intro hmem
    obtain ⟨name, hname, hzero⟩ := List.mem_flatMap.1 hmem
    obtain hzero | hzero := List.mem_cons.1 hzero
    · exact hslash hzero
    · exact (p.clean name hname).2.2.2.2 hzero

end CanonicalPath

/-! ### Prefixes of the text -/

section

variable {name other : Name} {path : Path} {rest : List UInt8}

/-- A name that begins the text of a path begins its first component. -/
theorem prefix_of_prefix_joined (hname : slash ∉ name) (h : name <+: other ++ joined path) :
    name <+: other := by
  induction name generalizing other with
  | nil => exact List.nil_prefix
  | cons c name ih =>
    obtain ⟨hc, hname⟩ := not_or.1 (mt List.mem_cons.2 hname)
    cases other with
    | nil =>
      cases path with
      | nil => exact h
      | cons first path => exact absurd (List.cons_prefix_cons.1 h).1.symm hc
    | cons d other =>
      obtain ⟨rfl, hlater⟩ := List.cons_prefix_cons.1 h
      exact List.cons_prefix_cons.2 ⟨rfl, ih hname hlater⟩

/-- With a slash behind it, it is the first component. -/
theorem eq_of_prefix_joined (hname : slash ∉ name) (hother : slash ∉ other)
    (h : name ++ slash :: rest <+: other ++ joined path) :
    name = other ∧ slash :: rest <+: joined path := by
  induction name generalizing other with
  | nil =>
    cases other with
    | nil => exact ⟨rfl, h⟩
    | cons d other =>
      obtain ⟨rfl, -⟩ := List.cons_prefix_cons.1 h
      exact absurd List.mem_cons_self hother
  | cons c name ih =>
    obtain ⟨hc, hname⟩ := not_or.1 (mt List.mem_cons.2 hname)
    cases other with
    | nil =>
      cases path with
      | nil => exact absurd h.length_le (by simp)
      | cons first path => exact absurd (List.cons_prefix_cons.1 h).1.symm hc
    | cons d other =>
      obtain ⟨rfl, hlater⟩ := List.cons_prefix_cons.1 h
      obtain ⟨rfl, hrest⟩ := ih hname (fun hmem => hother (List.mem_cons_of_mem _ hmem)) hlater
      exact ⟨rfl, hrest⟩

/-- The text of a path begins with that of another when the last name of the other may be
longer there, and all names before it are the same. -/
theorem joined_prefix_iff {parent : Path} (hname : slash ∉ name)
    (hparent : ∀ n ∈ parent, slash ∉ n) (hpath : ∀ n ∈ path, slash ∉ n) :
    joined (parent ++ [name]) <+: joined path ↔
      ∃ ext more, path = parent ++ (name ++ ext) :: more := by
  induction parent generalizing path with
  | nil =>
    cases path with
    | nil => simp
    | cons first path =>
      have hfirst : joined ([] ++ [name]) <+: joined (first :: path) ↔ name <+: first := by
        simp only [List.nil_append, joined_cons, joined_nil, List.append_nil, List.cons_prefix_cons,
          true_and]
        exact ⟨prefix_of_prefix_joined hname, fun h => h.trans (List.prefix_append _ _)⟩
      rw [hfirst]
      constructor
      · rintro ⟨ext, rfl⟩
        exact ⟨ext, path, rfl⟩
      · rintro ⟨ext, more, h⟩
        obtain ⟨rfl, -⟩ := List.cons.inj h
        exact List.prefix_append name ext
  | cons p parent ih =>
    have hp := hparent p List.mem_cons_self
    have hparent' : ∀ n ∈ parent, slash ∉ n := fun n hn => hparent n (List.mem_cons_of_mem p hn)
    -- what stands behind `p` begins with a slash
    obtain ⟨rest, hrest⟩ : ∃ rest, joined (parent ++ [name]) = slash :: rest := by
      cases parent with
      | nil => exact ⟨_, rfl⟩
      | cons q parent => exact ⟨_, rfl⟩
    cases path with
    | nil => simp
    | cons first path =>
      have hpath' : ∀ n ∈ path, slash ∉ n := fun n hn => hpath n (List.mem_cons_of_mem first hn)
      have hstep : joined (p :: parent ++ [name]) <+: joined (first :: path) ↔
          p = first ∧ joined (parent ++ [name]) <+: joined path := by
        simp only [List.cons_append, joined_cons, List.cons_prefix_cons, true_and]
        constructor
        · intro h
          rw [hrest] at h ⊢
          exact eq_of_prefix_joined hp (hpath first List.mem_cons_self) h
        · rintro ⟨rfl, h⟩
          exact (List.prefix_append_right_inj p).2 h
      rw [hstep, ih hparent' hpath']
      simp [eq_comm]

end

end Courses.Lib

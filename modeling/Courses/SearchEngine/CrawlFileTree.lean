import Courses.Lib.FileTree
import Courses.SearchEngine.FileCrawler

/-!
# Crawling a directory tree

`CrawlFileTree` and `HandleDir` of `hw2/filecrawler.c`, over the path resolution of
`Courses.Lib.FileTree`. `HandleFile` is a parameter, so that a crawl can be run with a
recorder in its place: what the recorder ends with are the calls. A crawl agrees with
`found`, which walks over canonical paths and knows nothing of path names. Entries whose
names start with a dot are skipped, not only `.` and `..`, with all that is below them;
apart from these every regular file is handled once.
-/
namespace Courses.SearchEngine

open Courses.Lib Courses.Lib.AllocM Courses.Lib.FileTree

/-! ## System calls -/

/-- The file system that is crawled. -/
structure CrawledTree extends FileTree where
  /-- how long a path name can be -/
  pathMax : ℕ
  pathMax_lt : pathMax + 1 < 2 ^ 31
  /-- The names that `readdir_r` gives of a directory before its end, or before an error;
  `none` where `opendir` fails. -/
  listing : Path → Option (List CString)

namespace CrawledTree

variable (fs : CrawledTree)

/-- The canonical path of what a path name names, unless it is too long. -/
def lookup (path : List UInt8) : Option Path :=
  if path.length < fs.pathMax then fs.resolve path else none

def stat (path : List UInt8) : Option FileNode := (fs.lookup path).bind fs.node

def opendir (path : List UInt8) : Option (List CString) := (fs.lookup path).bind fs.listing

/-- What `ReadFile` of `hw2/fileparser.c` finds. -/
def readFile (path : List UInt8) : Option (List UInt8) :=
  match fs.stat path with
  | some (.file contents true) => some contents
  | _ => none

end CrawledTree

/-! ## `filecrawler.c` -/

/-- `strncmp(s, t, n) == 0`. -/
def strncmpEq (s t : CString) (n : ℕ) : Bool :=
  (s.bytes ++ [0]).take n = (t.bytes ++ [0]).take n

/-- What `snprintf` leaves in a buffer of `size` bytes. -/
def snprintf (size : ℕ) (text : CString) : CString :=
  ⟨text.bytes.take (size - 1), fun h => text.nonul (List.mem_of_mem_take h)⟩

def currentDir : CString := ⟨dot, by decide⟩

def parentDir : CString := ⟨dotdot, by decide⟩

theorem joined_nonul (s t : CString) : 0 ∉ s.bytes ++ t.bytes ∧ 0 ∉ s.bytes ++ [slash] ++ t.bytes := by
  simp [s.nonul, t.nonul, slash]

/-- `"%s%s"` or `"%s/%s"`. -/
def joinPath (dirpath name : CString) : CString :=
  if dirpath.bytes.getLast? = some slash then
    ⟨dirpath.bytes ++ name.bytes, (joined_nonul dirpath name).1⟩
  else
    ⟨dirpath.bytes ++ [slash] ++ name.bytes, (joined_nonul dirpath name).2⟩

theorem length_joinPath (dirpath name : CString) :
    strlen dirpath + strlen name ≤ strlen (joinPath dirpath name) ∧
      strlen (joinPath dirpath name) ≤ strlen dirpath + 1 + strlen name := by
  unfold joinPath strlen
  split <;>
  · simp only [List.length_append, List.length_singleton]
    omega

/-- The length of the joined path and its NUL, as an `int`. -/
def charsize (dirpath name : CString) : ℤ :=
  Int.bmod (strlen dirpath + 1 + strlen name + 1) (2 ^ 32)

theorem charsize_eq {dirpath name : CString} (h : strlen (joinPath dirpath name) + 2 < 2 ^ 31) :
    charsize dirpath name = strlen dirpath + 1 + strlen name + 1 := by
  have hlen := (length_joinPath dirpath name).1
  exact Int.bmod_eq_of_le (by omega) (by omega)

/-- The buffer is as long as the joined path. -/
theorem snprintf_joinPath {dirpath name : CString} (h : strlen (joinPath dirpath name) + 2 < 2 ^ 31) :
    snprintf (charsize dirpath name).toNat (joinPath dirpath name) = joinPath dirpath name := by
  have hlen := (length_joinPath dirpath name).2
  have hsize : (joinPath dirpath name).bytes.length ≤ (charsize dirpath name).toNat - 1 := by
    rw [charsize_eq h]
    change strlen _ ≤ _
    omega
  unfold snprintf
  simp only [List.take_of_length_le hsize]

section Crawl

variable {σ : Type} (fs : CrawledTree) (handleFile : σ → SourceFile → AllocM σ)

/-- A turn of the loop of `HandleDir`; `descend` is its call of itself. -/
def handleEntry (descend : CString → List CString → σ → AllocM σ) (dirpath name : CString) (st : σ) :
    AllocM σ := do
  if strncmpEq name currentDir 1 then
    return st
  else if strncmpEq name parentDir 2 then
    return st
  else
    let size := charsize dirpath name
    -- a negative number of bytes is more than there can be
    verify ((← malloc) && 0 ≤ size)
    let newfile := snprintf size.toNat (joinPath dirpath name)
    match fs.stat newfile.bytes with
    | some (.file _ _) => handleFile st ⟨newfile, fs.readFile newfile.bytes⟩
    | some (.dir _) =>
      match fs.opendir newfile.bytes with
      | some names => descend newfile names st
      | none => return st
    | _ => return st

/-- The loop over the entries that are left. -/
def handleEntries (descend : CString → List CString → σ → AllocM σ) (dirpath : CString) :
    List CString → σ → AllocM σ
  | [], st => return st
  | name :: names, st => do
    let st ← handleEntry fs handleFile descend dirpath name st
    handleEntries descend dirpath names st

/-- The first argument bounds the recursion depth. -/
def handleDir : ℕ → CString → List CString → σ → AllocM σ
  | 0 => fun _ _ _ => halt .fuel
  | depth + 1 => handleEntries fs handleFile (handleDir depth)

/-- `allocate` makes the document table and the index. -/
def crawlFileTree (allocate : AllocM σ) (rootdir : CString) : AllocM (ℕ × Option σ) := do
  match fs.stat rootdir.bytes with
  | some (.dir _) =>
    match fs.opendir rootdir.bytes with
    | some names =>
      let st ← allocate
      -- each directory's path is longer than its parent's, and `stat` takes no longer ones
      let st ← handleDir fs handleFile fs.pathMax rootdir names st
      return (1, some st)
    | none => return (0, none)
  | _ => return (0, none)

end Crawl

/-- `CrawlFileTree` with the allocations it makes and the `HandleFile` it calls. -/
def crawl (fs : CrawledTree) (rootdir : CString) : AllocM (ℕ × Option CrawlState) :=
  crawlFileTree fs handleFile (do
    let doctable ← allocateDocTable
    let index ← verifySome (← allocateMemIndex)
    return ⟨doctable, index⟩) rootdir

/-- The calls of `HandleFile`, recorded. -/
def crawlCalls (fs : CrawledTree) (rootdir : CString) : AllocM (ℕ × Option (List SourceFile)) :=
  crawlFileTree fs (fun calls file => return calls ++ [file]) (pure []) rootdir

/-! ## The tree -/

section Tree

variable (fs : CrawledTree) (rootdir : CString) (root : Path)

/-- What lies below `root` under the names of `rel`. -/
def CrawledTree.below (rel : List CString) : Option FileNode :=
  fs.node (root ++ rel.map CString.bytes)

/-- The path name of what lies below `rootdir` under the names of `rel`. -/
def pathTo (rel : List CString) : CString := rel.foldl joinPath rootdir

/-- The call of `HandleFile` on what lies below `rootdir` under the names of `rel`. -/
def callOn (rel : List CString) : SourceFile :=
  ⟨pathTo rootdir rel, fs.readFile (pathTo rootdir rel).bytes⟩

/-- A directory tree without symbolic links on which `stat`, `opendir` and `readdir_r` succeed. -/
structure Crawlable : Prop where
  resolves : fs.resolve rootdir.bytes = some root
  isDir : ∃ searchable, fs.node root = some (.dir searchable)
  noLinks : ∀ rel target, fs.below root rel ≠ some (.symlink target)
  stats : ∀ rel, fs.below root rel ≠ none → fs.stat (pathTo rootdir rel).bytes ≠ none
  lists : ∀ rel searchable, fs.below root rel = some (.dir searchable) →
    ∃ names, fs.listing (root ++ rel.map CString.bytes) = some names ∧ names.Nodup ∧
      (∀ name, fs.below root (rel ++ [name]) ≠ none → name ∈ names) ∧
      ∀ name ∈ names, name = currentDir ∨ name = parentDir ∨ fs.below root (rel ++ [name]) ≠ none
  names : ∀ rel name, fs.below root (rel ++ [name]) ≠ none →
    name.bytes ≠ [] ∧ slash ∉ name.bytes ∧ name ≠ currentDir ∧ name ≠ parentDir

/-- A regular file below the root. -/
def RegularFile (rel : List CString) : Prop :=
  rel ≠ [] ∧ ∃ contents readable, fs.below root rel = some (.file contents readable)

/-- Each regular file is handled once, under its full path, and nothing else is. -/
def CrawlsAll : Prop :=
  ∃ rels : List (List CString), rels.Nodup ∧ (∀ rel, rel ∈ rels ↔ RegularFile fs root rel) ∧
    Returns (crawlCalls fs rootdir) fun r =>
      ∃ calls, r = (1, some calls) ∧ calls.map SourceFile.path = rels.map (pathTo rootdir)

/-- A name that the crawler skips. -/
def CString.Hidden (name : CString) : Prop := name.bytes.head? = some 46

instance (name : CString) : Decidable name.Hidden := inferInstanceAs (Decidable (_ = _))

/-- The regular files at `rel`, whose last name is `name`, or below it. -/
def foundAt (foundBelow : List CString → List (List CString)) (rel : List CString) (name : CString) :
    List (List CString) :=
  if name.Hidden then
    []
  else
    match fs.below root rel with
    | some (.file _ _) => [rel]
    | some (.dir _) => foundBelow rel
    | _ => []

/-- The regular files below `rel` with no hidden name on the way to them, down to some depth. -/
def found : ℕ → List CString → List (List CString)
  | 0, _ => []
  | depth + 1, rel =>
    ((fs.listing (root ++ rel.map CString.bytes)).getD []).flatMap fun name =>
      foundAt fs root (found depth) (rel ++ [name]) name

variable {fs rootdir root}

theorem strncmpEq_currentDir (name : CString) :
    strncmpEq name currentDir 1 = true ↔ name.Hidden := by
  unfold strncmpEq CString.Hidden
  cases name.bytes with
  | nil => decide
  | cons c cs => simp [currentDir, dot]

theorem not_strncmpEq_parentDir {name : CString} (h : ¬ name.Hidden) :
    strncmpEq name parentDir 2 = false := by
  unfold CString.Hidden at h
  unfold strncmpEq
  rw [decide_eq_false_iff_not]
  intro heq
  apply h
  cases hbytes : name.bytes with
  | nil =>
    rw [hbytes] at heq
    cases heq
  | cons c cs =>
    rw [hbytes] at heq
    exact congrArg some (List.cons.inj heq).1

theorem pathTo_concat (rootdir : CString) (rel : List CString) (name : CString) :
    pathTo rootdir (rel ++ [name]) = joinPath (pathTo rootdir rel) name := List.foldl_concat ..

theorem length_le_strlen_pathTo (rootdir : CString) (rel : List CString)
    (hrel : ∀ name ∈ rel, name.bytes ≠ []) : rel.length ≤ strlen (pathTo rootdir rel) := by
  induction rel using List.reverseRecOn with
  | nil => exact Nat.zero_le _
  | append_singleton rel name ih =>
    have hname : 0 < strlen name := List.length_pos_iff.2 (hrel name (by simp))
    have hle := (length_joinPath (pathTo rootdir rel) name).1
    have := ih fun n hn => hrel n (List.mem_append_left _ hn)
    rw [pathTo_concat, List.length_append, List.length_singleton]
    omega

/-- A name put behind the path of a directory is looked up in that directory. -/
theorem resolve_joinPath {dirpath name : CString} {base : Path} {node : FileNode}
    (hdir : fs.resolve dirpath.bytes = some base) (hslash : slash ∉ name.bytes)
    (hname : name.bytes ≠ [] ∧ name ≠ currentDir ∧ name ≠ parentDir)
    (hnode : fs.node (base ++ [name.bytes]) = some node)
    (hlink : ∀ target, node ≠ .symlink target) :
    fs.resolve (joinPath dirpath name).bytes =
      if fs.node base = some (.dir true) then some (base ++ [name.bytes]) else none := by
  have hname' : name.bytes ≠ [] ∧ name.bytes ≠ dot ∧ name.bytes ≠ dotdot := by
    refine ⟨hname.1, fun h => hname.2.1 ?_, fun h => hname.2.2 ?_⟩ <;>
    · cases name
      cases h
      rfl
  unfold joinPath
  split
  · rename_i hlast
    obtain ⟨dir, hsplit⟩ := List.getLast?_eq_some_iff.1 hlast
    have hleads : fs.LeadsTo dir base := leadsTo_of_resolve_slash _ (by rwa [← hsplit])
    change fs.resolve (dirpath.bytes ++ name.bytes) = _
    rw [hsplit]
    exact hleads.resolve _ hslash hname' hnode hlink
  · exact (leadsTo_of_resolve _ hdir).resolve _ hslash hname' hnode hlink

theorem CrawledTree.lookup_of_stat {path : List UInt8} (h : fs.stat path ≠ none) :
    path.length < fs.pathMax ∧ ∃ base, fs.lookup path = some base ∧ fs.resolve path = some base := by
  obtain ⟨node, hnode⟩ := Option.ne_none_iff_exists'.1 h
  obtain ⟨base, hbase, -⟩ := Option.bind_eq_some_iff.1 hnode
  have hbase' := hbase
  unfold CrawledTree.lookup at hbase'
  split at hbase'
  · exact ⟨‹_›, base, hbase, hbase'⟩
  · cases hbase'

theorem CrawledTree.below_concat (rel : List CString) (name : CString) :
    fs.below root (rel ++ [name]) = fs.node (root ++ rel.map CString.bytes ++ [name.bytes]) := by
  simp [CrawledTree.below]

namespace Crawlable

variable (h : Crawlable fs rootdir root) {rel : List CString} {name : CString}
include h

/-- Path names lead where they should. -/
theorem lookup_pathTo (hrel : fs.below root rel ≠ none) :
    fs.lookup (pathTo rootdir rel).bytes = some (root ++ rel.map CString.bytes) := by
  obtain ⟨-, base, hbase, hresolve⟩ := CrawledTree.lookup_of_stat (h.stats rel hrel)
  rw [hbase]
  clear hbase
  induction rel using List.reverseRecOn generalizing base with
  | nil =>
    rw [← hresolve, List.map_nil, List.append_nil]
    exact h.resolves
  | append_singleton rel name ih =>
    have hbelow : fs.below root (rel ++ [name]) =
        fs.node (root ++ rel.map CString.bytes ++ [name.bytes]) := CrawledTree.below_concat rel name
    obtain ⟨node, hnode⟩ := Option.ne_none_iff_exists'.1 hrel
    have hparent : fs.below root rel ≠ none := by
      obtain ⟨searchable, hdir⟩ := fs.parent (root ++ rel.map CString.bytes) name.bytes (hbelow ▸ hrel)
      rw [CrawledTree.below, hdir]
      simp
    obtain ⟨-, base', -, hresolve'⟩ := CrawledTree.lookup_of_stat (h.stats rel hparent)
    rw [ih hparent base' hresolve'] at hresolve'
    obtain ⟨hne, hslash, hcur, hpar⟩ := h.names rel name hrel
    rw [hbelow] at hnode
    rw [pathTo_concat, resolve_joinPath hresolve' hslash ⟨hne, hcur, hpar⟩ hnode] at hresolve
    · split at hresolve
      · rw [← hresolve]
        simp
      · cases hresolve
    · rintro target rfl
      exact h.noLinks _ target (hbelow.trans hnode)

theorem stat_pathTo (hrel : fs.below root rel ≠ none) :
    fs.stat (pathTo rootdir rel).bytes = fs.below root rel := by
  rw [CrawledTree.stat, h.lookup_pathTo hrel]
  rfl

theorem opendir_pathTo (hrel : fs.below root rel ≠ none) :
    fs.opendir (pathTo rootdir rel).bytes = fs.listing (root ++ rel.map CString.bytes) := by
  rw [CrawledTree.opendir, h.lookup_pathTo hrel]
  rfl

theorem strlen_pathTo (hrel : fs.below root rel ≠ none) : strlen (pathTo rootdir rel) < fs.pathMax :=
  (CrawledTree.lookup_of_stat (h.stats rel hrel)).1

omit h in
/-- What lies on the way to something is a directory. -/
theorem exists_dir {ext : List CString} (hext : ext ≠ [])
    (hrel : fs.below root (rel ++ ext) ≠ none) :
    ∃ searchable, fs.below root rel = some (.dir searchable) := by
  induction ext using List.reverseRecOn with
  | nil => exact absurd rfl hext
  | append_singleton ext name ih =>
    rw [← List.append_assoc, CrawledTree.below_concat] at hrel
    obtain ⟨searchable, hdir⟩ := fs.parent _ _ hrel
    by_cases hnil : ext = []
    · rw [hnil, List.append_nil] at hdir
      exact ⟨searchable, hdir⟩
    · refine ih hnil ?_
      rw [CrawledTree.below, hdir]
      simp

theorem bytes_ne_nil (hrel : fs.below root rel ≠ none) : ∀ name ∈ rel, name.bytes ≠ [] := by
  intro name hname
  obtain ⟨init, ext, rfl⟩ := List.append_of_mem hname
  refine (h.names init name ?_).1
  by_cases hnil : ext = []
  · rwa [hnil] at hrel
  · rw [List.append_cons] at hrel
    obtain ⟨searchable, hdir⟩ := exists_dir hnil hrel
    simp [hdir]

/-! ### The crawl finds what `found` finds -/

section Run

variable {σ : Type} {handleFile : σ → SourceFile → AllocM σ} {I : List SourceFile → σ → Prop}
  (hstep : ∀ file todo st, I (file :: todo) st → Returns (handleFile st file) (I todo))
include hstep

/-- One turn of the loop, when `descend` is right about the directory under the name. -/
theorem returns_handleEntry {descend : CString → List CString → σ → AllocM σ}
    {foundBelow : List CString → List (List CString)} {name : CString} {rest : List SourceFile} {st : σ}
    (hdescend : ∀ names searchable, fs.below root (rel ++ [name]) = some (.dir searchable) →
      fs.listing (root ++ (rel ++ [name]).map CString.bytes) = some names →
      I ((foundBelow (rel ++ [name])).map (callOn fs rootdir) ++ rest) st →
      Returns (descend (pathTo rootdir (rel ++ [name])) names st) (I rest))
    (hname : name = currentDir ∨ name = parentDir ∨ fs.below root (rel ++ [name]) ≠ none)
    (hI : I ((foundAt fs root foundBelow (rel ++ [name]) name).map (callOn fs rootdir) ++ rest) st) :
    Returns (handleEntry fs handleFile descend (pathTo rootdir rel) name st) (I rest) := by
  unfold handleEntry
  unfold foundAt at hI
  by_cases hhidden : name.Hidden
  · rw [if_pos hhidden] at hI
    rw [if_pos ((strncmpEq_currentDir name).2 hhidden)]
    exact returns_pure hI
  · rw [if_neg hhidden] at hI
    rw [if_neg (by rwa [strncmpEq_currentDir]), if_neg (by simp [not_strncmpEq_parentDir hhidden])]
    have hbelow : fs.below root (rel ++ [name]) ≠ none := by
      rcases hname with rfl | rfl | hbelow
      · exact absurd rfl hhidden
      · exact absurd rfl hhidden
      · exact hbelow
    have hlen := h.strlen_pathTo hbelow
    rw [pathTo_concat] at hlen
    have hmax := fs.pathMax_lt
    have hfit : strlen (joinPath (pathTo rootdir rel) name) + 2 < 2 ^ 31 := by omega
    have hsize : 0 ≤ charsize (pathTo rootdir rel) name := by
      rw [charsize_eq hfit]
      omega
    apply returns_malloc_bind
    refine (returns_verify (by simpa using hsize)).bind fun _ _ => ?_
    rw [snprintf_joinPath hfit, ← pathTo_concat]
    dsimp only
    rw [h.stat_pathTo hbelow]
    cases hnode : fs.below root (rel ++ [name]) with
    | none => exact absurd hnode hbelow
    | some node =>
      rw [hnode] at hI
      cases node with
      | file contents readable => exact hstep _ _ st hI
      | dir searchable =>
        obtain ⟨names, hlisting, -⟩ := h.lists _ _ hnode
        rw [h.opendir_pathTo hbelow, hlisting]
        exact hdescend names searchable hnode hlisting hI
      | symlink target => exact absurd hnode (h.noLinks _ target)
      | other => exact returns_pure hI

theorem returns_handleEntries {descend : CString → List CString → σ → AllocM σ}
    {foundBelow : List CString → List (List CString)}
    (hdescend : ∀ name names searchable rest st,
      fs.below root (rel ++ [name]) = some (.dir searchable) →
      fs.listing (root ++ (rel ++ [name]).map CString.bytes) = some names →
      I ((foundBelow (rel ++ [name])).map (callOn fs rootdir) ++ rest) st →
      Returns (descend (pathTo rootdir (rel ++ [name])) names st) (I rest))
    {names : List CString} {rest : List SourceFile} {st : σ}
    (hnames : ∀ name ∈ names, name = currentDir ∨ name = parentDir ∨
      fs.below root (rel ++ [name]) ≠ none)
    (hI : I ((names.flatMap fun name => foundAt fs root foundBelow (rel ++ [name]) name).map
      (callOn fs rootdir) ++ rest) st) :
    Returns (handleEntries fs handleFile descend (pathTo rootdir rel) names st) (I rest) := by
  induction names generalizing st with
  | nil => exact returns_pure hI
  | cons name names ih =>
    rw [List.flatMap_cons, List.map_append, List.append_assoc] at hI
    have hturn := h.returns_handleEntry hstep (fun names searchable => hdescend name names searchable _ st)
      (hnames name List.mem_cons_self) hI
    exact hturn.bind fun st' => ih fun n hn => hnames n (List.mem_cons_of_mem _ hn)

theorem returns_handleDir {depth : ℕ} {rel names : List CString} {searchable : Bool}
    {rest : List SourceFile} {st : σ} (hdepth : fs.pathMax ≤ depth + rel.length)
    (hdir : fs.below root rel = some (.dir searchable))
    (hlisting : fs.listing (root ++ rel.map CString.bytes) = some names)
    (hI : I ((found fs root depth rel).map (callOn fs rootdir) ++ rest) st) :
    Returns (handleDir fs handleFile depth (pathTo rootdir rel) names st) (I rest) := by
  induction depth generalizing rel names searchable rest st with
  | zero =>
    have hlen : strlen (pathTo rootdir rel) < fs.pathMax := h.strlen_pathTo (by simp [hdir])
    have hle := length_le_strlen_pathTo rootdir rel (h.bytes_ne_nil (by simp [hdir]))
    omega
  | succ depth ih =>
    obtain ⟨names', hlisting', -, -, hnames⟩ := h.lists _ _ hdir
    obtain rfl : names' = names := by
      rw [hlisting'] at hlisting
      exact Option.some.inj hlisting
    rw [found, hlisting, Option.getD_some] at hI
    refine h.returns_handleEntries hstep ?_ hnames hI
    intro name names searchable rest st hdir hlisting hI
    refine ih ?_ hdir hlisting hI
    rw [List.length_append, List.length_singleton]
    omega

theorem returns_crawlFileTree {allocate : AllocM σ}
    (hallocate : Returns allocate (I ((found fs root fs.pathMax []).map (callOn fs rootdir)))) :
    Returns (crawlFileTree fs handleFile allocate rootdir) fun r =>
      ∃ st, r = (1, some st) ∧ I [] st := by
  obtain ⟨searchable, hdir⟩ := h.isDir
  have hbelow : fs.below root [] = some (.dir searchable) := by
    rw [CrawledTree.below, List.map_nil, List.append_nil, hdir]
  have hne : fs.below root [] ≠ none := by simp [hbelow]
  obtain ⟨names, hlisting, -⟩ := h.lists [] _ hbelow
  have hstat : fs.stat rootdir.bytes = some (.dir searchable) := (h.stat_pathTo hne).trans hbelow
  have hopendir : fs.opendir rootdir.bytes = some names := (h.opendir_pathTo hne).trans hlisting
  unfold crawlFileTree
  rw [hstat]
  dsimp only
  rw [hopendir]
  refine hallocate.bind fun st hst => ?_
  rw [← List.append_nil (List.map _ _)] at hst
  exact (h.returns_handleDir hstep (by simp) hbelow hlisting hst).bind fun st' hst' =>
    returns_pure ⟨st', rfl, hst'⟩

end Run

omit h in
theorem prefix_of_mem_foundAt {foundBelow : List CString → List (List CString)}
    (hfound : ∀ rel' ∈ foundBelow rel, rel <+: rel') :
    ∀ rel' ∈ foundAt fs root foundBelow rel name, rel <+: rel' := by
  intro rel' hrel'
  unfold foundAt at hrel'
  split at hrel'
  · cases hrel'
  · split at hrel'
    · rw [List.mem_singleton.1 hrel']
    · exact hfound rel' hrel'
    · cases hrel'

omit h in
theorem prefix_of_mem_found {depth : ℕ} : ∀ rel' ∈ found fs root depth rel, rel <+: rel' := by
  induction depth generalizing rel with
  | zero =>
    intro rel' hrel'
    cases hrel'
  | succ depth ih =>
    intro rel' hrel'
    obtain ⟨name, -, hname⟩ := List.mem_flatMap.1 hrel'
    exact (List.prefix_append rel [name]).trans (prefix_of_mem_foundAt ih rel' hname)

/-- `found` lists exactly the regular files that no hidden name keeps from being found. -/
theorem mem_found {depth : ℕ} {rel' : List CString} {searchable : Bool}
    (hdir : fs.below root rel = some (.dir searchable)) :
    rel' ∈ found fs root depth rel ↔ ∃ ext, rel' = rel ++ ext ∧ ext ≠ [] ∧ ext.length ≤ depth ∧
      (∃ contents readable, fs.below root rel' = some (.file contents readable)) ∧
      ∀ name ∈ ext, ¬ name.Hidden := by
  induction depth generalizing rel searchable with
  | zero =>
    constructor
    · intro hmem
      cases hmem
    · rintro ⟨ext, -, hne, hlen, -⟩
      exact absurd (List.length_eq_zero_iff.1 (Nat.le_zero.1 hlen)) hne
  | succ depth ih =>
    obtain ⟨names, hlisting, -, hcomplete, -⟩ := h.lists _ _ hdir
    rw [found, hlisting, Option.getD_some, List.mem_flatMap]
    constructor
    · rintro ⟨name, -, hmem⟩
      unfold foundAt at hmem
      split at hmem
      · cases hmem
      · rename_i hvisible
        split at hmem
        · rename_i contents readable hfile
          obtain rfl := List.mem_singleton.1 hmem
          exact ⟨[name], rfl, by simp, by simp, ⟨contents, readable, hfile⟩, by simpa using hvisible⟩
        · rename_i hsub
          obtain ⟨ext, rfl, -, hlen, hfile, hvisible'⟩ := (ih hsub).1 hmem
          refine ⟨name :: ext, by simp, by simp, Nat.succ_le_succ hlen, hfile, ?_⟩
          exact List.forall_mem_cons.2 ⟨hvisible, hvisible'⟩
        · cases hmem
    · rintro ⟨ext, heq, hne, hlen, ⟨contents, readable, hfile⟩, hvisible⟩
      obtain ⟨name, ext, rfl⟩ := List.exists_cons_of_ne_nil hne
      obtain ⟨hname, hext⟩ := List.forall_mem_cons.1 hvisible
      rw [List.append_cons] at heq
      by_cases hnil : ext = []
      · rw [hnil, List.append_nil] at heq
        refine ⟨name, hcomplete name (by simp [← heq, hfile]), ?_⟩
        rw [foundAt, if_neg hname, ← heq, hfile]
        exact List.mem_singleton_self _
      · have hsome : fs.below root (rel ++ [name] ++ ext) ≠ none := by simp [← heq, hfile]
        obtain ⟨searchable', hsub⟩ := exists_dir hnil hsome
        refine ⟨name, hcomplete name (by simp [hsub]), ?_⟩
        rw [foundAt, if_neg hname, hsub]
        exact (ih hsub).2 ⟨ext, heq, hnil, Nat.le_of_succ_le_succ hlen,
          ⟨contents, readable, hfile⟩, hext⟩

/-- No file is found twice. -/
theorem nodup_found {depth : ℕ} {searchable : Bool}
    (hdir : fs.below root rel = some (.dir searchable)) : (found fs root depth rel).Nodup := by
  induction depth generalizing rel searchable with
  | zero => exact List.nodup_nil
  | succ depth ih =>
    obtain ⟨names, hlisting, hnodup, -⟩ := h.lists _ _ hdir
    rw [found, hlisting, Option.getD_some, List.nodup_flatMap]
    constructor
    · intro name _
      unfold foundAt
      split
      · exact List.nodup_nil
      · split
        · exact List.nodup_singleton _
        · exact ih ‹_›
        · exact List.nodup_nil
    · refine hnodup.imp fun {name name'} hne => ?_
      intro rel' hmem hmem'
      have hpre := prefix_of_mem_foundAt prefix_of_mem_found rel' hmem
      have hpre' := prefix_of_mem_foundAt prefix_of_mem_found rel' hmem'
      have heq := List.prefix_of_prefix_length_le hpre hpre' (by simp)
      have hsame := heq.eq_of_length (by simp)
      exact hne (List.singleton_inj.1 (List.append_cancel_left hsame))

theorem mem_found_root {rel' : List CString} : rel' ∈ found fs root fs.pathMax [] ↔
    RegularFile fs root rel' ∧ ∀ name ∈ rel', ¬ name.Hidden := by
  obtain ⟨searchable, hdir⟩ := h.isDir
  have hbelow : fs.below root [] = some (.dir searchable) := by
    rw [CrawledTree.below, List.map_nil, List.append_nil, hdir]
  rw [h.mem_found hbelow]
  constructor
  · rintro ⟨ext, rfl, hne, -, hfile, hvisible⟩
    exact ⟨⟨hne, hfile⟩, hvisible⟩
  · rintro ⟨⟨hne, contents, readable, hfile⟩, hvisible⟩
    have hsome : fs.below root rel' ≠ none := by simp [hfile]
    have hlen := length_le_strlen_pathTo rootdir rel' (h.bytes_ne_nil hsome)
    exact ⟨rel', rfl, hne, hlen.trans (h.strlen_pathTo hsome).le, ⟨contents, readable, hfile⟩, hvisible⟩

theorem returns_crawlCalls : Returns (crawlCalls fs rootdir) fun r =>
    r = (1, some ((found fs root fs.pathMax []).map (callOn fs rootdir))) := by
  refine (h.returns_crawlFileTree (I := fun todo calls =>
    calls ++ todo = (found fs root fs.pathMax []).map (callOn fs rootdir)) ?_ ?_).mono ?_
  · intro file todo calls hcalls
    exact returns_pure (by rwa [List.append_assoc])
  · exact returns_pure (List.nil_append _)
  · rintro r ⟨calls, rfl, hcalls⟩
    rw [← hcalls, List.append_nil]

/-- The index that a crawl makes is that of the files it finds. -/
theorem returns_crawl {files : List SourceFile}
    (hfiles : files = (found fs root fs.pathMax []).map (callOn fs rootdir))
    (hcard : (wordKeys files).card < 2 ^ 32)
    (hpaths : (files.map fun file => wordKey file.path).Nodup)
    (hlen : (indexed files).length < 2 ^ 32) :
    Returns (crawl fs rootdir) fun r => ∃ st, r = (1, some st) ∧ st.Holds (indexed files) := by
  refine (h.returns_crawlFileTree (I := fun todo st =>
    ∃ done, files = done ++ todo ∧ st.Holds (indexed done)) ?_ ?_).mono ?_
  · rintro file todo st ⟨done, hsplit, hst⟩
    refine (returns_handleFile_next hcard hpaths hlen hsplit hst).mono fun st' hst' => ?_
    exact ⟨done ++ [file], by rw [hsplit, List.append_cons], hst'⟩
  · refine returns_allocateDocTable.bind fun doctable hdoctable => ?_
    refine returns_allocateMemIndex.bind ?_
    rintro _ ⟨index, rfl, hindex⟩
    refine (returns_verifySome rfl).bind_eq (returns_pure ⟨[], ?_, holds_start hdoctable hindex⟩)
    rw [← hfiles, List.nil_append]
  · rintro r ⟨st, rfl, done, hsplit, hst⟩
    rw [List.append_nil] at hsplit
    rw [hsplit]
    exact ⟨st, rfl, hst⟩

end Crawlable

/-- The crawl of a tree handles each regular file once, and nothing else, exactly when no regular
file has a name starting with a dot on the way to it. -/
theorem crawlsAll_iff (h : Crawlable fs rootdir root) :
    CrawlsAll fs rootdir root ↔
      ∀ rel, RegularFile fs root rel → ∀ name ∈ rel, ¬ name.Hidden := by
  obtain ⟨searchable, hdir⟩ := h.isDir
  have hbelow : fs.below root [] = some (.dir searchable) := by
    rw [CrawledTree.below, List.map_nil, List.append_nil, hdir]
  have hnodup : (found fs root fs.pathMax []).Nodup := h.nodup_found hbelow
  have hpaths : ((found fs root fs.pathMax []).map (callOn fs rootdir)).map SourceFile.path =
      (found fs root fs.pathMax []).map (pathTo rootdir) := by
    rw [List.map_map]
    rfl
  constructor
  · rintro ⟨rels, hrels, hmem, hcalls⟩ rel hrel
    obtain ⟨r, hr, calls, hr', heq⟩ := (h.returns_crawlCalls.and hcalls).exists
    cases hr.symm.trans hr'
    have hlen : rels.length = (found fs root fs.pathMax []).length := by
      rw [hpaths] at heq
      simpa using (congrArg List.length heq).symm
    have hsub : found fs root fs.pathMax [] ⊆ rels := fun rel' hrel' =>
      (hmem rel').2 (h.mem_found_root.1 hrel').1
    have hperm := (hnodup.subperm hsub).perm_of_length_le hlen.le
    exact (h.mem_found_root.1 (hperm.mem_iff.2 ((hmem rel).2 hrel))).2
  · intro hvisible
    refine ⟨found fs root fs.pathMax [], hnodup, fun rel => ?_, ?_⟩
    · rw [h.mem_found_root]
      exact ⟨fun hrel => hrel.1, fun hrel => ⟨hrel, hvisible rel hrel⟩⟩
    · exact h.returns_crawlCalls.mono fun r hr => ⟨_, hr, hpaths⟩

end Tree

/-! ## Two small trees -/

/-- A path from the root, by names, and what is there. -/
abbrev TreeEntry := List CString × FileNode

/-- What the entries have at a canonical path. -/
def entryNode (entries : List TreeEntry) (path : Path) : Option FileNode :=
  (entries.find? fun e => e.1.map CString.bytes = path).map Prod.snd

theorem map_bytes_injective : Function.Injective (List.map CString.bytes) := by
  apply List.map_injective_iff.2
  rintro ⟨_, _⟩ ⟨_, _⟩ rfl
  rfl

theorem mem_of_entryNode {entries : List TreeEntry} {rel : List CString} {node : FileNode}
    (h : entryNode entries (rel.map CString.bytes) = some node) : (rel, node) ∈ entries := by
  obtain ⟨e, he, rfl⟩ := Option.map_eq_some_iff.1 h
  have heq : e.1 = rel := map_bytes_injective (by simpa using List.find?_some he)
  rw [← heq]
  exact List.mem_of_find?_eq_some he

/-- The file system with these entries; a directory is listed in their order. -/
def treeOf (entries : List TreeEntry) (hparent : ∀ e ∈ entries, e.1 ≠ [] →
    entryNode entries (e.1.dropLast.map CString.bytes) = some (.dir true)) : CrawledTree where
  node := entryNode entries
  cwd := []
  maxLinks := 40
  parent := by
    intro path name hne
    obtain ⟨node, hnode⟩ := Option.ne_none_iff_exists'.1 hne
    obtain ⟨e, he, -⟩ := Option.map_eq_some_iff.1 hnode
    have heq : e.1.map CString.bytes = path ++ [name] := by simpa using List.find?_some he
    have hdir := hparent e (List.mem_of_find?_eq_some he) (by
      intro hnil
      rw [hnil] at heq
      simp at heq)
    rw [List.map_dropLast, heq, List.dropLast_concat] at hdir
    exact ⟨true, hdir⟩
  pathMax := 4096
  pathMax_lt := by decide
  listing path := some (currentDir :: parentDir :: entries.filterMap fun e =>
    if e.1.dropLast.map CString.bytes = path then e.1.getLast? else none)

/-- The root as a path name. -/
def rootPath : CString := ⟨[slash], by decide⟩

theorem mem_of_below_treeOf {entries : List TreeEntry} {hparent} {rel : List CString}
    (h : (treeOf entries hparent).below [] rel ≠ none) :
    ∃ node, (treeOf entries hparent).below [] rel = some node ∧ (rel, node) ∈ entries := by
  obtain ⟨node, hnode⟩ := Option.ne_none_iff_exists'.1 h
  exact ⟨node, hnode, mem_of_entryNode hnode⟩

def isLink : FileNode → Bool
  | .symlink _ => true
  | _ => false

theorem crawlable_treeOf {entries : List TreeEntry} {hparent}
    (hresolve : (treeOf entries hparent).resolve rootPath.bytes = some [])
    (hroot : entryNode entries [] = some (.dir true))
    (hlinks : ∀ e ∈ entries, isLink e.2 = false)
    (hnames : ∀ e ∈ entries, ∀ name ∈ e.1,
      name.bytes ≠ [] ∧ slash ∉ name.bytes ∧ name ≠ currentDir ∧ name ≠ parentDir)
    (hlists : ∀ e ∈ entries, ∃ names,
      (treeOf entries hparent).listing (e.1.map CString.bytes) = some names ∧ names.Nodup)
    (hsome : ∀ e ∈ entries, entryNode entries (e.1.map CString.bytes) ≠ none)
    (hstat : ∀ e ∈ entries, (treeOf entries hparent).stat (pathTo rootPath e.1).bytes ≠ none) :
    Crawlable (treeOf entries hparent) rootPath [] where
  resolves := hresolve
  isDir := ⟨true, hroot⟩
  noLinks := by
    intro rel target hlink
    exact Bool.noConfusion (hlinks _ (mem_of_entryNode hlink))
  stats := by
    intro rel hrel
    obtain ⟨node, -, hmem⟩ := mem_of_below_treeOf hrel
    exact hstat _ hmem
  lists := by
    intro rel searchable hdir
    obtain ⟨names, hlisting, hnodup⟩ := hlists _ (mem_of_entryNode hdir)
    refine ⟨names, hlisting, hnodup, ?_, ?_⟩
    · intro name hname
      obtain ⟨node, -, hmem⟩ := mem_of_below_treeOf hname
      rw [← Option.some.inj hlisting]
      refine List.mem_cons_of_mem _ (List.mem_cons_of_mem _ (List.mem_filterMap.2 ⟨_, hmem, ?_⟩))
      simp
    · intro name hname
      rw [← Option.some.inj hlisting, List.mem_cons, List.mem_cons, List.mem_filterMap] at hname
      refine hname.imp_right (Or.imp_right ?_)
      rintro ⟨e, he, heq⟩
      split at heq
      · rename_i hinit
        obtain ⟨init, hsplit⟩ := List.getLast?_eq_some_iff.1 heq
        have hrel : init = rel := map_bytes_injective (by simpa [hsplit] using hinit)
        rw [← hrel, ← hsplit]
        exact hsome e he
      · cases heq
  names := by
    intro rel name hname
    obtain ⟨node, -, hmem⟩ := mem_of_below_treeOf hname
    exact hnames _ hmem name (by simp)

def fileA : CString := ⟨[97], CString.nonul_a⟩

def dirS : CString := ⟨[115], by decide⟩

/-- `.a` -/
def dotA : CString := ⟨[46, 97], by decide⟩

/-- A file `/a`, and a directory `/s` with a file `/s/a`. -/
def openEntries : List TreeEntry :=
  [([], .dir true), ([fileA], .file [120] true), ([dirS], .dir true),
    ([dirS, fileA], .file [121] true)]

/-- A file `/.a`. -/
def dottedEntries : List TreeEntry := [([], .dir true), ([dotA], .file [120] true)]

def openTree : CrawledTree := treeOf openEntries (by decide +kernel)

def dottedTree : CrawledTree := treeOf dottedEntries (by decide +kernel)

theorem crawlable_openTree : Crawlable openTree rootPath [] :=
  crawlable_treeOf (by decide +kernel) (by decide +kernel) (by decide +kernel) (by decide +kernel)
    (by decide +kernel) (by decide +kernel) (by decide +kernel)

theorem crawlable_dottedTree : Crawlable dottedTree rootPath [] :=
  crawlable_treeOf (by decide +kernel) (by decide +kernel) (by decide +kernel) (by decide +kernel)
    (by decide +kernel) (by decide +kernel) (by decide +kernel)

/-- The files `a` and `s/a` are indexed. -/
theorem returns_crawl_openTree : Returns (crawl openTree rootPath) fun r => ∃ st,
    r = (1, some st) ∧ st.Holds (indexed ((found openTree [] openTree.pathMax []).map
      (callOn openTree rootPath))) := by
  exact crawlable_openTree.returns_crawl rfl (by decide +kernel) (by decide +kernel)
    (by decide +kernel)

/-- Both files of the open tree are handled. -/
theorem crawlsAll_openTree : CrawlsAll openTree rootPath [] := by
  refine (crawlsAll_iff crawlable_openTree).2 ?_
  rintro rel ⟨-, contents, readable, hfile⟩
  have hvisible : ∀ e ∈ openEntries, ∀ name ∈ e.1, ¬ name.Hidden := by decide +kernel
  exact hvisible _ (mem_of_entryNode hfile)

/-- A crawl does not see `/.a`, and takes no file in. -/
theorem not_crawlsAll_dottedTree : Crawlable dottedTree rootPath [] ∧
    (∃ rel, RegularFile dottedTree [] rel ∧ currentDir ∉ rel ∧ parentDir ∉ rel) ∧
    Returns (crawlCalls dottedTree rootPath) (fun r => r = (1, some [])) ∧
    ¬ CrawlsAll dottedTree rootPath [] := by
  have hfile : RegularFile dottedTree [] [dotA] := ⟨by simp, [120], true, by decide +kernel⟩
  have hcalls : Returns (crawlCalls dottedTree rootPath) (fun r => r = (1, some [])) := by
    intro n
    exact ⟨(1, some []), n, rfl, rfl⟩
  refine ⟨crawlable_dottedTree, ⟨[dotA], hfile, by decide, by decide⟩, hcalls, ?_⟩
  rintro ⟨rels, -, hmem, hall⟩
  obtain ⟨r, hr, calls, hr', heq⟩ := (hcalls.and hall).exists
  cases hr.symm.trans hr'
  have hnil : rels = [] := List.map_eq_nil_iff.1 heq.symm
  have hrel := (hmem [dotA]).2 hfile
  rw [hnil] at hrel
  cases hrel

end Courses.SearchEngine

import Courses.HttpServer.Connection
import Courses.Lib.FileTree
import Courses.SearchEngine.FileIndexWriter

/-!
# Requests for static files

`ProcessFileRequest` of `hw4`: the path of the URL is decoded, what follows `/static/` is
put behind the base directory and the file found there is the body of the response.
Nothing between the URL and `open` looks at the `..` components or the links of that
path, so what is served is decided by the walk alone.
-/
namespace Courses.HttpServer

open Lib SearchEngine

structure HttpResponse where
  protocol : List UInt8
  responseCode : ℕ
  message : List UInt8
  headers : List (List UInt8 × List UInt8)
  body : List UInt8

/-- Why there is no response. -/
inductive NoResponse where
  /-- `std::out_of_range` of `substr` -/
  | outOfRange
  /-- a loop of the URL parser does not end -/
  | diverges
  deriving DecidableEq

def getContentType (fname : List UInt8) : List UInt8 :=
  if (ascii ".html").isSuffixOf fname then ascii "text/html"
  else if (ascii ".htm").isSuffixOf fname then ascii "text/html"
  else if (ascii ".jpeg").isSuffixOf fname then ascii "image/jpeg"
  else if (ascii ".jpg").isSuffixOf fname then ascii "image/jpeg"
  else if (ascii ".png").isSuffixOf fname then ascii "image/png"
  else ascii "text/xml"

/-- What `::ReadFile` of `hw2` gives: the file that was opened, and what was read. -/
structure FileRead where
  file : Path
  contents : List UInt8

/-- `::ReadFile`: `stat`, then `open`, then `read` up to `st_size` bytes; the size is returned
in 32 bits. -/
def readFile (t : FileTree) (filename : List UInt8) : Option FileRead :=
  match t.resolve filename with
  | none => none
  | some file =>
    match t.node file with
    | some (.file contents readable) =>
      if readable then some ⟨file, contents.take (contents.length % 2 ^ 32)⟩ else none
    | _ => none

/-- `c_str()`: the bytes before the first zero. -/
def cStr (s : List UInt8) : List UInt8 := s.takeWhile (· ≠ 0)

/-- `FileReader::ReadFile`. -/
def fileReaderReadFile (t : FileTree) (basedir fname : List UInt8) : Option FileRead :=
  readFile t (cStr (basedir ++ [FileTree.slash] ++ fname))

/-- A response, and the file whose contents are its body. -/
structure Served where
  response : HttpResponse
  source : Option Path

def notFound (fname : List UInt8) : HttpResponse where
  protocol := ascii "HTTP/1.1"
  responseCode := 404
  message := ascii "Not Found"
  headers := []
  body := ascii "<html><body>Couldn't find file \"" ++ escapeHTML fname ++ ascii "\"</body></html>"

def found (fname contents : List UInt8) : HttpResponse where
  protocol := ascii "HTTP/1.1"
  responseCode := 200
  message := ascii "Found"
  headers := [(ascii "Content-type", getContentType fname)]
  body := contents

def processFileRequest (t : FileTree) (uri : List UInt8) (basedir : CString) :
    Except NoResponse Served :=
  match URLParser.empty.parse uri with
  | none => .error .diverges
  | some parser =>
    if parser.path.length < 8 then
      .error .outOfRange
    else
      let fname := parser.path.drop 8
      match fileReaderReadFile t basedir.bytes fname with
      | some r => .ok ⟨found fname r.contents, some r.file⟩
      | none => .ok ⟨notFound fname, none⟩

/-- The contents of `file` are put into the response to `uri`. -/
def PutsIntoResponse (t : FileTree) (basedir : CString) (uri : List UInt8) (file : Path) : Prop :=
  ∃ response, processFileRequest t uri basedir = .ok ⟨response, some file⟩

/-- `file` lies below the directory `base`. -/
def Below (base file : Path) : Prop := ∃ names, names ≠ [] ∧ file = base ++ names

/-- The name that a URL asks for: its decoded path behind `/static/`, up to a zero byte. -/
def requestedName (uri : List UInt8) : Option (List UInt8) :=
  match URLParser.empty.parse uri with
  | none => none
  | some parser => if parser.path.length < 8 then none else some (cStr (parser.path.drop 8))

def IsReadableFile (t : FileTree) (file : Path) : Prop :=
  ∃ contents, t.node file = some (.file contents true)

theorem readFile_eq_some_iff {t : FileTree} {filename : List UInt8} {r : FileRead} :
    readFile t filename = some r ↔ t.resolve filename = some r.file ∧
      ∃ contents, t.node r.file = some (.file contents true) ∧
        r.contents = contents.take (contents.length % 2 ^ 32) := by
  obtain ⟨file, read⟩ := r
  unfold readFile
  cases hresolve : t.resolve filename with
  | none => simp
  | some found =>
    simp only [Option.some.injEq]
    constructor
    · intro h
      split at h
      · rename_i contents readable hnode
        split at h
        · rename_i hreadable
          cases h
          exact ⟨rfl, contents, by rw [hnode, hreadable], rfl⟩
        · cases h
      · cases h
    · rintro ⟨rfl, contents, hnode, rfl⟩
      rw [hnode]
      rfl

theorem cStr_append (basedir : CString) (fname : List UInt8) :
    cStr (basedir.bytes ++ [FileTree.slash] ++ fname) =
      basedir.bytes ++ [FileTree.slash] ++ cStr fname := by
  have hdir : ∀ b ∈ basedir.bytes ++ [FileTree.slash], decide (b ≠ 0) = true := by
    intro b hb
    rcases List.mem_append.1 hb with hb | hb
    · exact decide_eq_true fun hzero => basedir.nonul (hzero ▸ hb)
    · rw [List.mem_singleton.1 hb]
      decide
  exact List.takeWhile_append_of_pos hdir

/-- The file served is the one the walk from the base directory arrives at. -/
theorem putsIntoResponse_iff {t : FileTree} {basedir : CString} {base : Path}
    (hbase : t.resolve basedir.bytes = some base) (uri : List UInt8) (file : Path) :
    PutsIntoResponse t basedir uri file ↔ ∃ name moves, requestedName uri = some name ∧
      t.movesFrom basedir.bytes name = some moves ∧ arrive base moves = file ∧
      IsReadableFile t file := by
  have hread (fname : List UInt8) (r : FileRead) :
      fileReaderReadFile t basedir.bytes fname = some r ↔
        (t.movesFrom basedir.bytes (cStr fname)).map (arrive base) = some r.file ∧
          ∃ contents, t.node r.file = some (.file contents true) ∧
            r.contents = contents.take (contents.length % 2 ^ 32) := by
    rw [fileReaderReadFile, cStr_append, readFile_eq_some_iff, t.resolve_append hbase]
  unfold PutsIntoResponse processFileRequest requestedName
  cases URLParser.empty.parse uri with
  | none => simp
  | some parser =>
    simp only
    split_ifs with hshort
    · simp
    · constructor
      · rintro ⟨response, h⟩
        split at h
        · rename_i r hr
          cases h
          obtain ⟨hmoves, contents, hnode, -⟩ := (hread _ _).1 hr
          obtain ⟨moves, hmoves, harrive⟩ := Option.map_eq_some_iff.1 hmoves
          exact ⟨_, moves, rfl, hmoves, harrive, contents, hnode⟩
        · cases h
      · rintro ⟨_, moves, hname, hmoves, harrive, contents, hnode⟩
        cases hname
        have hr := (hread (parser.path.drop 8) ⟨file, contents.take (contents.length % 2 ^ 32)⟩).2
          ⟨by rw [hmoves]; exact congrArg some harrive, contents, hnode, rfl⟩
        rw [hr]
        exact ⟨_, rfl⟩

/-- A directory `/www` with a page in it, and a file `/secret` beside it. -/
def siteNodes : List (Path × FileNode) :=
  [([], .dir true), ([ascii "www"], .dir true), ([ascii "www", ascii "page"], .file [1] true),
    ([ascii "secret"], .file [2] true)]

def site : FileTree where
  node path := siteNodes.lookup path
  cwd := []
  maxLinks := 40
  parent := by
    intro path name h
    have hmem : ∃ entry ∈ siteNodes, path ++ [name] = entry.1 := by
      by_contra hnone
      push Not at hnone
      exact h (List.lookup_eq_none_iff.2 fun entry hentry => by simpa using hnone entry hentry)
    have hparents : ∀ entry ∈ siteNodes, entry.1 ≠ [] →
        siteNodes.lookup entry.1.dropLast = some (.dir true) := by
      decide +kernel
    obtain ⟨entry, hentry, heq⟩ := hmem
    have hdir := hparents entry hentry (by rw [← heq]; simp)
    rw [← heq, List.dropLast_concat] at hdir
    exact ⟨true, hdir⟩

def www : CString := ⟨ascii "/www", by decide +kernel⟩

theorem site_base : site.resolve www.bytes = some [ascii "www"] := by decide +kernel

end Courses.HttpServer

/-!
# Is a file below a directory?

`IsPathSafe` resolves both paths and compares the text of the results. Where the name of a
sibling of the root directory begins with the name of the root, the text of the root is a
prefix of the sibling's too.
-/
namespace Courses.HttpServer

open Lib

/-! ### C strings -/

def strlen (s : List UInt8) : ℕ := (cStr s).length

/-- `strncmp`; what lies behind a buffer is not read when the buffer holds a zero. -/
def strncmp : List UInt8 → List UInt8 → ℕ → ℤ
  | _, _, 0 => 0
  | s, t, n + 1 =>
    let a := s.headD 0
    let b := t.headD 0
    if a ≠ b then (a.toNat : ℤ) - b.toNat
    else if a = 0 then 0
    else strncmp s.tail t.tail n

theorem cStr_append_zero {s : List UInt8} (h : 0 ∉ s) : cStr (s ++ [0]) = s := by
  induction s with
  | nil => rfl
  | cons c s ih =>
    obtain ⟨hc, hs⟩ := not_or.1 (mt List.mem_cons.2 h)
    have hkeep : decide (c ≠ 0) = true := decide_eq_true (Ne.symm hc)
    rw [List.cons_append, cStr, List.takeWhile_cons, if_pos hkeep]
    exact congrArg _ (ih hs)

/-- Two different characters in the first place decide. -/
theorem strncmp_ne {c d : UInt8} (h : c ≠ d) (s t : List UInt8) (n : ℕ) :
    strncmp (c :: s) (d :: t) (n + 1) ≠ 0 := by
  have hval : (c.toNat : ℤ) ≠ d.toNat := fun heq => h (UInt8.toNat_inj.1 (Int.ofNat_inj.1 heq))
  rw [strncmp, List.headD_cons, List.headD_cons, if_pos h]
  exact sub_ne_zero.2 hval

theorem strncmp_cons {c : UInt8} (h : c ≠ 0) (s t : List UInt8) (n : ℕ) :
    strncmp (c :: s) (c :: t) (n + 1) = strncmp s t n := by
  simp [strncmp, h]

/-- A comparison of all of a string's characters looks for it at the front of the other. -/
theorem strncmp_eq_zero_iff {s t : List UInt8} (hs : 0 ∉ s) :
    strncmp (s ++ [0]) (t ++ [0]) s.length = 0 ↔ s <+: t := by
  induction s generalizing t with
  | nil => simp [strncmp]
  | cons c s ih =>
    obtain ⟨hc, hs⟩ := not_or.1 (mt List.mem_cons.2 hs)
    cases t with
    | nil =>
      have hne := strncmp_ne (Ne.symm hc) (s ++ [0]) [] s.length
      simpa using hne
    | cons d t =>
      rw [List.cons_prefix_cons, List.cons_append, List.cons_append, List.length_cons]
      by_cases hcd : c = d
      · rw [← hcd, strncmp_cons (Ne.symm hc), ih hs]
        simp
      · have hne := strncmp_ne hcd (s ++ [0]) (t ++ [0]) s.length
        simp [hne, hcd]

/-! ### `IsPathSafe` -/

section

variable (realpath : List UInt8 → Option CanonicalPath)

/-- A buffer with a path in it. -/
def buffer (p : CanonicalPath) : List UInt8 := p.text ++ [0]

def isPathSafe (rootdir testfile : List UInt8) : Bool :=
  match realpath (cStr rootdir) with
  | none => false
  | some root =>
    match realpath (cStr testfile) with
    | none => false
    | some file =>
      let rootpathbuffer := buffer root
      let testfilebuffer := buffer file
      if strlen testfilebuffer ≤ strlen rootpathbuffer then false
      else if strncmp rootpathbuffer testfilebuffer (strlen rootpathbuffer) ≠ 0 then false
      else true

end

/-- A directory that contains a file, by components. -/
def ContainedBelow (root file : Path) : Prop := root <+: file ∧ root ≠ file

instance (root file : Path) : Decidable (ContainedBelow root file) :=
  inferInstanceAs (Decidable (root <+: file ∧ root ≠ file))

/-- The last name of `root` goes on in `file`, after the same names. -/
def LastNameExtended (root file : Path) : Prop :=
  ∃ parent name ext more,
    root = parent ++ [name] ∧ file = parent ++ (name ++ ext) :: more ∧ ext ≠ []

section

variable {realpath : List UInt8 → Option CanonicalPath} {rootdir testfile : List UInt8}
  {root file : CanonicalPath}

/-- The two tests together: the text of the root is a prefix, and not all of it. -/
theorem isPathSafe_iff_text (hroot : realpath (cStr rootdir) = some root)
    (hfile : realpath (cStr testfile) = some file) :
    isPathSafe realpath rootdir testfile = true ↔
      root.text <+: file.text ∧ root.text.length < file.text.length := by
  have hlen (p : CanonicalPath) : strlen (buffer p) = p.text.length := by
    rw [strlen, buffer, cStr_append_zero p.zero_not_mem_text]
  have hcmp : strncmp (buffer root) (buffer file) root.text.length = 0 ↔ root.text <+: file.text :=
    strncmp_eq_zero_iff root.zero_not_mem_text
  simp only [isPathSafe, hroot, hfile, hlen]
  split
  · rename_i hshort
    simp [Nat.not_lt.2 hshort]
  · rename_i hlong
    rw [← hcmp, and_iff_left (Nat.lt_of_not_le hlong)]
    simp

theorem slash_not_mem (p : CanonicalPath) : ∀ name ∈ p.components, FileTree.slash ∉ name :=
  fun name hname => (p.clean name hname).2.2.2.1

/-- Below the root directory of the file system is everything else. -/
theorem text_prefix_of_root (hroot : root.components = []) :
    root.text <+: file.text ∧ root.text.length < file.text.length ↔ file.components ≠ [] := by
  rw [CanonicalPath.text, if_pos hroot, CanonicalPath.text]
  cases hcomp : file.components with
  | nil => simp
  | cons name path =>
    have hne : 0 < name.length := by
      have := (file.clean name (hcomp ▸ List.mem_cons_self)).1
      exact List.length_pos_of_ne_nil this
    simp only [reduceCtorEq, if_false, joined_cons, List.cons_prefix_cons, List.nil_prefix,
      and_true, true_and, List.length_cons, List.length_nil, List.length_append, ne_eq,
      not_false_eq_true, iff_true]
    omega

/-- Elsewhere the last name of the directory may be longer in the file's path. -/
theorem text_prefix_of_dir {parent : Path} {name : Name}
    (hroot : root.components = parent ++ [name]) :
    root.text <+: file.text ∧ root.text.length < file.text.length ↔
      ∃ ext more, file.components = parent ++ (name ++ ext) :: more ∧ (ext ≠ [] ∨ more ≠ []) := by
  have hclean : ∀ n ∈ parent ++ [name], FileTree.slash ∉ n := hroot ▸ slash_not_mem root
  have hname := hclean name (List.mem_append_right _ List.mem_cons_self)
  have hstarts := joined_prefix_iff hname (fun n hn => hclean n (List.mem_append_left _ hn))
    (slash_not_mem file)
  have htext : root.text = joined (parent ++ [name]) := by
    rw [CanonicalPath.text, hroot, if_neg (by simp)]
  -- the root directory of the file system is below nothing
  have hnonempty (h : root.text.length < file.text.length) :
      file.text = joined file.components := by
    by_cases hnil : file.components = []
    · rw [htext, CanonicalPath.text, if_pos hnil] at h
      simp [joined_append] at h
    · rw [CanonicalPath.text, if_neg hnil]
  have hlength (ext : Name) (more : Path) : (joined (parent ++ (name ++ ext) :: more)).length =
      (joined (parent ++ [name])).length + (ext.length + (joined more).length) := by
    simp [joined_append]
    omega
  have hmore (ext : Name) (more : Path) :
      0 < ext.length + (joined more).length ↔ ext ≠ [] ∨ more ≠ [] := by
    cases ext <;> cases more <;> simp
  constructor
  · rintro ⟨hpre, hlt⟩
    rw [hnonempty hlt] at hpre hlt
    rw [htext] at hpre hlt
    obtain ⟨ext, more, hfile⟩ := hstarts.1 hpre
    refine ⟨ext, more, hfile, (hmore ext more).1 ?_⟩
    rw [hfile, hlength] at hlt
    omega
  · rintro ⟨ext, more, hfile, hlonger⟩
    have hjoined : file.text = joined file.components := by
      rw [CanonicalPath.text, hfile, if_neg (by simp)]
    rw [htext, hjoined]
    refine ⟨hstarts.2 ⟨ext, more, hfile⟩, ?_⟩
    rw [hfile, hlength]
    have := (hmore ext more).2 hlonger
    omega

theorem containedBelow_append_iff {parent file : Path} {name : Name} :
    ContainedBelow (parent ++ [name]) file ↔ ∃ more, file = parent ++ name :: more ∧ more ≠ [] := by
  constructor
  · rintro ⟨⟨more, rfl⟩, hne⟩
    refine ⟨more, by simp, ?_⟩
    rintro rfl
    exact hne (List.append_nil _).symm
  · rintro ⟨more, rfl, hne⟩
    refine ⟨⟨more, by simp⟩, ?_⟩
    intro heq
    have := congrArg List.length heq
    simp [hne] at this

/-- `IsPathSafe` is true for exactly the files below the root directory, unless the file is
at or below a path whose last name begins with that of the root and is longer. -/
theorem isPathSafe_iff_containedBelow_iff (hroot : realpath (cStr rootdir) = some root)
    (hfile : realpath (cStr testfile) = some file) :
    (isPathSafe realpath rootdir testfile = true ↔
        ContainedBelow root.components file.components) ↔
      ¬ LastNameExtended root.components file.components := by
  rw [isPathSafe_iff_text hroot hfile]
  rcases List.eq_nil_or_concat root.components with hnil | ⟨parent, name, hdir⟩
  · -- the root of the file system has no last name
    have hbelow : ContainedBelow [] file.components ↔ file.components ≠ [] := by
      rw [ContainedBelow, and_iff_right List.nil_prefix]
      exact ne_comm
    have hlast : ¬ LastNameExtended [] file.components := by
      rintro ⟨parent, name, ext, more, hempty, -⟩
      simp at hempty
    rw [text_prefix_of_root hnil, hnil, hbelow]
    exact iff_of_true Iff.rfl hlast
  · rw [List.concat_eq_append] at hdir
    rw [text_prefix_of_dir hdir, hdir, containedBelow_append_iff]
    constructor
    · rintro h ⟨parent', name', ext, more, hsame, hext, hne⟩
      obtain ⟨rfl, hnames⟩ := List.append_inj' hsame rfl
      obtain rfl := List.singleton_inj.1 hnames
      obtain ⟨more', hplain, -⟩ := h.1 ⟨ext, more, hext, .inl hne⟩
      rw [hext] at hplain
      have := (List.cons.inj (List.append_cancel_left hplain)).1
      simp [hne] at this
    · intro h
      constructor
      · rintro ⟨ext, more, hext, hlonger⟩
        by_cases hnone : ext = []
        · subst hnone
          exact ⟨more, by simpa using hext, by simpa using hlonger⟩
        · exact absurd ⟨parent, name, ext, more, rfl, hext, hnone⟩ h
      · rintro ⟨more, hplain, hne⟩
        exact ⟨[], more, by simpa using hplain, .inr hne⟩

end

/-! ### Two siblings -/

def okDir : CanonicalPath := ⟨[ascii "srv", ascii "ok"], by decide +kernel⟩

def okbarDir : CanonicalPath := ⟨[ascii "srv", ascii "okbar"], by decide +kernel⟩

/-- `realpath` where these two directories exist. -/
def siblings (path : List UInt8) : Option CanonicalPath :=
  if path = ascii "/srv/ok" then some okDir
  else if path = ascii "/srv/okbar" then some okbarDir
  else none

theorem isPathSafe_iff_containedBelow_iff_okDir :
    siblings (cStr (ascii "/srv/ok")) = some okDir ∧
      ((isPathSafe siblings (ascii "/srv/ok") (ascii "/srv/ok") = true ↔
          ContainedBelow okDir.components okDir.components) ↔
        ¬ LastNameExtended okDir.components okDir.components) := by
  have hok : siblings (cStr (ascii "/srv/ok")) = some okDir := by
    have hname : cStr (ascii "/srv/ok") = ascii "/srv/ok" := by decide +kernel
    rw [hname]
    exact if_pos rfl
  exact ⟨hok, isPathSafe_iff_containedBelow_iff hok hok⟩

/-- The sibling passes for a path below the directory. -/
theorem isPathSafe_okbarDir :
    ¬ (isPathSafe siblings (ascii "/srv/ok") (ascii "/srv/okbar") = true ↔
      ContainedBelow okDir.components okbarDir.components) := by
  decide +kernel

end Courses.HttpServer

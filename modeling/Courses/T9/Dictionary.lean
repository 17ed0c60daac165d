import Mathlib.Data.Fin.Basic
import Mathlib.Logic.Function.Basic
import Mathlib.Tactic

/-!
# The trie of T9 words

A node is reached from the root by the keys of a word. The ninth child of an end node is the
first of a chain of nodes that hold further words with the same keys.
-/
namespace Courses.T9

abbrev Word := List Char

/-- A `struct trie_node *`: `null`, or the node that it alone points to. -/
inductive TrieNode
  | null
  | node (isEnd : Bool) (word : Option Word) (child : Fin 9 → TrieNode)

namespace TrieNode

/-- `create_trie_node` -/
def create (isEnd : Bool) (word : Option Word) : TrieNode :=
  .node isEnd (if isEnd then word else none) fun _ => .null

/-- `create_empty_trie` -/
def empty : TrieNode := create false none

/-- The element of `child` at an `int`. -/
def index (i : ℤ) : Option (Fin 9) :=
  if h : i.toNat < 9 then if 0 ≤ i then some ⟨i.toNat, h⟩ else none else none

/-! ## Insertion -/

/-- The child for a key, unless the key is rejected. -/
def keyIndex (c : Char) : Option (Fin 9) :=
  let num := (c.toNat : ℤ) - '2'.toNat
  if num < 0 ∨ num > 7 then none else index num

/-- A new node behind the last one of the chain. -/
def appendSame (word : Word) : TrieNode → TrieNode
  | .null => create true (some word)
  | .node isEnd w child => .node isEnd w (Function.update child 8 (appendSame word (child 8)))

/-- What `insert_word` does to the node at the end of the keys. -/
def insertHere (word : Word) : TrieNode → TrieNode
  | .null => .null
  | .node isEnd w child =>
    if isEnd = false then .node true (some word) child
    else .node isEnd w (Function.update child 8 (appendSame word (child 8)))

/-- The node for the next key, made if there is none. -/
def orCreate : TrieNode → TrieNode
  | .null => create false none
  | t => t

/-- The loop of `insert_word` with these keys to go, and its message. -/
def insertLoop (nums word : List Char) : List Char → TrieNode → TrieNode × String
  | [], cur => (insertHere word cur, "")
  | _ :: _, .null => (.null, "")
  | c :: keys, .node isEnd w child =>
    match keyIndex c with
    | none => (.node isEnd w child, "Invalid number :" ++ String.ofList nums ++ "\n")
    | some num =>
      let sub := insertLoop nums word keys (child num).orCreate
      (.node isEnd w (Function.update child num sub.1), sub.2)

/-- The trie after `insert_word`, and its message. -/
def insertWord (root : TrieNode) (nums word : List Char) : TrieNode × String :=
  match root with
  | .null => (.null, "Error, the tree is NULL\n")
  | root => insertLoop nums word nums root

/-! ## Search -/

inductive SearchError
  | overflow
  | outOfBounds
  deriving DecidableEq

def ind (c : Char) : ℤ := if c = '#' then 8 else (c.toNat : ℤ) - '2'.toNat

/-- The loop of `search_trie` with these characters to go; the counter `i` is an `int`. -/
def searchLoop (i : ℕ) : List Char → TrieNode → Except SearchError TrieNode
  | [], cur => .ok cur
  | _ :: _, .null => .ok .null
  | c :: nums, .node _ _ child =>
    match index (ind c) with
    | none => .error .outOfBounds
    | some j => if i + 1 < 2 ^ 31 then searchLoop (i + 1) nums (child j) else .error .overflow

/-- `search_trie` -/
def search (trie : TrieNode) (nums : List Char) : Except SearchError TrieNode :=
  searchLoop 0 nums trie

end TrieNode

end Courses.T9

/-!
# Reading the dictionary

`read_data` reads a file line by line into a buffer of `MAX_LINELEN` characters and inserts what
it finds there. A file is its characters.
-/
namespace Courses.T9

open TrieNode

def MAX_LINELEN : ℕ := 500

def convert (c : Char) : Char :=
  let dist := (c.toNat : ℤ) - 'a'.toNat
  if dist ≤ 2 then '2'
  else if dist ≤ 5 then '3'
  else if dist ≤ 8 then '4'
  else if dist ≤ 11 then '5'
  else if dist ≤ 14 then '6'
  else if dist ≤ 18 then '7'
  else if dist ≤ 21 then '8'
  else '9'

/-- The next `n` characters of a file or its next line, whichever is shorter, and the rest. -/
def readLine : ℕ → List Char → List Char × List Char
  | 0, file => ([], file)
  | _ + 1, [] => ([], [])
  | n + 1, c :: file =>
    if c = '\n' then ([c], file) else (c :: (readLine n file).1, (readLine n file).2)

theorem readLine_length (n : ℕ) (file : List Char) :
    (readLine n file).2.length ≤ file.length := by
  induction n generalizing file with
  | zero => exact le_rfl
  | succ n ih =>
    cases file with
    | nil => exact le_rfl
    | cons c file =>
      have hrest := ih file
      rw [readLine]
      split
      · simp
      · simp only [List.length_cons]
        omega

theorem readLine_length_lt {n : ℕ} (hn : n ≠ 0) (c : Char) (file : List Char) :
    (readLine n (c :: file)).2.length < (c :: file).length := by
  cases n with
  | zero => exact absurd rfl hn
  | succ n =>
    have hrest := readLine_length n file
    rw [readLine]
    split
    · simp
    · simp only [List.length_cons]
      omega

theorem MAX_LINELEN_sub_ne_zero : MAX_LINELEN - 1 ≠ 0 := by decide

/-- The string in the buffer, without the newline. -/
def chomp (buffer : List Char) : Word :=
  (buffer.takeWhile (· ≠ Char.ofNat 0)).takeWhile (· ≠ '\n')

/-- The loop of `read_data`: the trie after it, and the messages. -/
def readLoop : List Char → TrieNode → TrieNode × String
  | [], trie => (trie, "")
  | c :: file, trie =>
    let line := readLine (MAX_LINELEN - 1) (c :: file)
    let word := chomp line.1
    let inserted := insertWord trie (word.map convert) word
    let rest := readLoop line.2 inserted.1
    (rest.1, inserted.2 ++ rest.2)
termination_by file => file.length
decreasing_by exact readLine_length_lt MAX_LINELEN_sub_ne_zero c file

structure ReadResult where
  ok : Bool
  trie : TrieNode
  stderr : String

/-- `read_data`, for a file that cannot be opened or one with these characters. -/
def readData (filename : String) (file : Option (List Char)) (trie : TrieNode) : ReadResult :=
  match file with
  | none => ⟨false, trie, "Cannot open file " ++ filename ++ "\n"⟩
  | some file => ⟨true, (readLoop file trie).1, (readLoop file trie).2⟩

/-- A file with a word in each line. -/
def text (words : List Word) : List Char := words.flatMap (· ++ ['\n'])

end Courses.T9

/-!
# What the trie holds

Every key sequence has a bucket, the words with these keys in the order of their insertion: a
node that is an end node holds the first of them, and the chain behind it the others.
-/
namespace Courses.T9

open TrieNode

variable {t : TrieNode} {word : Word} {words ws : List Word} {child : Fin 9 → TrieNode}
  {bucket : List (Fin 8) → List Word} {c : Char} {d : Fin 8} {p q : List (Fin 8)}

/-! ## Keys -/

/-- The keys from `2` to `9`. -/
def digit (d : Fin 8) : Char := Char.ofNat (50 + d)

theorem keyIndex_digit (d : Fin 8) : keyIndex (digit d) = some d.castSucc := by
  fin_cases d <;> rfl

theorem index_digit (d : Fin 8) : index (ind (digit d)) = some d.castSucc := by
  fin_cases d <;> rfl

theorem digit_range (d : Fin 8) : '2' ≤ digit d ∧ digit d ≤ '9' := by
  fin_cases d <;> decide

theorem index_hash : index (ind '#') = some 8 := rfl

theorem digit_injective : Function.Injective digit := by
  intro d e h
  have hkey := congrArg keyIndex h
  rw [keyIndex_digit, keyIndex_digit, Option.some.injEq] at hkey
  exact Fin.castSucc_injective _ hkey

theorem exists_digit (hle : '2' ≤ c) (hle' : c ≤ '9') : ∃ d, digit d = c := by
  have htwo : 50 ≤ c.toNat := hle
  have hnine : c.toNat ≤ 57 := hle'
  refine ⟨⟨c.toNat - 50, by omega⟩, ?_⟩
  rw [digit, Nat.add_sub_cancel' htwo, Char.ofNat_toNat]

theorem exists_keys {k : List Char} (hk : ∀ c ∈ k, '2' ≤ c ∧ c ≤ '9') :
    ∃ p : List (Fin 8), p.map digit = k := by
  induction k with
  | nil => exact ⟨[], rfl⟩
  | cons c k ih =>
    obtain ⟨hc, hrest⟩ := List.forall_mem_cons.1 hk
    obtain ⟨p, rfl⟩ := ih hrest
    obtain ⟨d, rfl⟩ := exists_digit hc.1 hc.2
    exact ⟨d :: p, rfl⟩

theorem convert_range (c : Char) : '2' ≤ convert c ∧ convert c ≤ '9' := by
  rw [convert]
  split_ifs <;> decide

theorem exists_word_keys (w : Word) : ∃ p : List (Fin 8), p.map digit = w.map convert := by
  refine exists_keys fun c hc => ?_
  obtain ⟨a, -, rfl⟩ := List.mem_map.1 hc
  exact convert_range a

/-! ## Nodes and their buckets -/

/-- The node that the keys lead to. -/
def follow : List (Fin 8) → TrieNode → TrieNode
  | [], t => t
  | _ :: _, .null => .null
  | d :: p, .node _ _ child => follow p (child d.castSucc)

@[simp] theorem follow_null (p : List (Fin 8)) : follow p .null = .null := by
  cases p <;> rfl

/-- The words at a node and along the chain behind it. -/
inductive Same : TrieNode → List Word → Prop
  | nil : Same .null []
  | cons {child : Fin 9 → TrieNode} {word : Word} {ws : List Word} :
      Same (child 8) ws → Same (.node true (some word) child) (word :: ws)

/-- The words that a key sequence leads to. -/
inductive Holds : TrieNode → List Word → Prop
  | same {t : TrieNode} {ws : List Word} : Same t ws → Holds t ws
  | inner {child : Fin 9 → TrieNode} : child 8 = .null → Holds (.node false none child) []

def Represents (t : TrieNode) (bucket : List (Fin 8) → List Word) : Prop :=
  ∀ p, Holds (follow p t) (bucket p)

theorem same_append (h : Same t ws) (word : Word) : Same (appendSame word t) (ws ++ [word]) := by
  induction h with
  | nil => exact .cons .nil
  | cons h ih => exact .cons (by simpa using ih)

theorem holds_insertHere (h : Holds t ws) (hne : t ≠ .null) (word : Word) :
    Holds (insertHere word t) (ws ++ [word]) := by
  cases h with
  | same h =>
    cases h with
    | nil => exact absurd rfl hne
    | cons h => exact .same (.cons (by simpa using same_append h word))
  | inner hnull => exact .same (.cons (by rw [hnull]; exact .nil))

theorem follow_insertHere (d : Fin 8) (p : List (Fin 8)) (word : Word) (t : TrieNode) :
    follow (d :: p) (insertHere word t) = follow (d :: p) t := by
  cases t with
  | null => rfl
  | node isEnd w child =>
    rw [insertHere]
    split
    · rfl
    · have hne : d.castSucc ≠ 8 := d.castSucc_ne_last
      simp [follow, Function.update_of_ne hne]

theorem holds_update {isEnd : Bool} {w : Option Word}
    (h : Holds (.node isEnd w child) ws) (d : Fin 8) (t : TrieNode) :
    Holds (.node isEnd w (Function.update child d.castSucc t)) ws := by
  have hsame : Function.update child d.castSucc t 8 = child 8 :=
    Function.update_of_ne d.castSucc_ne_last.symm _ _
  cases h with
  | same h =>
    cases h with
    | cons h => exact .same (.cons (by rwa [hsame]))
  | inner hnull => exact .inner (by rwa [hsame])

/-! ## Insertion -/

theorem orCreate_ne_null (t : TrieNode) : t.orCreate ≠ .null := by
  cases t <;> simp [orCreate, create]

theorem holds_null (h : Holds .null ws) : ws = [] := by
  cases h with
  | same h =>
    cases h
    rfl

theorem Represents.orCreate (h : Represents t bucket) : Represents t.orCreate bucket := by
  cases t with
  | null =>
    intro p
    have hp := h p
    rw [follow_null] at hp
    rw [holds_null hp]
    cases p with
    | nil => exact .inner rfl
    | cons d p => simpa [TrieNode.orCreate, create, follow] using Holds.same .nil
  | node isEnd w child => exact h

theorem insertLoop_cons (nums : List Char) (isEnd : Bool) (w : Option Word) :
    (insertLoop nums word ((d :: p).map digit) (.node isEnd w child)).1 =
      .node isEnd w (Function.update child d.castSucc
        (insertLoop nums word (p.map digit) (child d.castSucc).orCreate).1) := by
  rw [List.map_cons, insertLoop, keyIndex_digit]

theorem Represents.insert (nums word : List Char) (h : Represents t bucket) (hne : t ≠ .null) :
    Represents (insertLoop nums word (p.map digit) t).1
      (Function.update bucket p (bucket p ++ [word])) := by
  induction p generalizing t bucket with
  | nil =>
    intro q
    cases q with
    | nil =>
      rw [Function.update_self]
      exact holds_insertHere (h []) hne word
    | cons d q =>
      rw [Function.update_of_ne (List.cons_ne_nil d q)]
      exact (follow_insertHere d q word t).symm ▸ h (d :: q)
  | cons d p ih =>
    cases t with
    | null => exact absurd rfl hne
    | node isEnd w child =>
      intro q
      rw [insertLoop_cons]
      cases q with
      | nil =>
        rw [Function.update_of_ne (List.cons_ne_nil d p).symm]
        exact holds_update (h []) d _
      | cons e q =>
        rw [follow]
        by_cases hed : e = d
        · have hchild : Represents (child d.castSucc) fun q => bucket (d :: q) :=
            fun q => h (d :: q)
          have hrest := ih hchild.orCreate (orCreate_ne_null _) q
          rw [hed, Function.update_self]
          simpa [Function.update_apply] using hrest
        · have hne : e.castSucc ≠ d.castSucc := fun heq => hed (Fin.castSucc_injective _ heq)
          rw [Function.update_of_ne hne, Function.update_of_ne (by simp [hed])]
          exact h (e :: q)

/-- Insertion makes the nodes along the keys. -/
theorem follow_insertLoop (nums word : List Char) (hq : follow q t = .null) (hpq : ¬ q <+: p) :
    follow q (insertLoop nums word (p.map digit) t).1 = .null := by
  induction p generalizing t q with
  | nil =>
    cases q with
    | nil => exact absurd (List.nil_prefix) hpq
    | cons d q => exact (follow_insertHere d q word t).trans hq
  | cons d p ih =>
    cases t with
    | null => simp [insertLoop]
    | node isEnd w child =>
      rw [insertLoop_cons]
      cases q with
      | nil => exact absurd (List.nil_prefix) hpq
      | cons e q =>
        rw [follow] at hq ⊢
        by_cases hed : e = d
        · rw [hed] at hq ⊢
          rw [Function.update_self]
          have hpq' : ¬ q <+: p := fun hprefix => hpq (by simpa [hed] using hprefix)
          cases hchild : child d.castSucc with
          | null =>
            cases q with
            | nil => exact absurd (List.nil_prefix) hpq'
            | cons f q =>
              refine ih ?_ hpq'
              simp [TrieNode.orCreate, create, follow]
          | node isEnd w child =>
            rw [hchild] at hq
            exact ih hq hpq'
        · have hne : e.castSucc ≠ d.castSucc := fun heq => hed (Fin.castSucc_injective _ heq)
          rw [Function.update_of_ne hne]
          exact hq

/-! ## Dictionaries -/

/-- The words are inserted one after the other. -/
def insertAll (trie : TrieNode) (words : List Word) : TrieNode :=
  words.foldl (fun t w => (insertWord t (w.map convert) w).1) trie

/-- The words with these keys. -/
def withKeys (words : List Word) (k : List Char) : List Word :=
  words.filter fun w => w.map convert = k

theorem insertWord_eq (hne : t ≠ .null) (nums word : List Char) :
    insertWord t nums word = insertLoop nums word nums t := by
  cases t with
  | null => exact absurd rfl hne
  | node isEnd w child => rfl

theorem insertLoop_ne_null (hne : t ≠ .null) (nums word keys : List Char) :
    (insertLoop nums word keys t).1 ≠ .null := by
  cases t with
  | null => exact absurd rfl hne
  | node isEnd w child =>
    cases keys with
    | nil =>
      rw [insertLoop, insertHere]
      split <;> simp
    | cons c keys =>
      rw [insertLoop]
      split <;> simp

theorem insertAll_ne_null (words : List Word) : insertAll empty words ≠ .null := by
  induction words using List.reverseRecOn with
  | nil => simp [insertAll, empty, create]
  | append_singleton words w ih =>
    rw [insertAll, List.foldl_concat, ← insertAll, insertWord_eq ih]
    exact insertLoop_ne_null ih _ _ _

theorem represents_empty : Represents empty fun _ => [] := by
  have hnull : Represents .null fun _ => [] := by
    intro p
    rw [follow_null]
    exact .same .nil
  exact hnull.orCreate

theorem represents_insertAll (words : List Word) :
    Represents (insertAll empty words) fun p => withKeys words (p.map digit) := by
  induction words using List.reverseRecOn with
  | nil => exact represents_empty
  | append_singleton words w ih =>
    obtain ⟨p, hp⟩ := exists_word_keys w
    have hnext := ih.insert (p := p) (w.map convert) w (insertAll_ne_null words)
    rw [insertAll, List.foldl_concat, ← insertAll, insertWord_eq (insertAll_ne_null words)]
    nth_rewrite 2 [← hp]
    intro q
    have hbucket : withKeys (words ++ [w]) (q.map digit) =
        Function.update (fun p => withKeys words (p.map digit)) p
          (withKeys words (p.map digit) ++ [w]) q := by
      rw [withKeys, List.filter_append]
      by_cases hqp : q = p
      · simp [hqp, withKeys, hp]
      · have hne : ¬ w.map convert = q.map digit := fun heq =>
          hqp (List.map_injective_iff.2 digit_injective (heq.symm.trans hp.symm))
        simp [hqp, withKeys, hne]
    have hq := hnext q
    rwa [← hbucket] at hq

/-- There are no nodes at longer key sequences than those of the words. -/
theorem follow_insertAll (words : List Word) (hp : p ≠ [])
    (hlt : ∀ w ∈ words, w.length < p.length) : follow p (insertAll empty words) = .null := by
  induction words using List.reverseRecOn with
  | nil =>
    cases p with
    | nil => exact absurd rfl hp
    | cons d p => simp [insertAll, empty, create, follow]
  | append_singleton words w ih =>
    obtain ⟨keys, hkeys⟩ := exists_word_keys w
    have hlength : w.length < p.length := hlt w (by simp)
    have hprefix : ¬ p <+: keys := by
      intro hprefix
      have hle := hprefix.length_le
      have hsame := congrArg List.length hkeys
      simp only [List.length_map] at hsame
      omega
    rw [insertAll, List.foldl_concat, ← insertAll, insertWord_eq (insertAll_ne_null words)]
    nth_rewrite 2 [← hkeys]
    exact follow_insertLoop _ _ (ih fun v hv => hlt v (List.mem_append_left _ hv)) hprefix

end Courses.T9

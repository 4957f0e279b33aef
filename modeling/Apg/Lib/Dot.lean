import Mathlib

/-!
# Reading DOT

The DOT language as far as plain directed graphs go: identifiers that are words or quoted
strings, attributes, nodes, paths of edges. Left out are comments, numerals, subgraphs,
ports and HTML strings. A scanner reads one byte at a time, a parser reads its tokens.

* `scan_append`: texts are scanned piece by piece.
* `scan_escape`: **a text with its quotes and backslashes escaped stays one string**,
  and `doubled_injective`: the string tells the text.
* `readStmts_flatMap`: statements are read one by one.
-/

namespace Apg.Dot

/-- A text is the list of its bytes. -/
abbrev Text := List ℕ

def text (s : String) : Text := s.toList.map Char.toNat

/-! ## Tokens -/

inductive Token
  | word (w : Text)
  | quoted (s : Text)
  | opens | closes | lbracket | rbracket | equals | semicolon | comma | arrow
  deriving DecidableEq

/-- What the scanner is in the middle of. -/
inductive Mode
  | gap
  | minus
  | word (w : Text)
  | quoted (s : Text)
  | escape (s : Text)
  deriving DecidableEq

def isSpace (c : ℕ) : Bool := c = 32 || (9 ≤ c && c ≤ 13)

/-- Letters, the underscore, and all bytes beyond ASCII. -/
def isLetter (c : ℕ) : Bool := (65 ≤ c && c ≤ 90) || c = 95 || (97 ≤ c && c ≤ 122) || 128 ≤ c

def isDigit (c : ℕ) : Bool := 48 ≤ c && c ≤ 57

def symbol (c : ℕ) : Option Token :=
  if c = 123 then some .opens else if c = 125 then some .closes
  else if c = 91 then some .lbracket else if c = 93 then some .rbracket
  else if c = 61 then some .equals else if c = 59 then some .semicolon
  else if c = 44 then some .comma else none

/-- A byte that begins something. -/
def start (c : ℕ) : Option (List Token × Mode) :=
  if isSpace c then some ([], .gap)
  else if c = 34 then some ([], .quoted [])
  else if c = 45 then some ([], .minus)
  else if isLetter c then some ([], .word [c])
  else (symbol c).map fun t => ([t], .gap)

/-- **One byte.** In a string, a backslash takes the meaning from a quote; one before a
newline goes with it, and all others stay, so two of them stay two. -/
def scanByte : Mode → ℕ → Option (List Token × Mode)
  | .gap, c => start c
  | .minus, c => if c = 62 then some ([.arrow], .gap) else none
  | .word w, c =>
    if isLetter c || isDigit c then some ([], .word (w ++ [c]))
    else (start c).map fun (ts, m) => (.word w :: ts, m)
  | .quoted s, c =>
    if c = 34 then some ([.quoted s], .gap)
    else if c = 92 then some ([], .escape s)
    else some ([], .quoted (s ++ [c]))
  | .escape s, c =>
    if c = 34 then some ([], .quoted (s ++ [c]))
    else if c = 10 then some ([], .quoted s)
    else some ([], .quoted (s ++ [92, c]))

def scan : Mode → Text → Option (List Token × Mode)
  | m, [] => some ([], m)
  | m, c :: s => (scanByte m c).bind fun (ts, m) => (scan m s).map fun (us, m) => (ts ++ us, m)

/-- The tokens of a whole text. -/
def tokens (s : Text) : Option (List Token) :=
  match scan .gap s with
  | some (ts, .gap) => some ts
  | some (ts, .word w) => some (ts ++ [.word w])
  | _ => none

theorem scan_append {m m' m'' : Mode} {s t : Text} {ts us : List Token} (hs : scan m s = some (ts, m'))
    (ht : scan m' t = some (us, m'')) : scan m (s ++ t) = some (ts ++ us, m'') := by
  induction s generalizing m ts with
  | nil =>
    simp only [scan, Option.some.injEq, Prod.mk.injEq] at hs
    obtain ⟨rfl, rfl⟩ := hs
    simpa using ht
  | cons c s ih =>
    simp only [scan, Option.bind_eq_some_iff, Option.map_eq_some_iff, Prod.exists, Prod.mk.injEq] at hs
    obtain ⟨ts₁, m₁, hc, ts₂, m₂, hs, rfl, rfl⟩ := hs
    simp only [List.cons_append, scan, hc, Option.bind_some, ih hs, Option.map_some, List.append_assoc]

/-- A quote ends its string, whatever that is. -/
theorem scan_close (q : Text) {s : Text} {ts : List Token} {m : Mode} (hhead : s.head? = some 34)
    (h : scan .gap s.tail = some (ts, m)) : scan (.quoted q) s = some (.quoted q :: ts, m) := by
  obtain ⟨t, rfl⟩ := List.head?_eq_some_iff.1 hhead
  rw [List.tail_cons] at h
  simp [scan, scanByte, h]

/-! ## Strings -/

/-- A text as it can stand between quotes. -/
def escape : Text → Text
  | [] => []
  | c :: s => if c = 34 ∨ c = 92 then 92 :: c :: escape s else c :: escape s

/-- The identifier that an escaped text stands for. -/
def doubled : Text → Text
  | [] => []
  | c :: s => if c = 92 then 92 :: 92 :: doubled s else c :: doubled s

/-- **An escaped text does not end its string.** -/
theorem scan_escape (s acc : Text) : scan (.quoted acc) (escape s) = some ([], .quoted (acc ++ doubled s)) := by
  induction s generalizing acc with
  | nil => simp [escape, doubled, scan]
  | cons c s ih =>
    by_cases hquote : c = 34
    · simp [escape, doubled, scan, scanByte, hquote, ih]
    · by_cases hslash : c = 92
      · simp [escape, doubled, scan, scanByte, hslash, ih]
      · simp [escape, doubled, scan, scanByte, hquote, hslash, ih]

theorem doubled_injective : Function.Injective doubled := by
  intro s
  induction s with
  | nil =>
    intro t h
    cases t with
    | nil => rfl
    | cons d t => rw [doubled, doubled] at h; split_ifs at h
  | cons c s ih =>
    intro t h
    cases t with
    | nil => rw [doubled, doubled] at h; split_ifs at h
    | cons d t =>
      rw [doubled, doubled] at h
      -- a backslash stands for the first of two, so the first bytes are the same
      split_ifs at h with hc hd hd
      · rw [hc, hd, ih (by simpa using h)]
      · exact absurd (List.cons.inj h).1.symm hd
      · exact absurd (List.cons.inj h).1 hc
      · rw [(List.cons.inj h).1, ih (List.cons.inj h).2]

/-! ## Statements -/

inductive Kind
  | graph | node | edge
  deriving DecidableEq

/-- A statement; an edge statement is a path of at least one edge. -/
inductive Stmt
  | assign (key value : Text)
  | defaults (kind : Kind) (attrs : List (Text × Text))
  | node (id : Text) (attrs : List (Text × Text))
  | edge (source : Text) (targets : List Text) (attrs : List (Text × Text))
  deriving DecidableEq

structure Digraph where
  name : Text
  stmts : List Stmt
  deriving DecidableEq

/-- Keywords are words in letters of either case. -/
def lower (w : Text) : Text := w.map fun c => if 65 ≤ c ∧ c ≤ 90 then c + 32 else c

def keywords : List Text := ["node", "edge", "graph", "digraph", "subgraph", "strict"].map text

def Token.id? : Token → Option Text
  | .word w => if lower w ∈ keywords then none else some w
  | .quoted s => some s
  | _ => none

def Token.kind? : Token → Option Kind
  | .word w =>
    if lower w = text "node" then some .node
    else if lower w = text "edge" then some .edge
    else if lower w = text "graph" then some .graph
    else none
  | _ => none

def addAttr (a b : Token) (r : Option (List (Text × Text) × List Token)) : Option (List (Text × Text) × List Token) :=
  match a.id?, b.id?, r with
  | some a, some b, some (attrs, ts) => some ((a, b) :: attrs, ts)
  | _, _, _ => none

/-- The attributes behind an opening bracket. -/
def readAttrs : List Token → Option (List (Text × Text) × List Token)
  | .rbracket :: ts => some ([], ts)
  | a :: .equals :: b :: .comma :: ts => addAttr a b (readAttrs ts)
  | a :: .equals :: b :: .semicolon :: ts => addAttr a b (readAttrs ts)
  | a :: .equals :: b :: ts => addAttr a b (readAttrs ts)
  | _ => none

def optAttrs : List Token → Option (List (Text × Text) × List Token)
  | .lbracket :: ts => readAttrs ts
  | ts => some ([], ts)

/-- The targets of a path of edges. -/
def readPath : List Token → Option (List Text × List Token)
  | .arrow :: t :: ts =>
    match t.id?, readPath ts with
    | some b, some (bs, ts) => some (b :: bs, ts)
    | _, _ => none
  | ts => some ([], ts)

/-- A node with its attributes, or a path of edges that begins there. -/
def readFrom (a : Text) (ts : List Token) : Option (Stmt × List Token) :=
  match readPath ts with
  | none => none
  | some (path, ts) =>
    (optAttrs ts).map fun (attrs, ts) => (if path = [] then .node a attrs else .edge a path attrs, ts)

def skipSemicolon : List Token → List Token
  | .semicolon :: ts => ts
  | ts => ts

def readOne (t : Token) (ts : List Token) : Option (Stmt × List Token) :=
  match t.kind?, t.id?, ts with
  | some kind, _, .lbracket :: ts => (readAttrs ts).map fun (attrs, ts) => (.defaults kind attrs, ts)
  | none, some a, .equals :: b :: ts => b.id?.map fun b => (.assign a b, ts)
  | none, some a, ts => readFrom a ts
  | _, _, _ => none

def readStmt : List Token → Option (Stmt × List Token)
  | [] => none
  | t :: ts => (readOne t ts).map fun (st, ts) => (st, skipSemicolon ts)

/-- The statements up to the closing brace. Every statement takes a token at least. -/
def readStmts : ℕ → List Token → Option (List Stmt × List Token)
  | 0, _ => none
  | _ + 1, .closes :: ts => some ([], ts)
  | n + 1, ts =>
    match readStmt ts with
    | none => none
    | some (st, ts) => (readStmts n ts).map fun (sts, ts) => (st :: sts, ts)

def readGraph : List Token → Option Digraph
  | .word w :: t :: .opens :: ts =>
    match t.id?, readStmts ts.length ts with
    | some name, some (sts, []) => if lower w = text "digraph" then some ⟨name, sts⟩ else none
    | _, _ => none
  | _ => none

/-- **The graph that a text describes.** -/
def read (s : Text) : Option Digraph := (tokens s).bind readGraph

/-- The tokens are those of the statement, whatever comes behind them. -/
structure Spells (ts : List Token) (st : Stmt) : Prop where
  nonempty : ts ≠ []
  head : ts.head? ≠ some .closes
  reads (rest : List Token) : readStmt (ts ++ rest) = some (st, rest)

/-- **Statements are read one by one**, up to the closing brace. -/
theorem readStmts_flatMap {α : Type*} (spell : α → List Token) (stmt : α → Stmt) (rest : List Token) : ∀ (items : List α) (n : ℕ),
    (∀ x ∈ items, Spells (spell x) (stmt x)) → items.length < n →
    readStmts n (items.flatMap spell ++ .closes :: rest) = some (items.map stmt, rest) := by
  intro items
  induction items with
  | nil =>
    rintro (_ | n) _ hn
    · exact absurd hn (Nat.not_lt_zero _)
    · rfl
  | cons x items ih =>
    rintro (_ | n) hspells hn
    · exact absurd hn (Nat.not_lt_zero _)
    have hx : Spells (spell x) (stmt x) := hspells x List.mem_cons_self
    obtain ⟨t, ts, hts⟩ := List.exists_cons_of_ne_nil hx.nonempty
    have ht : t ≠ .closes := fun h => hx.head (by rw [hts, h, List.head?_cons])
    have hread := hx.reads (items.flatMap spell ++ .closes :: rest)
    rw [List.flatMap_cons, List.append_assoc]
    rw [hts, List.cons_append] at hread ⊢
    rw [readStmts, hread]
    · simp only [ih n (fun y hy => hspells y (List.mem_cons_of_mem _ hy)) (by simpa using hn), Option.map_some,
        List.map_cons]
    · intro us hus
      exact ht (List.cons.inj hus).1

theorem length_le_flatMap {α : Type*} {spell : α → List Token} {stmt : α → Stmt} {items : List α}
    (h : ∀ x ∈ items, Spells (spell x) (stmt x)) : items.length ≤ (items.flatMap spell).length := by
  induction items with
  | nil => exact Nat.zero_le _
  | cons x items ih =>
    have hx := List.length_pos_iff.2 (h x List.mem_cons_self).nonempty
    have hrest := ih fun y hy => h y (List.mem_cons_of_mem _ hy)
    rw [List.flatMap_cons, List.length_append, List.length_cons]
    omega

/-- A graph is read from the tokens of its parts. -/
theorem readGraph_flatMap {α : Type*} {w name : Text} {t : Token} {spell : α → List Token} {stmt : α → Stmt} {items : List α}
    (hw : lower w = text "digraph") (ht : t.id? = some name) (h : ∀ x ∈ items, Spells (spell x) (stmt x)) :
    readGraph (.word w :: t :: .opens :: (items.flatMap spell ++ [.closes])) = some ⟨name, items.map stmt⟩ := by
  have hlen : items.length < (items.flatMap spell ++ [Token.closes]).length := by
    rw [List.length_append, List.length_singleton]
    exact Nat.lt_succ_of_le (length_le_flatMap h)
  simp only [readGraph, ht, readStmts_flatMap spell stmt [] items _ h hlen, hw, if_true]

end Apg.Dot

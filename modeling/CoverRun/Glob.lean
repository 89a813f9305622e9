import CoverRun.Text.Suffixes

/-!
# Glob patterns

A pattern is a list of tokens. `?` and character classes stand for one character, `*` for any run
of characters, none of them across a separator, and `**` as a whole component for any run of whole
components. A text matches if it splits into what the tokens stand for, which `matchesChars` says
split by split. `Glob.accepts` gives the same answer from a table.
-/

namespace CoverRun

/-- Why a text is no pattern, and at which of its characters that shows. -/
inductive GlobError where
  | tooManyStars (position : Nat)
  | partialComponent (position : Nat)
  | invalidClass (position : Nat)
deriving DecidableEq, Repr

namespace GlobError

/-- What is wrong. -/
def reason : GlobError → String
  | .tooManyStars _ => "wildcards are either regular \x60*\x60 or recursive \x60**\x60"
  | .partialComponent _ => "recursive wildcards must form a single path component"
  | .invalidClass _ => "invalid range pattern"

/-- Where it shows. -/
def position : GlobError → Nat
  | .tooManyStars n => n
  | .partialComponent n => n
  | .invalidClass n => n

/-- The wording of the error. -/
def message (e : GlobError) : String :=
  "Pattern syntax error near position " ++ toString e.position ++ ": " ++ e.reason

end GlobError

namespace Glob

/-- A member of a character class. -/
inductive ClassItem where
  | single (c : Char)
  | range (low high : Char)
deriving DecidableEq, Repr

/-- A piece of a pattern. -/
inductive Token where
  | char (c : Char)
  | anyChar
  | anyOf (items : List ClassItem)
  | noneOf (items : List ClassItem)
  | anySequence
  | anyComponents
deriving DecidableEq, Repr

/-- Whether a character belongs to an item. -/
def ClassItem.holds (c : Char) : ClassItem → Bool
  | .single d => c == d
  | .range low high => low.toNat ≤ c.toNat && c.toNat ≤ high.toNat

/-- Whether a token that stands for one character stands for this one. -/
def Token.holds (c : Char) : Token → Bool
  | .char d => c == d
  | .anyChar => c != '/'
  | .anyOf items => c != '/' && items.any (·.holds c)
  | .noneOf items => c != '/' && !items.any (·.holds c)
  | .anySequence => false
  | .anyComponents => false

/-- What can be left of a text after a run of characters without a separator. -/
def withinComponent : List Char → List (List Char)
  | [] => [[]]
  | c :: cs => if c = '/' then [c :: cs] else (c :: cs) :: withinComponent cs

/-- What can be left of a text after some whole components and their separators, or after all. -/
def afterComponents : List Char → List (List Char)
  | [] => [[]]
  | c :: cs => if c = '/' then cs :: afterComponents cs else afterComponents cs

/-- Whether a text splits into what the tokens stand for. -/
def matchesChars : List Token → List Char → Bool
  | [], cs => cs.isEmpty
  | .anySequence :: ts, cs => (withinComponent cs).any fun rest => matchesChars ts rest
  | .anyComponents :: ts, cs => (cs :: afterComponents cs).any fun rest => matchesChars ts rest
  | _ :: _, [] => false
  | t :: ts, c :: cs => t.holds c && matchesChars ts cs

/-! ## Matching by tables -/

/-- The table of what goes on as a table says after whole components and their separators, or after
all of the text. -/
def componentsTable : List Char → List Bool → List Bool
  | c :: cs, _ :: table =>
    let later := componentsTable cs table
    ((c == '/' && table.headD false) || later.headD false) :: later
  | _, table => table

/-- The table of what a token stands for, going on as a table says. -/
def Token.table (t : Token) (cs : List Char) (next : List Bool) : List Bool :=
  match t with
  | .anySequence => Suffixes.afterRun (· != '/') cs next
  | .anyComponents => List.zipWith or next (componentsTable cs next)
  | t => Suffixes.afterOne t.holds cs next

/-- The table of what tokens stand for. -/
def table (ts : List Token) (cs : List Char) : List Bool :=
  ts.foldr (fun t next => t.table cs next) (Suffixes.empty cs)

theorem componentsTable_map (f : List Char → Bool) (cs : List Char) :
    componentsTable cs ((suffixes cs).map f) =
      (suffixes cs).map fun cs => (afterComponents cs).any f := by
  induction cs with
  | nil => simp [componentsTable, suffixes, afterComponents]
  | cons c cs ih =>
      simp only [suffixes, List.map_cons, componentsTable, ih, Suffixes.headD_map_suffixes,
        List.cons.injEq, and_true]
      by_cases h : c = '/' <;> simp [afterComponents, h]

theorem Token.table_map (t : Token) (ts : List Token) (cs : List Char) :
    t.table cs ((suffixes cs).map (matchesChars ts)) =
      (suffixes cs).map (matchesChars (t :: ts)) := by
  cases t with
  | anySequence =>
      refine Suffixes.afterRun_map ?_ ?_ cs
      · simp [matchesChars, withinComponent]
      · intro c cs
        by_cases h : c = '/'
        · simp [matchesChars, withinComponent, h]
        · simp [matchesChars, withinComponent, h, bne_iff_ne.2 h]
  | anyComponents =>
      simp only [Token.table, componentsTable_map, List.zipWith_map_left, List.zipWith_map_right,
        List.zipWith_self]
      exact List.map_congr_left fun cs _ => by simp [matchesChars]
  | char d => exact Suffixes.afterOne_map rfl (fun _ _ => rfl) cs
  | anyChar => exact Suffixes.afterOne_map rfl (fun _ _ => rfl) cs
  | anyOf items => exact Suffixes.afterOne_map rfl (fun _ _ => rfl) cs
  | noneOf items => exact Suffixes.afterOne_map rfl (fun _ _ => rfl) cs

theorem table_eq (ts : List Token) (cs : List Char) :
    table ts cs = (suffixes cs).map (matchesChars ts) := by
  induction ts with
  | nil =>
      rw [table, List.foldr_nil, Suffixes.empty_eq]
      exact List.map_congr_left fun cs _ => by simp [matchesChars]
  | cons t ts ih =>
      rw [table] at ih ⊢
      rw [List.foldr_cons, ih, Token.table_map]

/-! ## Reading a pattern -/

/-- The members written in a class: a dash between two characters makes a range. -/
def classItems : List Char → List ClassItem
  | a :: '-' :: b :: rest => .range a b :: classItems rest
  | a :: rest => .single a :: classItems rest
  | [] => []

/-- A class from after its opening on: at least one character, up to the next closing bracket. -/
def classBody? : List Char → Option (List Char × List Char)
  | [] => none
  | c :: cs =>
    match cs.dropWhile (· != ']') with
    | [] => none
    | _ :: rest => some (c :: cs.takeWhile (· != ']'), rest)

theorem classBody?_shorter {cs body rest : List Char} (h : classBody? cs = some (body, rest)) :
    rest.length < cs.length := by
  cases cs with
  | nil => cases h
  | cons c cs =>
      simp only [classBody?] at h
      split at h
      · cases h
      · next heq =>
          cases h
          have hle := (List.dropWhile_sublist (fun c : Char => c != ']') (l := cs)).length_le
          rw [heq] at hle
          simp only [List.length_cons] at hle ⊢
          omega

/-- A class after its opening bracket: the token and what follows. -/
def class? : List Char → Option (Token × List Char)
  | '!' :: cs => (classBody? cs).map fun r => (.noneOf (classItems r.1), r.2)
  | cs => (classBody? cs).map fun r => (.anyOf (classItems r.1), r.2)

theorem class?_shorter {cs rest : List Char} {t : Token} (h : class? cs = some (t, rest)) :
    rest.length < cs.length := by
  unfold class? at h
  split at h
  · obtain ⟨r, hr, hEq⟩ := Option.map_eq_some_iff.1 h
    cases hEq
    have := classBody?_shorter hr
    simp only [List.length_cons]
    omega
  · obtain ⟨r, hr, hEq⟩ := Option.map_eq_some_iff.1 h
    cases hEq
    exact classBody?_shorter hr

/-- Adds `**` to the tokens so far, last first; right after another one it adds nothing, except
after the first of all tokens. -/
def pushComponents : List Token → List Token
  | .anyComponents :: t :: ts => .anyComponents :: t :: ts
  | ts => .anyComponents :: ts

/-- Reads a pattern from a position on. `fresh` says that a component begins here; `done` are the
tokens before, last first. -/
def readFrom (position : Nat) (fresh : Bool) (done : List Token) :
    List Char → Except GlobError (List Token)
  | [] => .ok done.reverse
  | '?' :: cs => readFrom (position + 1) false (.anyChar :: done) cs
  | '*' :: '*' :: '*' :: _ => .error (.tooManyStars (position + 2))
  | '*' :: '*' :: cs =>
    if fresh = false then .error (.partialComponent (position - 1))
    else
      match cs with
      | [] => .ok (pushComponents done).reverse
      | '/' :: rest => readFrom (position + 3) true (pushComponents done) rest
      | _ => .error (.partialComponent (position + 2))
  | '*' :: cs => readFrom (position + 1) false (.anySequence :: done) cs
  | '[' :: cs =>
    match h : class? cs with
    | none => .error (.invalidClass position)
    | some (t, rest) =>
      have := class?_shorter h
      readFrom (position + 1 + (cs.length - rest.length)) false (t :: done) rest
  | c :: cs => readFrom (position + 1) (c == '/') (.char c :: done) cs
termination_by cs => cs.length

end Glob

/-- A pattern that was read. -/
structure Glob where
  tokens : List Glob.Token
deriving DecidableEq, Repr

namespace Glob

/-- Reads a pattern. -/
def ofText (text : String) : Except GlobError Glob :=
  match readFrom 0 true [] text.toList with
  | .ok tokens => .ok ⟨tokens⟩
  | .error e => .error e

/-- Whether a text matches. -/
def accepts (g : Glob) (text : String) : Bool := (table g.tokens text.toList).headD false

/-- A glob accepts the texts that split into what its tokens stand for. -/
theorem accepts_eq (g : Glob) (text : String) :
    g.accepts text = matchesChars g.tokens text.toList := by
  rw [accepts, table_eq, Suffixes.headD_map_suffixes]

end Glob

end CoverRun

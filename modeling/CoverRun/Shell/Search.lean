import CoverRun.Shell.Regex
import CoverRun.Shell.Utility

/-!
# Searching and sorting

The utilities that look for lines in files and for files in directories, and put lines in order.
-/

namespace CoverRun.Shell.Search

/-- The lines of bytes as texts. -/
def linesOf (bytes : Bytes) : List Text :=
  let parts := (Text.ofBytes bytes).splitOnP (· == '\n')
  if parts.getLast? = some [] then parts.dropLast else parts

/-- Texts, each ended by a line feed. -/
def unlines (ts : List Text) : Text := ts.flatMap (· ++ ['\n'])

/-! ## Lines in files -/

/-- The lines of a file that are wanted, with their numbers. -/
def hits (options : List Text) (a : Regex) (bytes : Bytes) : List (Nat × Text) :=
  let has (c : Char) : Bool := Utility.hasLetter c options
  let same : Char → Char → Bool :=
    if has 'i' then fun c d => c.toLower == d.toLower else fun c d => c == d
  (((linesOf bytes).zipIdx 1).filter fun l => a.finds same (has 'x') l.1 != has 'v').map fun l =>
    (l.2, l.1)

/-- What is written about the lines of a file that are wanted. -/
def hitText (options : List Text) (file : Option Text) (found : List (Nat × Text)) : Text :=
  let has (c : Char) : Bool := Utility.hasLetter c options
  let start := (file.map (· ++ [':'])).getD []
  if has 'q' then []
  else if has 'l' then if found.isEmpty then [] else unlines [file.getD "(standard input)".toList]
  else if has 'c' then unlines [start ++ Text.ofNat found.length]
  else
    unlines (found.map fun l => start ++ (if has 'n' then Text.ofNat l.1 ++ [':'] else []) ++ l.2)

/-- The files that are searched: with `r`, those below directories. -/
def searched (s : State) (options : List Text) (files : List Text) : List Text :=
  if Utility.hasLetter 'r' options || Utility.hasLetter 'R' options then
    files.flatMap fun t =>
      match s.tree.directory? s.cwd (State.pathOf t) with
      | some loc => (s.tree.below loc).filterMap fun e =>
          match e.2 with
          | .file _ => some (t ++ '/' :: Text.ofBytes (Path.ofNames e.1).bytes)
          | _ => none
      | none => [t]
  else files

/-- Writes the lines of files that an expression is found in. -/
def grep (arguments : List Text) (s : State) : State :=
  let (options, rest) := Utility.cutOptions arguments
  match rest with
  | [] => (s.complain "Usage: grep [OPTION]... PATTERNS [FILE]...".toList).withStatus 2
  | pattern :: files =>
    let has (c : Char) : Bool := Utility.hasLetter c options
    let a := if has 'F' then Regex.ofText pattern else Regex.read (has 'E') pattern
    let all := searched s options files
    let named := (1 < files.length || all != files || has 'l') && !has 'h'
    let files := if files.isEmpty then [['-']] else all
    files.foldl (fun s t =>
      match Utility.contentOf s t with
      | (.error e, s) =>
        (s.complain ("grep: ".toList ++ Text.ofString (Utility.aboutFile t e))).withStatus 2
      | (.ok bytes, s) =>
        let found := hits options a bytes
        let s := s.put (hitText options (if named then some t else none) found)
        if found.isEmpty || s.status == 2 then s else s.withStatus 0) (s.withStatus 1)

/-! ## Files in directories -/

/-- A test of a file that was found. -/
structure Filter where
  name : Option Text
  kind : Option Char

/-- Reads the tests of files. -/
def filterOf : List Text → Filter
  | t :: value :: rest =>
    if t = "-name".toList then { filterOf rest with name := some value }
    else if t = "-type".toList then { filterOf rest with kind := value.head? }
    else filterOf (value :: rest)
  | _ => ⟨none, none⟩

/-- Whether a file passes the tests. -/
def Filter.passes (f : Filter) (name : Text) (e : FileTree.Entry) : Bool :=
  let kind := match e with
    | .directory => 'd'
    | .file _ => 'f'
    | .link _ => 'l'
  f.kind.all (· == kind) &&
    f.name.all fun t => Pattern.matchesText (t.map fun c => (false, c)) name

/-- Writes the paths of files below directories that pass tests. -/
def find (arguments : List Text) (s : State) : State :=
  let isPath := fun t : Text => t.head? != some '-'
  let paths := arguments.takeWhile isPath
  let f := filterOf (arguments.dropWhile isPath)
  (if paths.isEmpty then [['.']] else paths).foldl (fun s t =>
    match s.tree.resolve s.cwd (State.pathOf t) .shown with
    | .ok (.present loc e) =>
      let own := if f.passes t e then [t] else []
      let inner := (s.tree.below loc).filterMap fun e =>
        if f.passes (Text.ofBytes (e.1.getLast?.getD "").bytes) e.2 then
          some (t ++ '/' :: Text.ofBytes (Path.ofNames e.1).bytes)
        else none
      s.put (unlines (own ++ if e = .directory then inner else []))
    | _ =>
      Utility.fail s "find".toList ("'" ++ Text.string t ++ "': " ++ errorText .notFound))
    (s.withStatus 0)

/-! ## Order -/

/-- Whether a text comes before another one, or is the same, character by character. -/
def textLe : Text → Text → Bool
  | [], _ => true
  | _ :: _, [] => false
  | a :: as, b :: bs => a < b || (a == b && textLe as bs)

/-- The number at the start of a text. -/
def leadingNumber (t : Text) : Int :=
  match t.dropWhile (· == ' ') with
  | '-' :: ds => -(Text.natural (ds.takeWhile Char.isDigit) : Int)
  | ds => Text.natural (ds.takeWhile Char.isDigit)

/-- Writes the lines of files in order. -/
def sort (arguments : List Text) (s : State) : State :=
  let (options, files) := Utility.cutOptions arguments
  let has (c : Char) : Bool := Utility.hasLetter c options
  let le : Text → Text → Bool := fun a b =>
    if has 'n' && leadingNumber a != leadingNumber b then leadingNumber a < leadingNumber b
    else textLe a b
  let files := if files.isEmpty then [['-']] else files
  let (lines, s) := files.foldl (fun (r : List Text × State) t =>
    match Utility.contentOf r.2 t with
    | (.ok bytes, s) => (r.1 ++ linesOf bytes, s)
    | (.error e, s) =>
      (r.1, (Utility.fail s "sort".toList ("cannot read: " ++ Utility.aboutFile t e)).withStatus 2))
    ([], s.withStatus 0)
  let sorted := lines.mergeSort (if has 'r' then fun a b => le b a else le)
  s.put (unlines (if has 'u' then sorted.eraseReps else sorted))

/-- The utilities that search and sort. -/
def program? (name : String) : Option (List Text → State → State) :=
  match name with
  | "grep" => some grep
  | "find" => some find
  | "sort" => some sort
  | _ => none

end CoverRun.Shell.Search

import CoverRun.Shell.Clock
import CoverRun.Shell.Condition
import CoverRun.Shell.Format

/-!
# Utilities

The programs that a script can count on: each reads and writes descriptors and files of a shell's
state and leaves a status.
-/

namespace CoverRun.Shell.Utility

/-- Writes a complaint of a utility and leaves its status. -/
def fail (s : State) (name : Text) (message : String) : State :=
  (s.complain (name ++ ": ".toList ++ Text.ofString message)).withStatus 1

/-- Writes a complaint of a utility about how it was used, and leaves a status. -/
def failHelped (s : State) (name : Text) (message : String) (status : Nat) : State :=
  let told := fail s name message
  (told.complain ("Try '".toList ++ name ++ " --help' for more information.".toList)).withStatus
    status

/-- The complaint about a file. -/
def aboutFile (t : Text) (e : FileError) : String := Text.string t ++ ": " ++ errorText e

/-- The bytes of a file, or of the standard input if it is named by a dash. -/
def contentOf (s : State) (t : Text) : Except FileError Bytes × State :=
  if t = ['-'] ∨ State.descriptorOf? t = some 0 then
    let (bytes, s) := s.takeAll 0
    (.ok bytes, s)
  else if (State.deviceOf? (State.pathOf t)).isSome then (.ok [], s)
  else (s.tree.read s.cwd (State.pathOf t), s)

/-- Applies a function to the content of each file in order, or of the standard input if none is
named; those that cannot be read are complained about. -/
def eachContent (name : Text) (files : List Text) (f : State → Text → Bytes → State) (s : State) :
    State :=
  let files := if files.isEmpty then [['-']] else files
  files.foldl (fun s t =>
    match contentOf s t with
    | (.ok bytes, s) => f s t bytes
    | (.error e, s) => fail s name (aboutFile t e)) (s.withStatus 0)

/-- Cuts arguments into options, each a dash with letters, and the rest. -/
def cutOptions : List Text → List Text × List Text
  | ['-', '-'] :: rest => ([], rest)
  | ('-' :: c :: cs) :: rest =>
    let (options, rest) := cutOptions rest
    (('-' :: c :: cs) :: options, rest)
  | rest => ([], rest)

/-- Whether options have a letter. -/
def hasLetter (c : Char) (options : List Text) : Bool := options.any (·.contains c)

/-! ## Writing -/

/-- Texts with blanks between them. -/
def spaced (ts : List Text) : Text := [' '].intercalate ts

/-- Writes a text for a builtin, which fails if the standard output is closed. -/
def putAs (builtin : String) (t : Text) (s : State) : State :=
  if t != [] && (s.openFile? 1).isNone then
    (s.reportAs builtin (builtin ++ ": I/O error")).withStatus 1
  else (s.put t).withStatus 0

/-- Writes its arguments, with escapes carried out. -/
def echo (arguments : List Text) (s : State) : State :=
  let (line, arguments) :=
    match arguments with
    | ['-', 'n'] :: rest => (false, rest)
    | rest => (true, rest)
  let (t, ended) := Format.unescapeText (spaced arguments)
  putAs "echo" (if line && !ended then t ++ ['\n'] else t) s

/-- Whether a text is an option of the program that writes its arguments. -/
def isEchoOption (t : Text) : Bool :=
  match t with
  | '-' :: c :: cs => (c :: cs).all fun d => d == 'n' || d == 'e' || d == 'E'
  | _ => false

/-- Writes its arguments, with escapes carried out on demand. -/
def echoProgram (arguments : List Text) (s : State) : State :=
  let options := (arguments.takeWhile isEchoOption).flatMap (·.drop 1)
  let t := spaced (arguments.dropWhile isEchoOption)
  let escapes := (options.filter (· != 'n')).getLast? == some 'e'
  let (t, ended) := if escapes then Format.unescapeText t else (t, false)
  (s.put (if options.contains 'n' || ended then t else t ++ ['\n'])).withStatus 0

/-- Writes arguments by the first of them. -/
def writeFormat (arguments : List Text) (s : State) : State :=
  match arguments with
  | [] => (s.reportAs "printf" "usage: printf format [arg ...]").withStatus 2
  | format :: rest =>
    let r := Format.write (rest.length + 1) format rest
    let s := r.complaints.foldl (fun s c => s.reportAs "printf" c.message) s
    let s := putAs "printf" r.text s
    s.withStatus (r.complaints.foldl (fun n c => max n c.status) s.status)

/-- Writes its arguments by a format. -/
def printf (arguments : List Text) (s : State) : State :=
  match arguments with
  | ['-', '-'] :: ts => writeFormat ts s
  | ('-' :: c :: _) :: _ =>
    (s.reportAs "printf" ("Illegal option -" ++ String.ofList [c])).withStatus 2
  | ts => writeFormat ts s

/-- What is written between numbers, whether they are made equally wide, and the bounds. -/
def seqOptions : List Text → Text × Bool × List Text
  | ['-', 'w'] :: rest =>
    let (t, _, bounds) := seqOptions rest
    (t, true, bounds)
  | ['-', 's'] :: t :: rest =>
    let (_, wide, bounds) := seqOptions rest
    (t, wide, bounds)
  | ('-' :: 's' :: t) :: rest =>
    let (_, wide, bounds) := seqOptions rest
    (t, wide, bounds)
  | bounds => (['\n'], false, bounds)

/-- Writes the numbers of a range. -/
def seq (arguments : List Text) (s : State) : State :=
  let (separator, wide, arguments) := seqOptions arguments
  let bounds : Option (Int × Int × Int) :=
    match arguments.map Text.integer? with
    | [some last] => some (1, 1, last)
    | [some first, some last] => some (first, 1, last)
    | [some first, some step, some last] => some (first, step, last)
    | _ => none
  match bounds with
  | none => fail s "seq".toList "invalid argument"
  | some (first, step, last) =>
    if step = 0 then fail s "seq".toList "invalid Zero increment value"
    else
      let count := ((last - first) / step + 1).toNat
      let numbers := (List.range count).map fun i : Nat => Text.ofInt (first + step * (i : Int))
      let width := if wide then numbers.foldl (fun n t => max n t.length) 0 else 0
      let padded := numbers.map fun t => List.replicate (width - t.length) '0' ++ t
      (s.put (separator.intercalate padded ++ if count = 0 then [] else ['\n'])).withStatus 0

/-- Writes a line again and again, as long as somebody reads it. -/
def yes (arguments : List Text) (s : State) : State :=
  let line := (if arguments.isEmpty then ['y'] else spaced arguments) ++ ['\n']
  match s.descriptors.find? 1 with
  | some i => (s.setFile i (.endless (Text.bytes line))).withStatus 0
  | none => s.withStatus 1

/-! ## Reading -/

/-- Writes the content of files. -/
def cat (arguments : List Text) (s : State) : State :=
  eachContent "cat".toList (cutOptions arguments).2 (fun s _ bytes => s.emit 1 bytes) s

/-- Writes the standard input to the standard output and to files. -/
def tee (arguments : List Text) (s : State) : State :=
  let (options, files) := cutOptions arguments
  let (bytes, s) := s.takeAll 0
  files.foldl (fun s t =>
    let kept := if hasLetter 'a' options then (s.tree.read s.cwd (State.pathOf t)).toOption.getD []
      else []
    match s.tree.write s.cwd (State.pathOf t) (kept ++ bytes) with
    | .ok tree => { s with tree := tree }
    | .error e => fail s "tee".toList (aboutFile t e)) ((s.emit 1 bytes).withStatus 0)

/-- How much of a file to take: lines or bytes, and from which on if not a number of them. -/
structure Extent where
  bytes : Bool
  count : Nat
  fromStart : Bool

/-- Reads the options that tell an extent, and the files. -/
def extent : Extent → List Text → Extent × List Text
  | x, ['-', 'n'] :: t :: rest => extent (ofNumber { x with bytes := false } t) rest
  | x, ['-', 'c'] :: t :: rest => extent (ofNumber { x with bytes := true } t) rest
  | x, ('-' :: 'n' :: t) :: rest => extent (ofNumber { x with bytes := false } t) rest
  | x, ('-' :: 'c' :: t) :: rest => extent (ofNumber { x with bytes := true } t) rest
  | x, ['-', '-'] :: rest => (x, rest)
  | x, ('-' :: c :: t) :: rest =>
    if Text.isNatural (c :: t) then
      extent { x with bytes := false, count := Text.natural (c :: t) } rest
    else extent x rest
  | x, rest => (x, rest)
where
  /-- The extent with a number. -/
  ofNumber (x : Extent) : Text → Extent
    | '+' :: t => { x with count := Text.natural t, fromStart := true }
    | '-' :: t => { x with count := Text.natural t }
    | t => { x with count := Text.natural t }

/-- Bytes up to the end of a number of lines. -/
def firstLines : Nat → Bytes → Bytes
  | 0, _ => []
  | _ + 1, [] => []
  | n + 1, b :: bs => if b = 0x0A then b :: firstLines n bs else b :: firstLines (n + 1) bs

/-- The number of line feeds. -/
def countLines (bytes : Bytes) : Nat := bytes.count 0x0A

/-- The number of lines, counting an unfinished one. -/
def countAllLines (bytes : Bytes) : Nat :=
  countLines bytes + if bytes.getLast?.any (· != 0x0A) then 1 else 0

/-- Writes the start of files. -/
def head (arguments : List Text) (s : State) : State :=
  let (x, files) := extent ⟨false, 10, false⟩ arguments
  let part (bytes : Bytes) : Bytes :=
    if x.bytes then bytes.take x.count else firstLines x.count bytes
  let endless : Option Bytes :=
    match files with
    | [] => (s.openFile? 0).bind fun f => match f.2 with
        | .endless unit => some unit
        | _ => none
    | t :: _ => (State.deviceOf? (State.pathOf t)).bind fun f => match f with
        | .endless unit => some unit
        | _ => none
  match endless with
  | some unit => (s.emit 1 (part (List.replicate x.count unit).flatten)).withStatus 0
  | none =>
    if files.isEmpty && x.bytes then
      let (bytes, s) := s.take 0 x.count
      (s.emit 1 bytes).withStatus 0
    else eachContent "head".toList files (fun s _ bytes => s.emit 1 (part bytes)) s

/-- Writes the end of files. -/
def tail (arguments : List Text) (s : State) : State :=
  let (x, files) := extent ⟨false, 10, false⟩ arguments
  let part (bytes : Bytes) : Bytes :=
    if x.bytes then
      if x.fromStart then bytes.drop (x.count - 1) else bytes.drop (bytes.length - x.count)
    else
      let skipped := if x.fromStart then x.count - 1 else countAllLines bytes - x.count
      bytes.drop (firstLines skipped bytes).length
  eachContent "tail".toList files (fun s _ bytes => s.emit 1 (part bytes)) s

/-- The number of words. -/
def countWords (bytes : Bytes) : Nat :=
  (bytes.foldl (fun (n, inside) b =>
    let blank : Bool := b == 0x20 || (0x09 ≤ b && b ≤ 0x0D)
    if blank then (n, false) else if inside then (n, true) else (n + 1, true))
    ((0, false) : Nat × Bool)).1

/-- Counts lines, words and bytes of files. -/
def wc (arguments : List Text) (s : State) : State :=
  let (options, files) := cutOptions arguments
  let all := options.isEmpty
  eachContent "wc".toList files (fun s t bytes =>
    let counts :=
      (if all || hasLetter 'l' options then [countLines bytes] else []) ++
      (if all || hasLetter 'w' options then [countWords bytes] else []) ++
      (if all || hasLetter 'c' options then [bytes.length] else []) ++
      if hasLetter 'm' options then [(Utf8.units bytes).length] else []
    let width :=
      if counts.length ≤ 1 then 0 else if t = ['-'] then 7 else (Text.ofNat bytes.length).length
    let padded := counts.map fun n =>
      let ds := Text.ofNat n
      List.replicate (width - ds.length) ' ' ++ ds
    s.put (spaced (padded ++ if t = ['-'] then [] else [t]) ++ ['\n'])) s

/-! ## Translating -/

/-- The members of a named class. -/
def classOf (name : String) : Text :=
  let span := fun (a b : Char) =>
    (List.range (b.toNat + 1 - a.toNat)).map fun n => Char.ofNat (a.toNat + n)
  match name with
  | "upper" => span 'A' 'Z'
  | "lower" => span 'a' 'z'
  | "digit" => span '0' '9'
  | "alpha" => span 'A' 'Z' ++ span 'a' 'z'
  | "alnum" => span '0' '9' ++ span 'A' 'Z' ++ span 'a' 'z'
  | "space" => span '\t' '\r' ++ [' ']
  | "blank" => ['\t', ' ']
  | _ => []

/-- The characters that a set writes. -/
def setOf : Nat → Text → Text
  | 0, _ => []
  | _ + 1, [] => []
  | fuel + 1, '[' :: ':' :: cs =>
    classOf (String.ofList (cs.takeWhile (· != ':'))) ++
      setOf fuel ((cs.dropWhile (· != ':')).drop 2)
  | fuel + 1, '\\' :: cs =>
    match Format.escape? cs with
    | some (c, n) => range fuel c (cs.drop n)
    | none => range fuel (cs.headD '\\') (cs.drop 1)
  | fuel + 1, c :: cs => range fuel c cs
where
  /-- The characters from one on, if a dash follows, or the one. -/
  range : Nat → Char → Text → Text
    | 0, c, _ => [c]
    | fuel + 1, c, '-' :: d :: cs =>
      if c.toNat ≤ d.toNat then
        (List.range (d.toNat + 1 - c.toNat)).map (fun n => Char.ofNat (c.toNat + n)) ++
          setOf fuel cs
      else c :: setOf fuel ('-' :: d :: cs)
    | fuel + 1, c, cs => c :: setOf fuel cs

/-- Drops characters of a set that repeat the one before. -/
def squeeze (set : Text) : Text → Text
  | a :: b :: cs =>
    if a = b ∧ set.contains a then squeeze set (b :: cs) else a :: squeeze set (b :: cs)
  | cs => cs

/-- Replaces, deletes or squeezes characters of the standard input. -/
def tr (arguments : List Text) (s : State) : State :=
  let (options, sets) := cutOptions arguments
  let sets := sets.map fun t => setOf (2 * t.length + 2) t
  let first := sets.headD []
  let second := (sets.drop 1).headD []
  let inFirst := fun c => first.contains c != hasLetter 'c' options
  let (bytes, s) := s.takeAll 0
  let t := Text.ofBytes bytes
  let last := second.getLast?.getD ' '
  let replace := fun c : Char =>
    if !inFirst c then c
    else if hasLetter 'c' options then last
    else
      match (second ++ List.replicate (first.length - second.length) last)[first.idxOf c]? with
      | some d => d
      | none => c
  let t :=
    if hasLetter 'd' options then t.filter fun c => !inFirst c
    else if second.isEmpty then t
    else t.map replace
  let t := if hasLetter 's' options then squeeze (if second.isEmpty then first else second) t else t
  (s.put t).withStatus 0

/-! ## Files and directories -/

/-- Creates files that are missing. -/
def touch (arguments : List Text) (s : State) : State :=
  (cutOptions arguments).2.foldl (fun s t =>
    let p := State.pathOf t
    if s.tree.exists? s.cwd p then s
    else
      match s.tree.write s.cwd p [] with
      | .ok tree => { s with tree := tree }
      | .error e => fail s "touch".toList ("cannot touch '" ++ p.text ++ "': " ++ errorText e))
    (s.withStatus 0)

/-- Creates directories. -/
def mkdir (arguments : List Text) (s : State) : State :=
  let (options, paths) := cutOptions arguments
  paths.foldl (fun s t =>
    let p := State.pathOf t
    let (tree, result) :=
      if hasLetter 'p' options then s.tree.makeDirectories s.cwd p
      else
        match s.tree.makeDirectory s.cwd p with
        | .ok tree => (tree, .ok ())
        | .error e => (s.tree, .error e)
    let s := { s with tree := tree }
    match result with
    | .ok () => s
    | .error e =>
      fail s "mkdir".toList ("cannot create directory '" ++ p.text ++ "': " ++ errorText e))
    (s.withStatus 0)

/-- Removes files and, if asked to, directories with all in them. -/
def rm (arguments : List Text) (s : State) : State :=
  let (options, paths) := cutOptions arguments
  let whole := hasLetter 'r' options || hasLetter 'R' options
  paths.foldl (fun s t =>
    let p := State.pathOf t
    let complain := fun (e : FileError) =>
      fail s "rm".toList ("cannot remove '" ++ p.text ++ "': " ++ errorText e)
    match s.tree.resolve s.cwd p .shown with
    | .ok (.present loc .directory) =>
      if whole then { s with tree := s.tree.prune loc } else complain .isDirectory
    | .ok (.present loc _) => { s with tree := s.tree.drop loc }
    | .ok (.absent ..) => if hasLetter 'f' options then s else complain .notFound
    | .error e => if hasLetter 'f' options && e == .notFound then s else complain e)
    (s.withStatus 0)

/-- Removes empty directories. -/
def rmdir (arguments : List Text) (s : State) : State :=
  (cutOptions arguments).2.foldl (fun s t =>
    let p := State.pathOf t
    match s.tree.resolve s.cwd p .shown with
    | .ok (.present loc .directory) =>
      if (s.tree.below loc).isEmpty then { s with tree := s.tree.drop loc }
      else fail s "rmdir".toList ("failed to remove '" ++ p.text ++ "': Directory not empty")
    | .ok (.present ..) =>
      fail s "rmdir".toList ("failed to remove '" ++ p.text ++ "': " ++ errorText .notDirectory)
    | .ok (.absent ..) =>
      fail s "rmdir".toList ("failed to remove '" ++ p.text ++ "': " ++ errorText .notFound)
    | .error e =>
      fail s "rmdir".toList ("failed to remove '" ++ p.text ++ "': " ++ errorText e))
    (s.withStatus 0)

/-- The path of a copy: inside the target, if that is a directory. -/
def targetOf (s : State) (source target : Text) : Path :=
  let p := State.pathOf target
  match s.tree.directory? s.cwd p with
  | some _ => p.join ⟨((State.pathOf source).fileName?.getD "").bytes⟩
  | none => p

/-- Copies or moves files into a target. -/
def transfer (name : Text) (moving : Bool) (arguments : List Text) (s : State) : State :=
  let (options, paths) := cutOptions arguments
  let target := paths.getLast?.getD []
  paths.dropLast.foldl (fun s source =>
    let p := State.pathOf source
    let place := targetOf s source target
    let complain := fun (e : FileError) =>
      fail s name ("cannot stat '" ++ p.text ++ "': " ++ errorText e)
    match s.tree.resolve s.cwd p (if moving then .shown else .followed) with
    | .error e => complain e
    | .ok (.absent ..) => complain .notFound
    | .ok (.present loc .directory) =>
      if !moving && !(hasLetter 'r' options || hasLetter 'R' options) then
        fail s name ("-r not specified; omitting directory '" ++ p.text ++ "'")
      else
        match s.tree.makeDirectory s.cwd place with
        | .error e =>
          fail s name ("cannot create directory '" ++ place.text ++ "': " ++ errorText e)
        | .ok tree =>
          match tree.locate s.cwd place with
          | .error _ => s
          | .ok loc' =>
            let copied := (s.tree.below loc).foldl (fun t e => t.place (loc' ++ e.1) e.2) tree
            { s with tree := if moving then copied.prune loc else copied }
    | .ok (.present loc e) =>
      match e with
      | .file content =>
        match s.tree.write s.cwd place content with
        | .error e =>
          fail s name ("cannot create regular file '" ++ place.text ++ "': " ++ errorText e)
        | .ok tree => { s with tree := if moving then tree.drop loc else tree }
      | e =>
        match s.tree.resolve s.cwd place .shown with
        | .ok (.absent parent base) =>
          { s with tree := (s.tree.drop loc).place (parent ++ [base]) e }
        | .ok (.present loc' _) => { s with tree := (s.tree.drop loc).place loc' e }
        | .error e => fail s name ("cannot move '" ++ p.text ++ "': " ++ errorText e))
    (s.withStatus 0)

/-- Makes a symbolic link or, without being asked to, one more file with the same content. -/
def ln (arguments : List Text) (s : State) : State :=
  let (options, paths) := cutOptions arguments
  match paths with
  | [target, link] =>
    let place := targetOf s target link
    let complain := fun (why : String) =>
      fail s "ln".toList ("failed to create symbolic link '" ++ place.text ++ "': " ++ why)
    match s.tree.resolve s.cwd place .shown with
    | .ok (.absent parent base) =>
      let entry := if hasLetter 's' options then some (.link (State.pathOf target)) else
        match s.tree.read s.cwd (State.pathOf target) with
        | .ok content => some (.file content)
        | .error _ => none
      match entry with
      | some e => { s with tree := s.tree.place (parent ++ [base]) e }.withStatus 0
      | none =>
        fail s "ln".toList ("failed to access '" ++ Text.string target ++ "': " ++
          errorText .notFound)
    | .ok (.present loc _) =>
      if hasLetter 'f' options && hasLetter 's' options then
        { s with tree := s.tree.place loc (.link (State.pathOf target)) }.withStatus 0
      else complain (errorText .alreadyExists)
    | .error e => complain (errorText e)
  | _ => fail s "ln".toList "missing file operand"

/-- Writes where a link leads: the target of one link or, with all links followed, a location. -/
def readlink (arguments : List Text) (s : State) : State :=
  let (options, paths) := cutOptions arguments
  let p := State.pathOf (paths.headD [])
  if options.isEmpty then
    match s.tree.resolve s.cwd p .shown with
    | .ok (.present _ (.link target)) =>
      (s.put (Text.ofBytes target.bytes ++ ['\n'])).withStatus 0
    | _ => s.withStatus 1
  else
    match s.tree.resolve s.cwd p .followed with
    | .ok (.present loc _) => (s.put (Text.ofBytes loc.path.bytes ++ ['\n'])).withStatus 0
    | .ok (.absent parent base) =>
      (s.put (Text.ofBytes (Location.path (parent ++ [base])).bytes ++ ['\n'])).withStatus 0
    | .error _ => s.withStatus 1

/-- The names in a directory. -/
def namesIn (s : State) (loc : Location) : List FileName :=
  (s.tree.below loc).filterMap fun e =>
    match e.1 with
    | [name] => some name
    | _ => none

/-- Lists directories. -/
def ls (arguments : List Text) (s : State) : State :=
  let (options, paths) := cutOptions arguments
  let paths := if paths.isEmpty then [['.']] else paths
  let shown := fun name : FileName =>
    hasLetter 'a' options || hasLetter 'A' options || name.bytes.head? != some dot
  paths.foldl (fun s t =>
    let p := State.pathOf t
    match s.tree.resolve s.cwd p .followed with
    | .ok (.present loc .directory) =>
      if hasLetter 'd' options then s.put (t ++ ['\n'])
      else
        let s := if 1 < paths.length then s.put (t ++ ":\n".toList) else s
        let dots : List FileName := if hasLetter 'a' options then [".", ".."] else []
        s.put <| (dots ++ (namesIn s loc).filter shown).flatMap fun n =>
          Text.ofBytes n.bytes ++ ['\n']
    | .ok (.present ..) => s.put (t ++ ['\n'])
    | .ok (.absent ..) =>
      let told := fail s "ls".toList ("cannot access '" ++ p.text ++ "': " ++ errorText .notFound)
      told.withStatus 2
    | .error e =>
      (fail s "ls".toList ("cannot access '" ++ p.text ++ "': " ++ errorText e)).withStatus 2)
    (s.withStatus 0)

/-- Writes the last name of a path, without an ending. -/
def basename (arguments : List Text) (s : State) : State :=
  let path := arguments.headD []
  let ending := (arguments.drop 1).headD []
  let name := match (State.pathOf path).components.getLast? with
    | some c => Text.ofBytes c.bytes
    | none => []
  let name := if ending.isSuffixOf name && ending != name then
      name.take (name.length - ending.length) else name
  (s.put (name ++ ['\n'])).withStatus 0

/-- Writes a path without its last name. -/
def dirname (arguments : List Text) (s : State) : State :=
  let p := State.pathOf (arguments.headD [])
  let shown : Path := match p.parent? with
    | some parent => if parent.bytes = [] then "." else parent
    | none => if p.isAbsolute then "/" else "."
  (s.put (Text.ofBytes shown.bytes ++ ['\n'])).withStatus 0

/-! ## Time and variables -/

/-- More milliseconds than any process goes on. -/
def forever : Nat := 0x1000000000000

/-- The number of milliseconds of a time with an optional unit. -/
def milliseconds? (t : Text) : Option Nat :=
  let isForever := ["inf", "infinity"].contains (String.ofList (t.map Char.toLower))
  let (digits, unit) :=
    match t.getLast? with
    | some 's' => (t.dropLast, 1)
    | some 'm' => (t.dropLast, 60)
    | some 'h' => (t.dropLast, 3600)
    | some 'd' => (t.dropLast, 86400)
    | _ => (t, 1)
  let whole := digits.takeWhile (· != '.')
  let fraction := (digits.dropWhile (· != '.')).drop 1
  if isForever then some forever
  else if (whole ++ fraction) != [] && (whole ++ fraction).all Char.isDigit then
    let thousandths := Text.natural ((fraction ++ ['0', '0', '0']).take 3)
    some ((Text.natural whole * 1000 + thousandths) * unit)
  else none

/-- Waits. -/
def sleep (arguments : List Text) (s : State) : State :=
  match arguments, arguments.find? fun t => (milliseconds? t).isNone with
  | [], _ => failHelped s "sleep".toList "missing operand" 1
  | _, some t =>
    failHelped s "sleep".toList ("invalid time interval '" ++ Text.string t ++ "'") 1
  | ts, none => (s.sleep ((ts.filterMap milliseconds?).foldl (· + ·) 0)).withStatus 0

/-- Writes the variables that programs get, or some of them. -/
def printenv (arguments : List Text) (s : State) : State :=
  match arguments with
  | [] =>
    (s.put (s.exported.entries.flatMap fun e =>
      e.1.toList ++ '=' :: e.2.value ++ ['\n'])).withStatus 0
  | names =>
    names.foldl (fun s name =>
      match s.exported.find? (String.ofList name) with
      | some v => s.put (v.value ++ ['\n'])
      | none => s.withStatus 1) (s.withStatus 0)

/-- The value of an operator on two texts. -/
def expressionValue? (a op b : Text) : Option Text :=
  let numbers := (Text.integer? a).bind fun x => (Text.integer? b).map fun y => (x, y)
  let truth (holds : Bool) : Text := if holds then ['1'] else ['0']
  match String.ofList op, numbers with
  | "+", some (x, y) => some (Text.ofInt (x + y))
  | "-", some (x, y) => some (Text.ofInt (x - y))
  | "*", some (x, y) => some (Text.ofInt (x * y))
  | "/", some (x, y) => if y = 0 then none else some (Text.ofInt (x.tdiv y))
  | "%", some (x, y) => if y = 0 then none else some (Text.ofInt (x.tmod y))
  | "=", some (x, y) => some (truth (x == y))
  | "!=", some (x, y) => some (truth (x != y))
  | "<", some (x, y) => some (truth (x < y))
  | "<=", some (x, y) => some (truth (x ≤ y))
  | ">", some (x, y) => some (truth (x > y))
  | ">=", some (x, y) => some (truth (x ≥ y))
  | "=", none => some (truth (a == b))
  | "!=", none => some (truth (a != b))
  | _, _ => none

/-- Writes the value of an operator on two texts. -/
def expr (arguments : List Text) (s : State) : State :=
  match arguments with
  | [a, op, b] =>
    match expressionValue? a op b with
    | some t => (s.put (t ++ ['\n'])).withStatus (if t = ['0'] then 1 else 0)
    | none => (fail s "expr".toList "syntax error").withStatus 2
  | [a] => (s.put (a ++ ['\n'])).withStatus (if a = ['0'] ∨ a = [] then 1 else 0)
  | _ => failHelped s "expr".toList "missing operand" 2

/-- Writes the working directory. -/
def pwd (s : State) : State :=
  putAs "pwd" (Text.ofBytes s.cwd.path.bytes ++ ['\n']) s

/-- Tests a condition. -/
def test (name : Text) (arguments : List Text) (s : State) : State :=
  match Condition.holds s arguments with
  | .ok true => s.withStatus 0
  | .ok false => s.withStatus 1
  | .error e => (s.reportAs (Text.string name) e).withStatus 2

/-- Tests a condition in brackets. -/
def bracketTest (arguments : List Text) (s : State) : State :=
  if arguments.getLast? = some [']'] then test ['['] arguments.dropLast s
  else (s.reportAs "[" "missing ]").withStatus 2

/-- The utilities that stand as programs and what they do. -/
def program? (name : String) : Option (List Text → State → State) :=
  match name with
  | "true" => some fun _ s => s.withStatus 0
  | "false" => some fun _ s => s.withStatus 1
  | "echo" => some echoProgram
  | "printf" => some printf
  | "seq" => some seq
  | "yes" => some yes
  | "cat" => some cat
  | "tee" => some tee
  | "head" => some head
  | "tail" => some tail
  | "wc" => some wc
  | "tr" => some tr
  | "touch" => some touch
  | "mkdir" => some mkdir
  | "rm" => some rm
  | "rmdir" => some rmdir
  | "cp" => some (transfer "cp".toList false)
  | "mv" => some (transfer "mv".toList true)
  | "ln" => some ln
  | "readlink" => some readlink
  | "realpath" => some fun ts s => readlink (['-', 'f'] :: ts) s
  | "ls" => some ls
  | "basename" => some basename
  | "dirname" => some dirname
  | "sleep" => some sleep
  | "expr" => some expr
  | "printenv" => some printenv
  | "pwd" => some fun _ s => pwd s
  | "test" => some (test "test".toList)
  | "[" => some bracketTest
  | "chmod" => some fun _ s => s.withStatus 0
  | "sync" => some fun _ s => s.withStatus 0
  | _ => none

/-- The utilities that a shell has of its own. -/
def builtin? (name : String) : Option (List Text → State → State) :=
  match name with
  | ":" => some fun _ s => s.withStatus 0
  | "true" => program? name
  | "false" => program? name
  | "echo" => some echo
  | "printf" => program? name
  | "pwd" => program? name
  | "test" => program? name
  | "[" => program? name
  | _ => none

end CoverRun.Shell.Utility

import CoverRun.Path

/-!
# Names of shadow files

The shadow of `Foo.sol` is `.Foo.cover.sol` in the same directory. `namePath` makes the name and
`isShadow` recognises it, if it is UTF-8.
-/

namespace CoverRun.Shadow

/-- What stands between stem and extension of a shadow's name, with the dot before it. -/
def marker : Bytes := dot :: Utf8.encode "cover"

/-- The name of the shadow of a file name. -/
def nameBytes (name : Bytes) : Bytes :=
  let (stem, ext) := Path.cutName name
  dot :: stem ++ marker ++
    match ext with
    | some e => dot :: e
    | none => []

/-- The path of the shadow of a file. -/
def namePath (p : Path) : Path :=
  let name : Path := ⟨nameBytes (p.fileName?.getD "").bytes⟩
  match p.parent? with
  | some parent => parent.join name
  | none => name

/-- Whether bytes end with the marker and have more before it. -/
def endsMarked (bytes : Bytes) : Bool :=
  marker.isSuffixOf bytes && marker.length < bytes.length

/-- Whether a file name after its first dot is marked, before its last dot or at its end. If the
marker stands before the last dot, only that place counts. -/
def isMarked (rest : Bytes) : Bool :=
  match rest.reverse.dropWhile (· != dot) with
  | _dot :: before =>
    if marker.isSuffixOf before.reverse then marker.length < before.length
    else endsMarked rest
  | [] => endsMarked rest

/-- Whether a file name begins with a dot and is marked after it. -/
def isMarkedName (name : Bytes) : Bool :=
  match name with
  | first :: rest => first == dot && isMarked rest
  | [] => false

/-- Whether a path leads to a shadow by its name. No name that is not UTF-8 is one. -/
def isShadow (p : Path) : Bool :=
  match p.fileName? with
  | some name => name.isText && isMarkedName name.bytes
  | none => false

end CoverRun.Shadow

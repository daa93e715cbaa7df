import FlowLoops.Text.Utf8

/-!
Files and directories under a working directory, and what paths lead to. A path is walked name by
name, and what it passes through has to be a directory, also where a slash ends it.
-/

namespace FlowLoops

structure Path where
  bytes : List UInt8
deriving DecidableEq, Repr

namespace Path

def ofString (s : String) : Path := ⟨Text.toBytes s⟩

def display (p : Path) : String := Text.ofBytesLossy p.bytes

def names (p : Path) : List (List UInt8) := p.bytes.splitOn 0x2F

end Path

inductive FileError where
  | notFound | notDirectory | isDirectory | notText
  /-- any other reason, in its own words -/
  | other (text : String)
deriving DecidableEq, Repr

def FileError.text : FileError → String
  | notFound => "No such file or directory (os error 2)"
  | notDirectory => "Not a directory (os error 20)"
  | isDirectory => "Is a directory (os error 21)"
  | notText => "stream did not contain valid UTF-8"
  | other text => text

inductive Entry where
  | directory
  | file (content : List UInt8)
deriving DecidableEq, Repr

/-- A place: the names that lead to it from the working directory, innermost first. -/
abbrev Place := List (List UInt8)

structure Files where
  entries : List (Place × Entry)
deriving DecidableEq, Repr

namespace Files

def empty : Files := ⟨[]⟩

/-- What is at a place. The working directory itself is a directory. -/
def find? (f : Files) (place : Place) : Option Entry :=
  match place with
  | [] => some .directory
  | _ => f.entries.lookup place

def put (f : Files) (place : Place) (entry : Entry) : Files :=
  ⟨(place, entry) :: f.entries.filter fun e => e.1 ≠ place⟩

def walkName (f : Files) (place : Place) (name : List UInt8) : Except FileError Place :=
  match f.find? place with
  | none => .error .notFound
  | some (.file _) => .error .notDirectory
  | some .directory =>
    if name = [] ∨ name = [0x2E] then .ok place
    else if name = [0x2E, 0x2E] then .ok place.tail
    else if (f.find? (name :: place)).isSome then .ok (name :: place)
    else .error .notFound

def walk (f : Files) (names : List (List UInt8)) : Except FileError Place :=
  names.foldlM f.walkName []

def read (f : Files) (path : Path) : Except FileError (List UInt8) :=
  if path.bytes = [] then .error .notFound
  else do
    let place ← f.walk path.names
    match f.find? place with
    | some (.file content) => .ok content
    | _ => .error .isDirectory

/-- The names of a path without slashes at its end, and whether there were any. -/
def trimSlashes (names : List (List UInt8)) : List (List UInt8) × Bool :=
  let rest := names.reverse.dropWhile (· = [])
  (rest.reverse, rest.length < names.length)

/-- The place in a directory where a file of a name is written. A name that stands for a directory,
or that a slash follows, is no name of a file. -/
def targetIn (f : Files) (last : List UInt8) (slash : Bool) (parent : Place) :
    Except FileError Place :=
  match f.find? parent with
  | some .directory =>
    if slash ∨ last = [0x2E] ∨ last = [0x2E, 0x2E] then .error .isDirectory
    else match f.find? (last :: parent) with
      | some .directory => .error .isDirectory
      | _ => .ok (last :: parent)
  | some (.file _) => .error .notDirectory
  | none => .error .notFound

def target (f : Files) (path : Path) : Except FileError Place :=
  if path.bytes = [] then .error .notFound
  else
    let (names, slash) := trimSlashes path.names
    match names.reverse with
    | [] => .error .isDirectory
    | last :: parents => do f.targetIn last slash (← f.walk parents.reverse)

def write (f : Files) (path : Path) (content : List UInt8) : Except FileError Files :=
  (f.target path).map (f.put · (.file content))

def create (f : Files) (path : Path) (entry : Entry) : Files :=
  let names := path.names.filter fun n => n ≠ [] ∧ n ≠ [0x2E]
  let parents := (List.range names.length).map fun n => (names.take n).reverse
  let f := parents.foldl (fun f p => if (f.find? p).isSome then f else f.put p .directory) f
  f.put names.reverse entry

end Files

end FlowLoops

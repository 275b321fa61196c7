import SmaliReport.FileSystem.Basic

/-!
Access to a file system by paths. Links are followed, forty of them on one way at most. Reading
needs something at the end of the path; writing needs the directory above it.
-/

namespace SmaliReport

inductive FileError where
  | notFound | exists | notDirectory | isDirectory | nameTooLong | tooManyLinks | nulInName
  deriving DecidableEq

def FileError.message : FileError → String
  | .notFound => "No such file or directory (os error 2)"
  | .exists => "File exists (os error 17)"
  | .notDirectory => "Not a directory (os error 20)"
  | .isDirectory => "Is a directory (os error 21)"
  | .nameTooLong => "File name too long (os error 36)"
  | .tooManyLinks => "Too many levels of symbolic links (os error 40)"
  | .nulInName => "file name contained an unexpected NUL byte"

/-- The end of a way, and how many links the way could still have had. -/
structure Arrival where
  place : Place
  links : Nat

namespace FileSystem

/-- Goes from a place by names up to the first link to follow, and on with `onLink`, which takes the
place to start from and the names to go by. The last name may be missing; if it is a link, `through`
says whether to follow it. -/
def walk (fs : FileSystem) (through : Bool) (links : Nat)
    (onLink : Place → List Name → Except FileError Arrival) (place : Place) :
    List Name → Except FileError Arrival
  | [] => .ok ⟨place, links⟩
  | name :: rest =>
    match fs.node? place with
    | none => .error .notFound
    | some (.dir entries) =>
      if name = Path.dot then walk fs through links onLink place rest
      else if name = Path.dots then walk fs through links onLink place.dropLast rest
      else if 255 < name.length then .error .nameTooLong
      else
        match entries.lookup name with
        | none => if rest.isEmpty then .ok ⟨place ++ [name], links⟩ else .error .notFound
        | some (.link target) =>
          if rest.isEmpty && !through then .ok ⟨place ++ [name], links⟩
          else
            onLink (if Path.isAbsolute target then [] else place) (Path.steps target ++ rest)
        | some _ => walk fs through links onLink (place ++ [name]) rest
    | some _ => .error .notDirectory

/-- Goes from a place by names, through as many links as are left. -/
def follow (fs : FileSystem) (through : Bool) : (links : Nat) → Place → List Name →
    Except FileError Arrival
  | 0 => walk fs through 0 fun _ _ => .error .tooManyLinks
  | links + 1 => walk fs through (links + 1) (follow fs through links)

def locate (fs : FileSystem) (through : Bool) (path : Path) : Except FileError Arrival :=
  if 0 ∈ path then .error .nulInName
  else if path = [] then .error .notFound
  else if !Path.fits path then .error .nameTooLong
  else follow fs through 40 (if Path.isAbsolute path then [] else fs.here) (Path.steps path)

/-- What a path leads to, all links followed. -/
def find (fs : FileSystem) (path : Path) : Except FileError (Arrival × Node) := do
  let arrival ← fs.locate true path
  match fs.node? arrival.place with
  | some node => .ok (arrival, node)
  | none => .error .notFound

def has (fs : FileSystem) (path : Path) : Bool := (fs.find path).isOk

def isDir (fs : FileSystem) (path : Path) : Bool :=
  match fs.find path with
  | .ok (_, .dir _) => true
  | _ => false

/-- The absolute path without links that leads to the same place. -/
def canonical (fs : FileSystem) (path : Path) : Except FileError Path := do
  let (arrival, _) ← fs.find path
  .ok (Path.ofPlace arrival.place)

def list (fs : FileSystem) (path : Path) : Except FileError (List (Name × Node)) := do
  match ← fs.find path with
  | (_, .dir entries) => .ok entries
  | _ => .error .notDirectory

def read (fs : FileSystem) (path : Path) : Except FileError (List UInt8) := do
  match ← fs.find path with
  | (_, .file bytes) => .ok bytes
  | _ => .error .isDirectory

/-- The place for something new. -/
def free (fs : FileSystem) (path : Path) : Except FileError Place := do
  let arrival ← fs.locate false path
  if (fs.node? arrival.place).isSome then .error .exists else .ok arrival.place

def makeLink (fs : FileSystem) (path target : Path) : Except FileError FileSystem := do
  let place ← fs.free path
  .ok (fs.put place (.link target))

/-- Slashes behind the name of a new directory mean nothing. -/
def makeDir (fs : FileSystem) (path : Path) : Except FileError FileSystem := do
  let bare := (path.reverse.dropWhile (· = Path.slash)).reverse
  let place ← fs.free (if bare = [] then path else bare)
  .ok (fs.put place (.dir []))

/-- Makes a directory, if there is none. -/
def ensureDir (path : Path) : FileM FileError Unit := do
  match (← get).makeDir path with
  | .ok fs => set fs
  | .error e => unless (← get).isDir path do throw e

/-- Makes a directory and those above it that are missing. `depth` bounds the names in the path. -/
def makeDirsUpTo : (depth : Nat) → (path : Path) → FileM FileError Unit
  | 0, path => ensureDir path
  | depth + 1, path => do
    match (← get).makeDir path, Path.parent? path with
    | .error .notFound, none => throw .notFound
    | .error .notFound, some above =>
      if above ≠ [] then makeDirsUpTo depth above
      ensureDir path
    | _, _ => ensureDir path

def makeDirs (path : Path) : FileM FileError Unit :=
  if path = [] then pure () else makeDirsUpTo (Path.names path).length path

/-- Writes a file, over the one there if there is one. -/
def write (fs : FileSystem) (path : Path) (bytes : List UInt8) : Except FileError FileSystem := do
  let arrival ← fs.locate true path
  match fs.node? arrival.place with
  | some (.dir _) => .error .isDirectory
  | _ => .ok (fs.put arrival.place (.file bytes))

/-- Removes a directory with all below it; of a link only the link. -/
def removeAll (fs : FileSystem) (path : Path) : Except FileError FileSystem := do
  let arrival ← fs.locate false path
  match fs.node? arrival.place with
  | none => .error .notFound
  | some (.file _) => .error .notDirectory
  | some _ => .ok (fs.remove arrival.place)

end FileSystem

end SmaliReport

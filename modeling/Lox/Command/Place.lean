/-!
# Places in a file system

A path is walked through places: the working directory of a command, a file in it, the
directories that every system has, and two devices. Of the files in those directories nothing
is known. The working directory is taken to be one of temporary files, so it stands in
`/tmp`.
-/

namespace Lox

/-- Files that are no stored bytes. -/
inductive Device where
  /-- Always empty, whatever is written to it. -/
  | null
  /-- What is typed. -/
  | typed
  deriving DecidableEq, Repr

/-- Where a walk along a path has come to. -/
inductive Place where
  | working
  /-- A directory that every system has, by the names that lead there from the root. -/
  | system (names : List String)
  | file (name : String)
  | device (d : Device)
  deriving DecidableEq, Repr

namespace Place

/-- The directory in which all others are. -/
def root : Place := .system []

/-- Whether names can be looked up in the place. -/
def isDirectory : Place → Bool
  | working | system _ => true
  | file _ | device _ => false

/-- The directory around a directory. The root has none but itself. -/
def parent : Place → Place
  | system names => .system names.dropLast
  | _ => .system ["tmp"]

/-- The directories that every system has, besides the root. -/
def systemDirectories : List (List String) :=
  [["boot"], ["dev"], ["dev", "pts"], ["dev", "shm"], ["etc"], ["home"], ["media"], ["mnt"],
    ["opt"], ["proc"], ["proc", "self"], ["proc", "self", "fd"], ["root"], ["run"], ["srv"],
    ["sys"], ["tmp"], ["usr"], ["usr", "bin"], ["usr", "lib"], ["usr", "local"], ["usr", "sbin"],
    ["usr", "share"], ["var"], ["var", "cache"], ["var", "lib"], ["var", "log"], ["var", "tmp"]]

/-- The names that stand for a place which is found under other names, or for a device. -/
def systemLinks : List (List String × Place) :=
  [(["bin"], .system ["usr", "bin"]), (["lib"], .system ["usr", "lib"]),
    (["sbin"], .system ["usr", "sbin"]), (["var", "run"], .system ["run"]),
    (["dev", "fd"], .system ["proc", "self", "fd"]), (["dev", "null"], .device .null),
    (["dev", "stdin"], .device .typed), (["proc", "self", "fd", "0"], .device .typed),
    (["proc", "self", "cwd"], .working), (["proc", "self", "root"], root)]

/-- What a directory that every system has is known to have under a name. -/
def systemEntry? (names : List String) (name : String) : Option Place :=
  let longer := names ++ [name]
  if systemDirectories.contains longer then some (.system longer) else systemLinks.lookup longer

/-- Whether the system makes up the files in a place itself: they may have names of any
length, and nobody else can add one. -/
def isGenerated : Place → Bool
  | system names => names.head? = some "proc" || names.head? = some "sys"
  | _ => false

end Place
end Lox

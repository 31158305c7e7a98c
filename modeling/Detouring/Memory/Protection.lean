-- What may be done with the bytes of a page.

namespace Detouring

structure Protection where
  read : Bool := false
  write : Bool := false
  execute : Bool := false
deriving DecidableEq

namespace Protection

def readOnly : Protection := { read := true }

def readWrite : Protection := { read := true, write := true }

def readExecute : Protection := { read := true, execute := true }

def readWriteExecute : Protection := { read := true, write := true, execute := true }

/-- The three letters of a memory map, such as `r-x`. -/
def letters (p : Protection) : List Char :=
  [if p.read then 'r' else '-', if p.write then 'w' else '-', if p.execute then 'x' else '-']

def text (p : Protection) : String := String.ofList p.letters

end Protection

/-- What kind of memory a patch changes. -/
inductive PatchKind where
  /-- Code, which stays executable while it is written. -/
  | executable
  /-- Data that is normally not written. -/
  | readOnly
deriving DecidableEq

/-- The protection of the pages of a patch while it is written. -/
def PatchKind.writable : PatchKind → Protection
  | executable => .readWriteExecute
  | readOnly => .readWrite

end Detouring

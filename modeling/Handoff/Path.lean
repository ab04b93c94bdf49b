import Handoff.Text

/-! Paths as they are written, and the parts they stand for. -/
namespace Handoff

inductive Path.Part where
  | root
  | here
  | up
  | name (s : String)
deriving DecidableEq, Repr

/-- A path is written as pieces with slashes between them, after a leading slash or none. -/
structure Path where
  isAbsolute : Bool := false
  pieces : List String := []
deriving DecidableEq, Repr, Inhabited

namespace Path

def ofText (s : String) : Path :=
  match s.toList with
  | '/' :: rest => ⟨true, (Text.split '/' rest).map String.ofList⟩
  | cs => ⟨false, (Text.split '/' cs).map String.ofList⟩

def text (p : Path) : String := (if p.isAbsolute then "/" else "") ++ "/".intercalate p.pieces

@[simp] theorem text_ofText (s : String) : (ofText s).text = s := by
  rw [← String.toList_inj]
  unfold ofText text
  split
  · next rest h => simp [h, String.toList_intercalate, Text.intercalate_split]
  · simp [String.toList_intercalate, Text.intercalate_split]

def isBlank (piece : String) : Bool := piece == "" || piece == "."

def part? (piece : String) : Option Part :=
  if isBlank piece then none else if piece = ".." then some .up else some (.name piece)

/-- A leading slash is the root, and a leading dot is the only one that counts. -/
def parts (p : Path) : List Part :=
  match p.isAbsolute, p.pieces with
  | true, pieces => .root :: pieces.filterMap part?
  | false, "." :: rest => .here :: rest.filterMap part?
  | false, pieces => pieces.filterMap part?

/-- The same parts, written without what follows the last of them. -/
def trim (p : Path) : Path :=
  match p.isAbsolute, p.pieces with
  | false, "." :: rest => { p with pieces := "." :: Text.dropEnd isBlank rest }
  | _, pieces => { p with pieces := Text.dropEnd isBlank pieces }

/-- All parts but the last, as they are written; the empty path and the root have no parent. -/
def parent? (p : Path) : Option Path :=
  match p.parts.getLast? with
  | none | some .root => none
  | some _ => some { p.trim with pieces := p.trim.pieces.dropLast }.trim

def fileName? (p : Path) : Option String :=
  match p.parts.getLast? with
  | some (.name s) => some s
  | _ => none

def join (p : Path) (name : String) : Path := { p with pieces := p.pieces ++ [name] }

/-- No system call takes a path that holds a NUL. -/
def hasNul (p : Path) : Bool := '\x00' ∈ p.text.toList

def size (p : Path) : Nat := p.text.utf8ByteSize

end Path

end Handoff

/-! Records: the things a bridge hands over. -/
namespace Handoff

/-- Ids may repeat; the serial number tells apart the records made by one maker. -/
structure Record where
  id : UInt32
  serial : Nat := 0
deriving DecidableEq, Repr, Inhabited

/-- The content of a record is its id, least significant byte first. -/
def Record.bytes (r : Record) : List UInt8 :=
  [r.id, r.id >>> 8, r.id >>> 16, r.id >>> 24].map UInt32.toUInt8

end Handoff

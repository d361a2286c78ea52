import Ankusa.Lib.Bytes
import Ankusa.Store.Keys

set_option autoImplicit false

/-! # The envelope and its headers

The request as every layer sees it (`envelope.ex`): the fields the edge reads to verify, name,
filter and order a hook. Header names are matched without case: byte by byte while they are ASCII,
and by `String.downcase/1` from the first byte past it. What that function does with such a name is
the runtime library's business, so it is a parameter (`unicode`) of every lookup. -/

namespace Ankusa

/-- The fields of `Ankusa.Envelope` the edge decides from. -/
structure Envelope where
  sourceId : Bin
  tenantId : Option Bin
  headers : List (Bin × Bin)
  contentType : Option Bin
  body : Bin
  dedupeKey : Option Bin
  eventType : Option Bin

/-! ## Folding names -/

/-- `fold_byte/1`: an ASCII capital as its lower-case letter. -/
def foldByte (c : UInt8) : UInt8 := if 65 ≤ c ∧ c ≤ 90 then c + 32 else c

/-- `String.downcase(name, :ascii)`. -/
def downcaseAscii (name : Bin) : Bin := name.map foldByte

/-- `String.downcase/1`: past ASCII, what the library makes of it. -/
def downcase (unicode : Bin → Bin) (name : Bin) : Bin :=
  if name.all (· ≤ 127) then downcaseAscii name else unicode name

/-- What comparing a header's name with a lower-case name says. -/
inductive Folded where
  | equal | different | unicode

/-- `fold_equal/2`. -/
def foldEqual : Bin → Bin → Folded
  | [], [] => .equal
  | [], _ :: _ => .different
  | c :: key, name =>
    if 127 < c then .unicode
    else match name with
      | [] => .different
      | n :: name => if foldByte c = n then foldEqual key name else .different

/-- `same_name?/2`. -/
def sameName (unicode : Bin → Bin) (key name : Bin) : Bool :=
  match foldEqual key name with
  | .equal => true
  | .different => false
  | .unicode => downcase unicode key == name

/-- `find_header/2`: the first header of that name. -/
def findHeader (unicode : Bin → Bin) : List (Bin × Bin) → Bin → Option Bin
  | [], _ => none
  | (key, value) :: rest, name =>
    if sameName unicode key name then some value else findHeader unicode rest name

/-- `header_downcased/2`: for a name that is lower-case already. -/
def Envelope.headerDowncased (unicode : Bin → Bin) (env : Envelope) (name : Bin) : Option Bin :=
  findHeader unicode env.headers name

/-- `header/2`. -/
def Envelope.header (unicode : Bin → Bin) (env : Envelope) (name : Bin) : Option Bin :=
  findHeader unicode env.headers (downcase unicode name)

end Ankusa

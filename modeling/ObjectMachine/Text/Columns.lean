import ObjectMachine.Text.Cluster

/-! The columns a line of text fills on a terminal. Control sequences fill none: they
are read byte by byte, from an escape or a control byte to the byte that ends them. -/

namespace ObjectMachine.Text

/-- Where a byte stands in a text for a terminal. -/
inductive TerminalMode
  | ground
  | escape
  | escapeIntermediate
  /-- After the introducer of a control sequence. -/
  | controlEntry
  | controlParameter
  | controlIntermediate
  /-- After the introducer of a device string. -/
  | deviceEntry
  | deviceParameter
  | deviceIntermediate
  /-- In the data of a device string. -/
  | deviceData
  /-- In a command to the operating system. -/
  | systemCommand
  /-- In a message that a terminal passes over. -/
  | message
  deriving DecidableEq

namespace TerminalMode

/-- The data of these modes may hold any byte from 0x80 on. -/
def takesAnyByte (m : TerminalMode) : Bool := m = deviceData || m = systemCommand

/-- The mode after a byte from 0x80 on that is not data. -/
def afterHigh (b : UInt8) : TerminalMode :=
  if b == 0x90 then deviceEntry
  else if b == 0x9B then controlEntry
  else if b == 0x9D then systemCommand
  else if b == 0x98 || b == 0x9E || b == 0x9F then message
  else ground

/-- The mode after a byte from 0x20 to 0x7E. -/
def afterGraphic (m : TerminalMode) (b : UInt8) : TerminalMode :=
  match m with
  | ground => ground
  | escape =>
    if b < 0x30 then escapeIntermediate
    else if b == byte 'P' then deviceEntry
    else if b == byte '[' then controlEntry
    else if b == byte ']' then systemCommand
    else if b == byte 'X' || b == byte '^' || b == byte '_' then message
    else ground
  | escapeIntermediate => if b < 0x30 then escapeIntermediate else ground
  | controlEntry | controlParameter =>
    if b < 0x30 then controlIntermediate else if b < 0x40 then controlParameter else ground
  | controlIntermediate => if b < 0x30 then controlIntermediate else ground
  | deviceEntry | deviceParameter =>
    if b < 0x30 then deviceIntermediate else if b < 0x40 then deviceParameter else deviceData
  | deviceIntermediate => if b < 0x30 then deviceIntermediate else deviceData
  | deviceData => deviceData
  | systemCommand => systemCommand
  | message => message

/-- The mode after a byte. -/
def after (m : TerminalMode) (b : UInt8) : TerminalMode :=
  if b == 0x18 || b == 0x1A then ground
  else if b == 0x1B then if m = deviceEntry then deviceData else escape
  else if 0x80 ≤ b then
    if m.takesAnyByte && b != 0x9C then m else afterHigh b
  else if 0x20 ≤ b && b ≤ 0x7E then m.afterGraphic b
  else if m = systemCommand && b == 0x07 then ground
  else if m = deviceEntry && 0x08 ≤ b && b ≤ 0x0D then deviceData
  else m

end TerminalMode

/-- Whether a byte begins a character of several bytes. -/
def isLead (b : UInt8) : Bool := 0xC2 ≤ b && b ≤ 0xF4

/-- The columns of a text from a mode on; `skip` bytes of the cluster before are still to
pass. -/
def columnsFrom : TerminalMode → (skip : Nat) → Text → Nat
  | _, _, [] => 0
  | m, skip + 1, _ :: rest => columnsFrom m skip rest
  | m, 0, b :: rest =>
    if isLead b && !m.takesAnyByte then
      let (bytes, columns) := firstCluster (pieces (b :: rest))
      columns + columnsFrom .ground (bytes - 1) rest
    else
      let own := if m = .ground && 0x20 ≤ b && b ≤ 0x7E then 1 else 0
      own + columnsFrom (m.after b) 0 rest

/-- The columns a line fills. -/
def columns (line : Text) : Nat := columnsFrom .ground 0 line

/-- The lines of a text, filled up with blanks to the columns of the widest. -/
def padLines (lines : List Text) : List Text :=
  let widest := (lines.map columns).foldl max 0
  lines.map fun line => line ++ spaces (widest - line.columns)

end ObjectMachine.Text

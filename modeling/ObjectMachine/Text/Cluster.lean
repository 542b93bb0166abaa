import ObjectMachine.Text.Cluster.Tables
import ObjectMachine.Text.Utf8

/-! Clusters: the characters that are drawn as one, and the columns they fill. A cluster
goes on over marks, through the parts of a Hangul syllable, from one regional indicator
to a second one, and from one pictograph to the next over a joiner. -/

namespace ObjectMachine.Text

/-- How a character takes part in clusters. -/
inductive Joining
  | other
  | carriageReturn
  | lineFeed
  | control
  | extend
  | joiner
  | spacingMark
  | prepend
  | indicator
  /-- A leading consonant. -/
  | leading
  | vowel
  /-- A trailing consonant. -/
  | trailing
  /-- A syllable that a trailing consonant may close. -/
  | openSyllable
  | closedSyllable
  | pictograph
  deriving DecidableEq

def Joining.of (c : Char) : Joining :=
  let n := c.toNat
  if n = 0x0A then lineFeed
  else if n = 0x0D then carriageReturn
  else if n = 0x200D then joiner
  else if 0x20 ≤ n ∧ n < 0x7F then other
  else if 0xAC00 ≤ n ∧ n ≤ 0xD7A3 then
    if (n - 0xAC00) % 28 = 0 then openSyllable else closedSyllable
  else if inRanges [(0x1100, 0x115F), (0xA960, 0xA97C)] c then leading
  else if inRanges [(0x1160, 0x11A7), (0xD7B0, 0xD7C6)] c then vowel
  else if inRanges [(0x11A8, 0x11FF), (0xD7CB, 0xD7FB)] c then trailing
  else if inRanges [(0x1F1E6, 0x1F1FF)] c then indicator
  else if inRanges controlRanges c then control
  else if inRanges extendRanges c then extend
  else if inRanges spacingMarkRanges c then spacingMark
  else if inRanges prependRanges c then prepend
  else if inRanges pictographRanges c then pictograph
  else other

/-- What the characters of a cluster so far say about its end. -/
inductive ClusterState
  | plain
  | carriageReturn
  | control
  | prepend
  | leading
  | vowel
  | trailing
  | pictograph
  /-- A pictograph and a joiner. -/
  | joined
  | oneIndicator
  | twoIndicators
  deriving DecidableEq

namespace ClusterState

/-- The state after a first character. -/
def start : Joining → ClusterState
  | .carriageReturn => carriageReturn
  | .lineFeed | .control => control
  | .prepend => prepend
  | .leading => leading
  | .vowel | .openSyllable => vowel
  | .trailing | .closedSyllable => trailing
  | .pictograph => pictograph
  | .indicator => oneIndicator
  | .other | .extend | .joiner | .spacingMark => plain

/-- The state after one more character. -/
def after : ClusterState → Joining → ClusterState
  | pictograph, .extend => pictograph
  | pictograph, .joiner => joined
  | oneIndicator, .indicator => twoIndicators
  | _, j => start j

/-- Whether a cluster ends before a character. -/
def endsBefore : ClusterState → Joining → Bool
  | carriageReturn, .lineFeed => false
  | carriageReturn, _ | control, _ => true
  | _, .carriageReturn | _, .lineFeed | _, .control => true
  | _, .extend | _, .joiner | _, .spacingMark => false
  | prepend, _ => false
  | leading, .leading | leading, .vowel | leading, .openSyllable
  | leading, .closedSyllable => false
  | vowel, .vowel | vowel, .trailing | trailing, .trailing => false
  | joined, .pictograph => false
  | oneIndicator, .indicator => false
  | _, _ => true

end ClusterState

/-- The character a piece is drawn as: a stray byte as the replacement character. -/
def Piece.drawn : Piece → Char
  | char c => c
  | stray _ => Char.ofNat 0xFFFD

/-- The bytes of a piece. -/
def Piece.size : Piece → Nat
  | char c => c.utf8Size
  | stray _ => 1

/-- The columns of a character on its own. -/
def charColumns (c : Char) : Nat :=
  match Joining.of c with
  | .control | .carriageReturn | .lineFeed | .extend | .joiner => 0
  | .indicator => 2
  | .pictograph => if inRanges emojiRanges c then 2 else 1
  | _ =>
    if c.toNat = 0x2E3A then 3
    else if c.toNat = 0x2E3B then 4
    else if inRanges wideRanges c then 2 else 1

/-- The columns of a cluster with one more character. A pictograph follows the variation
selectors, and flags and syllables keep the columns of their first character. -/
def addColumns (first : Joining) (columns : Nat) (c : Char) : Nat :=
  match first with
  | .pictograph => if c.toNat = 0xFE0E then 1 else if c.toNat = 0xFE0F then 2 else columns
  | .indicator | .leading => columns
  | _ => columns + charColumns c

/-- The bytes and columns of a cluster, those of its characters so far given. -/
def clusterFrom (first : Joining) (state : ClusterState) (bytes columns : Nat) :
    List Piece → Nat × Nat
  | [] => (bytes, columns)
  | p :: rest =>
    let j := Joining.of p.drawn
    if state.endsBefore j then (bytes, columns)
    else clusterFrom first (state.after j) (bytes + p.size) (addColumns first columns p.drawn) rest

/-- The bytes and columns of the first cluster. -/
def firstCluster : List Piece → Nat × Nat
  | [] => (0, 0)
  | p :: rest =>
    let first := Joining.of p.drawn
    clusterFrom first (.start first) p.size (charColumns p.drawn) rest

end ObjectMachine.Text

import Smil.Text.BreakClass

/-!
# Clusters

A cluster is what a reader takes for one character. A text is cut into clusters from left to
right: whether the next code point joins the cluster depends on its class, on the class of the
code point before it, and on whether the cluster ends in an unpaired half of a flag, a joined
pictograph or a linked consonant. These are the extended grapheme clusters of Unicode.
-/

namespace Smil.Text

/-- What the end of a cluster leaves open. -/
inductive Pending where
  | nothing
  /-- Half of a flag, which the other half completes. -/
  | flag
  /-- A pictograph, perhaps with extenders, which a joiner continues. -/
  | pictograph
  /-- A pictograph with a joiner, which another pictograph continues. -/
  | joined
  /-- A consonant, perhaps with marks, which a linker continues. -/
  | consonant
  /-- A consonant with a linker, which another consonant continues. -/
  | linked
deriving DecidableEq, Repr, Inhabited

/-- What is open after one more code point. -/
def Pending.next (before : Pending) : BreakClass → Pending
  | .regional => if before = .flag then .nothing else .flag
  | .pictograph => .pictograph
  | .consonant => .consonant
  | .nonJoiner => if before = .pictograph then .pictograph else .nothing
  | .extender =>
    match before with
    | .pictograph => .pictograph
    | .consonant => .consonant
    | .linked => .linked
    | _ => .nothing
  | .linker =>
    match before with
    | .pictograph => .pictograph
    | .consonant | .linked => .linked
    | _ => .nothing
  | .joiner =>
    match before with
    | .pictograph => .joined
    | .consonant => .consonant
    | .linked => .linked
    | _ => .nothing
  | _ => .nothing

/-- The end of a cluster: its last class and what is open. -/
structure Ending where
  last : BreakClass
  pending : Pending
deriving DecidableEq, Repr, Inhabited

namespace Ending

/-- The end of a cluster of one code point. -/
def single (next : BreakClass) : Ending :=
  ⟨next, Pending.nothing.next next⟩

/-- The end of a cluster that a code point has joined. -/
def extend (e : Ending) (next : BreakClass) : Ending :=
  ⟨next, e.pending.next next⟩

/-- Whether a code point that is no line end and no control joins a cluster whose last one is
none either. -/
def attracts (e : Ending) : BreakClass → Bool
  | .extender | .linker | .nonJoiner | .joiner | .spacing => true
  | .leadingJamo | .openSyllable | .closedSyllable => e.last = .leadingJamo
  | .vowelJamo => e.last = .leadingJamo || e.last = .vowelJamo || e.last = .openSyllable
  | .trailingJamo =>
    e.last = .vowelJamo || e.last = .openSyllable || e.last = .trailingJamo ||
      e.last = .closedSyllable
  | .regional => e.pending = .flag
  | .pictograph => e.pending = .joined
  | .consonant => e.pending = .linked
  | _ => false

/-- Whether a code point joins the cluster. -/
def joins (e : Ending) (next : BreakClass) : Bool :=
  if e.last.standsAlone || next.standsAlone then
    e.last = .carriageReturn && next = .lineFeed
  else
    e.last = .prepended || e.attracts next

end Ending

/-- Cuts the characters into clusters. `cluster` is the unfinished cluster, which ends in `e`, and
`done` holds the finished ones, both in reverse. -/
def clustersFrom : List Char → Ending → List Char → List (List Char) → List (List Char)
  | [], _, cluster, done => (cluster.reverse :: done).reverse
  | c :: rest, e, cluster, done =>
    let next := BreakClass.of c
    if e.joins next then
      clustersFrom rest (e.extend next) (c :: cluster) done
    else
      clustersFrom rest (.single next) [c] (cluster.reverse :: done)

/-- The clusters of a text. -/
def clusters : List Char → List (List Char)
  | [] => []
  | c :: rest => clustersFrom rest (.single (BreakClass.of c)) [c] []

end Smil.Text

import Redline.Text.Cluster.Break

/-! # Grapheme clusters

What a reader takes for one character may be several code points: a letter and its accents, a
syllable, a flag, a family of pictographs.  `clusters` cuts a text into extended grapheme clusters
by the rules of Unicode text segmentation: it goes from left to right and cuts before a character
unless `Context.joins` holds it to what precedes.  The pieces put together are the text
(`flatten_clusters`). -/

namespace Redline.Text

/-- How far a sequence that may join its successor has come. -/
inductive Sequence where
  | none
  | begun
  | linked
deriving DecidableEq, Repr

/-- What the rules need to know of the text before a place. -/
structure Context where
  /-- The class of the last character, if there is one. -/
  last : Option BreakClass
  /-- A pictograph with what extends it, and then a joiner. -/
  pictograph : Sequence
  /-- A consonant, and then linking signs among what extends it. -/
  conjunct : Sequence
  /-- Whether an odd number of regional indicators stands there. -/
  halfFlag : Bool

namespace Context

def start : Context := ⟨none, .none, .none, false⟩

def nextPictograph (s : Sequence) (k : BreakClass) : Sequence :=
  match s, k with
  | _, .pictograph => .begun
  | .begun, .extend => .begun
  | .begun, .joiner => .linked
  | _, _ => .none

/-- The zero width non-joiner is the one extending character that keeps consonants apart. -/
def nextConjunct (s : Sequence) (c : Char) (k : BreakClass) : Sequence :=
  if isConsonant c then .begun
  else if s = .none then .none
  else if isLinker c then .linked
  else if (k = .extend || k = .joiner) && c.toNat != 0x200C then s
  else .none

def push (x : Context) (c : Char) : Context :=
  let k := breakClass c
  ⟨some k, nextPictograph x.pictograph k, nextConjunct x.conjunct c k,
    k = .indicator && !x.halfFlag⟩

/-- Whether no cut is made between characters of these classes, wherever they stand. -/
def classesJoin : BreakClass → BreakClass → Bool
  | .carriageReturn, .lineFeed => true
  | .carriageReturn, _ | .lineFeed, _ | .control, _ => false
  | _, .carriageReturn | _, .lineFeed | _, .control => false
  | _, .extend | _, .joiner | _, .spacing => true
  | .prepend, _ => true
  | .leading, .leading | .leading, .vowel | .leading, .openSyllable | .leading, .closedSyllable =>
      true
  | .openSyllable, .vowel | .openSyllable, .trailing | .vowel, .vowel | .vowel, .trailing => true
  | .closedSyllable, .trailing | .trailing, .trailing => true
  | _, _ => false

/-- Whether `c` belongs to the cluster before it. -/
def joins (x : Context) (c : Char) : Bool :=
  let k := breakClass c
  match x.last with
  | none => false
  | some last =>
      classesJoin last k || (k = .pictograph && x.pictograph = .linked) ||
        (isConsonant c && x.conjunct = .linked) || (k = .indicator && x.halfFlag)

end Context

/-- What belongs to the cluster before the text, and the clusters behind that. -/
def clustersAfter (x : Context) : List Char → List Char × List (List Char)
  | [] => ([], [])
  | c :: cs =>
      let (more, later) := clustersAfter (x.push c) cs
      if x.joins c then (c :: more, later) else ([], (c :: more) :: later)

def clusters (s : List Char) : List (List Char) := (clustersAfter .start s).2

theorem flatten_clustersAfter (x : Context) (s : List Char) :
    (clustersAfter x s).1 ++ (clustersAfter x s).2.flatten = s := by
  induction s generalizing x with
  | nil => rfl
  | cons c cs ih =>
      have := ih (x.push c)
      by_cases h : x.joins c <;> simpa [clustersAfter, h] using this

theorem flatten_clusters (s : List Char) : (clusters s).flatten = s := by
  have h := flatten_clustersAfter .start s
  cases s with
  | nil => rfl
  | cons c cs => simpa [clusters, clustersAfter, Context.joins, Context.start] using h

end Redline.Text

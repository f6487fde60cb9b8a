import SinkReach.ModelSearch.Facts

/-!
Candidate values of constants. A pinned constant, a boolean and a narrow interval have complete domains,
in which every value they can take is listed; any other domain is a sample around the literals of the
formula and the bounds of the sort.
-/
namespace SinkReach.ModelSearch

/-- An interval of fewer integers is listed completely. -/
def completeSpan : Int := 256

/-- Number of candidates at which a sample ends. -/
def sampleSize : Nat := 48

/-- Number of defaults tried for an array. -/
def arrayDefaults : Nat := 4

/-- Literals of a formula in the order of its traversal: integers, and doubles that are not NaN. -/
structure Literals where
  ints : List Int
  doubles : List Nat

namespace Literals

def add (ls : Literals) (t : Term) : Literals :=
  match t with
  | .leaf _ (.bitVec bits width) =>
    let n := Bits.toInt bits width
    if ls.ints.contains n then ls else { ls with ints := ls.ints ++ [n] }
  | .leaf _ (.float _ _) =>
    match (literal? t).bind Value.toDouble? with
    | some x =>
      if Precision.double.isNaN x || ls.doubles.any (Precision.double.eq x) then ls
      else { ls with doubles := ls.doubles ++ [x] }
    | none => ls
  | _ => ls

def ofConjuncts (conjuncts : List Term) : Literals := (Term.nodes conjuncts).foldl add ⟨[], []⟩

end Literals

/-- The first `size` different items that pass the test. -/
def sample (same : α → α → Bool) (keep : α → Bool) (size : Nat) (items : List α) : List α :=
  go [] items
where
  /-- Goes on from the items taken so far, the latest first. -/
  go (taken : List α) : List α → List α
    | [] => taken.reverse
    | a :: rest =>
      let taken := if keep a && !taken.any (same a) then a :: taken else taken
      if size ≤ taken.length then taken.reverse else go taken rest

/-- All integers from `lo` to `hi`. -/
def span (lo hi : Int) : List Int := (List.range (hi - lo + 1).toNat).map fun (k : Nat) => lo + k

/-- Candidates for a bit vector with signed value between `lo` and `hi`, and whether they are all. -/
def bitsCandidates (width : Nat) (lo hi : Int) (ls : Literals) : List Value × Bool :=
  if hi - lo < completeSpan then ((span lo hi).map fun n => .ofInt n width, true)
  else
    let (least, greatest) := signedRange width
    let raw := [0, 1, -1] ++ ls.ints.flatMap (fun n => [n, n + 1, n - 1]) ++
      [lo, hi, lo + 1, hi - 1, least, greatest]
    ((sample (· == ·) (fun n => lo ≤ n && n ≤ hi) sampleSize raw).map fun n => .ofInt n width, false)

/-- Candidates for a double. -/
def doubleCandidates (ls : Literals) : List Nat :=
  let d := Precision.double
  let one := d.ofInt 1
  let raw := [0, one, d.ofInt (-1)] ++ ls.doubles.flatMap (fun x => [x, d.add x one, d.sub x one]) ++
    ls.ints.map d.ofInt ++ [d.div one (d.ofInt 2), d.infinity, d.neg d.infinity, d.positiveNaN]
  sample (fun x y => x == y || (d.isNaN x && d.isNaN y)) (fun _ => true) sampleSize raw

/-- Candidates for a float; formats without values get doubles. -/
def floatCandidates (format : FloatFormat) (ls : Literals) : List Value :=
  (doubleCandidates ls).map fun x =>
    if format = .single then .float .single (Precision.double.convert .single x)
    else .float .double x

/-- Candidates for an element of an array. -/
def elementCandidates (ls : Literals) : TermSort → List Value
  | .bool => [.bool false, .bool true]
  | .bitVec width => (bitsCandidates width (signedRange width).1 (signedRange width).2 ls).1
  | .float format => floatCandidates format ls
  | .array _ element =>
    ((elementCandidates ls element).take arrayDefaults).map fun d => .array (.const d)

structure Domain where
  name : String
  values : List Value
  complete : Bool

/-- Candidates for a constant of a sort before exclusions, and whether they are all. -/
def candidates (f : Facts) (ls : Literals) (name : String) : TermSort → List Value × Bool
  | .bool => ([.bool false, .bool true], true)
  | .bitVec width =>
    let (lo, hi) := (f.intervals.get? name).getD (signedRange width)
    bitsCandidates width lo hi ls
  | .float format => (floatCandidates format ls, false)
  | .array _ element =>
    let known := (f.elements.get? name).getD []
    (((elementCandidates ls element).take arrayDefaults).map fun d =>
      .array (known.foldl (fun a e => .store a e.1 e.2) (.const d)), false)

def Domain.ofFacts (f : Facts) (ls : Literals) (name : String) (sort : TermSort) : Domain :=
  match f.pins.get? name with
  | some v => ⟨name, [v], true⟩
  | none =>
    let (values, complete) := candidates f ls name sort
    ⟨name, values.filter fun v => !f.isExcluded name v, complete⟩

end SinkReach.ModelSearch

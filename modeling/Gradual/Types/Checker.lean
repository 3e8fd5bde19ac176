import Gradual.Text.Quoted
import Gradual.Types.Graph

/-!
Structural subtyping and equality of types.

Types may be cyclic, so a pair that is met again while it is being checked counts as related: every
pair is assumed as a hypothesis before its parts are compared. The number of hypotheses held at once
is bounded, and a check that needs more ends in an overflow. An oracle may answer a pair before it
is compared.
-/
namespace Gradual

inductive Variance where
  | covariant | contravariant
  deriving DecidableEq, Repr

namespace Variance

def name : Variance → String
  | covariant => "covariant"
  | contravariant => "contravariant"

/-- The empty text selects the default. -/
def ofName? (text : String) : Option Variance :=
  if text = "" ∨ text = "covariant" then some covariant
  else if text = "contravariant" then some contravariant
  else none

def unknownMessage (text : String) : String :=
  "types: unknown argument variance " ++ Text.quoted text

/-- Numbers other than one read as covariant. -/
def ofCode (code : Nat) : Variance := if code = 1 then contravariant else covariant

def code : Variance → Nat
  | covariant => 0
  | contravariant => 1

end Variance

inductive Relation where
  | subtype | equal
  deriving DecidableEq, Repr

namespace Relation

def name : Relation → String
  | subtype => "sub"
  | equal => "eq"

def code : Relation → Nat
  | subtype => 1
  | equal => 2

/-- Numbers other than two read as subtyping. -/
def ofCode (code : Nat) : Relation := if code = 2 then equal else subtype

end Relation

inductive CheckError where
  /-- More hypotheses were needed than the checker may hold. -/
  | overflow
  /-- A type was missing on one side of the relation. -/
  | missing (rel : Relation)
  deriving DecidableEq, Repr

def CheckError.message : CheckError → String
  | overflow => "types: hypothesis depth exceeded"
  | missing .subtype => "types.Checker.Subtype: nil tag"
  | missing .equal => "types.Checker.Equal: nil tag"

/-- The outcome of a check, with the number of pairs the oracle answered on the way. -/
structure Trial where
  result : Except CheckError Bool
  hits : Nat

namespace Trial

def yes : Trial := ⟨.ok true, 0⟩
def no : Trial := ⟨.ok false, 0⟩
def known (answer : Bool) : Trial := ⟨.ok answer, 0⟩
def fail (e : CheckError) : Trial := ⟨.error e, 0⟩

/-- An answer taken from the oracle. -/
def told (answer : Bool) : Trial := ⟨.ok answer, 1⟩

/-- Goes on only after a yes. -/
def and (t : Trial) (next : Unit → Trial) : Trial :=
  match t.result with
  | .ok true => let u := next (); ⟨u.result, t.hits + u.hits⟩
  | _ => t

def all (f : α → Trial) : List α → Trial
  | [] => yes
  | x :: xs => (f x).and fun _ => all f xs

/-- Compares two lists of one length place by place. -/
def pairwise (f : α → β → Trial) : List α → List β → Trial
  | x :: xs, y :: ys => (f x y).and fun _ => pairwise f xs ys
  | _, _ => yes

end Trial

structure Hypothesis where
  rel : Relation
  left : TypeId
  right : TypeId
  deriving DecidableEq, Repr

abbrev Oracle := Relation → TypeId → TypeId → Option Bool

def Oracle.silent : Oracle := fun _ _ _ => none

structure Checker where
  maxDepth : Int
  variance : Variance
  oracle : Oracle

/-- Prototype types may both be missing. -/
def equalPrototypes (equal : Child → Child → Trial) (a b : Child) : Trial :=
  if a.isNone || b.isNone then Trial.known (a = b) else equal a b

/-- Equality of two nodes, given equality of their parts. -/
def Node.equalParts (equal : Child → Child → Trial) : Node → Node → Trial
  | .closure x, .closure y =>
    if x.code ≠ y.code ∨ x.args.length ≠ y.args.length then Trial.no
    else
      (if x.code = .constructor then equalPrototypes equal x.proto y.proto else Trial.yes).and fun _ =>
      (equal x.ret y.ret).and fun _ => Trial.pairwise equal x.args y.args
  | .object ps, .object qs =>
    if ps.length ≠ qs.length then Trial.no
    else Trial.all (fun p =>
      match Property.find? qs p.id with
      | none => Trial.no
      | some q => if q.readOnly ≠ p.readOnly then Trial.no else equal p.type q.type) ps
  | .array a, .array b | .map a, .map b => equal a b
  | _, _ => Trial.no

/-- A function may stand in for a method: the receiver is never passed to it. -/
def Signature.promotes (sub sup : Signature) : Bool := sub.code = .function && sup.code = .method

/-- Whether two signatures can be related at all; `some` extra arguments of the larger one are
skipped when a function stands in for a method. -/
def Signature.fits (sub sup : Signature) : Bool :=
  (sub.code = sup.code && sub.args.length = sup.args.length) ||
    (sub.promotes sup && sub.args.length + 1 = sup.args.length)

/-- The verdict that needs no look at the parts. -/
def Node.subtypeAtOnce? : Node → Node → Option Bool
  | .closure s, .closure t => if s.fits t then none else some false
  | .object _, .object _ | .array _, .array _ | .map _, .map _ => none
  | .prim .int, .prim q => some (q = .int || q = .float)
  | .prim p, .prim q => some (p = q)
  | _, _ => some false

/-- Subtyping of two nodes, given both relations on their parts. Objects may have more properties
than asked for, each of an equal type; elements are invariant. -/
def Node.subtypeParts (variance : Variance) (equal subtype : Child → Child → Trial) :
    Node → Node → Trial
  | .closure s, .closure t =>
    let wanted := if s.promotes t then t.args.drop 1 else t.args
    let argument := match variance with
      | .covariant => subtype
      | .contravariant => fun x y => subtype y x
    (subtype s.ret t.ret).and fun _ =>
    (Trial.pairwise argument s.args wanted).and fun _ =>
      if s.code = .constructor then equalPrototypes equal s.proto t.proto else Trial.yes
  | .object ps, .object qs =>
    Trial.all (fun q =>
      match Property.find? ps q.id with
      | none => Trial.no
      | some p => equal p.type q.type) qs
  | .array a, .array b | .map a, .map b => equal a b
  | _, _ => Trial.no

namespace Checker

/-- What is known of an equality before it is assumed. -/
def equalAtOnce? (c : Checker) (g : Graph) (seen : List Hypothesis) (a b : TypeId) : Option Trial :=
  if a = b ∨ ⟨.equal, a, b⟩ ∈ seen ∨ ⟨.equal, b, a⟩ ∈ seen then some Trial.yes
  else if (g.node a).kindCode ≠ (g.node b).kindCode then some Trial.no
  else if (g.node a).isPrim then some Trial.yes
  else (c.oracle .equal a b).map Trial.told

/-- Equality with at most `budget` further hypotheses. -/
def equalWithin (c : Checker) (g : Graph) : Nat → List Hypothesis → Child → Child → Trial
  | budget, seen, some a, some b =>
    match c.equalAtOnce? g seen a b with
    | some t => t
    | none =>
      match budget with
      | 0 => Trial.fail .overflow
      | rest + 1 =>
        (g.node a).equalParts (c.equalWithin g rest (⟨.equal, a, b⟩ :: seen)) (g.node b)
  | _, _, _, _ => Trial.fail (.missing .equal)

/-- What is known of a subtyping before it is assumed. -/
def subtypeAtOnce? (c : Checker) (g : Graph) (seen : List Hypothesis) (a b : TypeId) :
    Option Trial :=
  if a = b ∨ ⟨.subtype, a, b⟩ ∈ seen then some Trial.yes
  else match c.oracle .subtype a b with
    | some answer => some (Trial.told answer)
    | none => ((g.node a).subtypeAtOnce? (g.node b)).map Trial.known

/-- Subtyping with at most `budget` further hypotheses. -/
def subtypeWithin (c : Checker) (g : Graph) : Nat → List Hypothesis → Child → Child → Trial
  | budget, seen, some a, some b =>
    match c.subtypeAtOnce? g seen a b with
    | some t => t
    | none =>
      match budget with
      | 0 => Trial.fail .overflow
      | rest + 1 =>
        let assumed := ⟨.subtype, a, b⟩ :: seen
        (g.node a).subtypeParts c.variance (c.equalWithin g rest assumed)
          (c.subtypeWithin g rest assumed) (g.node b)
  | _, _, _, _ => Trial.fail (.missing .subtype)

def equal (c : Checker) (g : Graph) (a b : Child) : Trial :=
  c.equalWithin g c.maxDepth.toNat [] a b

def subtype (c : Checker) (g : Graph) (a b : Child) : Trial :=
  c.subtypeWithin g c.maxDepth.toNat [] a b

def decide (c : Checker) (g : Graph) : Relation → Child → Child → Trial
  | .subtype => c.subtype g
  | .equal => c.equal g

end Checker

end Gradual

import CodeShape.Capture
import CodeShape.Constraint.Basic
import CodeShape.Equivalence
import CodeShape.Search

/-!
Matching lists of nodes. How one node is matched is a parameter here, so everything in this module
holds for any way of matching nodes.
-/
namespace CodeShape

/-- What a search is subject to. -/
structure Conditions where
  constraints : List Constraint
  /-- Without rules, different ways of writing are different. -/
  rules : Option Rules
  /-- Each statement of a pattern takes the first place where it fits, and no later one. -/
  orderMatters : Bool

/-- Ways to extend the bindings, with the questions asked to conditions meanwhile. -/
abbrev Matching := Search Inquiry Branch

/-- A way of matching one node of a pattern with a place in a program. -/
abbrev NodeMatcher := (pattern : Node) → (candidate : Site) → Branch → Matching

namespace Conditions

variable (conditions : Conditions)

/-- Whether two values of one name agree. A statement that is just an expression agrees with the
expression. -/
def agree (old new : Binding) : Bool :=
  let bare : Node → Node
    | .expr e => e
    | n => n
  let as := old.sites.map (bare ·.node)
  let bs := new.sites.map (bare ·.node)
  as.length == bs.length &&
    (as.zip bs).all fun (a, b) => Node.equivalent conditions.rules a b

/-- Binds a wildcard. A name that is bound already has to be bound to the same; a new one has to
meet the conditions that can be asked now. -/
def bind (w : Wildcard) (value : Binding) (b : Branch) : Matching :=
  match w.name with
  | none => .one { b with anonymous := b.anonymous ++ [value] }
  | some name =>
    match b.find? name with
    | some old => if conditions.agree old value then .one b else .done
    | none =>
      let b := { b with named := b.named ++ [(name, value)] }
      let (asked, verdict) :=
        Constraint.check (fun v => (b.find? v).map Binding.capture) name conditions.constraints
      .after asked (if verdict = .pass then .one b else .done)

/-- Whether a declaration may be matched with two statements. -/
def splitsDeclarations : Bool := conditions.rules.any Rules.declarationSplit

end Conditions

/-- A place in a statement list, with what follows it there. -/
structure Spot where
  site : Site
  following : List Site
deriving Repr

namespace Spot

def ofList : List Site → List Spot
  | [] => []
  | s :: rest => ⟨s, rest⟩ :: ofList rest

/-- Every place of a list in order; each is followed by the places in the statement lists below it,
down to the given depth. -/
def within : (depth : Nat) → List Site → List Spot
  | 0, sites => ofList sites
  | depth + 1, sites =>
    (ofList sites).flatMap fun spot => spot :: spot.site.nestedLists.flatMap (within depth)

end Spot

/-- How many elements of the pattern, beyond the first, and how many of the program, beyond the
first, a match took, and the bindings after it. -/
structure Taken where
  patterns : Nat
  candidates : Nat
  branch : Branch

/-- Matching lists of nodes by a way of matching nodes. Statement lists are searched down to
`depth`. -/
structure ListMatcher where
  conditions : Conditions
  node : NodeMatcher
  depth : Nat

namespace ListMatcher

variable (m : ListMatcher)

/-- Element by element from the front. A glob takes the shortest run with which the rest matches; at
the end it takes everything. -/
def fixed : (patterns : List Node) → (candidates : List Site) → Branch → Matching
  | [], _, b => .one b
  | p :: ps, cs, b =>
    match p.glob? with
    | some w =>
      if ps.isEmpty then m.conditions.bind w (.many cs) b
      else
        .firstOf (fun j =>
          (m.conditions.bind w (.many (cs.take j)) b).andThen fun b => fixed ps (cs.drop j) b)
          (List.range (cs.length + 1))
    | none =>
      match cs with
      | [] => .done
      | c :: cs => (m.node p c b).andThen fun b => fixed ps cs b

/-- The first element of a pattern list at one spot. In statement lists a declaration with a value
may take a declaration and an assignment, and a declaration and an assignment may take a declaration
with a value. -/
def atSpot (dive : Bool) (p : Node) (ps : List Node) (spot : Spot) (b : Branch) :
    Search Inquiry Taken :=
  let b := b.anchor (some spot.site)
  ((m.node p spot.site b).andThen fun b => .one ⟨0, 0, b⟩).orElse fun _ =>
    if !dive || !m.conditions.splitsDeclarations then .done
    else
      let split : Search Inquiry Taken := match p.splitDeclaration?, spot.following with
        | some (declared, assigned), next :: _ =>
          (m.node declared spot.site b).andThen fun b =>
            (m.node assigned next b).andThen fun b => .one ⟨0, 1, b⟩
        | _, _ => .done
      split.orElse fun _ =>
        match ps.head?.bind p.mergeDeclaration? with
        | some merged => (m.node merged spot.site b).andThen fun b => .one ⟨1, 0, b⟩
        | none => .done

/-- The elements of the pattern in order, with anything between them. With `dive`, they may be in
statement lists below the ones reached so far; after an element the search stays in its list and
below. A glob takes a run of neighbours, after which the next element has to come at once. -/
def scan (dive : Bool) (patterns : List Node) (candidates : List Site) (b : Branch) : Matching :=
  match patterns with
  | [] => .one b
  | p :: ps =>
    match p.glob?, ps with
    | none, ps =>
      let spots := Spot.within (if dive then m.depth else 0) candidates
      let probe (spot : Spot) : Search Inquiry Taken := m.atSpot dive p ps spot b
      let run (spot : Spot) : Matching := (probe spot).andThen fun t =>
        scan dive (ps.drop t.patterns) (spot.following.drop t.candidates) t.branch
      if m.conditions.orderMatters then .committed probe run spots else .firstOf run spots
    | some w, [] => m.conditions.bind w (.many candidates) (b.anchor candidates.head?)
    | some w, q :: qs =>
      .firstOf (fun (spot, j) =>
        let b := if j = 0 then b else b.anchor candidates.head?
        (m.conditions.bind w (.many (candidates.take j)) b).andThen fun b =>
          (m.atSpot dive q qs spot b).andThen fun t =>
            scan dive (qs.drop t.patterns) (spot.following.drop t.candidates) t.branch)
        (Spot.ofList candidates).zipIdx
termination_by patterns.length
decreasing_by all_goals grind

end ListMatcher

end CodeShape

import CodeShape.Match.Sequence

/-!
Matching a node of a pattern with a place in a program. The slots of the two are paired up, and what
is left to do for each pair is done from left to right. A match only ever goes down in the program,
so the recursion is bounded by the height of the candidate, however the rules enlarge the pattern.
-/
namespace CodeShape

/-- What is left to do for a pair of slots. -/
inductive Duty where
  /-- The pattern has to match the candidate itself. -/
  | exact (pattern : Node) (candidate : Site)
  /-- The pattern has to match the candidate or something below it. -/
  | below (pattern : Node) (candidate : Site)
  | list (pairing : Pairing) (patterns : List Node) (candidates : List Site)
deriving Repr

namespace Duty

/-- The statements that a statement of a pattern stands for. -/
def statements : Node → List Node
  | .block body => body
  | n => [n]

/-- The duty for one pair of slots. Nothing is to be done for a part that the pattern leaves out;
nothing can be done for a part that only the pattern has. -/
def ofSlots? (wholeOnly : Bool) : Field Node → Field Site → Option (List Duty)
  | .one p, .one c | .opt (some p), .opt (some c) =>
    some [if wholeOnly then exact p c else below p c]
  | .stmt (some p), .stmt (some c) => some [list .statements (statements p) c.statements]
  | .seq pairing ps, .seq _ cs => some [list pairing ps cs]
  | .opt none, _ | .stmt none, _ => some []
  | _, _ => none

/-- The duties for two nodes of one shape. The expression of a statement has to be matched as a
whole. -/
def ofNodes? (pattern : Node) (candidate : Site) : Option (List Duty) :=
  let wholeOnly := match pattern with
    | .expr _ => true
    | _ => false
  List.flatten <$>
    (pattern.fields.zip candidate.fields).mapM fun (p, c) => ofSlots? wholeOnly p c

end Duty

namespace ListMatcher

variable (m : ListMatcher)

/-- Whether the pattern may also be found below a candidate. Wildcards, leaves and blocks are only
found at the candidate itself. -/
def seeksBelow (pattern : Node) : Bool :=
  match pattern with
  | .block _ => false
  | _ => !pattern.children.isEmpty

def perform : Duty → Branch → Matching
  | .exact p c, b => m.node p c b
  | .below p c, b =>
    (m.node p c b).orElse fun _ =>
      if seeksBelow p then .firstOf (fun d => m.node p d b) c.descendants.tail else .done
  | .list .fixed ps cs, b => m.fixed ps cs b
  | .list .ordered ps cs, b => m.scan false ps cs b
  | .list .statements ps cs, b => m.scan true ps cs b

def performAll : List Duty → Branch → Matching
  | [], b => .one b
  | duty :: duties, b => (m.perform duty b).andThen (performAll duties)

/-- The ways to match two nodes in the form that the pattern has. -/
def sameForm (pattern : Node) (candidate : Site) (b : Branch) : Matching :=
  if pattern.sameShape candidate.node then
    match Duty.ofNodes? pattern candidate with
    | some duties => m.performAll duties b
    | none => .done
  else .done

end ListMatcher

namespace Conditions

variable (conditions : Conditions)

/-- The forms of a pattern that the rules allow for a candidate, its own first. -/
def forms (pattern candidate : Node) : List Node :=
  pattern :: match conditions.rules with
    | some rules => pattern.alternatives rules candidate
    | none => []

/-- The ways to match a node with a candidate of at most the given height. -/
def nodeAt : (height : Nat) → NodeMatcher
  | 0, _, _, _ => .done
  | height + 1, p, c, b =>
    match p with
    | .wildcard ⟨name, .scalar⟩ => conditions.bind ⟨name, .scalar⟩ (.one c) b
    | .wildcard ⟨name, .glob⟩ => conditions.bind ⟨name, .glob⟩ (.many [c]) b
    | .hole => .one b
    | _ =>
      .firstOf (fun form => ListMatcher.sameForm ⟨conditions, nodeAt height, height⟩ form c b)
        (conditions.forms p c.node)

def node : NodeMatcher := fun p c b => conditions.nodeAt c.node.height p c b

/-- The ways to find statements, in order and perhaps nested, in a list of statements. -/
def body (patterns : List Node) (candidates : List Site) (b : Branch) : Matching :=
  let height := (candidates.map (·.node.height)).foldl max 0
  ListMatcher.scan ⟨conditions, conditions.nodeAt height, height⟩ true patterns candidates b

end Conditions

end CodeShape

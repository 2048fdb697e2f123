import CodeShape.Proofs.Folding
import CodeShape.Proofs.Records

/-! Clutter does no harm. A way through a search is followed in a program with further statements:
every choice is still there, and names meet what they met before, so the search still succeeds as
long as nothing is put into what names stand for. -/
namespace CodeShape

namespace Field

def isStatements {α : Type} : Field α → Bool
  | .stmt _ | .seq .statements _ => true
  | _ => false

end Field

namespace Node

/-- No glob stands in a statement list or for a statement of its own. -/
def NoRuns (p : Node) : Prop :=
  ∀ n ∈ p.descendants, ∀ field ∈ n.fields, field.isStatements → ∀ c ∈ field.toList, c.glob? = none

instance (p : Node) : Decidable p.NoRuns := inferInstanceAs (Decidable (∀ n ∈ _, _))

/-- A pattern has no runs of statements if its lists of statements have no globs and its children
have no runs. -/
theorem noRuns_iff {p : Node} :
    p.NoRuns ↔ (∀ field ∈ p.fields, field.isStatements → ∀ c ∈ field.toList, c.glob? = none) ∧
      ∀ c ∈ p.children, c.NoRuns := by
  constructor
  · intro h
    exact ⟨h p p.mem_descendants_self, fun c hc n hn => h n (mem_descendants_of_child hc hn)⟩
  · rintro ⟨hSelf, hChildren⟩ n hn
    rcases mem_descendants_iff.1 hn with rfl | ⟨c, hc, hn⟩
    · exact hSelf
    · exact hChildren c hc n hn

/-- The children of a pattern without runs have none. -/
theorem NoRuns.child {p c : Node} (h : p.NoRuns) {field : Field Node} (hField : field ∈ p.fields)
    (hc : c ∈ field.toList) : c.NoRuns :=
  (noRuns_iff.1 h).2 c (List.mem_flatMap.2 ⟨field, hField, hc⟩)

theorem NoRuns.glob?_eq {p c : Node} (h : p.NoRuns) {field : Field Node} (hField : field ∈ p.fields)
    (hSlot : field.isStatements) (hc : c ∈ field.toList) : c.glob? = none :=
  (noRuns_iff.1 h).1 field hField hSlot c hc

theorem noRuns_int (i : Int) : (int i).NoRuns :=
  noRuns_iff.2 ⟨by simp [int, fields], by simp [int, children, fields]⟩

/-- What has one child is without runs if that is. -/
theorem noRuns_of_one {n e : Node} (hFields : n.fields = [.one e]) : n.NoRuns ↔ e.NoRuns := by
  rw [noRuns_iff]
  simp [hFields, children, Field.toList, Field.isStatements]

/-- What has two children is without runs if both are. -/
theorem noRuns_of_two {n left right : Node} (hFields : n.fields = [.one left, .one right]) :
    n.NoRuns ↔ left.NoRuns ∧ right.NoRuns := by
  rw [noRuns_iff]
  simp [hFields, children, Field.toList, Field.isStatements]

theorem noRuns_binary {op : BinaryOp} {left right : Node} :
    (Node.binary op left right).NoRuns ↔ left.NoRuns ∧ right.NoRuns := noRuns_of_two rfl

theorem noRuns_logical {op : LogicalOp} {left right : Node} :
    (Node.logical op left right).NoRuns ↔ left.NoRuns ∧ right.NoRuns := noRuns_of_two rfl

theorem noRuns_assign {op : AssignOp} {left right : Node} :
    (Node.assign op left right).NoRuns ↔ left.NoRuns ∧ right.NoRuns := noRuns_of_two rfl

theorem noRuns_update {op : UpdateOp} {before : Bool} {argument : Node} :
    (Node.update op before argument).NoRuns ↔ argument.NoRuns := noRuns_of_one rfl

/-- A rewritten pattern has globs only where the pattern has them. -/
theorem Rewrites.noRuns {p form : Node} (h : Rewrites p form) (hp : p.NoRuns) : form.NoRuns := by
  cases h with
  | swapBinary => exact noRuns_binary.2 (noRuns_binary.1 hp).symm
  | swapLogical => exact noRuns_logical.2 (noRuns_logical.1 hp).symm
  | expand =>
      have hParts := noRuns_assign.1 hp
      exact noRuns_assign.2 ⟨hParts.1, noRuns_binary.2 hParts⟩
  | contract hOperand =>
      obtain ⟨hLeft, hRight⟩ := noRuns_assign.1 hp
      obtain ⟨l, r, rfl, ⟨-, rfl⟩ | ⟨-, rfl⟩⟩ := operandBeside?_cases hOperand
      · exact noRuns_assign.2 ⟨hLeft, (noRuns_binary.1 hRight).2⟩
      · exact noRuns_assign.2 ⟨hLeft, (noRuns_binary.1 hRight).1⟩
  | addOne => exact noRuns_assign.2 ⟨noRuns_update.1 hp, noRuns_int 1⟩
  | assignSum =>
      have hArgument := noRuns_update.1 hp
      exact noRuns_assign.2 ⟨hArgument, noRuns_binary.2 ⟨hArgument, noRuns_int 1⟩⟩
  | countOne => exact noRuns_update.2 (noRuns_assign.1 hp).1
  | countSum => exact noRuns_update.2 (noRuns_assign.1 hp).1

/-- The rules look at the label of a candidate only. -/
theorem mem_alternatives_of_label_eq {rules : Rules} {p c d form : Node} (h : d.label = c.label)
    (hForm : form ∈ alternatives rules p c) : form ∈ alternatives rules p d := by
  unfold alternatives at hForm
  split at hForm
  · cases d with
    | binary => cases h; exact hForm
    | _ => cases h
  · cases d with
    | logical => cases h; exact hForm
    | _ => cases h
  · cases d with
    | assign => cases h; exact hForm
    | _ => cases h
  · cases d with
    | assign => cases h; exact hForm
    | _ => cases h
  · cases d with
    | update => cases h; exact hForm
    | _ => cases h
  · cases hForm

/-- A node with the shape of a candidate has statement lists where the candidate has them. -/
theorem pairing_of_sameShape {p : Node} {c : Site} (hShape : p.sameShape c.node)
    {pairing : Pairing} {ps : List Node} {cs : List Site} (hp : .seq pairing ps ∈ p.fields)
    (hc : .seq .statements cs ∈ c.fields) : pairing = .statements := by
  have hFields : Field.map Site.node (.seq .statements cs) ∈ c.node.fields := by
    rw [← c.map_node_fields]
    exact List.mem_map_of_mem hc
  generalize c.node = n at hShape hFields
  cases n with
  | program | block =>
      cases p with
      | program | block =>
          cases List.mem_singleton.1 hp
          rfl
      | _ => cases hShape
  | _ => simp [fields, Field.map] at hFields

end Node

/-- The forms of a pattern depend only on the label of the candidate. -/
theorem Conditions.mem_forms_of_label_eq {conditions : Conditions} {p c d form : Node}
    (h : d.label = c.label) (hForm : form ∈ conditions.forms p c) : form ∈ conditions.forms p d := by
  unfold Conditions.forms at hForm ⊢
  rcases List.mem_cons.1 hForm with rfl | hForm
  · exact List.mem_cons_self
  · refine List.mem_cons_of_mem _ ?_
    cases hRules : conditions.rules with
    | none => rw [hRules] at hForm; cases hForm
    | some rules =>
        rw [hRules] at hForm
        exact Node.mem_alternatives_of_label_eq h hForm

namespace Duty

/-- The same duty in a program with further statements. -/
inductive Echoes (kept : List (List Nat)) : Duty → Duty → Prop where
  | exact {p : Node} {c d : Site} (hp : p.NoRuns) (h : c.Echoes kept d) :
      Echoes kept (.exact p c) (.exact p d)
  | below {p : Node} {c d : Site} (hp : p.NoRuns) (h : c.Echoes kept d) :
      Echoes kept (.below p c) (.below p d)
  | statements {ps : List Node} {cs ds : List Site} (hps : ∀ p ∈ ps, p.NoRuns ∧ p.glob? = none)
      (h : List.SublistForall₂ (Site.Echoes kept) cs ds) :
      Echoes kept (.list .statements ps cs) (.list .statements ps ds)
  | list {pairing : Pairing} {ps : List Node} {cs ds : List Site} (hPairing : pairing ≠ .statements)
      (hps : ∀ p ∈ ps, p.NoRuns) (h : List.Forall₂ (Site.Echoes kept) cs ds) :
      Echoes kept (.list pairing ps cs) (.list pairing ps ds)

variable {kept : List (List Nat)}

/-- The duties of a slot have their echoes in the cluttered slot. -/
theorem exists_echo_of_ofSlots? {p : Node} (hp : p.NoRuns) {whole : Bool} {f : Field Node}
    (hf : f ∈ p.fields) {g g' : Field Site} {duties : List Duty}
    (h : ofSlots? whole f g = some duties) (hSlot : Field.Padded (Site.Echoes kept) g g')
    (hPairing : ∀ {pairing ps cs}, f = .seq pairing ps → g = .seq .statements cs →
      pairing = .statements) :
    ∃ duties', ofSlots? whole f g' = some duties' ∧
      List.Forall₂ (Echoes kept) duties duties' := by
  have hChild : ∀ {q}, q ∈ f.toList → q.NoRuns := fun hq => hp.child hf hq
  rcases ofSlots?_cases h with
    ⟨q, c, hSlots, rfl⟩ | ⟨q, c, rfl, rfl, rfl⟩ | ⟨pairing, _, ps, cs, rfl, rfl, rfl⟩ | ⟨hNone, rfl⟩
  · have hPart : ∀ {d : Site}, c.Echoes kept d → q.NoRuns → List.Forall₂ (Echoes kept)
        [if whole then Duty.exact q c else Duty.below q c]
        [if whole then Duty.exact q d else Duty.below q d] := by
      intro d hEcho hq
      cases whole with
      | true => exact .cons (.exact hq hEcho) .nil
      | false => exact .cons (.below hq hEcho) .nil
    rcases hSlots with ⟨rfl, rfl⟩ | ⟨rfl, rfl⟩
    · obtain ⟨⟨hEcho⟩⟩ := hSlot
      exact ⟨_, rfl, hPart hEcho (hChild (List.mem_singleton_self q))⟩
    · obtain ⟨_ | _ | hEcho⟩ := hSlot
      exact ⟨_, rfl, hPart hEcho (hChild (List.mem_singleton_self q))⟩
  · obtain ⟨_ | _ | _ | _ | hEcho⟩ := hSlot
    have hq : q.NoRuns := hChild (List.mem_singleton_self q)
    refine ⟨_, rfl, .cons (.statements ?_ hEcho.statements) .nil⟩
    -- the statements of the slot are the one in it, or those of the block in it
    unfold statements
    split
    · next body =>
        have hField : .seq .statements body ∈ (Node.block body).fields := List.mem_singleton_self _
        exact fun r hr => ⟨hq.child hField hr, hq.glob?_eq hField rfl hr⟩
    · intro r hr
      obtain rfl := List.mem_singleton.1 hr
      exact ⟨hq, hp.glob?_eq hf rfl (List.mem_singleton_self r)⟩
  · have hStatements : pairing = .statements → ∀ q ∈ ps, q.NoRuns ∧ q.glob? = none := by
      rintro rfl q hq
      exact ⟨hChild hq, hp.glob?_eq hf rfl hq⟩
    cases hSlot with
    | statements hItems =>
        obtain rfl := hPairing rfl rfl
        exact ⟨_, rfl, .cons (.statements (hStatements rfl) hItems) .nil⟩
    | related hRelated =>
        cases hRelated with
        | seq hItems =>
            by_cases hKind : pairing = .statements
            · subst hKind
              exact ⟨_, rfl,
                .cons (.statements (hStatements rfl) (sublistForall₂_of_forall₂ hItems)) .nil⟩
            · exact ⟨_, rfl, .cons (.list hKind (fun q hq => hChild hq) hItems) .nil⟩
  · refine ⟨[], ?_, .nil⟩
    rcases hNone with rfl | rfl <;> rfl

/-- The duties of a row of slots have their echoes in the cluttered row. -/
theorem exists_echo_of_ofFields? {p : Node} (hp : p.NoRuns) {whole : Bool} {fs : List (Field Node)}
    (hfs : ∀ f ∈ fs, f ∈ p.fields) {gs gs' : List (Field Site)} {duties : List Duty}
    (h : ofFields? whole fs gs = some duties)
    (hSlots : List.Forall₂ (Field.Padded (Site.Echoes kept)) gs gs')
    (hPairing : ∀ {pairing ps cs}, .seq pairing ps ∈ fs → .seq .statements cs ∈ gs →
      pairing = .statements) :
    ∃ duties', ofFields? whole fs gs' = some duties' ∧
      List.Forall₂ (Echoes kept) duties duties' := by
  induction fs generalizing gs gs' duties with
  | nil =>
      cases h
      exact ⟨[], rfl, .nil⟩
  | cons f fs ih =>
      cases hSlots with
      | nil =>
          cases h
          exact ⟨[], rfl, .nil⟩
      | @cons g g' gs gs' hSlot hRest =>
          obtain ⟨first, rest, hFirst, hLater, rfl⟩ := ofFields?_cons h
          obtain ⟨first', hFirst', hEcho⟩ := exists_echo_of_ofSlots? hp (hfs f List.mem_cons_self)
            hFirst hSlot (by
              rintro pairing ps cs rfl rfl
              exact hPairing List.mem_cons_self List.mem_cons_self)
          obtain ⟨rest', hLater', hEchoes⟩ := ih (fun f' hf' => hfs f' (List.mem_cons_of_mem _ hf'))
            hLater hRest fun hf hg =>
              hPairing (List.mem_cons_of_mem _ hf) (List.mem_cons_of_mem _ hg)
          refine ⟨first' ++ rest', ?_, List.rel_append hEcho hEchoes⟩
          rw [ofFields?, hFirst', hLater']
          rfl

/-- A node of a pattern asks the same of a candidate with further statements. -/
theorem exists_echo_of_ofNodes? {p : Node} (hp : p.NoRuns) {s t : Site} (hEcho : s.Echoes kept t)
    (hShape : p.sameShape s.node) {duties : List Duty} (h : ofNodes? p s = some duties) :
    ∃ duties', ofNodes? p t = some duties' ∧ List.Forall₂ (Echoes kept) duties duties' := by
  rw [ofNodes?_eq] at h
  rw [ofNodes?_eq]
  exact exists_echo_of_ofFields? hp (fun f hf => hf) h hEcho.slots
    fun hf hg => Node.pairing_of_sameShape hShape hf hg

end Duty

/-- The same values for the same names, wherever they stand. -/
def Branch.Alike (b c : Branch) : Prop :=
  c.named.map (fun entry => (entry.1, entry.2.capture)) =
    b.named.map fun entry => (entry.1, entry.2.capture)

/-- Branches that are alike give every name the same value. -/
theorem Branch.Alike.value?_eq {b c : Branch} (h : b.Alike c) (name : String) :
    c.value? name = b.value? name := by
  rw [← c.find?_finish (.root .empty), ← b.find?_finish (.root .empty)]
  exact congrArg (List.lookup name) h

theorem Branch.Alike.anchor {b c : Branch} (h : b.Alike c) (s t : Option Site) :
    (b.anchor s).Alike (c.anchor t) := h

/-- Branches that are alike stay so with one more name captured alike. -/
theorem Branch.Alike.snoc {b c : Branch} (h : b.Alike c) (name : String) {value value' : Binding}
    (hValue : value'.capture = value.capture) :
    Branch.Alike { b with named := b.named ++ [(name, value)] }
      { c with named := c.named ++ [(name, value')] } := by
  unfold Branch.Alike at h ⊢
  simp [h, hValue]

namespace Conditions

variable {conditions : Conditions}

/-- Whether values agree does not depend on where they stand. -/
theorem agree_congr {old old' new new' : Binding} (hOld : old'.capture = old.capture)
    (hNew : new'.capture = new.capture) (h : conditions.agree old new) :
    conditions.agree old' new' := by
  have hNodes : ∀ {value value' : Binding}, value'.capture = value.capture →
      value'.sites.map Site.node = value.sites.map Site.node := by
    intro value value' hValue
    cases value <;> cases value' <;> simp_all [Binding.capture, Binding.sites]
  have hBare : ∀ {value value' : Binding}, value'.capture = value.capture → ∀ bare : Node → Node,
      value'.sites.map (bare ·.node) = value.sites.map (bare ·.node) := by
    intro value value' hValue bare
    simpa [Function.comp_def] using congrArg (List.map bare) (hNodes hValue)
  unfold agree at h ⊢
  extract_lets bare as bs at h
  extract_lets as' bs'
  have hAs : as' = as := hBare hOld bare
  have hBs : bs' = bs := hBare hNew bare
  rw [hAs, hBs]
  exact h

/-- A wildcard can be bound again if a named one meets what it met before. -/
theorem Binds.exists_alike {w : Wildcard} {value value' : Binding} {b b' c : Branch}
    (h : conditions.Binds w value b b') (hAlike : b.Alike c)
    (hValue : w.name.isSome → value'.capture = value.capture) :
    ∃ c', conditions.Binds w value' c c' ∧ b'.Alike c' := by
  cases h with
  | nameless hName => exact ⟨_, .nameless hName, hAlike⟩
  | @again name old hName hOld hAgree =>
      have hFind := hAlike.value?_eq name
      rw [Branch.value?, Branch.value?, hOld] at hFind
      obtain ⟨old', hOld', hSame⟩ := Option.map_eq_some_iff.1 hFind
      exact ⟨c, .again hName hOld' (agree_congr hSame (hValue (by rw [hName]; rfl)) hAgree), hAlike⟩
  | @fresh name hName hNew hPass =>
      have hFind := hAlike.value?_eq name
      rw [Branch.value?, Branch.value?, hNew] at hFind
      have hSnoc := hAlike.snoc name (hValue (by rw [hName]; rfl))
      refine ⟨_, .fresh hName (Option.map_eq_none_iff.1 hFind) ?_, hSnoc⟩
      have hValues : (fun v => (Branch.find?
          { c with named := c.named ++ [(name, value')] } v).map Binding.capture) =
          fun v => (Branch.find?
            { b with named := b.named ++ [(name, value)] } v).map Binding.capture :=
        funext fun v => hSnoc.value?_eq v
      rw [hValues]
      exact hPass

end Conditions

theorem Wildcard.capture_valueAt (w : Wildcard) {s t : Site} (h : t.node = s.node) :
    (w.valueAt t).capture = (w.valueAt s).capture := by
  obtain ⟨name, extent⟩ := w
  cases extent <;> simp [valueAt, Binding.capture, h]

/-- The same task in a program with further statements. -/
inductive Task.Echoes (kept : List (List Nat)) : Task → Task → Prop where
  | node {p : Node} {s t : Site} (hp : p.NoRuns) (h : s.Echoes kept t) :
      Echoes kept (.node p s) (.node p t)
  | duty {d e : Duty} (h : d.Echoes kept e) : Echoes kept (.duty d) (.duty e)
  | duties {ds es : List Duty} (h : List.Forall₂ (Duty.Echoes kept) ds es) :
      Echoes kept (.duties ds) (.duties es)
  | fixed {ps : List Node} {cs ds : List Site} (hps : ∀ p ∈ ps, p.NoRuns)
      (h : List.Forall₂ (Site.Echoes kept) cs ds) : Echoes kept (.fixed ps cs) (.fixed ps ds)
  | ordered {ps : List Node} {cs ds : List Site} (hps : ∀ p ∈ ps, p.NoRuns)
      (h : List.Forall₂ (Site.Echoes kept) cs ds) :
      Echoes kept (.scan false ps cs) (.scan false ps ds)
  | statements {ps : List Node} {cs ds : List Site} (hps : ∀ p ∈ ps, p.NoRuns ∧ p.glob? = none)
      (h : List.SublistForall₂ (Site.Echoes kept) cs ds) :
      Echoes kept (.scan true ps cs) (.scan true ps ds)

/-- The places that names stand for or were compared with. -/
def Log.kept (log : Log) : List (List Nat) :=
  (log.captures.filter (·.1.name.isSome)).flatMap fun entry => entry.2.sites.map Site.path

/-- What two records keep is what each keeps. -/
theorem Log.kept_append (log log' : Log) : (log ++ log').kept = log.kept ++ log'.kept := by
  simp [kept]

theorem Log.kept_met {w : Wildcard} {value : Binding} (h : w.name.isSome) :
    (Log.met w value).kept = value.sites.map Site.path := by
  simp [kept, met, h]

/-- A run of subtrees that are kept is captured alike. -/
theorem capture_eq_of_kept {kept : List (List Nat)} {cs ds : List Site}
    (h : List.Forall₂ (Site.Echoes kept) cs ds) (hKept : cs.map Site.path ⊆ kept) :
    (Binding.many ds).capture = (Binding.many cs).capture := by
  rw [Binding.capture, Binding.capture]
  congr 1
  induction h with
  | nil => rfl
  | @cons c d cs ds hEcho _ ih =>
      rw [List.map_cons, List.map_cons, hEcho.node_eq (hKept List.mem_cons_self),
        ih fun path hPath => hKept (List.mem_cons_of_mem _ hPath)]

/-- A run and what follows it are found one after the other. -/
theorem exists_append_of_forall₂ {α β : Type} {r : α → β → Prop} {xs ys : List α} {zs : List β}
    (h : List.Forall₂ r (xs ++ ys) zs) :
    ∃ xs' ys', zs = xs' ++ ys' ∧ List.Forall₂ r xs xs' ∧ List.Forall₂ r ys ys' := by
  induction xs generalizing zs with
  | nil => exact ⟨[], zs, rfl, .nil, h⟩
  | cons x xs ih =>
      cases h with
      | @cons _ z _ zs hHead hRest =>
          obtain ⟨xs', ys', rfl, hxs, hys⟩ := ih hRest
          exact ⟨z :: xs', ys', rfl, .cons hHead hxs, hys⟩

theorem Spot.exists_of_forall₂ {r : Site → Site → Prop} {cs ds : List Site}
    (h : List.Forall₂ r cs ds) {spot : Spot} (hSpot : spot ∈ ofList cs) :
    ∃ spot' ∈ ofList ds, r spot.site spot'.site ∧
      List.Forall₂ r spot.following spot'.following := by
  induction h with
  | nil => cases hSpot
  | @cons c d cs ds hHead hRest ih =>
      rcases List.mem_cons.1 hSpot with rfl | hSpot
      · exact ⟨⟨d, ds⟩, List.mem_cons_self, hHead, hRest⟩
      · obtain ⟨spot', hSpot', hFound⟩ := ih hSpot
        exact ⟨spot', List.mem_cons_of_mem _ hSpot', hFound⟩

namespace Conditions

variable {conditions : Conditions} {kept : List (List Nat)}

/-- Every form of a pattern without runs has none. -/
theorem noRuns_of_mem_forms {p c form : Node} (h : form ∈ conditions.forms p c) (hp : p.NoRuns) :
    form.NoRuns := by
  rcases mem_forms h with rfl | hRewrites
  · exact hp
  · exact hRewrites.noRuns hp

/-- An element that takes the statement at a spot, and the rest of the list after it. -/
theorem Solves.scan_cons {dive : Bool} {p : Node} {ps : List Node} {cs : List Site} {spot : Spot}
    {b b' b'' : Branch} (hGlob : p.glob? = none) (hSpot : spot ∈ Spot.positions dive cs)
    (first : conditions.Solves (.node p spot.site) (b.anchor (some spot.site)) b')
    (rest : conditions.Solves (.scan dive ps spot.following) b' b'') :
    conditions.Solves (.scan dive (p :: ps) cs) b b'' :=
  .scanCons hGlob hSpot (.whole first) rest

/-- A way through a search can be taken in a program with further statements, if nothing is put in at
the places that names stand for or were compared with. -/
theorem Records.exists_echo {task task' : Task} {b b' c : Branch} {log : Log}
    (h : conditions.Records task b b' log) (hKept : log.kept ⊆ kept)
    (hTask : task.Echoes kept task') (hAlike : b.Alike c) :
    ∃ c', conditions.Solves task' c c' ∧ b'.Alike c' := by
  -- a glob meets a run with the nodes that it met before
  have hRun : ∀ {w : Wildcard} {run run' : List Site} {b b' c : Branch},
      conditions.Binds w (.many run) b b' → (Log.met w (.many run)).kept ⊆ kept →
      List.Forall₂ (Site.Echoes kept) run run' → b.Alike c →
      ∃ c', conditions.Binds w (.many run') c c' ∧ b'.Alike c' := by
    intro w run run' b b' c hBind hKept hEchoes hAlike
    refine hBind.exists_alike hAlike fun hName => ?_
    rw [Log.kept_met hName] at hKept
    exact capture_eq_of_kept hEchoes hKept
  induction h generalizing task' c with
  | @wildcard w s b b' hBind =>
      cases hTask with
      | @node _ _ t hp hEcho =>
          have hValue : w.name.isSome → (w.valueAt t).capture = (w.valueAt s).capture := by
            intro hName
            rw [Log.kept_met hName, w.sites_valueAt s] at hKept
            exact w.capture_valueAt (hEcho.node_eq (hKept List.mem_cons_self))
          obtain ⟨c', hBound, hAlike'⟩ := hBind.exists_alike hAlike hValue
          exact ⟨c', .wildcard hBound, hAlike'⟩
  | hole =>
      cases hTask
      exact ⟨c, .hole, hAlike⟩
  | @form p form s duties b b' log hp hForm hShape hDuties _ ih =>
      cases hTask with
      | @node _ _ t hRuns hEcho =>
          have hLabel := hEcho.label_eq
          obtain ⟨duties', hDuties', hEchoes⟩ := Duty.exists_echo_of_ofNodes?
            (noRuns_of_mem_forms hForm hRuns) hEcho hShape hDuties
          obtain ⟨c', hSolved, hAlike'⟩ := ih hKept (.duties hEchoes) hAlike
          refine ⟨c', .form hp (mem_forms_of_label_eq hLabel hForm) ?_ hDuties' hSolved, hAlike'⟩
          rw [Node.sameShape, hLabel]
          exact hShape
  | noDuties =>
      cases hTask with
      | duties hDuties =>
          cases hDuties
          exact ⟨c, .noDuties, hAlike⟩
  | consDuties _ _ ihFirst ihRest =>
      rw [Log.kept_append] at hKept
      obtain ⟨hFirst, hRest⟩ := List.append_subset.1 hKept
      cases hTask with
      | duties hDuties =>
          cases hDuties with
          | cons hDuty hLater =>
              obtain ⟨c₁, hSolved, hAlike₁⟩ := ihFirst hFirst (.duty hDuty) hAlike
              obtain ⟨c₂, hSolved', hAlike₂⟩ := ihRest hRest (.duties hLater) hAlike₁
              exact ⟨c₂, .consDuties hSolved hSolved', hAlike₂⟩
  | exact _ ih =>
      cases hTask with
      | duty hDuty =>
          cases hDuty with
          | exact hp hEcho =>
              obtain ⟨c', hSolved, hAlike'⟩ := ih hKept (.node hp hEcho) hAlike
              exact ⟨c', .exact hSolved, hAlike'⟩
  | @within p s d b b' log hd hSeek _ ih =>
      cases hTask with
      | duty hDuty =>
          cases hDuty with
          | @below _ _ t hp hEcho =>
              rcases hSeek with rfl | hSeek
              · obtain ⟨c', hSolved, hAlike'⟩ := ih hKept (.node hp hEcho) hAlike
                exact ⟨c', .within (Site.mem_descendants_self t) (.inl rfl) hSolved, hAlike'⟩
              · obtain ⟨e, he, hBelow⟩ := hEcho.exists_descendant hd
                obtain ⟨c', hSolved, hAlike'⟩ := ih hKept (.node hp hBelow) hAlike
                exact ⟨c', .within he (.inr hSeek) hSolved, hAlike'⟩
  | fixed _ ih =>
      cases hTask with
      | duty hDuty =>
          cases hDuty with
          | list _ hps hEchoes =>
              obtain ⟨c', hSolved, hAlike'⟩ := ih hKept (.fixed hps hEchoes) hAlike
              exact ⟨c', .fixed hSolved, hAlike'⟩
  | ordered _ ih =>
      cases hTask with
      | duty hDuty =>
          cases hDuty with
          | list _ hps hEchoes =>
              obtain ⟨c', hSolved, hAlike'⟩ := ih hKept (.ordered hps hEchoes) hAlike
              exact ⟨c', .ordered hSolved, hAlike'⟩
  | statements _ ih =>
      cases hTask with
      | duty hDuty =>
          cases hDuty with
          | statements hps hEchoes =>
              obtain ⟨c', hSolved, hAlike'⟩ := ih hKept (.statements hps hEchoes) hAlike
              exact ⟨c', .statements hSolved, hAlike'⟩
          | list hPairing => exact absurd rfl hPairing
  | fixedNil =>
      cases hTask
      exact ⟨c, .fixedNil, hAlike⟩
  | fixedLast hGlob hBind =>
      cases hTask with
      | fixed _ hEchoes =>
          obtain ⟨c', hBound, hAlike'⟩ := hRun hBind hKept hEchoes hAlike
          exact ⟨c', .fixedLast hGlob hBound, hAlike'⟩
  | fixedGlob hGlob hBind _ ih =>
      rw [Log.kept_append] at hKept
      obtain ⟨hMet, hRest⟩ := List.append_subset.1 hKept
      cases hTask with
      | fixed hps hEchoes =>
          obtain ⟨run', rest', rfl, hFront, hBack⟩ := exists_append_of_forall₂ hEchoes
          obtain ⟨c₁, hBound, hAlike₁⟩ := hRun hBind hMet hFront hAlike
          obtain ⟨c₂, hSolved, hAlike₂⟩ :=
            ih hRest (.fixed (fun p hp => hps p (List.mem_cons_of_mem _ hp)) hBack) hAlike₁
          exact ⟨c₂, .fixedGlob hGlob hBound hSolved, hAlike₂⟩
  | fixedCons hGlob _ _ ihFirst ihRest =>
      rw [Log.kept_append] at hKept
      obtain ⟨hFirst, hRest⟩ := List.append_subset.1 hKept
      cases hTask with
      | fixed hps hEchoes =>
          cases hEchoes with
          | cons hEcho hLater =>
              obtain ⟨c₁, hSolved, hAlike₁⟩ :=
                ihFirst hFirst (.node (hps _ List.mem_cons_self) hEcho) hAlike
              obtain ⟨c₂, hSolved', hAlike₂⟩ :=
                ihRest hRest (.fixed (fun p hp => hps p (List.mem_cons_of_mem _ hp)) hLater) hAlike₁
              exact ⟨c₂, .fixedCons hGlob hSolved hSolved', hAlike₂⟩
  | scanNil =>
      cases hTask with
      | ordered => exact ⟨c, .scanNil, hAlike⟩
      | statements => exact ⟨c, .scanNil, hAlike⟩
  | @scanCons dive p ps cs spot b b' b'' log log' hGlob hSpot _ _ ihFirst ihRest =>
      rw [Log.kept_append] at hKept
      obtain ⟨hFirst, hRest⟩ := List.append_subset.1 hKept
      cases hTask with
      | ordered hps hEchoes =>
          rw [Spot.positions_false] at hSpot
          obtain ⟨spot', hSpot', hEcho, hLater⟩ := Spot.exists_of_forall₂ hEchoes hSpot
          rw [← Spot.positions_false] at hSpot'
          obtain ⟨c₁, hSolved, hAlike₁⟩ := ihFirst hFirst (.node (hps p List.mem_cons_self) hEcho)
            (hAlike.anchor (some spot.site) (some spot'.site))
          obtain ⟨c₂, hSolved', hAlike₂⟩ :=
            ihRest hRest (.ordered (fun q hq => hps q (List.mem_cons_of_mem _ hq)) hLater) hAlike₁
          exact ⟨c₂, .scan_cons hGlob hSpot' hSolved hSolved', hAlike₂⟩
      | statements hps hEchoes =>
          obtain ⟨spot', hSpot', hEcho⟩ := Spot.exists_echo_of_mem_positions hEchoes hSpot
          obtain ⟨c₁, hSolved, hAlike₁⟩ :=
            ihFirst hFirst (.node (hps p List.mem_cons_self).1 hEcho.site)
              (hAlike.anchor (some spot.site) (some spot'.site))
          obtain ⟨c₂, hSolved', hAlike₂⟩ := ihRest hRest
            (.statements (fun q hq => hps q (List.mem_cons_of_mem _ hq)) hEcho.following) hAlike₁
          exact ⟨c₂, .scan_cons hGlob hSpot' hSolved hSolved', hAlike₂⟩
  | @scanLast dive p w cs b b' hGlob hBind =>
      cases hTask with
      | @ordered _ _ cs' hps hEchoes =>
          obtain ⟨c', hBound, hAlike'⟩ :=
            hRun hBind hKept hEchoes (hAlike.anchor cs.head? cs'.head?)
          exact ⟨c', .scanLast hGlob hBound, hAlike'⟩
      | statements hps =>
          rw [(hps p List.mem_cons_self).2] at hGlob
          cases hGlob
  | @scanGlob dive p q qs w run spot b b' b'' b''' log log' hGlob hBind _ _ ihFirst ihRest =>
      rw [Log.kept_append] at hKept
      obtain ⟨hMet, hLater⟩ := List.append_subset.1 hKept
      rw [Log.kept_append] at hLater
      obtain ⟨hFirst, hRest⟩ := List.append_subset.1 hLater
      cases hTask with
      | ordered hps hEchoes =>
          obtain ⟨run', after, rfl, hFront, hBack⟩ := exists_append_of_forall₂ hEchoes
          cases hBack with
          | @cons _ site' _ following' hEcho hFollowing =>
              obtain ⟨c₁, hBound, hAlike₁⟩ :=
                hRun hBind hMet hFront (hAlike.anchor run.head? run'.head?)
              obtain ⟨c₂, hSolved, hAlike₂⟩ := ihFirst hFirst
                (.node (hps q (by simp)) hEcho) (hAlike₁.anchor (some spot.site) (some site'))
              obtain ⟨c₃, hSolved', hAlike₃⟩ := ihRest hRest
                (.ordered (fun r hr => hps r (by simp [hr])) hFollowing) hAlike₂
              have hSpot : conditions.Solves (.spot false q qs ⟨site', following'⟩ 0 0) c₁ c₂ :=
                .whole hSolved
              exact ⟨c₃, .scanGlob hGlob hBound hSpot hSolved', hAlike₃⟩
      | statements hps =>
          rw [(hps p List.mem_cons_self).2] at hGlob
          cases hGlob

/-- Statements are looked for in the body of a program, or where it would be. -/
theorem openings_program (ps : List Node) (program : Site) :
    ∃ body, openings (.program ps) program = [(.scan true ps body, .start)] ∧
      (program.HoldsBody → body = program.children) ∧ (¬ program.HoldsBody → body = [program]) := by
  refine ⟨_, rfl, ?_, ?_⟩
  · intro hBody
    obtain ⟨body, hNode⟩ := hBody.exists_body
    split
    · rfl
    · rfl
    · next hProgram hBlock => exact (hNode.elim (hProgram body) (hBlock body)).elim
  · intro hBody
    split
    · next body hNode => exact absurd (.inl (by rw [hNode]; rfl)) hBody
    · next body hNode => exact absurd (.inr (by rw [hNode]; rfl)) hBody
    · rfl

/-- A search can start where it started before. -/
theorem exists_echo_of_mem_openings {pattern : Node} (hRuns : pattern.NoRuns) {program program' : Site}
    (hEcho : program.Echoes kept program') {opening : Task × Branch}
    (h : opening ∈ openings pattern program) :
    ∃ opening' ∈ openings pattern program',
      opening.1.Echoes kept opening'.1 ∧ opening.2.Alike opening'.2 := by
  by_cases hProgram : ∃ ps, pattern = .program ps
  · obtain ⟨ps, rfl⟩ := hProgram
    obtain ⟨body, hOpenings, hBody, hAlone⟩ := openings_program ps program
    obtain ⟨body', hOpenings', hBody', hAlone'⟩ := openings_program ps program'
    have hField : .seq .statements ps ∈ (Node.program ps).fields := List.mem_singleton_self _
    have hps : ∀ p ∈ ps, p.NoRuns ∧ p.glob? = none :=
      fun p hp => ⟨hRuns.child hField hp, hRuns.glob?_eq hField rfl hp⟩
    have hBodies : List.SublistForall₂ (Site.Echoes kept) body body' := by
      by_cases hHolds : program.HoldsBody
      · rw [hBody hHolds, hBody' (hEcho.holdsBody_iff.2 hHolds)]
        exact hEcho.children_of_body hHolds.fields_eq
      · rw [hAlone hHolds, hAlone' fun hHolds' => hHolds (hEcho.holdsBody_iff.1 hHolds')]
        exact .cons hEcho .nil
    rw [hOpenings] at h
    obtain rfl := List.mem_singleton.1 h
    rw [hOpenings']
    exact ⟨_, List.mem_singleton_self _, .statements hps hBodies, rfl⟩
  · have hOpenings : ∀ program : Site, openings pattern program =
        program.descendants.map fun s => (.node pattern s, .rootedAt s) := by
      intro program
      unfold openings
      split
      · next ps => exact absurd ⟨ps, rfl⟩ hProgram
      · rfl
    rw [hOpenings] at h
    obtain ⟨s, hs, rfl⟩ := List.mem_map.1 h
    obtain ⟨t, ht, hBelow⟩ := hEcho.exists_descendant hs
    refine ⟨(.node pattern t, .rootedAt t), ?_, .node hRuns hBelow, rfl⟩
    rw [hOpenings]
    exact List.mem_map_of_mem ht

/-- Clutter does no harm. If order does not matter, no declaration is split and no glob stands for
statements, then a match leaves the program open to any further statements, except at the places
that names stand for or were compared with: whatever way led to a match, the program with them is
matched too. -/
theorem clutter_keeps_match {source : Source} {pattern : PatternSource} {compiled : Pattern}
    {bindings : Bindings} {asked : List Inquiry} (hFree : conditions.orderMatters = false)
    (hWhole : conditions.splitsDeclarations = false)
    (hCompiled : Pattern.compile pattern conditions.constraints = .ok compiled)
    (hRuns : compiled.root.NoRuns)
    (hMatched : conditions.matchCode source pattern = .ok (.matched bindings, asked)) :
    ∃ n, source.tree? = .ok n ∧
      (∃ b ∈ (conditions.searchCode compiled.root (.root n)).solutions,
        bindings = b.finish (.root n) ∧ ∃ opening ∈ openings compiled.root (.root n), ∃ log,
          conditions.Records opening.1 opening.2 b log) ∧
      ∀ b, ∀ opening ∈ openings compiled.root (.root n), ∀ log,
        conditions.Records opening.1 opening.2 b log →
        ∀ source', source.Cluttered log.kept source' →
          ∃ found asked', conditions.matchCode source' pattern = .ok (.matched found, asked') := by
  obtain ⟨n, compiled', b, hTree, hCompiled', hb, hFinish⟩ := exists_solution_of_matchCode hMatched
  obtain rfl := Except.ok.inj (hCompiled.symm.trans hCompiled')
  refine ⟨n, hTree, ⟨b, hb, hFinish, exists_log_of_mem_searchCode hWhole hb⟩, ?_⟩
  intro b opening hOpening log hLog source' hClutter
  obtain ⟨n', hTree', hCluttered⟩ := hClutter.exists_tree hTree
  have hEcho : (Site.root n).Echoes log.kept (.root n') := hCluttered
  obtain ⟨opening', hOpening', hTask, hAlike⟩ := exists_echo_of_mem_openings hRuns hEcho hOpening
  obtain ⟨c, hSolves, -⟩ := hLog.exists_echo (List.Subset.refl _) hTask hAlike
  exact exists_matchCode_of_solution hTree' hCompiled
    (mem_searchCode_of_opening hFree hOpening' hSolves)

/-- The pattern `$a; $a;` is found in `{ x; } { x; }`, and so with statements before, between and
after the blocks. -/
theorem clutter_keeps_match_blocks :
    let x : Node := .expr (.ident "x")
    let y : Node := .expr (.ident "y")
    let a : Node := .wildcard ⟨some "a", .scalar⟩
    let pattern : Node := .program [a, a]
    let before : Node := .program [.block [x], .block [x]]
    let after : Node := .program [y, .block [x], x, y, .block [x], y]
    let conditions : Conditions := ⟨[], none, false⟩
    (∃ found asked, conditions.matchCode (.tree before) (.tree pattern) =
      .ok (.matched found, asked)) ∧
    ∃ found asked, conditions.matchCode (.tree after) (.tree pattern) =
      .ok (.matched found, asked) := by
  intro x y a pattern before after conditions
  obtain ⟨found, asked, hMatch⟩ : ∃ found asked,
      conditions.matchCode (.tree before) (.tree pattern) = .ok (.matched found, asked) :=
    Outcome.exists_matched_of_verdict (by decide +kernel)
  have hRuns : pattern.NoRuns := by decide +kernel
  -- the name is bound to the first block and meets the second one again
  let first : Site := ⟨[0], .block [x]⟩
  let second : Site := ⟨[1], .block [x]⟩
  let bound : Branch := { Branch.start.anchor (some first) with named := [("a", .one first)] }
  have hFirst : conditions.Records (.node a first) (Branch.start.anchor (some first)) bound
      (.met ⟨some "a", .scalar⟩ (.one first)) := .wildcard (.fresh rfl rfl (by decide +kernel))
  have hSecond : conditions.Records (.node a second) (bound.anchor (some second))
      (bound.anchor (some second)) (.met ⟨some "a", .scalar⟩ (.one second)) :=
    .wildcard (.again rfl rfl (by decide +kernel))
  have hSpot : ∀ spot : Spot, spot ∈ Spot.positions true (spot.site :: spot.following) := by
    intro spot
    rw [Spot.positions_true]
    refine List.mem_flatMap.2 ⟨spot, List.mem_cons_self, ?_⟩
    rw [Spot.everywhere_eq]
    exact List.mem_cons_self
  have hLog := Records.scanCons rfl (hSpot ⟨first, [second]⟩) hFirst
    (.scanCons rfl (hSpot ⟨second, []⟩) hSecond .scanNil)
  -- neither block has anything put in
  have hBodies : List.SublistForall₂ (Site.Cluttered [[0], [1]]) [first, second]
      [y, .block [x], x, y, .block [x], y] :=
    .cons_right (.cons (.same first) (.cons_right (.cons_right (.cons (.same second) .nil))))
  have hClutter : Source.Cluttered [[0], [1]] (.tree before) (.tree after) :=
    .tree (.grown (by decide) rfl (.cons (.statements hBodies) .nil))
  obtain ⟨-, compiled, -, -, hCompiled, -⟩ := exists_solution_of_matchCode hMatch
  rw [← Pattern.root_of_compile hCompiled] at hRuns
  obtain ⟨n, hTree, -, hAll⟩ := clutter_keeps_match rfl rfl hCompiled hRuns hMatch
  cases hTree
  rw [Pattern.root_of_compile hCompiled] at hAll
  refine ⟨⟨found, asked, hMatch⟩, ?_⟩
  exact hAll _ _ (List.mem_singleton_self _) _ hLog _ hClutter

/-- A name may also be met again elsewhere, and there no statement may be put in either. The pattern
`$a; $a;` is found in `{ x; } { x; }`, where the first block is what `$a` stands for, but not in
`{ x; } { x; y; }`. -/
theorem clutter_in_repeated_harms :
    let x : Node := .expr (.ident "x")
    let y : Node := .expr (.ident "y")
    let a : Node := .wildcard ⟨some "a", .scalar⟩
    let pattern : Node := .program [a, a]
    let before : Node := .program [.block [x], .block [x]]
    let after : Node := .program [.block [x], .block [x, y]]
    let conditions : Conditions := ⟨[], none, false⟩
    pattern.NoRuns ∧
    (∃ found asked, conditions.matchCode (.tree before) (.tree pattern) =
      .ok (.matched found, asked)) ∧
    (∀ b ∈ (conditions.searchCode pattern (.root before)).solutions,
      Source.Cluttered (b.named.flatMap fun entry => entry.2.sites.map Site.path) (.tree before)
        (.tree after)) ∧
    ∃ reason asked, conditions.matchCode (.tree after) (.tree pattern) =
      .ok (.failed reason, asked) := by
  intro x y a pattern before after conditions
  have hPlaces : (conditions.searchCode pattern (.root before)).solutions.map (fun b =>
      b.named.flatMap fun entry => entry.2.sites.map Site.path) = [[[0]]] := by decide +kernel
  have hRuns : pattern.NoRuns := by decide +kernel
  refine ⟨hRuns, Outcome.exists_matched_of_verdict (by decide +kernel), ?_,
    Outcome.exists_failed_of_verdict (by decide +kernel)⟩
  intro b hb
  have hKept := List.mem_map_of_mem (f := fun b : Branch =>
    b.named.flatMap fun entry => entry.2.sites.map Site.path) hb
  rw [hPlaces] at hKept
  rw [List.mem_singleton.1 hKept]
  -- the first block is as it was, and the second has one statement more
  have hBlock : Site.Cluttered [[0]] ⟨[1], .block [x]⟩ (.block [x, y]) :=
    .grown (by decide) rfl (.cons (.statements (.cons (.same _) .nil)) .nil)
  have hBodies : List.Forall₂ (Site.Cluttered [[0]])
      [⟨[0], .block [x]⟩, ⟨[1], .block [x]⟩] [.block [x], .block [x, y]] :=
    .cons (.same ⟨[0], .block [x]⟩) (.cons hBlock .nil)
  exact .tree (.grown (by decide) rfl (.cons (.related (.seq hBodies)) .nil))

end Conditions

end CodeShape

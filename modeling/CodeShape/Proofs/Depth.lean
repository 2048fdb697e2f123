import CodeShape.Match.Node
import CodeShape.Proofs.Positions
import CodeShape.Proofs.Search

/-! Bounds on the recursion of a search never cut it short. Candidates only get lower on the way
down, so a bound that covers the height of a candidate gives the same search as any other, and the
search of a node is given by an equation without bounds. -/
namespace CodeShape

namespace ListMatcher

variable (m : ListMatcher)

/-- A last glob takes all that is left and searches nothing. -/
theorem fixed_glob_last {p : Node} {w : Wildcard} (hGlob : p.glob? = some w)
    (candidates : List Site) (b : Branch) :
    m.fixed [p] candidates b = m.conditions.bind w (.many candidates) b := by
  rw [fixed.eq_def]
  simp only [hGlob]
  rfl

/-- A glob with patterns after it tries every length of its run, the shortest first. -/
theorem fixed_glob {p q : Node} {w : Wildcard} (hGlob : p.glob? = some w) (qs : List Node)
    (candidates : List Site) (b : Branch) :
    m.fixed (p :: q :: qs) candidates b =
      .firstOf (fun j => (m.conditions.bind w (.many (candidates.take j)) b).andThen fun b =>
        m.fixed (q :: qs) (candidates.drop j) b) (List.range (candidates.length + 1)) := by
  rw [fixed.eq_def]
  simp only [hGlob]
  rfl

/-- A pattern that is no glob fails without a candidate. -/
theorem fixed_none {p : Node} (hGlob : p.glob? = none) (ps : List Node) (b : Branch) :
    m.fixed (p :: ps) [] b = .done := by
  rw [fixed.eq_def]
  simp only [hGlob]

/-- A pattern that is no glob takes the first candidate. -/
theorem fixed_cons {p : Node} (hGlob : p.glob? = none) (ps : List Node) (c : Site)
    (cs : List Site) (b : Branch) :
    m.fixed (p :: ps) (c :: cs) b = (m.node p c b).andThen fun b => m.fixed ps cs b := by
  rw [fixed.eq_def]
  simp only [hGlob]

/-- A declaration with a value at a declaration and an assignment. -/
def splitAt (p : Node) (spot : Spot) (b : Branch) : Search Inquiry Taken :=
  match p.splitDeclaration?, spot.following with
  | some (declared, assigned), next :: _ =>
    (m.node declared spot.site b).andThen fun b =>
      (m.node assigned next b).andThen fun b => .one ⟨0, 1, b⟩
  | _, _ => .done

/-- A declaration and an assignment at a declaration with a value. -/
def mergedAt (p : Node) (ps : List Node) (spot : Spot) (b : Branch) : Search Inquiry Taken :=
  match ps.head?.bind p.mergeDeclaration? with
  | some merged => (m.node merged spot.site b).andThen fun b => .one ⟨1, 0, b⟩
  | none => .done

/-- What is tried at one spot: the statement there, then a declaration split off it, then one merged
from it and the next. -/
theorem atSpot_unfold (dive : Bool) (p : Node) (ps : List Node) (spot : Spot) (b : Branch) :
    m.atSpot dive p ps spot b =
      ((m.node p spot.site (b.anchor (some spot.site))).andThen fun b => .one ⟨0, 0, b⟩).orElse
        fun _ => if !dive || !m.conditions.splitsDeclarations then .done
          else (m.splitAt p spot (b.anchor (some spot.site))).orElse fun _ =>
            m.mergedAt p ps spot (b.anchor (some spot.site)) := rfl

/-- A scan with no patterns left succeeds. -/
theorem scan_nil (dive : Bool) (candidates : List Site) (b : Branch) :
    m.scan dive [] candidates b = .one b := by
  rw [scan]

/-- One place for the first element, and the ways to go on after it. -/
def scanFrom (dive : Bool) (p : Node) (ps : List Node) (b : Branch) (spot : Spot) : Matching :=
  (m.atSpot dive p ps spot b).andThen fun t =>
    m.scan dive (ps.drop t.patterns) (spot.following.drop t.candidates) t.branch

/-- A scan tries its first pattern at every spot in reach, committing to the first that holds when
the order matters. -/
theorem scan_cons (dive : Bool) {p : Node} (hGlob : p.glob? = none) (ps : List Node)
    (candidates : List Site) (b : Branch) :
    m.scan dive (p :: ps) candidates b =
      let spots := Spot.within (if dive then m.depth else 0) candidates
      if m.conditions.orderMatters then
        .committed (fun spot => m.atSpot dive p ps spot b) (m.scanFrom dive p ps b) spots
      else .firstOf (m.scanFrom dive p ps b) spots := by
  rw [scan.eq_def]
  simp only [hGlob]
  rfl

/-- A last glob takes all the candidates and anchors the branch at the first of them. -/
theorem scan_glob_last (dive : Bool) {p : Node} {w : Wildcard} (hGlob : p.glob? = some w)
    (candidates : List Site) (b : Branch) :
    m.scan dive [p] candidates b =
      m.conditions.bind w (.many candidates) (b.anchor candidates.head?) := by
  rw [scan.eq_def]
  simp only [hGlob]

/-- A glob with patterns after it ends before each of the spots in turn. -/
theorem scan_glob (dive : Bool) {p q : Node} {w : Wildcard} (hGlob : p.glob? = some w)
    (qs : List Node) (candidates : List Site) (b : Branch) :
    m.scan dive (p :: q :: qs) candidates b =
      .firstOf (fun place : Spot × Nat =>
        (m.conditions.bind w (.many (candidates.take place.2))
          (if place.2 = 0 then b else b.anchor candidates.head?)).andThen fun b =>
            m.scanFrom dive q qs b place.1)
        (Spot.ofList candidates).zipIdx := by
  rw [scan.eq_def]
  simp only [hGlob]
  rfl

end ListMatcher

/-- Two ways of matching lists that cannot be told apart on candidates up to a height. Their depths
may differ, but both cover the height. -/
structure ListMatcher.Agree (m m' : ListMatcher) (bound : Nat) : Prop where
  conditions : m.conditions = m'.conditions
  node : ∀ p c b, c.node.height ≤ bound → m.node p c b = m'.node p c b
  depth : bound ≤ m.depth
  depth' : bound ≤ m'.depth

namespace ListMatcher.Agree

variable {m m' : ListMatcher} {bound : Nat}

/-- A fixed list is searched alike by two matchers that agree up to the height of its candidates. -/
theorem fixed_eq (h : m.Agree m' bound) {patterns : List Node} {candidates : List Site}
    (hLow : ∀ c ∈ candidates, c.node.height ≤ bound) (b : Branch) :
    m.fixed patterns candidates b = m'.fixed patterns candidates b := by
  induction patterns generalizing candidates b with
  | nil => rfl
  | cons p ps ih =>
      cases hGlob : p.glob? with
      | some w =>
          cases ps with
          | nil => rw [fixed_glob_last m hGlob, fixed_glob_last m' hGlob, h.conditions]
          | cons q qs =>
              rw [fixed_glob m hGlob, fixed_glob m' hGlob, h.conditions]
              congr 1
              funext j
              congr 1
              funext b
              exact ih (fun c hc => hLow c (List.mem_of_mem_drop hc)) b
      | none =>
          cases candidates with
          | nil => rw [fixed_none m hGlob, fixed_none m' hGlob]
          | cons c cs =>
              rw [fixed_cons m hGlob, fixed_cons m' hGlob, h.node p c b (hLow c (by simp))]
              congr 1
              funext b
              exact ih (fun x hx => hLow x (by simp [hx])) b

/-- One spot is searched alike by two matchers that agree up to the heights of its site and of what
follows. -/
theorem atSpot_eq (h : m.Agree m' bound) (dive : Bool) (p : Node) (ps : List Node) {spot : Spot}
    (hLow : ∀ c ∈ spot.site :: spot.following, c.node.height ≤ bound) (b : Branch) :
    m.atSpot dive p ps spot b = m'.atSpot dive p ps spot b := by
  have hHere : ∀ q b, m.node q spot.site b = m'.node q spot.site b :=
    fun q b => h.node q spot.site b (hLow _ (by simp))
  have hSplit : ∀ b, m.splitAt p spot b = m'.splitAt p spot b := by
    intro b
    rw [splitAt, splitAt]
    cases p.splitDeclaration? with
    | none => rfl
    | some halves =>
        cases hFollow : spot.following with
        | nil => rfl
        | cons next rest =>
            have hThere : ∀ q b, m.node q next b = m'.node q next b :=
              fun q b => h.node q next b (hLow next (by simp [hFollow]))
            simp only [hHere, hThere]
  have hMerged : ∀ b, m.mergedAt p ps spot b = m'.mergedAt p ps spot b := by
    intro b
    simp only [mergedAt, hHere]
  rw [m.atSpot_unfold, m'.atSpot_unfold, hHere, hSplit, hMerged, h.conditions]

/-- Spots of low lists are low, and so is what follows them. -/
theorem low_of_mem_positions {dive : Bool} {candidates : List Site} {spot : Spot}
    (hLow : ∀ c ∈ candidates, c.node.height ≤ bound) (h : spot ∈ Spot.positions dive candidates) :
    ∀ c ∈ spot.site :: spot.following, c.node.height ≤ bound := by
  intro c hc
  obtain ⟨upper, hUpper, hBelow⟩ := Spot.mem_descendants_of_mem_positions h hc
  exact Nat.le_trans (Site.height_le_of_mem_descendants hBelow) (hLow upper hUpper)

/-- A scan is searched alike by two matchers that agree up to the heights of its candidates. -/
theorem scan_eq (h : m.Agree m' bound) (dive : Bool) {patterns : List Node}
    {candidates : List Site} (hLow : ∀ c ∈ candidates, c.node.height ≤ bound) (b : Branch) :
    m.scan dive patterns candidates b = m'.scan dive patterns candidates b := by
  -- the elements that a match takes are never more than there are, so the list gets shorter
  induction hLength : patterns.length using Nat.strongRecOn
    generalizing patterns candidates b with
  | ind n ih =>
      have from_eq : ∀ p ps spot b, ps.length < n →
          (∀ c ∈ spot.site :: spot.following, c.node.height ≤ bound) →
          m.scanFrom dive p ps b spot = m'.scanFrom dive p ps b spot := by
        intro p ps spot b hShort hSpot
        rw [scanFrom, scanFrom, h.atSpot_eq dive p ps hSpot]
        congr 1
        funext t
        refine ih _ ?_ (fun c hc => hSpot c ?_) _ rfl
        · exact Nat.lt_of_le_of_lt (by simp) hShort
        · exact List.mem_cons_of_mem _ (List.mem_of_mem_drop hc)
      cases patterns with
      | nil => rw [scan_nil, scan_nil]
      | cons p ps =>
          have hShort : ps.length < n := by rw [← hLength]; exact Nat.lt_succ_self _
          cases hGlob : p.glob? with
          | none =>
              rw [scan_cons m dive hGlob, scan_cons m' dive hGlob, h.conditions,
                Spot.within_eq_positions fun c hc => Nat.le_trans (hLow c hc) h.depth,
                Spot.within_eq_positions fun c hc => Nat.le_trans (hLow c hc) h.depth']
              have hSpots : ∀ spot ∈ Spot.positions dive candidates,
                  ∀ c ∈ spot.site :: spot.following, c.node.height ≤ bound :=
                fun spot hSpot => low_of_mem_positions hLow hSpot
              simp only
              split
              · exact Search.committed_congr
                  (fun spot hSpot => h.atSpot_eq dive p ps (hSpots spot hSpot) b)
                  (fun spot hSpot => from_eq p ps spot b hShort (hSpots spot hSpot))
              · exact Search.firstOf_congr
                  fun spot hSpot => from_eq p ps spot b hShort (hSpots spot hSpot)
          | some w =>
              cases ps with
              | nil => rw [scan_glob_last m dive hGlob, scan_glob_last m' dive hGlob, h.conditions]
              | cons q qs =>
                  rw [scan_glob m dive hGlob, scan_glob m' dive hGlob, h.conditions]
                  apply Search.firstOf_congr
                  rintro ⟨spot, j⟩ hPlace
                  have hSpot : spot ∈ Spot.positions false candidates :=
                    Spot.mem_positions_of_mem_zipIdx hPlace
                  congr 1
                  funext b
                  exact from_eq q qs spot b (Nat.lt_of_succ_lt hShort)
                    (low_of_mem_positions hLow hSpot)

end ListMatcher.Agree

namespace Duty

def sites : Duty → List Site
  | exact _ c | below _ c => [c]
  | list _ _ cs => cs

/-- Duties slot by slot. Slots that only one of the nodes has are left out. -/
def ofFields? (wholeOnly : Bool) : List (Field Node) → List (Field Site) → Option (List Duty)
  | f :: fs, g :: gs => do
    let first ← ofSlots? wholeOnly f g
    let rest ← ofFields? wholeOnly fs gs
    return first ++ rest
  | _, _ => some []

/-- Whether the parts of a pattern have to be matched where they stand. -/
def wholeOnly : Node → Bool
  | .expr _ => true
  | _ => false

/-- The duties of two nodes are those of their fields. -/
theorem ofNodes?_eq (pattern : Node) (candidate : Site) :
    ofNodes? pattern candidate =
      ofFields? (wholeOnly pattern) pattern.fields candidate.fields := by
  have h : ∀ whole (fs : List (Field Node)) (gs : List (Field Site)),
      List.flatten <$> (fs.zip gs).mapM (fun pair => ofSlots? whole pair.1 pair.2) =
        ofFields? whole fs gs := by
    intro whole fs
    induction fs with
    | nil => intro gs; rfl
    | cons f fs ih =>
        intro gs
        cases gs with
        | nil => rfl
        | cons g gs =>
            rw [ofFields?, ← ih gs, List.zip_cons_cons, List.mapM_cons]
            cases ofSlots? whole f g with
            | none => rfl
            | some first => cases (fs.zip gs).mapM fun pair => ofSlots? whole pair.1 pair.2 <;> rfl
  exact h (wholeOnly pattern) pattern.fields candidate.fields

/-- All that can be asked of a pair of slots: the one child, the statements that a statement stands
for, a list, or nothing. -/
theorem ofSlots?_cases {whole : Bool} {f : Field Node} {g : Field Site} {duties : List Duty}
    (h : ofSlots? whole f g = some duties) :
    (∃ p c, ((f = .one p ∧ g = .one c) ∨ (f = .opt (some p) ∧ g = .opt (some c))) ∧
      duties = [if whole then exact p c else below p c]) ∨
    (∃ p c, f = .stmt (some p) ∧ g = .stmt (some c) ∧
      duties = [list .statements (statements p) c.statements]) ∨
    (∃ pairing pairing' ps cs, f = .seq pairing ps ∧ g = .seq pairing' cs ∧
      duties = [list pairing ps cs]) ∨
    ((f = .opt none ∨ f = .stmt none) ∧ duties = []) := by
  unfold ofSlots? at h
  split at h <;> cases h <;> simp

/-- The duties of a row of fields are those of the first pair and then those of the rest. -/
theorem ofFields?_cons {whole : Bool} {f : Field Node} {fs : List (Field Node)} {g : Field Site}
    {gs : List (Field Site)} {duties : List Duty}
    (h : ofFields? whole (f :: fs) (g :: gs) = some duties) :
    ∃ first rest, ofSlots? whole f g = some first ∧ ofFields? whole fs gs = some rest ∧
      duties = first ++ rest := by
  obtain ⟨first, hFirst, h⟩ := Option.bind_eq_some_iff.1 h
  obtain ⟨rest, hRest, h⟩ := Option.bind_eq_some_iff.1 h
  exact ⟨first, rest, hFirst, hRest, (Option.some.inj h).symm⟩

/-- The statements of a body are the body itself or children of it. -/
theorem mem_statements {p q : Node} (h : p ∈ statements q) : p = q ∨ p ∈ q.children := by
  unfold statements at h
  split at h
  · exact .inr (by simpa [Node.children, Node.fields, Field.toList] using h)
  · exact .inl (List.mem_singleton.1 h)

/-- The statements of a body lie in its tree. -/
theorem mem_descendants_of_mem_statements {s c : Site} (h : s ∈ c.statements) :
    s ∈ c.descendants := by
  rw [Site.statements] at h
  split at h
  · exact Site.mem_descendants_child h
  · exact List.mem_singleton.1 h ▸ Site.mem_descendants_self c

/-- What a slot is asked for lies at or below a child in it. -/
theorem exists_child_of_mem_sites {whole : Bool} {fs : List (Field Node)} {gs : List (Field Site)}
    {duties : List Duty} (h : ofFields? whole fs gs = some duties) {duty : Duty}
    (hDuty : duty ∈ duties) {s : Site} (hs : s ∈ duty.sites) :
    ∃ g ∈ gs, ∃ c ∈ g.toList, s ∈ c.descendants := by
  induction fs generalizing gs duties with
  | nil => simp_all [ofFields?]
  | cons f fs ih =>
      cases gs with
      | nil => simp_all [ofFields?]
      | cons g gs =>
          obtain ⟨first, rest, hFirst, hRest, rfl⟩ := ofFields?_cons h
          rcases List.mem_append.1 hDuty with hHere | hLater
          · refine ⟨g, List.mem_cons_self, ?_⟩
            rcases ofSlots?_cases hFirst with
              ⟨p, c, hSlots, rfl⟩ | ⟨p, c, -, rfl, rfl⟩ | ⟨_, _, ps, cs, -, rfl, rfl⟩ | ⟨-, rfl⟩
            · have hs : s = c := by
                cases whole <;> simpa [List.mem_singleton.1 hHere, sites] using hs
              refine ⟨c, ?_, hs ▸ Site.mem_descendants_self c⟩
              rcases hSlots with ⟨-, rfl⟩ | ⟨-, rfl⟩ <;> simp [Field.toList]
            · obtain rfl := List.mem_singleton.1 hHere
              exact ⟨c, by simp [Field.toList], mem_descendants_of_mem_statements hs⟩
            · obtain rfl := List.mem_singleton.1 hHere
              exact ⟨s, hs, Site.mem_descendants_self s⟩
            · simp at hHere
          · obtain ⟨g', hg', hFound⟩ := ih hRest hLater
            exact ⟨g', List.mem_cons_of_mem _ hg', hFound⟩

/-- A duty searches strictly below the candidate it comes from. This is the measure of the recursion
over layers. -/
theorem height_lt_of_mem_sites {pattern : Node} {candidate : Site} {duties : List Duty}
    (h : ofNodes? pattern candidate = some duties) {duty : Duty} (hDuty : duty ∈ duties)
    {s : Site} (hs : s ∈ duty.sites) : s.node.height < candidate.node.height := by
  rw [ofNodes?_eq] at h
  obtain ⟨g, hg, c, hc, hBelow⟩ := exists_child_of_mem_sites h hDuty hs
  exact Nat.lt_of_le_of_lt (Site.height_le_of_mem_descendants hBelow)
    (Site.height_lt_of_mem_children (Site.mem_children_of_field hg hc))

end Duty

namespace ListMatcher.Agree

variable {m m' : ListMatcher} {bound : Nat}

/-- One duty is searched alike by two matchers that agree up to the heights of its sites. -/
theorem perform_eq (h : m.Agree m' bound) {duty : Duty}
    (hLow : ∀ s ∈ duty.sites, s.node.height ≤ bound) (b : Branch) :
    m.perform duty b = m'.perform duty b := by
  cases duty with
  | exact p c => exact h.node p c b (hLow c (by simp [Duty.sites]))
  | below p c =>
      have hc : c.node.height ≤ bound := hLow c (by simp [Duty.sites])
      rw [perform, perform, h.node p c b hc]
      congr 1
      funext _
      split
      · apply Search.firstOf_congr
        intro d hd
        have hLower := Site.height_le_of_mem_descendants (List.mem_of_mem_tail hd)
        exact h.node p d b (Nat.le_trans hLower hc)
      · rfl
  | list pairing ps cs =>
      cases pairing with
      | fixed => exact h.fixed_eq hLow b
      | ordered => exact h.scan_eq false hLow b
      | statements => exact h.scan_eq true hLow b

/-- A row of duties is searched alike by two matchers that agree up to the heights of their
sites. -/
theorem performAll_eq (h : m.Agree m' bound) {duties : List Duty}
    (hLow : ∀ duty ∈ duties, ∀ s ∈ duty.sites, s.node.height ≤ bound) (b : Branch) :
    m.performAll duties b = m'.performAll duties b := by
  induction duties generalizing b with
  | nil => rfl
  | cons duty duties ih =>
      rw [performAll, performAll, h.perform_eq (hLow duty (by simp))]
      congr 1
      funext b
      exact ih (fun d hd => hLow d (by simp [hd])) b

/-- Matching in one form only looks at what is strictly below the candidate. -/
theorem sameForm_eq (h : m.Agree m' bound) (form : Node) {candidate : Site}
    (hLow : candidate.node.height ≤ bound + 1) (b : Branch) :
    m.sameForm form candidate b = m'.sameForm form candidate b := by
  rw [sameForm, sameForm]
  split
  · cases hDuties : Duty.ofNodes? form candidate with
    | none => rfl
    | some duties =>
        apply h.performAll_eq
        intro duty hDuty s hs
        have := Duty.height_lt_of_mem_sites hDuties hDuty hs
        omega
  · rfl

end ListMatcher.Agree

/-- Whether the node is compared with a candidate part by part. Wildcards and holes are not. -/
def Node.isConcrete : Node → Bool
  | .wildcard _ | .hole => false
  | _ => true

/-- What a wildcard stands for if it meets a single candidate. -/
def Wildcard.valueAt (w : Wildcard) (c : Site) : Binding :=
  match w.extent with
  | .scalar => .one c
  | .glob => .many [c]

namespace Conditions

variable (conditions : Conditions)

/-- At every height a wildcard is bound and nothing below it is searched. -/
theorem nodeAt_wildcard (height : Nat) (w : Wildcard) (c : Site) (b : Branch) :
    conditions.nodeAt (height + 1) (.wildcard w) c b = conditions.bind w (w.valueAt c) b := by
  obtain ⟨name, extent⟩ := w
  cases extent <;> rfl

/-- A concrete pattern tries its forms one after the other, each over the layer below. -/
theorem nodeAt_concrete (height : Nat) {p : Node} (hp : p.isConcrete) (c : Site) (b : Branch) :
    conditions.nodeAt (height + 1) p c b =
      .firstOf (fun form =>
        ListMatcher.sameForm ⟨conditions, conditions.nodeAt height, height⟩ form c b)
        (conditions.forms p c.node) := by
  cases p <;> first | rfl | cases hp

/-- Every bound that covers a candidate gives the same search of it. -/
theorem nodeAt_eq_nodeAt {height height' : Nat} {c : Site} (h : c.node.height ≤ height)
    (h' : c.node.height ≤ height') (p : Node) (b : Branch) :
    conditions.nodeAt height p c b = conditions.nodeAt height' p c b := by
  induction height generalizing height' p c b with
  | zero => exact absurd h (Nat.not_le_of_lt c.node.height_pos)
  | succ height ih =>
      cases height' with
      | zero => exact absurd h' (Nat.not_le_of_lt c.node.height_pos)
      | succ height' =>
          cases hp : p.isConcrete with
          | false =>
              cases p <;> cases hp
              · rfl
              · rw [nodeAt_wildcard, nodeAt_wildcard]
          | true =>
              rw [nodeAt_concrete conditions height hp, nodeAt_concrete conditions height' hp]
              apply Search.firstOf_congr
              intro form hForm
              have hAgree : ListMatcher.Agree ⟨conditions, conditions.nodeAt height, height⟩
                  ⟨conditions, conditions.nodeAt height', height'⟩ (min height height') :=
                { conditions := rfl
                  node := fun p c b hc => ih (by omega) (by omega) p b
                  depth := Nat.min_le_left _ _
                  depth' := Nat.min_le_right _ _ }
              exact hAgree.sameForm_eq form (by omega) b

/-- Matching lists, with statement lists searched down to a depth. -/
def lists (depth : Nat) : ListMatcher := ⟨conditions, conditions.node, depth⟩

/-- Two layers agree on every candidate that both can hold. -/
theorem nodeAt_agree {height depth bound : Nat} (h : bound ≤ height) (h' : bound ≤ depth) :
    ListMatcher.Agree ⟨conditions, conditions.nodeAt height, height⟩ (conditions.lists depth)
      bound where
  conditions := rfl
  node p _ b hc := conditions.nodeAt_eq_nodeAt (Nat.le_trans hc h) (Nat.le_refl _) p b
  depth := h
  depth' := h'

/-- The matcher binds a wildcard to the candidate. -/
theorem node_wildcard (w : Wildcard) (c : Site) (b : Branch) :
    conditions.node (.wildcard w) c b = conditions.bind w (w.valueAt c) b := by
  rw [node, ← Nat.succ_pred_eq_of_pos c.node.height_pos]
  exact conditions.nodeAt_wildcard _ w c b

theorem node_hole (c : Site) (b : Branch) : conditions.node .hole c b = .one b := by
  rw [node, ← Nat.succ_pred_eq_of_pos c.node.height_pos]
  rfl

/-- The search of a node, in terms of the searches of what is below it. -/
theorem node_concrete {p : Node} (hp : p.isConcrete) (c : Site) (b : Branch) :
    conditions.node p c b =
      .firstOf (fun form => (conditions.lists c.node.height).sameForm form c b)
        (conditions.forms p c.node) := by
  obtain ⟨height, hHeight⟩ := Nat.exists_eq_succ_of_ne_zero (Nat.ne_of_gt c.node.height_pos)
  rw [node, hHeight, nodeAt_concrete conditions height hp]
  apply Search.firstOf_congr
  intro form hForm
  exact (conditions.nodeAt_agree (Nat.le_refl height) (Nat.le_succ _)).sameForm_eq form (by omega) b

end Conditions

end CodeShape

import OptimalPlans.Proofs.Precedence.SearchInvariant

/-!
# The search as a recursion

The search keeps its own stack of frames.  Without one it would be a recursion: to visit a
name is to visit the names it leads to, one after the other, and to finish it then.  Both
meet the same cycles and finish the names in the same order.

What the order lists is easier to see in the recursion, and it does not depend on cycles or
on whether the names that are led to are names of the graph.
-/

namespace OptimalPlans.Precedence

namespace Graph

variable {graph : Graph}

theorem Leads.mem_names {source target : String} (leads : graph.Leads source target) :
    source ∈ graph.names := by
  by_contra absent
  rw [Leads, Search.targets_eq_nil absent] at leads
  exact List.not_mem_nil leads

/-- The names of the graph that are not in progress. -/
def unentered (graph : Graph) (active : List String) : List String :=
  graph.names.filter (· ∉ active)

theorem length_unentered_lt {active : List String} {name : String}
    (known : name ∈ graph.names) (fresh : name ∉ active) :
    (graph.unentered (name :: active)).length < (graph.unentered active).length := by
  have narrowed : graph.unentered (name :: active) =
      (graph.unentered active).filter (· ≠ name) := by
    simp [unentered, List.filter_filter, List.mem_cons, not_or]
  rw [narrowed, List.length_filter_lt_length_iff_exists]
  exact ⟨name, by simp [unentered, known, fresh], by simp⟩

end Graph

/-! ## Visits -/

/-- What visits have found: the finished names, the latest first, and whether a cycle has
been met. -/
structure Findings where
  order : List String
  cyclic : Bool
deriving DecidableEq, Repr

namespace Findings

def empty : Findings where
  order := []
  cyclic := false

def finish (found : Findings) (name : String) : Findings :=
  { found with order := name :: found.order }

/-- Visits a name while others are in progress.  One of these closes a cycle, and a
finished name is passed by.  Any other name is in progress while the names it leads to are
visited in turn, and finished afterwards. -/
def visit (graph : Graph) (active : List String) (found : Findings) (name : String) :
    Findings :=
  if name ∈ active then { found with cyclic := true }
  else if name ∈ found.order then found
  else
    ((graph.targets name).attach.foldl
      (fun found next => visit graph (name :: active) found next.1) found).finish name
termination_by (graph.unentered active).length
decreasing_by
  -- only names of the graph lead anywhere
  exact Graph.length_unentered_lt (Graph.Leads.mem_names next.2) (by assumption)

/-- Visits every name of a graph. -/
def ofGraph (graph : Graph) : Findings :=
  graph.names.foldl (visit graph []) empty

variable {graph : Graph} {active : List String} {found : Findings} {name : String}

theorem visit_active (member : name ∈ active) :
    visit graph active found name = { found with cyclic := true } := by
  rw [visit, if_pos member]

theorem visit_finished (idle : name ∉ active) (finished : name ∈ found.order) :
    visit graph active found name = found := by
  rw [visit, if_neg idle, if_pos finished]

theorem visit_fresh (idle : name ∉ active) (unfinished : name ∉ found.order) :
    visit graph active found name =
      ((graph.targets name).foldl (visit graph (name :: active)) found).finish name := by
  rw [visit, if_neg idle, if_neg unfinished,
    List.foldl_subtype (g := visit graph (name :: active)) (fun _ _ _ => rfl),
    List.unattach_attach]

/-! ## The stack and the recursion -/

/-- The search that has these findings and a stack. -/
def onStack (found : Findings) (stack : List Frame) : Search where
  stack := stack
  order := found.order
  cyclic := found.cyclic

section Run

variable {next : String} {waiting : List String} {rest : List Frame}

theorem run_idle : Search.run graph (found.onStack []) = found.onStack [] := by
  rw [Search.run]
  rfl

theorem run_finish :
    Search.run graph (found.onStack (⟨name, []⟩ :: rest)) =
      Search.run graph ((found.finish name).onStack rest) := by
  rw [Search.run]
  rfl

theorem run_unseen
    (unseen : (found.onStack (⟨name, next :: waiting⟩ :: rest)).isSeen next = false) :
    Search.run graph (found.onStack (⟨name, next :: waiting⟩ :: rest)) =
      Search.run graph
        (Search.enter graph (found.onStack (⟨name, waiting⟩ :: rest)) next) := by
  rw [Search.run]
  exact dif_pos unseen

theorem run_seen
    (seen : (found.onStack (⟨name, next :: waiting⟩ :: rest)).isSeen next = true) :
    Search.run graph (found.onStack (⟨name, next :: waiting⟩ :: rest)) =
      Search.run graph
        (({ found with cyclic := found.cyclic ||
          (found.onStack (⟨name, next :: waiting⟩ :: rest)).isInProgress next } :
            Findings).onStack (⟨name, waiting⟩ :: rest)) := by
  rw [Search.run]
  exact dif_neg (by simp [seen])

/-- Entering a name on a stack of the names in progress leads to what a visit finds. -/
def EntersAsVisit (graph : Graph) (active : List String) (found : Findings)
    (name : String) : Prop :=
  ∀ stack : List Frame, stack.map Frame.name = active →
    name ∉ active → name ∉ found.order →
      Search.run graph (Search.enter graph (found.onStack stack) name) =
        Search.run graph ((visit graph active found name).onStack stack)

/-- Looking at a name is visiting it. -/
theorem run_look (progress : rest.map Frame.name = active)
    (enters : EntersAsVisit graph (name :: active) found next) :
    Search.run graph (found.onStack (⟨name, next :: waiting⟩ :: rest)) =
      Search.run graph
        ((visit graph (name :: active) found next).onStack (⟨name, waiting⟩ :: rest)) := by
  have inProgress : ∀ waiting : List String,
      (Frame.mk name waiting :: rest).map Frame.name = name :: active := by
    simp [progress]
  have seen_iff : (found.onStack (⟨name, next :: waiting⟩ :: rest)).isSeen next = true ↔
      next ∈ name :: active ∨ next ∈ found.order := by
    rw [Search.isSeen_iff, onStack, inProgress]
  have inProgress_iff :
      (found.onStack (⟨name, next :: waiting⟩ :: rest)).isInProgress next = true ↔
        next ∈ name :: active := by
    rw [Search.isInProgress_iff, onStack, inProgress]
  by_cases met : next ∈ name :: active
  · rw [run_seen (seen_iff.mpr (.inl met)), inProgress_iff.mpr met, Bool.or_true,
      visit_active met]
  · by_cases finished : next ∈ found.order
    · have idle := Bool.eq_false_iff.mpr (mt inProgress_iff.mp met)
      rw [run_seen (seen_iff.mpr (.inr finished)), idle, Bool.or_false,
        visit_finished met finished]
    · have unseen := Bool.eq_false_iff.mpr (mt seen_iff.mp (not_or.mpr ⟨met, finished⟩))
      rw [run_unseen unseen]
      exact enters _ (inProgress waiting) met finished

/-- A frame looks at all names that wait in it, and then its name is finished. -/
theorem run_frame (progress : rest.map Frame.name = active)
    (enters : ∀ next ∈ waiting, ∀ found, EntersAsVisit graph (name :: active) found next) :
    Search.run graph (found.onStack (⟨name, waiting⟩ :: rest)) =
      Search.run graph
        (((waiting.foldl (visit graph (name :: active)) found).finish name).onStack rest) := by
  induction waiting generalizing found with
  | nil => exact run_finish
  | cons next waiting induction =>
      obtain ⟨first, later⟩ := List.forall_mem_cons.mp enters
      rw [run_look progress (first found), induction later, List.foldl_cons]

/-- Entering a name is visiting it. -/
theorem entersAsVisit (graph : Graph) (active : List String) (found : Findings)
    (name : String) : EntersAsVisit graph active found name := by
  induction active, found, name using visit.induct graph with
  | case1 active found name met => exact fun _ _ idle => absurd met idle
  | case2 active found name _ finished =>
      exact fun _ _ _ unfinished => absurd finished unfinished
  | case3 active found name idle unfinished induction =>
      intro stack progress _ _
      rw [visit_fresh idle unfinished]
      exact run_frame progress fun next leads found => induction found ⟨next, leads⟩

theorem fromRoot_onStack :
    Search.fromRoot graph (found.onStack []) name =
      (visit graph [] found name).onStack [] := by
  have seen_iff : (found.onStack []).isSeen name = true ↔ name ∈ found.order := by
    rw [Search.isSeen_iff]
    simp [onStack]
  rw [Search.fromRoot]
  by_cases finished : name ∈ found.order
  · rw [if_pos (seen_iff.mpr finished), visit_finished List.not_mem_nil finished]
  · rw [if_neg (mt seen_iff.mp finished),
      entersAsVisit graph [] found name [] rfl List.not_mem_nil finished, run_idle]

theorem foldl_fromRoot_onStack (found : Findings) (roots : List String) :
    roots.foldl (Search.fromRoot graph) (found.onStack []) =
      (roots.foldl (visit graph []) found).onStack [] := by
  induction roots generalizing found with
  | nil => rfl
  | cons root roots induction =>
      rw [List.foldl_cons, fromRoot_onStack, induction, List.foldl_cons]

end Run

end Findings

/-! ## What visits finish -/

/-- Finished names are listed once and not in progress, and lead to names that are finished
or in progress. -/
structure Settled (graph : Graph) (active order : List String) : Prop where
  nodup : order.Nodup
  idle : ∀ name ∈ order, name ∉ active
  closed : ∀ source ∈ order, ∀ target, graph.Leads source target →
    target ∈ order ∨ target ∈ active

/-- Visits to some names finish those that are not in progress, and only finish names that
can be reached from them. -/
structure Finishes (graph : Graph) (active names before after : List String) : Prop where
  settled : Settled graph active after
  kept : before ⊆ after
  visited : ∀ name ∈ names, name ∈ after ∨ name ∈ active
  reached : ∀ other ∈ after, other ∈ before ∨
    ∃ name ∈ names, Relation.ReflTransGen graph.Leads name other

section Finishes

variable {graph : Graph} {active names before between after : List String} {name : String}

theorem Settled.enter (settled : Settled graph active before) (unfinished : name ∉ before) :
    Settled graph (name :: active) before where
  nodup := settled.nodup
  idle := by
    intro other member inProgress
    rcases List.mem_cons.mp inProgress with rfl | old
    · exact unfinished member
    · exact settled.idle other member old
  closed source member target leads :=
    (settled.closed source member target leads).imp_right (List.mem_cons_of_mem _)

theorem Finishes.refl (settled : Settled graph active before)
    (visited : name ∈ before ∨ name ∈ active) :
    Finishes graph active [name] before before where
  settled := settled
  kept := List.Subset.refl _
  visited := by simpa using visited
  reached _ member := .inl member

theorem Finishes.cons (first : Finishes graph active [name] before between)
    (rest : Finishes graph active names between after) :
    Finishes graph active (name :: names) before after where
  settled := rest.settled
  kept := List.Subset.trans first.kept rest.kept
  visited := by
    intro other member
    rcases List.mem_cons.mp member with rfl | later
    · exact (first.visited other List.mem_cons_self).imp_left (rest.kept ·)
    · exact rest.visited other later
  reached := by
    intro other member
    rcases rest.reached other member with found | ⟨start, later, reaches⟩
    · refine (first.reached other found).imp_right fun ⟨start, same, reaches⟩ => ?_
      exact ⟨start, List.mem_cons.mpr (.inl (List.mem_singleton.mp same)), reaches⟩
    · exact .inr ⟨start, List.mem_cons_of_mem _ later, reaches⟩

/-- When the names that a name leads to are visited, the name itself is finished. -/
theorem Finishes.finish (idle : name ∉ active)
    (targets : Finishes graph (name :: active) (graph.targets name) before after) :
    Finishes graph active [name] before (name :: after) where
  settled := by
    obtain ⟨nodup, apart, closed⟩ := targets.settled
    refine ⟨List.nodup_cons.mpr ⟨fun member => apart name member List.mem_cons_self, nodup⟩,
      ?_, ?_⟩
    · intro other member
      rcases List.mem_cons.mp member with rfl | old
      · exact idle
      · exact fun inProgress => apart other old (List.mem_cons_of_mem _ inProgress)
    · intro source member target leads
      have settled : target ∈ after ∨ target ∈ name :: active := by
        rcases List.mem_cons.mp member with rfl | old
        · exact targets.visited target leads
        · exact closed source old target leads
      rw [List.mem_cons] at settled ⊢
      tauto
  kept := List.subset_cons_of_subset _ targets.kept
  visited := by simp
  reached := by
    intro other member
    rcases List.mem_cons.mp member with rfl | old
    · exact .inr ⟨other, List.mem_cons_self, .refl⟩
    · refine (targets.reached other old).imp_right fun ⟨next, leads, reaches⟩ => ?_
      exact ⟨name, List.mem_cons_self, .head leads reaches⟩

end Finishes

namespace Findings

variable {graph : Graph} {active : List String} {found : Findings}

theorem foldl_visit_finishes {names : List String}
    (each : ∀ name ∈ names, ∀ found, Settled graph active found.order →
      Finishes graph active [name] found.order (visit graph active found name).order)
    (settled : Settled graph active found.order) :
    Finishes graph active names found.order
      (names.foldl (visit graph active) found).order := by
  induction names generalizing found with
  | nil => exact ⟨settled, List.Subset.refl _, by simp, fun _ member => .inl member⟩
  | cons name names induction =>
      obtain ⟨first, later⟩ := List.forall_mem_cons.mp each
      have begun := first found settled
      exact begun.cons (induction later begun.settled)

theorem visit_finishes (name : String) (settled : Settled graph active found.order) :
    Finishes graph active [name] found.order (visit graph active found name).order := by
  induction active, found, name using visit.induct graph with
  | case1 active found name met =>
      rw [visit_active met]
      exact Finishes.refl settled (.inr met)
  | case2 active found name idle finished =>
      rw [visit_finished idle finished]
      exact Finishes.refl settled (.inl finished)
  | case3 active found name idle unfinished induction =>
      rw [visit_fresh idle unfinished]
      apply Finishes.finish idle
      apply foldl_visit_finishes _ (settled.enter unfinished)
      exact fun next leads found => induction found ⟨next, leads⟩

theorem ofGraph_finishes (graph : Graph) :
    Finishes graph [] graph.names [] (ofGraph graph).order := by
  have begins : Settled graph [] empty.order := ⟨List.nodup_nil, by simp, by simp [empty]⟩
  exact foldl_visit_finishes (fun name _ _ settled => visit_finishes name settled) begins

/-- Visits to all names of a graph finish the names that can be reached from them. -/
theorem mem_order_ofGraph_iff {name : String} :
    name ∈ (ofGraph graph).order ↔
      ∃ root ∈ graph.names, Relation.ReflTransGen graph.Leads root name := by
  obtain ⟨settled, _, visited, reached⟩ := ofGraph_finishes graph
  constructor
  · exact fun member => (reached name member).resolve_left List.not_mem_nil
  · rintro ⟨root, known, reaches⟩
    induction reaches with
    | refl => exact (visited root known).resolve_right List.not_mem_nil
    | tail _ leads induction =>
        exact (settled.closed _ induction _ leads).resolve_right List.not_mem_nil

end Findings

/-- The search with a stack answers as the recursion does: with the same cycles and the same
order.  The order lists the names of the graph and all that can be reached from them, each
once, whether there is a cycle or not. -/
theorem depthFirstOrder_eq_visits (graph : Graph) :
    depthFirstOrder graph =
        ((Findings.ofGraph graph).cyclic, (Findings.ofGraph graph).order) ∧
      (depthFirstOrder graph).2.Nodup ∧
      ∀ name, name ∈ (depthFirstOrder graph).2 ↔
        ∃ root ∈ graph.names, Relation.ReflTransGen graph.Leads root name := by
  have searched : depthFirstOrder graph =
      ((Findings.ofGraph graph).cyclic, (Findings.ofGraph graph).order) :=
    congrArg (fun search : Search => (search.cyclic, search.order))
      (Findings.foldl_fromRoot_onStack .empty graph.names)
  rw [searched]
  exact ⟨rfl, (Findings.ofGraph_finishes graph).settled.nodup,
    fun name => Findings.mem_order_ofGraph_iff⟩

/-- A name that leads to itself closes a cycle, and a name without an entry is listed too. -/
example : depthFirstOrder [("dig", ["pour", "dig"]), ("paint", [])] =
    (true, ["paint", "dig", "pour"]) := by
  cbv

end OptimalPlans.Precedence

import OptimalPlans.Precedence.Network

/-!
# Depth-first search

Names are searched with a stack of frames: a name in progress and the names it
still has to look at.  A name is finished when it has looked at all of them, and
finished names are put in front of the order.  Meeting a name in progress means a
cycle.  The search ends because a frame looks at fewer and fewer names, and a name
is entered only once.
-/

namespace OptimalPlans.Precedence

structure Frame where
  name : String
  waiting : List String
deriving DecidableEq, Repr

/-- A search: the names in progress, the names finished, the latest first, and
whether a cycle has been met. -/
structure Search where
  stack : List Frame
  order : List String
  cyclic : Bool
deriving DecidableEq, Repr

namespace Search

def empty : Search where
  stack := []
  order := []
  cyclic := false

def isInProgress (search : Search) (name : String) : Bool :=
  search.stack.any fun frame => frame.name == name

def isSeen (search : Search) (name : String) : Bool :=
  search.order.contains name || search.isInProgress name

def enter (graph : Graph) (search : Search) (name : String) : Search :=
  { search with stack := ⟨name, graph.targets name⟩ :: search.stack }

/-- The work of looking at some names and finishing. -/
def effort (waiting : List String) : Nat :=
  2 * waiting.length + 1

/-- The work of several names. -/
def totalEffort : List (List String) → Nat
  | [] => 0
  | waiting :: rest => effort waiting + totalEffort rest

/-- The work left: for the frames, and for the names not seen yet. -/
def work (graph : Graph) (search : Search) : Nat :=
  totalEffort (search.stack.map Frame.waiting) +
    totalEffort ((graph.names.filter fun name => !search.isSeen name).map graph.targets)

theorem targets_eq_nil {graph : Graph} {name : String}
    (absent : name ∉ graph.names) : graph.targets name = [] := by
  have none : List.lookup name graph = none := by
    induction graph with
    | nil => rfl
    | cons entry rest ih =>
        have parts : name ≠ entry.1 ∧ name ∉ NameMap.names rest := by
          simpa [NameMap.names] using absent
        have different : (name == entry.1) = false := by simpa using parts.1
        rw [List.lookup_cons, different]
        exact ih parts.2
  simp [Graph.targets, NameMap.get?, none]

theorem totalEffort_filter_le (graph : Graph) (names : List String)
    (keeps drops : String → Bool)
    (implied : ∀ name, drops name = true → keeps name = true) :
    totalEffort ((names.filter drops).map graph.targets) ≤
      totalEffort ((names.filter keeps).map graph.targets) := by
  induction names with
  | nil => exact Nat.le_refl _
  | cons name rest ih =>
      cases dropped : drops name with
      | true =>
          simp only [List.filter_cons, dropped, implied name dropped, if_true,
            List.map_cons, totalEffort]
          exact Nat.add_le_add_left ih _
      | false =>
          cases kept : keeps name with
          | true =>
              simp only [List.filter_cons, dropped, kept, if_true, List.map_cons,
                totalEffort, Bool.false_eq_true, if_false]
              exact Nat.le_trans ih (Nat.le_add_left _ _)
          | false =>
              simp only [List.filter_cons, dropped, kept, Bool.false_eq_true, if_false]
              exact ih

theorem totalEffort_filter_add_le (graph : Graph) (names : List String)
    (keeps drops : String → Bool) (chosen : String)
    (implied : ∀ name, drops name = true → keeps name = true)
    (member : chosen ∈ names) (kept : keeps chosen = true)
    (dropped : drops chosen = false) :
    totalEffort ((names.filter drops).map graph.targets) +
        effort (graph.targets chosen) ≤
      totalEffort ((names.filter keeps).map graph.targets) := by
  induction names with
  | nil => cases member
  | cons name rest ih =>
      rcases List.mem_cons.mp member with rfl | later
      · have bound := totalEffort_filter_le graph rest keeps drops implied
        simp only [List.filter_cons, dropped, kept, if_true, List.map_cons, totalEffort,
          Bool.false_eq_true, if_false]
        omega
      · have bound := ih later
        cases lost : drops name with
        | true =>
            simp only [List.filter_cons, lost, implied name lost, if_true, List.map_cons,
              totalEffort]
            omega
        | false =>
            cases held : keeps name with
            | true =>
                simp only [List.filter_cons, lost, held, if_true, List.map_cons,
                  totalEffort, Bool.false_eq_true, if_false]
                omega
            | false =>
                simp only [List.filter_cons, lost, held, Bool.false_eq_true, if_false]
                exact bound

theorem work_finish (graph : Graph) (search : Search) (name : String)
    (rest : List Frame) (stack : search.stack = ⟨name, []⟩ :: rest) :
    work graph { search with stack := rest, order := name :: search.order } <
      work graph search := by
  have seen : ∀ other,
      isSeen { search with stack := rest, order := name :: search.order } other =
        search.isSeen other := by
    intro other
    simp only [isSeen, isInProgress, stack, List.contains_cons, List.any_cons]
    rw [BEq.comm (a := other) (b := name)]
    cases (name == other) <;> cases search.order.contains other <;> simp
  simp only [work, seen, stack, List.map_cons, totalEffort, effort]
  simp

theorem work_look (graph : Graph) (search : Search) (name next : String)
    (waiting : List String) (rest : List Frame) (cyclic : Bool)
    (stack : search.stack = ⟨name, next :: waiting⟩ :: rest) :
    work graph { search with stack := ⟨name, waiting⟩ :: rest, cyclic } <
      work graph search := by
  have seen : ∀ other,
      isSeen { search with stack := ⟨name, waiting⟩ :: rest, cyclic } other =
        search.isSeen other := by
    intro other
    simp only [isSeen, isInProgress, stack, List.any_cons]
  simp only [work, seen, stack, List.map_cons, totalEffort, effort, List.length_cons]
  omega

theorem work_enter (graph : Graph) (search : Search) (name next : String)
    (waiting : List String) (rest : List Frame)
    (stack : search.stack = ⟨name, next :: waiting⟩ :: rest)
    (unseen : search.isSeen next = false) :
    work graph (enter graph { search with stack := ⟨name, waiting⟩ :: rest } next) <
      work graph search := by
  have seen : ∀ other,
      isSeen (enter graph { search with stack := ⟨name, waiting⟩ :: rest } next) other =
        (search.isSeen other || next == other) := by
    intro other
    simp only [isSeen, isInProgress, enter, stack, List.any_cons]
    cases (next == other) <;> simp
  have implied : ∀ other,
      (!(search.isSeen other || next == other)) = true →
        (!search.isSeen other) = true := by
    intro other h
    cases seenOther : search.isSeen other <;> simp_all
  by_cases member : next ∈ graph.names
  · have bound := totalEffort_filter_add_le graph graph.names
      (fun other => !search.isSeen other)
      (fun other => !(search.isSeen other || next == other)) next implied member
      (by simp [unseen]) (by simp)
    simp only [work, seen]
    simp only [enter, stack, List.map_cons, totalEffort]
    simp only [effort, List.length_cons] at bound ⊢
    omega
  · have bound := totalEffort_filter_le graph graph.names
      (fun other => !search.isSeen other)
      (fun other => !(search.isSeen other || next == other)) implied
    simp only [work, seen]
    simp only [enter, stack, List.map_cons, totalEffort, targets_eq_nil member]
    simp only [effort, List.length_cons, List.length_nil] at bound ⊢
    omega

/-- Searches until the stack is empty. -/
def run (graph : Graph) (search : Search) : Search :=
  match _ : search.stack with
  | [] => search
  | ⟨name, []⟩ :: rest =>
      run graph { search with stack := rest, order := name :: search.order }
  | ⟨name, next :: waiting⟩ :: rest =>
      if _ : search.isSeen next = false then
        run graph (enter graph { search with stack := ⟨name, waiting⟩ :: rest } next)
      else
        run graph { search with
          stack := ⟨name, waiting⟩ :: rest
          cyclic := search.cyclic || search.isInProgress next }
termination_by search.work graph
decreasing_by
  · exact work_finish graph search name rest (by assumption)
  · exact work_enter graph search name next waiting rest (by assumption) (by assumption)
  · exact work_look graph search name next waiting rest _ (by assumption)

/-- Searches from a name, unless it has been seen. -/
def fromRoot (graph : Graph) (search : Search) (root : String) : Search :=
  if search.isSeen root then search else run graph (enter graph search root)

end Search

/-- Whether a graph has a cycle, and its names in the order of a search from every
name: when there is no cycle, each name stands before those it leads to. -/
def depthFirstOrder (graph : Graph) : Bool × List String :=
  let search := graph.names.foldl (Search.fromRoot graph) Search.empty
  (search.cyclic, search.order)

end OptimalPlans.Precedence

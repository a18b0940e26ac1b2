import Mathlib
import OptimalPlans.Precedence.Search

/-!
# What the search knows

The names in progress form a path, the one entered last at its end, and a finished name
only leads to names that were finished before it.  So meeting a name in progress closes
a cycle, and as long as none is met the finished names are in topological order.
-/

namespace OptimalPlans.Precedence

namespace Graph

/-- One step from a name to a name it leads to. -/
def Leads (graph : Graph) (source target : String) : Prop :=
  target ∈ graph.targets source

/-- Names lead to names of the graph only. -/
def Closed (graph : Graph) : Prop :=
  ∀ source target, graph.Leads source target → target ∈ graph.names

/-- Names of which each only leads to later ones. -/
def Sorted (graph : Graph) : List String → Prop
  | [] => True
  | name :: rest => (∀ target ∈ graph.targets name, target ∈ rest) ∧ graph.Sorted rest

/-- Frames whose names only lead to names that wait, to settled ones, or to names of
frames above. -/
def Explored (graph : Graph) (settled : List String) : List Frame → Prop
  | [] => True
  | frame :: below =>
      (∀ target ∈ graph.targets frame.name, target ∈ frame.waiting ∨ target ∈ settled) ∧
        graph.Explored (frame.name :: settled) below

/-- Names of which each was found from the next one. -/
def IsPath (graph : Graph) (names : List String) : Prop :=
  names.IsChain fun upper lower => graph.Leads lower upper

variable {graph : Graph}

theorem Explored.mono {settled more : List String} {stack : List Frame}
    (explored : graph.Explored settled stack) (subset : settled ⊆ more) :
    graph.Explored more stack := by
  induction stack generalizing settled more with
  | nil => trivial
  | cons frame below induction =>
      refine ⟨fun target leads => ?_, induction explored.2 (List.cons_subset_cons _ subset)⟩
      exact (explored.1 target leads).imp_right fun member => subset member

/-- In a sorted list of names each stands before those it leads to. -/
theorem Sorted.idxOf_lt {names : List String} (sorted : graph.Sorted names)
    (nodup : names.Nodup) {source target : String} (member : source ∈ names)
    (leads : graph.Leads source target) :
    target ∈ names ∧ names.idxOf source < names.idxOf target := by
  induction names with
  | nil => cases member
  | cons name rest induction =>
      obtain ⟨absent, restNodup⟩ := List.nodup_cons.mp nodup
      have later : target ∈ rest → name ≠ target := fun found same => absent (same ▸ found)
      rcases List.mem_cons.mp member with rfl | old
      · have found : target ∈ rest := sorted.1 target leads
        refine ⟨List.mem_cons_of_mem _ found, ?_⟩
        rw [List.idxOf_cons_self, List.idxOf_cons_ne _ (later found)]
        exact Nat.succ_pos _
      · obtain ⟨found, before⟩ := induction sorted.2 restNodup old
        have different : name ≠ source := fun same => absent (same ▸ old)
        refine ⟨List.mem_cons_of_mem _ found, ?_⟩
        rw [List.idxOf_cons_ne _ different, List.idxOf_cons_ne _ (later found)]
        exact Nat.succ_lt_succ before

/-- Sorted names do not lead back to themselves. -/
theorem Sorted.acyclic {names : List String} (sorted : graph.Sorted names)
    (nodup : names.Nodup) {name : String} (member : name ∈ names) :
    ¬ Relation.TransGen graph.Leads name name := by
  have advances : ∀ other, Relation.TransGen graph.Leads name other →
      other ∈ names ∧ names.idxOf name < names.idxOf other := by
    intro other reached
    induction reached with
    | single leads => exact sorted.idxOf_lt nodup member leads
    | tail _ leads induction =>
        obtain ⟨found, before⟩ := sorted.idxOf_lt nodup induction.1 leads
        exact ⟨found, induction.2.trans before⟩
  intro cycle
  exact lt_irrefl _ (advances name cycle).2

/-- Every name of a path leads to its first one. -/
theorem IsPath.reaches {top name : String} {below : List String}
    (path : graph.IsPath (top :: below)) (member : name ∈ top :: below) :
    Relation.ReflTransGen graph.Leads name top := by
  induction below generalizing top with
  | nil =>
      obtain rfl := List.mem_singleton.mp member
      exact .refl
  | cons next rest induction =>
      obtain ⟨leads, path⟩ := List.isChain_cons_cons.mp path
      rcases List.mem_cons.mp member with rfl | lower
      · exact .refl
      · exact (induction path lower).tail leads

end Graph

/-- Frames on a path, whose waiting names are targets, beside finished names. -/
structure Tracked (graph : Graph) (stack : List Frame) (order : List String) : Prop where
  path : graph.IsPath (stack.map Frame.name)
  waiting : ∀ frame ∈ stack, frame.waiting ⊆ graph.targets frame.name
  nodup : (stack.map Frame.name ++ order).Nodup
  known : ∀ name, name ∈ stack.map Frame.name ∨ name ∈ order → name ∈ graph.names

namespace Tracked

variable {graph : Graph} {name next : String} {waiting order : List String}
  {rest : List Frame}

/-- A frame may skip the first name that waits. -/
theorem skip (tracked : Tracked graph (⟨name, next :: waiting⟩ :: rest) order) :
    Tracked graph (⟨name, waiting⟩ :: rest) order := by
  refine ⟨tracked.path, fun frame member => ?_, tracked.nodup, tracked.known⟩
  rcases List.mem_cons.mp member with rfl | below
  · intro target later
    apply tracked.waiting _ List.mem_cons_self
    exact List.mem_cons_of_mem _ later
  · exact tracked.waiting frame (List.mem_cons_of_mem _ below)

theorem leads (tracked : Tracked graph (⟨name, next :: waiting⟩ :: rest) order) :
    graph.Leads name next :=
  tracked.waiting _ List.mem_cons_self List.mem_cons_self

/-- A name that waits for nothing may finish. -/
theorem finish (tracked : Tracked graph (⟨name, []⟩ :: rest) order) :
    Tracked graph rest (name :: order) := by
  have moved : (rest.map Frame.name ++ name :: order).Perm
      (name :: rest.map Frame.name ++ order) := List.perm_middle
  refine ⟨tracked.path.tail, fun frame member => ?_, ?_, fun other seen => ?_⟩
  · exact tracked.waiting frame (List.mem_cons_of_mem _ member)
  · exact moved.nodup_iff.mpr tracked.nodup
  · apply tracked.known
    rw [List.map_cons, List.mem_cons, or_right_comm]
    rw [List.mem_cons] at seen
    tauto

/-- A target that is neither in progress nor finished may be entered. -/
theorem enter (tracked : Tracked graph (⟨name, waiting⟩ :: rest) order)
    (leads : graph.Leads name next) (known : next ∈ graph.names)
    (idle : next ∉ (⟨name, waiting⟩ :: rest).map Frame.name) (unfinished : next ∉ order) :
    Tracked graph (⟨next, graph.targets next⟩ :: ⟨name, waiting⟩ :: rest) order := by
  refine ⟨List.isChain_cons_cons.mpr ⟨leads, tracked.path⟩, fun frame member => ?_, ?_, ?_⟩
  · rcases List.mem_cons.mp member with rfl | old
    · exact List.Subset.refl _
    · exact tracked.waiting frame old
  · apply List.nodup_cons.mpr
    refine ⟨fun member => ?_, tracked.nodup⟩
    rcases List.mem_append.mp member with inProgress | finished
    · exact idle inProgress
    · exact unfinished finished
  · intro other seen
    rw [List.map_cons, List.mem_cons, or_assoc] at seen
    rcases seen with rfl | old
    · exact known
    · exact tracked.known other old

end Tracked

namespace Search

variable {graph : Graph} {search : Search} {name next : String} {waiting : List String}
  {rest : List Frame}

theorem isInProgress_iff :
    search.isInProgress name = true ↔ name ∈ search.stack.map Frame.name := by
  simp [isInProgress]

theorem isSeen_iff :
    search.isSeen name = true ↔
      name ∈ search.stack.map Frame.name ∨ name ∈ search.order := by
  simp [isSeen, isInProgress, or_comm]

/-- What holds of a search at every moment. -/
structure Sound (graph : Graph) (search : Search) : Prop where
  tracked : Tracked graph search.stack search.order
  sorted : search.cyclic = false → graph.Sorted search.order
  explored : search.cyclic = false → graph.Explored search.order search.stack
  cycle : search.cyclic = true → ∃ name, Relation.TransGen graph.Leads name name

theorem sound_empty (graph : Graph) : Sound graph empty where
  tracked := ⟨List.isChain_nil, by simp [empty], List.nodup_nil, by simp [empty]⟩
  sorted _ := trivial
  explored _ := trivial
  cycle impossible := by cases impossible

namespace Sound

/-- A name that waits for nothing is finished: all it leads to is finished already. -/
theorem finish (sound : Sound graph search) (stack : search.stack = ⟨name, []⟩ :: rest) :
    Sound graph { search with stack := rest, order := name :: search.order } := by
  obtain ⟨tracked, sorted, explored, cycle⟩ := sound
  rw [stack] at tracked explored
  refine ⟨tracked.finish, fun none => ⟨fun target leads => ?_, sorted none⟩,
    fun none => (explored none).2, cycle⟩
  exact ((explored none).1 target leads).resolve_left List.not_mem_nil

/-- A name that has not been seen is entered. -/
theorem enter (sound : Sound graph search) (closed : graph.Closed)
    (stack : search.stack = ⟨name, next :: waiting⟩ :: rest)
    (unseen : search.isSeen next = false) :
    Sound graph (Search.enter graph { search with stack := ⟨name, waiting⟩ :: rest }
      next) := by
  obtain ⟨tracked, sorted, explored, cycle⟩ := sound
  have fresh : ¬ (next ∈ search.stack.map Frame.name ∨ next ∈ search.order) := by
    rw [← isSeen_iff, unseen]
    exact Bool.false_ne_true
  rw [stack] at tracked explored fresh
  obtain ⟨idle, unfinished⟩ := not_or.mp fresh
  have leads := tracked.leads
  refine ⟨tracked.skip.enter leads (closed name next leads) idle unfinished, sorted, ?_,
    cycle⟩
  intro none
  obtain ⟨looked, below⟩ := explored none
  refine ⟨fun target leads => .inl leads, fun target leads => ?_, ?_⟩
  · rcases looked target leads with later | settled
    · rcases List.mem_cons.mp later with rfl | waits
      · exact .inr List.mem_cons_self
      · exact .inl waits
    · exact .inr (List.mem_cons_of_mem _ settled)
  · apply below.mono
    apply List.cons_subset_cons
    exact List.subset_cons_self _ _

/-- Looking at a name that has been seen finds a cycle exactly when it is in progress. -/
theorem look (sound : Sound graph search)
    (stack : search.stack = ⟨name, next :: waiting⟩ :: rest)
    (seen : search.isSeen next = true) :
    Sound graph { search with
      stack := ⟨name, waiting⟩ :: rest
      cyclic := search.cyclic || search.isInProgress next } := by
  obtain ⟨tracked, sorted, explored, cycle⟩ := sound
  have closes : search.isInProgress next = true →
      Relation.TransGen graph.Leads next next := by
    intro inProgress
    have member := isInProgress_iff.mp inProgress
    rw [stack] at member tracked
    exact .tail' (tracked.path.reaches member) tracked.leads
  have finished : search.isInProgress next = false → next ∈ search.order := by
    intro idle
    simpa [isSeen, idle] using seen
  rw [stack] at tracked explored
  refine ⟨tracked.skip, fun none => sorted (Bool.or_eq_false_iff.mp none).1, ?_, ?_⟩
  · intro none
    obtain ⟨before, idle⟩ := Bool.or_eq_false_iff.mp none
    obtain ⟨looked, below⟩ := explored before
    refine ⟨fun target leads => ?_, below⟩
    rcases looked target leads with later | settled
    · rcases List.mem_cons.mp later with rfl | waits
      · exact .inr (finished idle)
      · exact .inl waits
    · exact .inr settled
  · intro found
    rcases Bool.or_eq_true_iff.mp found with before | inProgress
    · exact cycle before
    · exact ⟨next, closes inProgress⟩

/-- A search runs until no name is in progress; what was seen is finished then. -/
theorem run (sound : Sound graph search) (closed : graph.Closed) :
    Sound graph (Search.run graph search) ∧ (Search.run graph search).stack = [] ∧
      ∀ name, search.isSeen name = true → name ∈ (Search.run graph search).order := by
  fun_induction Search.run graph search with
  | case1 search stack =>
      refine ⟨sound, stack, fun name seen => ?_⟩
      simpa [isSeen_iff, stack] using seen
  | case2 search name rest stack induction =>
      obtain ⟨final, empty, finished⟩ := induction (sound.finish stack)
      refine ⟨final, empty, fun other seen => finished other ?_⟩
      rw [isSeen_iff] at seen ⊢
      rw [stack, List.map_cons, List.mem_cons] at seen
      rw [List.mem_cons]
      tauto
  | case3 search name next waiting rest stack unseen induction =>
      obtain ⟨final, empty, finished⟩ := induction (sound.enter closed stack unseen)
      refine ⟨final, empty, fun other seen => finished other ?_⟩
      rw [isSeen_iff] at seen ⊢
      rw [stack] at seen
      exact seen.imp_left (List.mem_cons_of_mem _)
  | case4 search name next waiting rest stack seen induction =>
      have seen : search.isSeen next = true := by simpa using seen
      obtain ⟨final, empty, finished⟩ := induction (sound.look stack seen)
      refine ⟨final, empty, fun other seen => finished other ?_⟩
      rw [isSeen_iff] at seen ⊢
      rw [stack] at seen
      exact seen

/-- Searching from a name finishes it and keeps what is finished. -/
theorem fromRoot (sound : Sound graph search) (closed : graph.Closed)
    (idle : search.stack = []) {root : String} (known : root ∈ graph.names) :
    Sound graph (Search.fromRoot graph search root) ∧
      (Search.fromRoot graph search root).stack = [] ∧
      ∀ name, name = root ∨ name ∈ search.order →
        name ∈ (Search.fromRoot graph search root).order := by
  unfold Search.fromRoot
  split
  next seen =>
      refine ⟨sound, idle, fun name either => either.elim (fun same => ?_) id⟩
      simpa [isSeen_iff, idle, same] using seen
  next unseen =>
      have unfinished : root ∉ search.order := by
        simpa [isSeen_iff, idle] using unseen
      obtain ⟨tracked, sorted, _, cycle⟩ := sound
      rw [idle] at tracked
      have entered : Sound graph (Search.enter graph search root) := by
        refine ⟨?_, sorted, fun none => ?_, cycle⟩
        · rw [Search.enter, idle]
          refine ⟨List.isChain_singleton _, by simp, ?_, fun name seen => ?_⟩
          · exact List.nodup_cons.mpr ⟨unfinished, tracked.nodup⟩
          · rcases seen with inProgress | finished
            · obtain rfl := List.mem_singleton.mp inProgress
              exact known
            · exact tracked.known name (.inr finished)
        · rw [Search.enter, idle]
          exact ⟨fun target leads => .inl leads, trivial⟩
      obtain ⟨final, empty, finished⟩ := entered.run closed
      refine ⟨final, empty, fun name either => finished name ?_⟩
      rw [isSeen_iff, Search.enter, List.map_cons, List.mem_cons]
      tauto

end Sound

/-- Searching from some names finishes all of them. -/
theorem foldl_fromRoot (closed : graph.Closed) (roots : List String)
    (known : roots ⊆ graph.names) (sound : Sound graph search)
    (idle : search.stack = []) :
    Sound graph (roots.foldl (fromRoot graph) search) ∧
      (roots.foldl (fromRoot graph) search).stack = [] ∧
      ∀ name, name ∈ roots ∨ name ∈ search.order →
        name ∈ (roots.foldl (fromRoot graph) search).order := by
  induction roots generalizing search with
  | nil => exact ⟨sound, idle, by simp⟩
  | cons root rest induction =>
      obtain ⟨rootKnown, restKnown⟩ := List.cons_subset.mp known
      obtain ⟨next, empty, finished⟩ := sound.fromRoot closed idle rootKnown
      obtain ⟨final, ends, all⟩ := induction restKnown next empty
      refine ⟨final, ends, fun name either => all name ?_⟩
      rw [List.mem_cons] at either
      have done := finished name
      tauto

end Search

/-- The search decides whether there is a cycle.  It lists every name once, and in
topological order when there is none. -/
theorem depthFirstOrder_sound {graph : Graph} (closed : graph.Closed) :
    (depthFirstOrder graph).2.Nodup ∧
      (∀ name, name ∈ (depthFirstOrder graph).2 ↔ name ∈ graph.names) ∧
      ((depthFirstOrder graph).1 = true ↔
        ∃ name, Relation.TransGen graph.Leads name name) ∧
      ((depthFirstOrder graph).1 = false → graph.Sorted (depthFirstOrder graph).2) := by
  obtain ⟨sound, idle, finished⟩ := Search.foldl_fromRoot closed graph.names
    (List.Subset.refl _) (Search.sound_empty graph) rfl
  have distinct : (depthFirstOrder graph).2.Nodup := by
    have all := sound.tracked.nodup
    rw [idle] at all
    exact all
  have listed : ∀ name, name ∈ (depthFirstOrder graph).2 ↔ name ∈ graph.names := fun name =>
    ⟨fun member => sound.tracked.known name (.inr member), fun member =>
      finished name (.inl member)⟩
  refine ⟨distinct, listed, ⟨sound.cycle, fun cycle => ?_⟩, sound.sorted⟩
  obtain ⟨name, cycle⟩ := cycle
  by_contra acyclic
  have sorted : graph.Sorted (depthFirstOrder graph).2 :=
    sound.sorted (Bool.eq_false_iff.mpr acyclic)
  have member : name ∈ (depthFirstOrder graph).2 := by
    obtain ⟨before, _, leads⟩ := Relation.TransGen.tail'_iff.mp cycle
    exact (listed name).mpr (closed before name leads)
  exact sorted.acyclic distinct member cycle

end OptimalPlans.Precedence

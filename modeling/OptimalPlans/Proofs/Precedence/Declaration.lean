import OptimalPlans.Proofs.Exactness
import OptimalPlans.Proofs.Precedence.Mention
import OptimalPlans.Proofs.Text.Separator

/-!
# Declared activities

An activity bears the name that it is declared with and lists the names that its
predecessors mention.  Declaring an activity again from what it holds gives the same
activity.  A record may give the predecessors one by one or joined by commas.
-/

namespace OptimalPlans

/-! ## Fields of a record -/

namespace Fields

variable {fields : Fields} {name other : String} {value default : Value}

theorem get?_cons (held : Value) :
    get? ((name, held) :: fields) other =
      if name = other then some held else get? fields other :=
  Precedence.NameMap.get?_cons held

theorem any_iff_get? :
    fields.any (·.1 == name) = true ↔ ∃ held, get? fields name = some held := by
  induction fields with
  | nil => simp [get?]
  | cons field rest induction =>
      obtain ⟨first, held⟩ := field
      rw [List.any_cons, Bool.or_eq_true, induction, get?_cons]
      by_cases same : first = name <;> simp [same]

theorem get?_replaced :
    get? (fields.map fun field => if field.1 == name then (name, value) else field) other =
      if name = other then (get? fields other).map fun _ => value
      else get? fields other := by
  induction fields with
  | nil => simp [get?]
  | cons field rest induction =>
      obtain ⟨first, held⟩ := field
      rw [List.map_cons, get?_cons]
      by_cases replaced : first = name
      · subst replaced
        rw [if_pos (beq_self_eq_true _), get?_cons, induction]
        by_cases found : first = other <;> simp [found]
      · have kept : ¬ (first == name) = true := by simpa using replaced
        rw [if_neg kept, get?_cons, induction]
        by_cases found : first = other
        · have different : name ≠ other := fun same => replaced (found.trans same.symm)
          simp [found, different]
        · simp [found]

theorem get?_concat : get? (fields ++ [(name, value)]) other =
    (get? fields other).or (if name = other then some value else none) := by
  have last : get? [(name, value)] other = if name = other then some value else none :=
    get?_cons value
  rw [← last]
  exact List.lookup_append

theorem get?_put :
    get? (put fields name value) other =
      if name = other then some value else get? fields other := by
  unfold put
  split
  next present =>
      obtain ⟨held, found⟩ := any_iff_get?.mp present
      rw [get?_replaced]
      by_cases same : name = other
      · subst same
        simp [found]
      · simp [same]
  next absent =>
      have missing : get? fields name = none := by
        rw [Option.eq_none_iff_forall_ne_some]
        exact fun held found => absent (any_iff_get?.mpr ⟨held, found⟩)
      rw [get?_concat]
      by_cases same : name = other
      · subst same
        simp [missing]
      · simp [same]

theorem getOr_put :
    getOr (put fields name value) other default =
      if name = other then value else getOr fields other default := by
  rw [getOr, get?_put]
  split
  next => rfl
  next => rfl

end Fields

namespace Precedence.Activity

variable {name : String} {texts others : List String} {activity : Activity}

/-! ## Declarations -/

/-- An activity bears the name that one text mentions and lists the names that others
mention. -/
structure Declared (name : String) (texts : List String) (activity : Activity) : Prop where
  named : Mentions name activity.name
  lists : FirstMentions texts activity.predecessors

theorem Declared.self (declared : Declared name texts activity) :
    Declared activity.name activity.predecessors activity where
  named := declared.named.self
  lists := declared.lists.self

theorem shown_texts (texts : List String) :
    ((texts.map Value.text).filter fun value => !value.isNull).map Value.shown = texts := by
  have present : (texts.map Value.text).filter (fun value => !value.isNull) =
      texts.map Value.text := by
    rw [List.filter_eq_self]
    intro value member
    obtain ⟨text, _, rfl⟩ := List.mem_map.mp member
    rfl
  rw [present, List.map_map]
  exact List.map_id texts

/-- Declaring finds the one activity that the texts declare. -/
theorem declare_eq_ok_iff :
    declare (.text name) (texts.map .text) = .ok activity ↔ Declared name texts activity := by
  unfold declare
  dsimp only
  rw [shown_texts, refused_eq_ok_iff, String.isEmpty_iff, Except.ok.injEq]
  constructor
  · rintro ⟨nonempty, rfl⟩
    exact ⟨mentions_iff.mpr ⟨rfl, nonempty⟩, firstMentions_cleanNames texts⟩
  · intro declared
    obtain ⟨trimmed, nonempty⟩ := mentions_iff.mp declared.named
    have cleaned := cleanNames_eq_iff.mpr declared.lists
    obtain ⟨bears, lists⟩ := activity
    exact ⟨trimmed ▸ nonempty, congrArg₂ Activity.mk trimmed cleaned⟩

/-- Of the predecessors only the names that they mention count. -/
theorem declare_congr (same : cleanNames texts = cleanNames others) (name : Value) :
    declare name (texts.map .text) = declare name (others.map .text) := by
  unfold declare
  cases name with
  | text name => simp only [shown_texts, same]
  | null | truth | number | list | record => rfl

/-! ## Records -/

theorem predecessorValues_list (items : List Value) :
    predecessorValues (.list items) = .ok items := by
  cases items with
  | nil => rfl
  | cons item items => rfl

theorem predecessorValues_text {names : String} (nonempty : names ≠ "") :
    predecessorValues (.text names) = .ok ((names.splitOn ",").map .text) := by
  have present : Value.isTruthy (.text names) = true := by simpa [Value.isTruthy] using nonempty
  rw [predecessorValues, present]
  rfl

/-- Predecessors that are joined by commas declare the same as one by one. -/
theorem declare_joined (plain : ∀ text ∈ texts, ',' ∉ text.toList) (name : Value) :
    (predecessorValues (.text (",".intercalate texts)) >>= declare name) =
      declare name (texts.map .text) := by
  have comma : "," = String.ofList [','] := rfl
  cases texts with
  | nil => rfl
  | cons text rest =>
      have apart : (",".intercalate (text :: rest)).splitOn "," = text :: rest := by
        rw [comma]
        exact splitOn_intercalate (List.cons_ne_nil text rest) plain
      by_cases empty : ",".intercalate (text :: rest) = ""
      · -- Joined texts are empty only where a single text is; it mentions nothing.
        have alone : text :: rest = [""] := by
          rw [← apart, empty, comma, splitOn_eq_map_ofList]
          rfl
        have nothing : cleanNames [] = cleanNames [""] := rfl
        rw [empty, alone]
        exact declare_congr nothing name
      · rw [predecessorValues_text empty, apart, ok_bind]

theorem ofValue_put (fields : Fields) (value : Value) :
    ofValue (.record (fields.put "predecessors" value)) =
      predecessorValues value >>=
        declare (fields.getOr "activity" (fields.getOr "name" (.text ""))) := by
  unfold ofValue
  simp [Fields.getOr_put]

/-- An activity that is declared with a name that is not blank bears the name without the
blanks at its ends.  It lists the names that its predecessors mention: without blanks at
their ends, none of them empty, each once and in the order of the first mentions.  It is
what its own name and predecessors declare.  Where no predecessor holds a comma, a record
may give the predecessors as a list or as one text that joins them by commas. -/
theorem declare_normalises (name : String) (texts : List String)
    (named : ∃ c ∈ name.toList, isBlank c = false) :
    ∃ activity, declare (.text name) (texts.map .text) = .ok activity ∧
      Mentions name activity.name ∧ FirstMentions texts activity.predecessors ∧
      declare (.text activity.name) (activity.predecessors.map .text) = .ok activity ∧
      ((∀ text ∈ texts, ',' ∉ text.toList) → ∀ fields : Fields,
        fields.getOr "activity" (fields.getOr "name" (.text "")) = .text name →
        ofValue (.record (fields.put "predecessors" (.list (texts.map .text)))) =
          .ok activity ∧
        ofValue (.record (fields.put "predecessors" (.text (",".intercalate texts)))) =
          .ok activity) := by
  obtain ⟨borne, mentions⟩ := exists_mentions named
  have declared : Declared name texts ⟨borne, cleanNames texts⟩ :=
    ⟨mentions, firstMentions_cleanNames texts⟩
  have result := declare_eq_ok_iff.mpr declared
  refine ⟨_, result, mentions, declared.lists, declare_eq_ok_iff.mpr declared.self, ?_⟩
  intro plain fields label
  constructor
  · rw [ofValue_put, label, predecessorValues_list, ok_bind]
    exact result
  · rw [ofValue_put, label, declare_joined plain]
    exact result

/-- What a pot needs: repeated, blank and padded mentions of three names. -/
def potNeeds : List String :=
  [" Clay", "Kiln\n", "", "Clay", "  ", "Kiln", "\u00a0Glaze\u2003"]

def pot : Activity :=
  ⟨"Pot", ["Clay", "Kiln", "Glaze"]⟩

theorem pot_is_normalised :
    (∃ c ∈ "\tPot ".toList, isBlank c = false) ∧
      (∀ text ∈ potNeeds, ',' ∉ text.toList) ∧
      declare (.text "\tPot ") (potNeeds.map .text) = .ok pot ∧
      Mentions "\tPot " "Pot" ∧ FirstMentions potNeeds ["Clay", "Kiln", "Glaze"] ∧
      declare (.text "Pot") (["Clay", "Kiln", "Glaze"].map .text) = .ok pot ∧
      ofValue (.record [("activity", .text "\tPot "),
        ("predecessors", .list (potNeeds.map .text))]) = .ok pot ∧
      ofValue (.record [("activity", .text "\tPot "),
        ("predecessors", .text " Clay,Kiln\n,,Clay,  ,Kiln,\u00a0Glaze\u2003")]) = .ok pot := by
  have named : ∃ c ∈ "\tPot ".toList, isBlank c = false := ⟨'P', by decide, by decide⟩
  have plain : ∀ text ∈ potNeeds, ',' ∉ text.toList := by decide
  obtain ⟨activity, declared, mentions, lists, again, shapes⟩ :=
    declare_normalises "\tPot " potNeeds named
  have known : declare (.text "\tPot ") (potNeeds.map .text) = .ok pot := rfl
  obtain rfl : pot = activity := Except.ok.inj (known.symm.trans declared)
  exact ⟨named, plain, declared, mentions, lists, again,
    shapes plain [("activity", .text "\tPot ")] rfl⟩

end Precedence.Activity

end OptimalPlans

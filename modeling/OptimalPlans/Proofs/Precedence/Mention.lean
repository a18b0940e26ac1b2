import OptimalPlans.Proofs.Precedence.NetworkViews
import OptimalPlans.Proofs.Text.Trimming

/-!
# Mentioned names

A text mentions the name that it holds between blanks, and a blank text mentions none.
The names that a list of texts mentions, each once and in the order of the first
mentions, are determined by the texts.  Cleaning the texts finds them, and a list of such
names mentions itself.
-/

namespace OptimalPlans.Precedence

/-- A text holds a name between blanks. -/
structure Mentions (text name : String) : Prop where
  trims : TrimsTo isBlank text.toList name.toList
  nonempty : name ≠ ""

/-- One of the texts mentions a name. -/
def Mentioned (texts : List String) (name : String) : Prop :=
  ∃ text ∈ texts, Mentions text name

/-- A mention of one name comes before any mention of another. -/
def MentionedBefore (texts : List String) (name other : String) : Prop :=
  ∃ front, front <+: texts ∧ Mentioned front name ∧ ¬ Mentioned front other

/-- The names that texts mention, each once and in the order of the first mentions. -/
structure FirstMentions (texts names : List String) : Prop where
  mem_iff : ∀ name, name ∈ names ↔ Mentioned texts name
  nodup : names.Nodup
  ordered : names.Pairwise (MentionedBefore texts)

variable {text name other : String} {texts front names others : List String}

/-! ## One text -/

theorem mentions_iff : Mentions text name ↔ trimBlanks text = name ∧ name ≠ "" := by
  rw [trimBlanks_eq_iff]
  exact ⟨fun mentions => ⟨mentions.trims, mentions.nonempty⟩,
    fun ⟨trims, nonempty⟩ => ⟨trims, nonempty⟩⟩

theorem Mentions.unique (mentions : Mentions text name) (also : Mentions text other) :
    name = other :=
  (mentions_iff.mp mentions).1.symm.trans (mentions_iff.mp also).1

theorem Mentions.self (mentions : Mentions text name) : Mentions name name where
  trims := mentions.trims.self
  nonempty := mentions.nonempty

/-- A text that is not blank mentions a name. -/
theorem exists_mentions (named : ∃ c ∈ text.toList, isBlank c = false) :
    ∃ name, Mentions text name := by
  refine ⟨trimBlanks text, mentions_iff.mpr ⟨rfl, ?_⟩⟩
  intro empty
  obtain ⟨c, member, kept⟩ := named
  have dropped : isBlank c = true := (trimBlanks_eq_iff.mp empty).all_drop c member
  rw [kept] at dropped
  cases dropped

/-! ## Several texts -/

theorem mentioned_concat_iff :
    Mentioned (texts ++ [text]) name ↔ Mentioned texts name ∨ Mentions text name := by
  simp [Mentioned, or_and_right, exists_or]

theorem Mentioned.mono (mentioned : Mentioned front name) (subset : front ⊆ texts) :
    Mentioned texts name := by
  obtain ⟨text, member, mentions⟩ := mentioned
  exact ⟨text, subset member, mentions⟩

theorem MentionedBefore.concat (before : MentionedBefore texts name other) :
    MentionedBefore (texts ++ [text]) name other := by
  obtain ⟨front, begins, mentioned, absent⟩ := before
  exact ⟨front, begins.trans (List.prefix_append _ _), mentioned, absent⟩

theorem MentionedBefore.asymm (before : MentionedBefore texts name other) :
    ¬ MentionedBefore texts other name := by
  rintro ⟨rest, restBegins, restMentioned, restAbsent⟩
  obtain ⟨front, begins, mentioned, absent⟩ := before
  rcases List.prefix_or_prefix_of_prefix begins restBegins with shorter | longer
  · exact restAbsent (mentioned.mono shorter.subset)
  · exact absent (restMentioned.mono longer.subset)

/-! ## The first mentions -/

namespace FirstMentions

theorem nil : FirstMentions [] [] where
  mem_iff name := by simp [Mentioned]
  nodup := List.nodup_nil
  ordered := List.Pairwise.nil

/-- A text that mentions nothing new leaves the names as they are. -/
theorem skip (lists : FirstMentions texts names)
    (known : ∀ name, Mentions text name → name ∈ names) :
    FirstMentions (texts ++ [text]) names where
  mem_iff name := by
    rw [mentioned_concat_iff, ← lists.mem_iff]
    exact ⟨.inl, fun either => either.elim id (known name)⟩
  nodup := lists.nodup
  ordered := lists.ordered.imp MentionedBefore.concat

/-- A name that is mentioned for the first time is entered at the end. -/
theorem enter (lists : FirstMentions texts names) (mentions : Mentions text name)
    (fresh : name ∉ names) : FirstMentions (texts ++ [text]) (names ++ [name]) where
  mem_iff other := by
    have only : Mentions text other ↔ other = name :=
      ⟨fun also => also.unique mentions, fun same => same ▸ mentions⟩
    rw [mentioned_concat_iff, ← lists.mem_iff, only, List.mem_append, List.mem_singleton]
  nodup := by
    rw [← List.concat_eq_append]
    exact lists.nodup.concat fresh
  ordered := by
    rw [List.pairwise_append]
    refine ⟨lists.ordered.imp MentionedBefore.concat, List.pairwise_singleton _ _, ?_⟩
    intro earlier member last entered
    obtain rfl := List.mem_singleton.mp entered
    exact ⟨texts, List.prefix_append _ _, (lists.mem_iff earlier).mp member,
      fun mentioned => fresh ((lists.mem_iff last).mpr mentioned)⟩

/-- Texts have only one list of first mentions. -/
theorem unique (lists : FirstMentions texts names) (also : FirstMentions texts others) :
    names = others := by
  have same : names.Perm others := by
    rw [List.perm_ext_iff_of_nodup lists.nodup also.nodup]
    intro name
    rw [lists.mem_iff, also.mem_iff]
  exact same.eq_of_pairwise (fun _ _ _ _ before after => absurd after before.asymm)
    lists.ordered also.ordered

end FirstMentions

/-! ## Cleaning -/

theorem cleanNames_blank (blank : ∀ name, ¬ Mentions text name) :
    Activity.cleanNames (texts ++ [text]) = Activity.cleanNames texts := by
  have empty : trimBlanks text = "" :=
    by_contra fun nonempty => blank _ (mentions_iff.mpr ⟨rfl, nonempty⟩)
  simp [Activity.cleanNames, empty]

theorem cleanNames_name (mentions : Mentions text name) :
    Activity.cleanNames (texts ++ [text]) =
      if name ∈ Activity.cleanNames texts then Activity.cleanNames texts
      else Activity.cleanNames texts ++ [name] := by
  obtain ⟨rfl, nonempty⟩ := mentions_iff.mp mentions
  have kept : Activity.cleanNames (texts ++ [text]) =
      ((texts.map trimBlanks).filter (fun name => !name.isEmpty) ++
        [trimBlanks text]).eraseDups := by
    simp [Activity.cleanNames, nonempty]
  rw [kept]
  split
  next known => exact eraseDups_concat_of_mem (List.mem_eraseDups.mp known)
  next fresh => exact eraseDups_concat_of_notMem fun old => fresh (List.mem_eraseDups.mpr old)

/-- Cleaning lists the names that the texts mention. -/
theorem firstMentions_cleanNames (texts : List String) :
    FirstMentions texts (Activity.cleanNames texts) := by
  induction texts using List.reverseRecOn with
  | nil => exact .nil
  | append_singleton texts text lists =>
      by_cases named : ∃ name, Mentions text name
      · obtain ⟨name, mentions⟩ := named
        rw [cleanNames_name mentions]
        split
        next known => exact lists.skip fun other also => mentions.unique also ▸ known
        next fresh => exact lists.enter mentions fresh
      · have blank : ∀ name, ¬ Mentions text name := not_exists.mp named
        rw [cleanNames_blank blank]
        exact lists.skip fun name mentions => (blank name mentions).elim

theorem cleanNames_eq_iff : Activity.cleanNames texts = names ↔ FirstMentions texts names :=
  ⟨fun same => same ▸ firstMentions_cleanNames texts,
    fun lists => (firstMentions_cleanNames texts).unique lists⟩

/-! ## Names that are clean -/

theorem mentioned_self_iff (clean : ∀ name ∈ names, Mentions name name) :
    Mentioned names name ↔ name ∈ names := by
  constructor
  · rintro ⟨text, member, mentions⟩
    rwa [mentions.unique (clean text member)]
  · intro member
    exact ⟨name, member, clean name member⟩

theorem FirstMentions.mentions_self (lists : FirstMentions texts names) :
    ∀ name ∈ names, Mentions name name := by
  intro name member
  obtain ⟨_, _, mentions⟩ := (lists.mem_iff name).mp member
  exact mentions.self

/-- A list of first mentions mentions itself. -/
theorem FirstMentions.self (lists : FirstMentions texts names) : FirstMentions names names where
  mem_iff _ := (mentioned_self_iff lists.mentions_self).symm
  nodup := lists.nodup
  ordered := by
    rw [List.pairwise_iff_getElem]
    intro index later bound laterBound before
    -- The names ahead of the later one are the initial part that tells the two apart.
    have ahead : ∀ name ∈ names,
        (Mentioned (names.take later) name ↔ names.idxOf name < later) := by
      intro name member
      rw [mentioned_self_iff fun name taken => lists.mentions_self name
        (List.mem_of_mem_take taken), List.mem_take_iff_idxOf_lt member]
    refine ⟨names.take later, List.take_prefix _ _, ?_, ?_⟩
    · rw [ahead _ (List.getElem_mem bound), lists.nodup.idxOf_getElem]
      exact before
    · rw [ahead _ (List.getElem_mem laterBound), lists.nodup.idxOf_getElem]
      exact Nat.lt_irrefl later

end OptimalPlans.Precedence

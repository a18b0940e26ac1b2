import Mathlib
import OptimalPlans.Text.Blank

/-!
# What trimming leaves

Dropping the characters of a class from both ends of a text leaves a middle part that
neither begins nor ends with one of them.  There is only one such part, so a text that
is trimmed already stays as it is.
-/

namespace OptimalPlans

variable {drops : Char → Bool} {chars core : List Char}

/-- Characters stand between two runs of a class and have none of it at their own ends. -/
structure TrimsTo (drops : Char → Bool) (chars core : List Char) : Prop where
  between : ∃ front back, chars = front ++ core ++ back ∧
    (∀ c ∈ front, drops c = true) ∧ ∀ c ∈ back, drops c = true
  begins : ∀ c ∈ core.head?, drops c = false
  ends : ∀ c ∈ core.getLast?, drops c = false

/-- Where nothing is left, everything was dropped. -/
theorem TrimsTo.all_drop (trims : TrimsTo drops chars []) :
    ∀ c ∈ chars, drops c = true := by
  obtain ⟨front, back, rfl, frontRun, backRun⟩ := trims.between
  intro c member
  rw [List.append_nil] at member
  exact (List.mem_append.mp member).elim (frontRun c) (backRun c)

theorem TrimsTo.self (trims : TrimsTo drops chars core) : TrimsTo drops core core where
  between := ⟨[], [], by simp⟩
  begins := trims.begins
  ends := trims.ends

theorem dropWhile_run {front rest : List Char} (run : ∀ c ∈ front, drops c = true)
    (stops : ∀ c ∈ rest.head?, drops c = false) :
    (front ++ rest).dropWhile drops = rest := by
  rw [List.dropWhile_append_of_pos run]
  cases rest with
  | nil => rfl
  | cons c rest => exact List.dropWhile_cons_of_neg (by simp [stops c rfl])

theorem TrimsTo.trimChars_eq (trims : TrimsTo drops chars core) :
    trimChars drops chars = core := by
  cases core with
  | nil =>
      -- Without a middle part the first run reaches the end of the text.
      rw [trimChars, List.dropWhile_eq_nil_iff.mpr trims.all_drop]
      rfl
  | cons c rest =>
      obtain ⟨front, back, rfl, frontRun, backRun⟩ := trims.between
      have headStops : ∀ d ∈ (c :: rest ++ back).head?, drops d = false := trims.begins
      have lastStops : ∀ d ∈ (c :: rest).reverse.head?, drops d = false := by
        rw [List.head?_reverse]
        exact trims.ends
      have backwards : ∀ d ∈ back.reverse, drops d = true := by simpa using backRun
      rw [trimChars, List.append_assoc, dropWhile_run frontRun headStops,
        List.reverse_append, dropWhile_run backwards lastStops, List.reverse_reverse]

theorem trimChars_eq_rdropWhile :
    trimChars drops chars = (chars.dropWhile drops).rdropWhile drops := rfl

theorem trimsTo_trimChars : TrimsTo drops chars (trimChars drops chars) where
  between := by
    refine ⟨chars.takeWhile drops, (chars.dropWhile drops).rtakeWhile drops, ?_,
      fun c => List.mem_takeWhile_imp, fun c => List.mem_rtakeWhile_imp⟩
    rw [trimChars_eq_rdropWhile, List.append_assoc, List.rdropWhile_append_rtakeWhile,
      List.takeWhile_append_dropWhile]
  begins := by
    intro c first
    obtain ⟨back, split⟩ := List.rdropWhile_prefix drops (chars.dropWhile drops)
    have head : (chars.dropWhile drops).head? = some c := by
      rw [← split, List.head?_append, ← trimChars_eq_rdropWhile, first]
      rfl
    have stops := List.head?_dropWhile_not drops chars
    rwa [head] at stops
  ends := by
    intro c last
    rw [trimChars_eq_rdropWhile] at last
    obtain ⟨nonempty, rfl⟩ := List.mem_getLast?_eq_getLast last
    simpa using List.rdropWhile_last_not drops _ nonempty

/-- Trimming finds the one part that stands between two runs. -/
theorem trimChars_eq_iff : trimChars drops chars = core ↔ TrimsTo drops chars core :=
  ⟨fun same => same ▸ trimsTo_trimChars, TrimsTo.trimChars_eq⟩

theorem trimBlanks_eq_iff {text core : String} :
    trimBlanks text = core ↔ TrimsTo isBlank text.toList core.toList := by
  rw [← trimChars_eq_iff, trimBlanks, ← String.toList_inj, String.toList_ofList]

end OptimalPlans

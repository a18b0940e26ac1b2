import Mathlib

/-!
# Texts that are split at a character

Splitting a text reads it character by character and ends a piece at every separator.
What it finds are the pieces of the list of characters.  So texts without the separator
that are joined by it come apart again as they were.
-/

namespace OptimalPlans

open String

variable {separator next : Char} {before piece rest : List Char} {pieces : List String}

/-- The pieces of a text, read from a place in it: some pieces are complete, one ends at
the place. -/
def splitFrom (separator : Char) (before piece rest : List Char) (pieces : List String) :
    List String :=
  splitOnAux (ofList (before ++ piece ++ rest)) (ofList [separator]) ⟨utf8Len before⟩
    ⟨utf8Len before + utf8Len piece⟩ 0 pieces

/-! ## The character at a place -/

theorem atEnd_place : Pos.Raw.atEnd (ofList (before ++ piece ++ rest))
    ⟨utf8Len before + utf8Len piece⟩ = true ↔ rest = [] := by
  rw [atEnd_iff, rawEndPos_ofList, Pos.Raw.mk_le_mk, utf8Len_append, utf8Len_append,
    ← utf8Len_eq_zero]
  omega

theorem not_atEnd_place : ¬ Pos.Raw.atEnd (ofList (before ++ piece ++ next :: rest))
    ⟨utf8Len before + utf8Len piece⟩ = true :=
  mt atEnd_place.mp (List.cons_ne_nil next rest)

theorem get_place : Pos.Raw.get (ofList (before ++ piece ++ next :: rest))
    ⟨utf8Len before + utf8Len piece⟩ = next := by
  rw [← utf8Len_append, get_of_valid, List.headD_cons]

theorem next_place : Pos.Raw.next (ofList (before ++ piece ++ next :: rest))
    ⟨utf8Len before + utf8Len piece⟩ =
      ⟨utf8Len before + utf8Len piece + next.utf8Size⟩ := by
  rw [← utf8Len_append, next_of_valid]

theorem get_single : Pos.Raw.get (ofList [separator]) 0 = separator :=
  get_of_valid [] [separator]

/-! ## One step -/

theorem splitFrom_nil :
    splitFrom separator before piece [] pieces = pieces.reverse ++ [ofList piece] := by
  rw [splitFrom, splitOnAux, if_pos (atEnd_place.mpr rfl), extract_of_valid,
    List.reverse_cons]

theorem splitFrom_separator :
    splitFrom separator before piece (separator :: rest) pieces =
      splitFrom separator (before ++ piece ++ [separator]) [] rest
        (ofList piece :: pieces) := by
  have second : Pos.Raw.next (ofList [separator]) 0 = ⟨separator.utf8Size⟩ := by
    simpa using next_of_valid [] separator []
  -- The separator is one character long, so one match completes it.
  have complete : Pos.Raw.atEnd (ofList [separator]) ⟨separator.utf8Size⟩ = true := by
    rw [atEnd_iff, rawEndPos_ofList, Pos.Raw.mk_le_mk, utf8Len_cons, utf8Len_nil, Nat.zero_add]
  have back : Pos.Raw.unoffsetBy ⟨utf8Len before + utf8Len piece + separator.utf8Size⟩
      ⟨separator.utf8Size⟩ = ⟨utf8Len before + utf8Len piece⟩ := by
    simp [Pos.Raw.unoffsetBy]
  rw [splitFrom, splitOnAux, if_neg not_atEnd_place, get_place, get_single,
    if_pos (beq_self_eq_true _)]
  simp only [next_place, second, complete, back, extract_of_valid, if_true]
  rw [splitFrom]
  simp [Nat.add_assoc, -ofList_append, -ofList_cons]

theorem splitFrom_other (different : next ≠ separator) :
    splitFrom separator before piece (next :: rest) pieces =
      splitFrom separator before (piece ++ [next]) rest pieces := by
  have back : Pos.Raw.unoffsetBy ⟨utf8Len before + utf8Len piece⟩ 0 =
      ⟨utf8Len before + utf8Len piece⟩ := by
    simp [Pos.Raw.unoffsetBy]
  rw [splitFrom, splitOnAux, if_neg not_atEnd_place, get_place, get_single,
    if_neg (by simpa using different), back, next_place, splitFrom]
  simp [Nat.add_assoc, -ofList_append, -ofList_cons]

/-! ## The whole text -/

theorem splitFrom_eq :
    splitFrom separator before piece rest pieces =
      pieces.reverse ++
        (rest.splitOnPPrepend (· == separator) piece.reverse).map ofList := by
  induction rest generalizing before piece pieces with
  | nil =>
      rw [splitFrom_nil, List.splitOnPPrepend_nil, List.reverse_reverse]
      rfl
  | cons next rest induction =>
      rw [List.splitOnPPrepend_cons_eq_if]
      by_cases same : next = separator
      · subst same
        rw [splitFrom_separator, induction, if_pos (beq_self_eq_true _)]
        simp
      · rw [splitFrom_other same, induction, if_neg (by simpa using same)]
        simp

theorem splitOn_eq_map_ofList (text : String) :
    text.splitOn (ofList [separator]) = (text.toList.splitOn separator).map ofList := by
  have proper : (ofList [separator] == "") = false := by simp
  have begins : text.splitOn (ofList [separator]) =
      splitFrom separator [] [] text.toList [] := by
    rw [splitOn, proper, splitFrom]
    simp
  rw [begins, splitFrom_eq, List.splitOn_eq_splitOnP]
  rfl

/-- Texts without the separator come apart as they were joined. -/
theorem splitOn_intercalate {texts : List String} (some : texts ≠ [])
    (plain : ∀ text ∈ texts, separator ∉ text.toList) :
    ((ofList [separator]).intercalate texts).splitOn (ofList [separator]) = texts := by
  have apart : ∀ chars ∈ texts.map toList, separator ∉ chars := by
    simpa using plain
  rw [splitOn_eq_map_ofList, toList_intercalate, toList_ofList,
    List.splitOn_intercalate separator apart (by simpa using some), List.map_map]
  simp

end OptimalPlans

namespace Staging.Text

/-- The pieces between the separators; there is one piece more than separators. -/
def pieces (sep : Char) : List Char → List (List Char)
  | [] => [[]]
  | c :: cs =>
    if c = sep then [] :: pieces sep cs
    else
      match pieces sep cs with
      | [] => [[c]]
      | p :: ps => (c :: p) :: ps

/-- What stands before and after the first separator. -/
def cut? (sep : Char) : List Char → Option (List Char × List Char)
  | [] => none
  | c :: cs => if c = sep then some ([], cs) else (cut? sep cs).map fun (a, b) => (c :: a, b)

/-- What stands between an opening and a closing character, if the text has both. -/
def within? (opening closing : Char) : List Char → Option (List Char)
  | [] => none
  | c :: cs =>
    if c = opening ∧ cs.getLast? = some closing then some cs.dropLast else none

/-- What stands before the first occurrence of a pattern, or all of the text. -/
def upTo (pattern : List Char) : List Char → List Char
  | [] => []
  | c :: cs => if pattern.isPrefixOf (c :: cs) then [] else c :: upTo pattern cs

theorem pieces_eq_splitOn (sep : Char) (cs : List Char) : pieces sep cs = cs.splitOn sep := by
  induction cs with
  | nil => rfl
  | cons c cs ih =>
    obtain ⟨p, ps, hp⟩ := List.exists_cons_of_ne_nil (List.splitOn_ne_nil sep cs)
    rw [pieces, List.splitOn_cons_eq_if_modifyHead, ih, hp]
    simp

theorem intercalate_pieces (sep : Char) (cs : List Char) :
    [sep].intercalate (pieces sep cs) = cs := by
  rw [pieces_eq_splitOn, List.intercalate_splitOn]

theorem pieces_intercalate {sep : Char} {ps : List (List Char)} (hne : ps ≠ [])
    (h : ∀ p ∈ ps, sep ∉ p) : pieces sep ([sep].intercalate ps) = ps := by
  rw [pieces_eq_splitOn, List.splitOn_intercalate sep h hne]

theorem cut?_eq_none_iff {sep : Char} {cs : List Char} : cut? sep cs = none ↔ sep ∉ cs := by
  induction cs with
  | nil => simp [cut?]
  | cons c cs ih =>
    rw [cut?]
    split
    · rename_i h; simp [h]
    · rename_i h; simp [ih, Ne.symm h]

theorem cut?_append {sep : Char} {a : List Char} (h : sep ∉ a) (b : List Char) :
    cut? sep (a ++ sep :: b) = some (a, b) := by
  induction a with
  | nil => simp [cut?]
  | cons c a ih =>
    obtain ⟨hc, ha⟩ := not_or.mp (mt List.mem_cons.mpr h)
    rw [List.cons_append, cut?, if_neg (Ne.symm hc), ih ha]
    rfl

/-- Where the separator first stands, a text is cut in one way. -/
theorem append_sep_inj {sep : Char} {a b cs ds : List Char} (ha : sep ∉ a) (hb : sep ∉ b)
    (h : a ++ sep :: cs = b ++ sep :: ds) : a = b ∧ cs = ds := by
  have hcut := congrArg (cut? sep) h
  rw [cut?_append ha, cut?_append hb] at hcut
  exact Prod.mk.inj (Option.some.inj hcut)

theorem within?_enclosed (opening closing : Char) (cs : List Char) :
    within? opening closing (opening :: (cs ++ [closing])) = some cs := by
  simp [within?]

theorem within?_cons_of_ne {opening closing c : Char} (h : c ≠ opening) (cs : List Char) :
    within? opening closing (c :: cs) = none := by
  simp [within?, h]

end Staging.Text

import Mathlib.Data.List.Basic
import Staging.Proofs.Signatures
import Staging.Signature.Text

namespace Staging

namespace Text

/-- A letter, a digit or an underscore. Beyond ASCII every character counts that is not blank. -/
def isWord (c : Char) : Bool :=
  c.isAlphanum || c == '_' || (0x80 ≤ c.toNat && !isBlank c)

theorem toNat_of_isAlphanum {c : Char} (h : c.isAlphanum = true) :
    0x30 ≤ c.toNat ∧ c.toNat ≤ 0x7a := by
  change (decide (c.val ≥ 'A'.val ∧ c.val ≤ 'Z'.val) ||
    (decide (c.val ≥ 'a'.val) && decide (c.val ≤ 'z'.val)) || c.isDigit) = true at h
  simp only [Bool.or_eq_true, Bool.and_eq_true, decide_eq_true_eq, ge_iff_le,
    UInt32.le_iff_toNat_le, Char.toNat_val, Char.isDigit_iff_toNat, Char.reduceToNat] at h
  omega

theorem isBlank_of_isAlphanum {c : Char} (h : c.isAlphanum = true) : isBlank c = false := by
  have hrange := toNat_of_isAlphanum h
  simp only [isBlank, Bool.or_eq_false_iff, Bool.and_eq_false_iff, decide_eq_false_iff_not,
    beq_eq_false_iff_ne]
  omega

theorem isBlank_of_isWord {c : Char} (h : isWord c = true) : isBlank c = false := by
  simp only [isWord, Bool.or_eq_true, Bool.and_eq_true, Bool.not_eq_true'] at h
  obtain (h | h) | ⟨-, h⟩ := h
  · exact isBlank_of_isAlphanum h
  · rw [beq_iff_eq.mp h]
    rfl
  · exact h

theorem ne_of_isWord {c mark : Char} (h : isWord c = true) (hmark : isWord mark = false) :
    mark ≠ c := by
  intro he
  rw [← he, hmark] at h
  cases h

/-- Text that is left whole when text is cut at commas and trimmed. -/
structure IsPiece (cs : List Char) : Prop where
  nonempty : cs ≠ []
  first : ∀ c ∈ cs.head?, isBlank c = false
  last : ∀ c ∈ cs.getLast?, isBlank c = false
  no_comma : ',' ∉ cs

namespace IsPiece

variable {cs ds : List Char}

theorem of_forall (hne : cs ≠ []) (h : ∀ c ∈ cs, isBlank c = false ∧ ',' ≠ c) : IsPiece cs where
  nonempty := hne
  first c hc := (h c (List.mem_of_mem_head? hc)).1
  last c hc := (h c (List.mem_of_getLast? hc)).1
  no_comma hc := (h ',' hc).2 rfl

theorem of_words (hne : cs ≠ []) (h : ∀ c ∈ cs, isWord c = true) : IsPiece cs :=
  of_forall hne fun c hc => ⟨isBlank_of_isWord (h c hc), ne_of_isWord (h c hc) rfl⟩

theorem mark {c : Char} (hblank : isBlank c = false) (hcomma : ',' ≠ c) : IsPiece [c] :=
  of_forall (List.cons_ne_nil c []) fun d hd => by
    rw [List.mem_singleton.mp hd]
    exact ⟨hblank, hcomma⟩

theorem append (h : IsPiece cs) (h' : IsPiece ds) : IsPiece (cs ++ ds) where
  nonempty hnil := h.nonempty (List.append_eq_nil_iff.mp hnil).1
  first := by
    rw [List.head?_append_of_ne_nil _ h.nonempty]
    exact h.first
  last := by
    rw [List.getLast?_append_of_ne_nil _ h'.nonempty]
    exact h'.last
  no_comma hc := (List.mem_append.mp hc).elim h.no_comma h'.no_comma

theorem trim_eq (h : IsPiece cs) : trim cs = cs := trim_eq_self h.first h.last

end IsPiece

end Text

open Text (IsPiece)

namespace Value

/-- None, a boolean, an integer, or text without commas. -/
def IsWritable : Value → Prop
  | .absent | .bool _ | .int _ => True
  | .str s => ',' ∉ s.toList
  | _ => False

instance (v : Value) : Decidable v.IsWritable :=
  match v with
  | .absent | .bool _ | .int _ => .isTrue trivial
  | .str s => inferInstanceAs (Decidable (',' ∉ s.toList))
  | .float _ | .tuple _ | .list _ | .dict _ | .tensor _ | .ref _ => .isFalse id

theorem toList_apostrophed (s : String) :
    (apostrophed s).toList = '\x27' :: (s.toList ++ ['\x27']) := by
  simp [apostrophed]

theorem isPiece_apostrophed {s : String} (h : ',' ∉ s.toList) : IsPiece (apostrophed s).toList := by
  rw [toList_apostrophed]
  have hquote : Text.isBlank '\x27' = false := rfl
  refine ⟨List.cons_ne_nil _ _, by simpa using hquote, ?_, by simpa using h⟩
  rw [← List.cons_append, List.getLast?_concat]
  simpa using hquote

theorem isPiece_toString (n : Int) : IsPiece (toString n).toList := by
  refine .of_forall (Decimal.toString_ne_nil n) ?_
  intro c hc
  obtain rfl | hdigit := Decimal.minus_or_isDigit_of_mem_toString hc
  · decide
  · exact ⟨Text.isBlank_of_isAlphanum (by simp [Char.isAlphanum, hdigit]),
      (Decimal.ne_of_isDigit hdigit rfl).symm⟩

theorem IsWritable.isPiece {v : Value} (h : v.IsWritable) (cells : Cells) :
    IsPiece (v.shown cells).toList := by
  cases v with
  | absent => exact .of_words (by simp [shown]) (by simp [shown]; decide)
  | bool b => cases b <;> exact .of_words (by simp [shown]) (by simp [shown]; decide)
  | int n => exact isPiece_toString n.toInt
  | str s => exact isPiece_apostrophed h
  | float | tuple | list | dict | tensor | ref => cases h

end Value

namespace Signature

theorem readQuoted?_eq_none {cs : List Char} (h : ∀ c ∈ cs.head?, c ≠ '\x27' ∧ c ≠ '"') :
    readQuoted? cs = none := by
  cases cs with
  | nil => rfl
  | cons c cs =>
    obtain ⟨hsingle, hdouble⟩ := h c rfl
    rw [readQuoted?, Text.within?_cons_of_ne hsingle, Text.within?_cons_of_ne hdouble]
    rfl

/-- Text that is not the name of a constant is quoted or a number. -/
theorem readDefault_eq_ok {cs : List Char} {v : Value}
    (hname : ∀ name ∈ ["None", "True", "False"], cs ≠ name.toList)
    (h : (readQuoted? cs <|> readNumber? cs) = some v) : readDefault cs = .ok v := by
  have hne : ∀ name ∈ ["None", "True", "False"], String.ofList cs ≠ name := by
    intro name hmem he
    exact hname name hmem (he ▸ String.toList_ofList.symm)
  simp only [List.mem_cons, List.not_mem_nil, or_false, forall_eq_or_imp, forall_eq] at hne
  obtain ⟨hnone, htrue, hfalse⟩ := hne
  simp only [readDefault, if_neg hnone, if_neg htrue, if_neg hfalse, h]

theorem readDefault_int (n : Int64) :
    readDefault (toString n.toInt).toList = .ok (.int n) := by
  have hread := Decimal.readInt?_toString n.toInt
  apply readDefault_eq_ok
  · intro name hname heq
    have hnone : ∀ name ∈ ["None", "True", "False"], Decimal.readInt? name.toList = none := by
      decide
    rw [heq, hnone name hname] at hread
    cases hread
  · rw [readQuoted?_eq_none, readNumber?, hread, Option.bind_some, Decimal.toInt64?_toInt]
    · rfl
    · intro c hc
      obtain rfl | hdigit :=
        Decimal.minus_or_isDigit_of_mem_toString (List.mem_of_mem_head? hc)
      · decide
      · exact ⟨Decimal.ne_of_isDigit hdigit rfl, Decimal.ne_of_isDigit hdigit rfl⟩

theorem readDefault_str (s : String) :
    readDefault (Value.apostrophed s).toList = .ok (.str s) := by
  rw [Value.toList_apostrophed]
  apply readDefault_eq_ok
  · intro name hname heq
    have hhead : ∀ name ∈ ["None", "True", "False"], name.toList.head? ≠ some '\x27' := by decide
    exact hhead name hname (heq ▸ rfl)
  · rw [readQuoted?, Text.within?_enclosed]
    simp

/-- The text of a writable value is read as that value. -/
theorem readDefault_shown {v : Value} (h : v.IsWritable) (cells : Cells) :
    readDefault (v.shown cells).toList = .ok v := by
  cases v with
  | absent => simp [readDefault, Value.shown]
  | bool b => cases b <;> simp [readDefault, Value.shown]
  | int n => exact readDefault_int n
  | str s => exact readDefault_str s
  | float | tuple | list | dict | tensor | ref => cases h

theorem intercalate_comma_blank (p : List Char) (ps : List (List Char)) :
    [',', ' '].intercalate (p :: ps) = [','].intercalate (p :: ps.map (' ' :: ·)) := by
  induction ps generalizing p with
  | nil => rfl
  | cons q ps ih =>
    rw [List.map_cons, List.intercalate_cons_cons, List.intercalate_cons_cons, ih]
    cases ps <;> simp [List.intercalate_cons_cons]

/-- Pieces that stand between commas and blanks are cut apart again. -/
theorem splitText_intercalate {ps : List (List Char)} (h : ∀ p ∈ ps, IsPiece p) :
    splitText ('(' :: ([',', ' '].intercalate ps ++ [')'])) = ps := by
  have htrim (cs : List Char) : Text.trim ('(' :: (cs ++ [')'])) = '(' :: (cs ++ [')']) :=
    Text.trim_enclosed rfl rfl cs
  simp only [splitText, htrim, Text.within?_enclosed, Option.getD_some]
  cases ps with
  | nil => rfl
  | cons p ps =>
    have hcomma : ∀ q ∈ p :: ps.map (' ' :: ·), ',' ∉ q := by
      simp only [List.mem_cons, List.mem_map, forall_eq_or_imp, forall_exists_index, and_imp,
        forall_apply_eq_imp_iff₂, not_or]
      exact ⟨(h p List.mem_cons_self).no_comma,
        fun q hq => ⟨by decide, (h q (List.mem_cons_of_mem _ hq)).no_comma⟩⟩
    have hblank : (ps.map (' ' :: ·)).map Text.trim = ps := by
      have htrimmed : ∀ q ∈ ps, (Text.trim ∘ (' ' :: ·)) q = id q := by
        intro q hq
        rw [Function.comp_apply, Text.trim_blank_cons rfl]
        exact (h q (List.mem_cons_of_mem _ hq)).trim_eq
      rw [List.map_map, List.map_congr_left htrimmed, List.map_id]
    rw [intercalate_comma_blank, Text.pieces_intercalate (List.cons_ne_nil _ _) hcomma,
      List.map_cons, hblank, (h p List.mem_cons_self).trim_eq, List.filter_eq_self]
    intro q hq
    simpa using (h q hq).nonempty

end Signature

namespace Parameter

/-- What can be read back: a name that is a word, with a default that can be written or none. -/
structure Legible (p : Parameter) : Prop where
  name : ∀ c ∈ p.name.toList, Text.isWord c = true
  default : ∀ v ∈ p.default, v.IsWritable

instance (p : Parameter) : Decidable p.Legible :=
  decidable_of_iff (p.name.toList.all Text.isWord = true ∧ ∀ v ∈ p.default, v.IsWritable)
    ⟨fun h => ⟨List.all_eq_true.mp h.1, h.2⟩, fun h => ⟨List.all_eq_true.mpr h.name, h.default⟩⟩

/-- The kind that a parameter is read as where no slash has been read yet. -/
def Kind.unclosed : Kind → Kind
  | .positionalOnly => .positionalOrKeyword
  | kind => kind

/-- The part of a parameter's text that comes after its name. -/
def defaultText (cells : Cells) (p : Parameter) : List Char :=
  match p.default with
  | none => []
  | some v => '=' :: (v.shown cells).toList

theorem toList_text (cells : Cells) (p : Parameter) :
    (p.text cells).toList = (stars p.kind).toList ++ (p.name.toList ++ p.defaultText cells) := by
  cases h : p.default <;> simp [text, defaultText, h]

variable {p : Parameter}

theorem Legible.isPiece_name (h : p.Legible) (hname : p.name.isEmpty = false) :
    IsPiece p.name.toList := by
  refine .of_words ?_ h.name
  intro hnil
  rw [String.toList_eq_nil_iff.mp hnil] at hname
  cases hname

theorem Legible.isPiece_text (h : p.Legible) (hname : p.name.isEmpty = false) (cells : Cells) :
    IsPiece (p.text cells).toList := by
  have hbody : IsPiece (p.name.toList ++ p.defaultText cells) := by
    unfold defaultText
    split
    · rw [List.append_nil]
      exact h.isPiece_name hname
    · rename_i v hv
      have hequals : IsPiece ['='] := .mark rfl (by decide)
      exact (h.isPiece_name hname).append (hequals.append ((h.default v hv).isPiece cells))
  have hstar : IsPiece ['*'] := .mark rfl (by decide)
  rw [toList_text]
  cases p.kind with
  | positionalOnly | positionalOrKeyword | keywordOnly => exact hbody
  | varPositional => exact hstar.append hbody
  | varKeyword => exact (hstar.append hstar).append hbody

theorem Legible.head_ne_marks (h : p.Legible) : ∀ c ∈ p.name.toList.head?, c ≠ '*' ∧ c ≠ '/' := by
  intro c hc
  have hword := h.name c (List.mem_of_mem_head? hc)
  exact ⟨(Text.ne_of_isWord hword rfl).symm, (Text.ne_of_isWord hword rfl).symm⟩

end Parameter

namespace Signature

variable {p : Parameter} {ps : List Parameter}

theorem readPlain_text (h : p.Legible) (hname : p.name.isEmpty = false) (cells : Cells)
    (announced : Bool) :
    readPlain announced (p.name.toList ++ p.defaultText cells) =
      .ok { p with kind := if announced then .keywordOnly else .positionalOrKeyword } := by
  have hequals : '=' ∉ p.name.toList := fun hc => Text.ne_of_isWord (h.name _ hc) rfl rfl
  cases hd : p.default with
  | none =>
    rw [Parameter.defaultText, hd, List.append_nil, readPlain, Text.cut?_eq_none_iff.mpr hequals,
      String.ofList_toList]
  | some v =>
    have hv := h.default v hd
    simp only [Parameter.defaultText, hd, readPlain, Text.cut?_append hequals,
      (hv.isPiece cells).trim_eq, readDefault_shown hv, (h.isPiece_name hname).trim_eq,
      String.ofList_toList]
    rfl

/-- Text that starts with none of the marks is that of a plain parameter. -/
theorem readPiece_plain {announced : Bool} {cs : List Char}
    (h : ∀ c ∈ cs.head?, c ≠ '*' ∧ c ≠ '/') :
    readPiece announced cs = (readPlain announced cs).map .parameter := by
  unfold readPiece
  split
  · exact absurd rfl (h _ rfl).2
  · exact absurd rfl (h _ rfl).1
  · exact absurd rfl (h _ rfl).1
  · exact absurd rfl (h _ rfl).1
  · rfl

theorem readPiece_plain_text (h : p.Legible) (hname : p.name.isEmpty = false) (cells : Cells)
    (announced : Bool) :
    readPiece announced (p.name.toList ++ p.defaultText cells) = .ok (.parameter
      { p with kind := if announced then .keywordOnly else .positionalOrKeyword }) := by
  rw [readPiece_plain, readPlain_text h hname]
  · rfl
  · rw [List.head?_append_of_ne_nil _ (h.isPiece_name hname).nonempty]
    exact h.head_ne_marks

/-- A star parameter has no second star before its name. -/
theorem readPiece_star (announced : Bool) {name : List Char} (hne : name ≠ [])
    (h : ∀ c ∈ name.head?, c ≠ '*' ∧ c ≠ '/') :
    readPiece announced ('*' :: name) =
      .ok (.parameter ⟨String.ofList (Text.trim name), .varPositional, none⟩) := by
  obtain ⟨c, cs, rfl⟩ := List.exists_cons_of_ne_nil hne
  have hstar := (h c rfl).1
  simp [readPiece, hstar]

/-- Where a parameter stands decides whether a star has been announced. -/
theorem readPiece_text (h : p.Legible) (hname : p.name.isEmpty = false)
    (hvariadic : p.kind.isVariadic = true → p.isOptional = false) (cells : Cells)
    {announced : Bool} (hpositional : p.kind.isPositional = true → announced = false)
    (hkeyword : p.kind = .keywordOnly → announced = true) :
    readPiece announced (p.text cells).toList =
      .ok (.parameter { p with kind := p.kind.unclosed }) := by
  have hplain := readPiece_plain_text h hname cells announced
  have htrim := (h.isPiece_name hname).trim_eq
  have hmarks := h.head_ne_marks
  have hne := (h.isPiece_name hname).nonempty
  obtain ⟨name, kind, default⟩ := p
  rw [Parameter.toList_text]
  cases kind with
  | positionalOnly => rwa [hpositional rfl] at hplain ⊢
  | positionalOrKeyword => rwa [hpositional rfl] at hplain ⊢
  | keywordOnly => rwa [hkeyword rfl] at hplain ⊢
  | varPositional =>
    obtain rfl : default = none := by simpa [Parameter.isOptional] using hvariadic rfl
    have hstar := readPiece_star announced hne hmarks
    rw [htrim, String.ofList_toList] at hstar
    simpa [Parameter.stars, Parameter.defaultText, Parameter.Kind.unclosed] using hstar
  | varKeyword =>
    obtain rfl : default = none := by simpa [Parameter.isOptional] using hvariadic rfl
    simp [Parameter.stars, Parameter.defaultText, readPiece, htrim, Parameter.Kind.unclosed]

/-- The bare star before the first keyword-only parameter announces that parameter. -/
theorem readPieces_star (announced : Bool) (done : List Parameter) (kind : Parameter.Kind)
    (rest : List String) :
    readPieces announced done
        (((if kind = .keywordOnly ∧ !announced then ["*"] else []) ++ rest).map String.toList) =
      readPieces (announced || kind == .keywordOnly) done (rest.map String.toList) := by
  split
  · rename_i h
    have hflag : (announced || kind == .keywordOnly) = true := by simp [h.1]
    rw [hflag]
    simp [readPieces, readPiece]
  · rename_i h
    have hflag : (announced || kind == .keywordOnly) = announced := by
      cases announced <;> simp_all
    rw [hflag, List.nil_append]

/-- What the parameters `done` have become once those at the head of `ps` are closed by a slash. -/
def settled (done ps : List Parameter) : List Parameter :=
  if ps.head?.map (·.kind) = some .positionalOnly then done.map closePositional else done

theorem settled_cons (hfollow : ∀ q ∈ ps, mayFollow q p = true) (done : List Parameter) :
    settled (if p.kind = .positionalOnly ∧ ps.head?.map (·.kind) ≠ some .positionalOnly then
        (done ++ [{ p with kind := p.kind.unclosed }]).map closePositional
      else done ++ [{ p with kind := p.kind.unclosed }]) ps ++ ps =
    settled done (p :: ps) ++ p :: ps := by
  obtain ⟨name, kind, default⟩ := p
  by_cases hp : kind = .positionalOnly
  · subst hp
    by_cases hps : ps.head?.map (·.kind) = some .positionalOnly
    · simp [settled, hps, closePositional, Parameter.Kind.unclosed]
    · simp [settled, hps, closePositional, Parameter.Kind.unclosed]
  · have hps : ps.head?.map (·.kind) ≠ some .positionalOnly := by
      intro h
      obtain ⟨q, hq, hkind⟩ := Option.map_eq_some_iff.mp h
      exact hp (mayFollow_positionalOnly (hfollow q (List.mem_of_mem_head? hq)) hkind)
    have hunclosed : kind.unclosed = kind := by cases kind <;> first | rfl | exact absurd rfl hp
    simp [settled, hp, hps, hunclosed]

/-- The pieces of a parameter list, read after the parameters `done`. -/
theorem readPieces_textPieces (hw : WellFormed ps) (hl : ∀ p ∈ ps, p.Legible) (cells : Cells)
    {announced : Bool} (ha : announced = true → ∀ p ∈ ps, p.kind.isPositional = false)
    (done : List Parameter) :
    readPieces announced done ((textPieces cells announced ps).map String.toList) =
      .ok (settled done ps ++ ps) := by
  -- on the parameters still to be read; no positional one comes after a star
  induction ps generalizing announced done with
  | nil => simp [textPieces, readPieces, settled]
  | cons p ps ih =>
    have hfollow := (List.pairwise_cons.mp hw.ordered).1
    have hp : p ∈ p :: ps := List.mem_cons_self
    have hpositional : p.kind.isPositional = true →
        (announced || p.kind == .keywordOnly) = false := by
      intro h
      have hannounced : announced = false := by
        by_contra hc
        rw [ha (by simpa using hc) p hp] at h
        cases h
      rw [hannounced]
      cases hk : p.kind <;> simp_all [Parameter.Kind.isPositional]
    have hlater : (announced || p.kind == .varPositional || p.kind == .keywordOnly) = true →
        ∀ q ∈ ps, q.kind.isPositional = false := by
      intro h q hq
      by_contra hc
      have hpp := mayFollow_isPositional (hfollow q hq) (by simpa using hc)
      have hannounced := hpositional hpp
      cases hk : p.kind <;> simp_all [Parameter.Kind.isPositional]
    have hread := readPiece_text (hl p hp) (hw.named p hp) (hw.variadic_plain p hp) cells
      hpositional (fun h => by simp [h])
    have hrest := ih (hw.sublist (List.sublist_cons_self p ps))
      (fun q hq => hl q (List.mem_cons_of_mem p hq)) hlater
    have hflag : (announced || p.kind == .keywordOnly || p.kind.unclosed == .varPositional) =
        (announced || p.kind == .varPositional || p.kind == .keywordOnly) := by
      cases p.kind <;> cases announced <;> rfl
    rw [textPieces, List.append_assoc, readPieces_star, List.cons_append, List.map_cons, readPieces,
      hread]
    simp only [hflag]
    rw [← settled_cons hfollow, ← hrest]
    split <;> rfl

theorem isPiece_textPieces (hn : ∀ p ∈ ps, p.name.isEmpty = false) (hl : ∀ p ∈ ps, p.Legible)
    (cells : Cells) (announced : Bool) :
    ∀ s ∈ textPieces cells announced ps, IsPiece s.toList := by
  induction ps generalizing announced with
  | nil => simp [textPieces]
  | cons p ps ih =>
    intro s hs
    have hmark : ∀ {b : Prop} [Decidable b] {mark : String},
        s ∈ (if b then [mark] else []) → IsPiece mark.toList → IsPiece s.toList := by
      intro b _ mark hs hpiece
      split at hs
      · rwa [List.mem_singleton.mp hs]
      · cases hs
    rw [textPieces, List.mem_append, List.mem_append, List.mem_cons] at hs
    obtain (hs | rfl | hs) | hs := hs
    · exact hmark hs (.mark (c := '*') rfl (by decide))
    · exact (hl p List.mem_cons_self).isPiece_text (hn p List.mem_cons_self) cells
    · exact hmark hs (.mark (c := '/') rfl (by decide))
    · exact ih (fun q hq => hn q (List.mem_cons_of_mem p hq))
        (fun q hq => hl q (List.mem_cons_of_mem p hq)) _ s hs

theorem toList_text (cells : Cells) (sig : Signature) : (sig.text cells).toList =
    '(' :: ([',', ' '].intercalate ((textPieces cells false sig.parameters).map String.toList) ++
      [')']) := by
  simp [text, String.toList_intercalate]

/-- The text of a signature, where its names are words and its defaults can be written, is read as
that signature: the same parameters in the same order, with their names, kinds and defaults. -/
theorem read_text (cells : Cells) (sig : Signature) (h : ∀ p ∈ sig.parameters, p.Legible) :
    read (sig.text cells) = .ok sig := by
  have hpieces : ∀ cs ∈ (textPieces cells false sig.parameters).map String.toList, IsPiece cs := by
    intro cs hcs
    obtain ⟨s, hs, rfl⟩ := List.mem_map.mp hcs
    exact isPiece_textPieces sig.wellFormed.named h cells false s hs
  have hread : readPieces false [] ((textPieces cells false sig.parameters).map String.toList) =
      .ok sig.parameters := by
    rw [readPieces_textPieces sig.wellFormed h cells (fun hf => by cases hf)]
    simp [settled]
  rw [read, toList_text, splitText_intercalate hpieces, hread]
  exact ofParameters_self sig

/-- All five kinds, with defaults that hold the marks of the text around them. -/
theorem read_text_all_kinds :
    let sig : Signature := ⟨[{ name := "x", kind := .positionalOnly },
      { name := "y", kind := .positionalOnly, default := some (.str "it's (= / *) \"so\"") },
      { name := "z_2", kind := .positionalOrKeyword, default := some (.int (-40)) },
      { name := "rest", kind := .varPositional },
      { name := "k", kind := .keywordOnly, default := some (.str "") },
      { name := "flag", kind := .keywordOnly, default := some (.bool true) },
      { name := "none", kind := .keywordOnly, default := some .absent },
      { name := "others", kind := .varKeyword }], rfl⟩
    let text :=
      "(x, y='it's (= / *) \"so\"', /, z_2=-40, *rest, k='', flag=True, none=None, **others)"
    let cells : Cells := ⟨fun _ => .scalar .nan⟩
    (∀ p ∈ sig.parameters, p.Legible) ∧ sig.text cells = text ∧ read text = .ok sig := by
  intro sig text cells
  have hl : ∀ p ∈ sig.parameters, p.Legible := by decide
  have htext : sig.text cells = text := by decide +kernel
  exact ⟨hl, htext, htext ▸ read_text cells sig hl⟩

end Signature

end Staging
